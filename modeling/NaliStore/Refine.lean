import NaliStore.Logdb

/-!
# The store refines a finite map

The simulation between `logdb` (log, page table, record bytes and index) and a finite
map. `Logdb.Inv` ties the index to the log: every packed address in the index is that of
a slot that was handed out, in the shard of the key, holding an INSERT or UPDATE record
of the key. `Logdb.abs` is the map a state represents: the payload of the record the
index names. Writes only ever extend the log (`LogKV.Extends`), so each operation is one
extension of the log and one change of the index.
-/

namespace NaliStore

open Runs

variable {cfg : Config}

/-! ## From packed addresses to slots -/

/-- The slot a packed address names for a key. -/
def Config.slotOf (cfg : Config) (key addrInfo : UInt64) : Slot cfg :=
  let logInfo := LastLogOffest.ofAddrInfo addrInfo
  ⟨⟨⟨logInfo.numaId.toNat % 2, Nat.mod_lt _ (by decide)⟩, cfg.shard key⟩,
    logInfo.ppageId.toNat * slotsPerPage + logInfo.logOffset.toNat / PairT.size⟩

/-- The packed address of a slot names the slot. -/
theorem Config.slotOf_word {σ : Slot cfg} {key : UInt64} (hσ : σ.pos < logCapacity)
    (hhash : σ.log.hash = cfg.shard key) : cfg.slotOf key σ.word = σ := by
  obtain ⟨hn, hp, ho⟩ := Slot.toNat_info hσ PairT.vlen
  have hnuma : (σ.log.numa : ℕ) < 2 := σ.log.numa.isLt
  have hinfo : LastLogOffest.ofAddrInfo σ.word = σ.info PairT.vlen :=
    LastLogOffest.ofAddrInfo_toUint64Offset _
  refine Slot.ext (LogId.ext (Fin.ext ?_) hhash.symm) ?_
  · simp only [slotOf, hinfo, hn]
    exact Nat.mod_eq_of_lt hnuma
  · simp only [slotOf, hinfo, hp, ho, Slot.pageId, Slot.off, PairT.size, slotsPerPage]
    omega

/-! ## Extending the log -/

/-- A log state in which every slot handed out before still holds its record. -/
structure LogKV.Extends (s t : LogKV cfg) : Prop where
  /-- the slot invariant holds -/
  slotted : t.Slotted
  /-- no slot is taken back -/
  live : ∀ σ, s.Live σ → t.Live σ
  /-- no record is changed -/
  recAt : ∀ σ, s.Live σ → t.recAt σ = s.recAt σ

namespace LogKV

variable {s : LogKV cfg} {threadId : Fin 64} {key : UInt64}

/-- A log grows. -/
theorem Extends.used_le {t : LogKV cfg} (h : s.Extends t) (l : LogId cfg) :
    s.used l ≤ t.used l := by
  by_contra hlt
  exact lt_irrefl _ (h.live ⟨l, t.used l⟩ (Nat.not_le.mp hlt))

theorem Slotted.extends_refl (h : s.Slotted) : s.Extends s where
  slotted := h
  live _ hσ := hσ
  recAt _ _ := rfl

theorem Extends.trans {t u : LogKV cfg} (h₁ : s.Extends t) (h₂ : t.Extends u) : s.Extends u where
  slotted := h₂.slotted
  live σ hσ := h₂.live σ (h₁.live σ hσ)
  recAt σ hσ := (h₂.recAt σ (h₁.live σ hσ)).trans (h₁.recAt σ hσ)

theorem Slotted.extends_reserve (h : s.Slotted) (hroom : s.Room threadId key) :
    s.Extends (s.reserve threadId key) where
  slotted := h.reserve hroom
  live _ hσ := (live_reserve h).mpr (.inl hσ)
  recAt σ _ := by rw [recAt_reserve h]

theorem Slotted.extends_append (h : s.Slotted) (hroom : s.Room threadId key) (r : PairT) :
    s.Extends (s.append threadId key r) where
  slotted := h.append hroom
  live _ hσ := (live_append h).mpr (.inl hσ)
  recAt _ hσ := recAt_append_of_live h hσ

end LogKV

/-- Every written record is in the shard of its key. -/
def LogKV.Placed (s : LogKV cfg) : Prop :=
  ∀ σ, (s.recAt σ).op ≠ .trash → σ.log.hash = cfg.shard (s.recAt σ).key

/-! ## The simulation relation -/

/-- The record of a key that the index may name. -/
def PairT.Maps (r : PairT) (key : UInt64) : Prop :=
  r.key = key ∧ (r.op = .insert ∨ r.op = .update)

namespace Logdb

/-- A slot that the index may name for a key. -/
structure Target (log : LogKV cfg) (key : UInt64) (σ : Slot cfg) : Prop where
  /-- the slot has been handed out -/
  live : log.Live σ
  /-- it is in the shard of the key -/
  shard : σ.log.hash = cfg.shard key
  /-- it holds a record that maps the key -/
  maps : (log.recAt σ).Maps key

theorem Target.mono {s t : LogKV cfg} (hext : s.Extends t) {key : UInt64} {σ : Slot cfg}
    (h : Target s key σ) : Target t key σ where
  live := hext.live σ h.live
  shard := h.shard
  maps := by rw [hext.recAt σ h.live]; exact h.maps

/-- The invariant of a store between two calls. -/
structure Inv (s : Logdb cfg) : Prop where
  /-- the log consists of fixed-size slots -/
  slotted : s.log.Slotted
  /-- every index entry is the packed address of a slot of the key -/
  entry : ∀ k w, s.db k = some w → ∃ σ, w = σ.word ∧ Target s.log k σ

/-- The finite map a state represents. -/
def abs (s : Logdb cfg) (k : UInt64) : Option UInt64 :=
  (s.db k).map fun w => (s.log.recAt (cfg.slotOf k w)).value

theorem inv_fresh (cfg : Config) : (fresh cfg).Inv where
  slotted := LogKV.slotted_fresh cfg
  entry _ _ h := nomatch h

section Simulation

variable {s : Logdb cfg} {log : LogKV cfg} {k : UInt64} {σ : Slot cfg}

theorem Inv.slotOf_word (h : s.Inv) (hσ : Target s.log k σ) : cfg.slotOf k σ.word = σ :=
  Config.slotOf_word (h.slotted.lt_capacity hσ.live) hσ.shard

/-- The map at a key whose index entry is known. -/
theorem Inv.abs_of_db (h : s.Inv) (hdb : s.db k = some σ.word) (hσ : Target s.log k σ) :
    s.abs k = some (s.log.recAt σ).value := by
  rw [abs, hdb, Option.map_some, h.slotOf_word hσ]

/-- **A search reads the map.** -/
theorem Inv.search_eq (h : s.Inv) (k : UInt64) : s.search k = .ok (s.abs k) := by
  cases hdb : s.db k with
  | none =>
    rw [search, abs, hdb]
    rfl
  | some w =>
    obtain ⟨σ, rfl, hσ⟩ := h.entry k w hdb
    rw [h.abs_of_db hdb hσ, search, hdb]
    simp only [h.slotted.getAddr_eq hσ.live hσ.shard, bind, Except.bind,
      h.slotted.readPayload_eq hσ.live]
    rfl

theorem isSome_abs (s : Logdb cfg) (k : UInt64) : (s.abs k).isSome = (s.db k).isSome := by
  rw [abs, Option.isSome_map]

/-- Extending the log keeps the invariant and the map. -/
theorem Inv.extend (h : s.Inv) (hext : s.log.Extends log) :
    Inv ⟨log, s.db⟩ ∧ abs ⟨log, s.db⟩ = s.abs := by
  have hinv : Inv ⟨log, s.db⟩ := by
    refine ⟨hext.slotted, fun k w hdb => ?_⟩
    obtain ⟨σ, rfl, hσ⟩ := h.entry k w hdb
    exact ⟨σ, rfl, hσ.mono hext⟩
  refine ⟨hinv, ?_⟩
  funext k
  cases hdb : s.db k with
  | none => simp only [abs, hdb, Option.map_none]
  | some w =>
    obtain ⟨σ, rfl, hσ⟩ := h.entry k w hdb
    rw [h.abs_of_db hdb hσ, hinv.abs_of_db hdb (hσ.mono hext), hext.recAt σ hσ.live]

/-- Extending the log and mapping a key to a slot of it maps the key to its payload. -/
theorem Inv.remap (h : s.Inv) (hext : s.log.Extends log) (hσ : Target log k σ) :
    Inv ⟨log, Function.update s.db k (some σ.word)⟩ ∧
      abs ⟨log, Function.update s.db k (some σ.word)⟩ =
        Function.update s.abs k (some (log.recAt σ).value) := by
  obtain ⟨hinv, habs⟩ := h.extend hext
  have hinv' : Inv ⟨log, Function.update s.db k (some σ.word)⟩ := by
    refine ⟨hext.slotted, fun k' w hdb => ?_⟩
    by_cases hk : k' = k
    · subst hk
      simp only [Function.update_self, Option.some_inj] at hdb
      exact ⟨σ, hdb.symm, hσ⟩
    · simp only [Function.update_of_ne hk] at hdb
      exact hinv.entry k' w hdb
  refine ⟨hinv', ?_⟩
  funext k'
  by_cases hk : k' = k
  · subst hk
    rw [Function.update_self, hinv'.abs_of_db (Function.update_self ..) hσ]
  · simp only [Function.update_of_ne hk, ← habs, abs]

/-- Extending the log and dropping a key from the index drops it from the map. -/
theorem Inv.unmap (h : s.Inv) (hext : s.log.Extends log) :
    Inv ⟨log, Function.update s.db k none⟩ ∧
      abs ⟨log, Function.update s.db k none⟩ = Function.update s.abs k none := by
  obtain ⟨hinv, habs⟩ := h.extend hext
  constructor
  · refine ⟨hext.slotted, fun k' w hdb => ?_⟩
    by_cases hk : k' = k
    · subst hk
      simp only [Function.update_self] at hdb
      cases hdb
    · simp only [Function.update_of_ne hk] at hdb
      exact hinv.entry k' w hdb
  · funext k'
    by_cases hk : k' = k
    · subst hk
      simp only [Function.update_self, abs, Option.map_none]
    · simp only [Function.update_of_ne hk, ← habs, abs]

/-- The slot an append of a mapping record fills is a target. -/
theorem target_append (hs : s.log.Slotted) {threadId : Fin 64} {r : PairT} (hr : r.Maps k) :
    Target (s.log.append threadId k r) k (s.log.nextSlot (cfg.logFor threadId k)) where
  live := (LogKV.live_append hs).mpr (.inr rfl)
  shard := rfl
  maps := by rw [LogKV.recAt_append_self hs]; exact hr

end Simulation

end Logdb

/-! ## Sequences of calls -/

/-- A call of the store's interface. -/
inductive Op where
  /-- `insert(key, payload)` -/
  | insert (key payload : UInt64)
  /-- `update(key, payload)` -/
  | update (key payload : UInt64)
  /-- `erase(key)` -/
  | erase (key : UInt64)
  /-- `search(key, payload)` below the cache -/
  | search (key : UInt64)
  deriving DecidableEq

/-- A call and the thread that makes it. -/
structure Call where
  /-- `global_thread_id` -/
  threadId : Fin 64
  /-- the call -/
  op : Op
  deriving DecidableEq

/-- What a call returns. -/
inductive Ret where
  /-- the boolean of a write -/
  | bool (b : Bool)
  /-- a search: the payload, or false -/
  | found (payload : Option UInt64)
  deriving DecidableEq

/-- One call on the store. -/
def Logdb.step (s : Logdb cfg) (c : Call) : Except Fault (Ret × Logdb cfg) :=
  match c.op with
  | .insert k v => do
    let (ret, s) ← s.insert c.threadId k v
    pure (.bool ret, s)
  | .update k v => do
    let (ret, s) ← s.update c.threadId k v
    pure (.bool ret, s)
  | .erase k => do
    let (ret, s) ← s.erase c.threadId k
    pure (.bool ret, s)
  | .search k => do
    let ret ← s.search k
    pure (.found ret, s)

/-- The same call on a finite map. -/
def mapStep (m : UInt64 → Option UInt64) (c : Call) : Ret × (UInt64 → Option UInt64) :=
  match c.op with
  | .insert k v =>
    if (m k).isNone then (.bool true, Function.update m k (some v)) else (.bool false, m)
  | .update k v =>
    if (m k).isSome then (.bool true, Function.update m k (some v)) else (.bool false, m)
  | .erase k => (.bool (m k).isSome, Function.update m k none)
  | .search k => (.found (m k), m)

/-- The log a call appends a record to, if any. -/
def Call.log? (cfg : Config) (c : Call) : Option (LogId cfg) :=
  match c.op with
  | .insert k _ | .update k _ | .erase k => some (cfg.logFor c.threadId k)
  | .search _ => none

namespace Logdb

section Steps

variable {s : Logdb cfg} {c : Call}

/-- The call finds a slot in its log. -/
def CallRoom (s : Logdb cfg) (c : Call) : Prop :=
  ∀ l, c.log? cfg = some l → s.log.used l < logCapacity

/-- **One call refines one map operation**, and uses one slot of its log if it writes. -/
theorem step_refines (h : s.Inv) (hroom : s.CallRoom c) :
    ∃ s', s.step c = .ok ((mapStep s.abs c).1, s') ∧ s'.Inv ∧ s'.abs = (mapStep s.abs c).2 ∧
      ∀ l, s'.log.used l = s.log.used l + if c.log? cfg = some l then 1 else 0 := by
  have hs := h.slotted
  have hused : ∀ (k : UInt64) (l : LogId cfg), Function.update s.log.used
      (cfg.logFor c.threadId k) (s.log.used (cfg.logFor c.threadId k) + 1) l =
      s.log.used l + if some (cfg.logFor c.threadId k) = some l then 1 else 0 := by
    intro k l
    by_cases hl : l = cfg.logFor c.threadId k
    · subst hl
      rw [Function.update_self, if_pos rfl]
    · rw [Function.update_of_ne hl, if_neg fun hc => hl (Option.some_inj.mp hc).symm,
        Nat.add_zero]
  obtain ⟨tid, op⟩ := c
  cases op with
  | insert k v =>
    have hr : s.log.Room tid k := hroom _ rfl
    have hext := hs.extends_append hr (.insertRec (s.log.versionFor k) k v)
    cases hdb : s.db k with
    | none =>
      have hm : mapStep s.abs ⟨tid, .insert k v⟩ =
          (.bool true, Function.update s.abs k (some v)) := by
        simp [mapStep, abs, hdb]
      obtain ⟨hinv, habs⟩ := h.remap hext (target_append hs ⟨rfl, .inl rfl⟩)
      rw [LogKV.recAt_append_self hs] at habs
      refine ⟨_, ?_, hinv, ?_, fun l => ?_⟩
      · simp only [hm, step, insert_eq hs, if_pos hr, hdb]
        rfl
      · rw [hm, habs]
        rfl
      · exact (congrFun (LogKV.used_append hs) l).trans (hused k l)
    | some w =>
      have hm : mapStep s.abs ⟨tid, .insert k v⟩ = (.bool false, s.abs) := by
        simp [mapStep, abs, hdb]
      obtain ⟨hinv, habs⟩ := h.extend hext
      refine ⟨_, ?_, hinv, ?_, fun l => ?_⟩
      · simp only [hm, step, insert_eq hs, if_pos hr, hdb]
        rfl
      · rw [hm, habs]
      · exact (congrFun (LogKV.used_append hs) l).trans (hused k l)
  | update k v =>
    have hr : s.log.Room tid k := hroom _ rfl
    cases hdb : s.db k with
    | none =>
      have hm : mapStep s.abs ⟨tid, .update k v⟩ = (.bool false, s.abs) := by
        simp [mapStep, abs, hdb]
      obtain ⟨hinv, habs⟩ := h.extend (hs.extends_reserve hr)
      refine ⟨_, ?_, hinv, ?_, fun l => ?_⟩
      · simp only [hm, step, update_eq_of_none hs v hdb, if_pos hr]
        rfl
      · rw [hm, habs]
      · exact (congrFun (LogKV.used_reserve hs) l).trans (hused k l)
    | some w =>
      have hm : mapStep s.abs ⟨tid, .update k v⟩ =
          (.bool true, Function.update s.abs k (some v)) := by
        simp [mapStep, abs, hdb]
      have hext := hs.extends_append hr (.updateRec (s.log.versionFor k) k v w)
      obtain ⟨hinv, habs⟩ := h.remap hext (target_append hs ⟨rfl, .inr rfl⟩)
      rw [LogKV.recAt_append_self hs] at habs
      refine ⟨_, ?_, hinv, ?_, fun l => ?_⟩
      · simp only [hm, step, update_eq_of_some hs v hdb, if_pos hr]
        rfl
      · rw [hm, habs]
        rfl
      · exact (congrFun (LogKV.used_append hs) l).trans (hused k l)
  | erase k =>
    have hr : s.log.Room tid k := hroom _ rfl
    have hext := hs.extends_append hr
      (.deleteRec (s.log.versionFor k) cfg.uninit k ((s.db k).getD 0))
    have hm : mapStep s.abs ⟨tid, .erase k⟩ =
        (.bool (s.db k).isSome, Function.update s.abs k none) := by
      simp only [mapStep, s.isSome_abs]
    obtain ⟨hinv, habs⟩ := h.unmap (k := k) hext
    refine ⟨_, ?_, hinv, ?_, fun l => ?_⟩
    · simp only [hm, step, erase_eq hs, if_pos hr]
      rfl
    · rw [hm, habs]
    · exact (congrFun (LogKV.used_append hs) l).trans (hused k l)
  | search k =>
    refine ⟨s, ?_, h, rfl, fun l => (Nat.add_zero _).symm⟩
    simp only [step, mapStep, h.search_eq]
    rfl

/-- What a call that returned did to the store. -/
inductive StepTo (s : Logdb cfg) (threadId : Fin 64) : Op → Logdb cfg → Prop
  /-- `insert` of an absent key -/
  | inserted (k v : UInt64) : s.db k = none → s.log.Room threadId k →
      StepTo s threadId (.insert k v)
        ⟨s.log.append threadId k (.insertRec (s.log.versionFor k) k v),
          Function.update s.db k (some (s.log.nextSlot (cfg.logFor threadId k)).word)⟩
  /-- `insert` of a present key leaves its record behind -/
  | rejected (k v w : UInt64) : s.db k = some w → s.log.Room threadId k →
      StepTo s threadId (.insert k v)
        ⟨s.log.append threadId k (.insertRec (s.log.versionFor k) k v), s.db⟩
  /-- `update` of a present key -/
  | updated (k v w : UInt64) : s.db k = some w → s.log.Room threadId k →
      StepTo s threadId (.update k v)
        ⟨s.log.append threadId k (.updateRec (s.log.versionFor k) k v w),
          Function.update s.db k (some (s.log.nextSlot (cfg.logFor threadId k)).word)⟩
  /-- `update` of an absent key leaves a hole behind -/
  | missed (k v : UInt64) : s.db k = none → s.log.Room threadId k →
      StepTo s threadId (.update k v) ⟨s.log.reserve threadId k, s.db⟩
  /-- `erase`, of a present or absent key -/
  | erased (k : UInt64) : s.log.Room threadId k →
      StepTo s threadId (.erase k)
        ⟨s.log.append threadId k
          (.deleteRec (s.log.versionFor k) cfg.uninit k ((s.db k).getD 0)),
          Function.update s.db k none⟩
  /-- `search` -/
  | searched (k : UInt64) : StepTo s threadId (.search k) s

/-- Inversion of a call that returned. -/
theorem step_cases (hs : s.log.Slotted) {r : Ret} {s' : Logdb cfg}
    (h : s.step c = .ok (r, s')) : StepTo s c.threadId c.op s' := by
  obtain ⟨tid, op⟩ := c
  cases op with
  | insert k v =>
    simp only [step, insert_eq hs] at h
    split at h
    · rename_i hroom
      obtain ⟨-, rfl⟩ := Prod.mk.inj (Except.ok.inj h)
      cases hdb : s.db k with
      | none => exact .inserted k v hdb hroom
      | some w => exact .rejected k v w hdb hroom
    · cases h
  | update k v =>
    cases hdb : s.db k with
    | none =>
      simp only [step, update_eq_of_none hs v hdb] at h
      split at h
      · obtain ⟨-, rfl⟩ := Prod.mk.inj (Except.ok.inj h)
        exact .missed k v hdb ‹_›
      · cases h
    | some w =>
      simp only [step, update_eq_of_some hs v hdb] at h
      split at h
      · obtain ⟨-, rfl⟩ := Prod.mk.inj (Except.ok.inj h)
        exact .updated k v w hdb ‹_›
      · cases h
  | erase k =>
    simp only [step, erase_eq hs] at h
    split at h
    · obtain ⟨-, rfl⟩ := Prod.mk.inj (Except.ok.inj h)
      exact .erased k ‹_›
    · cases h
  | search k =>
    obtain ⟨ret, -, hret⟩ := bind_eq_ok h
    obtain ⟨-, rfl⟩ := Prod.mk.inj (Except.ok.inj hret)
    exact .searched k

/-- A call that returned had room. -/
theorem callRoom_of_step (hs : s.log.Slotted) {r : Ret} {s' : Logdb cfg}
    (h : s.step c = .ok (r, s')) : s.CallRoom c := by
  have hcases := step_cases hs h
  obtain ⟨tid, op⟩ := c
  intro l hl
  cases hcases with
  | inserted k v _ hroom => exact Option.some_inj.mp hl ▸ hroom
  | rejected k v w _ hroom => exact Option.some_inj.mp hl ▸ hroom
  | updated k v w _ hroom => exact Option.some_inj.mp hl ▸ hroom
  | missed k v _ hroom => exact Option.some_inj.mp hl ▸ hroom
  | erased k hroom => exact Option.some_inj.mp hl ▸ hroom
  | searched k => cases hl

end Steps

/-! ## Reachable stores -/

/-- The store some sequence of calls leads to. -/
def Reachable (s : Logdb cfg) : Prop :=
  ∃ (cs : List Call) (rets : List Ret), exec step (fresh cfg) cs = .ok (rets, s)

/-- A call that returned did what it does to the map. -/
theorem Inv.step_spec {s s' : Logdb cfg} {c : Call} {r : Ret} (h : s.Inv)
    (hstep : s.step c = .ok (r, s')) :
    r = (mapStep s.abs c).1 ∧ s'.Inv ∧ s'.abs = (mapStep s.abs c).2 := by
  obtain ⟨t, hok, hinv, habs, -⟩ := step_refines h (callRoom_of_step h.slotted hstep)
  rw [hstep] at hok
  obtain ⟨hr, rfl⟩ := Prod.mk.inj (Except.ok.inj hok)
  exact ⟨hr, hinv, habs⟩

theorem Inv.step {s s' : Logdb cfg} {c : Call} {r : Ret} (h : s.Inv)
    (hstep : s.step c = .ok (r, s')) : s'.Inv := (h.step_spec hstep).2.1

theorem Reachable.inv {s : Logdb cfg} (h : s.Reachable) : s.Inv := by
  obtain ⟨cs, rets, hexec⟩ := h
  exact exec_invariant (I := Inv) (fun _ _ _ _ => Inv.step) cs _ (inv_fresh cfg) hexec

/-- Appending a record to the log of its own key keeps every record placed. -/
theorem placed_append {log : LogKV cfg} {threadId : Fin 64} {k : UInt64} {r : PairT}
    (hs : log.Slotted) (hp : log.Placed) (hkey : r.key = k) :
    (log.append threadId k r).Placed := by
  intro σ hop
  rw [LogKV.recAt_append hs] at hop ⊢
  by_cases hσ : σ = log.nextSlot (cfg.logFor threadId k)
  · rw [hσ, Function.update_self, hkey]
    rfl
  · rw [Function.update_of_ne hσ] at hop ⊢
    exact hp σ hop

theorem Reachable.placed {s : Logdb cfg} (h : s.Reachable) : s.log.Placed := by
  obtain ⟨cs, rets, hexec⟩ := h
  have hstep : ∀ (s : Logdb cfg) (c : Call) (r : Ret) (t : Logdb cfg),
      s.Inv ∧ s.log.Placed → s.step c = .ok (r, t) → t.Inv ∧ t.log.Placed := by
    rintro s c r t ⟨hinv, hp⟩ hst
    refine ⟨hinv.step hst, ?_⟩
    have hcases := step_cases hinv.slotted hst
    obtain ⟨tid, op⟩ := c
    cases hcases with
    | inserted k v _ _ => exact placed_append hinv.slotted hp rfl
    | rejected k v w _ _ => exact placed_append hinv.slotted hp rfl
    | updated k v w _ _ => exact placed_append hinv.slotted hp rfl
    | missed k v _ _ =>
      intro σ hop
      rw [LogKV.recAt_reserve hinv.slotted] at hop ⊢
      exact hp σ hop
    | erased k _ => exact placed_append hinv.slotted hp rfl
    | searched k => exact hp
  refine (exec_invariant (I := fun s => s.Inv ∧ s.log.Placed) hstep cs _
    ⟨inv_fresh cfg, fun σ hop => ?_⟩ hexec).2
  exact absurd (congrArg PairT.op (LogKV.recAt_fresh σ)) hop

/-- The calls of a sequence that append to log `l`. -/
def writesTo (l : LogId cfg) (cs : List Call) : ℕ :=
  cs.countP fun c => c.log? cfg = some l

/-- No log goes past its last page: the records of each fit in `MAX_LOF_FILE_ID` pages. -/
def FitsPages (cfg : Config) (cs : List Call) : Prop :=
  ∀ l : LogId cfg, writesTo l cs * PairT.size ≤ maxLofFileId * ppageSize

/-- A short sequence fits. -/
theorem fitsPages_of_length {cs : List Call} (h : cs.length ≤ logCapacity) :
    FitsPages cfg cs := by
  intro l
  have hle : writesTo l cs ≤ cs.length := List.countP_le_length
  simp only [PairT.size, maxLofFileId, ppageSize_eq, logCapacity] at *
  omega

theorem writesTo_cons (l : LogId cfg) (c : Call) (cs : List Call) :
    writesTo l (c :: cs) = writesTo l cs + if c.log? cfg = some l then 1 else 0 := by
  simp only [writesTo, List.countP_cons, decide_eq_true_eq]

/-- What a sequence of calls that fits the pages leads to. -/
theorem exec_eq {cs : List Call} (hfit : FitsPages cfg cs) :
    ∃ s : Logdb cfg,
      exec step (fresh cfg) cs = .ok ((specRun mapStep (fun _ => none) cs).1, s) ∧ s.Inv ∧
        s.abs = (specRun mapStep (fun _ => none) cs).2 ∧ ∀ l, s.log.used l = writesTo l cs := by
  -- the relation carries the slots the remaining calls will take
  let R : List Call → Logdb cfg → (UInt64 → Option UInt64) → Prop := fun rest s m =>
    s.Inv ∧ s.abs = m ∧ ∀ l, s.log.used l + writesTo l rest = writesTo l cs
  have hstep : ∀ c rest s m, R (c :: rest) s m →
      ∃ s', step s c = .ok ((mapStep m c).1, s') ∧ R rest s' (mapStep m c).2 := by
    rintro c rest s m ⟨hinv, rfl, hbudget⟩
    have hroom : s.CallRoom c := by
      intro l hl
      have hb := hbudget l
      have hf := hfit l
      rw [writesTo_cons, if_pos hl] at hb
      simp only [PairT.size, maxLofFileId, ppageSize_eq, logCapacity] at *
      omega
    obtain ⟨s', hok, hinv', habs, hused⟩ := step_refines hinv hroom
    refine ⟨s', hok, hinv', habs, fun l => ?_⟩
    have hb := hbudget l
    rw [writesTo_cons] at hb
    rw [hused]
    omega
  have hinit : R cs (fresh cfg) fun _ => none := by
    refine ⟨inv_fresh cfg, rfl, fun l => ?_⟩
    have h0 : (fresh cfg).log.used l = 0 := LogKV.used_fresh l
    rw [h0, Nat.zero_add]
  obtain ⟨s, hexec, hinv, habs, hused⟩ := exec_refines R hstep cs _ _ hinit
  refine ⟨s, hexec, hinv, habs, fun l => ?_⟩
  have hnil : writesTo l [] = 0 := List.countP_nil
  have hl := hused l
  omega

/-- **Log plus index refine a finite map.** For every sequence of calls that fits the
pages, by threads of either node, every call returns what the same call on a finite map
returns, the store does not fault, and afterwards a search of any key finds what the map
holds. -/
theorem refines_finite_map (cfg : Config) (cs : List Call) (hfit : FitsPages cfg cs) :
    ∃ s : Logdb cfg,
      exec step (fresh cfg) cs = .ok ((specRun mapStep (fun _ => none) cs).1, s) ∧
        ∀ k, s.search k = .ok ((specRun mapStep (fun _ => none) cs).2 k) := by
  obtain ⟨s, hexec, hinv, habs, -⟩ := exec_eq hfit
  exact ⟨s, hexec, fun k => by rw [hinv.search_eq, habs]⟩

/-- Two threads of different nodes on one key, with a rejected insert and an update of an
absent key. -/
def twoNodes : List Call :=
  [⟨0, .insert 2 7⟩, ⟨16, .insert 2 8⟩, ⟨0, .update 3 1⟩, ⟨16, .update 2 9⟩, ⟨0, .search 2⟩,
    ⟨16, .erase 2⟩]

theorem refines_finite_map_two_nodes :
    ∃ s : Logdb oneShard,
      exec step (fresh oneShard) twoNodes =
        .ok ([.bool true, .bool false, .bool false, .bool true, .found (some 9), .bool true], s) ∧
        s.search 2 = .ok none := by
  have hfit : FitsPages oneShard twoNodes := fitsPages_of_length (by decide)
  obtain ⟨s, hexec, hsearch⟩ := refines_finite_map oneShard twoNodes hfit
  have hspec : specRun mapStep (fun _ => none) twoNodes =
      ([.bool true, .bool false, .bool false, .bool true, .found (some 9), .bool true],
        (specRun mapStep (fun _ => none) twoNodes).2) := rfl
  refine ⟨s, ?_, ?_⟩
  · rw [hexec, hspec]
  · rw [hsearch]
    rfl

end Logdb

end NaliStore
