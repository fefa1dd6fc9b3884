import NaliStore.Reader
import NaliStore.Chain

/-!
# Relocation against foreground updates

The second phase of `do_gc` reads the key and value of a record in an old page and calls
`db_->update` with them. It does not look whether the index still names the record it
has read. A foreground update of the key that comes between the two is undone.

While every relocation of a key finds the index still naming the record it has read, the
last foreground write of the key stays: the relocation brings the payload that is there.
-/

namespace NaliStore

open Runs

variable {cfg : Config}

/-- The record a relocation in front of its index update has read. -/
def Pc.relocates (pc : Pc cfg) : Option (Slot cfg) :=
  match pc with
  | .updateAllocated src _ _ _ => src
  | _ => none

namespace Sys

/-- The step is an index write of a foreground call. -/
def ForegroundWrite (s : Sys cfg) (k : UInt64) (a : Action cfg) : Prop :=
  ∃ t, a = .run t ∧ (s.threads t).WritesIndex k ∧ (s.threads t).relocates = none

/-- If the step is the index update of a relocation, the index still names the record the
relocation has read. -/
def RelocatesCurrent (s : Sys cfg) (k : UInt64) (a : Action cfg) : Prop :=
  ∀ t σ, a = .run t → (s.threads t).WritesIndex k → (s.threads t).relocates = some σ →
    s.store.db k = some σ.word

/-! ## The payload a key holds -/

/-- The index names a record of the key with the payload, stored or about to be. -/
def Holds (s : Sys cfg) (k v : UInt64) : Prop :=
  ∃ σ : Slot cfg, s.store.db k = some σ.word ∧ s.Names k σ v

section Holds

variable {s s' : Sys cfg} {k v : UInt64} {t : ℕ}

/-- A slot that holds a record of the key is named with the payload of that record. -/
theorem Safe.value_unique (h : s.Safe) {σ : Slot cfg} {v' : UInt64} (hn : s.Names k σ v)
    (hw : s.Written k σ v') : v' = v := by
  rcases hn with hw' | ⟨-, -, u, r, hp, -, -⟩
  · exact hw.2.symm.trans hw'.2
  · -- the slot would still be blank
    obtain ⟨-, hblank, -⟩ := h.pending u σ r hp.pending
    have hop := hw.1.maps.ne_trash
    rw [hblank] at hop
    exact absurd rfl hop

/-- An index update that finds its key leaves the key with the payload it brings. -/
theorem Safe.holds_of_update (h : s.Safe) {src : Option (Slot cfg)} {p : PairT}
    {logAddr : Ptr cfg} {w : UInt64} (hth : s.threads t = .updateAllocated src p logAddr w)
    (hpresent : (s.store.db p.key).isSome) (hstep : s.step (.run t) = .ok s') :
    s'.Holds p.key p.value := by
  obtain ⟨old, hold⟩ := Option.isSome_iff_exists.mp hpresent
  have hpc := h.pcs t
  rw [hth] at hpc
  obtain ⟨-, -, -, σ, rfl, rfl⟩ := hpc
  have hp : (s.threads t).Pending σ p := by rw [hth]; exact ⟨rfl, rfl⟩
  obtain ⟨hlive, -, hshard⟩ := h.pending t σ p hp
  simp only [Sys.step, Sys.runThread, hth, Index.update, hold] at hstep
  obtain rfl := Except.ok.inj hstep
  refine ⟨σ, Function.update_self .., .inr ⟨hlive, hshard, t, p.setLastLogOffest old, ?_, rfl,
    rfl⟩⟩
  rw [next_threads_self]
  exact ⟨rfl, rfl⟩

/-- **One step keeps the payload**, unless it is a foreground write of the key, or a
relocation that finds the index naming another record. -/
theorem Safe.holds_step (h : s.Safe) (hv : s.Holds k v) {a : Action cfg}
    (hfore : ¬ s.ForegroundWrite k a) (hcur : s.RelocatesCurrent k a)
    (hstep : s.step a = .ok s') : s'.Holds k v := by
  obtain ⟨σ, hdb, hn⟩ := hv
  by_cases hwrites : ∃ t, a = .run t ∧ (s.threads t).WritesIndex k
  · obtain ⟨t, rfl, hw⟩ := hwrites
    cases hth : s.threads t with
    | updateAllocated src p logAddr w =>
      cases src with
      | none => exact absurd ⟨t, rfl, hw, by rw [hth]; rfl⟩ hfore
      | some τ =>
        -- the record that was read is the one the index names
        have hdb' := hcur t τ rfl hw (by rw [hth]; rfl)
        rw [hth] at hw
        obtain rfl : p.key = k := hw
        have hpc := h.pcs t
        rw [hth] at hpc
        obtain ⟨-, -, hsrc, -⟩ := hpc
        have hwr := hsrc τ rfl
        have heq : τ = σ := Slot.word_injective (h.slotted.lt_capacity hwr.1.live)
          (h.slotted.lt_capacity hn.live) (hwr.1.shard.trans hn.shard.symm)
          (Option.some_inj.mp (hdb'.symm.trans hdb))
        rw [← h.value_unique hn (heq ▸ hwr)]
        exact h.holds_of_update hth (by rw [hdb]; rfl) hstep
    | insertStored key v w => exact absurd ⟨t, rfl, hw, by rw [hth]; rfl⟩ hfore
    | eraseSearched tid key w => exact absurd ⟨t, rfl, hw, by rw [hth]; rfl⟩ hfore
    | _ =>
      rw [hth] at hw
      exact hw.elim
  · refine ⟨σ, ?_, hn.step h hstep⟩
    rw [step_db hstep fun t ha hw => hwrites ⟨t, ha, hw⟩, hdb]

/-- When every call has returned, the store satisfies the sequential invariant. -/
theorem Safe.quiescent (h : s.Safe) (hidle : ∀ t, s.threads t = .idle) : s.store.Inv where
  slotted := h.slotted
  entry k w hw := by
    obtain ⟨σ, v, rfl, -, hn⟩ := h.entry k w hw
    rcases hn with hwr | ⟨-, -, t, r, hp, -⟩
    · exact ⟨σ, rfl, hwr.1⟩
    · rw [hidle t] at hp
      exact hp.elim

/-- When every call has returned, a search finds the payload the key holds. -/
theorem Safe.search_of_holds (h : s.Safe) (hv : s.Holds k v) (hidle : ∀ t, s.threads t = .idle) :
    s.store.search k = .ok (some v) := by
  obtain ⟨σ, hdb, hn⟩ := hv
  rcases hn with hwr | ⟨-, -, t, r, hp, -⟩
  · rw [(h.quiescent hidle).search_eq, (h.quiescent hidle).abs_of_db hdb hwr.1, hwr.2]
  · rw [hidle t] at hp
    exact hp.elim

end Holds

/-- **The last foreground update stays** while relocations are of current records. From
every store that calls have led to, in every interleaving of calls and relocations: let
a foreground `update` of a present key take its index step, after which no foreground
call changes the index at the key and every relocation of the key finds the index
naming the record it has read. When all calls have returned, a search finds the payload
of the update. -/
theorem relocation_keeps_newest (cfg : Config) {store : Logdb cfg} (hreach : store.Reachable)
    {as bs : List (Action cfg)} {s₁ s₂ s₃ : Sys cfg} {t : ℕ} {p : PairT} {logAddr : Ptr cfg}
    {w : UInt64} (hbefore : Run step (fun _ _ => True) (ofStore store) as s₁)
    (hth : s₁.threads t = .updateAllocated none p logAddr w)
    (hpresent : (s₁.store.db p.key).isSome) (hstep : s₁.step (.run t) = .ok s₂)
    (hafter : Run step (fun s a => ¬ s.ForegroundWrite p.key a ∧ s.RelocatesCurrent p.key a)
      s₂ bs s₃)
    (hidle : ∀ u, s₃.threads u = .idle) : s₃.store.search p.key = .ok (some p.value) := by
  have hsafe := (safe_ofStore hreach).run hbefore
  obtain ⟨hsafe₃, hholds⟩ := hafter.invariant (I := fun s => s.Safe ∧ s.Holds p.key p.value)
    (fun s a s' ⟨h, hv⟩ ⟨hfore, hcur⟩ hst => ⟨h.step hst, h.holds_step hv hfore hcur hst⟩)
    ⟨hsafe.step hstep, hsafe.holds_of_update hth hpresent hstep⟩
  exact hsafe₃.search_of_holds hholds hidle

/-! ## An update, step by step -/

section Update

variable {s : Sys cfg} {t : ℕ} {src : Option (Slot cfg)}

/-- The action is a step of the thread that does not change the index. -/
def Quiet (t : ℕ) (s : Sys cfg) (a : Action cfg) : Prop :=
  a = .run t ∧ ∀ k, ¬ (s.threads t).WritesIndex k

theorem Quiet.not_foregroundWrite {a : Action cfg} (h : s.Quiet t a) (k : UInt64) :
    ¬ s.ForegroundWrite k a := by
  rintro ⟨u, rfl, hw, -⟩
  obtain rfl := Action.run.inj h.1
  exact h.2 k hw

theorem Quiet.relocatesCurrent {a : Action cfg} (h : s.Quiet t a) (k : UInt64) :
    s.RelocatesCurrent k a := by
  rintro u σ rfl hw -
  obtain rfl := Action.run.inj h.1
  exact absurd hw (h.2 k)

/-- An update takes a version and a slot, and stands in front of its index step. -/
theorem exists_to_index_step {threadId : Fin 64} {k v : UInt64}
    (hth : s.threads t = .updateStart src threadId k v) (hs : s.store.log.Slotted)
    (hroom : s.store.log.Room threadId k) :
    ∃ s₁, Run step (Quiet t) s [.run t, .run t] s₁ ∧
      s₁.threads t = .updateAllocated src (.updateRec (s.store.log.versionFor k) k v uint64Max)
        (s.store.log.nextSlot (cfg.logFor threadId k)).ptr
        (s.store.log.nextSlot (cfg.logFor threadId k)).word ∧
      (∀ u, u ≠ t → s₁.threads u = s.threads u) ∧
      s₁.store = ⟨s.store.log.reserve threadId k, s.store.db⟩ := by
  have h₁ : s.step (.run t) = .ok (s.next t ⟨s.store.log.bump (cfg.xxh3 k), s.store.db⟩
      (.updateVersioned src threadId (.updateRec (s.store.log.versionFor k) k v uint64Max))) := by
    conv_lhs => rw [← next_self hth]
    exact step_run runThread_updateStart
  have h₂ : (s.next t ⟨s.store.log.bump (cfg.xxh3 k), s.store.db⟩
      (.updateVersioned src threadId
        (.updateRec (s.store.log.versionFor k) k v uint64Max))).runThread t = _ :=
    runThread_updateVersioned (by exact hs.bump) (by exact hroom)
  refine ⟨_, .cons ⟨rfl, ?_⟩ h₁ (.single ⟨rfl, ?_⟩ h₂), next_threads_self .., fun u hu =>
    next_threads_of_ne _ _ _ hu, rfl⟩
  · rw [hth]
    exact fun _ => id
  · rw [next_threads_self]
    exact fun _ => id

/-- The index step of an update of a present key, its `store_persist` and its return. -/
theorem exists_from_index_step {p : PairT} {σ : Slot cfg} {old : UInt64}
    (hth : s.threads t = .updateAllocated src p σ.ptr σ.word) (hs : s.store.log.Slotted)
    (hlive : s.store.log.Live σ) (hold : s.store.db p.key = some old) :
    ∃ s₂ s₃, s.step (.run t) = .ok s₂ ∧ Run step (Quiet t) s₂ [.run t, .run t] s₃ ∧
      s₃.threads t = .idle ∧ (∀ u, u ≠ t → s₃.threads u = s.threads u) ∧
      s₃.store = ⟨s.store.log.write σ (p.setLastLogOffest old),
        Function.update s.store.db p.key (some σ.word)⟩ := by
  have h₁ : s.step (.run t) = .ok (s.next t
      ⟨s.store.log, Function.update s.store.db p.key (some σ.word)⟩
      (.updatePublished src (p.setLastLogOffest old) σ.ptr)) := by
    conv_lhs => rw [← next_self hth]
    exact step_run (runThread_updateAllocated_of_some hold)
  have h₂ : (s.next t ⟨s.store.log, Function.update s.store.db p.key (some σ.word)⟩
      (.updatePublished src (p.setLastLogOffest old) σ.ptr)).runThread t = _ :=
    runThread_updatePublished (by exact hs) (by exact hlive)
  cases src with
  | none =>
    refine ⟨_, _, h₁, .cons ⟨rfl, ?_⟩ h₂ (.single ⟨rfl, ?_⟩ (step_run runThread_returning)),
      next_threads_self s t s.store .idle, fun u hu => next_threads_of_ne s s.store .idle hu, rfl⟩
    · rw [next_threads_self]
      exact fun _ => id
    · rw [next_threads_self]
      exact fun _ => id
  | some τ =>
    refine ⟨_, _, h₁, .cons ⟨rfl, ?_⟩ h₂ (.single ⟨rfl, ?_⟩
      (step_run runThread_returning_relocation)), next_threads_self .., fun u hu =>
        next_threads_of_ne _ _ _ hu, rfl⟩
    · rw [next_threads_self]
      exact fun _ => id
    · rw [next_threads_self]
      exact fun _ => id

end Update

/-- The log is about to take the last slot of its first page. -/
theorem exists_lastSlot : ∃ store : Logdb oneShard, store.Reachable ∧ store.Inv ∧
    store.abs 5 = some 1 ∧ store.abs 6 = some 0 ∧
    store.log.used (oneShard.logFor 0 5) = slotsPerPage - 1 := by
  have hlog : oneShard.logFor 0 6 = oneShard.logFor 0 5 := by decide
  obtain ⟨s, hs, hinv, h5, h6, hused, -⟩ := Traced.exists_twoKeys
  have h6db : (s.store.db 6).isSome := by rw [← s.store.isSome_abs, h6]; rfl
  obtain ⟨t, hrun, hupd, hused'⟩ := Traced.exists_updates hinv 0 0 h6db (slotsPerPage - 3) (by
    rw [hused, hlog, Function.update_self]
    decide)
  refine ⟨t.store, Traced.reachable_of_run (hs.append hrun), hupd.inv, ?_, ?_, ?_⟩
  · rw [hupd.abs h6, h5]
  · rw [hupd.abs h6, h6]
  · rw [hused', hlog, Function.update_self, hused, Function.update_self, slotsPerPage]

/-- An idle thread of the collection reads a record that is to be kept. -/
theorem step_relocate {s : Sys cfg} {t : ℕ} (threadId : Fin 64) {σ : Slot cfg} {k v : UInt64}
    (hidle : s.threads t = .idle) (hs : s.store.log.Slotted) (hlive : s.store.log.Live σ)
    (hold : s.OldPage σ) (hmaps : (s.store.log.recAt σ).Maps k)
    (hvalue : (s.store.log.recAt σ).value = v) :
    s.step (.relocate t threadId σ) =
      .ok (s.next t s.store (.updateStart (some σ) threadId k v)) := by
  have hload : s.store.log.load σ.ptr = .ok (s.store.log.recAt σ) := hs.load_eq hlive
  simp only [step, hidle, if_pos hold, hload, bind, Except.bind, if_pos hmaps.2, hmaps.1, hvalue]
  rfl

/-- Thread 0 is in front of the index step of `update(5, 2)`. Its slot is in page 0, and page
1 is the newest. -/
structure Poised (s : Sys oneShard) (p : PairT) (σ : Slot oneShard) : Prop where
  /-- where thread 0 stands -/
  thread : s.threads 0 = .updateAllocated none p σ.ptr σ.word
  /-- its record -/
  record : p.key = 5 ∧ p.value = 2 ∧ p.op = .update
  /-- no other thread is in a call -/
  idle : ∀ u, u ≠ 0 → s.threads u = .idle
  /-- the log consists of slots -/
  slotted : s.store.log.Slotted
  /-- the key is present -/
  present : (s.store.db 5).isSome
  /-- the slot of the record -/
  live : s.store.log.Live σ
  /-- its page -/
  page : σ.pageId = ⟨oneShard.logFor 0 5, 0⟩
  /-- the newest page -/
  newest : (s.store.log.ppage (oneShard.logFor 0 5)).ppageId = 1
  /-- there is room -/
  used : s.store.log.used (oneShard.logFor 0 5) = slotsPerPage + 1

/-- The update takes the last slot of page 0, and another update opens page 1. -/
theorem exists_poised : ∃ (store : Logdb oneShard) (as : List (Action oneShard))
    (s : Sys oneShard) (p : PairT) (σ : Slot oneShard), store.Reachable ∧
      Run step (fun _ _ => True) (ofStore store) as s ∧ s.Poised p σ := by
  obtain ⟨store, hreach, hinv, h5, h6, hused⟩ := exists_lastSlot
  set l := oneShard.logFor 0 5 with hl
  have hl6 : oneShard.logFor 0 6 = l := by decide
  have hs := hinv.slotted
  have hroom : store.log.Room 0 5 := by
    rw [LogKV.Room, hused]
    decide
  -- thread 0 allocates
  set σ := store.log.nextSlot l with hσ
  have hpos : σ.pos = slotsPerPage - 1 := hused
  have hcall : (ofStore store).step (.call 0 ⟨0, .update 5 2⟩) =
      .ok ((ofStore store).next 0 store (.updateStart none 0 5 2)) := rfl
  obtain ⟨s, hrun, hth, hother, hstore⟩ := exists_to_index_step
    (next_threads_self (ofStore store) 0 store (.updateStart none 0 5 2)) hs hroom
  obtain ⟨hinvs, habs⟩ : s.store.Inv ∧ s.store.abs = store.abs := by
    rw [hstore]
    exact hinv.extend (hs.extends_reserve hroom)
  have huseds : s.store.log.used l = slotsPerPage := by
    rw [hstore]
    refine (congrFun (LogKV.used_reserve hs) l).trans ?_
    rw [Function.update_self, hused]
    rfl
  -- thread 1 makes an update, whose record opens page 1
  have hlog? : Call.log? oneShard ⟨0, .update 6 7⟩ = some l := congrArg some hl6
  have hcallroom : s.store.CallRoom ⟨0, .update 6 7⟩ := by
    intro l' hl'
    rw [← Option.some_inj.mp (hlog?.symm.trans hl'), huseds]
    decide
  obtain ⟨store', hok, hinv', habs', hused'⟩ := Logdb.step_refines hinvs hcallroom
  have husedl : store'.log.used l = slotsPerPage + 1 := by rw [hused', huseds, if_pos hlog?]
  refine ⟨store, _, _, _, σ, hreach, .cons trivial hcall ((hrun.mono fun _ _ _ => trivial).append
    ((run_alone (hother 1 (by decide)) hinvs.slotted hok).mono fun _ _ _ => trivial)), hth,
    ⟨rfl, rfl, rfl⟩, fun u hu => (hother u hu).trans (next_threads_of_ne _ _ _ hu), hinv'.slotted,
    ?_, ?_, ?_, ?_, husedl⟩
  · rw [← Logdb.isSome_abs, habs', habs]
    simp only [mapStep, h6, Option.isSome_some, if_true]
    rw [Function.update_of_ne (by decide), h5]
    rfl
  · rw [LogKV.Live, hpos, show σ.log = l from rfl, husedl, slotsPerPage]
    omega
  · refine PageId.ext rfl (Nat.div_eq_of_lt ?_)
    rw [hpos, slotsPerPage]
    omega
  · change (store'.log.ppage l).ppageId = 1
    have hle := hinv'.slotted.wf.sz_le l
    simp only [LogKV.used, ppageSize_eq, slotsPerPage, PairT.size] at husedl hle
    omega

/-- The record of an update gets old before a relocation reads it. The relocation takes its
index step while the index names that record, and the payload stays. -/
theorem relocation_keeps_newest_moved :
    ∃ (store : Logdb oneShard) (s₁ s₂ s₃ s₄ : Sys oneShard) (as : List (Action oneShard))
      (p : PairT) (σ : Slot oneShard), store.Reachable ∧
      Run step (fun _ _ => True) (ofStore store) as s₁ ∧
      s₁.threads 0 = .updateAllocated none p σ.ptr σ.word ∧ p.key = 5 ∧ p.value = 2 ∧
      (s₁.store.db p.key).isSome ∧ s₁.step (.run 0) = .ok s₂ ∧
      Run step (fun s a => ¬ s.ForegroundWrite p.key a ∧ s.RelocatesCurrent p.key a) s₂
        [.run 0, .run 0, .relocate 2 0 σ, .run 2, .run 2] s₃ ∧
      (s₃.threads 2).WritesIndex 5 ∧ (s₃.threads 2).relocates = some σ ∧
      s₃.store.db 5 = some σ.word ∧
      Run step (fun s a => ¬ s.ForegroundWrite p.key a ∧ s.RelocatesCurrent p.key a) s₃
        [.run 2, .run 2, .run 2] s₄ ∧
      (∀ u, s₄.threads u = .idle) ∧ s₄.store.search p.key = .ok (some p.value) := by
  obtain ⟨store, as, s₁, p, σ, hreach, hbefore, h⟩ := exists_poised
  obtain ⟨hkey, hvalue, hop⟩ := h.record
  have hpresent : (s₁.store.db p.key).isSome := by
    rw [hkey]
    exact h.present
  obtain ⟨old, hold⟩ := Option.isSome_iff_exists.mp hpresent
  obtain ⟨s₂, s, hstep, hrun, hidle, hother, hstore⟩ :=
    exists_from_index_step h.thread h.slotted h.live hold
  have hquiet : ∀ (t : ℕ) (x : Sys oneShard) (a : Action oneShard), x.Quiet t a →
      ¬ x.ForegroundWrite p.key a ∧ x.RelocatesCurrent p.key a :=
    fun _ _ _ hq => ⟨hq.not_foregroundWrite p.key, hq.relocatesCurrent p.key⟩
  have hsafe₂ := ((safe_ofStore hreach).run hbefore).step hstep
  have hsafe := hsafe₂.run hrun
  -- thread 2 reads the record of the update, in what is now an old page
  have hrec : s.store.log.recAt σ = p.setLastLogOffest old := by
    rw [hstore]
    exact (congrFun (LogKV.recAt_write ..) σ).trans (Function.update_self ..)
  have hread := step_relocate (s := s) (t := 2) (σ := σ) (k := 5) (v := 2) 0
    ((hother 2 (by decide)).trans (h.idle 2 (by decide))) hsafe.slotted
    (by rw [hstore]; exact h.live)
    (by
      rw [OldPage, h.page, hstore, show σ.log = oneShard.logFor 0 5 from congrArg PageId.log h.page]
      exact Nat.one_pos.trans_eq h.newest.symm)
    (by rw [hrec]; exact ⟨hkey, .inr hop⟩) (by rw [hrec]; exact hvalue)
  have hroom : s.store.log.Room 0 5 := by
    rw [LogKV.Room, hstore, LogKV.used_write]
    exact h.used.trans_lt (by decide)
  obtain ⟨s₃, hrun₃, hth₃, hother₃, hstore₃⟩ := exists_to_index_step
    (next_threads_self s 2 s.store (.updateStart (some σ) 0 5 2)) hsafe.slotted hroom
  -- the index still names the record
  have hdb₃ : s₃.store.db 5 = some σ.word := by
    rw [hstore₃, next_store, hstore, hkey]
    exact Function.update_self (5 : UInt64) _ s₁.store.db
  have hafter : Run step (fun s a => ¬ s.ForegroundWrite p.key a ∧ s.RelocatesCurrent p.key a) s₂
      [.run 0, .run 0, .relocate 2 0 σ, .run 2, .run 2] s₃ := by
    refine (hrun.mono (hquiet 0)).append (.cons ⟨?_, ?_⟩ hread (hrun₃.mono (hquiet 2)))
    · rintro ⟨_, h, -⟩
      cases h
    · exact fun _ _ h => by cases h
  obtain ⟨s', s₄, hstep₄, hrun₄, hidle₄, hother₄, -⟩ := exists_from_index_step hth₃
    (hsafe₂.run hafter).slotted
    (by rw [hstore₃]; exact LogKV.live_nextSlot_reserve hsafe.slotted 0 5) hdb₃
  have hmoved : Run step (fun s a => ¬ s.ForegroundWrite p.key a ∧ s.RelocatesCurrent p.key a) s₃
      [.run 2, .run 2, .run 2] s₄ := by
    refine .cons ⟨?_, ?_⟩ hstep₄ (hrun₄.mono (hquiet 2))
    · rintro ⟨u, hu, -, hnone⟩
      obtain rfl := Action.run.inj hu
      rw [hth₃] at hnone
      cases hnone
    · intro u τ hu _ hτ
      obtain rfl := Action.run.inj hu
      rw [hth₃] at hτ
      obtain rfl := Option.some_inj.mp hτ
      rw [hkey]
      exact hdb₃
  have hall : ∀ u, s₄.threads u = .idle := by
    intro u
    by_cases hu : u = 2
    · rw [hu, hidle₄]
    · rw [hother₄ u hu, hother₃ u hu, next_threads_of_ne _ _ _ hu]
      by_cases hu' : u = 0
      · rw [hu', hidle]
      · rw [hother u hu', h.idle u hu']
  exact ⟨store, s₁, s₂, s₃, s₄, as, p, σ, hreach, hbefore, h.thread, hkey, hvalue, hpresent, hstep,
    hafter, by rw [hth₃]; rfl, by rw [hth₃]; rfl, hdb₃, hmoved, hall,
    relocation_keeps_newest oneShard hreach hbefore h.thread hpresent hstep (hafter.append hmoved)
      hall⟩

/-- The actions of updates and relocations. -/
def UpdateOrRelocate (a : Action cfg) : Prop :=
  match a with
  | .call _ c => ∃ k v, c.op = .update k v
  | .relocate _ _ _ => True
  | .run _ => True

/-- Without the condition an update is lost: the relocation has read the old payload
before the update and writes it back afterwards. -/
theorem relocation_undoes_newest :
    ¬ ∀ (cfg : Config) (store : Logdb cfg), store.Reachable →
      ∀ (as bs : List (Action cfg)) (s₁ s₂ s₃ : Sys cfg) (t : ℕ) (p : PairT) (logAddr : Ptr cfg)
        (w : UInt64), Run step (fun _ a => UpdateOrRelocate a) (ofStore store) as s₁ →
        (∃ g σ threadId v₁, s₁.threads g = .updateStart (some σ) threadId p.key v₁) →
        s₁.threads t = .updateAllocated none p logAddr w →
        (s₁.store.db p.key).isSome → s₁.step (.run t) = .ok s₂ →
        Run step (fun s a => UpdateOrRelocate a ∧ ¬ s.ForegroundWrite p.key a) s₂ bs s₃ →
        (∀ u, s₃.threads u = .idle) → s₃.store.search p.key = .ok (some p.value) := by
  intro h
  obtain ⟨s, σ, n, hrun, hold⟩ := Traced.exists_oldRecord
  have hreach := Traced.reachable_of_run hrun
  have hs := hold.inv.slotted
  have hop := hold.target.maps.2
  have hroom : s.store.log.Room 0 5 := by
    rw [LogKV.Room, hold.used, slotsPerPage, logCapacity]
    omega
  -- thread 1 reads the record of key 5, thread 0 starts its update
  have hpage : (ofStore s.store).OldPage σ := by
    have hlog : σ.log = oneShard.logFor 0 5 := congrArg PageId.log hold.page
    rw [OldPage, hold.page, ofStore, hlog, hold.newest]
    exact Nat.one_pos
  have hread : (ofStore s.store).step (.relocate 1 0 σ) =
      .ok ((ofStore s.store).next 1 s.store (.updateStart (some σ) 0 5 1)) := by
    have hload : (ofStore s.store).store.log.load σ.ptr = .ok (s.store.log.recAt σ) :=
      hs.load_eq hold.target.live
    have hidle : (ofStore s.store).threads 1 = .idle := rfl
    simp only [step, hidle, if_pos hpage, hload, bind, Except.bind, if_pos hop,
      hold.target.maps.1, hold.value]
    rfl
  let s₀ : Sys oneShard := (ofStore s.store).next 1 s.store (.updateStart (some σ) 0 5 1)
  have hcall : s₀.step (.call 0 ⟨0, .update 5 2⟩) =
      .ok (s₀.next 0 s.store (.updateStart none 0 5 2)) := rfl
  obtain ⟨s₁, hrun₁, hth₁, hother₁, hstore₁⟩ := exists_to_index_step
    (next_threads_self s₀ 0 s.store (.updateStart none 0 5 2)) hs hroom
  have hgc₁ : s₁.threads 1 = .updateStart (some σ) 0 5 1 :=
    hother₁ 1 (by decide)
  have hbefore : Run step (fun _ a => UpdateOrRelocate a) (ofStore s.store)
      (.relocate 1 0 σ :: .call 0 ⟨0, .update 5 2⟩ :: [.run 0, .run 0]) s₁ :=
    .cons trivial hread (.cons ⟨5, 2, rfl⟩ hcall
      (hrun₁.mono fun _ a h => by rw [h.1]; trivial))
  -- thread 0 returns
  have hs₁ : s₁.store.log.Slotted := by rw [hstore₁]; exact hs.reserve hroom
  have hdb₁ : s₁.store.db 5 = some σ.word := by rw [hstore₁]; exact hold.db
  obtain ⟨s₂, s₃, hstep, hrun₃, hidle₃, hother₃, hstore₃⟩ := exists_from_index_step hth₁ hs₁
    (by rw [hstore₁]; exact LogKV.live_nextSlot_reserve hs 0 5) hdb₁
  have hgc₃ : s₃.threads 1 = .updateStart (some σ) 0 5 1 := by rw [hother₃ 1 (by decide), hgc₁]
  have hsafe₃ : s₃.Safe :=
    (((safe_ofStore hreach).run hbefore).step hstep).run hrun₃
  -- thread 1 goes on with what it has read
  have hroom₃ : s₃.store.log.Room 0 5 := by
    have hused : s₁.store.log.used (oneShard.logFor 0 5) = slotsPerPage + 1 + 1 := by
      rw [hstore₁, ← hold.used]
      exact (congrFun (LogKV.used_reserve hs) _).trans (Function.update_self ..)
    rw [LogKV.Room, hstore₃, LogKV.used_write, hused, slotsPerPage, logCapacity]
    omega
  obtain ⟨s₄, hrun₄, hth₄, hother₄, hstore₄⟩ := exists_to_index_step hgc₃ hsafe₃.slotted hroom₃
  have hsafe₄ := hsafe₃.run hrun₄
  have hdb₄ : s₄.store.db 5 =
      some (s.store.log.nextSlot (oneShard.logFor 0 5)).word := by
    rw [hstore₄, hstore₃]
    exact Function.update_self (5 : UInt64) _ s₁.store.db
  obtain ⟨s₅, s₆, hstep₅, hrun₆, hidle₆, hother₆, -⟩ := exists_from_index_step hth₄ hsafe₄.slotted
    (by rw [hstore₄]; exact LogKV.live_nextSlot_reserve hsafe₃.slotted 0 5) hdb₄
  have hpresent₄ : (s₄.store.db 5).isSome := by rw [hdb₄]; rfl
  have hholds : s₅.Holds 5 1 := hsafe₄.holds_of_update hth₄ hpresent₄ hstep₅
  obtain ⟨hsafe₆, hholds₆⟩ := hrun₆.invariant (I := fun s => s.Safe ∧ s.Holds 5 1)
    (fun _ _ _ h hq hst => ⟨h.1.step hst, h.1.holds_step h.2 (hq.not_foregroundWrite 5)
      (hq.relocatesCurrent 5) hst⟩) ⟨hsafe₄.step hstep₅, hholds⟩
  have hall : ∀ u, s₆.threads u = .idle := by
    intro u
    by_cases hu : u = 1
    · rw [hu, hidle₆]
    · by_cases hu' : u = 0
      · rw [hother₆ u hu, hother₄ u hu, hu', hidle₃]
      · rw [hother₆ u hu, hother₄ u hu, hother₃ u hu', hother₁ u hu',
          next_threads_of_ne _ _ _ hu', next_threads_of_ne _ _ _ hu]
        rfl
  have hquiet : ∀ (t : ℕ) (x : Sys oneShard) (a : Action oneShard), x.Quiet t a →
      UpdateOrRelocate a ∧ ¬ x.ForegroundWrite 5 a :=
    fun _ _ _ hq => ⟨by rw [hq.1]; trivial, hq.not_foregroundWrite 5⟩
  have hrelocates : ¬ s₄.ForegroundWrite 5 (.run 1) := by
    rintro ⟨u, hu, -, hnone⟩
    obtain rfl := Action.run.inj hu
    rw [hth₄] at hnone
    cases hnone
  have hafter : Run step (fun s a => UpdateOrRelocate a ∧ ¬ s.ForegroundWrite 5 a) s₂
      ([.run 0, .run 0] ++ ([.run 1, .run 1] ++ .run 1 :: [.run 1, .run 1])) s₆ :=
    (hrun₃.mono (hquiet 0)).append ((hrun₄.mono (hquiet 1)).append
      (.cons ⟨trivial, hrelocates⟩ hstep₅ (hrun₆.mono (hquiet 1))))
  have hpresent₁ : (s₁.store.db 5).isSome := by rw [hdb₁]; rfl
  have hsearch : s₆.store.search 5 = .ok (some 2) := h oneShard s.store hreach _ _ s₁ s₂ s₆ 0 _ _ _
    hbefore ⟨1, σ, 0, 1, hgc₁⟩ hth₁ hpresent₁ hstep hafter hall
  rw [hsafe₆.search_of_holds hholds₆ hall] at hsearch
  exact absurd (Option.some_inj.mp (Except.ok.inj hsearch)) (by decide)

end Sys

end NaliStore
