import NaliStore.Refine

/-!
# Version chains

Every record links to the record it supersedes: `u_offset` is the sentinel in an INSERT
record, the address `db_->update` hands back in an UPDATE record, and the address a
separate `db_->search` fetched in a DELETE record. Garbage collection follows these
links. The invariant is that a link leads to an earlier record of the same key and
never to the record the index names.

It holds in every run in which `erase` is called on present keys only. `erase` of an
absent key prints a complaint and goes on: `addr_info` is still 0, and so is the link of
the DELETE record it stores.

To say *earlier* across the two NUMA nodes of a shard, runs carry the history of the
slots that were handed out.
-/

namespace NaliStore

open Runs

variable {cfg : Config}

/-! ## Runs with their history -/

/-- A store and the slots its calls have allocated, oldest first. -/
structure Traced (cfg : Config) where
  /-- the store -/
  store : Logdb cfg
  /-- the allocated slots -/
  history : List (Slot cfg)

namespace Traced

/-- A call, with the slot it allocated. -/
def step (s : Traced cfg) (c : Call) : Except Fault (Traced cfg) := do
  let (_, store) ← s.store.step c
  pure ⟨store, s.history ++ ((c.log? cfg).map s.store.log.nextSlot).toList⟩

/-- The store over an empty directory. -/
def fresh (cfg : Config) : Traced cfg := ⟨Logdb.fresh cfg, []⟩

/-- Slot `τ` was allocated before slot `σ`. -/
def Before (s : Traced cfg) (τ σ : Slot cfg) : Prop := [τ, σ].Sublist s.history

/-- The record in a slot. -/
def recAt (s : Traced cfg) (σ : Slot cfg) : PairT := s.store.log.recAt σ

/-- The version-chain property. -/
structure VersionChain (s : Traced cfg) : Prop where
  /-- a link is the sentinel or leads to an earlier record of the same key and shard -/
  link : ∀ σ, (s.recAt σ).op ≠ .trash →
    (s.recAt σ).uOffset = uint64Max ∨
      ∃ τ, (s.recAt σ).uOffset = τ.word ∧ (s.recAt τ).key = (s.recAt σ).key ∧
        τ.log.hash = σ.log.hash ∧ s.Before τ σ
  /-- no link leads to the record the index names -/
  head : ∀ k w, s.store.db k = some w → ∀ σ, (s.recAt σ).op ≠ .trash →
    cfg.slotOf (s.recAt σ).key (s.recAt σ).uOffset ≠ cfg.slotOf k w

/-! ## The invariant -/

/-- The inductive invariant behind `VersionChain`. -/
structure Inv (s : Traced cfg) : Prop where
  /-- the store invariant -/
  store : s.store.Inv
  /-- the history is what has been handed out -/
  mem : ∀ σ, σ ∈ s.history ↔ s.store.log.Live σ
  /-- no slot is handed out twice -/
  nodup : s.history.Nodup
  /-- a record is in the shard of its key -/
  shard : ∀ σ, (s.recAt σ).op ≠ .trash → σ.log.hash = cfg.shard (s.recAt σ).key
  /-- links lead to earlier records that mapped the key -/
  link : ∀ σ, (s.recAt σ).op ≠ .trash →
    (s.recAt σ).uOffset = uint64Max ∨
      ∃ τ, (s.recAt σ).uOffset = τ.word ∧
        Logdb.Target s.store.log (s.recAt σ).key τ ∧ s.Before τ σ
  /-- no link in the shard of a key is its index entry -/
  head : ∀ k w, s.store.db k = some w → ∀ σ, (s.recAt σ).op ≠ .trash →
    σ.log.hash = cfg.shard k → (s.recAt σ).uOffset ≠ w

theorem inv_fresh (cfg : Config) : (fresh cfg).Inv where
  store := Logdb.inv_fresh cfg
  mem σ := by
    have h0 : (LogKV.fresh cfg).used σ.log = 0 := LogKV.used_fresh _
    simp [fresh, Logdb.fresh, LogKV.Live, h0]
  nodup := List.nodup_nil
  shard σ h := absurd (by rw [recAt]; exact congrArg PairT.op (LogKV.recAt_fresh σ)) h
  link σ h := absurd (by rw [recAt]; exact congrArg PairT.op (LogKV.recAt_fresh σ)) h
  head _ _ h := by cases h

section Invariant

variable {s : Traced cfg} {σ : Slot cfg}

/-- The invariant gives the version-chain property. -/
theorem Inv.versionChain (h : s.Inv) : s.VersionChain where
  link σ hop := by
    obtain hmax | ⟨τ, hτ, htarget, hbefore⟩ := h.link σ hop
    · exact .inl hmax
    · exact .inr ⟨τ, hτ, htarget.maps.1, htarget.shard.trans (h.shard σ hop).symm, hbefore⟩
  head k w hdb σ hop := by
    obtain ⟨ρ, rfl, hρ⟩ := h.store.entry k w hdb
    rw [h.store.slotOf_word hρ]
    intro heq
    obtain hmax | ⟨τ, hτ, htarget, -⟩ := h.link σ hop
    · -- the sentinel decodes to a slot that is never handed out
      have hlt := h.store.slotted.lt_capacity hρ.live
      have hpos : (cfg.slotOf (s.recAt σ).key uint64Max).pos = 267911167 := rfl
      rw [← heq, hmax, hpos, logCapacity] at hlt
      omega
    · rw [hτ, h.store.slotOf_word htarget] at heq
      subst heq
      have hkey : (s.recAt σ).key = k := htarget.maps.1.symm.trans hρ.maps.1
      exact h.head k _ hdb σ hop (by rw [h.shard σ hop, hkey]) hτ

/-- Links are old addresses: they are not the next slot. -/
theorem Inv.link_ne_nextSlot (h : s.Inv) {threadId : Fin 64} {k : UInt64} {σ : Slot cfg}
    (hroom : s.store.log.Room threadId k) (hop : (s.recAt σ).op ≠ .trash)
    (hshard : σ.log.hash = cfg.shard k) :
    (s.recAt σ).uOffset ≠ (s.store.log.nextSlot (cfg.logFor threadId k)).word := by
  obtain hmax | ⟨τ, hτ, htarget, -⟩ := h.link σ hop
  · rw [hmax]
    exact (Slot.word_ne_max _).symm
  · rw [hτ]
    exact h.store.slotted.word_ne_nextSlot hroom htarget.live
      (htarget.shard.trans ((h.shard σ hop).symm.trans hshard))

/-- Appending a record that is linked to the index entry of its key, or to nothing. -/
theorem Inv.append (h : s.Inv) {threadId : Fin 64} {k : UInt64} {r : PairT} {db : Index}
    (hroom : s.store.log.Room threadId k) (hkey : r.key = k)
    (hstore : Logdb.Inv ⟨s.store.log.append threadId k r, db⟩)
    (hlink : r.uOffset = uint64Max ∨ s.store.db k = some r.uOffset)
    (hdb : ∀ k', k' ≠ k → db k' = s.store.db k')
    (hdbk : db k = some (s.store.log.nextSlot (cfg.logFor threadId k)).word ∨ db k = none ∨
      db k = s.store.db k ∧ r.uOffset = uint64Max) :
    Inv ⟨⟨s.store.log.append threadId k r, db⟩,
      s.history ++ [s.store.log.nextSlot (cfg.logFor threadId k)]⟩ := by
  set ν := s.store.log.nextSlot (cfg.logFor threadId k) with hν
  set log := s.store.log.append threadId k r with hlog
  have hs := h.store.slotted
  have hext := hs.extends_append hroom r
  have hnew : log.recAt ν = r := LogKV.recAt_append_self hs
  have hnotlive : ¬ s.store.log.Live ν := LogKV.nextSlot_not_live
  have hold : ∀ σ, σ ≠ ν → log.recAt σ = s.recAt σ := by
    intro σ hσ
    rw [hlog, LogKV.recAt_append hs, Function.update_of_ne hσ, recAt]
  have hνshard : ν.log.hash = cfg.shard k := rfl
  refine ⟨hstore, fun σ => ?_, ?_, ?_, ?_, ?_⟩
  · rw [List.mem_append, List.mem_singleton, h.mem, hlog, LogKV.live_append hs]
  · refine List.nodup_append.mpr ⟨h.nodup, List.nodup_singleton _, ?_⟩
    rintro a ha b hb rfl
    rw [List.mem_singleton.mp hb] at ha
    exact hnotlive ((h.mem ν).mp ha)
  · intro σ hop
    simp only [recAt] at hop ⊢
    by_cases hσ : σ = ν
    · rw [hσ, hnew, hkey, hνshard]
    · rw [hold σ hσ] at hop ⊢
      exact h.shard σ hop
  · intro σ hop
    simp only [recAt, Before] at hop ⊢
    by_cases hσ : σ = ν
    · subst hσ
      rw [hnew, hkey]
      refine hlink.imp id fun hdbk => ?_
      obtain ⟨τ, hτ, htarget⟩ := h.store.entry k _ hdbk
      refine ⟨τ, hτ, htarget.mono hext, ?_⟩
      -- the entry was in the history, the new slot comes last
      exact List.Sublist.append (List.singleton_sublist.mpr ((h.mem τ).mpr htarget.live))
        (List.Sublist.refl [ν])
    · rw [hold σ hσ] at hop ⊢
      obtain hmax | ⟨τ, hτ, htarget, hbefore⟩ := h.link σ hop
      · exact .inl hmax
      · exact .inr ⟨τ, hτ, htarget.mono hext, hbefore.trans (List.sublist_append_left ..)⟩
  · intro k' w hdb' σ hop hshard
    simp only [recAt] at hop hdb' ⊢
    by_cases hσ : σ = ν
    · -- the new record is linked to the old entry of its own key
      rw [hσ, hnew]
      intro heq
      rcases hlink with hmax | hold'
      · obtain ⟨ρ, hρ, -⟩ := hstore.entry k' w hdb'
        exact ρ.word_ne_max (hρ.symm.trans (heq.symm.trans hmax))
      · obtain ⟨τ, hτ, htarget⟩ := h.store.entry k _ hold'
        by_cases hk : k' = k
        · subst hk
          rcases hdbk with hd | hd | ⟨-, hmax⟩
          · rw [hd, Option.some_inj] at hdb'
            exact h.store.slotted.word_ne_nextSlot hroom htarget.live htarget.shard (by rw [← hτ, heq, ← hdb'])
          · rw [hd] at hdb'
            cases hdb'
          · exact τ.word_ne_max (hτ.symm.trans hmax)
        · rw [hdb k' hk] at hdb'
          obtain ⟨ρ, hρ, hρt⟩ := h.store.entry k' w hdb'
          rw [hσ] at hshard
          have heqρ : τ = ρ := Slot.word_injective (hs.lt_capacity htarget.live)
            (hs.lt_capacity hρt.live) (htarget.shard.trans (hshard.trans hρt.shard.symm))
            (by rw [← hτ, heq, hρ])
          exact hk (hρt.maps.1.symm.trans (heqρ ▸ htarget.maps.1))
    · rw [hold σ hσ] at hop ⊢
      by_cases hk : k' = k
      · subst hk
        rcases hdbk with hd | hd | ⟨hd, -⟩
        · rw [hd, Option.some_inj] at hdb'
          rw [← hdb']
          exact h.link_ne_nextSlot hroom hop hshard
        · rw [hd] at hdb'
          cases hdb'
        · exact h.head k' w (hd ▸ hdb') σ hop hshard
      · exact h.head k' w (hdb k' hk ▸ hdb') σ hop hshard

/-- Taking a slot without writing it. -/
theorem Inv.reserve (h : s.Inv) {threadId : Fin 64} {k : UInt64}
    (hroom : s.store.log.Room threadId k) :
    Inv ⟨⟨s.store.log.reserve threadId k, s.store.db⟩,
      s.history ++ [s.store.log.nextSlot (cfg.logFor threadId k)]⟩ := by
  have hs := h.store.slotted
  have hext := hs.extends_reserve hroom
  have hrec : ∀ σ, (s.store.log.reserve threadId k).recAt σ = s.recAt σ := fun σ => by
    rw [LogKV.recAt_reserve hs, recAt]
  refine ⟨(h.store.extend hext).1, fun σ => ?_, ?_, ?_, ?_, ?_⟩
  · rw [List.mem_append, List.mem_singleton, h.mem, LogKV.live_reserve hs]
  · refine List.nodup_append.mpr ⟨h.nodup, List.nodup_singleton _, ?_⟩
    rintro a ha b hb rfl
    rw [List.mem_singleton.mp hb] at ha
    exact LogKV.nextSlot_not_live ((h.mem _).mp ha)
  · intro σ hop
    simp only [recAt, hrec] at hop ⊢
    exact h.shard σ hop
  · intro σ hop
    simp only [recAt, Before, hrec] at hop ⊢
    obtain hmax | ⟨τ, hτ, htarget, hbefore⟩ := h.link σ hop
    · exact .inl hmax
    · exact .inr ⟨τ, hτ, htarget.mono hext, hbefore.trans (List.sublist_append_left ..)⟩
  · intro k' w hdb' σ hop hshard
    simp only [recAt, hrec] at hop ⊢
    exact h.head k' w hdb' σ hop hshard

/-- An erase is of a present key. -/
def ErasesPresent (s : Traced cfg) (c : Call) : Prop :=
  ∀ k, c.op = .erase k → (s.store.db k).isSome

/-- **Every call keeps the invariant**, except an erase of an absent key. -/
theorem step_inv {t : Traced cfg} {c : Call} (h : s.Inv) (hC : s.ErasesPresent c)
    (hstep : s.step c = .ok t) : t.Inv := by
  obtain ⟨⟨r, store⟩, hst, ht⟩ := bind_eq_ok hstep
  obtain rfl := Except.ok.inj ht
  have hs := h.store.slotted
  have hcases := Logdb.step_cases hs hst
  obtain ⟨tid, op⟩ := c
  cases hcases with
  | inserted k v hdb hroom =>
    have hstore := (h.store.remap (hs.extends_append hroom _)
      (Logdb.target_append (r := .insertRec (s.store.log.versionFor k) k v) hs
        ⟨rfl, .inl rfl⟩)).1
    exact h.append hroom rfl hstore (.inl rfl) (fun k' hk => Function.update_of_ne hk ..)
      (.inl (Function.update_self ..))
  | rejected k v w hdb hroom =>
    have hstore := (h.store.extend
      (hs.extends_append hroom (.insertRec (s.store.log.versionFor k) k v))).1
    exact h.append hroom rfl hstore (.inl rfl) (fun _ _ => rfl) (.inr (.inr ⟨rfl, rfl⟩))
  | updated k v w hdb hroom =>
    have hstore := (h.store.remap (hs.extends_append hroom _)
      (Logdb.target_append (r := .updateRec (s.store.log.versionFor k) k v w) hs
        ⟨rfl, .inr rfl⟩)).1
    exact h.append hroom rfl hstore (.inr hdb) (fun k' hk => Function.update_of_ne hk ..)
      (.inl (Function.update_self ..))
  | missed k v hdb hroom => exact h.reserve hroom
  | erased k hroom =>
    obtain ⟨w, hw⟩ := Option.isSome_iff_exists.mp (hC k rfl)
    have hstore := (h.store.unmap (k := k) (hs.extends_append hroom
      (.deleteRec (s.store.log.versionFor k) cfg.uninit k ((s.store.db k).getD 0)))).1
    exact h.append hroom rfl hstore (.inr (by simp [PairT.deleteRec, hw]))
      (fun k' hk => Function.update_of_ne hk ..) (.inr (.inl (Function.update_self ..)))
  | searched k =>
    have hempty : s.history ++ ((Call.log? cfg ⟨tid, .search k⟩).map
        s.store.log.nextSlot).toList = s.history := List.append_nil _
    rw [hempty]
    exact h

theorem inv_of_run {cs : List Call} {t : Traced cfg}
    (hrun : Run step ErasesPresent (fresh cfg) cs t) : t.Inv :=
  hrun.invariant (I := Inv) (fun _ _ _ h hC hst => step_inv h hC hst) (inv_fresh cfg)

end Invariant

/-- **Version chains are well formed while only present keys are erased.** In every state
reached by calls of which each `erase` finds its key in the index, every link is the
sentinel or leads to an earlier record of the same key in the same shard, and none leads
to the record the index names. -/
theorem version_chain (cfg : Config) {cs : List Call} {t : Traced cfg}
    (hrun : Run step ErasesPresent (fresh cfg) cs t) : t.VersionChain :=
  (inv_of_run hrun).versionChain

/-- A call with room in its log returns. -/
theorem exists_step {s : Traced cfg} {c : Call} (h : s.store.Inv) (hroom : s.store.CallRoom c) :
    ∃ t, s.step c = .ok t ∧ t.store.Inv ∧ t.store.abs = (mapStep s.store.abs c).2 ∧
      ∀ l, t.store.log.used l = s.store.log.used l + if c.log? cfg = some l then 1 else 0 := by
  obtain ⟨store, hok, hinv, habs, hused⟩ := Logdb.step_refines h hroom
  refine ⟨⟨store, s.history ++ ((c.log? cfg).map s.store.log.nextSlot).toList⟩, ?_, hinv, habs,
    hused⟩
  rw [step, hok]
  rfl

theorem callRoom_fresh (c : Call) : (fresh cfg).store.CallRoom c := by
  intro l _
  rw [fresh, Logdb.fresh, LogKV.used_fresh]
  decide

/-- Runs of the traced store are sequences of calls of the store. -/
theorem exec_of_run {C : Traced cfg → Call → Prop} {s t : Traced cfg} {cs : List Call}
    (h : Run step C s cs t) : ∃ rets, exec Logdb.step s.store cs = .ok (rets, t.store) := by
  induction h with
  | nil s => exact ⟨[], rfl⟩
  | cons _ hst _ ih =>
    obtain ⟨⟨r, store⟩, hok, ht⟩ := bind_eq_ok hst
    obtain rfl := Except.ok.inj ht
    obtain ⟨rets, hrest⟩ := ih
    refine ⟨r :: rets, ?_⟩
    simp only [exec, hok, hrest]

theorem reachable_of_run {C : Traced cfg → Call → Prop} {t : Traced cfg} {cs : List Call}
    (h : Run step C (fresh cfg) cs t) : t.store.Reachable := by
  obtain ⟨rets, hexec⟩ := exec_of_run h
  exact ⟨cs, rets, hexec⟩

/-- The call is a write that returns true. -/
def Succeeds (s : Traced cfg) (c : Call) : Prop :=
  ∃ store, s.store.step c = .ok (.bool true, store)

/-- Updates of the key `k` to the payload `v` leave the rest of the store as it was. -/
structure UpdatesOf (k v : UInt64) (s t : Traced cfg) : Prop where
  /-- the store invariant -/
  inv : t.store.Inv
  /-- no record is changed -/
  log : s.store.log.Extends t.store.log
  /-- no other key is remapped -/
  db : ∀ k', k' ≠ k → t.store.db k' = s.store.db k'
  /-- the key stays present -/
  present : (t.store.db k).isSome
  /-- nothing is mapped anew when the key has the payload already -/
  abs : s.store.abs k = some v → t.store.abs = s.store.abs
  /-- the new records are of the key and have the payload -/
  new : ∀ σ, ¬ s.store.log.Live σ → (t.store.log.recAt σ).op ≠ .trash →
    (t.store.log.recAt σ).key = k ∧ (t.store.log.recAt σ).value = v

theorem UpdatesOf.refl {s : Traced cfg} (h : s.store.Inv) {k v : UInt64}
    (hk : (s.store.db k).isSome) : UpdatesOf k v s s where
  inv := h
  log := h.slotted.extends_refl
  db _ _ := rfl
  present := hk
  abs _ := rfl
  new _ hσ hop := absurd (h.slotted.op_of_not_live hσ) hop

theorem UpdatesOf.trans {s t u : Traced cfg} {k v : UInt64} (hst : UpdatesOf k v s t)
    (htu : UpdatesOf k v t u) : UpdatesOf k v s u where
  inv := htu.inv
  log := hst.log.trans htu.log
  db k' hk' := (htu.db k' hk').trans (hst.db k' hk')
  present := htu.present
  abs hv := by
    have hsame := hst.abs hv
    exact (htu.abs ((congrFun hsame k).trans hv)).trans hsame
  new σ hσ hop := by
    by_cases hlive : t.store.log.Live σ
    · rw [htu.log.recAt σ hlive] at hop ⊢
      exact hst.new σ hσ hop
    · exact htu.new σ hlive hop

/-- One update of a present key. -/
theorem exists_update {s : Traced cfg} (h : s.store.Inv) (threadId : Fin 64) {k : UInt64}
    (v : UInt64) (hk : (s.store.db k).isSome) (hroom : s.store.log.Room threadId k) :
    ∃ t, Run step Succeeds s [⟨threadId, .update k v⟩] t ∧ UpdatesOf k v s t ∧
      t.store.log.used = Function.update s.store.log.used (cfg.logFor threadId k)
        (s.store.log.used (cfg.logFor threadId k) + 1) := by
  obtain ⟨old, hold⟩ := Option.isSome_iff_exists.mp hk
  have hs := h.slotted
  set ν := s.store.log.nextSlot (cfg.logFor threadId k) with hν
  set r := PairT.updateRec (s.store.log.versionFor k) k v old with hr
  have hext := hs.extends_append hroom r
  obtain ⟨hinv, habs⟩ := h.remap hext (Logdb.target_append hs ⟨rfl, .inr rfl⟩)
  rw [LogKV.recAt_append_self hs] at habs
  have hstep : s.store.update threadId k v = _ := Logdb.update_eq_of_some hs v hold
  rw [if_pos hroom] at hstep
  have hcall : s.store.step ⟨threadId, .update k v⟩ = .ok (.bool true,
      ⟨s.store.log.append threadId k r, Function.update s.store.db k (some ν.word)⟩) := by
    simp only [Logdb.step, hstep]
    rfl
  refine ⟨⟨_, s.history ++ [ν]⟩, .single ⟨_, hcall⟩ (by rw [step, hcall]; rfl),
    ⟨hinv, hext, ?_, ?_, ?_, ?_⟩, LogKV.used_append hs⟩
  · exact fun k' hk' => Function.update_of_ne hk' ..
  · simp only [Function.update_self, Option.isSome_some]
  · intro hv
    refine habs.trans ?_
    rw [show r.value = v from rfl, ← hv, Function.update_eq_self]
  · intro σ hσ hop
    simp only [LogKV.recAt_append hs] at hop ⊢
    by_cases hslot : σ = ν
    · rw [hslot, Function.update_self]
      exact ⟨rfl, rfl⟩
    · rw [Function.update_of_ne hslot] at hop
      exact absurd (hs.op_of_not_live hσ) hop

/-- **A present key can be updated any number of times**, as long as its log has room. -/
theorem exists_updates {s : Traced cfg} (h : s.store.Inv) (threadId : Fin 64) {k : UInt64}
    (v : UInt64) (hk : (s.store.db k).isSome) (n : ℕ)
    (hn : s.store.log.used (cfg.logFor threadId k) + n ≤ logCapacity) :
    ∃ t, Run step Succeeds s (List.replicate n ⟨threadId, .update k v⟩) t ∧ UpdatesOf k v s t ∧
      t.store.log.used = Function.update s.store.log.used (cfg.logFor threadId k)
        (s.store.log.used (cfg.logFor threadId k) + n) := by
  induction n generalizing s with
  | zero =>
    refine ⟨s, .nil s, .refl h hk, ?_⟩
    rw [Nat.add_zero, Function.update_eq_self]
  | succ n ih =>
    obtain ⟨t, hst, hupd, hused⟩ := exists_update h threadId v hk (by
      rw [LogKV.Room]
      omega)
    obtain ⟨u, htu, hupd', hused'⟩ := ih hupd.inv hupd.present (by
      rw [hused, Function.update_self]
      omega)
    refine ⟨u, hst.append htu, hupd.trans hupd', ?_⟩
    rw [hused', hused, Function.update_idem, Function.update_self, Nat.add_assoc, Nat.add_comm 1]

/-- Updates of one key fill the first page of its log, and the log moves on. -/
theorem exists_first_page_full {s : Traced cfg} (h : s.store.Inv) (threadId : Fin 64)
    {k : UInt64} (v : UInt64) (hk : (s.store.db k).isSome)
    (hused : s.store.log.used (cfg.logFor threadId k) ≤ slotsPerPage) :
    ∃ n t, Run step Succeeds s (List.replicate n ⟨threadId, .update k v⟩) t ∧ UpdatesOf k v s t ∧
      t.store.log.used = Function.update s.store.log.used (cfg.logFor threadId k)
        (slotsPerPage + 1) ∧
      (t.store.log.ppage (cfg.logFor threadId k)).ppageId = 1 := by
  obtain ⟨t, hrun, hupd, husedt⟩ := exists_updates h threadId v hk
    (slotsPerPage + 1 - s.store.log.used (cfg.logFor threadId k)) (by
      rw [Nat.add_sub_cancel' (by omega)]
      decide)
  rw [Nat.add_sub_cancel' (by omega)] at husedt
  refine ⟨_, t, hrun, hupd, husedt, ?_⟩
  have hsz := hupd.inv.slotted.wf.sz_le (cfg.logFor threadId k)
  replace husedt := (congrFun husedt (cfg.logFor threadId k)).trans (Function.update_self ..)
  simp only [LogKV.used, ppageSize_eq, slotsPerPage, PairT.size] at husedt hsz
  omega

/-- An insert of an absent key returns true. -/
theorem succeeds_insert {s : Traced cfg} {threadId : Fin 64} {k v : UInt64} (h : s.store.Inv)
    (hroom : s.store.CallRoom ⟨threadId, .insert k v⟩) (hk : s.store.abs k = none) :
    s.Succeeds ⟨threadId, .insert k v⟩ := by
  obtain ⟨store, hok, -⟩ := Logdb.step_refines h hroom
  refine ⟨store, ?_⟩
  rw [hok]
  simp [mapStep, hk]

/-- An insert adds a record of its key and payload. -/
theorem insert_new {s t : Traced cfg} {threadId : Fin 64} {k v : UInt64}
    (h : s.store.log.Slotted) (hst : s.step ⟨threadId, .insert k v⟩ = .ok t) :
    s.store.log.Extends t.store.log ∧ ∀ σ, ¬ s.store.log.Live σ →
      (t.store.log.recAt σ).op ≠ .trash →
      (t.store.log.recAt σ).key = k ∧ (t.store.log.recAt σ).value = v := by
  obtain ⟨⟨r, store⟩, hok, ht⟩ := bind_eq_ok hst
  obtain rfl := Except.ok.inj ht
  have hnew : ∀ σ, ¬ s.store.log.Live σ →
      ((s.store.log.append threadId k (.insertRec (s.store.log.versionFor k) k v)).recAt σ).op ≠
        .trash →
      ((s.store.log.append threadId k (.insertRec (s.store.log.versionFor k) k v)).recAt σ).key =
        k ∧
      ((s.store.log.append threadId k (.insertRec (s.store.log.versionFor k) k v)).recAt σ).value =
        v := by
    intro σ hσ hop
    rw [LogKV.recAt_append h] at hop ⊢
    by_cases hν : σ = s.store.log.nextSlot (cfg.logFor threadId k)
    · rw [hν, Function.update_self]
      exact ⟨rfl, rfl⟩
    · rw [Function.update_of_ne hν] at hop
      exact absurd (h.op_of_not_live hσ) hop
  cases Logdb.step_cases h hok with
  | inserted _ _ _ hroom => exact ⟨h.extends_append hroom _, hnew⟩
  | rejected _ _ _ _ hroom => exact ⟨h.extends_append hroom _, hnew⟩

/-- Two inserts. -/
theorem exists_twoKeys : ∃ s : Traced oneShard,
    Run step Succeeds (fresh oneShard) [⟨0, .insert 5 1⟩, ⟨0, .insert 6 0⟩] s ∧ s.store.Inv ∧
      s.store.abs 5 = some 1 ∧ s.store.abs 6 = some 0 ∧
      s.store.log.used = Function.update (fun _ => 0) (oneShard.logFor 0 5) 2 ∧
      ∀ τ, (s.store.log.recAt τ).op ≠ .trash →
        s.store.abs (s.store.log.recAt τ).key = some (s.store.log.recAt τ).value := by
  have hlog : oneShard.logFor 0 6 = oneShard.logFor 0 5 := by decide
  have h0 : ∀ l, (fresh oneShard).store.log.used l = 0 := LogKV.used_fresh
  obtain ⟨s, hs, hinv, habs, hused⟩ :=
    exists_step (c := ⟨0, .insert 5 1⟩) (Logdb.inv_fresh oneShard) (callRoom_fresh _)
  have hroom : s.store.CallRoom ⟨0, .insert 6 0⟩ := by
    intro l _
    rw [hused l, h0 l, logCapacity]
    split <;> omega
  obtain ⟨t, ht, hinv', habs', hused'⟩ := exists_step (c := ⟨0, .insert 6 0⟩) hinv hroom
  have h5 : t.store.abs 5 = some 1 := by rw [habs', habs]; rfl
  have h6 : t.store.abs 6 = some 0 := by rw [habs', habs]; rfl
  refine ⟨t, .cons (succeeds_insert (Logdb.inv_fresh oneShard) (callRoom_fresh _) rfl) hs
    (.single (succeeds_insert hinv hroom (by rw [habs]; rfl)) ht), hinv', h5, h6, ?_, ?_⟩
  · funext l
    have hfirst : Call.log? oneShard ⟨0, .insert 5 1⟩ = some (oneShard.logFor 0 5) := rfl
    have hsecond : Call.log? oneShard ⟨0, .insert 6 0⟩ = some (oneShard.logFor 0 5) :=
      congrArg some hlog
    rw [hused', hused, h0, hfirst, hsecond]
    by_cases hl : l = oneShard.logFor 0 5
    · rw [hl, Function.update_self, if_pos rfl]
    · rw [Function.update_of_ne hl, if_neg fun h => hl (Option.some_inj.mp h).symm]
  · -- a record is of one of the two inserts
    obtain ⟨-, hnew⟩ := insert_new (Logdb.inv_fresh oneShard).slotted hs
    obtain ⟨hext, hnew'⟩ := insert_new hinv.slotted ht
    intro τ hop
    by_cases hlive : s.store.log.Live τ
    · rw [hext.recAt τ hlive] at hop ⊢
      have hnot : ¬ (fresh oneShard).store.log.Live τ := by
        rw [LogKV.Live, h0]
        exact Nat.not_lt_zero _
      obtain ⟨hkey, hval⟩ := hnew τ hnot hop
      rw [hkey, hval, h5]
    · obtain ⟨hkey, hval⟩ := hnew' τ hlive hop
      rw [hkey, hval, h6]

/-- The record of key 5 in a page that is no longer the newest. -/
structure OldRecord (s : Traced oneShard) (σ : Slot oneShard) : Prop where
  /-- the store invariant -/
  inv : s.store.Inv
  /-- the index names the record -/
  db : s.store.db 5 = some σ.word
  /-- it is a record of the key -/
  target : Logdb.Target s.store.log 5 σ
  /-- with payload 1 -/
  value : (s.store.log.recAt σ).value = 1
  /-- in page 0 -/
  page : σ.pageId = ⟨oneShard.logFor 0 5, 0⟩
  /-- while page 1 has its first record -/
  newest : (s.store.log.ppage (oneShard.logFor 0 5)).ppageId = 1
  /-- so there is room -/
  used : s.store.log.used (oneShard.logFor 0 5) = slotsPerPage + 1
  /-- the other node's log is empty -/
  other : ∀ l, l ≠ oneShard.logFor 0 5 → s.store.log.used l = 0
  /-- every record has the payload of its key -/
  current : ∀ τ, (s.store.log.recAt τ).op ≠ .trash →
    s.store.abs (s.store.log.recAt τ).key = some (s.store.log.recAt τ).value

/-- The payload of the key. -/
theorem OldRecord.abs {s : Traced oneShard} {σ : Slot oneShard} (h : OldRecord s σ) :
    s.store.abs 5 = some 1 := by
  rw [h.inv.abs_of_db h.db h.target, h.value]

/-- Every record of the key has the payload. -/
theorem OldRecord.value_of_key {s : Traced oneShard} {σ τ : Slot oneShard} (h : OldRecord s σ)
    (hop : (s.store.log.recAt τ).op ≠ .trash) (hkey : (s.store.log.recAt τ).key = 5) :
    (s.store.log.recAt τ).value = 1 := by
  have hcur := h.current τ hop
  rw [hkey, h.abs] at hcur
  exact (Option.some_inj.mp hcur).symm

/-- Two inserts, and updates of the second key until the first page is full. -/
theorem exists_oldRecord : ∃ (s : Traced oneShard) (σ : Slot oneShard) (n : ℕ),
    Run step Succeeds (fresh oneShard)
      (⟨0, .insert 5 1⟩ :: ⟨0, .insert 6 0⟩ :: List.replicate n ⟨0, .update 6 0⟩) s ∧
      OldRecord s σ := by
  have hlog : oneShard.logFor 0 6 = oneShard.logFor 0 5 := by decide
  obtain ⟨s, hs, hinv, h5, h6, hused, hcur⟩ := exists_twoKeys
  have h6db : (s.store.db 6).isSome := by rw [← s.store.isSome_abs, h6]; rfl
  obtain ⟨n, t, hrun, hupd, hused', hpage⟩ := exists_first_page_full hinv 0 0 h6db (by
    rw [hused, hlog, Function.update_self]
    decide)
  rw [hlog] at hused' hpage
  -- the record of key 5 is in one of the first two slots
  have h5db : (s.store.db 5).isSome := by rw [← s.store.isSome_abs, h5]; rfl
  obtain ⟨w, hw⟩ := Option.isSome_iff_exists.mp h5db
  obtain ⟨σ, rfl, hσ⟩ := hinv.entry 5 w hw
  have hvalue : (s.store.log.recAt σ).value = 1 := by
    rw [hinv.abs_of_db hw hσ] at h5
    exact Option.some_inj.mp h5
  refine ⟨t, σ, n, hs.append hrun, hupd.inv, ?_, hσ.mono hupd.log, ?_, ?_, hpage,
    by rw [hused', Function.update_self], ?_, ?_⟩
  · rw [hupd.db 5 (by decide), hw]
  · rw [hupd.log.recAt σ hσ.live, hvalue]
  · have hpos := hσ.live
    rw [LogKV.Live, hused] at hpos
    have hσlog : σ.log = oneShard.logFor 0 5 := by
      by_contra hne
      rw [Function.update_of_ne hne] at hpos
      exact Nat.not_lt_zero _ hpos
    rw [hσlog, Function.update_self] at hpos
    refine PageId.ext hσlog (Nat.div_eq_of_lt ?_)
    rw [slotsPerPage]
    omega
  · intro l hl
    rw [hused', Function.update_of_ne hl, hused, Function.update_of_ne hl]
  · intro τ hop
    rw [hupd.abs h6]
    by_cases hlive : s.store.log.Live τ
    · rw [hupd.log.recAt τ hlive] at hop ⊢
      exact hcur τ hop
    · obtain ⟨hkey, hval⟩ := hupd.new τ hlive hop
      rw [hkey, hval, h6]

/-- Insert a key, then erase it. -/
theorem version_chain_insert_erase :
    ∃ t : Traced oneShard,
      Run step ErasesPresent (fresh oneShard) [⟨0, .insert 5 1⟩, ⟨0, .erase 5⟩] t ∧
        t.VersionChain := by
  obtain ⟨s, hs, hinv, habs, hused⟩ :=
    exists_step (c := ⟨0, .insert 5 1⟩) (Logdb.inv_fresh oneShard) (callRoom_fresh _)
  have hroom : s.store.CallRoom ⟨0, .erase 5⟩ := by
    intro l _
    have h0 : (fresh oneShard).store.log.used l = 0 := LogKV.used_fresh l
    rw [hused l, h0, logCapacity]
    split <;> omega
  obtain ⟨t, ht, -⟩ := exists_step (c := ⟨0, .erase 5⟩) hinv hroom
  have hpresent : s.ErasesPresent ⟨0, .erase 5⟩ := by
    intro k hk
    obtain rfl := Op.erase.inj hk
    rw [← s.store.isSome_abs, habs]
    rfl
  have hrun : Run step ErasesPresent (fresh oneShard) [⟨0, .insert 5 1⟩, ⟨0, .erase 5⟩] t :=
    .cons (fun _ h => by cases h) hs (.single hpresent ht)
  exact ⟨t, hrun, version_chain oneShard hrun⟩

/-- An erase of an absent key breaks the property, whatever the state before it. -/
theorem erase_absent_breaks {s t : Traced cfg} {threadId : Fin 64} {k : UInt64} (h : s.Inv)
    (hdb : s.store.db k = none) (hstep : s.step ⟨threadId, .erase k⟩ = .ok t) :
    ¬ t.VersionChain := by
  intro hchain
  obtain ⟨⟨r, store⟩, hst, ht⟩ := bind_eq_ok hstep
  obtain rfl := Except.ok.inj ht
  have hs := h.store.slotted
  cases Logdb.step_cases hs hst with
  | erased _ hroom =>
    have hrec : ∀ r, (s.store.log.append threadId k r).recAt
        (s.store.log.nextSlot (cfg.logFor threadId k)) = r :=
      fun _ => LogKV.recAt_append_self hs
    have hlink := hchain.link (s.store.log.nextSlot (cfg.logFor threadId k))
    simp only [recAt, hrec] at hlink
    simp only [hdb, Option.getD_none, PairT.deleteRec] at hlink
    obtain hmax | ⟨τ, hτ, -⟩ := hlink (by decide)
    · exact absurd hmax (by decide)
    · exact τ.word_ne_zero hτ.symm

/-- Without the condition the property fails: the first call of the run is an erase. -/
theorem version_chain_erase_absent :
    ¬ ∀ (cfg : Config) (cs : List Call) (t : Traced cfg),
      Run step (fun _ _ => True) (fresh cfg) cs t → t.VersionChain := by
  intro h
  obtain ⟨t, ht, -⟩ :=
    exists_step (c := ⟨0, .erase 5⟩) (Logdb.inv_fresh oneShard) (callRoom_fresh _)
  exact erase_absent_breaks (inv_fresh oneShard) rfl ht
    (h oneShard [⟨0, .erase 5⟩] t (.single trivial ht))

end Traced

end NaliStore
