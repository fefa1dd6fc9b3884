import NaliStore.Refine

/-!
# Calls that return false

An insert of a present key, an update of an absent one and an erase of an absent one
return false. All three go to the log before they learn the answer of the index, and
nothing is taken back: a call that returns false still uses up one slot of its log. It is
a failure of the index only. What a search finds and every record already in the log stay,
and so do all the other logs.
-/

namespace NaliStore

open Runs

variable {cfg : Config}

namespace Logdb

/-- The persistent log is left as it was: no slot shows a new record, and no log has moved
its append position. -/
def LogUnchanged (s s' : Logdb cfg) : Prop :=
  (∀ σ, (s'.log.recAt σ).op ≠ .trash → (s.log.recAt σ).op ≠ .trash) ∧
    s'.log.ppage = s.log.ppage

/-- A slot of log `l` is used up, and nothing else changes in the log or in what searches
find. -/
structure TakesSlot (s s' : Logdb cfg) (l : LogId cfg) : Prop where
  /-- every search finds what it found before -/
  search : ∀ k, s'.search k = s.search k
  /-- every slot but the one taken holds the record it held before -/
  kept : ∀ σ, σ ≠ s.log.nextSlot l → s'.log.recAt σ = s.log.recAt σ
  /-- the log has moved by one slot -/
  used : s'.log.used l = s.log.used l + 1
  /-- the other logs have not moved -/
  other : ∀ l', l' ≠ l → s'.log.ppage l' = s.log.ppage l'

section Failed

variable {s s' : Logdb cfg} {c : Call}

/-- A call on a map that returns false leaves the map alone. -/
theorem mapStep_false {m : UInt64 → Option UInt64} (h : (mapStep m c).1 = .bool false) :
    (mapStep m c).2 = m := by
  obtain ⟨tid, op⟩ := c
  cases op with
  | insert k v =>
    simp only [mapStep] at h ⊢
    split at h
    · cases h
    · rw [if_neg ‹_›]
  | update k v =>
    simp only [mapStep] at h ⊢
    split at h
    · cases h
    · rw [if_neg ‹_›]
  | erase k =>
    have hnone : m k = none :=
      Option.isNone_iff_eq_none.mp (Option.isSome_eq_false_iff.mp (Ret.bool.inj h))
    simp only [mapStep]
    rw [← hnone, Function.update_eq_self]
  | search k => rfl

/-- A write that returned took the next slot of its log. -/
theorem StepTo.log_eq {threadId : Fin 64} {op : Op} (h : StepTo s threadId op s') {l : LogId cfg}
    (hl : (⟨threadId, op⟩ : Call).log? cfg = some l) :
    (∃ k, l = cfg.logFor threadId k ∧ s'.log = s.log.reserve threadId k) ∨
      ∃ k r, l = cfg.logFor threadId k ∧ s'.log = s.log.append threadId k r := by
  cases h with
  | inserted k v _ _ => exact .inr ⟨k, _, (Option.some_inj.mp hl).symm, rfl⟩
  | rejected k v w _ _ => exact .inr ⟨k, _, (Option.some_inj.mp hl).symm, rfl⟩
  | updated k v w _ _ => exact .inr ⟨k, _, (Option.some_inj.mp hl).symm, rfl⟩
  | missed k v _ _ => exact .inl ⟨k, (Option.some_inj.mp hl).symm, rfl⟩
  | erased k _ => exact .inr ⟨k, _, (Option.some_inj.mp hl).symm, rfl⟩
  | searched k => cases hl

/-- Only writes return false. -/
theorem exists_log_of_false (hs : s.Inv) (h : s.step c = .ok (.bool false, s')) :
    ∃ l, c.log? cfg = some l := by
  obtain ⟨tid, op⟩ := c
  cases op with
  | insert k v => exact ⟨_, rfl⟩
  | update k v => exact ⟨_, rfl⟩
  | erase k => exact ⟨_, rfl⟩
  | search k =>
    simp only [step, hs.search_eq] at h
    cases h

/-- **A call that returns false takes one slot.** -/
theorem Inv.takesSlot (hs : s.Inv) (h : s.step c = .ok (.bool false, s')) {l : LogId cfg}
    (hl : c.log? cfg = some l) : TakesSlot s s' l := by
  obtain ⟨t, hok, hinv, habs, hused⟩ := step_refines hs (callRoom_of_step hs.slotted h)
  rw [h] at hok
  obtain ⟨hret, rfl⟩ := Prod.mk.inj (Except.ok.inj hok)
  refine ⟨fun k => ?_, fun σ hσ => ?_, ?_, fun l' hl' => ?_⟩
  · rw [hinv.search_eq, hs.search_eq, habs, mapStep_false hret.symm]
  · obtain ⟨k, rfl, hlog⟩ | ⟨k, r, rfl, hlog⟩ := (step_cases hs.slotted h).log_eq hl
    · rw [hlog, LogKV.recAt_reserve hs.slotted]
    · rw [hlog, LogKV.recAt_append hs.slotted, Function.update_of_ne hσ]
  · rw [hused, if_pos hl]
  · obtain ⟨k, rfl, hlog⟩ | ⟨k, r, rfl, hlog⟩ := (step_cases hs.slotted h).log_eq hl
    · rw [hlog]
      exact LogKV.afterAlloc_ppage_ne hl'
    · rw [hlog]
      exact LogKV.afterAlloc_ppage_ne hl'

/-- An insert that returns false leaves its record in the slot. -/
theorem Inv.insert_false (hs : s.Inv) {k v : UInt64} (hop : c.op = .insert k v)
    (h : s.step c = .ok (.bool false, s')) :
    s'.log.recAt (s.log.nextSlot (cfg.logFor c.threadId k)) =
      .insertRec (s.log.versionFor k) k v := by
  have hcases := step_cases hs.slotted h
  rw [hop] at hcases
  cases hcases with
  | inserted _ _ _ _ => exact LogKV.recAt_append_self hs.slotted
  | rejected _ _ w _ _ => exact LogKV.recAt_append_self hs.slotted

/-- An update that returns false leaves the slot unwritten. -/
theorem Inv.update_false (hs : s.Inv) {k v : UInt64} (hop : c.op = .update k v)
    (h : s.step c = .ok (.bool false, s')) :
    s'.log.recAt (s.log.nextSlot (cfg.logFor c.threadId k)) = PairT.blank := by
  obtain ⟨tid, op⟩ := c
  subst hop
  cases hdb : s.db k with
  | some w =>
    -- a present key is updated, so the call returned true
    simp only [Logdb.step, update_eq_of_some hs.slotted v hdb] at h
    split at h
    · cases h
    · cases h
  | none =>
    simp only [Logdb.step, update_eq_of_none hs.slotted v hdb] at h
    split at h
    · obtain ⟨-, rfl⟩ := Prod.mk.inj (Except.ok.inj h)
      rw [LogKV.recAt_reserve hs.slotted]
      exact hs.slotted.unwritten _ LogKV.nextSlot_not_live
    · cases h

/-- **A failed call uses up one slot and changes nothing else.** In every reachable store, a
call that returns false leaves what every search finds, every record in the log and all
other logs as they were, and moves its own log by exactly one slot: an insert of a present
key leaves its INSERT record there, an update of an absent key leaves the slot unwritten. -/
theorem failed_call_takes_one_slot (hs : s.Reachable) (h : s.step c = .ok (.bool false, s')) :
    ∃ l, c.log? cfg = some l ∧ TakesSlot s s' l ∧
      (∀ k v, c.op = .insert k v →
        s'.log.recAt (s.log.nextSlot l) = .insertRec (s.log.versionFor k) k v) ∧
      ∀ k v, c.op = .update k v → s'.log.recAt (s.log.nextSlot l) = PairT.blank := by
  obtain ⟨l, hl⟩ := exists_log_of_false hs.inv h
  refine ⟨l, hl, hs.inv.takesSlot h hl, fun k v hop => ?_, fun k v hop => ?_⟩
  · have hlog : l = cfg.logFor c.threadId k := by
      rw [Call.log?, hop] at hl
      exact (Option.some_inj.mp hl).symm
    rw [hlog]
    exact hs.inv.insert_false hop h
  · have hlog : l = cfg.logFor c.threadId k := by
      rw [Call.log?, hop] at hl
      exact (Option.some_inj.mp hl).symm
    rw [hlog]
    exact hs.inv.update_false hop h

end Failed

/-- A store that holds key 5, and a second insert of it. -/
theorem exists_rejected : ∃ s s' : Logdb oneShard,
    s.Reachable ∧ s.step ⟨0, .insert 5 2⟩ = .ok (.bool false, s') := by
  have hfit : FitsPages oneShard [⟨0, .insert 5 1⟩] := fitsPages_of_length (by decide)
  obtain ⟨s, hexec, hinv, habs, hused⟩ := exec_eq hfit
  have hroom : s.CallRoom ⟨0, .insert 5 2⟩ := by
    intro l _
    have hle : writesTo l [⟨0, .insert 5 1⟩] ≤ 1 := List.countP_le_length
    rw [hused]
    exact lt_of_le_of_lt hle (by decide)
  obtain ⟨s', hok, -⟩ := step_refines hinv hroom
  refine ⟨s, s', ⟨_, _, hexec⟩, ?_⟩
  rw [hok, habs]
  rfl

theorem failed_call_takes_one_slot_insert : ∃ s s' : Logdb oneShard,
    s.Reachable ∧ s.step ⟨0, .insert 5 2⟩ = .ok (.bool false, s') ∧
      TakesSlot s s' (oneShard.logFor 0 5) := by
  obtain ⟨s, s', hs, h⟩ := exists_rejected
  obtain ⟨l, hl, htakes, -⟩ := failed_call_takes_one_slot hs h
  obtain rfl := Option.some_inj.mp hl
  exact ⟨s, s', hs, h, htakes⟩

/-- The second insert of a key returns false and moves the log. -/
theorem rejected_insert_moves_log :
    ¬ ∀ (cfg : Config) (s s' : Logdb cfg) (c : Call), s.Reachable →
      s.step c = .ok (.bool false, s') → LogUnchanged s s' := by
  intro hall
  obtain ⟨s, s', hs, h⟩ := exists_rejected
  have hused := (hs.inv.takesSlot h rfl).used
  rw [LogKV.used, (hall oneShard s s' _ hs h).2, ← LogKV.used] at hused
  exact absurd hused (Nat.ne_of_lt (Nat.lt_succ_self _))

end Logdb

end NaliStore
