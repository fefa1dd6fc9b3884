import NaliStore.Interleave

/-!
# Records that are there or on their way

A link may lead to a slot that the index has named before its record was stored. What a
slot *settles* to is the record it holds, or the one that the thread which has published
it stores with its next step. That is all a link needs: the record of a slot that has
settled is fixed, link and version included, whatever the threads do.
-/

namespace NaliStore

open Runs

variable {cfg : Config}

namespace Sys

/-- The slot holds the record, or will as soon as the thread that has published it takes
its next step. -/
def Settles (s : Sys cfg) (σ : Slot cfg) (r : PairT) : Prop :=
  s.store.log.recAt σ = r ∧ r.op ≠ .trash ∨ ∃ t, (s.threads t).Published σ r

variable {s s' : Sys cfg} {σ : Slot cfg} {r : PairT}

/-- **What a slot settles to is not changed by any step.** -/
theorem Settles.step (h : s.Settles σ r) (hs : s.Safe) {a : Action cfg}
    (hstep : s.step a = .ok s') : s'.Settles σ r := by
  obtain ⟨t, hm, hother⟩ := hs.moves_step hstep
  rcases h with ⟨hrec, hop⟩ | ⟨u, hp⟩
  · left
    rw [hm.recAt_of_ne_trash hs (by rwa [hrec])]
    exact ⟨hrec, hop⟩
  · by_cases hu : u = t
    · subst hu
      rcases hm.published σ r hp with hp' | hrec
      · exact .inr ⟨u, hp'⟩
      · refine .inl ⟨hrec, ?_⟩
        rw [hs.published_op hp]
        decide
    · exact .inr ⟨u, by rwa [hother u hu]⟩

end Sys

/-! ## A store with one key -/

namespace LogKV

theorem versionFor_bump (s : LogKV cfg) (k : UInt64) :
    (s.bump (cfg.xxh3 k)).versionFor k = s.versionFor k + 1 := Function.update_self ..

theorem versionFor_append (s : LogKV cfg) (threadId : Fin 64) (k : UInt64) (r : PairT) :
    (s.append threadId k r).versionFor k = s.versionFor k + 1 := s.versionFor_bump k

end LogKV

/-- The first insert into an empty store, as a run of an idle thread. -/
theorem Sys.exists_first_insert (cfg : Config) (t : ℕ) (tid : Fin 64) (k v : UInt64) :
    ∃ (as : List (Action cfg)) (s : Sys cfg) (σ : Slot cfg),
      Run Sys.step (fun _ _ => True) (ofStore (Logdb.fresh cfg)) as s ∧ s.store.log.Slotted ∧
      s.threads = (fun _ => .idle) ∧ s.store.db k = some σ.word ∧ s.store.log.Live σ ∧
      s.store.log.recAt σ = .insertRec 0 k v ∧ σ.log = cfg.logFor tid k ∧
      s.store.log.used (cfg.logFor tid k) = 1 ∧ s.store.log.versionFor k = 1 := by
  set store := Logdb.fresh cfg with hstore
  have hs : store.log.Slotted := LogKV.slotted_fresh cfg
  have hzero : store.log.used (cfg.logFor tid k) = 0 := LogKV.used_fresh _
  have hroom : store.log.Room tid k := lt_of_eq_of_lt hzero (by decide)
  set r := PairT.insertRec 0 k v with hr
  set σ := store.log.nextSlot (cfg.logFor tid k) with hσ
  set store' : Logdb cfg := ⟨store.log.append tid k r, Function.update store.db k (some σ.word)⟩
    with hstore'
  have hinsert : store.step ⟨tid, .insert k v⟩ = .ok (.bool true, store') := by
    have heq : store.insert tid k v = .ok (true, store') :=
      (Logdb.insert_eq hs v).trans (if_pos hroom)
    simp only [Logdb.step, heq]
    rfl
  refine ⟨_, _, σ, (run_alone (t := t) (s := ofStore store) rfl hs hinsert).mono
    fun _ _ _ => trivial, hs.append hroom, rfl, Function.update_self .., ?_, ?_, rfl, ?_, ?_⟩
  · exact (LogKV.live_append hs).mpr (.inr rfl)
  · exact LogKV.recAt_append_self hs
  · change store'.log.used (cfg.logFor tid k) = 1
    rw [hstore', LogKV.used_append hs, Function.update_self, hzero]
  · exact LogKV.versionFor_append store.log tid k r

end NaliStore
