import NaliStore.Interleave

/-!
# Readers and concurrent updates

`update` publishes the address of its new record in the index and stores the record
afterwards, into a page that was filled with ones. A `search` whose two steps fall
around the first of these and before the second reads the ones.

If no search reads a record between the index update that published it and its
`store_persist`, then every search that finds its key returns the payload the key had
before the updates or the payload of one of the updates.
-/

namespace NaliStore

open Runs

variable {cfg : Config}

namespace Sys

/-- The action belongs to an `update` or a `search` call. -/
def UpdateOrSearch (a : Action cfg) : Prop :=
  match a with
  | .call _ c => (∃ k v, c.op = .update k v) ∨ ∃ k, c.op = .search k
  | .relocate _ _ _ => False
  | .run _ => True

/-- The record a search is about to read is not one that is published and not stored. -/
def ReadsStored (s : Sys cfg) (a : Action cfg) : Prop :=
  ∀ t k w, a = .run t → s.threads t = .searchFound k w →
    ∀ u src p logAddr, s.threads u = .updatePublished src p logAddr →
      s.store.log.getAddr (.ofAddrInfo w) (cfg.xxh3 k) ≠ .ok logAddr

/-- A read that meets the condition finds an allowed payload. -/
theorem Inv.reads {A : UInt64 → UInt64 → Prop} {s : Sys cfg} (h : s.Inv A) {a : Action cfg}
    (hC : s.ReadsStored a) : s.Reads A a := by
  intro t k w ha hth addr v haddr hv
  have hpc := h.pcs t
  rw [hth] at hpc
  obtain ⟨σ, v', rfl, hA, hnames⟩ := hpc
  have hresolve := h.slotted.getAddr_eq hnames.live hnames.shard
  rw [hresolve] at haddr
  obtain rfl := Except.ok.inj haddr
  rw [h.slotted.readPayload_eq hnames.live] at hv
  obtain rfl := Except.ok.inj hv
  rcases hnames with hw | ⟨-, -, u, r, hp, -, -⟩
  · rw [hw.2]
    exact hA
  · -- the record is still with its writer: the condition excludes it
    cases hu : s.threads u with
    | updatePublished src p logAddr =>
      rw [hu] at hp
      exact absurd (hp.1 ▸ hresolve) (hC t k _ ha hth u src p logAddr hu)
    | _ => rw [hu] at hp; exact hp.elim

/-- **A reader sees written records.** From every store that calls have led to, in every
interleaving of `update` and `search` calls in which no search reads a record between
its publication and its `store_persist`: a search that finds its key has returned the
payload the key had before, or the payload of one of the updates of the key. -/
theorem search_sees_written (cfg : Config) {store : Logdb cfg} (hreach : store.Reachable)
    {as : List (Action cfg)} {s : Sys cfg}
    (hrun : Run step (fun s a => UpdateOrSearch a ∧ s.ReadsStored a) (ofStore store) as s)
    {k v : UInt64} (hret : (.search k, .found (some v)) ∈ s.returns) :
    store.search k = .ok (some v) ∨
      ∃ t threadId, Action.call t ⟨threadId, .update k v⟩ ∈ as := by
  let A : UInt64 → UInt64 → Prop := fun k v =>
    store.search k = .ok (some v) ∨
      ∃ t threadId, Action.call t ⟨threadId, .update k v⟩ ∈ as
  have hinit : (ofStore store).Inv A := by
    refine inv_ofStore hreach fun k v hv => .inl ?_
    rw [hreach.inv.search_eq, hv]
  have hinv : s.Inv A := by
    refine hrun.mem.invariant (I := Inv A) ?_ hinit
    rintro s a t h ⟨⟨hop, hread⟩, ha⟩ hstep
    refine h.step ?_ (h.reads hread) hstep
    cases a with
    | call u c =>
      rintro k' v' (hc | hc)
      · rcases hop with ⟨_, _, hc'⟩ | ⟨_, hc'⟩
        · rw [hc] at hc'; cases hc'
        · rw [hc] at hc'; cases hc'
      · obtain ⟨tid, op⟩ := c
        obtain rfl : op = .update k' v' := hc
        exact .inr ⟨u, tid, ha⟩
    | relocate _ _ _ => exact hop.elim
    | run _ => trivial
  exact hinv.returned _ hret k v rfl rfl

/-- A thread that is let run alone meets the condition. -/
theorem Alone.readsStored {s s' : Sys cfg} {t : ℕ} {c : Call} {a : Action cfg}
    (h : s.Alone t c s' a) (hidle : ∀ u, u ≠ t → s.threads u = .idle) : s'.ReadsStored a := by
  rintro u k w rfl hth x src p logAddr hx
  have hu : u = t := by
    rcases h.1 with h | h
    · cases h
    · exact Action.run.inj h
  by_cases hxt : x = t
  · rw [hxt, ← hu, hth] at hx
    cases hx
  · rw [h.2 x hxt, hidle x hxt] at hx
    cases hx

/-- The store after one insert. -/
theorem exists_inserted : ∃ store : Logdb oneShard, store.Reachable ∧
    store.abs 5 = some 1 ∧ ∀ l, store.log.used l ≤ 1 := by
  obtain ⟨store, hexec, -, habs, hused⟩ :=
    Logdb.exec_eq (Logdb.fitsPages_of_length (by decide) :
      Logdb.FitsPages oneShard [⟨0, .insert 5 1⟩])
  refine ⟨store, ⟨_, _, hexec⟩, by rw [habs]; rfl, fun l => ?_⟩
  rw [hused]
  exact List.countP_le_length

/-- An update, and a search after it. -/
theorem search_sees_written_after_update :
    ∃ (store : Logdb oneShard) (s : Sys oneShard), store.Reachable ∧
      Run step (fun s a => UpdateOrSearch a ∧ s.ReadsStored a) (ofStore store)
        ((.call 0 ⟨0, .update 5 2⟩ :: List.replicate 6 (.run 0)) ++
          (.call 1 ⟨0, .search 5⟩ :: List.replicate 6 (.run 1))) s ∧
      (.search 5, .found (some 2)) ∈ s.returns ∧
      (store.search 5 = .ok (some 2) ∨ ∃ t threadId, Action.call t ⟨threadId, .update 5 2⟩ ∈
        ((.call 0 ⟨0, .update 5 2⟩ :: List.replicate 6 (.run 0)) ++
          (.call 1 ⟨0, .search 5⟩ :: List.replicate 6 (.run 1)) : List (Action oneShard))) := by
  obtain ⟨store, hreach, habs, hused⟩ := exists_inserted
  have hroom : store.CallRoom ⟨0, .update 5 2⟩ := fun l _ => by
    have := hused l
    rw [logCapacity]
    omega
  obtain ⟨store', hok, hinv, habs', -⟩ := Logdb.step_refines hreach.inv hroom
  have hret : (mapStep store.abs ⟨0, .update 5 2⟩) =
      (.bool true, Function.update store.abs 5 (some 2)) := by
    simp [mapStep, habs]
  rw [hret] at hok habs'
  have hsearch : store'.step ⟨0, .search 5⟩ = .ok (.found (some 2), store') := by
    simp only [Logdb.step, hinv.search_eq, habs', Function.update_self]
    rfl
  have hrun₁ := run_alone (s := ofStore store) (t := 0) rfl hreach.inv.slotted hok
  have hrun₂ := run_alone (s := ⟨store', fun _ => .idle, [(.update 5 2, .bool true)]⟩) (t := 1) rfl
    hinv.slotted hsearch
  have hrun : Run step (fun s a => UpdateOrSearch a ∧ s.ReadsStored a) (ofStore store) _ _ :=
    (hrun₁.mono fun s a h => ⟨by
      rcases h.1 with rfl | rfl
      · exact .inl ⟨5, 2, rfl⟩
      · trivial, h.readsStored fun _ _ => rfl⟩).append
    (hrun₂.mono fun s a h => ⟨by
      rcases h.1 with rfl | rfl
      · exact .inr ⟨5, rfl⟩
      · trivial, h.readsStored fun _ _ => rfl⟩)
  have hmem : (Op.search 5, Ret.found (some 2)) ∈
      [(Op.update 5 2, Ret.bool true)] ++ [(Op.search 5, Ret.found (some 2))] := by decide
  exact ⟨store, _, hreach, hrun, hmem, search_sees_written oneShard hreach hrun hmem⟩

/-- Without the condition a search can read the ones a page is filled with: it runs
between the index update and the `store_persist` of an update. -/
theorem search_sees_unwritten :
    ¬ ∀ (cfg : Config) (store : Logdb cfg), store.Reachable →
      ∀ (as : List (Action cfg)) (s : Sys cfg),
        Run step (fun _ a => UpdateOrSearch a) (ofStore store) as s →
        ∀ k v, (.search k, .found (some v)) ∈ s.returns →
          store.search k = .ok (some v) ∨
            ∃ t threadId, Action.call t ⟨threadId, .update k v⟩ ∈ as := by
  intro h
  obtain ⟨store, hreach, habs, hused⟩ := exists_inserted
  have hs := hreach.inv.slotted
  have hroom : store.log.Room 0 5 := by
    have := hused (oneShard.logFor 0 5)
    rw [LogKV.Room, logCapacity]
    omega
  obtain ⟨old, hold⟩ : ∃ old, store.db 5 = some old := by
    rw [← Option.isSome_iff_exists, ← store.isSome_abs, habs]
    rfl
  -- thread 0 publishes and stops, thread 1 searches
  let ν := store.log.nextSlot (oneShard.logFor 0 5)
  let published : Logdb oneShard :=
    ⟨store.log.reserve 0 5, Function.update store.db 5 (some ν.word)⟩
  let s₀ : Sys oneShard := ofStore store
  let s₁ : Sys oneShard := s₀.next 0 published
    (.updatePublished none (.updateRec (store.log.versionFor 5) 5 2 old) ν.ptr)
  have hlive : published.log.Live ν := LogKV.live_nextSlot_reserve hs 0 5
  have hblank : published.log.recAt ν = PairT.blank := by
    simp only [published, LogKV.recAt_reserve hs]
    exact hs.unwritten ν LogKV.nextSlot_not_live
  have hcall₀ : s₀.step (.call 0 ⟨0, .update 5 2⟩) =
      .ok (s₀.next 0 store (.updateStart none 0 5 2)) := rfl
  have hcall₁ : s₁.step (.call 1 ⟨0, .search 5⟩) =
      .ok (s₁.next 1 published (.searchStart 5)) := rfl
  have hread : (s₁.next 1 published (.searchFound 5 ν.word)).runThread 1 =
      .ok (s₁.next 1 published (.returning none (.search 5) (.found (some uint64Max)))) := by
    refine (runThread_searchFound (hs.reserve hroom) hlive rfl).trans ?_
    rw [hblank]
    rfl
  have hsearch : published.db 5 = some ν.word := by
    simp only [published, Function.update_self]
  have hrun : Run step (fun _ a => UpdateOrSearch a) s₀
      [.call 0 ⟨0, .update 5 2⟩, .run 0, .run 0, .run 0, .call 1 ⟨0, .search 5⟩, .run 1, .run 1,
        .run 1]
      { s₁.next 1 published .idle with
        returns := [(.search 5, .found (some uint64Max))] } := by
    refine .cons (.inl ⟨5, 2, rfl⟩) hcall₀ ?_
    refine .cons trivial (step_run runThread_updateStart) ?_
    refine .cons trivial
      (step_run (runThread_updateVersioned (by exact hs.bump) (by exact hroom))) ?_
    refine .cons trivial (step_run (runThread_updateAllocated_of_some (by exact hold))) ?_
    refine .cons (.inr ⟨5, rfl⟩) hcall₁ ?_
    refine .cons trivial (step_run (runThread_searchStart_of_some (by exact hsearch))) ?_
    exact .cons trivial (step_run hread) (.single trivial (step_run runThread_returning))
  rcases h oneShard store hreach _ _ hrun 5 uint64Max (List.mem_singleton.mpr rfl) with hv | hv
  · rw [hreach.inv.search_eq, habs] at hv
    exact absurd (Option.some_inj.mp (Except.ok.inj hv)) (by decide)
  · obtain ⟨t, tid, hmem⟩ := hv
    simp only [List.mem_cons, List.not_mem_nil, or_false, reduceCtorEq, false_or,
      Action.call.injEq, Call.mk.injEq, Op.update.injEq] at hmem
    rcases hmem with ⟨-, -, -, hv⟩ | ⟨-, -, hv⟩
    · exact absurd hv (by decide)
    · cases hv

end Sys

end NaliStore
