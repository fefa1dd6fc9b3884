import NaliStore.Insert

/-!
# The index is a finite map

What the index holds is the set of pairs in its buckets. As long as `Put` is called with keys
that are not there, `Put`, `Update`, `Delete` and `Get` act on it as on a finite map, through
all splits of buckets, re-packings of groups and expansions of the tree.

`Put` does not look for its key. Called with a key that is there it makes a second copy of
it, and from then on the operations see one or the other.
-/

namespace NaliStore

open Routing Runs

namespace Nali

variable {s s' : Nali} {k v : UInt64} {M : UInt64 → Option UInt64} {models : Models}
  {model : RootModel} {heap : Heap} {minKey : UInt64}

/-- The index holds the map: its invariant holds, and the pairs in its buckets are those of
the map. -/
structure Holds (s : Nali) (M : UInt64 → Option UInt64) : Prop where
  /-- the invariant -/
  inv : s.Inv
  /-- the pairs in the buckets -/
  stored : ∀ k v, M k = some v ↔ Stored s.heap s.cells k v

/-- **`Init`**: one empty bucket, whatever the memory held. -/
theorem holds_init (models : Models) (model : RootModel) (heap : Heap) (minKey : UInt64) :
    (init models model heap minKey).Holds fun _ => none := by
  set s := init models model heap minKey with hs
  have hgroups : s.groupSpace = [(Group.init models.group heap minKey).1] := rfl
  have hcells : s.cells = [⟨0, heap.next⟩] := rfl
  have hentries : (s.heap.bunckets heap.next).entries = 0 := by
    have hheap : s.heap = heap.alloc.2 := rfl
    rw [hheap, Heap.alloc]
    simp only [Function.update_self]
  have hempty : ∀ k v, ¬ Stored s.heap s.cells k v := by
    rintro k v ⟨c, hc, i, hi, -⟩
    rw [hcells, List.mem_singleton] at hc
    rw [hc, hentries] at hi
    exact absurd hi (Nat.not_lt_zero i)
  refine ⟨⟨fun g hg => ?_, ?_, by rw [hcells]; exact List.cons_ne_nil _ _,
    fun i g hg hne hbefore => ?_⟩, fun k v => ⟨fun h => (by cases h), fun h => absurd h (hempty k v)⟩⟩
  · rw [hgroups, List.mem_singleton] at hg
    subst hg
    refine ⟨fun b hb => ?_, rfl⟩
    rw [Group.init, List.mem_singleton] at hb
    subst hb
    have hb := PointerBEntry.wf_ofEEntry ⟨⟨0, heap.next⟩, 8, 0, 1⟩
    exact hb
  · have hmem : ∀ {c}, c ∈ s.cells → c = ⟨0, heap.next⟩ := by
      intro c hc
      rwa [hcells, List.mem_singleton] at hc
    refine ⟨by rw [hcells]; exact List.pairwise_singleton _ _, fun c hc d hd _ => ?_, fun c hc => ?_,
      fun c hc => ⟨fun i hi => ?_, ?_⟩, fun c hc k _ => ?_, fun c hc d hd hlt => ?_⟩
    · rw [hmem hc, hmem hd]
    · rw [hmem hc]
      exact Nat.lt_succ_self heap.next
    · rw [hmem hc, hentries] at hi
      exact absurd hi (Nat.not_lt_zero i)
    · rw [hmem hc, hentries]
      exact Nat.zero_le _
    · rw [hmem hc]
      exact UInt64.zero_le
    · rw [hmem hc, hmem hd] at hlt
      exact absurd hlt (lt_irrefl _)
  · -- there is no group before the first
    obtain ⟨j, hj, -⟩ := hbefore
    rw [hgroups] at hg
    cases i with
    | zero => exact Nat.zero_le _
    | succ i => cases hg

/-! ## The operations -/

theorem Holds.absent (h : s.Holds M) (hk : M k = none) (w : UInt64) :
    ¬ Stored s.heap s.cells k w := by
  intro hw
  rw [← h.stored, hk] at hw
  cases hw

theorem Holds.of_putOk (h : s.Holds M) (hk : M k = none) (hok : s.PutOk k v s') :
    s'.Holds (Function.update M k (some v)) := by
  obtain ⟨hinv, hst⟩ := hok.of_absent (h.absent hk)
  refine ⟨hinv, fun k' v' => ?_⟩
  rw [hst, ← h.stored]
  by_cases hkk : k' = k
  · subst hkk
    simp only [Function.update_self, hk, Option.some.injEq, reduceCtorEq, false_or, true_and]
    exact eq_comm
  · simp only [Function.update_of_ne hkk, hkk, false_and, or_false]

/-- **`Put`** of an absent key. -/
theorem Holds.put_spec (h : s.Holds M) (hk : M k = none) (models : Models) (v : UInt64) :
    ∃ s', s.put models k v = .ok (.ok, s') ∧ s'.Holds (Function.update M k (some v)) := by
  obtain ⟨s', hput, hok⟩ := h.inv.put_spec models k v
  exact ⟨s', hput, h.of_putOk hk hok⟩

/-- **`Update`** returns the old value, and replaces it when there is one. -/
theorem Holds.update_spec (h : s.Holds M) (k v : UInt64) :
    ∃ s', s.update k v = .ok (M k, s') ∧
      s'.Holds (if M k = none then M else Function.update M k (some v)) := by
  obtain ⟨c, hroute, -, hupdate, -⟩ := h.inv.exists_route k
  rw [hupdate]
  cases hk : M k with
  | none =>
    rw [(Cells.of_absent hroute (h.absent hk) v).1, Heap.set_eq_self]
    exact ⟨s, rfl, by rw [if_pos rfl]; exact h⟩
  | some w =>
    obtain ⟨hold, hcells, hst⟩ :=
      h.inv.cells.update_of_stored hroute ((h.stored k w).mp hk) v
    rw [hold, if_neg (by simp)]
    refine ⟨_, rfl, ⟨h.inv.wf, hcells, h.inv.ne, h.inv.model⟩, fun k' v' => ?_⟩
    refine Iff.trans ?_ (hst k' v').symm
    by_cases hkk : k' = k
    · subst hkk
      simp only [Function.update_self, Option.some.injEq, if_true]
      exact eq_comm
    · rw [Function.update_of_ne hkk, if_neg hkk]
      exact h.stored k' v'

/-- **`Delete`** returns the old value. -/
theorem Holds.delete_spec (h : s.Holds M) (k : UInt64) :
    ∃ s', s.delete k = .ok (M k, s') ∧ s'.Holds (Function.update M k none) := by
  obtain ⟨c, hroute, -, -, hdelete⟩ := h.inv.exists_route k
  rw [hdelete]
  cases hk : M k with
  | none =>
    rw [(Cells.of_absent hroute (h.absent hk) 0).2, Heap.set_eq_self]
    exact ⟨s, rfl, by rw [← hk, Function.update_eq_self]; exact h⟩
  | some w =>
    obtain ⟨hold, hcells, hst⟩ := h.inv.cells.delete_of_stored hroute ((h.stored k w).mp hk)
    rw [hold]
    refine ⟨_, rfl, ⟨h.inv.wf, hcells, h.inv.ne, h.inv.model⟩, fun k' v' => ?_⟩
    refine Iff.trans ?_ (hst k' v').symm
    by_cases hkk : k' = k
    · subst hkk
      simp only [Function.update_self, reduceCtorEq, ne_eq, not_true, false_and]
    · rw [Function.update_of_ne hkk, h.stored]
      exact ⟨fun hv => ⟨hkk, hv⟩, fun hv => hv.2⟩

/-- **`Get`** returns the value. -/
theorem Holds.get_eq (h : s.Holds M) (k : UInt64) : s.get k = .ok (M k) := by
  obtain ⟨r, hget, hr⟩ := h.inv.get_spec k
  rw [hget]
  congr 1
  exact Option.ext fun v => (hr v).trans (h.stored k v).symm

/-! ## Runs -/

/-- A call of an operation of the index. -/
inductive Op where
  | put (key value : UInt64)
  | update (key value : UInt64)
  | delete (key : UInt64)
  | get (key : UInt64)
  deriving DecidableEq, Repr

/-- What an operation returns. -/
inductive Ret where
  /-- the status of a `Put` -/
  | status (ret : Status)
  /-- a value, when the operation returns true -/
  | found (value : Option UInt64)
  deriving DecidableEq, Repr

/-- One operation. -/
def step (models : Models) (s : Nali) : Op → Except Fault (Ret × Nali)
  | .put key value => do
    let (ret, s) ← s.put models key value
    .ok (.status ret, s)
  | .update key value => do
    let (old, s) ← s.update key value
    .ok (.found old, s)
  | .delete key => do
    let (old, s) ← s.delete key
    .ok (.found old, s)
  | .get key => do
    let value ← s.get key
    .ok (.found value, s)

/-- One operation of a finite map. -/
def mapStep (M : UInt64 → Option UInt64) : Op → Ret × (UInt64 → Option UInt64)
  | .put key value => (.status .ok, Function.update M key (some value))
  | .update key value =>
    (.found (M key), if M key = none then M else Function.update M key (some value))
  | .delete key => (.found (M key), Function.update M key none)
  | .get key => (.found (M key), M)

/-- Every `Put` is of a key that is not there. -/
def PutsAbsent : (UInt64 → Option UInt64) → List Op → Prop
  | _, [] => True
  | M, op :: ops => (∀ k v, op = .put k v → M k = none) ∧ PutsAbsent (mapStep M op).2 ops

/-- The condition of a `Put` can be checked. -/
def decidablePutAbsent (M : UInt64 → Option UInt64) :
    (op : Op) → Decidable (∀ k v, op = .put k v → M k = none)
  | .put k v => decidable_of_iff (M k = none)
      ⟨fun h k' v' heq => by cases heq; exact h, fun h => h k v rfl⟩
  | .update _ _ => isTrue fun _ _ heq => by cases heq
  | .delete _ => isTrue fun _ _ heq => by cases heq
  | .get _ => isTrue fun _ _ heq => by cases heq

instance decidablePutsAbsent :
    (M : UInt64 → Option UInt64) → (ops : List Op) → Decidable (PutsAbsent M ops)
  | _, [] => isTrue trivial
  | M, op :: ops =>
    have := decidablePutAbsent M op
    have := decidablePutsAbsent (mapStep M op).2 ops
    inferInstanceAs (Decidable (_ ∧ _))

/-- **One operation** does to the index what it does to the map. -/
theorem Holds.step_spec (h : s.Holds M) (models : Models) (op : Op)
    (hput : ∀ k v, op = .put k v → M k = none) :
    ∃ s', step models s op = .ok ((mapStep M op).1, s') ∧ s'.Holds (mapStep M op).2 := by
  cases op with
  | put k v =>
    obtain ⟨s', heq, hs'⟩ := h.put_spec (hput k v rfl) models v
    exact ⟨s', by simp only [step, heq, bind, Except.bind, mapStep], hs'⟩
  | update k v =>
    obtain ⟨s', heq, hs'⟩ := h.update_spec k v
    exact ⟨s', by simp only [step, heq, bind, Except.bind, mapStep], hs'⟩
  | delete k =>
    obtain ⟨s', heq, hs'⟩ := h.delete_spec k
    exact ⟨s', by simp only [step, heq, bind, Except.bind, mapStep], hs'⟩
  | get k => exact ⟨s, by simp only [step, h.get_eq, bind, Except.bind, mapStep], h⟩

/-- Operations with `Put`s of absent keys, from any state that holds a map. -/
theorem exec_holds (models : Models) (h : s.Holds M) (ops : List Op) (hops : PutsAbsent M ops) :
    ∃ s', exec (step models) s ops = .ok ((specRun mapStep M ops).1, s') ∧
      s'.Holds (specRun mapStep M ops).2 := by
  let R : List Op → Nali → (UInt64 → Option UInt64) → Prop :=
    fun ops s M => s.Holds M ∧ PutsAbsent M ops
  have hstep : ∀ op ops s M, R (op :: ops) s M →
      ∃ s', step models s op = .ok ((mapStep M op).1, s') ∧ R ops s' (mapStep M op).2 := by
    rintro op ops s M ⟨hs, hop, hops⟩
    obtain ⟨s', hstep, hs'⟩ := hs.step_spec models op hop
    exact ⟨s', hstep, hs', hops⟩
  obtain ⟨s', hexec, hs', -⟩ := exec_refines R hstep ops s M ⟨h, hops⟩
  exact ⟨s', hexec, hs'⟩

/-- **The index refines a finite map.** For every sequence of operations whose `Put`s are of
absent keys, the index returns what the map returns, and holds the same pairs at the end. -/
theorem exec_refines_map (models : Models) (model : RootModel) (heap : Heap) (minKey : UInt64)
    (ops : List Op) (hops : PutsAbsent (fun _ => none) ops) :
    ∃ s, exec (step models) (init models model heap minKey) ops =
        .ok ((specRun mapStep (fun _ => none) ops).1, s) ∧
      ∀ k, s.get k = .ok ((specRun mapStep (fun _ => none) ops).2 k) := by
  obtain ⟨s, hexec, hs⟩ := exec_holds models (holds_init models model heap minKey) ops hops
  exact ⟨s, hexec, hs.get_eq⟩

/-- Models that guess the first group and the first B entry. -/
def zeroModels : Models := ⟨fun _ _ => 0, fun _ => ⟨fun _ => 0, fun _ => le_rfl⟩⟩

/-- Memory of zero bytes. -/
def zeroHeap : Heap := ⟨1, fun _ => ⟨0, fun _ => (0, 0)⟩⟩

/-- Eighteen keys come, more than a bucket has slots for; then one is updated, and one goes and
comes again. -/
def splitAndGo : List Op :=
  (List.range 18).map (fun i => .put (10 * i).toUInt64 i.toUInt64) ++
    [.update 20 7, .delete 130, .get 130, .put 130 9, .get 20]

theorem exec_refines_map_splitAndGo : PutsAbsent (fun _ => none) splitAndGo ∧
    ∃ s, exec (step zeroModels) (init zeroModels (zeroModels.root []) zeroHeap 0) splitAndGo =
        .ok (List.replicate 18 (.status .ok) ++ [.found (some 2), .found (some 13), .found none,
          .status .ok, .found (some 7)], s) ∧
      s.cells.map Cell.entryKey = [0, 70] ∧
      ∀ k, s.get k = .ok ((specRun mapStep (fun _ => none) splitAndGo).2 k) := by
  have hops : PutsAbsent (fun _ => none) splitAndGo := by decide +kernel
  obtain ⟨s, hexec, hget⟩ := exec_refines_map zeroModels (zeroModels.root []) zeroHeap 0 _ hops
  have hrets : (specRun mapStep (fun _ => none) splitAndGo).1 =
      List.replicate 18 (.status .ok) ++ [.found (some 2), .found (some 13), .found none,
        .status .ok, .found (some 7)] := by decide +kernel
  -- the bucket has been split
  have hcells : (exec (step zeroModels) (init zeroModels (zeroModels.root []) zeroHeap 0)
      splitAndGo).toOption.map (fun x => x.2.cells.map Cell.entryKey) = some [0, 70] := by
    decide +kernel
  rw [hexec] at hcells
  exact ⟨hops, s, hrets ▸ hexec, Option.some.inj hcells, hget⟩

/-! ## Keys in two slots -/

/-- No key is in two slots. -/
def UniqueKeys (s : Nali) : Prop :=
  ∀ c ∈ s.cells, ∀ i < (s.heap.bunckets c.pointer).entries,
    ∀ d ∈ s.cells, ∀ j < (s.heap.bunckets d.pointer).entries,
      (s.heap.bunckets c.pointer).key i = (s.heap.bunckets d.pointer).key j →
        c.pointer = d.pointer ∧ i = j

/-- No key is in two slots, `Get` returns the value of the last `Put` or `Update`, and after a
`Delete` that has found its key `Get` does not. -/
structure Exact (s : Nali) (M : UInt64 → Option UInt64) : Prop where
  /-- no key is in two slots -/
  unique : s.UniqueKeys
  /-- the last value -/
  get : ∀ k, s.get k = .ok (M k)
  /-- a deleted key is gone -/
  delete : ∀ k old s', s.delete k = .ok (some old, s') → s'.get k = .ok none

theorem Holds.exact (h : s.Holds M) : s.Exact M where
  unique c hc i hi d hd j hj heq := by
    have hci := (UnSortBuncket.has_of_lt hi).reads
    have hdj := (UnSortBuncket.has_of_lt hj).reads
    rw [← heq] at hdj
    obtain rfl := h.inv.cells.eq_of_reads hc hd hci hdj
    exact ⟨rfl, (h.inv.cells.distinct c hc).inj i hi j hj heq⟩
  get := h.get_eq
  delete k old s' heq := by
    obtain ⟨s'', hdelete, hs''⟩ := h.delete_spec k
    obtain ⟨-, rfl⟩ := Prod.mk.inj (Except.ok.inj (heq.symm.trans hdelete))
    rw [hs''.get_eq, Function.update_self]

/-- **A `Put` of a key that is there** leaves it in two slots of a bucket. -/
theorem PutOk.not_unique (hok : s.PutOk k v s') {w : UInt64} (hw : Stored s.heap s.cells k w) :
    ¬ s'.UniqueKeys := by
  obtain ⟨-, -, h₁, p, c, q, hl, hst, hroutes, -, hcells', hheap'⟩ := hok
  obtain ⟨i, hi, hrec⟩ := (hl.stored_iff hroutes).mp ((hst k w).mpr hw)
  intro hunique
  have hmem : c.lower k ∈ s'.cells := by
    rw [hcells']
    exact List.mem_append_right _ (List.mem_cons_self ..)
  have hbunk : s'.heap.bunckets (c.lower k).pointer = (h₁.bunckets c.pointer).append k v := by
    rw [hheap', Cell.lower_pointer, Heap.set_self]
  have hsame := (hunique _ hmem i (by rw [hbunk]; exact Nat.lt_succ_of_lt hi) _ hmem
    (h₁.bunckets c.pointer).entries (by rw [hbunk]; exact Nat.lt_succ_self _) (by
      rw [hbunk, UnSortBuncket.key, UnSortBuncket.key, UnSortBuncket.append_records_of_lt hi,
        UnSortBuncket.append_records_self, hrec])).2
  exact absurd hi (Nat.not_lt_of_le hsame.ge)

theorem exec_of_step {op : Op} {ops : List Op} {r : Ret} (h : step models s op = .ok (r, s')) :
    exec (step models) s (op :: ops) = (exec (step models) s' ops).map fun x => (r :: x.1, x.2) := by
  rw [exec, h]
  simp only
  cases exec (step models) s' ops <;> rfl

/-- Puts of absent keys are put up to every prefix of the operations. -/
theorem PutsAbsent.of_append {post : List Op} : ∀ {ops : List Op} {M : UInt64 → Option UInt64},
    PutsAbsent M (ops ++ post) → PutsAbsent M ops
  | [], _, _ => trivial
  | _ :: _, _, h => ⟨h.1, of_append h.2⟩

/-- A run in which no key is ever in two slots puts absent keys only. -/
theorem putsAbsent_of_unique (models : Models) (ops : List Op) : ∀ (s : Nali) (M : UInt64 → Option UInt64),
    s.Holds M → (∀ pre, pre <+: ops → ∃ rs s', exec (step models) s pre = .ok (rs, s') ∧
      s'.UniqueKeys) → PutsAbsent M ops := by
  induction ops with
  | nil => exact fun _ _ _ _ => trivial
  | cons op ops ih =>
    intro s M h hrun
    have hput : ∀ k v, op = .put k v → M k = none := by
      rintro k v rfl
      by_contra hk
      obtain ⟨w, hw⟩ := Option.ne_none_iff_exists'.mp hk
      obtain ⟨s', hput, hok⟩ := h.inv.put_spec models k v
      obtain ⟨rs, s'', hexec, hunique⟩ := hrun [.put k v] ⟨ops, rfl⟩
      have hstep : step models s (.put k v) = .ok (.status .ok, s') := by
        simp only [step, hput, bind, Except.bind]
      rw [exec_of_step hstep] at hexec
      obtain ⟨-, rfl⟩ := Prod.mk.inj (Except.ok.inj hexec)
      exact hok.not_unique ((h.stored k w).mp hw) hunique
    obtain ⟨s₁, hstep, hs₁⟩ := h.step_spec models op hput
    refine ⟨hput, ih s₁ _ hs₁ fun pre hpre => ?_⟩
    obtain ⟨rs, s', hexec, hunique⟩ := hrun (op :: pre) (List.prefix_cons_inj _ |>.mpr hpre)
    rw [exec_of_step hstep] at hexec
    cases hrest : exec (step models) s₁ pre with
    | error e =>
      rw [hrest] at hexec
      cases hexec
    | ok x =>
      rw [hrest] at hexec
      obtain ⟨-, rfl⟩ := Prod.mk.inj (Except.ok.inj hexec)
      exact ⟨x.1, x.2, rfl, hunique⟩

/-- **Keys stay unique** through a run, with what follows from that for `Get` and `Delete`, if
and only if every `Put` of the run is of an absent key. -/
theorem exact_iff_putsAbsent (models : Models) (model : RootModel) (heap : Heap) (minKey : UInt64)
    (ops : List Op) :
    (∀ pre, pre <+: ops → ∃ rs s, exec (step models) (init models model heap minKey) pre =
        .ok (rs, s) ∧ s.Exact (specRun mapStep (fun _ => none) pre).2) ↔
      PutsAbsent (fun _ => none) ops := by
  have hinit := holds_init models model heap minKey
  constructor
  · intro hrun
    refine putsAbsent_of_unique models ops _ _ hinit fun pre hpre => ?_
    obtain ⟨rs, s, hexec, hexact⟩ := hrun pre hpre
    exact ⟨rs, s, hexec, hexact.unique⟩
  · rintro hops pre ⟨post, rfl⟩
    obtain ⟨s, hexec, hs⟩ := exec_holds models hinit pre hops.of_append
    exact ⟨_, s, hexec, hs.exact⟩

/-- The key 5 is put twice. `Get` returns the first value, and `Delete` uncovers the second. -/
theorem put_twice_not_exact : ∃ rs s s',
    exec (step zeroModels) (init zeroModels (zeroModels.root []) zeroHeap 0)
        [.put 5 1, .put 5 2] = .ok (rs, s) ∧
      ¬ s.UniqueKeys ∧ s.get 5 = .ok (some 1) ∧
      s.delete 5 = .ok (some 1, s') ∧ s'.get 5 = .ok (some 2) := by
  refine ⟨_, _, _, rfl, fun hunique => ?_, rfl, rfl, rfl⟩
  exact absurd (hunique ⟨0, 1⟩ (List.mem_cons_self ..) 0 (by decide) ⟨0, 1⟩
    (List.mem_cons_self ..) 1 (by decide) rfl).2 (by decide)

end Nali

end NaliStore
