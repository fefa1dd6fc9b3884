import NaliStore.Retries
import NaliStore.BulkLoad

/-!
# Counting the cells

`next_entry_count` of a group is the length of the array that its next re-packing will need. It
is counted up whenever a bucket is split, set back by `expand`, and counted anew by `ExpandTree`
and `bulk_load`; the arrays are allocated by it and then filled by iteration. It has to be the
number of the cells of the group at all times, since an array that is one too short is overrun.

The trees here are those that `Init` or `bulk_load` begin with, of any data and with models that
predict anything. A `bulk_load` of nothing leaves a tree without groups, on which no call but
`ExpandTree` returns; on every other tree every `Put` finishes. The counters do not overflow: where
an `int` would, there is no state after it to speak of.
-/

namespace NaliStore

open Routing Runs

namespace NaliTree

/-- `bulk_load`, in memory that holds anything: what the tree held before is given up. -/
def bulkLoad (group root : Train) (heap : Heap) (data : List (UInt64 × UInt64)) :
    Except Fault NaliTree := do
  let nrGroups := data.length / minEntryCount
  let predict := root (data.map Prod.fst)
  let groups ← Nali.countPairs (guessGroup predict nrGroups) 0 (List.replicate nrGroups .zero) data
  let (groups, heap) ← Nali.loadGroups group data 0 groups heap
  .ok ⟨groups, predict, heap⟩

/-- The index as a tree, after a `bulk_load`. -/
theorem toTree_bulkLoad (models : Models) (s : Nali) (data : List (UInt64 × UInt64)) :
    (s.bulkLoad models data).map Nali.toTree =
      bulkLoad models.group models.rootTrain s.heap data := by
  rw [Nali.bulkLoad, bulkLoad]
  have hplace : (models.root (data.map Prod.fst)).groupId (data.length / minEntryCount) =
      guessGroup (models.rootTrain (data.map Prod.fst)) (data.length / minEntryCount) := rfl
  simp only [bind, Except.bind, hplace]
  cases Nali.countPairs (guessGroup (models.rootTrain (data.map Prod.fst))
      (data.length / minEntryCount)) 0 (List.replicate (data.length / minEntryCount) .zero) data with
  | error e => rfl
  | ok groups =>
    simp only
    cases Nali.loadGroups models.group data 0 groups s.heap <;> rfl

/-- The trees that are reached from `Init` or `bulk_load` by any calls, where a model may predict
anything each time it is trained. -/
inductive Grown : NaliTree → Prop
  /-- `Init` -/
  | init (group : Train) (predict : UInt64 → Int32) (heap : Heap) (minKey : UInt64) :
      Grown (init group predict heap minKey)
  /-- `bulk_load` -/
  | bulkLoad {t : NaliTree} {group root : Train} {heap : Heap} {data : List (UInt64 × UInt64)} :
      bulkLoad group root heap data = .ok t → Grown t
  /-- `Put` -/
  | put {t t' : NaliTree} {group root : Train} {k v : UInt64} {ret : Status} {made : List Rework} :
      Grown t → t.put group root k v = .ok ((ret, t'), made) → Grown t'
  /-- `Update` -/
  | update {t t' : NaliTree} {k v : UInt64} {ret : Option UInt64} :
      Grown t → t.update k v = .ok (ret, t') → Grown t'
  /-- `Delete` -/
  | delete {t t' : NaliTree} {k : UInt64} {ret : Option UInt64} :
      Grown t → t.delete k = .ok (ret, t') → Grown t'
  /-- `group::expand` of any group -/
  | expand {t : NaliTree} {group : Train} {i : ℕ} {g g' : Group} :
      Grown t → t.groupSpace[i]? = some g → g.expand group t.heap = .ok g' →
      Grown { t with groupSpace := t.groupSpace.set i g' }
  /-- `ExpandTree` -/
  | expandTree {t t' : NaliTree} {group root : Train} :
      Grown t → t.expandTree group root = .ok t' → Grown t'

/-- The buckets of a tree, group by group and cell by cell. -/
def pointers (t : NaliTree) : List ℕ := (t.groupSpace.flatMap Group.cells).map Cell.pointer

/-- The cells are counted, and the arrays that are allocated by the counts are filled and not
overrun, with every bucket once. -/
structure Counted (t : NaliTree) : Prop where
  /-- `next_entry_count` is the sum of the `entries` of the B entries -/
  count : ∀ g ∈ t.groupSpace, g.nextEntryCount = (g.entrySpace.map PointerBEntry.entries).sum
  /-- a B entry has one to four cells -/
  entries : ∀ g ∈ t.groupSpace, ∀ b ∈ g.entrySpace, 1 ≤ b.entries ∧ b.entries ≤ 4
  /-- `expand` fills an array of `next_entry_count`, with the buckets it had -/
  expand : ∀ g ∈ t.groupSpace, g.entrySpace ≠ [] → ∀ train, ∃ g', g.expand train t.heap = .ok g' ∧
    g'.entrySpace.length = g.nextEntryCount ∧
    g'.cells.map Cell.pointer = g.cells.map Cell.pointer
  /-- `ExpandTree` fills an array of `next_entry_count` for every new group, with the buckets
  there were -/
  expandTree : ∀ group root, ∃ t', t.expandTree group root = .ok t' ∧
    (∀ g ∈ t'.groupSpace, g.entrySpace.length = g.nextEntryCount) ∧ t'.pointers.Perm t.pointers

/-! ## Loading -/

variable {t t' : NaliTree} {group root : Train} {data : List (UInt64 × UInt64)} {h : Heap}
  {k v : UInt64}

/-- The counts of an array of groups. -/
def counts (groups : List Group) : ℕ := (groups.map Group.nextEntryCount).sum

theorem counts_cons (g : Group) (groups : List Group) :
    counts (g :: groups) = g.nextEntryCount + counts groups := List.sum_cons

theorem counts_modify (groups : List Group) : ∀ i : ℕ, i < groups.length →
    counts (groups.modify i Group.incEntryCount) = counts groups + 1 := by
  induction groups with
  | nil => exact fun i hi => absurd hi (Nat.not_lt_zero i)
  | cons g groups ih =>
    intro i hi
    cases i with
    | zero =>
      have hinc : g.incEntryCount.nextEntryCount = g.nextEntryCount + 1 := rfl
      rw [List.modify_zero_cons, counts_cons, counts_cons, hinc]
      omega
    | succ i =>
      rw [List.modify_succ_cons, counts_cons, counts_cons, ih i (Nat.lt_of_succ_lt_succ hi)]
      omega

/-- When the first loop has come to its end every pair has been counted. -/
theorem counts_countPairs {place : UInt64 → ℕ} (data : List (UInt64 × UInt64)) :
    ∀ (i : ℕ) (groups counted : List Group), (∀ g ∈ groups, g.entrySpace = []) →
    Nali.countPairs place i groups data = .ok counted →
    (∀ g ∈ counted, g.entrySpace = []) ∧ counts counted = counts groups + data.length := by
  induction data with
  | nil =>
    intro i groups counted hempty hcount
    cases hcount
    exact ⟨hempty, rfl⟩
  | cons kv data ih =>
    intro i groups counted hempty hcount
    rw [Nali.countPairs] at hcount
    split at hcount
    · rename_i hroom
      have hempty' : ∀ g ∈ groups.modify (place kv.1) Group.incEntryCount, g.entrySpace = [] := by
        intro g hg
        obtain ⟨j, hj⟩ := List.mem_iff_getElem?.mp hg
        rw [List.getElem?_modify] at hj
        obtain ⟨g₀, hg₀, rfl⟩ := Option.map_eq_some_iff.mp hj
        have hnil := hempty g₀ (List.mem_of_getElem? hg₀)
        split
        · exact hnil
        · exact hnil
      obtain ⟨hcounted, hsum⟩ := ih (i + 1) _ counted hempty' hcount
      refine ⟨hcounted, ?_⟩
      rw [hsum, counts_modify groups _ hroom.1, List.length_cons]
      omega
    · cases hcount

/-- The second loop, when the counts are right: every group takes its pairs off the front,
whatever groups their keys would be in. -/
theorem exists_loaded (train : Train) (data : List (UInt64 × UInt64)) (groups : List Group) :
    ∀ (start : ℕ) (h : Heap) (rest : List (UInt64 × UInt64)), data.drop start = rest →
    (∀ g ∈ groups, g.entrySpace = []) → counts groups = rest.length →
    ∃ loaded, Nali.loadGroups train data start groups h = .ok (loaded, rest.foldl Heap.load h) ∧
      loaded.flatMap Group.cells = loadedCells h.next rest ∧ ∀ g ∈ loaded, g.WF := by
  induction groups with
  | nil =>
    intro start h rest _ _ hcount
    obtain rfl : rest = [] := List.eq_nil_of_length_eq_zero hcount.symm
    exact ⟨[], rfl, rfl, fun g hg => absurd hg List.not_mem_nil⟩
  | cons g groups ih =>
    intro start h rest hdrop hempty hcount
    have hsum : g.nextEntryCount + counts groups = rest.length := (counts_cons ..).symm.trans hcount
    obtain ⟨run, rest', rfl, hrun⟩ : ∃ run rest', rest = run ++ rest' ∧
        run.length = g.nextEntryCount :=
      ⟨rest.take g.nextEntryCount, rest.drop g.nextEntryCount, (List.take_append_drop ..).symm, by
        rw [List.length_take]
        omega⟩
    rw [List.length_append] at hsum
    obtain ⟨g', hload, hg'⟩ := Nali.exists_loadedGroup hdrop (hempty g (List.mem_cons_self ..))
      hrun.symm h train
    have hlen : g'.nextEntryCount = run.length := by rw [hg'.count, Nali.length_loadedCells]
    obtain ⟨loaded, hgroups, hcells, hwf⟩ := ih (start + run.length) (run.foldl Heap.load h) rest'
      (by rw [← List.drop_drop, hdrop, List.drop_left])
      (fun x hx => hempty x (List.mem_cons_of_mem _ hx)) (by omega)
    refine ⟨g' :: loaded, ?_, ?_, fun x hx => ?_⟩
    · rw [Nali.loadGroups_cons, hload, List.foldl_append]
      simp only [bind, Except.bind, hlen, hgroups]
    · rw [List.flatMap_cons, hg'.cells_eq, hcells, Nali.next_foldl_load, Nali.loadedCells_append]
    · rcases List.mem_cons.mp hx with rfl | hx
      · exact hg'.wf
      · exact hwf x hx

theorem counts_replicate (n : ℕ) : counts (List.replicate n .zero) = 0 := by
  rw [counts, List.map_replicate, List.sum_replicate_nat]
  exact Nat.mul_zero n

/-- **`bulk_load`** that returns has filled its arrays. -/
theorem exists_of_bulkLoad (hload : bulkLoad group root h data = .ok t) :
    t.heap = data.foldl Heap.load h ∧ t.groupSpace.flatMap Group.cells = loadedCells h.next data ∧
      (∀ g ∈ t.groupSpace, g.WF) := by
  obtain ⟨counted, hcount, hrest⟩ := bind_eq_ok hload
  obtain ⟨hempty, hsum⟩ := counts_countPairs data 0 _ counted
    (fun g hg => by rw [List.eq_of_mem_replicate hg]; rfl) hcount
  rw [counts_replicate, Nat.zero_add] at hsum
  obtain ⟨loaded, hgroups, hcells, hwf⟩ := exists_loaded group data counted 0 h data rfl hempty hsum
  rw [hgroups] at hrest
  cases hrest
  exact ⟨rfl, hcells, hwf⟩

/-- The bookkeeping after a `bulk_load`, which may have been one of nothing. -/
theorem tidy_bulkLoad (hload : bulkLoad group root h data = .ok t) : t.Tidy ∨ t.groupSpace = [] := by
  obtain ⟨hheap, hcells, hwf⟩ := exists_of_bulkLoad hload
  cases data with
  | nil =>
    obtain ⟨counted, hcount, hrest⟩ := bind_eq_ok hload
    cases hcount
    cases hrest
    exact .inr rfl
  | cons kv data =>
    refine .inl ⟨fun g hg => ⟨hwf g hg, fun c hc => ?_⟩, ?_⟩
    · have hmem : c ∈ t.groupSpace.flatMap Group.cells := List.mem_flatMap.mpr ⟨g, hg, hc⟩
      rw [hcells] at hmem
      obtain ⟨i, kv', hi, rfl, hone, -⟩ := Nali.mem_loadedCells _ h c hmem
      obtain ⟨hlt, -⟩ := List.getElem?_eq_some_iff.mp hi
      rw [← hheap] at hone
      refine ⟨?_, ?_⟩
      · rw [hheap, Nali.next_foldl_load]
        exact Nat.add_lt_add_left hlt _
      · rw [hone, UnSortBuncket.maxEntries_eq]
        omega
    · -- the cell of the first pair
      have hmem : ⟨kv.1, h.next⟩ ∈ t.groupSpace.flatMap Group.cells := by
        rw [hcells]
        exact List.mem_cons_self ..
      obtain ⟨g, hg, hc⟩ := List.mem_flatMap.mp hmem
      exact ⟨g, hg, Group.ne_of_cells (List.ne_nil_of_mem hc)⟩

/-! ## A tree without groups -/

section Nothing

variable (hnil : t.groupSpace = [])

include hnil

theorem findGroup_nil (k : UInt64) : t.findGroup k = .error .outOfBounds := by
  have hzero : guessGroup t.predict t.nrGroups k = 0 := by
    rw [guessGroup, nrGroups, hnil, List.length_nil]
    omega
  rw [findGroup, hzero, hnil]
  rfl

theorem onGroup_nil {α : Type} (k : UInt64) (call : Group → Except Fault α) :
    Nali.onGroup t.groupSpace k (guessGroup t.predict t.nrGroups k) call = .error .outOfBounds := by
  have hfind := findGroup_nil hnil k
  rw [findGroup] at hfind
  rw [Nali.onGroup, hfind]
  rfl

theorem expandTree_nil (group root : Train) :
    ∃ t', t.expandTree group root = .ok t' ∧ t'.groupSpace = [] := by
  rw [expandTree, hnil]
  exact ⟨_, rfl, rfl⟩

end Nothing

/-- **The bookkeeping is right in every tree that is grown.** -/
theorem Grown.tidy (ht : t.Grown) : t.Tidy ∨ t.groupSpace = [] := by
  induction ht with
  | init group predict heap minKey => exact .inl (tidy_init group predict heap minKey)
  | bulkLoad hload => exact tidy_bulkLoad hload
  | put _ hput ih =>
    rcases ih with ht | hnil
    · exact .inl (ht.of_put hput)
    · rw [NaliTree.put, putTrace, findGroup_nil hnil] at hput
      cases hput
  | update _ hupdate ih =>
    rcases ih with ht | hnil
    · exact .inl (ht.of_update hupdate)
    · rw [NaliTree.update, onGroup_nil hnil] at hupdate
      cases hupdate
  | delete _ hdelete ih =>
    rcases ih with ht | hnil
    · exact .inl (ht.of_delete hdelete)
    · rw [NaliTree.delete, onGroup_nil hnil] at hdelete
      cases hdelete
  | expand _ hget hexp ih =>
    rcases ih with ht | hnil
    · exact .inl (ht.of_expand hget hexp)
    · rw [hnil] at hget
      cases hget
  | @expandTree t t' group root _ hexp ih =>
    rcases ih with ht | hnil
    · exact .inl (ht.of_expandTree hexp)
    · obtain ⟨t₁, hexp₁, hnil₁⟩ := expandTree_nil hnil group root
      obtain rfl := Except.ok.inj (hexp.symm.trans hexp₁)
      exact .inr hnil₁

/-! ## Every Put finishes -/

/-- `Put` returns `OK` after at most one split of a bucket and at most one call of `group::expand`
or `ExpandTree`. -/
def Finishes (t : NaliTree) (group root : Train) (k v : UInt64) : Prop :=
  ∃ t' made, t.put group root k v = .ok ((.ok, t'), made) ∧ made.count .split ≤ 1 ∧
    made.count .expand + made.count .expandTree ≤ 1

/-- **Every `Put` finishes, on a tree that has a group**: in every tree that is grown, of any key
and value and whatever the models predict. On a tree without groups none does. -/
theorem put_finishes_iff (ht : t.Grown) (group root : Train) (k v : UInt64) :
    t.Finishes group root k v ↔ t.groupSpace ≠ [] := by
  constructor
  · rintro ⟨t', made, hput, -⟩ hnil
    rw [NaliTree.put, putTrace, findGroup_nil hnil] at hput
    cases hput
  · intro hne
    rcases ht.tidy with htidy | hnil
    · obtain ⟨t', made, hput, -, hsplit, hexpand⟩ := htidy.put_spec group root k v
      exact ⟨t', made, hput, hsplit, hexpand⟩
    · exact absurd hnil hne

/-- `Put`s of the keys, with themselves as values. -/
def putAll (group root : Train) (keys : List UInt64) (t : NaliTree) : Except Fault NaliTree :=
  keys.foldlM (fun t key => do
    let ((_, t), _) ← t.put group root key key
    .ok t) t

theorem Grown.putAll (keys : List UInt64) : ∀ {t t' : NaliTree}, t.Grown →
    putAll group root keys t = .ok t' → t'.Grown := by
  induction keys with
  | nil =>
    intro t t' ht heq
    rw [← Except.ok.inj heq]
    exact ht
  | cons key keys ih =>
    intro t t' ht heq
    rw [NaliTree.putAll, List.foldlM_cons] at heq
    obtain ⟨t₁, hput, hrest⟩ := bind_eq_ok heq
    obtain ⟨⟨⟨ret, t₂⟩, made⟩, hput', hok⟩ := bind_eq_ok hput
    obtain rfl := Except.ok.inj hok
    exact ih (.put ht hput') hrest

/-- In a tree whose root model predicts less for greater keys. Sixteen keys do not fit into one
bucket: the last `Put` finds it full, splits it and tries again. -/
theorem put_finishes_iff_sixteen :
    let falling : UInt64 → Int32 := fun k => Int32.ofNat (640 - k.toNat)
    ∃ t, putAll (fun _ _ => 0) (fun _ => falling) ((List.range 15).map UInt64.ofNat)
        (init (fun _ _ => 0) falling Nali.zeroHeap 7) = .ok t ∧
      t.Finishes (fun _ _ => 0) (fun _ => falling) 15 15 ∧
      (t.put (fun _ _ => 0) (fun _ => falling) 15 15).map Prod.snd = .ok [.split] := by
  intro falling
  have hexec : (putAll (fun _ _ => 0) (fun _ => falling) ((List.range 15).map UInt64.ofNat)
      (init (fun _ _ => 0) falling Nali.zeroHeap 7) >>= fun t =>
        t.put (fun _ _ => 0) (fun _ => falling) 15 15 >>= fun x =>
          .ok (t.groupSpace.length, x.2)) = .ok (1, [.split]) := by
    decide +kernel
  obtain ⟨t, hputs, hrest⟩ := bind_eq_ok hexec
  obtain ⟨⟨⟨ret, t'⟩, made⟩, hput, hmade⟩ := bind_eq_ok hrest
  obtain ⟨hone, rfl⟩ := Prod.mk.inj (Except.ok.inj hmade)
  have hne : t.groupSpace ≠ [] := by
    intro hnil
    rw [hnil] at hone
    cases hone
  refine ⟨t, hputs, (put_finishes_iff (.putAll _ (.init ..) hputs) _ _ 15 15).mpr hne, ?_⟩
  rw [hput]
  rfl

/-- **After a `bulk_load` of nothing a `Put` reads outside of the groups**, of which there are
none. -/
theorem put_after_bulkLoad_nil : ∃ t : NaliTree,
    bulkLoad (fun _ _ => 0) (fun _ _ => 0) Nali.zeroHeap [] = .ok t ∧ t.Grown ∧
    t.put (fun _ _ => 0) (fun _ _ => 0) 5 9 = .error .outOfBounds ∧
    ¬ t.Finishes (fun _ _ => 0) (fun _ _ => 0) 5 9 := by
  have hload : bulkLoad (fun _ _ => 0) (fun _ _ => 0) Nali.zeroHeap [] =
      .ok ⟨[], fun _ => 0, Nali.zeroHeap⟩ := rfl
  refine ⟨_, hload, .bulkLoad hload, rfl, ?_⟩
  rintro ⟨t', made, hput, -⟩
  cases hput

/-! ## Nothing is lost -/

/-- What is dealt out to `n` groups is what there was, in another order. -/
theorem perm_dealtBy (place : UInt64 → ℕ) (entries : List EEntry) (n : ℕ) :
    ((List.range n).flatMap (Nali.dealtBy place entries)).Perm
      (entries.filter fun e => place e.entryKey < n) := by
  induction n with
  | zero => simp
  | succ n ih =>
    -- those below `n`, and those at `n`
    have hbelow : (entries.filter fun e => place e.entryKey < n) =
        (entries.filter fun e => place e.entryKey < n + 1).filter fun e => place e.entryKey < n := by
      rw [List.filter_filter]
      refine List.filter_congr fun e _ => ?_
      rw [← Bool.decide_and, decide_eq_decide]
      omega
    have hat : Nali.dealtBy place entries n =
        (entries.filter fun e => place e.entryKey < n + 1).filter
          fun e => !decide (place e.entryKey < n) := by
      rw [Nali.dealtBy, List.filter_filter]
      refine List.filter_congr fun e _ => ?_
      rw [← decide_not, ← Bool.decide_and, decide_eq_decide]
      omega
    rw [List.range_succ, List.flatMap_append, List.flatMap_singleton]
    refine (ih.append_right _).trans ?_
    rw [hbelow, hat]
    exact List.filter_append_perm _ _

/-- Adjusting the first entry key of a group leaves its buckets. -/
theorem pointers_raised {g g' : Group} (hr : Group.Raised h g g') :
    g'.cells.map Cell.pointer = g.cells.map Cell.pointer := by
  obtain ⟨c, tail, hcells, hcells'⟩ := hr.cells
  rw [hcells, hcells', List.map_cons, List.map_cons]

theorem pointers_adjusted {groups groups' : List Group}
    (hall : List.Forall₂ (Nali.Adjusted h) groups groups') :
    (groups'.flatMap Group.cells).map Cell.pointer = (groups.flatMap Group.cells).map Cell.pointer := by
  induction hall with
  | nil => rfl
  | cons ha _ ih =>
    rw [List.flatMap_cons, List.flatMap_cons, List.map_append, List.map_append, ih]
    rcases ha with ⟨rfl, -⟩ | hr
    · rfl
    · rw [pointers_raised hr]

/-- **`ExpandTree`** keeps every bucket once. -/
theorem Dealt.perm {old : List Group} (hd : Dealt group t old t') : t'.pointers.Perm t.pointers := by
  have hcells : t'.groupSpace.flatMap Group.cells =
      ((List.range t'.nrGroups).flatMap (Nali.dealtBy (guessGroup t'.predict t'.nrGroups)
        (old.flatMap Group.eentries))).map EEntry.toCell := by
    rw [hd.groups, List.flatMap_map, List.map_flatMap]
    simp only [Nali.dealtGroup_cells]
  have hall : ((old.flatMap Group.eentries).filter fun e =>
      guessGroup t'.predict t'.nrGroups e.entryKey < t'.nrGroups) = old.flatMap Group.eentries :=
    List.filter_eq_self.mpr fun e _ => decide_eq_true (guessGroup_lt hd.pos e.entryKey)
  have hperm := perm_dealtBy (guessGroup t'.predict t'.nrGroups) (old.flatMap Group.eentries)
    t'.nrGroups
  rw [hall] at hperm
  rw [pointers, pointers, hcells, ← pointers_adjusted hd.adjusted, ← map_eentries]
  exact (hperm.map _).map _

/-! ## The counts -/

/-- The number of cells is the sum of the `entries`. -/
theorem length_cells_eq (g : Group) :
    g.cells.length = (g.entrySpace.map PointerBEntry.entries).sum := by
  rw [Group.cells, List.length_flatMap]
  simp only [PointerBEntry.length_cells]

theorem Tidy.counted (ht : t.Tidy) : t.Counted where
  count g hg := by rw [(ht.group g hg).wf.count, length_cells_eq]
  entries g hg b hb := ⟨((ht.group g hg).wf.entry b hb).pos, ((ht.group g hg).wf.entry b hb).le⟩
  expand g hg hne train := by
    obtain ⟨g', hexp, hr, hone⟩ := (ht.group g hg).wf.exists_expand hne t.heap train
    refine ⟨g', hexp, ?_, pointers_raised hr⟩
    rw [← hr.count, hr.wf.count, length_cells_eq, List.map_congr_left hone, List.map_const',
      List.sum_replicate_nat, Nat.mul_one]
  expandTree group root := by
    obtain ⟨old, t', hexp, hd⟩ := ht.exists_dealt group root
    refine ⟨t', hexp, fun g hg => ?_, hd.perm⟩
    rw [hd.groups] at hg
    obtain ⟨i, -, rfl⟩ := List.mem_map.mp hg
    rw [Nali.dealtGroup_entrySpace, Nali.dealtGroup_nextEntryCount, List.length_map]

theorem counted_nil (hnil : t.groupSpace = []) : t.Counted where
  count g hg := by
    rw [hnil] at hg
    cases hg
  entries g hg := by
    rw [hnil] at hg
    cases hg
  expand g hg := by
    rw [hnil] at hg
    cases hg
  expandTree group root := by
    obtain ⟨t', hexp, hnil'⟩ := expandTree_nil hnil group root
    refine ⟨t', hexp, fun g hg => ?_, ?_⟩
    · rw [hnil'] at hg
      cases hg
    · rw [pointers, pointers, hnil, hnil']

/-- **The cells are counted in every tree that is grown**: `next_entry_count` is the sum of the
`entries`, which are one to four, and the arrays allocated by it are filled exactly. -/
theorem counted_of_grown (ht : t.Grown) : t.Counted := by
  rcases ht.tidy with ht | hnil
  · exact ht.counted
  · exact counted_nil hnil

/-- 64 pairs are loaded into one group, and another one is put. -/
theorem counted_of_grown_squares : ∃ t t' made,
    bulkLoad (fun _ _ => 0) (fun _ _ => 0) Nali.zeroHeap Nali.squares = .ok t ∧
    t.put (fun _ _ => 0) (fun _ _ => 0) 100 7 = .ok ((.ok, t'), made) ∧
    t'.groupSpace.map Group.nextEntryCount = [64] ∧ t'.Counted := by
  have hexec : (bulkLoad (fun _ _ => 0) (fun _ _ => 0) Nali.zeroHeap Nali.squares >>= fun t =>
      t.put (fun _ _ => 0) (fun _ _ => 0) 100 7 >>= fun x =>
        .ok (x.1.1, x.1.2.groupSpace.map Group.nextEntryCount)) = .ok (.ok, [64]) := by
    decide +kernel
  obtain ⟨t, hload, hrest⟩ := bind_eq_ok hexec
  obtain ⟨⟨⟨ret, t'⟩, made⟩, hput, hcounts⟩ := bind_eq_ok hrest
  obtain ⟨rfl, hgroups⟩ := Prod.mk.inj (Except.ok.inj hcounts)
  exact ⟨t, t', made, hload, hput, hgroups, counted_of_grown (.put (.bulkLoad hload) hput)⟩

end NaliTree

end NaliStore
