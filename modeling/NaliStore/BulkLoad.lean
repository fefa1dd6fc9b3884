import NaliStore.Index

/-!
# Bulk loading

`Nali::bulk_load` of `src/src/nali.h`. The pairs of the array are counted by the group that
the root model guesses for their keys, and then cut into consecutive runs of these lengths,
one bucket for every pair. The two agree because the keys ascend and the guesses do not
decrease.

There is one group for every 64 pairs. An array of less than 64 pairs gets no group at all,
and its first pair is counted outside the array of the groups.
-/

namespace NaliStore

open Routing Runs

/-- `PointerBEntry(key, value, prefix_len)`, with a new bucket for the pair -/
def PointerBEntry.initPut (h : Heap) (key value : UInt64) (prefixLen : ℕ) : PointerBEntry × Heap :=
  let (b, h) := init h key prefixLen
  let p := (b.entrys 0).pointer
  (b, h.set p ((h.bunckets p).put key value).2)

namespace Group

/-- The loop of `bulk_load`, with `n` rounds left: `data[pos]` goes to the next place of
`entry_space`. -/
def loadEntries (data : List (UInt64 × UInt64)) (capacity : ℕ) :
    ℕ → ℕ → List PointerBEntry → Heap → Except Fault (List PointerBEntry × Heap)
  | 0, _, entrySpace, h => .ok (entrySpace, h)
  | n + 1, pos, entrySpace, h =>
    match data[pos]? with
    | none => .error .outOfBounds
    | some (key, value) =>
      if entrySpace.length < capacity then
        let (b, h) := PointerBEntry.initPut h key value 0
        loadEntries data capacity n (pos + 1) (entrySpace ++ [b]) h
      else .error .outOfBounds

/-- `reserve_space` and `bulk_load(data, start, count)`: the array reserved has
`next_entry_count` places. `min_key` is the first key of the data, not of the group. -/
def bulkLoad (train : Train) (g : Group) (h : Heap) (data : List (UInt64 × UInt64))
    (start count : ℕ) : Except Fault (Group × Heap) := do
  let (entrySpace, h) ← loadEntries data g.nextEntryCount count start [] h
  match data[0]? with
  | none => .error .outOfBounds
  | some first => .ok (⟨entrySpace, entrySpace.length, first.1,
      train (entrySpace.map PointerBEntry.entryKey)⟩, h)

end Group

namespace Nali

/-- The first loop of `bulk_load`, which counts the pairs of every group. Its counter is an
`int`, and past the largest `int` it is no index any more. -/
def countPairs (place : UInt64 → ℕ) : ℕ → List Group → List (UInt64 × UInt64) →
    Except Fault (List Group)
  | _, groups, [] => .ok groups
  | i, groups, kv :: data =>
    if place kv.1 < groups.length ∧ i + 1 < 2 ^ 31 then
      countPairs place (i + 1) (groups.modify (place kv.1) Group.incEntryCount) data
    else .error .outOfBounds

/-- The second loop of `bulk_load`, over the groups that are left. -/
def loadGroups (train : Train) (data : List (UInt64 × UInt64)) :
    ℕ → List Group → Heap → Except Fault (List Group × Heap)
  | _, [], h => .ok ([], h)
  | start, g :: groups, h =>
    if g.nextEntryCount = 0 then do
      let (groups, h) ← loadGroups train data start groups h
      .ok (g :: groups, h)
    else do
      let (g, h) ← g.bulkLoad train h data start g.nextEntryCount
      let (groups, h) ← loadGroups train data (start + g.nextEntryCount) groups h
      .ok (g :: groups, h)

/-- `bulk_load`, of a vector or of an array: what the index held before is given up. Without
groups there is no `group_id` that is one of a group. -/
def bulkLoad (models : Models) (s : Nali) (data : List (UInt64 × UInt64)) : Except Fault Nali := do
  let nrGroups := data.length / minEntryCount
  let model := models.root (data.map Prod.fst)
  let groups ← countPairs (model.groupId nrGroups) 0 (List.replicate nrGroups .zero) data
  let (groups, heap) ← loadGroups models.group data 0 groups s.heap
  .ok ⟨groups, model, heap⟩

end Nali

/-! ## The buckets -/

/-- What loading a pair does to the memory. -/
def Heap.load (h : Heap) (kv : UInt64 × UInt64) : Heap :=
  h.alloc.2.set h.next ((h.alloc.2.bunckets h.next).put kv.1 kv.2).2

/-- The cells of pairs that are loaded into memory that is allocated up to `p`. -/
def loadedCells : ℕ → List (UInt64 × UInt64) → List Cell
  | _, [] => []
  | p, kv :: data => ⟨kv.1, p⟩ :: loadedCells (p + 1) data

/-- A B entry with one cell. -/
def PointerBEntry.ofCell (c : Cell) : PointerBEntry := .ofEEntry ⟨c, 0, 8, 1⟩

namespace Nali

variable {data rest : List (UInt64 × UInt64)} {h : Heap} {kv : UInt64 × UInt64} {p : ℕ}
  {place : UInt64 → ℕ} {train : Train}

theorem initPut_eq (h : Heap) (kv : UInt64 × UInt64) :
    PointerBEntry.initPut h kv.1 kv.2 0 = (.ofCell ⟨kv.1, h.next⟩, h.load kv) := rfl

@[simp] theorem length_loadedCells (p : ℕ) (data : List (UInt64 × UInt64)) :
    (loadedCells p data).length = data.length := by
  induction data generalizing p with
  | nil => rfl
  | cons kv data ih => simp [loadedCells, ih]

theorem loadedCells_append (p : ℕ) (data rest : List (UInt64 × UInt64)) :
    loadedCells p (data ++ rest) = loadedCells p data ++ loadedCells (p + data.length) rest := by
  induction data generalizing p with
  | nil => rfl
  | cons kv data ih =>
    simp only [List.cons_append, loadedCells, ih, List.length_cons, List.cons.injEq, true_and]
    congr 2
    omega

theorem map_entryKey_loadedCells (p : ℕ) (data : List (UInt64 × UInt64)) :
    (loadedCells p data).map Cell.entryKey = data.map Prod.fst := by
  induction data generalizing p with
  | nil => rfl
  | cons kv data ih => simp [loadedCells, ih]

theorem next_foldl_load (h : Heap) (data : List (UInt64 × UInt64)) :
    (data.foldl Heap.load h).next = h.next + data.length := by
  induction data generalizing h with
  | nil => rfl
  | cons kv data ih =>
    have hnext : (h.load kv).next = h.next + 1 := rfl
    rw [List.foldl_cons, ih, hnext, List.length_cons]
    omega

theorem bunckets_foldl_load (data : List (UInt64 × UInt64)) : ∀ (h : Heap) (q : ℕ), q < h.next →
    (data.foldl Heap.load h).bunckets q = h.bunckets q := by
  induction data with
  | nil => exact fun _ _ _ => rfl
  | cons kv data ih =>
    intro h q hq
    rw [List.foldl_cons, ih (h.load kv) q (Nat.lt_succ_of_lt hq), Heap.load,
      Heap.set_of_ne hq.ne, Heap.alloc_of_ne hq.ne]

/-- The bucket of a pair holds the pair and nothing else. -/
theorem load_records (h : Heap) (kv : UInt64 × UInt64) :
    ((h.load kv).bunckets h.next).entries = 1 ∧ ((h.load kv).bunckets h.next).records 0 = kv := by
  have hzero : (h.alloc.2.bunckets h.next).entries = 0 := by
    simp [Heap.alloc]
  have hput := UnSortBuncket.put_of_room (b := h.alloc.2.bunckets h.next) (k := kv.1) (v := kv.2)
    (by rw [hzero, UnSortBuncket.maxEntries_eq]; omega)
  rw [Heap.load, Heap.set_self, hput]
  simp [UnSortBuncket.append, hzero]

/-- **What is in the memory after the loading**: every pair in a bucket of its own. -/
theorem mem_loadedCells (data : List (UInt64 × UInt64)) : ∀ (h : Heap) (c : Cell),
    c ∈ loadedCells h.next data → ∃ i kv, data[i]? = some kv ∧ c = ⟨kv.1, h.next + i⟩ ∧
      ((data.foldl Heap.load h).bunckets c.pointer).entries = 1 ∧
      ((data.foldl Heap.load h).bunckets c.pointer).records 0 = kv := by
  induction data with
  | nil =>
    intro h c hc
    cases hc
  | cons kv data ih =>
    intro h c hc
    rcases List.mem_cons.mp hc with rfl | hc
    · refine ⟨0, kv, rfl, rfl, ?_⟩
      rw [List.foldl_cons, bunckets_foldl_load data (h.load kv) h.next (Nat.lt_succ_self _)]
      exact load_records h kv
    · obtain ⟨i, kv', hi, rfl, hbunk⟩ := ih (h.load kv) c hc
      refine ⟨i + 1, kv', hi, ?_, hbunk⟩
      have hnext : (h.load kv).next = h.next + 1 := rfl
      rw [hnext]
      congr 1
      omega

theorem exists_loadedCell (hi : data[p]? = some kv) (q : ℕ) : ⟨kv.1, q + p⟩ ∈ loadedCells q data := by
  induction data generalizing p q with
  | nil => cases hi
  | cons x data ih =>
    cases p with
    | zero =>
      obtain rfl := Option.some.inj hi
      exact List.mem_cons_self ..
    | succ p =>
      have hmem := ih (p := p) hi (q + 1)
      rw [Nat.add_assoc, Nat.add_comm 1 p] at hmem
      exact List.mem_cons_of_mem _ hmem

/-- **The cells of the loaded pairs** partition the keys when the keys ascend. -/
theorem cells_loaded (h : Heap) (hasc : data.Pairwise fun a b => a.1 < b.1) :
    Cells (data.foldl Heap.load h) (loadedCells h.next data) := by
  have hreads : ∀ c ∈ loadedCells h.next data, ∀ k,
      ((data.foldl Heap.load h).bunckets c.pointer).Reads k → k = c.entryKey := by
    rintro c hc k ⟨j, hj, rfl⟩
    obtain ⟨i, kv, -, rfl, hone, hrec⟩ := mem_loadedCells data h c hc
    rw [hone, Nat.max_self, Nat.lt_one_iff] at hj
    rw [hj, UnSortBuncket.key, hrec]
  refine ⟨?_, fun c hc d hd heq => ?_, fun c hc => ?_, fun c hc => ⟨fun x hx y hy _ => ?_, ?_⟩,
    fun c hc k hk => ?_, fun c hc d hd hlt k hk => ?_⟩
  · rw [← List.pairwise_map (f := Cell.entryKey) (R := (· < ·)), map_entryKey_loadedCells,
      List.pairwise_map]
    exact hasc
  · obtain ⟨i, kv, hi, rfl, -⟩ := mem_loadedCells data h c hc
    obtain ⟨j, kv', hj, rfl, -⟩ := mem_loadedCells data h d hd
    obtain rfl : i = j := Nat.add_left_cancel heq
    obtain rfl := Option.some.inj (hi.symm.trans hj)
    rfl
  · obtain ⟨i, kv, hi, rfl, -⟩ := mem_loadedCells data h c hc
    obtain ⟨hlt, -⟩ := List.getElem?_eq_some_iff.mp hi
    rw [next_foldl_load]
    exact Nat.add_lt_add_left hlt _
  · obtain ⟨-, -, -, -, hone, -⟩ := mem_loadedCells data h c hc
    omega
  · obtain ⟨-, -, -, -, hone, -⟩ := mem_loadedCells data h c hc
    rw [hone, UnSortBuncket.maxEntries_eq]
    omega
  · exact (hreads c hc k hk).ge
  · rw [hreads c hc k hk]
    exact hlt

theorem stored_loaded (h : Heap) (data : List (UInt64 × UInt64)) (k v : UInt64) :
    Stored (data.foldl Heap.load h) (loadedCells h.next data) k v ↔ (k, v) ∈ data := by
  constructor
  · rintro ⟨c, hc, j, hj, hrec⟩
    obtain ⟨i, kv, hi, -, hone, hkv⟩ := mem_loadedCells data h c hc
    rw [hone, Nat.lt_one_iff] at hj
    rw [hj, hkv] at hrec
    exact List.mem_of_getElem? (hrec ▸ hi)
  · intro hkv
    obtain ⟨i, hi⟩ := List.mem_iff_getElem?.mp hkv
    have hc := exists_loadedCell hi h.next
    obtain ⟨j, kv', hj, heq, hone, hrec⟩ := mem_loadedCells data h _ hc
    obtain rfl : i = j := Nat.add_left_cancel (congrArg Cell.pointer heq)
    obtain rfl := Option.some.inj (hi.symm.trans hj)
    exact ⟨_, hc, 0, by rw [hone]; exact Nat.zero_lt_one, hrec⟩

/-! ## The loops -/

/-- The loop that counts the pairs, when it comes to its end. -/
theorem countPairs_eq (place : UInt64 → ℕ) (data : List (UInt64 × UInt64)) : ∀ (i : ℕ) (groups : List Group),
    (∀ kv ∈ data, place kv.1 < groups.length) → i + data.length < 2 ^ 31 →
    ∃ counted, countPairs place i groups data = .ok counted ∧
      ∀ j : ℕ, counted[j]? = groups[j]?.map fun g : Group =>
        { g with nextEntryCount := g.nextEntryCount +
            (data.filter fun kv => place kv.1 = j).length } := by
  induction data with
  | nil =>
    intro i groups _ _
    refine ⟨groups, rfl, fun j => ?_⟩
    cases groups[j]? <;> rfl
  | cons kv data ih =>
    intro i groups hplace hlen
    rw [List.length_cons] at hlen
    have hroom : place kv.1 < groups.length ∧ i + 1 < 2 ^ 31 :=
      ⟨hplace kv (List.mem_cons_self ..), by omega⟩
    obtain ⟨counted, hcount, hget⟩ := ih (i + 1)
      (groups.modify (place kv.1) Group.incEntryCount)
      (fun x hx => by
        rw [List.length_modify]
        exact hplace x (List.mem_cons_of_mem _ hx))
      (by omega)
    refine ⟨counted, by rw [countPairs, if_pos hroom, hcount], fun j => ?_⟩
    rw [hget, List.getElem?_modify]
    cases groups[j]? with
    | none => rfl
    | some g =>
      by_cases hj : place kv.1 = j
      · simp [hj, Group.incEntryCount]
        omega
      · simp [hj]

/-- The loop of a group, when the pairs and the places are there. -/
theorem loadEntries_eq (data : List (UInt64 × UInt64)) {capacity : ℕ} (run : List (UInt64 × UInt64)) :
    ∀ (pos : ℕ) (entrySpace : List PointerBEntry) (h : Heap) (rest : List (UInt64 × UInt64)),
    data.drop pos = run ++ rest → entrySpace.length + run.length ≤ capacity →
    Group.loadEntries data capacity run.length pos entrySpace h =
      .ok (entrySpace ++ (loadedCells h.next run).map .ofCell, run.foldl Heap.load h) := by
  induction run with
  | nil =>
    intro pos entrySpace h rest _ _
    simp [Group.loadEntries, loadedCells]
  | cons kv run ih =>
    intro pos entrySpace h rest hdrop hroom
    rw [List.length_cons] at hroom
    have hget : data[pos]? = some kv := by
      have hhead := congrArg List.head? hdrop
      rwa [List.head?_drop] at hhead
    have hdrop' : data.drop (pos + 1) = run ++ rest := by
      rw [← List.tail_drop, hdrop]
      rfl
    have hlt : entrySpace.length < capacity := by omega
    have hrest := ih (pos + 1) (entrySpace ++ [.ofCell ⟨kv.1, h.next⟩]) (h.load kv) rest hdrop'
      (by
        rw [List.length_append, List.length_singleton]
        omega)
    rw [List.length_cons, Group.loadEntries, hget]
    simp only [hlt, if_true, initPut_eq, hrest, List.append_assoc, List.singleton_append,
      loadedCells, List.map_cons, List.foldl_cons]
    rfl

theorem cells_map_ofCell (cells : List Cell) :
    (cells.map PointerBEntry.ofCell).flatMap PointerBEntry.cells = cells := by
  induction cells with
  | nil => rfl
  | cons c cells ih =>
    rw [List.map_cons, List.flatMap_cons, ih, PointerBEntry.ofCell, PointerBEntry.cells_ofEEntry]
    rfl

/-- A group after its loading. -/
structure LoadedGroup (g : Group) (cells : List Cell) : Prop where
  /-- a B entry for every cell -/
  entrySpace : g.entrySpace = cells.map .ofCell
  /-- they are counted -/
  count : g.nextEntryCount = cells.length

namespace LoadedGroup

variable {g : Group} {cells : List Cell}

theorem cells_eq (hg : LoadedGroup g cells) : g.cells = cells := by
  rw [Group.cells, hg.entrySpace, cells_map_ofCell]

theorem wf (hg : LoadedGroup g cells) : g.WF where
  entry b hb := by
    rw [hg.entrySpace] at hb
    obtain ⟨c, -, rfl⟩ := List.mem_map.mp hb
    exact PointerBEntry.wf_ofEEntry _
  count := by rw [hg.count, hg.cells_eq]

end LoadedGroup

theorem loadGroups_cons (g : Group) (groups : List Group) (start : ℕ) :
    loadGroups train data start (g :: groups) h =
      ((if g.nextEntryCount = 0 then .ok (g, h)
        else g.bulkLoad train h data start g.nextEntryCount) >>= fun x =>
        loadGroups train data (start + x.1.nextEntryCount) groups x.2 >>= fun y =>
          .ok (x.1 :: y.1, y.2)) := by
  rw [loadGroups]
  split
  · rename_i hzero
    simp only [bind, Except.bind, hzero, Nat.add_zero]
  · rfl

/-- **Loading one group** with the run of its pairs, of which there may be none. -/
theorem exists_loadedGroup {g : Group} {run : List (UInt64 × UInt64)} {start : ℕ}
    (hdrop : data.drop start = run ++ rest) (hempty : g.entrySpace = [])
    (hcount : g.nextEntryCount = run.length) (h : Heap) (train : Train) :
    ∃ g', (if g.nextEntryCount = 0 then .ok (g, h)
        else g.bulkLoad train h data start g.nextEntryCount) =
          Except.ok (g', run.foldl Heap.load h) ∧
      LoadedGroup g' (loadedCells h.next run) := by
  cases run with
  | nil => exact ⟨g, if_pos hcount, hempty, hcount⟩
  | cons kv run =>
    -- there is a first pair, which `min_key` is taken from
    obtain ⟨first, hfirst⟩ : ∃ first, data[0]? = some first := by
      cases data with
      | nil => cases (List.drop_nil (i := start)).symm.trans hdrop
      | cons first data => exact ⟨first, rfl⟩
    set cells := loadedCells h.next (kv :: run) with hcells
    refine ⟨⟨cells.map .ofCell, (kv :: run).length, first.1,
      train ((cells.map .ofCell).map PointerBEntry.entryKey)⟩, ?_,
      ⟨rfl, (length_loadedCells ..).symm⟩⟩
    rw [if_neg (by rw [hcount]; exact Nat.succ_ne_zero _), Group.bulkLoad, hcount,
      loadEntries_eq _ (kv :: run) start [] h rest hdrop (by simp)]
    simp [bind, Except.bind, hfirst, hcells]

theorem exists_pair_of_mem {c : Cell} (hc : c ∈ loadedCells p data) :
    ∃ kv ∈ data, kv.1 = c.entryKey := by
  have hkey := List.mem_map_of_mem (f := Cell.entryKey) hc
  rw [map_entryKey_loadedCells] at hkey
  exact List.mem_map.mp hkey

/-- **The second loop.** From group `i` on, the pairs that are left are those of groups `i` and
above, in order; every group takes its own off the front. -/
theorem exists_loadGroups (place : UInt64 → ℕ) (train : Train) (data : List (UInt64 × UInt64))
    (groups : List Group) :
    ∀ (i start : ℕ) (h : Heap) (rest : List (UInt64 × UInt64)), data.drop start = rest →
    (rest.Pairwise fun a b => place a.1 ≤ place b.1) →
    (∀ kv ∈ rest, i ≤ place kv.1 ∧ place kv.1 < i + groups.length) →
    (∀ j g, groups[j]? = some g → g.entrySpace = [] ∧
      g.nextEntryCount = (rest.filter fun kv => place kv.1 = i + j).length) →
    ∃ loaded, loadGroups train data start groups h = .ok (loaded, rest.foldl Heap.load h) ∧
      loaded.length = groups.length ∧ loaded.flatMap Group.cells = loadedCells h.next rest ∧
      ∀ j g, loaded[j]? = some g → g.WF ∧ ∀ c ∈ g.cells, place c.entryKey = i + j := by
  induction groups with
  | nil =>
    intro i start h rest _ _ hrange _
    obtain rfl : rest = [] := by
      apply List.eq_nil_iff_forall_not_mem.mpr
      intro kv hkv
      have hkv := hrange kv hkv
      rw [List.length_nil] at hkv
      omega
    exact ⟨[], rfl, rfl, rfl, fun j g hg => (by cases hg)⟩
  | cons g groups ih =>
    intro i start h rest hdrop hsorted hrange hcount
    set run := rest.filter fun kv => place kv.1 = i with hrun
    set rest' := rest.filter fun kv => i < place kv.1 with hrest'
    have hsplit : rest = run ++ rest' := eq_filter_append hsorted fun kv hkv => (hrange kv hkv).1
    obtain ⟨hempty, hg⟩ : g.entrySpace = [] ∧ g.nextEntryCount = run.length := hcount 0 g rfl
    -- what is asked of the groups after this one
    have hdrop' : data.drop (start + run.length) = rest' := by
      rw [← List.drop_drop, hdrop, hsplit, List.drop_left]
    have hnext := fun (h : Heap) => ih (i + 1) (start + run.length) h rest' hdrop'
      (hsorted.sublist List.filter_sublist)
      (fun kv hkv => by
        obtain ⟨hmem, hlt⟩ := List.mem_filter.mp hkv
        have hkv := hrange kv hmem
        rw [List.length_cons] at hkv
        have hlt := of_decide_eq_true hlt
        omega)
      (fun j g hg => by
        have hg := hcount (j + 1) g hg
        have hfilter : (rest.filter fun kv => place kv.1 = i + (j + 1)) =
            rest'.filter fun kv => place kv.1 = i + 1 + j := by
          rw [hrest', List.filter_filter]
          apply List.filter_congr
          intro kv _
          rw [← Bool.decide_and, decide_eq_decide]
          omega
        rwa [hfilter] at hg)
    obtain ⟨g', hload, hg'⟩ := exists_loadedGroup (hdrop.trans hsplit) hempty hg h train
    have hlen : g'.nextEntryCount = run.length := by rw [hg'.count, length_loadedCells]
    obtain ⟨loaded, hgroups, hlength, hcells, hall⟩ := hnext (run.foldl Heap.load h)
    refine ⟨g' :: loaded, ?_, by rw [List.length_cons, hlength, List.length_cons], ?_, ?_⟩
    · have hfold : rest.foldl Heap.load h = rest'.foldl Heap.load (run.foldl Heap.load h) := by
        rw [hsplit, List.foldl_append]
      rw [loadGroups_cons, hload, hfold]
      simp only [bind, Except.bind, hlen, hgroups]
    · have happend : loadedCells h.next rest =
          loadedCells h.next run ++ loadedCells (h.next + run.length) rest' := by
        rw [hsplit, loadedCells_append]
      rw [List.flatMap_cons, hg'.cells_eq, hcells, next_foldl_load, happend]
    · intro j g hg
      cases j with
      | zero =>
        obtain rfl := Option.some.inj hg
        refine ⟨hg'.wf, fun c hc => ?_⟩
        rw [hg'.cells_eq] at hc
        obtain ⟨kv, hkv, hkey⟩ := exists_pair_of_mem hc
        rw [← hkey]
        exact of_decide_eq_true (List.mem_filter.mp hkv).2
      | succ j =>
        obtain ⟨hwf, hplace⟩ := hall j g hg
        refine ⟨hwf, fun c hc => ?_⟩
        rw [hplace c hc]
        omega

/-! ## The index after the loading -/

/-- The map of the pairs. -/
def mapOf (data : List (UInt64 × UInt64)) : UInt64 → Option UInt64 := fun k => data.lookup k

theorem mapOf_cons_self : mapOf (kv :: data) kv.1 = some kv.2 := by
  rw [mapOf, List.lookup_cons, beq_self_eq_true]

theorem mapOf_cons_of_ne {k : UInt64} (hk : k ≠ kv.1) : mapOf (kv :: data) k = mapOf data k := by
  rw [mapOf, List.lookup_cons, beq_false_of_ne hk]
  rfl

theorem mapOf_eq_some {k v : UInt64} (hasc : data.Pairwise fun a b => a.1 < b.1) :
    mapOf data k = some v ↔ (k, v) ∈ data := by
  induction data with
  | nil => simp [mapOf]
  | cons kv data ih =>
    obtain ⟨hlt, hasc⟩ := List.pairwise_cons.mp hasc
    rw [List.mem_cons, ← ih hasc]
    by_cases hk : k = kv.1
    · subst hk
      have hnone : mapOf data kv.1 ≠ some v := by
        intro hsome
        exact absurd (hlt _ ((ih hasc).mp hsome)) (lt_irrefl _)
      simp [mapOf_cons_self, hnone, Prod.ext_iff, eq_comm]
    · have hne : (k, v) ≠ kv := fun heq => hk (congrArg Prod.fst heq)
      simp [mapOf_cons_of_ne hk, hne]

/-- **`bulk_load`** of enough pairs: no access is out of bounds, and the index holds the map of
the pairs. -/
theorem exists_holds_bulkLoad (models : Models) (s₀ : Nali)
    (hasc : data.Pairwise fun a b => a.1 < b.1) (hlen : minEntryCount ≤ data.length)
    (hint : data.length < 2 ^ 31) :
    ∃ s, s₀.bulkLoad models data = .ok s ∧ s.Holds (mapOf data) := by
  set n := data.length / minEntryCount with hn
  have hpos : 0 < n := Nat.div_pos hlen (by decide)
  set model := models.root (data.map Prod.fst) with hmodel
  obtain ⟨counted, hcount, hget⟩ := countPairs_eq (model.groupId n) data 0
    (List.replicate n .zero) (fun kv _ => by
      rw [List.length_replicate]
      exact RootModel.groupId_lt hpos _) (by omega)
  have hcounted : counted.length = n := by
    apply length_eq_of_isSome
    intro i
    rw [hget, List.getElem?_replicate]
    split
    · rename_i hi
      exact iff_of_true rfl hi
    · rename_i hi
      exact iff_of_false Bool.false_ne_true hi
  obtain ⟨loaded, hload, hlength, hcells, hall⟩ := exists_loadGroups (model.groupId n)
    models.group data counted 0 0 s₀.heap data rfl
    (hasc.imp fun hlt => RootModel.groupId_mono hlt.le)
    (fun kv _ => ⟨Nat.zero_le _, by
      rw [Nat.zero_add, hcounted]
      exact RootModel.groupId_lt hpos _⟩)
    (fun j g hg => by
      rw [hget, List.getElem?_replicate] at hg
      split at hg
      · obtain rfl := Option.some.inj hg
        exact ⟨rfl, by simp [Group.zero]⟩
      · cases hg)
  have hnrGroups : loaded.length = n := hlength.trans hcounted
  have hdata : data ≠ [] := by
    rintro rfl
    exact absurd hlen (by decide)
  refine ⟨⟨loaded, model, data.foldl Heap.load s₀.heap⟩, ?_, ⟨fun g hg => ?_, ?_, ?_,
    fun i g hg hne _ => ?_⟩, fun k v => ?_⟩
  · rw [bulkLoad, ← hn, ← hmodel, hcount]
    simp only [bind, Except.bind, hload]
  · obtain ⟨j, hj⟩ := List.mem_iff_getElem?.mp hg
    exact (hall j g hj).1
  · rw [Nali.cells, hcells]
    exact cells_loaded s₀.heap hasc
  · obtain ⟨kv, data', rfl⟩ := List.exists_cons_of_ne_nil hdata
    rw [Nali.cells, hcells]
    exact List.cons_ne_nil _ _
  · -- every cell is in the group the model guesses for it
    obtain ⟨hwf, hplace⟩ := hall i g hg
    obtain ⟨c, cs, hfirst, hkey⟩ := Group.exists_first hwf.entry hne
    have hi := hplace c (hfirst ▸ List.mem_cons_self ..)
    rw [← hkey, nrGroups]
    simp only [hnrGroups]
    omega
  · rw [mapOf_eq_some hasc, Nali.cells, hcells]
    exact (stored_loaded s₀.heap data k v).symm

/-! ## An index built by Put one by one -/

/-- The `Put`s of the pairs. -/
def puts (data : List (UInt64 × UInt64)) : List Op := data.map fun kv => .put kv.1 kv.2

theorem mapOf_puts (data : List (UInt64 × UInt64)) : ∀ M : UInt64 → Option UInt64,
    (data.Pairwise fun a b => a.1 < b.1) → (∀ kv ∈ data, M kv.1 = none) →
    PutsAbsent M (puts data) ∧ (specRun mapStep M (puts data)).2 = fun k => (mapOf data k).or (M k) := by
  induction data with
  | nil => exact fun M _ _ => ⟨trivial, rfl⟩
  | cons kv data ih =>
    intro M hasc hM
    obtain ⟨hlt, hasc⟩ := List.pairwise_cons.mp hasc
    obtain ⟨hputs, hspec⟩ := ih (Function.update M kv.1 (some kv.2)) hasc fun x hx => by
      rw [Function.update_of_ne (hlt x hx).ne']
      exact hM x (List.mem_cons_of_mem _ hx)
    refine ⟨⟨?_, hputs⟩, ?_⟩
    · rintro k v heq
      obtain ⟨rfl, -⟩ := Op.put.inj heq
      exact hM kv (List.mem_cons_self ..)
    · refine hspec.trans (funext fun k => ?_)
      by_cases hk : k = kv.1
      · subst hk
        have hnone : mapOf data kv.1 = none := by
          refine Option.eq_none_iff_forall_ne_some.mpr fun v hv => ?_
          exact absurd (hlt _ ((mapOf_eq_some hasc).mp hv)) (lt_irrefl _)
        simp [hnone, mapOf_cons_self]
      · simp [Function.update_of_ne hk, mapOf_cons_of_ne hk]

/-- `bulk_load` builds the map of the pairs: every access is in bounds, `Get` returns the value
of every pair and does not find other keys, and later operations return what they return on an
index to which the pairs have been `Put` one by one. -/
def BuildsMap (models : Models) (s₀ : Nali) (data : List (UInt64 × UInt64)) : Prop :=
  ∃ s, s₀.bulkLoad models data = .ok s ∧
    (∀ kv ∈ data, s.get kv.1 = .ok (some kv.2)) ∧
    (∀ k, k ∉ data.map Prod.fst → s.get k = .ok none) ∧
    ∀ (models' : Models) (model : RootModel) (heap : Heap) (minKey : UInt64), ∃ rs t,
      exec (step models') (init models' model heap minKey) (puts data) = .ok (rs, t) ∧
      ∀ ops, PutsAbsent (mapOf data) ops → ∃ rets s' t',
        exec (step models) s ops = .ok (rets, s') ∧ exec (step models') t ops = .ok (rets, t')

theorem buildsMap_of_holds {models : Models} {s₀ s : Nali}
    (hasc : data.Pairwise fun a b => a.1 < b.1) (hload : s₀.bulkLoad models data = .ok s)
    (hs : s.Holds (mapOf data)) : BuildsMap models s₀ data := by
  refine ⟨s, hload, fun kv hkv => ?_, fun k hk => ?_, fun models' model heap minKey => ?_⟩
  · rw [hs.get_eq, (mapOf_eq_some hasc).mpr hkv]
  · have hnone : mapOf data k = none := by
      refine Option.eq_none_iff_forall_ne_some.mpr fun v hv => hk ?_
      exact List.mem_map_of_mem ((mapOf_eq_some hasc).mp hv)
    rw [hs.get_eq, hnone]
  · obtain ⟨hputs, hspec⟩ := mapOf_puts data (fun _ => none) hasc fun _ _ => rfl
    obtain ⟨t, hexec, ht⟩ := exec_holds models' (holds_init models' model heap minKey) _ hputs
    have hmap : (fun k => (mapOf data k).or none) = mapOf data := by
      funext k
      exact Option.or_none
    rw [hspec, hmap] at ht
    refine ⟨_, t, hexec, fun ops hops => ?_⟩
    obtain ⟨s', hs', -⟩ := exec_holds models hs ops hops
    obtain ⟨t', ht', -⟩ := exec_holds models' ht ops hops
    exact ⟨_, s', t', hs', ht'⟩

/-- Without groups the first pair is counted outside them. -/
theorem bulkLoad_of_short (models : Models) (s₀ : Nali) (hne : data ≠ [])
    (hlen : data.length < minEntryCount) : s₀.bulkLoad models data = .error .outOfBounds := by
  obtain ⟨kv, data', rfl⟩ := List.exists_cons_of_ne_nil hne
  have hzero : (kv :: data').length / minEntryCount = 0 := Nat.div_eq_of_lt hlen
  rw [bulkLoad, hzero, countPairs, if_neg]
  · rfl
  · simp

/-- A counter that overflows ends the first loop. -/
theorem countPairs_of_long (data : List (UInt64 × UInt64)) : ∀ (i : ℕ) (groups : List Group),
    i < 2 ^ 31 → 2 ^ 31 ≤ i + data.length → countPairs place i groups data = .error .outOfBounds := by
  induction data with
  | nil =>
    intro i groups hi hlen
    exact absurd hi (Nat.not_lt_of_le hlen)
  | cons kv data ih =>
    intro i groups hi hlen
    rw [List.length_cons] at hlen
    rw [countPairs]
    split
    · rename_i hstep
      exact ih (i + 1) _ hstep.2 (by omega)
    · rfl

/-- **`bulk_load` builds the map of the data** exactly when there are at least 64 pairs, and
not more than an `int` counts. -/
theorem bulkLoad_buildsMap_iff (models : Models) (s₀ : Nali) (data : List (UInt64 × UInt64))
    (hne : data ≠ []) (hasc : data.Pairwise fun a b => a.1 < b.1) :
    BuildsMap models s₀ data ↔ minEntryCount ≤ data.length ∧ data.length < 2 ^ 31 := by
  constructor
  · rintro ⟨s, hload, -⟩
    constructor
    · by_contra hlen
      rw [bulkLoad_of_short models s₀ hne (Nat.lt_of_not_le hlen)] at hload
      cases hload
    · by_contra hlen
      rw [bulkLoad, countPairs_of_long data 0 _ (by decide) (by omega)] at hload
      cases hload
  · rintro ⟨hlen, hint⟩
    obtain ⟨s, hload, hs⟩ := exists_holds_bulkLoad models s₀ hasc hlen hint
    exact buildsMap_of_holds hasc hload hs

/-- 64 pairs. -/
def squares : List (UInt64 × UInt64) := (List.range 64).map fun i => (i.toUInt64, (i * i).toUInt64)

theorem bulkLoad_buildsMap_squares : squares ≠ [] ∧ (squares.Pairwise fun a b => a.1 < b.1) ∧
    BuildsMap zeroModels ⟨[], zeroModels.root [], zeroHeap⟩ squares := by
  have hne : squares ≠ [] := by decide
  have hasc : squares.Pairwise fun a b => a.1 < b.1 := by decide
  exact ⟨hne, hasc, (bulkLoad_buildsMap_iff _ _ squares hne hasc).mpr ⟨by decide, by decide⟩⟩

/-- What operations return after a `bulk_load`. -/
def bulkThen (models : Models) (s₀ : Nali) (data : List (UInt64 × UInt64)) (ops : List Op) :
    Except Fault (List Ret) := do
  let s ← s₀.bulkLoad models data
  let (rets, _) ← exec (step models) s ops
  .ok rets

/-- What operations return after the pairs have been `Put` one by one. -/
def putsThen (models : Models) (s₀ : Nali) (data : List (UInt64 × UInt64)) (ops : List Op) :
    Except Fault (List Ret) := do
  let (_, s) ← exec (step models) s₀ (puts data)
  let (rets, _) ← exec (step models) s ops
  .ok rets

/-- An array of one pair: the count of group -1 is incremented. And with 64 pairs, `Put`s of a
key that is there are seen in one order or another, as the buckets are. -/
theorem bulkLoad_single_outOfBounds :
    (⟨[], zeroModels.root [], zeroHeap⟩ : Nali).bulkLoad zeroModels [(7, 1)] = .error .outOfBounds ∧
      ¬ BuildsMap zeroModels ⟨[], zeroModels.root [], zeroHeap⟩ [(7, 1)] ∧
      bulkThen zeroModels ⟨[], zeroModels.root [], zeroHeap⟩ squares
          [.put 62 2, .put 62 3, .put 64 0, .delete 62, .get 62] =
        .ok [.status .ok, .status .ok, .status .ok, .found (some 3844), .found (some 3)] ∧
      putsThen zeroModels (init zeroModels (zeroModels.root []) zeroHeap 0) squares
          [.put 62 2, .put 62 3, .put 64 0, .delete 62, .get 62] =
        .ok [.status .ok, .status .ok, .status .ok, .found (some 3844), .found (some 2)] := by
  have hne : [((7 : UInt64), (1 : UInt64))] ≠ [] := List.cons_ne_nil _ _
  have hload := bulkLoad_of_short zeroModels ⟨[], zeroModels.root [], zeroHeap⟩ hne (by decide)
  refine ⟨hload, ?_, by decide +kernel, by decide +kernel⟩
  rintro ⟨s, hs, -⟩
  rw [hload] at hs
  cases hs

end Nali

end NaliStore
