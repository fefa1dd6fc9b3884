import NaliStore.Index

/-!
# Scanning a range

`Nali::Scan` and the methods of that name below it, as they are. The scan starts in the first
bucket of the group it picks, whatever the start key, and goes on in two modes: the first
bucket is read through its sorted index, from the place that is the number of the slot of its
least key; the buckets after it are read slot by slot, or, when fewer keys are wanted than
they have, by reading their first slot over and over. A B entry goes on from its first bucket
to its second and stays there.

The results say what each method appends to the results it is given.
-/

namespace NaliStore

open Routing Runs

/-- The pairs a scan returns. -/
abbrev Pairs := List (UInt64 × UInt64)

namespace UnSortBuncket

/-- The loop of the first mode of `Scan`, over the slots `index`. -/
def scanSlots (b : UnSortBuncket) (startKey : UInt64) : List ℕ → ℕ → Pairs → ℕ × Pairs
  | [], len, results => (len, results)
  | i :: index, len, results =>
    if len = 0 then (len, results)
    else if b.key i ≥ startKey then
      scanSlots b startKey index (len - 1) (results ++ [(b.key i, b.value i)])
    else scanSlots b startKey index len results

/-- `Scan`. The first mode reads `sorted_index_[0]`, which is not there when no slot is in use;
what is read then does not matter when no key is wanted. -/
def scan (b : UnSortBuncket) (startKey : UInt64) (len : ℕ) (results : Pairs) (ifFirst : Bool) :
    Except Fault (Status × ℕ × Pairs) :=
  if ifFirst then
    match b.getSortedIndex with
    | [] => if len = 0 then .ok (.ok, len, results) else .error .outOfBounds
    | first :: index =>
      let (len, results) := b.scanSlots startKey ((first :: index).drop first) len results
      .ok (if len > 0 then .failed else .ok, len, results)
  else if len ≥ b.entries then
    let results := results ++ (List.range b.entries).map b.records
    let len := len - b.entries
    .ok (if len > 0 then .failed else .ok, len, results)
  else .ok (.ok, 0, results ++ List.replicate len (b.records 0))

end UnSortBuncket

namespace PointerBEntry

/-- The loop of `Scan` with a bound on the number of rounds. The position stays the same. -/
def scanLoop (b : PointerBEntry) (h : Heap) (startKey : UInt64) (pos : ℕ) :
    ℕ → Status → ℕ → Pairs → Except Fault (Status × ℕ × Pairs)
  | 0, ret, len, results =>
    if ret = .failed ∧ pos < b.entries then .error .diverges else .ok (ret, len, results)
  | fuel + 1, ret, len, results =>
    if ret = .failed ∧ pos < b.entries then do
      let (ret, len, results) ←
        (h.bunckets (b.entrys pos).pointer).scan startKey len results false
      scanLoop b h startKey pos fuel ret len results
    else .ok (ret, len, results)

/-- The end of `Scan`. Every round of the loop that ends uses up a key. -/
def scanFrom (b : PointerBEntry) (h : Heap) (startKey : UInt64) (pos : ℕ) :
    Status × ℕ × Pairs → Except Fault (Bool × ℕ × Pairs)
  | (ret, len, results) => do
    let (ret, len, results) ← b.scanLoop h startKey (pos + 1) (len + 1) ret len results
    .ok (ret == .ok, len, results)

/-- `Scan`. The position found in the second branch is a variable of its own, and the loop
goes on after place 0. -/
def scan (b : PointerBEntry) (h : Heap) (startKey : UInt64) (len : ℕ) (results : Pairs)
    (ifFirst : Bool) : Except Fault (Bool × ℕ × Pairs) :=
  if ifFirst then do
    let scanned ← (h.bunckets (b.entrys 0).pointer).scan 0 len results ifFirst
    b.scanFrom h startKey 0 scanned
  else if b.Rejects (b.findPos startKey) then .ok (false, len, results)
  else do
    let scanned ←
      (h.bunckets (b.entrys (b.findPos startKey)).pointer).scan startKey len results false
    b.scanFrom h startKey 0 scanned

end PointerBEntry

namespace Group

/-- The loop of `Scan`, over the B entries that are left. -/
def scanRest (h : Heap) (startKey : UInt64) :
    List PointerBEntry → Bool → ℕ → Pairs → Except Fault (Bool × ℕ × Pairs)
  | [], ret, len, results => .ok (ret, len, results)
  | b :: entries, ret, len, results =>
    if ret then .ok (ret, len, results)
    else do
      let (ret, len, results) ← b.scan h startKey len results false
      scanRest h startKey entries ret len results

/-- `Scan` -/
def scan (g : Group) (h : Heap) (startKey : UInt64) (len : ℕ) (results : Pairs) (ifFirst : Bool) :
    Except Fault (Bool × ℕ × Pairs) :=
  match g.entrySpace.drop (if ifFirst then 0 else g.findEntry startKey) with
  | [] => .error .outOfBounds
  | b :: entries => do
    let (ret, len, results) ← b.scan h startKey len results ifFirst
    scanRest h startKey entries ret len results

/-- `scan_fast_fail` -/
def scanFastFail (g : Group) (key : UInt64) : Bool := ¬ (g.nrEntries = 0 ∨ key < g.minKey)

end Group

namespace Nali

/-- The loop of `scan_slow`, over the groups that are left. Empty groups are skipped without
looking whether there is another. -/
def scanGroups (h : Heap) (startKey : UInt64) :
    List Group → Bool → ℕ → Pairs → Except Fault (ℕ × Pairs)
  | [], skipping, len, results => if skipping then .error .outOfBounds else .ok (len, results)
  | g :: groups, _, len, results =>
    if g.nrEntries = 0 then scanGroups h startKey groups true len results
    else do
      let (ret, len, results) ← g.scan h startKey len results false
      if ret then .ok (len, results) else scanGroups h startKey groups false len results

/-- `scan_slow` -/
def scanSlow (s : Nali) (startKey : UInt64) (len : ℕ) (results : Pairs) (fastGroupId : ℕ) :
    Except Fault (ℕ × Pairs) := do
  let groupId ← if fastGroupId ≠ 0 then .ok fastGroupId else s.findGroup startKey
  let g ← s.groupAt groupId
  let (ret, len, results) ← g.scan s.heap startKey len results true
  if ret then .ok (len, results)
  else scanGroups s.heap startKey (s.groupSpace.drop (groupId + 1)) false len results

/-- `scan_fast` -/
def scanFast (s : Nali) (startKey : UInt64) (len : ℕ) (results : Pairs) :
    Except Fault (Bool × ℕ × Pairs) := do
  let groupId := s.model.groupId s.nrGroups startKey
  let g ← s.groupAt groupId
  if g.scanFastFail startKey then do
    let (len, results) ← s.scanSlow startKey len results groupId
    .ok (true, len, results)
  else .ok (false, len, results)

/-- `Scan`: what it returns, what is left of `len`, and the results. -/
def scan (s : Nali) (startKey : UInt64) (len : ℕ) (results : Pairs) :
    Except Fault (Bool × ℕ × Pairs) := do
  match ← s.scanFast startKey len results with
  | (true, len, results) => .ok (true, len, results)
  | (false, len, results) => do
    let (len, results) ← s.scanSlow startKey len results 0
    .ok (false, len, results)

end Nali

/-! ## What a scan reads in a bucket

The pairs of a bucket in the order of its slots and in the order of its keys. The buckets
after the first one are read in the order of the slots, which is right when that is the order
of the keys; or only their first slot is read, which is right when it has the least key and
one key is wanted (`Last`). -/

/-- The keys ascend. -/
def Ascends (l : Pairs) : Prop := l.Pairwise fun p q => p.1 < q.1

theorem Ascends.nodup {l : Pairs} (h : Ascends l) : l.Nodup :=
  List.Pairwise.imp (fun {_ _} hlt heq => absurd (congrArg Prod.fst heq) hlt.ne) h

/-- Ascending lists with the same pairs are the same. -/
theorem Ascends.eq_of_perm {l l' : Pairs} (h : Ascends l) (h' : Ascends l') (hperm : l.Perm l') :
    l = l' :=
  hperm.eq_of_pairwise (fun _ _ _ _ hlt hgt => absurd hlt (not_lt_of_gt hgt)) h h'

namespace UnSortBuncket

/-- The pairs in the order of the slots. -/
def slots (b : UnSortBuncket) : Pairs := (List.range b.entries).map b.records

/-- The pairs in the order of the keys. -/
def sorted (b : UnSortBuncket) : Pairs := b.getSortedIndex.map b.records

/-- The slots are in the order of the keys. -/
def Ascending (b : UnSortBuncket) : Prop := Ascends b.slots

/-- The first slot has the least key. -/
def LeastFirst (b : UnSortBuncket) : Prop := ∀ i < b.entries, b.key 0 ≤ b.key i

/-- A bucket after the first one gives the last `len` keys of a scan: all its keys, which are
in order, or one, which is in the first slot. -/
def Last (b : UnSortBuncket) (len : ℕ) : Prop :=
  len = b.entries ∧ b.Ascending ∨ len = 1 ∧ len < b.entries ∧ b.LeastFirst

variable {b : UnSortBuncket} {startKey : UInt64} {len len' first : ℕ} {results results' X : Pairs}
  {ret : Status}

@[simp] theorem length_slots : b.slots.length = b.entries := by
  rw [slots, List.length_map, List.length_range]

@[simp] theorem length_sorted : b.sorted.length = b.entries := by
  rw [sorted, List.length_map, length_getSortedIndex]

theorem mem_sorted {p : UInt64 × UInt64} : p ∈ b.sorted ↔ b.Has p.1 p.2 := by
  rw [sorted, List.mem_map]
  simp only [mem_getSortedIndex]
  rfl

theorem slots_perm_sorted : b.slots.Perm b.sorted :=
  (List.perm_insertionSort (fun i j => b.key i ≤ b.key j) (List.range b.entries)).symm.map b.records

theorem Distinct.ascends_sorted (h : b.Distinct) : Ascends b.sorted :=
  List.pairwise_map.mpr h.pairwise_getSortedIndex

theorem Distinct.ascending_iff (h : b.Distinct) : b.Ascending ↔ b.slots = b.sorted := by
  constructor
  · exact fun hasc => Ascends.eq_of_perm hasc h.ascends_sorted slots_perm_sorted
  · intro heq
    rw [Ascending, heq]
    exact h.ascends_sorted

/-- The least key is the first of the sorted ones. -/
theorem Distinct.leastFirst_iff (h : b.Distinct) (hpos : 0 < b.entries) :
    b.LeastFirst ↔ b.sorted.head? = some (b.records 0) := by
  have hasc := h.ascends_sorted
  have hmem : ∀ p, p ∈ b.sorted ↔ b.Has p.1 p.2 := fun p => mem_sorted
  have hzero : b.records 0 ∈ b.sorted := mem_sorted.mpr (has_of_lt hpos)
  cases hs : b.sorted with
  | nil =>
    rw [hs] at hzero
    cases hzero
  | cons p rest =>
    rw [hs] at hasc hzero hmem
    have hcons := (List.pairwise_cons.mp hasc).1
    rw [List.head?_cons, Option.some.injEq]
    constructor
    · intro hleast
      rcases List.mem_cons.mp hzero with heq | hrest
      · exact heq.symm
      · obtain ⟨i, hi, hrec⟩ := (hmem p).mp (List.mem_cons_self ..)
        have hle := hleast i hi
        rw [key, key, hrec] at hle
        exact absurd (hcons _ hrest) (not_lt_of_ge hle)
    · rintro rfl i hi
      rcases List.mem_cons.mp ((hmem (b.records i)).mpr (has_of_lt hi)) with heq | hrest
      · rw [key, key, heq]
      · exact (hcons _ hrest).le

/-! ## The two modes -/

/-- The loop of the first mode, from key 0 on, takes the pairs as they come. -/
theorem scanSlots_zero (index : List ℕ) : ∀ (len : ℕ) (results : Pairs),
    b.scanSlots 0 index len results =
      (len - index.length, results ++ (index.map b.records).take len) := by
  induction index with
  | nil =>
    intro len results
    rw [scanSlots, List.length_nil, Nat.sub_zero, List.map_nil, List.take_nil, List.append_nil]
  | cons i index ih =>
    intro len results
    rw [scanSlots]
    cases len with
    | zero => rw [if_pos rfl, Nat.zero_sub, List.take_zero, List.append_nil]
    | succ len =>
      have hkey : b.key i ≥ 0 := UInt64.zero_le
      rw [if_neg (Nat.succ_ne_zero len), if_pos hkey, ih, Nat.add_sub_cancel, List.map_cons,
        List.take_succ_cons, List.length_cons, Nat.add_sub_add_right, List.append_assoc]
      rfl

/-- **The first mode**: the sorted pairs, from the place whose number is the slot of the
least key. -/
theorem scan_first (hfirst : b.getSortedIndex.head? = some first) :
    b.scan 0 len results true = .ok (if len - (b.entries - first) > 0 then .failed else .ok,
      len - (b.entries - first), results ++ (b.sorted.drop first).take len) := by
  rw [scan, if_pos rfl]
  cases hs : b.getSortedIndex with
  | nil =>
    rw [hs] at hfirst
    cases hfirst
  | cons i index =>
    rw [hs, List.head?_cons, Option.some.injEq] at hfirst
    subst hfirst
    simp only [scanSlots_zero, sorted, hs, List.length_drop, ← List.map_drop]
    rw [← hs, length_getSortedIndex]

/-- When nothing is wanted nothing is read. -/
theorem scan_zero : b.scan 0 0 results true = .ok (.ok, 0, results) := by
  cases hs : b.getSortedIndex with
  | nil =>
    rw [scan, if_pos rfl, hs]
    exact if_pos rfl
  | cons first index =>
    have hfirst : b.getSortedIndex.head? = some first := by rw [hs]; rfl
    rw [scan_first hfirst, Nat.zero_sub, if_neg (lt_irrefl 0), List.take_zero, List.append_nil]

/-- **The second mode** when the bucket has as many keys as are wanted or fewer. -/
theorem scan_all (hle : b.entries ≤ len) : b.scan startKey len results false =
    .ok (if len - b.entries > 0 then .failed else .ok, len - b.entries, results ++ b.slots) := by
  rw [scan, if_neg Bool.false_ne_true, if_pos hle]
  rfl

/-- **The second mode** when it has more. -/
theorem scan_some (hlt : len < b.entries) : b.scan startKey len results false =
    .ok (.ok, 0, results ++ List.replicate len (b.records 0)) := by
  rw [scan, if_neg Bool.false_ne_true, if_neg (Nat.not_le_of_lt hlt)]

/-- A scan appends to the results. -/
theorem scan_appends (h : b.scan startKey len results false = .ok (ret, len', results')) :
    results <+: results' := by
  rcases Nat.lt_or_ge len b.entries with hlt | hle
  · rw [scan_some hlt] at h
    obtain ⟨-, h⟩ := Prod.mk.inj (Except.ok.inj h)
    exact (Prod.mk.inj h).2 ▸ List.prefix_append ..
  · rw [scan_all hle] at h
    obtain ⟨-, h⟩ := Prod.mk.inj (Except.ok.inj h)
    exact (Prod.mk.inj h).2 ▸ List.prefix_append ..

/-- The first pair it appends is that of the first slot. -/
theorem scan_appends_first (hpos : 0 < b.entries) (hlen : 0 < len)
    (h : b.scan startKey len results false = .ok (ret, len', results')) :
    results ++ [b.records 0] <+: results' := by
  rcases Nat.lt_or_ge len b.entries with hlt | hle
  · rw [scan_some hlt] at h
    obtain ⟨-, h⟩ := Prod.mk.inj (Except.ok.inj h)
    rw [← (Prod.mk.inj h).2, List.prefix_append_right_inj]
    obtain ⟨n, rfl⟩ := Nat.exists_eq_succ_of_ne_zero hlen.ne'
    exact ⟨List.replicate n (b.records 0), rfl⟩
  · rw [scan_all hle] at h
    obtain ⟨-, h⟩ := Prod.mk.inj (Except.ok.inj h)
    rw [← (Prod.mk.inj h).2, List.prefix_append_right_inj, slots]
    obtain ⟨n, hn⟩ := Nat.exists_eq_succ_of_ne_zero hpos.ne'
    rw [hn, List.range_succ_eq_map, List.map_cons]
    exact ⟨_, rfl⟩

theorem records_zero_mem_slots (hpos : 0 < b.entries) : b.records 0 ∈ b.slots :=
  List.mem_map_of_mem (List.mem_range.mpr hpos)

/-! ## When a bucket gives the next keys -/

theorem take_sorted_append (hle : len ≤ b.entries) : (b.sorted ++ X).take len = b.sorted.take len :=
  List.take_append_of_le_length (by rw [length_sorted]; exact hle)

/-- All slots, in the order of the keys. -/
theorem Distinct.slots_eq_take (h : b.Distinct) :
    b.slots = (b.sorted ++ X).take b.entries ↔ b.Ascending := by
  rw [take_sorted_append le_rfl, List.take_of_length_le (by rw [length_sorted]), h.ascending_iff]

/-- The first slot over and over gives at most one key. -/
theorem Distinct.replicate_eq_take (h : b.Distinct) (hpos : 0 < len) (hlt : len < b.entries) :
    List.replicate len (b.records 0) = (b.sorted ++ X).take len ↔ len = 1 ∧ b.LeastFirst := by
  rw [take_sorted_append hlt.le, h.leastFirst_iff (hpos.trans hlt)]
  constructor
  · intro heq
    have hnodup : (List.replicate len (b.records 0)).Nodup := by
      rw [heq]
      exact h.ascends_sorted.nodup.sublist (List.take_sublist ..)
    have hone : len ≤ 1 := List.nodup_replicate.mp hnodup
    obtain rfl : len = 1 := by omega
    refine ⟨rfl, ?_⟩
    cases hs : b.sorted with
    | nil =>
      rw [hs] at heq
      cases heq
    | cons p rest =>
      rw [hs] at heq
      rw [← (List.cons.inj heq).1, List.head?_cons]
  · rintro ⟨rfl, hhead⟩
    cases hs : b.sorted with
    | nil =>
      rw [hs] at hhead
      cases hhead
    | cons p rest =>
      rw [hs, List.head?_cons, Option.some.injEq] at hhead
      rw [List.take_succ_cons, List.take_zero, hhead]
      rfl

end UnSortBuncket

end NaliStore
