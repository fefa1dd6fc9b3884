import NaliStore.Refine

/-!
# Scans by size

`logdb::range_scan_by_size` of `src/include/logdb.h` over `alexoldb`, for 8-byte payloads and
without the thread pool. The index fills an array with keys and packed addresses; these are
turned into pointers, and the pointers into payloads.

The ALEX index is taken by what its scan gives. The adapter does not return the number of keys
that it has scanned, but the number it was asked for.
-/

namespace NaliStore

variable {cfg : Config}

/-- `alexol::Alex::range_scan_by_size`: the pairs it fills the array with. It returns their
number. -/
structure AlexScan where
  /-- the pairs found from a key on -/
  scan : Index → UInt64 → UInt32 → List (UInt64 × UInt64)
  /-- not more than asked for -/
  length_le : ∀ db key toScan, (scan db key toScan).length ≤ toScan.toNat
  /-- keys of the index with their packed addresses -/
  stored : ∀ db key toScan, ∀ kw ∈ scan db key toScan, db kw.1 = some kw.2
  /-- in ascending order -/
  ascends : ∀ db key toScan, (scan db key toScan).Pairwise fun a b => a.1 < b.1

/-- `alexoldb::range_scan_by_size`: the `int` it returns, and the array. An element that the
scan has not filled is as `new` has left it. -/
def AlexScan.rangeScanBySize (alex : AlexScan) (db : Index) (key : UInt64) (toScan : UInt32) :
    ℤ × (ℕ → UInt64 × UInt64) :=
  let found := alex.scan db key toScan
  (toScan.toInt32.toInt, fun i => found.getD i (0, 0))

namespace LogKV

/-- A round of the first loop: the packed address of a key becomes a pointer. -/
def absolute (s : LogKV cfg) (kw : UInt64 × UInt64) : Except Fault (UInt64 × Ptr cfg) := do
  let p ← s.getAddr (.ofAddrInfo kw.2) (cfg.xxh3 kw.1)
  .ok (kw.1, p)

/-- The second loop, from element `i` on: fill `result`. Also the pointers it dereferences. -/
def copyOut (s : LogKV cfg) : ℕ → List (UInt64 × Ptr cfg) → (ℕ → UInt64 × UInt64) →
    Except Fault ((ℕ → UInt64 × UInt64) × List (Ptr cfg))
  | _, [], result => .ok (result, [])
  | i, (key, p) :: tValues, result => do
    let payload ← s.readPayload p
    let (result, read) ← copyOut s (i + 1) tValues (Function.update result i (key, payload))
    .ok (result, p :: read)

end LogKV

namespace Logdb

/-- `range_scan_by_size`: what it returns, `result`, and the pointers it dereferences. -/
def rangeScanBySize (s : Logdb cfg) (alex : AlexScan) (key : UInt64) (toScan : UInt32)
    (result : ℕ → UInt64 × UInt64) :
    Except Fault (ℤ × (ℕ → UInt64 × UInt64) × List (Ptr cfg)) := do
  let (scanSize, tValues) := alex.rangeScanBySize s.db key toScan
  let tValues ← ((List.range scanSize.toNat).map tValues).mapM s.log.absolute
  let (result, read) ← s.log.copyOut 0 tValues result
  .ok (scanSize, result, read)

/-- A scan that finds the pairs `found` reports what it has read: their number, their keys, the
payloads of the records that the index maps the keys to, and no pointer is dereferenced that
is not one of the index. -/
structure Reports (s : Logdb cfg) (found : List (UInt64 × UInt64))
    (x : ℤ × (ℕ → UInt64 × UInt64) × List (Ptr cfg)) : Prop where
  /-- the number of keys -/
  size : x.1 = found.length
  /-- keys of the index, with the payloads of their records -/
  pair : ∀ i kw, found[i]? = some kw → s.db kw.1 = some kw.2 ∧
    ∃ σ, kw.2 = σ.word ∧ Target s.log kw.1 σ ∧ x.2.1 i = (kw.1, (s.log.recAt σ).value)
  /-- every pointer comes from the index -/
  read : ∀ p ∈ x.2.2, ∃ k w, s.db k = some w ∧ s.log.getAddr (.ofAddrInfo w) (cfg.xxh3 k) = .ok p

variable {s : Logdb cfg} {kw : UInt64 × UInt64}

/-! ## The loops -/

/-- The slot of a pair of the index. -/
theorem Inv.target_slotOf (h : s.Inv) (hdb : s.db kw.1 = some kw.2) :
    kw.2 = (cfg.slotOf kw.1 kw.2).word ∧ Target s.log kw.1 (cfg.slotOf kw.1 kw.2) := by
  obtain ⟨σ, hword, hσ⟩ := h.entry kw.1 kw.2 hdb
  rw [hword, h.slotOf_word hσ]
  exact ⟨rfl, hσ⟩

theorem Inv.getAddr_slotOf (h : s.Inv) (hdb : s.db kw.1 = some kw.2) :
    s.log.getAddr (.ofAddrInfo kw.2) (cfg.xxh3 kw.1) = .ok (cfg.slotOf kw.1 kw.2).ptr := by
  obtain ⟨σ, hword, hσ⟩ := h.entry kw.1 kw.2 hdb
  rw [hword, h.slotOf_word hσ]
  exact h.slotted.getAddr_eq hσ.live hσ.shard

/-- The pointers that the first loop makes of pairs of the index. -/
def pointers (cfg : Config) (found : List (UInt64 × UInt64)) : List (UInt64 × Ptr cfg) :=
  found.map fun kw => (kw.1, (cfg.slotOf kw.1 kw.2).ptr)

/-- **The first loop** on pairs of the index. -/
theorem Inv.mapM_absolute (h : s.Inv) (found : List (UInt64 × UInt64))
    (hfound : ∀ kw ∈ found, s.db kw.1 = some kw.2) :
    found.mapM s.log.absolute = .ok (pointers cfg found) := by
  induction found with
  | nil => rfl
  | cons kw found ih =>
    have hkw := h.getAddr_slotOf (hfound kw (List.mem_cons_self ..))
    rw [List.mapM_cons, LogKV.absolute, hkw, ih fun x hx => hfound x (List.mem_cons_of_mem _ hx)]
    rfl

/-- **The second loop** on pointers to records. -/
theorem Inv.exists_copyOut (h : s.Inv) (found : List (UInt64 × UInt64)) :
    ∀ (i : ℕ) (result : ℕ → UInt64 × UInt64), (∀ kw ∈ found, s.db kw.1 = some kw.2) →
    ∃ result', s.log.copyOut i (pointers cfg found) result =
        .ok (result', (pointers cfg found).map Prod.snd) ∧
      (∀ j < i, result' j = result j) ∧
      ∀ j kw, found[j]? = some kw →
        result' (i + j) = (kw.1, (s.log.recAt (cfg.slotOf kw.1 kw.2)).value) := by
  induction found with
  | nil =>
    intro i result _
    exact ⟨result, rfl, fun _ _ => rfl, fun j kw hj => (by cases hj)⟩
  | cons kw found ih =>
    intro i result hfound
    have hkw := (h.target_slotOf (hfound kw (List.mem_cons_self ..))).2
    have hread := h.slotted.readPayload_eq hkw.live
    obtain ⟨result', hcopy, hbelow, hpairs⟩ := ih (i + 1)
      (Function.update result i (kw.1, (s.log.recAt (cfg.slotOf kw.1 kw.2)).value))
      fun x hx => hfound x (List.mem_cons_of_mem _ hx)
    have hcons : pointers cfg (kw :: found) =
      (kw.1, (cfg.slotOf kw.1 kw.2).ptr) :: pointers cfg found := rfl
    refine ⟨result', ?_, fun j hj => ?_, fun j x hx => ?_⟩
    · rw [hcons, LogKV.copyOut, hread]
      simp only [bind, Except.bind, hcopy, List.map_cons]
    · rw [hbelow j (Nat.lt_succ_of_lt hj), Function.update_of_ne hj.ne]
    · cases j with
      | zero =>
        obtain rfl := Option.some.inj hx
        rw [Nat.add_zero, hbelow i (Nat.lt_succ_self i), Function.update_self]
      | succ j =>
        rw [← hpairs j x hx]
        congr 1
        omega

/-! ## The scan -/

theorem toInt_toInt32 (n : UInt32) :
    n.toInt32.toInt = if n.toNat < 2 ^ 31 then (n.toNat : ℤ) else n.toNat - 2 ^ 32 := by
  have hcond : n.toInt32.toInt =
      if 2 * n.toNat < 2 ^ 32 then (n.toNat : ℤ) else n.toNat - (2 ^ 32 : ℕ) :=
    BitVec.toInt_eq_toNat_cond n.toBitVec
  rw [hcond]
  split <;> split <;> omega

/-- The elements that a scan has filled. -/
theorem map_getD_range (found : List (UInt64 × UInt64)) :
    (List.range found.length).map (fun i => found.getD i (0, 0)) = found := by
  refine List.ext_getElem (by simp) fun i hi hi' => ?_
  simp [hi']

/-- A scan with as many keys as asked for. -/
theorem Inv.reports_of_enough (h : s.Inv) (alex : AlexScan) (key : UInt64) (toScan : UInt32)
    (result : ℕ → UInt64 × UInt64) (hint : toScan.toNat < 2 ^ 31)
    (henough : (alex.scan s.db key toScan).length = toScan.toNat) :
    ∃ x, s.rangeScanBySize alex key toScan result = .ok x ∧
      s.Reports (alex.scan s.db key toScan) x := by
  set found := alex.scan s.db key toScan with hfound
  have hstored : ∀ kw ∈ found, s.db kw.1 = some kw.2 := alex.stored s.db key toScan
  have hsize : toScan.toInt32.toInt = found.length := by
    rw [toInt_toInt32, if_pos hint, henough]
  obtain ⟨result', hcopy, -, hpairs⟩ := h.exists_copyOut found 0 result hstored
  have hpointers := h.mapM_absolute found hstored
  refine ⟨((found.length : ℤ), result', (pointers cfg found).map Prod.snd), ?_,
    ⟨rfl, fun i kw hi => ?_, fun p hp => ?_⟩⟩
  · rw [rangeScanBySize, AlexScan.rangeScanBySize]
    simp only [← hfound, hsize, Int.toNat_natCast, map_getD_range, hpointers, bind, Except.bind,
      hcopy]
  · have hdb := hstored kw (List.mem_of_getElem? hi)
    obtain ⟨hword, hσ⟩ := h.target_slotOf hdb
    refine ⟨hdb, _, hword, hσ, ?_⟩
    rw [← hpairs i kw hi, Nat.zero_add]
  · rw [pointers, List.map_map] at hp
    obtain ⟨kw, hkw, rfl⟩ := List.mem_map.mp hp
    exact ⟨kw.1, kw.2, hstored kw hkw, h.getAddr_slotOf (hstored kw hkw)⟩

/-- **A scan by size reports what it has read** exactly when the index has as many keys from
the start key on as were asked for, and their number is an `int`. The store is any that has the
invariant, as every reachable one does. -/
theorem rangeScanBySize_reports_iff (h : s.Inv) (alex : AlexScan) (key : UInt64) (toScan : UInt32)
    (result : ℕ → UInt64 × UInt64) :
    (∃ x, s.rangeScanBySize alex key toScan result = .ok x ∧
      s.Reports (alex.scan s.db key toScan) x) ↔
    (alex.scan s.db key toScan).length = toScan.toNat ∧ toScan.toNat < 2 ^ 31 := by
  constructor
  · rintro ⟨x, hscan, hx⟩
    have hle := alex.length_le s.db key toScan
    -- what is returned is what was asked for, as an `int`
    have hsize : x.1 = toScan.toInt32.toInt := by
      obtain ⟨tValues, -, hscan⟩ := Runs.bind_eq_ok hscan
      obtain ⟨y, -, hscan⟩ := Runs.bind_eq_ok hscan
      rw [← Except.ok.inj hscan]
    have hlt := UInt32.toNat_lt toScan
    rw [hx.size, toInt_toInt32] at hsize
    split at hsize <;> omega
  · rintro ⟨henough, hint⟩
    exact h.reports_of_enough alex key toScan result hint henough

/-- The scan of an index that has no key above the start key. -/
def scanHere : AlexScan where
  scan db key toScan := ((db key).toList.map fun w => (key, w)).take toScan.toNat
  length_le db key toScan := by
    rw [List.length_take]
    exact Nat.min_le_left ..
  stored db key toScan kw hkw := by
    obtain ⟨w, hw, rfl⟩ := List.mem_map.mp (List.mem_of_mem_take hkw)
    exact Option.mem_toList.mp hw
  ascends db key toScan := by
    refine List.Pairwise.sublist (List.take_sublist ..) ?_
    cases db key with
    | none => exact .nil
    | some w => exact List.pairwise_singleton _ _

/-- One key is asked for, and there. -/
theorem rangeScanBySize_reports_one : ∃ s : Logdb oneShard, s.Inv ∧ s.abs 5 = some 1 ∧
    ∃ x, s.rangeScanBySize scanHere 5 1 (fun _ => (0, 0)) = .ok x ∧
      s.Reports (scanHere.scan s.db 5 1) x := by
  obtain ⟨s, -, hinv, habs, -⟩ :=
    exec_eq (fitsPages_of_length (by decide) : FitsPages oneShard [⟨0, .insert 5 1⟩])
  have hfive : s.abs 5 = some 1 := by
    rw [habs]
    rfl
  refine ⟨s, hinv, hfive, (rangeScanBySize_reports_iff hinv scanHere 5 1 _).mpr ⟨?_, by decide⟩⟩
  have hsome := isSome_abs s 5
  rw [hfive] at hsome
  obtain ⟨w, hw⟩ := Option.isSome_iff_exists.mp hsome.symm
  simp [scanHere, hw]

/-- Of an empty store one key is asked for: the scan finds none and returns 1, with the first
bytes of a log as the payload of key 0. -/
theorem rangeScanBySize_of_empty : (fresh oneShard).Reachable ∧
    scanHere.scan (fresh oneShard).db 5 1 = [] ∧
    ∃ x, (fresh oneShard).rangeScanBySize scanHere 5 1 (fun _ => (0, 0)) = .ok x ∧
      x.1 = 1 ∧ x.2.1 0 = (0, uint64Max) ∧
      ¬ (fresh oneShard).Reports (scanHere.scan (fresh oneShard).db 5 1) x := by
  refine ⟨⟨[], [], rfl⟩, rfl, _, rfl, rfl, ?_, ?_⟩
  · decide +kernel
  · intro hx
    cases hx.size

end Logdb

end NaliStore
