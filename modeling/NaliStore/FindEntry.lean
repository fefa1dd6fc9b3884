import NaliStore.Group
import NaliStore.Lib.CInt

/-!
# Finding an entry with the arithmetic of the code

`find_entry` of a group as the code computes it: positions are `int`s whose overflow is a fault,
and a read of `entry_space` outside the array is a fault too. `Group.findEntry` is the same
search with natural numbers. The two agree unless `bound` overflows: it is doubled until it is
past the end of the array or past the key, and from `2 ^ 30` it cannot be doubled. That takes a
group with more than `2 ^ 30` B entries and a guess that is more than `2 ^ 30` B entries off.
-/

namespace NaliStore

open Routing Runs

/-- What stops a search. -/
inductive SearchFault where
  /-- a read outside the array -/
  | outOfBounds
  /-- an `int` that overflows -/
  | overflow
  /-- a loop that has not ended -/
  | diverges
  deriving DecidableEq, Repr

namespace FindEntry

/-- The value of an expression of type `int`. -/
def int (x : ℤ) : Except SearchFault ℤ := CInt.int .overflow x

/-- `entry_space[i].entry_key` -/
def entryKeyAt (g : Group) (i : ℤ) : Except SearchFault UInt64 :=
  if 0 ≤ i then
    match g.entrySpace[i.toNat]? with
    | some b => .ok b.entryKey
    | none => .error .outOfBounds
  else .error .outOfBounds

/-- `while (bound < size && more(bound)) bound *= 2;` with a limit on the rounds. -/
def double (more : ℤ → Except SearchFault Bool) (size : ℤ) : ℕ → ℤ → Except SearchFault ℤ
  | 0, _ => .error .diverges
  | fuel + 1, bound =>
    if bound < size then do
      if ← more bound then do
        let bound ← int (bound * 2)
        double more size fuel bound
      else .ok bound
    else .ok bound

/-- `linear_search_upper_bound`, with a limit on the rounds. -/
def linearSearchUpperBound (g : Group) (key : UInt64) (r : ℤ) : ℕ → ℤ → Except SearchFault ℤ
  | 0, _ => .error .diverges
  | fuel + 1, l =>
    if l < r then do
      if (← entryKeyAt g l) ≤ key then do
        let l ← int (l + 1)
        linearSearchUpperBound g key r fuel l
      else .ok l
    else .ok l

/-- `binary_search_upper_bound`, with a limit on the rounds. -/
def binarySearchUpperBound (g : Group) (key : UInt64) : ℕ → ℤ → ℤ → Except SearchFault ℤ
  | 0, _, _ => .error .diverges
  | fuel + 1, l, r =>
    if l < r then do
      let width ← int (r - l)
      let mid ← int (l + width.tdiv 2)
      if (← entryKeyAt g mid) ≤ key then do
        let l ← int (mid + 1)
        binarySearchUpperBound g key fuel l r
      else binarySearchUpperBound g key fuel l mid
    else .ok l

/-- `entry_space[m - bound].entry_key > key` -/
def below (g : Group) (m : ℤ) (key : UInt64) (bound : ℤ) : Except SearchFault Bool := do
  let i ← int (m - bound)
  let k ← entryKeyAt g i
  .ok (k > key)

/-- `entry_space[m + bound].entry_key <= key` -/
def above (g : Group) (m : ℤ) (key : UInt64) (bound : ℤ) : Except SearchFault Bool := do
  let i ← int (m + bound)
  let k ← entryKeyAt g i
  .ok (k ≤ key)

/-- The first part of `exponential_search_upper_bound`: the range `[l, r)`. -/
def exponentialRange (g : Group) (fuel : ℕ) (m : ℤ) (key : UInt64) : Except SearchFault (ℤ × ℤ) := do
  if (← entryKeyAt g m) > key then do
    -- `size` is `m`
    let bound ← double (below g m key) m fuel 1
    let l ← int (m - min bound m)
    let r ← int (m - bound.tdiv 2)
    .ok (l, r)
  else do
    let size ← int (g.nrEntries - m)
    let bound ← double (above g m key) size fuel 1
    let l ← int (m + bound.tdiv 2)
    let r ← int (m + min bound size)
    .ok (l, r)

/-- `exponential_search_upper_bound` -/
def exponentialSearchUpperBound (g : Group) (fuel : ℕ) (m : ℤ) (key : UInt64) :
    Except SearchFault ℤ := do
  let (l, r) ← exponentialRange g fuel m key
  let width ← int (r - l)
  if width < 6 then do
    let i ← linearSearchUpperBound g key r fuel l
    let i ← int (i - 1)
    .ok (max i 0)
  else do
    let i ← binarySearchUpperBound g key fuel l r
    let i ← int (i - 1)
    .ok (max i 0)

/-- `find_entry`, with a limit on the rounds of each of its loops -/
def findEntry (g : Group) (fuel : ℕ) (key : UInt64) : Except SearchFault ℤ := do
  let m := (g.predict key).toInt
  let last ← int (g.nrEntries - 1)
  exponentialSearchUpperBound g fuel (min (max 0 m) last) key

/-- The greatest index with an entry key that is at most the key, or 0 when there is none. -/
def IsLast (g : Group) (key : UInt64) (i : ℕ) : Prop :=
  i < g.nrEntries ∧ (g.entryKey i ≤ key ∧ (∀ j < g.nrEntries, g.entryKey j ≤ key → j ≤ i) ∨
    i = 0 ∧ ∀ j < g.nrEntries, key < g.entryKey j)

/-- `find_entry` ends, without a read outside the array, and finds that index. -/
def Exact (g : Group) (key : UInt64) : Prop :=
  ∃ i rounds, IsLast g key i ∧ ∀ fuel, rounds ≤ fuel → findEntry g fuel key = .ok (i : ℤ)

/-- The clamped guess. -/
def start (g : Group) (key : UInt64) : ℕ :=
  (min (max 0 (g.predict key).toInt) (g.nrEntries - 1)).toNat

/-- The key is on the other side of the entry that is `2 ^ 30` away from the guess. -/
def TooFar (g : Group) (key : UInt64) : Prop :=
  let m := start g key
  if key < g.entryKey m then 2 ^ 30 < m ∧ key < g.entryKey (m - 2 ^ 30)
  else m + 2 ^ 30 < g.nrEntries ∧ g.entryKey (m + 2 ^ 30) ≤ key

/-! ## The loops -/

variable {g : Group} {key : UInt64}

theorem entryKeyAt_eq {i : ℕ} (hi : i < g.nrEntries) : entryKeyAt g (i : ℤ) = .ok (g.entryKey i) := by
  have hget : g.entrySpace[i]? = some (g.entrySpace.get ⟨i, hi⟩) := List.getElem?_eq_getElem hi
  rw [entryKeyAt, if_pos (Int.natCast_nonneg i), Int.toNat_natCast, hget, Group.entryKey_eq hget]

section Double

variable {more : ℤ → Except SearchFault Bool} {test : ℕ → Bool} {size : ℕ}
  (hmore : ∀ bound : ℕ, bound < size → more (bound : ℤ) = .ok (test bound))

theorem gallop_of_stop {n bound : ℕ} (hstop : bound < size → test bound = false) :
    gallop test size n bound = bound := by
  cases n with
  | zero => rfl
  | succ n =>
    have hend : ¬ (decide (bound < size) && test bound) = true := by
      rw [Bool.and_eq_true, decide_eq_true_eq]
      exact fun hgo => absurd hgo.2 (ne_true_of_eq_false (hstop hgo.1))
    rw [gallop, if_neg hend]

include hmore

/-- One round that goes on. -/
theorem double_of_lt {fuel bound : ℕ} (hlt : bound < size) (htest : test bound = true) :
    double more size (fuel + 1) (bound : ℤ) =
      int ((bound * 2 : ℕ) : ℤ) >>= double more size fuel := by
  rw [double, if_pos (Int.ofNat_lt.mpr hlt), hmore bound hlt, ok_bind, if_pos htest]
  push_cast
  rfl

theorem double_of_stop {fuel bound : ℕ} (hstop : bound < size → test bound = false) :
    double more size (fuel + 1) (bound : ℤ) = .ok (bound : ℤ) := by
  rw [double]
  split
  · rename_i hlt
    have hlt := Int.ofNat_lt.mp hlt
    rw [hmore bound hlt, ok_bind, if_neg (ne_true_of_eq_false (hstop hlt))]
  · rfl

/-- The loop that does not go on at `2 ^ 30` is the loop over the natural numbers. -/
theorem double_eq (hstop : 2 ^ 30 < size → test (2 ^ 30) = false) (d : ℕ) :
    ∀ j n fuel : ℕ, j + d = 30 → size ≤ 2 ^ j + n → d < fuel →
      double more size fuel ((2 ^ j : ℕ) : ℤ) = .ok (gallop test size n (2 ^ j) : ℕ) := by
  induction d with
  | zero =>
    intro j n fuel hj hn hfuel
    obtain ⟨fuel, rfl⟩ := Nat.exists_eq_succ_of_ne_zero hfuel.ne'
    obtain rfl : j = 30 := hj
    rw [double_of_stop hmore hstop, gallop_of_stop hstop]
  | succ d ih =>
    intro j n fuel hj hn hfuel
    obtain ⟨fuel, rfl⟩ := Nat.exists_eq_succ_of_ne_zero (Nat.ne_of_gt (Nat.zero_lt_of_lt hfuel))
    by_cases hgo : 2 ^ j < size ∧ test (2 ^ j) = true
    · obtain ⟨hlt, htest⟩ := hgo
      obtain ⟨n, rfl⟩ : ∃ n', n = n' + 1 := ⟨n - 1, by omega⟩
      have hpow : 2 ^ j * 2 = 2 ^ (j + 1) := (Nat.pow_succ ..).symm
      have hle : 2 ^ (j + 1) ≤ 2 ^ 30 := Nat.pow_le_pow_right (by decide) (by omega)
      have hpos : 0 < 2 ^ j := Nat.two_pow_pos j
      have hrest := ih (j + 1) n fuel (by omega) (by omega) (by omega)
      rw [double_of_lt hmore hlt htest, hpow, int, CInt.int_eq (by omega) (by omega), ok_bind,
        hrest, gallop,
        if_pos (by rw [htest, decide_eq_true hlt]; rfl), hpow]
    · have hend : 2 ^ j < size → test (2 ^ j) = false :=
        fun hlt => Bool.eq_false_iff.mpr fun htest => hgo ⟨hlt, htest⟩
      rw [double_of_stop hmore hend, gallop_of_stop hend]

/-- The loop that goes on at `2 ^ 30`. -/
theorem double_of_overflow (hgo : ∀ j ≤ 30, 2 ^ j < size ∧ test (2 ^ j) = true) (d : ℕ) :
    ∀ j fuel : ℕ, j + d = 30 → d < fuel →
      double more size fuel ((2 ^ j : ℕ) : ℤ) = .error .overflow := by
  induction d with
  | zero =>
    intro j fuel hj hfuel
    obtain ⟨fuel, rfl⟩ := Nat.exists_eq_succ_of_ne_zero hfuel.ne'
    obtain rfl : j = 30 := hj
    obtain ⟨hlt, htest⟩ := hgo 30 le_rfl
    have hover : (2 : ℤ) ^ 31 ≤ ((2 ^ 30 * 2 : ℕ) : ℤ) := by decide
    rw [double_of_lt hmore hlt htest, int, CInt.int_of_le hover]
    rfl
  | succ d ih =>
    intro j fuel hj hfuel
    obtain ⟨fuel, rfl⟩ := Nat.exists_eq_succ_of_ne_zero (Nat.ne_of_gt (Nat.zero_lt_of_lt hfuel))
    obtain ⟨hlt, htest⟩ := hgo j (by omega)
    have hpow : 2 ^ j * 2 = 2 ^ (j + 1) := (Nat.pow_succ ..).symm
    have hle : 2 ^ (j + 1) ≤ 2 ^ 30 := Nat.pow_le_pow_right (by decide) (by omega)
    rw [double_of_lt hmore hlt htest, hpow, int, CInt.int_eq (by omega) (by omega), ok_bind]
    exact ih (j + 1) fuel (by omega) (by omega)

end Double

section Searches

variable (hlen : g.nrEntries < 2 ^ 31)

include hlen

theorem linearSearchUpperBound_eq {r : ℕ} (hr : r ≤ g.nrEntries) (n : ℕ) :
    ∀ l fuel : ℕ, l + n = r → n < fuel →
      linearSearchUpperBound g key r fuel l = .ok (linearSearch g.entryKey key n l : ℕ) := by
  induction n with
  | zero =>
    intro l fuel hl hfuel
    obtain ⟨fuel, rfl⟩ := Nat.exists_eq_succ_of_ne_zero hfuel.ne'
    rw [linearSearchUpperBound, if_neg (by omega), linearSearch]
  | succ n ih =>
    intro l fuel hl hfuel
    obtain ⟨fuel, rfl⟩ := Nat.exists_eq_succ_of_ne_zero (Nat.ne_of_gt (Nat.zero_lt_of_lt hfuel))
    rw [linearSearchUpperBound, if_pos (by omega), entryKeyAt_eq (by omega), ok_bind, linearSearch]
    split
    · have hcast : (l : ℤ) + 1 = ((l + 1 : ℕ) : ℤ) := rfl
      rw [hcast, int, CInt.int_eq (by omega) (by omega), ok_bind]
      exact ih (l + 1) fuel (by omega) (by omega)
    · rfl

theorem binarySearchUpperBound_eq (n : ℕ) :
    ∀ l r fuel : ℕ, l ≤ r → r ≤ g.nrEntries → r - l ≤ n → n < fuel →
      binarySearchUpperBound g key fuel l r = .ok (binarySearch g.entryKey key n l r : ℕ) := by
  induction n with
  | zero =>
    intro l r fuel hl hr hn hfuel
    obtain ⟨fuel, rfl⟩ := Nat.exists_eq_succ_of_ne_zero hfuel.ne'
    rw [binarySearchUpperBound, if_neg (by omega), binarySearch]
  | succ n ih =>
    intro l r fuel hl hr hn hfuel
    obtain ⟨fuel, rfl⟩ := Nat.exists_eq_succ_of_ne_zero (Nat.ne_of_gt (Nat.zero_lt_of_lt hfuel))
    rw [binarySearchUpperBound, binarySearch]
    rcases Nat.lt_or_ge l r with hlt | hge
    · have hwidth : (r : ℤ) - l = ((r - l : ℕ) : ℤ) := (Int.ofNat_sub hl).symm
      have hmid : (l : ℤ) + ((r - l : ℕ) : ℤ).tdiv 2 = ((l + (r - l) / 2 : ℕ) : ℤ) := by
        rw [Int.natCast_add, Int.ofNat_tdiv]
        rfl
      have hnext : ((l + (r - l) / 2 : ℕ) : ℤ) + 1 = ((l + (r - l) / 2 + 1 : ℕ) : ℤ) := rfl
      rw [if_pos (Int.ofNat_lt.mpr hlt), if_pos hlt, hwidth,
        int, CInt.int_eq (by omega) (by omega), ok_bind, hmid,
        int, CInt.int_eq (by omega) (by omega), ok_bind, entryKeyAt_eq (by omega), ok_bind]
      dsimp only
      rcases le_or_gt (g.entryKey (l + (r - l) / 2)) key with hle | hgt
      · rw [if_pos hle, if_pos hle, hnext, int, CInt.int_eq (by omega) (by omega), ok_bind]
        exact ih (l + (r - l) / 2 + 1) r fuel (by omega) hr (by omega) (by omega)
      · rw [if_neg (not_le_of_gt hgt), if_neg (not_le_of_gt hgt)]
        exact ih l (l + (r - l) / 2) fuel (by omega) (by omega) (by omega) (by omega)
    · rw [if_neg (by omega), if_neg (Nat.not_lt.mpr hge)]

end Searches

/-! ## The range -/

section Range

variable {m : ℕ} (hlen : g.nrEntries < 2 ^ 31) (hm : m < g.nrEntries)

include hlen hm

theorem below_eq {bound : ℕ} (hlt : bound < m) :
    below g m key bound = .ok (decide (g.entryKey (m - bound) > key)) := by
  have hcast : (m : ℤ) - bound = ((m - bound : ℕ) : ℤ) := (Int.ofNat_sub hlt.le).symm
  rw [below, hcast, int, CInt.int_eq (by omega) (by omega), ok_bind, entryKeyAt_eq (by omega),
    ok_bind]

theorem above_eq {bound : ℕ} (hlt : bound < g.nrEntries - m) :
    above g m key bound = .ok (decide (g.entryKey (m + bound) ≤ key)) := by
  have hcast : (m : ℤ) + bound = ((m + bound : ℕ) : ℤ) := rfl
  rw [above, hcast, int, CInt.int_eq (by omega) (by omega), ok_bind, entryKeyAt_eq (by omega),
    ok_bind]

theorem exponentialRange_below (hgt : key < g.entryKey m)
    (hnear : ¬ (2 ^ 30 < m ∧ key < g.entryKey (m - 2 ^ 30))) {fuel : ℕ} (hfuel : 30 < fuel) :
    exponentialRange g fuel m key =
      .ok ((Routing.exponentialRange g.entryKey key g.nrEntries m).1,
        (Routing.exponentialRange g.entryKey key g.nrEntries m).2) := by
  have hstop : 2 ^ 30 < m → (fun d => decide (g.entryKey (m - d) > key)) (2 ^ 30) = false :=
    fun hlt => decide_eq_false fun hgo => hnear ⟨hlt, hgo⟩
  have hloop : double (below g m key) m fuel 1 =
      .ok (gallop (fun d => decide (g.entryKey (m - d) > key)) m m 1 : ℕ) :=
    double_eq (fun _ hlt => below_eq hlen hm hlt) hstop 30 0 m fuel rfl (by omega) hfuel
  obtain ⟨-, -, hhalf⟩ := gallop_spec (fun d => decide (g.entryKey (m - d) > key)) m m 1
    Nat.one_pos (by omega) (.inl rfl)
  have hrange : Routing.exponentialRange g.entryKey key g.nrEntries m =
      (m - min (gallop (fun d => decide (g.entryKey (m - d) > key)) m m 1) m,
        m - gallop (fun d => decide (g.entryKey (m - d) > key)) m m 1 / 2) := by
    rw [Routing.exponentialRange, if_pos hgt]
    -- the order of `UInt64` decides `<` in its own way
    congr!
  rw [hrange, exponentialRange, entryKeyAt_eq hm, ok_bind, if_pos hgt, hloop, ok_bind]
  generalize gallop (fun d => decide (g.entryKey (m - d) > key)) m m 1 = bound at hhalf
  have hl : (m : ℤ) - min (bound : ℤ) m = ((m - min bound m : ℕ) : ℤ) := by omega
  have hr : (m : ℤ) - (bound : ℤ).tdiv 2 = ((m - bound / 2 : ℕ) : ℤ) := by
    have hdiv : (bound : ℤ).tdiv 2 = ((bound / 2 : ℕ) : ℤ) := (Int.ofNat_tdiv bound 2).symm
    rw [hdiv]
    omega
  rw [hl, int, CInt.int_eq (by omega) (by omega), ok_bind, hr,
    int, CInt.int_eq (by omega) (by omega), ok_bind]

theorem exponentialRange_above (hle : ¬ key < g.entryKey m)
    (hnear : ¬ (m + 2 ^ 30 < g.nrEntries ∧ g.entryKey (m + 2 ^ 30) ≤ key)) {fuel : ℕ}
    (hfuel : 30 < fuel) :
    exponentialRange g fuel m key =
      .ok ((Routing.exponentialRange g.entryKey key g.nrEntries m).1,
        (Routing.exponentialRange g.entryKey key g.nrEntries m).2) := by
  have hstop : 2 ^ 30 < g.nrEntries - m →
      (fun d => decide (g.entryKey (m + d) ≤ key)) (2 ^ 30) = false :=
    fun hlt => decide_eq_false fun hgo => hnear ⟨by omega, hgo⟩
  have hloop : double (above g m key) (g.nrEntries - m : ℕ) fuel 1 = .ok (gallop
      (fun d => decide (g.entryKey (m + d) ≤ key)) (g.nrEntries - m) (g.nrEntries - m) 1 : ℕ) :=
    double_eq (fun _ hlt => above_eq hlen hm hlt) hstop 30 0 (g.nrEntries - m) fuel rfl (by omega) hfuel
  obtain ⟨-, -, hhalf⟩ := gallop_spec (fun d => decide (g.entryKey (m + d) ≤ key))
    (g.nrEntries - m) (g.nrEntries - m) 1 Nat.one_pos (by omega) (.inl rfl)
  have hsize : (g.nrEntries : ℤ) - m = ((g.nrEntries - m : ℕ) : ℤ) := (Int.ofNat_sub hm.le).symm
  have hrange : Routing.exponentialRange g.entryKey key g.nrEntries m =
      (m + gallop (fun d => decide (g.entryKey (m + d) ≤ key)) (g.nrEntries - m) (g.nrEntries - m) 1 / 2,
        m + min (gallop (fun d => decide (g.entryKey (m + d) ≤ key)) (g.nrEntries - m)
          (g.nrEntries - m) 1) (g.nrEntries - m)) := if_neg hle
  rw [hrange, exponentialRange, entryKeyAt_eq hm, ok_bind, if_neg hle, hsize,
    int, CInt.int_eq (by omega) (by omega), ok_bind, hloop, ok_bind]
  generalize gallop (fun d => decide (g.entryKey (m + d) ≤ key)) (g.nrEntries - m) (g.nrEntries - m) 1 =
    bound at hhalf
  have hl : (m : ℤ) + (bound : ℤ).tdiv 2 = ((m + bound / 2 : ℕ) : ℤ) := by
    have hdiv : (bound : ℤ).tdiv 2 = ((bound / 2 : ℕ) : ℤ) := (Int.ofNat_tdiv bound 2).symm
    rw [hdiv]
    rfl
  have hr : (m : ℤ) + min (bound : ℤ) ((g.nrEntries - m : ℕ) : ℤ) =
      ((m + min bound (g.nrEntries - m) : ℕ) : ℤ) := by omega
  rw [hl, int, CInt.int_eq (by omega) (by omega), ok_bind, hr,
    int, CInt.int_eq (by omega) (by omega), ok_bind]

/-- The range is found unless the guess is too far off. -/
theorem exponentialRange_eq (hnear : ¬ (if key < g.entryKey m then
      2 ^ 30 < m ∧ key < g.entryKey (m - 2 ^ 30)
      else m + 2 ^ 30 < g.nrEntries ∧ g.entryKey (m + 2 ^ 30) ≤ key)) {fuel : ℕ} (hfuel : 30 < fuel) :
    exponentialRange g fuel m key =
      .ok ((Routing.exponentialRange g.entryKey key g.nrEntries m).1,
        (Routing.exponentialRange g.entryKey key g.nrEntries m).2) := by
  split at hnear
  · rename_i hgt
    exact exponentialRange_below hlen hm hgt hnear hfuel
  · rename_i hle
    exact exponentialRange_above hlen hm hle hnear hfuel

/-- **`bound` overflows** when the guess is too far off. -/
theorem exponentialRange_of_far (hrise : Rising g.entryKey g.nrEntries)
    (hfar : if key < g.entryKey m then 2 ^ 30 < m ∧ key < g.entryKey (m - 2 ^ 30)
      else m + 2 ^ 30 < g.nrEntries ∧ g.entryKey (m + 2 ^ 30) ≤ key) {fuel : ℕ} (hfuel : 30 < fuel) :
    exponentialRange g fuel m key = .error .overflow := by
  have hpow : ∀ j ≤ 30, 2 ^ j ≤ 2 ^ 30 := fun j hj => Nat.pow_le_pow_right (by decide) hj
  split at hfar
  · rename_i hgt
    obtain ⟨hlt, hkey⟩ := hfar
    have hgo : ∀ j ≤ 30, 2 ^ j < m ∧ (fun d => decide (g.entryKey (m - d) > key)) (2 ^ j) = true := by
      intro j hj
      have hle := hpow j hj
      have hpos := Nat.two_pow_pos j
      exact ⟨by omega, decide_eq_true (hkey.trans_le (hrise _ _ (by omega) (by omega)))⟩
    have hloop : double (below g m key) m fuel 1 = .error .overflow :=
      double_of_overflow (fun _ hlt => below_eq hlen hm hlt) hgo 30 0 fuel rfl hfuel
    rw [exponentialRange, entryKeyAt_eq hm, ok_bind, if_pos hgt, hloop]
    rfl
  · rename_i hle
    obtain ⟨hlt, hkey⟩ := hfar
    have hgo : ∀ j ≤ 30, 2 ^ j < g.nrEntries - m ∧
        (fun d => decide (g.entryKey (m + d) ≤ key)) (2 ^ j) = true := by
      intro j hj
      have hle := hpow j hj
      exact ⟨by omega, decide_eq_true ((hrise _ _ (by omega) (by omega)).trans hkey)⟩
    have hloop : double (above g m key) (g.nrEntries - m : ℕ) fuel 1 = .error .overflow :=
      double_of_overflow (fun _ hlt => above_eq hlen hm hlt) hgo 30 0 fuel rfl hfuel
    have hsize : (g.nrEntries : ℤ) - m = ((g.nrEntries - m : ℕ) : ℤ) := (Int.ofNat_sub hm.le).symm
    rw [exponentialRange, entryKeyAt_eq hm, ok_bind, if_neg hle, hsize,
      int, CInt.int_eq (by omega) (by omega),
      ok_bind, hloop]
    rfl

end Range

/-! ## find_entry -/

section Found

variable (hpos : 1 ≤ g.nrEntries) (hlen : g.nrEntries < 2 ^ 31)

include hpos hlen

theorem start_lt (key : UInt64) : start g key < g.nrEntries := by
  rw [start]
  omega

theorem findEntry_unfold (fuel : ℕ) (key : UInt64) :
    findEntry g fuel key = exponentialSearchUpperBound g fuel (start g key) key := by
  have hstart : min (max 0 (g.predict key).toInt) ((g.nrEntries : ℤ) - 1) = (start g key : ℤ) := by
    rw [start]
    omega
  rw [findEntry, int, CInt.int_eq (by omega) (by omega), ok_bind, hstart]

/-- **The search of the code** is the search over the natural numbers, in whatever order the
entry keys are, unless the guess is too far off. -/
theorem findEntry_eq (hnear : ¬ TooFar g key) {fuel : ℕ} (hfuel : g.nrEntries + 30 < fuel) :
    findEntry g fuel key = .ok (g.findEntry key : ℕ) := by
  have hm := start_lt hpos hlen key
  obtain ⟨hlr, hrn⟩ := exponentialRange_le g.entryKey key hm
  have hfind : g.findEntry key = g.exponentialSearchUpperBound (start g key) key := rfl
  rw [findEntry_unfold hpos hlen, hfind, exponentialSearchUpperBound, Group.exponentialSearchUpperBound,
    exponentialRange_eq hlen hm hnear (by omega), ok_bind]
  generalize Routing.exponentialRange g.entryKey key g.nrEntries (start g key) = range at hlr hrn
  obtain ⟨l, r⟩ := range
  simp only at hlr hrn ⊢
  have hwidth : (r : ℤ) - l = ((r - l : ℕ) : ℤ) := (Int.ofNat_sub hlr).symm
  have hpred : ∀ i : ℕ, max ((i : ℤ) - 1) 0 = ((i - 1 : ℕ) : ℤ) := fun i => by omega
  rw [hwidth, int, CInt.int_eq (by omega) (by omega), ok_bind]
  rcases Nat.lt_or_ge (r - l) 6 with hshort | hlong
  · obtain ⟨-, hle, -⟩ := linearSearch_spec g.entryKey key (r - l) l
    rw [if_pos (by omega), if_pos hshort,
      linearSearchUpperBound_eq hlen hrn (r - l) l fuel (by omega) (by omega), ok_bind,
      int, CInt.int_eq (by omega) (by omega), ok_bind, hpred]
  · have hle := binarySearch_le g.entryKey key (r - l) l r hlr
    rw [if_neg (by omega), if_neg (Nat.not_lt.mpr hlong),
      binarySearchUpperBound_eq hlen (r - l) l r fuel hlr hrn le_rfl (by omega), ok_bind,
      int, CInt.int_eq (by omega) (by omega), ok_bind, hpred]

theorem findEntry_of_far (hrise : Rising g.entryKey g.nrEntries) (hfar : TooFar g key) {fuel : ℕ}
    (hfuel : 30 < fuel) : findEntry g fuel key = .error .overflow := by
  rw [findEntry_unfold hpos hlen, exponentialSearchUpperBound,
    exponentialRange_of_far hlen (start_lt hpos hlen key) hrise hfar hfuel]
  rfl

omit hlen in
theorem isLast_findEntry (hrise : Rising g.entryKey g.nrEntries) (key : UInt64) :
    IsLast g key (g.findEntry key) := by
  obtain ⟨i, hub, hfind⟩ := Group.findEntry_of_rising hpos hrise key
  have hle := hub.le
  rw [hfind]
  refine ⟨by omega, ?_⟩
  rcases Nat.eq_zero_or_pos i with rfl | hi
  · exact .inr ⟨rfl, fun j hj => hub.above j (Nat.zero_le j) hj⟩
  · refine .inl ⟨hub.below (i - 1) (Nat.zero_le _) (by omega), fun j hj hjk => ?_⟩
    by_contra hlt
    exact absurd hjk (not_le_of_gt (hub.above j (by omega) hj))

theorem not_exact_of_far (hrise : Rising g.entryKey g.nrEntries) (hfar : TooFar g key) :
    ¬ Exact g key := by
  rintro ⟨i, rounds, -, hfind⟩
  have hfound := hfind (max rounds 31) (Nat.le_max_left ..)
  rw [findEntry_of_far hpos hlen hrise hfar (by omega)] at hfound
  cases hfound

end Found

/-- **`find_entry` is exact whatever the model predicts**, unless the key is more than `2 ^ 30`
entries away from where the model has guessed it: then `bound` overflows. -/
theorem exact_iff_not_tooFar (g : Group) (hpos : 1 ≤ g.nrEntries) (hlen : g.nrEntries < 2 ^ 31)
    (hrise : Rising g.entryKey g.nrEntries) (key : UInt64) : Exact g key ↔ ¬ TooFar g key := by
  constructor
  · exact fun hexact hfar => not_exact_of_far hpos hlen hrise hfar hexact
  · intro hnear
    exact ⟨g.findEntry key, g.nrEntries + 31, isLast_findEntry hpos hrise key,
      fun fuel hfuel => findEntry_eq hpos hlen hnear (by omega)⟩

/-- Three entries, of which two have the same key, and a guess before the first. -/
theorem exact_three :
    let b : ℕ → PointerBEntry := fun k => .ofEEntry ⟨⟨.ofNat k, 0⟩, 0, 8, 1⟩
    let g : Group := ⟨[b 10, b 20, b 20], 3, 0, fun _ => -5⟩
    1 ≤ g.nrEntries ∧ g.nrEntries < 2 ^ 31 ∧ Rising g.entryKey g.nrEntries ∧ Exact g 25 := by
  intro b g
  have hrise : Rising g.entryKey g.nrEntries := by
    intro i j hij hj
    have hall : ∀ j < 3, ∀ i ≤ j, g.entryKey i ≤ g.entryKey j := by decide
    exact hall j hj i hij
  have hnear : ¬ TooFar g 25 := by
    rintro hfar
    have hstart : start g 25 = 0 := by decide
    rw [TooFar, hstart] at hfar
    split at hfar
    · exact absurd hfar.1 (by decide)
    · exact absurd hfar.1 (by decide)
  exact ⟨by decide, by decide, hrise,
    (exact_iff_not_tooFar g (by decide) (by decide) hrise 25).mpr hnear⟩

/-- From the first of `2 ^ 30 + 1` entries with the key 0 it is too far to the last. -/
theorem tooFar_of_flat (hnr : g.nrEntries = 2 ^ 30 + 1) (hkey : ∀ i, g.entryKey i = 0)
    (hguess : (g.predict key).toInt = 0) : TooFar g key := by
  have hstart : start g key = 0 := by
    rw [start, hguess]
    omega
  have hle : ¬ key < 0 := not_lt_of_ge (UInt64.zero_le)
  rw [TooFar, hstart]
  simp only [hkey, if_neg hle]
  exact ⟨by omega, UInt64.zero_le⟩

/-- A group of `2 ^ 30 + 1` entries with the same key, and a guess at the first: `bound` is
doubled at the last entry. -/
theorem bound_overflows :
    let b : PointerBEntry := .ofEEntry ⟨⟨0, 0⟩, 0, 8, 1⟩
    let g : Group := ⟨List.replicate (2 ^ 30 + 1) b, 2 ^ 30 + 1, 0, fun _ => 0⟩
    1 ≤ g.nrEntries ∧ g.nrEntries < 2 ^ 31 ∧ Rising g.entryKey g.nrEntries ∧
      (∀ fuel, 30 < fuel → findEntry g fuel 5 = .error .overflow) ∧ ¬ Exact g 5 := by
  intro b g
  have hnr : g.nrEntries = 2 ^ 30 + 1 := List.length_replicate
  have hkey : ∀ i, g.entryKey i = 0 := by
    intro i
    rw [Group.entryKey, List.getElem?_replicate]
    split <;> rfl
  have hguess : (g.predict 5).toInt = 0 := rfl
  clear_value g
  have hpos : 1 ≤ g.nrEntries := by omega
  have hlen : g.nrEntries < 2 ^ 31 := by omega
  have hrise : Rising g.entryKey g.nrEntries := fun i j _ _ => by rw [hkey, hkey]
  have hfar : TooFar g 5 := tooFar_of_flat hnr hkey hguess
  exact ⟨hpos, hlen, hrise, fun fuel hfuel => findEntry_of_far hpos hlen hrise hfar hfuel,
    not_exact_of_far hpos hlen hrise hfar⟩

end FindEntry

end NaliStore
