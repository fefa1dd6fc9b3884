import Mathlib.Data.Nat.Bits
import NaliStore.Lib.CInt
import NaliStore.Lib.FirstFrom
import NaliStore.Lib.Runs

/-!
# Bitmaps

The searches of `src/include/util/bitops.h` in a bitmap of 32-bit words. An `unsigned int` is a
`BitVec 32`, an `unsigned long` is a `BitVec 64`, and an `int` is an integer whose overflow is
a fault. The memory is the list of the words, and a read behind its end is a fault too.

`find_first_zero_bit` never looks at the second word: the word it has loaded is widened to 64
bits before it is complemented, so the complement is not zero even when all bits of the word
are set. `find_next_bit` rounds up to the next word in an `int`, which has no room for that in
the last word an `int` can number.
-/

namespace NaliStore

open Runs Search

/-- What stops a call. -/
inductive BitFault where
  /-- a read outside the bitmap -/
  | outOfBounds
  /-- an `int` that overflows -/
  | overflow
  deriving DecidableEq, Repr

namespace Bitops

/-- The value of an expression of type `int`. -/
def int (x : ℤ) : Except BitFault ℤ := CInt.int .overflow x

/-- The words from `p` on. -/
def wordsFrom (addr : List (BitVec 32)) (p : ℤ) : Except BitFault (List (BitVec 32)) :=
  if 0 ≤ p then .ok (addr.drop p.toNat) else .error .outOfBounds

/-- `test_bit` -/
def testBit (nr : ℕ) (addr : List (BitVec 32)) : Except BitFault ℕ :=
  match addr[nr >>> 5]? with
  | some word => .ok (1 &&& (word >>> (nr &&& 31)).toNat)
  | none => .error .outOfBounds

theorem and_one_eq_zero {num : BitVec 32} : num &&& 1 = 0 ↔ num.toNat % 2 = 0 := by
  have hone : (1 : BitVec 32).toNat = 1 := rfl
  rw [← BitVec.toNat_inj, BitVec.toNat_and, hone, Nat.and_one_is_mod]
  exact Iff.rfl

theorem ushiftRight_ne_zero {num : BitVec 32} (hnum : num ≠ 0) (hbit : num &&& 1 = 0) :
    num >>> 1 ≠ 0 := by
  rw [and_one_eq_zero] at hbit
  bv_omega

/-- The loop of `find_bit`, which ends because some bit is set. -/
def findBitLoop (num : BitVec 32) (hnum : num ≠ 0) (offset : ℕ) : ℕ :=
  if hbit : num &&& 1 = 0 then
    findBitLoop (num >>> 1) (ushiftRight_ne_zero hnum hbit) (offset + 1)
  else offset
termination_by num.toNat
decreasing_by
  bv_omega

/-- `find_bit` -/
def findBit (num : BitVec 32) : ℕ := if hnum : num = 0 then 32 else findBitLoop num hnum 0

/-- The loop of `find_first_bit` and `find_first_zero_bit` over the words from `p` on: the word
it stops at, if it is not the last one, and the number of words that have been read. -/
def findWord (skip : BitVec 64 → Bool) : List (BitVec 32) → BitVec 32 → ℕ →
    Except BitFault (Option (BitVec 64) × ℕ)
  | [], _, _ => .error .outOfBounds
  | word :: p, words, read =>
    let num := word.setWidth 64
    if skip num then
      let words := words - 1
      if words = 0 then .ok (none, read + 1) else findWord skip p words (read + 1)
    else .ok (some num, read + 1)

/-- `find_first_bit` and `find_first_zero_bit`, which differ in the words that are skipped and
in the bits that are searched in the word they stop at. The result is an `int`, but it is
clamped as an `unsigned`. -/
def findFirst (skip : BitVec 64 → Bool) (bits : BitVec 64 → BitVec 32) (vaddr : List (BitVec 32))
    (size : BitVec 32) : Except BitFault (BitVec 32) :=
  if size = 0 then .ok 0
  else do
    let words := (size + 31) >>> 5
    let (num, read) ← findWord skip vaddr words 0
    let res := match num with
      | some num => findBit (bits num)
      | none => 32
    let res := BitVec.ofNat 32 (res + (4 * read - 4) * 8)
    .ok (if res < size then res else size)

/-- `find_first_bit` -/
def findFirstBit (vaddr : List (BitVec 32)) (size : BitVec 32) : Except BitFault (BitVec 32) :=
  findFirst (fun num => num == 0) (fun num => (num &&& -num).setWidth 32) vaddr size

/-- `find_first_zero_bit` -/
def findFirstZeroBit (vaddr : List (BitVec 32)) (size : BitVec 32) : Except BitFault (BitVec 32) :=
  findFirst (fun num => ~~~num == 0) (fun num => (~~~num).setWidth 32) vaddr size

/-- The first part of `find_next_bit`: the first bit of the word from `bit` on, or 32. -/
def findInWord (word : BitVec 32) (bit : ℕ) : ℕ :=
  let num := word &&& (BitVec.allOnes 32 <<< bit)
  let tmp := num &&& -num
  if tmp = 0 then 32 else findBit tmp

/-- The end of `find_next_bit`: the words from `p` on, whose first bit has the number
`offset`. -/
def findRest (addr : List (BitVec 32)) (size offset p : ℤ) : Except BitFault ℤ := do
  let rest ← wordsFrom addr p
  let left ← int (size - offset)
  let res ← findFirstBit rest (BitVec.ofInt 32 left)
  int (offset + res.toInt)

/-- `find_next_bit` -/
def findNextBit (addr : List (BitVec 32)) (size offset : ℤ) : Except BitFault ℤ := do
  let bit := offset % 32
  let p := offset / 32
  if offset ≥ size then .ok size
  else if bit ≠ 0 then do
    let word ← (← wordsFrom addr p).head?.elim (.error .outOfBounds) .ok
    let res := findInWord word bit.toNat
    let offset ← int (offset - bit)
    if res < 32 then do
      let offset ← int (offset + res)
      .ok (if offset < size then offset else size)
    else do
      let offset ← int (offset + 32)
      if offset ≥ size then .ok size else findRest addr size offset (p + 1)
  else findRest addr size offset p

/-! ## The lowest bit of a word -/

/-- The lowest bit that is set. -/
structure Lowest {w : ℕ} (num : BitVec w) (t : ℕ) : Prop where
  /-- it is set -/
  set : num.getLsbD t = true
  /-- those below it are not -/
  clear : ∀ i < t, num.getLsbD i = false

theorem findBitLoop_spec (num : BitVec 32) (hnum : num ≠ 0) (offset : ℕ) :
    ∃ t, findBitLoop num hnum offset = offset + t ∧ Lowest num t := by
  fun_induction findBitLoop num hnum offset with
  | case1 num hnum offset hbit ih =>
    obtain ⟨t, heq, hlow⟩ := ih
    have hshift : ∀ i, (num >>> 1).getLsbD i = num.getLsbD (i + 1) := by
      intro i
      rw [BitVec.getLsbD_ushiftRight, Nat.add_comm]
    refine ⟨t + 1, by rw [heq]; omega, ?_, fun i hi => ?_⟩
    · rw [← hshift]
      exact hlow.set
    · cases i with
      | zero =>
        rw [and_one_eq_zero] at hbit
        rw [BitVec.getLsbD, Nat.testBit_zero, hbit]
        rfl
      | succ i =>
        rw [← hshift]
        exact hlow.clear i (Nat.lt_of_succ_lt_succ hi)
  | case2 num hnum offset hbit =>
    rw [and_one_eq_zero] at hbit
    refine ⟨0, rfl, ?_, fun i hi => absurd hi (Nat.not_lt_zero i)⟩
    rw [BitVec.getLsbD, Nat.testBit_zero, decide_eq_true_eq]
    omega

theorem findBit_zero : findBit 0 = 32 := dif_pos rfl

theorem lowest_findBit {num : BitVec 32} (hnum : num ≠ 0) : Lowest num (findBit num) := by
  obtain ⟨t, heq, hlow⟩ := findBitLoop_spec num hnum 0
  rw [findBit, dif_neg hnum, heq, Nat.zero_add]
  exact hlow

theorem findBit_eq {num : BitVec 32} {t : ℕ} (h : Lowest num t) : findBit num = t := by
  have hnum : num ≠ 0 := by
    rintro rfl
    exact absurd h.set (by simp)
  have hlow := lowest_findBit hnum
  rcases Nat.lt_trichotomy (findBit num) t with hlt | heq | hgt
  · exact absurd hlow.set (by rw [h.clear _ hlt]; decide)
  · exact heq
  · exact absurd h.set (by rw [hlow.clear _ hgt]; decide)

/-- `num & -num` has the lowest bit of `num` and no other. -/
theorem getLsbD_and_neg {w : ℕ} (num : BitVec w) (i : ℕ) :
    (num &&& -num).getLsbD i = true ↔ Lowest num i := by
  rw [BitVec.getLsbD_and, BitVec.getLsbD_neg]
  cases hset : num.getLsbD i with
  | false => exact iff_of_false (by simp) fun h => absurd h.set (by rw [hset]; decide)
  | true =>
    have hlt : i < w := BitVec.lt_of_getLsbD hset
    simp only [Bool.true_and, hlt, decide_true, Bool.true_xor, Bool.not_eq_true', decide_eq_false_iff_not,
      not_exists, not_and, Bool.not_eq_true]
    exact ⟨fun hclear => ⟨hset, hclear⟩, fun hlow => hlow.clear⟩

theorem setWidth_eq_zero {word : BitVec 32} : word.setWidth 64 = 0 ↔ word = 0 := by
  constructor
  · intro hzero
    have hback := congrArg (BitVec.setWidth 32) hzero
    rwa [BitVec.setWidth_setWidth_of_le _ (by decide), BitVec.setWidth_eq] at hback
  · rintro rfl
    rfl

theorem lowest_and_neg {w : ℕ} {num : BitVec w} {t : ℕ} (h : Lowest num t) :
    Lowest (num &&& -num) t := by
  refine ⟨(getLsbD_and_neg num t).mpr h, fun i hi => ?_⟩
  rw [BitVec.getLsbD_and, h.clear i hi, Bool.false_and]

theorem Lowest.setWidth {w w' t : ℕ} {num : BitVec w} (h : Lowest num t) (ht : t < w') :
    Lowest (num.setWidth w') t := by
  refine ⟨?_, fun i hi => ?_⟩
  · rw [BitVec.getLsbD_setWidth, h.set, decide_eq_true ht, Bool.true_and]
  · rw [BitVec.getLsbD_setWidth, h.clear i hi, Bool.and_false]

theorem and_neg_eq_zero {num : BitVec 32} : num &&& -num = 0 ↔ num = 0 := by
  constructor
  · intro hzero
    by_contra hnum
    have hset := (lowest_and_neg (lowest_findBit hnum)).set
    rw [hzero] at hset
    exact absurd hset (by simp)
  · rintro rfl
    rfl

/-! ## The bits of a bitmap -/

/-- The bits of a bitmap; those behind its end count as clear. -/
def bitAt (addr : List (BitVec 32)) (i : ℕ) : Bool := (addr[i / 32]?.getD 0).getLsbD (i % 32)

/-- `test_bit` reads the bits of the bitmap. -/
theorem testBit_eq {addr : List (BitVec 32)} {i : ℕ} (hi : i < 32 * addr.length) :
    testBit i addr = .ok (bitAt addr i).toNat := by
  have hlt : i / 32 < addr.length := by omega
  have hword : i >>> 5 = i / 32 := Nat.shiftRight_eq_div_pow i 5
  have hbit : i &&& 31 = i % 32 := Nat.and_two_pow_sub_one_eq_mod i 5
  rw [testBit, bitAt, hword, hbit, List.getElem?_eq_getElem hlt, Option.getD_some,
    BitVec.getLsbD, Nat.toNat_testBit]
  simp only [BitVec.toNat_ushiftRight, Nat.shiftRight_eq_div_pow, Nat.one_and_eq_mod_two]

/-- The bits of a word of the bitmap. -/
theorem bitAt_of_getElem? {addr : List (BitVec 32)} {k i : ℕ} {word : BitVec 32}
    (hk : addr[k]? = some word) (hi : i < 32) : bitAt addr (32 * k + i) = word.getLsbD i := by
  have hword : (32 * k + i) / 32 = k := by omega
  have hbit : (32 * k + i) % 32 = i := by omega
  rw [bitAt, hword, hbit, hk, Option.getD_some]

theorem bitAt_drop {addr : List (BitVec 32)} (p i : ℕ) :
    bitAt (addr.drop p) i = bitAt addr (32 * p + i) := by
  have hword : (32 * p + i) / 32 = p + i / 32 := by omega
  have hbit : (32 * p + i) % 32 = i % 32 := by omega
  rw [bitAt, bitAt, List.getElem?_drop, hword, hbit]

theorem bitAt_of_zero {addr : List (BitVec 32)} {i : ℕ} (hi : addr[i / 32]? = some 0) :
    bitAt addr i = false := by
  rw [bitAt, hi, Option.getD_some]
  exact BitVec.getLsbD_zero

/-- The words that are skipped, and the one the loop stops at. -/
theorem findWord_spec (skip : BitVec 64 → Bool) (p : List (BitVec 32)) (read : ℕ)
    (hpos : 0 < p.length) (hlt : p.length < 2 ^ 32) :
    (findWord skip p (.ofNat 32 p.length) read = .ok (none, read + p.length) ∧
      ∀ word ∈ p, skip (word.setWidth 64) = true) ∨
    ∃ k word, findWord skip p (.ofNat 32 p.length) read = .ok (some (word.setWidth 64), read + k + 1) ∧
      p[k]? = some word ∧ skip (word.setWidth 64) = false ∧
      ∀ j w, j < k → p[j]? = some w → skip (w.setWidth 64) = true := by
  induction p generalizing read with
  | nil => exact absurd hpos (lt_irrefl 0)
  | cons word p ih =>
    cases hskip : skip (word.setWidth 64) with
    | false =>
      refine .inr ⟨0, word, ?_, rfl, hskip, fun j w hj => absurd hj (Nat.not_lt_zero j)⟩
      simp only [findWord, hskip, Bool.false_eq_true, if_false, Nat.add_zero]
    | true =>
      have hwords : BitVec.ofNat 32 (word :: p).length - 1 = BitVec.ofNat 32 p.length := by
        rw [List.length_cons, BitVec.ofNat_add]
        exact BitVec.add_sub_cancel _ _
      rcases Nat.eq_zero_or_pos p.length with hnil | hmore
      · left
        obtain rfl := List.eq_nil_of_length_eq_zero hnil
        refine ⟨?_, fun w hw => ?_⟩
        · simp only [findWord, hskip, if_true, hwords]
          rfl
        · rwa [List.mem_singleton.mp hw]
      · rw [List.length_cons] at hlt
        have hne : BitVec.ofNat 32 p.length ≠ 0 := by
          intro hzero
          have hmod := congrArg BitVec.toNat hzero
          rw [BitVec.toNat_ofNat, Nat.mod_eq_of_lt (by omega)] at hmod
          exact hmore.ne' hmod
        have hstep : findWord skip (word :: p) (.ofNat 32 (word :: p).length) read =
            findWord skip p (.ofNat 32 p.length) (read + 1) := by
          simp only [findWord, hskip, if_true, hwords, hne, if_false]
        rw [hstep]
        rcases ih (read + 1) hmore (by omega) with ⟨heq, hall⟩ | ⟨k, w, heq, hk, hw, hbefore⟩
        · left
          refine ⟨?_, fun x hx => ?_⟩
          · rw [heq, List.length_cons]
            congr 2
            omega
          · rcases List.mem_cons.mp hx with rfl | hx
            · exact hskip
            · exact hall x hx
        · right
          refine ⟨k + 1, w, ?_, hk, hw, fun j x hj hx => ?_⟩
          · rw [heq]
            congr 2
            omega
          · cases j with
            | zero =>
              obtain rfl := Option.some.inj hx
              exact hskip
            | succ j => exact hbefore j x (Nat.lt_of_succ_lt_succ hj) hx

/-! ## The first bit -/

section Clamp

variable {a b : ℕ} (ha : a < 2 ^ 32) (hb : b < 2 ^ 32)

include ha hb

theorem ofNat_lt_ofNat : BitVec.ofNat 32 a < BitVec.ofNat 32 b ↔ a < b := by
  rw [BitVec.lt_def, BitVec.toNat_ofNat, BitVec.toNat_ofNat, Nat.mod_eq_of_lt ha, Nat.mod_eq_of_lt hb]

/-- The result is clamped. -/
theorem clamp_ofNat : (if BitVec.ofNat 32 a < BitVec.ofNat 32 b then BitVec.ofNat 32 a
    else BitVec.ofNat 32 b) = BitVec.ofNat 32 (if a < b then a else b) := by
  by_cases hlt : a < b
  · rw [if_pos hlt, if_pos ((ofNat_lt_ofNat ha hb).mpr hlt)]
  · rw [if_neg hlt, if_neg fun h => hlt ((ofNat_lt_ofNat ha hb).mp h)]

end Clamp

/-- The number of words of a bitmap. -/
theorem words_eq {size : ℕ} (hsize : size ≤ 2 ^ 32 - 32) :
    (BitVec.ofNat 32 size + 31) >>> 5 = BitVec.ofNat 32 ((size + 31) / 32) := by
  have hconst : BitVec.toNat (31 : BitVec 32) = 31 := rfl
  rw [← BitVec.toNat_inj, BitVec.toNat_ushiftRight, BitVec.toNat_add, BitVec.toNat_ofNat,
    BitVec.toNat_ofNat, hconst, Nat.shiftRight_eq_div_pow]
  omega

/-- **`find_first_bit`** finds the first bit that is set. -/
theorem findFirstBit_spec (vaddr : List (BitVec 32)) (size : ℕ)
    (hlen : vaddr.length = (size + 31) / 32) (hsize : size ≤ 2 ^ 32 - 32) :
    ∃ r, findFirstBit vaddr (.ofNat 32 size) = .ok (.ofNat 32 r) ∧
      FirstFrom (fun i => bitAt vaddr i = true) size 0 r := by
  rcases Nat.eq_zero_or_pos size with rfl | hpos
  · exact ⟨0, rfl, .none fun i _ hi => absurd hi (Nat.not_lt_zero i)⟩
  have hne : BitVec.ofNat 32 size ≠ 0 := by
    intro hzero
    have hmod := congrArg BitVec.toNat hzero
    rw [BitVec.toNat_ofNat, Nat.mod_eq_of_lt (by omega)] at hmod
    exact hpos.ne' hmod
  rw [findFirstBit, findFirst, if_neg hne, words_eq hsize, ← hlen]
  rcases findWord_spec (fun num => num == 0) vaddr 0 (by omega) (by omega) with
    ⟨hword, hall⟩ | ⟨k, word, hword, hk, hstop, hbefore⟩
  · -- no bit is set
    refine ⟨size, ?_, .none fun i _ hi => ?_⟩
    · simp only [hword, bind, Except.bind]
      rw [clamp_ofNat (by omega) (by omega), if_neg (by omega)]
    · obtain ⟨w, hw⟩ : ∃ w, vaddr[i / 32]? = some w :=
        ⟨_, List.getElem?_eq_getElem (by omega)⟩
      obtain rfl := setWidth_eq_zero.mp (beq_iff_eq.mp (hall w (List.mem_of_getElem? hw)))
      rw [bitAt_of_zero hw]
      exact Bool.false_ne_true
  · obtain ⟨hkl, -⟩ := List.getElem?_eq_some_iff.mp hk
    have hlow : Lowest word (findBit word) := lowest_findBit fun hzero => by
      rw [hzero] at hstop
      cases hstop
    generalize findBit word = t at hlow
    have ht : t < 32 := BitVec.lt_of_getLsbD hlow.set
    have hbit : findBit ((word.setWidth 64 &&& -word.setWidth 64).setWidth 32) = t :=
      findBit_eq ((lowest_and_neg (hlow.setWidth (by omega))).setWidth ht)
    refine ⟨if 32 * k + t < size then 32 * k + t else size, ?_,
      .clamp (Nat.zero_le _) ?_ fun i _ hi => ?_⟩
    · have hres : t + (4 * (0 + k + 1) - 4) * 8 = 32 * k + t := by omega
      simp only [hword, bind, Except.bind, hbit, hres]
      rw [clamp_ofNat (by omega) (by omega)]
    · rw [bitAt_of_getElem? hk ht]
      exact hlow.set
    · rw [Bool.not_eq_true]
      rcases Nat.lt_or_ge i (32 * k) with hlt | hge
      · obtain ⟨w, hw⟩ : ∃ w, vaddr[i / 32]? = some w :=
          ⟨_, List.getElem?_eq_getElem (by omega)⟩
        obtain rfl := setWidth_eq_zero.mp (beq_iff_eq.mp (hbefore _ w (by omega) hw))
        exact bitAt_of_zero hw
      · obtain ⟨j, rfl⟩ := Nat.exists_eq_add_of_le hge
        rw [bitAt_of_getElem? hk (by omega)]
        exact hlow.clear j (by omega)

/-! ## The first zero bit -/

theorem findBit_le (num : BitVec 32) : findBit num ≤ 32 := by
  by_cases hnum : num = 0
  · rw [hnum, findBit_zero]
  · exact (BitVec.lt_of_getLsbD (lowest_findBit hnum).set).le

theorem toInt_ofNat {r : ℕ} (hr : r < 2 ^ 31) : (BitVec.ofNat 32 r).toInt = r := by
  have hmod : r % 2 ^ 32 = r := Nat.mod_eq_of_lt (by omega)
  rw [BitVec.toInt_eq_toNat_of_lt (by rw [BitVec.toNat_ofNat, hmod]; omega), BitVec.toNat_ofNat, hmod]

/-- The complement of the widened word is never zero. -/
theorem not_setWidth_ne_zero (word : BitVec 32) : ~~~(word.setWidth 64) ≠ 0 := by
  intro hzero
  have hbit := congrArg (fun num : BitVec 64 => num.getLsbD 63) hzero
  simp only [BitVec.getLsbD_not, BitVec.getLsbD_setWidth, BitVec.getLsbD_of_ge word 63 (by decide)] at hbit
  exact absurd hbit (by decide)

theorem setWidth_not (word : BitVec 32) : (~~~(word.setWidth 64)).setWidth 32 = ~~~word := by
  rw [BitVec.setWidth_not (by decide), BitVec.setWidth_setWidth_of_le _ (by decide),
    BitVec.setWidth_eq]

/-- `find_first_zero_bit` looks at the first word only. -/
theorem findFirstZeroBit_eq {word : BitVec 32} {rest : List (BitVec 32)} {size : BitVec 32}
    (hsize : size ≠ 0) : findFirstZeroBit (word :: rest) size = .ok (.ofNat 32
      (if findBit (~~~word) < size.toNat then findBit (~~~word) else size.toNat)) := by
  have hskip : (~~~(word.setWidth 64) == 0) = false := beq_eq_false_iff_ne.mpr (not_setWidth_ne_zero word)
  have hle := findBit_le (~~~word)
  simp only [findFirstZeroBit, findFirst, if_neg hsize, findWord, hskip, Bool.false_eq_true, if_false,
    bind, Except.bind, setWidth_not]
  rw [← clamp_ofNat (by omega) size.isLt, BitVec.ofNat_toNat, BitVec.setWidth_eq]
  rfl

/-- `find_first_zero_bit` returns the first index below `size` whose bit is 0, or `size`. The
memory is that of the bitmap, so no word behind it is read. -/
def FindsZero (vaddr : List (BitVec 32)) (size : BitVec 32) : Prop :=
  ∃ res r, findFirstZeroBit vaddr size = .ok res ∧ res.toInt = (r : ℕ) ∧
    FirstFrom (fun i => bitAt vaddr i = false) size.toNat 0 r

section FirstWord

variable {word : BitVec 32} {rest : List (BitVec 32)} {size : BitVec 32}

theorem getLsbD_not_first {i : ℕ} (hi : i < 32) :
    (~~~word).getLsbD i = !bitAt (word :: rest) i := by
  have hat : bitAt (word :: rest) (32 * 0 + i) = word.getLsbD i := bitAt_of_getElem? rfl hi
  rw [Nat.mul_zero, Nat.zero_add] at hat
  rw [BitVec.getLsbD_not, hat, decide_eq_true hi, Bool.true_and]

theorem bitAt_of_full (hfull : ~~~word = 0) {i : ℕ} (hi : i < 32) :
    bitAt (word :: rest) i = true := by
  have hclear : false = !bitAt (word :: rest) i := by
    rw [← getLsbD_not_first hi, hfull]
    exact BitVec.getLsbD_zero.symm
  rwa [eq_comm, Bool.not_eq_false'] at hclear

/-- A zero bit in the first word ends the search. -/
theorem findsZero_of_not_full (hsize : size ≠ 0) (hne : ~~~word ≠ 0) :
    FindsZero (word :: rest) size ∧ ∃ i ≤ 32, bitAt (word :: rest) i = false := by
  have hlow := lowest_findBit hne
  have hlt : findBit (~~~word) < 32 := BitVec.lt_of_getLsbD hlow.set
  have hzero : bitAt (word :: rest) (findBit (~~~word)) = false := by
    have hset := hlow.set
    rwa [getLsbD_not_first hlt, Bool.not_eq_true'] at hset
  refine ⟨⟨_, _, findFirstZeroBit_eq hsize, toInt_ofNat (by split <;> omega),
    .clamp (Nat.zero_le _) hzero fun i _ hi => ?_⟩, _, hlt.le, hzero⟩
  have hclear := hlow.clear i hi
  rw [getLsbD_not_first (hi.trans hlt), Bool.not_eq_false'] at hclear
  rw [Bool.not_eq_false]
  exact hclear

/-- The first word is full and there is no other. -/
theorem findsZero_of_full_of_le (hsize : size ≠ 0) (hfull : ~~~word = 0) (hle : size.toNat ≤ 32) :
    FindsZero (word :: rest) size := by
  have hres : findFirstZeroBit (word :: rest) size = _ := findFirstZeroBit_eq hsize
  rw [hfull, findBit_zero, if_neg (Nat.not_lt_of_le hle)] at hres
  refine ⟨_, size.toNat, hres, toInt_ofNat (by omega), .none fun i _ hi => ?_⟩
  rw [Bool.not_eq_false]
  exact bitAt_of_full hfull (by omega)

/-- The first word is full, and the first bit of the second one is taken for the answer. -/
theorem findsZero_of_full_iff (hfull : ~~~word = 0) (hlt : 32 < size.toNat) :
    FindsZero (word :: rest) size ↔ bitAt (word :: rest) 32 = false := by
  have hsize : size ≠ 0 := by bv_omega
  have hres : findFirstZeroBit (word :: rest) size = _ := findFirstZeroBit_eq hsize
  rw [hfull, findBit_zero, if_pos hlt] at hres
  constructor
  · rintro ⟨res, r, heq, hr, hfirst⟩
    obtain rfl := Except.ok.inj (hres.symm.trans heq)
    rw [toInt_ofNat (by decide)] at hr
    obtain rfl : 32 = r := by exact_mod_cast hr
    exact (hfirst.found hlt).2
  · intro hzero
    refine ⟨_, 32, hres, toInt_ofNat (by decide), hlt.le, fun _ => ⟨Nat.zero_le _, hzero⟩,
      fun i _ hi => ?_⟩
    rw [Bool.not_eq_false]
    exact bitAt_of_full hfull hi

end FirstWord

/-- **`find_first_zero_bit`** is right when it does not have to go beyond the first word, or
happens to stop at the first bit of the second one. -/
theorem findsZero_iff (vaddr : List (BitVec 32)) (size : BitVec 32)
    (hlen : vaddr.length = (size.toNat + 31) / 32) :
    FindsZero vaddr size ↔ size.toNat ≤ 32 ∨ ∃ i ≤ 32, bitAt vaddr i = false := by
  by_cases hsize : size = 0
  · subst hsize
    exact iff_of_true ⟨0, 0, rfl, rfl, .none fun i _ hi => absurd hi (Nat.not_lt_zero i)⟩
      (.inl (Nat.zero_le 32))
  have hpos : 0 < size.toNat := by bv_omega
  obtain ⟨word, rest, rfl⟩ : ∃ word rest, vaddr = word :: rest :=
    List.exists_cons_of_length_pos (by omega)
  by_cases hfull : ~~~word = 0
  · rcases Nat.lt_or_ge 32 size.toNat with hlt | hge
    · rw [findsZero_of_full_iff hfull hlt, or_iff_right (Nat.not_le_of_lt hlt)]
      constructor
      · exact fun hzero => ⟨32, le_rfl, hzero⟩
      · rintro ⟨i, hi, hzero⟩
        obtain rfl : i = 32 := by
          by_contra hne
          rw [bitAt_of_full hfull (by omega)] at hzero
          cases hzero
        exact hzero
    · exact iff_of_true (findsZero_of_full_of_le hsize hfull hge) (.inl hge)
  · have hfound : FindsZero (word :: rest) size ∧ ∃ i ≤ 32, bitAt (word :: rest) i = false :=
      findsZero_of_not_full hsize hfull
    exact iff_of_true hfound.1 (.inr hfound.2)

/-- A zero bit in the first word is found. -/
theorem findsZero_first : FindsZero [0xfffffff7, 0] 40 :=
  (findsZero_iff [0xfffffff7, 0] 40 rfl).mpr (.inr ⟨3, by decide, by decide⟩)

/-- The first zero bit is the second bit of the second word, and the first one is returned. -/
theorem zero_bit_missed : findFirstZeroBit [0xffffffff, 1] 64 = .ok 32 ∧
    FirstFrom (fun i => bitAt [0xffffffff, 1] i = false) 64 0 33 ∧
    ¬ FindsZero [0xffffffff, 1] 64 := by
  have hset : ∀ i ≤ 32, bitAt [0xffffffff, 1] i = true := by decide
  have hres : findFirstZeroBit [0xffffffff, 1] 64 = .ok 32 := by
    have hones : ~~~(0xffffffff : BitVec 32) = 0 := by decide
    rw [findFirstZeroBit_eq (by decide), hones, findBit_zero]
    rfl
  refine ⟨hres, ⟨by decide, fun _ => by decide, fun i _ hi => ?_⟩, ?_⟩
  · rw [Bool.not_eq_false]
    exact hset i (Nat.le_of_lt_succ hi)
  · rintro ⟨res, r, heq, hr, hfirst⟩
    obtain rfl := Except.ok.inj (hres.symm.trans heq)
    have hcast : ((32 : ℕ) : ℤ) = r := hr
    obtain rfl : 32 = r := by exact_mod_cast hcast
    have hzero := (hfirst.found (by decide)).2
    rw [hset 32 le_rfl] at hzero
    cases hzero

/-! ## The next bit -/

theorem wordsFrom_eq (addr : List (BitVec 32)) (p : ℕ) : wordsFrom addr p = .ok (addr.drop p) := by
  rw [wordsFrom, if_pos (Int.natCast_nonneg p), Int.toNat_natCast]

theorem getLsbD_mask (word : BitVec 32) (bit : ℕ) {i : ℕ} (hi : i < 32) :
    (word &&& (BitVec.allOnes 32 <<< bit)).getLsbD i = (word.getLsbD i && decide (bit ≤ i)) := by
  rw [BitVec.getLsbD_and, BitVec.getLsbD_shiftLeft, BitVec.getLsbD_allOnes, decide_eq_true hi]
  rcases Nat.lt_or_ge i bit with hlt | hge
  · simp [hlt]
  · have hsub : i - bit < 32 := by omega
    simp [hge, hsub, Nat.not_lt_of_le hge]

/-- A bit of the first word, or none. -/
theorem findInWord_spec (word : BitVec 32) (bit : ℕ) :
    (findInWord word bit = 32 ∧ ∀ i, bit ≤ i → i < 32 → word.getLsbD i = false) ∨
    (bit ≤ findInWord word bit ∧ findInWord word bit < 32 ∧
      word.getLsbD (findInWord word bit) = true ∧
      ∀ i, bit ≤ i → i < findInWord word bit → word.getLsbD i = false) := by
  rw [findInWord]
  simp only [and_neg_eq_zero]
  by_cases hnum : word &&& (BitVec.allOnes 32 <<< bit) = 0
  · left
    refine ⟨if_pos hnum, fun i hbit hi => ?_⟩
    have hmask := getLsbD_mask word bit hi
    rw [hnum, decide_eq_true hbit, Bool.and_true] at hmask
    rw [← hmask]
    exact BitVec.getLsbD_zero
  · right
    have hlow := lowest_findBit hnum
    rw [if_neg hnum, findBit_eq (lowest_and_neg hlow)]
    generalize findBit (word &&& (BitVec.allOnes 32 <<< bit)) = t at hlow
    have ht : t < 32 := BitVec.lt_of_getLsbD hlow.set
    have hset := hlow.set
    rw [getLsbD_mask word bit ht, Bool.and_eq_true, decide_eq_true_eq] at hset
    refine ⟨hset.2, ht, hset.1, fun i hbit hi => ?_⟩
    have hclear := hlow.clear i hi
    rwa [getLsbD_mask word bit (hi.trans ht), decide_eq_true hbit, Bool.and_true] at hclear

/-- The words from a word boundary on. -/
theorem findRest_spec {addr : List (BitVec 32)} {size p : ℕ} (hlen : addr.length = (size + 31) / 32)
    (hsize : size < 2 ^ 31) (hp : 32 * p ≤ size) :
    ∃ r : ℕ, findRest addr size (32 * p : ℕ) p = .ok r ∧
      FirstFrom (fun i => bitAt addr i = true) size (32 * p) r := by
  obtain ⟨r, hfind, hfirst⟩ := findFirstBit_spec (addr.drop p) (size - 32 * p)
    (by rw [List.length_drop, hlen]; omega) (by omega)
  have hle := hfirst.le
  have hleft : ((size : ℤ) - (32 * p : ℕ)) = ((size - 32 * p : ℕ) : ℤ) := by omega
  refine ⟨32 * p + r, ?_, FirstFrom.shift (32 * p) ?_ hp⟩
  · rw [findRest, wordsFrom_eq, ok_bind, hleft, int, CInt.int_eq (by omega) (by omega), ok_bind,
      BitVec.ofInt_natCast, hfind, ok_bind, toInt_ofNat (by omega),
      int, CInt.int_eq (by omega) (by omega)]
    rfl
  · simpa only [bitAt_drop] using hfirst

/-- The places that `find_next_bit` cannot count on from: the offset is in the last word an
`int` can number, and no bit of the word is set from there on. -/
def Overflows (addr : List (BitVec 32)) (size offset : ℕ) : Prop :=
  2 ^ 31 - 32 < offset ∧ offset < size ∧ ∀ i, offset ≤ i → i < 2 ^ 31 → bitAt addr i = false

section Next

variable {addr : List (BitVec 32)} {size offset : ℕ} (hlen : addr.length = (size + 31) / 32)
  (hsize : size < 2 ^ 31)

/-- Behind the end of the bitmap there is nothing to be found. -/
theorem findNextBit_of_le (hle : size ≤ offset) : findNextBit addr size offset = .ok (size : ℤ) := by
  simp only [findNextBit, if_pos (Int.ofNat_le.mpr hle)]

include hsize

include hlen in
/-- From a word boundary on. -/
theorem findNextBit_of_aligned (hlt : offset < size) (haligned : offset % 32 = 0) :
    ∃ r : ℕ, findNextBit addr size offset = .ok (r : ℤ) ∧
      FirstFrom (fun i => bitAt addr i = true) size offset r := by
  obtain ⟨p, rfl⟩ : ∃ p, offset = 32 * p := ⟨offset / 32, by omega⟩
  obtain ⟨r, hrest, hfirst⟩ := findRest_spec (p := p) hlen hsize hlt.le
  refine ⟨r, ?_, hfirst⟩
  have hbit : ((32 * p : ℕ) : ℤ) % 32 = 0 := by omega
  have hp : ((32 * p : ℕ) : ℤ) / 32 = p := by omega
  have hge : ¬ ((32 * p : ℕ) : ℤ) ≥ size := by omega
  simp only [findNextBit, if_neg hge, hbit, ne_eq, not_true, if_false, hp, hrest]

section Unaligned

variable {p bit : ℕ} {word : BitVec 32} (hoffset : offset = 32 * p + bit) (hlt : offset < size)
  (hpos : 0 < bit) (hbit : bit < 32) (hword : addr[p]? = some word)

include hoffset hlt hpos hbit hword

/-- From the middle of a word on. -/
theorem findNextBit_eq : findNextBit addr size offset =
    if findInWord word bit < 32 then
      int ((32 * p : ℕ) + findInWord word bit) >>= fun offset =>
        .ok (if offset < size then offset else size)
    else int ((32 * p : ℕ) + 32) >>= fun offset =>
      if offset ≥ size then .ok (size : ℤ) else findRest addr size offset (p + 1) := by
  subst hoffset
  have hmod : ((32 * p + bit : ℕ) : ℤ) % 32 = bit := by omega
  have hdiv : ((32 * p + bit : ℕ) : ℤ) / 32 = p := by omega
  have hge : ¬ ((32 * p + bit : ℕ) : ℤ) ≥ size := by omega
  have hne : ¬ ((bit : ℕ) : ℤ) = 0 := by omega
  have hround : ((32 * p + bit : ℕ) : ℤ) - bit = (32 * p : ℕ) := by omega
  have hword : ((addr.drop p).head?.elim (.error .outOfBounds) .ok : Except BitFault (BitVec 32)) =
      .ok word := by
    rw [List.head?_drop, hword]
    rfl
  rw [findNextBit]
  simp only [hmod, hdiv, if_neg hge, ne_eq, hne, not_false_eq_true, if_true, wordsFrom_eq, ok_bind,
    hword, Int.toNat_natCast, hround,
    int, CInt.int_eq (x := ((32 * p : ℕ) : ℤ)) (by omega) (by omega)]

/-- A bit of the word is set. -/
theorem findNextBit_of_found (hle : bit ≤ findInWord word bit) (hfound : findInWord word bit < 32)
    (hset : word.getLsbD (findInWord word bit) = true)
    (hclear : ∀ i, bit ≤ i → i < findInWord word bit → word.getLsbD i = false) :
    ∃ r : ℕ, findNextBit addr size offset = .ok (r : ℤ) ∧
      FirstFrom (fun i => bitAt addr i = true) size offset r := by
  rw [findNextBit_eq hsize hoffset hlt hpos hbit hword, if_pos hfound]
  subst hoffset
  generalize findInWord word bit = t at hle hfound hset hclear
  refine ⟨if 32 * p + t < size then 32 * p + t else size, ?_, .clamp (by omega) ?_ fun i hi hi' => ?_⟩
  · have hcast : ((32 * p : ℕ) : ℤ) + t = (32 * p + t : ℕ) := by omega
    rw [hcast, int, CInt.int_eq (by omega) (by omega)]
    rw [ok_bind]
    split
    · rw [if_pos (by omega)]
    · rw [if_neg (by omega)]
  · rw [bitAt_of_getElem? hword hfound, hset]
  · obtain ⟨j, rfl⟩ := Nat.exists_eq_add_of_le (le_trans (Nat.le_add_right _ _) hi)
    rw [bitAt_of_getElem? hword (by omega), hclear j (by omega) (by omega)]
    exact Bool.false_ne_true

include hlen in
/-- No bit of the word is set, and the next word can be numbered. -/
theorem findNextBit_of_clear (hnone : findInWord word bit = 32)
    (hskip : ∀ i, offset ≤ i → i < 32 * p + 32 → bitAt addr i = false)
    (hroom : 32 * p + 32 < 2 ^ 31) :
    ∃ r : ℕ, findNextBit addr size offset = .ok (r : ℤ) ∧
      FirstFrom (fun i => bitAt addr i = true) size offset r := by
  have hcast : (((32 * p : ℕ) : ℤ) + 32) = ((32 * (p + 1) : ℕ) : ℤ) := by omega
  rw [findNextBit_eq hsize hoffset hlt hpos hbit hword, hnone, if_neg (lt_irrefl 32), hcast,
    int, CInt.int_eq (by omega) (by omega)]
  have hclear : ∀ i, offset ≤ i → i < 32 * (p + 1) → ¬ bitAt addr i = true := by
    intro i hi hi'
    rw [hskip i hi (by omega)]
    exact Bool.false_ne_true
  rcases Nat.lt_or_ge (32 * (p + 1)) size with hmore | hend
  · obtain ⟨r, hrest, hfirst⟩ := findRest_spec (p := p + 1) hlen hsize hmore.le
    refine ⟨r, ?_, hfirst.skip (by omega) hclear⟩
    have hge : ¬ ((32 * (p + 1) : ℕ) : ℤ) ≥ size := by omega
    rw [ok_bind, if_neg hge]
    exact_mod_cast hrest
  · refine ⟨size, ?_, .none fun i hi hi' => hclear i hi (by omega)⟩
    have hge : ((32 * (p + 1) : ℕ) : ℤ) ≥ size := by omega
    rw [ok_bind, if_pos hge]

/-- No bit of the word is set, and the next word cannot be numbered. -/
theorem findNextBit_of_overflow (hnone : findInWord word bit = 32) (hfull : 2 ^ 31 ≤ 32 * p + 32) :
    findNextBit addr size offset = .error .overflow := by
  rw [findNextBit_eq hsize hoffset hlt hpos hbit hword, hnone, if_neg (lt_irrefl 32)]
  have hover : 2 ^ 31 ≤ ((32 * p : ℕ) : ℤ) + 32 := by omega
  rw [int, CInt.int_of_le hover]
  rfl

end Unaligned

include hlen in
/-- **`find_next_bit`** finds the next bit that is set, unless its `int` overflows. -/
theorem findNextBit_cases (offset : ℕ) :
    Overflows addr size offset ∧ findNextBit addr size offset = .error .overflow ∨
    ¬ Overflows addr size offset ∧ ∃ r : ℕ, findNextBit addr size offset = .ok (r : ℤ) ∧
      FirstFrom (fun i => bitAt addr i = true) size offset r := by
  rcases Nat.lt_or_ge offset size with hlt | hge
  · have hover : Overflows addr size offset → 0 < offset % 32 ∧ offset / 32 = 2 ^ 26 - 1 := by
      rintro ⟨hlast, -, -⟩
      omega
    rcases Nat.eq_zero_or_pos (offset % 32) with haligned | hpos
    · refine .inr ⟨fun h => ?_, findNextBit_of_aligned hlen hsize hlt haligned⟩
      exact absurd haligned (hover h).1.ne'
    · have hoffset : offset = 32 * (offset / 32) + offset % 32 := by omega
      obtain ⟨word, hword⟩ : ∃ word, addr[offset / 32]? = some word :=
        ⟨_, List.getElem?_eq_getElem (by omega)⟩
      rcases findInWord_spec word (offset % 32) with ⟨hnone, hclear⟩ | ⟨hle, hfound, hset, hclear⟩
      · have hskip : ∀ i, offset ≤ i → i < 32 * (offset / 32) + 32 → bitAt addr i = false := by
          intro i hi hi'
          obtain ⟨j, rfl⟩ := Nat.exists_eq_add_of_le (by omega : 32 * (offset / 32) ≤ i)
          rw [bitAt_of_getElem? hword (by omega)]
          exact hclear j (by omega) (by omega)
        rcases Nat.lt_or_ge (32 * (offset / 32) + 32) (2 ^ 31) with hroom | hfull
        · refine .inr ⟨fun h => ?_, findNextBit_of_clear hlen hsize hoffset hlt hpos
            (Nat.mod_lt _ (by decide)) hword hnone hskip hroom⟩
          have hlast := (hover h).2
          omega
        · exact .inl ⟨⟨by omega, hlt, fun i hi hi' => hskip i hi (by omega)⟩,
            findNextBit_of_overflow hsize hoffset hlt hpos (Nat.mod_lt _ (by decide)) hword hnone
              hfull⟩
      · refine .inr ⟨fun h => ?_, findNextBit_of_found hsize hoffset hlt hpos
          (Nat.mod_lt _ (by decide)) hword hle hfound hset hclear⟩
        have hzero := h.2.2 (32 * (offset / 32) + findInWord word (offset % 32)) (by omega) (by omega)
        rw [bitAt_of_getElem? hword hfound, hset] at hzero
        cases hzero
  · refine .inr ⟨fun h => absurd h.2.1 (Nat.not_lt_of_le hge), size, findNextBit_of_le hge,
      .none fun i hi hi' => ?_⟩
    omega

end Next

/-! ## Enumerating the bits -/

/-- `find_next_bit` from the offset on returns the first index below `size` whose bit is set, or
`size`. -/
def FindsNext (addr : List (BitVec 32)) (size offset : ℕ) : Prop :=
  ∃ r : ℕ, findNextBit addr size offset = .ok (r : ℤ) ∧
    FirstFrom (fun i => testBit i addr = .ok 1) size offset r

/-- The results of calling `find_next_bit` again with each result plus one, from `offset` on and
as long as they are below `size`. -/
inductive Enumerates (addr : List (BitVec 32)) (size : ℕ) : ℕ → List ℕ → Prop
  /-- the last call -/
  | stop {offset r : ℕ} : findNextBit addr size offset = .ok (r : ℤ) → size ≤ r →
      Enumerates addr size offset []
  /-- a call that is followed by others -/
  | next {offset r : ℕ} {rest : List ℕ} : findNextBit addr size offset = .ok (r : ℤ) → r < size →
      Enumerates addr size (r + 1) rest → Enumerates addr size offset (r :: rest)

theorem Enumerates.exists_ok {addr : List (BitVec 32)} {size offset : ℕ} {l : List ℕ}
    (h : Enumerates addr size offset l) : ∃ r : ℕ, findNextBit addr size offset = .ok (r : ℤ) := by
  cases h with
  | stop hok _ => exact ⟨_, hok⟩
  | next hok _ _ => exact ⟨_, hok⟩

section Enumeration

variable {addr : List (BitVec 32)} {size offset : ℕ} (hlen : addr.length = (size + 31) / 32)
  (hsize : size < 2 ^ 31)

include hlen in
theorem firstFrom_testBit {r : ℕ} : FirstFrom (fun i => testBit i addr = .ok 1) size offset r ↔
    FirstFrom (fun i => bitAt addr i = true) size offset r := by
  have hbit : ∀ i < size, testBit i addr = .ok 1 ↔ bitAt addr i = true := by
    intro i hi
    rw [testBit_eq (by omega)]
    cases bitAt addr i <;> decide
  refine ⟨fun h => ⟨h.le, fun hlt => ?_, fun i hi hir => ?_⟩, fun h => ⟨h.le, fun hlt => ?_, fun i hi hir => ?_⟩⟩
  · exact ⟨(h.found hlt).1, (hbit _ hlt).mp (h.found hlt).2⟩
  · rw [← hbit i (hir.trans_le h.le)]
    exact h.before i hi hir
  · exact ⟨(h.found hlt).1, (hbit _ hlt).mpr (h.found hlt).2⟩
  · rw [hbit i (hir.trans_le h.le)]
    exact h.before i hi hir

include hlen hsize

theorem findsNext_iff : FindsNext addr size offset ↔ ¬ Overflows addr size offset := by
  rcases findNextBit_cases hlen hsize offset with ⟨hover, herr⟩ | ⟨hover, r, hok, hfirst⟩
  · refine iff_of_false ?_ (not_not_intro hover)
    rintro ⟨r, hok, -⟩
    rw [herr] at hok
    cases hok
  · exact iff_of_true ⟨r, hok, (firstFrom_testBit hlen).mpr hfirst⟩ hover

/-- The calls that follow one that does not overflow. -/
theorem enumerates_iff (hover : ¬ Overflows addr size offset) :
    Enumerates addr size offset (places (fun i => testBit i addr = .ok 1) size offset) ↔
      ∀ i, offset ≤ i → i < size → testBit i addr = .ok 1 → ¬ Overflows addr size (i + 1) := by
  -- every call leaves less of the bitmap
  induction hn : size - offset using Nat.strong_induction_on generalizing offset with
  | h n ih =>
    obtain ⟨r, hok, hfirst⟩ := (findsNext_iff hlen hsize).mpr hover
    rcases Nat.lt_or_eq_of_le hfirst.le with hlt | rfl
    · obtain ⟨hle, hset⟩ := hfirst.found hlt
      rw [hfirst.places_eq_cons hlt]
      -- the first call finds `r`, and the others go on behind it
      have hcons : ∀ rest, Enumerates addr size offset (r :: rest) ↔ Enumerates addr size (r + 1) rest := by
        intro rest
        refine ⟨fun h => ?_, .next hok hlt⟩
        cases h with
        | next _ _ hrest => exact hrest
      have hsplit : (∀ i, offset ≤ i → i < size → testBit i addr = .ok 1 → ¬ Overflows addr size (i + 1)) ↔
          ¬ Overflows addr size (r + 1) ∧
            ∀ i, r + 1 ≤ i → i < size → testBit i addr = .ok 1 → ¬ Overflows addr size (i + 1) := by
        refine ⟨fun h => ⟨h r hle hlt hset, fun i hi => h i (by omega)⟩, fun h i hi hlt hbit => ?_⟩
        rcases Nat.lt_trichotomy i r with hir | rfl | hir
        · exact absurd hbit (hfirst.before i hi hir)
        · exact h.1
        · exact h.2 i hir hlt hbit
      rw [hcons, hsplit]
      by_cases hnext : Overflows addr size (r + 1)
      · refine iff_of_false (fun h => ?_) fun h => h.1 hnext
        obtain ⟨r', hok'⟩ := h.exists_ok
        rcases findNextBit_cases hlen hsize (r + 1) with ⟨-, herr⟩ | ⟨hnot, -⟩
        · rw [herr] at hok'
          cases hok'
        · exact hnot hnext
      · rw [and_iff_right hnext]
        exact ih (size - (r + 1)) (by omega) hnext rfl
    · rw [hfirst.places_eq_nil]
      refine iff_of_true (.stop hok le_rfl) fun i hi hlt hbit => ?_
      exact absurd hbit (hfirst.before i hi hlt)

end Enumeration

/-- **`find_next_bit`** is right exactly when its `int` does not overflow, and calling it again
and again enumerates the bits that are set when no call overflows. -/
theorem findNextBit_right_iff (addr : List (BitVec 32)) (size : ℕ)
    (hlen : addr.length = (size + 31) / 32) (hsize : size < 2 ^ 31) :
    (∀ offset, FindsNext addr size offset ↔ ¬ Overflows addr size offset) ∧
    (Enumerates addr size 0 (places (fun i => testBit i addr = .ok 1) size 0) ↔
      ∀ i < size, testBit i addr = .ok 1 → ¬ Overflows addr size (i + 1)) := by
  refine ⟨fun offset => findsNext_iff hlen hsize, ?_⟩
  have hzero : ¬ Overflows addr size 0 := fun hover => absurd hover.1 (Nat.not_lt_zero _)
  rw [enumerates_iff hlen hsize hzero]
  exact ⟨fun h i => h i (Nat.zero_le i), fun h i _ => h i⟩

/-- A bitmap with two bits set. -/
theorem findNextBit_right_two :
    let addr : List (BitVec 32) := [0x10, 1]
    FindsNext addr 40 5 ∧ Enumerates addr 40 0 [4, 32] := by
  intro addr
  have hover : ∀ offset < 2 ^ 31 - 32, ¬ Overflows addr 40 offset :=
    fun offset hlt hover => absurd hover.1 (Nat.not_lt_of_lt hlt)
  obtain ⟨hfinds, henum⟩ := findNextBit_right_iff addr 40 rfl (by decide)
  refine ⟨(hfinds 5).mpr (hover 5 (by decide)), ?_⟩
  have hplaces : places (fun i => testBit i addr = .ok 1) 40 0 = [4, 32] := by decide
  rw [← hplaces]
  exact henum.mpr fun i hi _ => hover (i + 1) (by omega)

/-- With 2 ^ 31 - 1 bits, none of them set, the number of the word behind the last one is not
an `int`. -/
theorem next_bit_overflows :
    let addr : List (BitVec 32) := List.replicate (2 ^ 26) 0
    addr.length = (2 ^ 31 - 1 + 31) / 32 ∧
      findNextBit addr (2 ^ 31 - 1 : ℕ) (2 ^ 31 - 2 : ℕ) = .error .overflow ∧
      ¬ FindsNext addr (2 ^ 31 - 1) (2 ^ 31 - 2) := by
  intro addr
  have hlen : addr.length = (2 ^ 31 - 1 + 31) / 32 := List.length_replicate
  have hover : Overflows addr (2 ^ 31 - 1) (2 ^ 31 - 2) := by
    refine ⟨by decide, by decide, fun i _ hi => bitAt_of_zero ?_⟩
    exact List.getElem?_replicate_of_lt (by omega)
  rcases findNextBit_cases hlen (by decide) (2 ^ 31 - 2) with ⟨-, herr⟩ | ⟨hnot, -⟩
  · refine ⟨hlen, herr, ?_⟩
    rintro ⟨r, hok, -⟩
    rw [herr] at hok
    cases hok
  · exact absurd hover hnot

end Bitops

end NaliStore
