import Mathlib.Algebra.Group.Int.Defs
import Mathlib.Algebra.Group.Nat.Defs
import Mathlib.Data.List.Basic
import Mathlib.Data.List.TakeWhile

/-!
# The parts of `std::string` that file names are taken apart with

Strings are lists of characters and positions are numbers. `find` answers `npos` when
there is no occurrence, and `npos` is the largest `size_t`, so arithmetic on positions
wraps around. `substr` and `stoi` are `none` where the C++ functions throw.

The laws are about strings of the shape `digits ++ separator :: rest`: the separator is
found behind the digits, the digits are cut out, and the number is read back.
-/

namespace StdString

/-- `std::string::npos` -/
def npos : ℕ := 2 ^ 64 - 1

/-- Addition of two `size_t`. -/
def sizeAdd (a b : ℕ) : ℕ := (a + b) % 2 ^ 64

/-- Subtraction of two `size_t`. -/
def sizeSub (a b : ℕ) : ℕ := (a + (2 ^ 64 - b)) % 2 ^ 64

theorem sizeSub_of_le {a b : ℕ} (h : b ≤ a) (ha : a < 2 ^ 64) : sizeSub a b = a - b := by
  rw [sizeSub]
  omega

/-- The first occurrence of `sub` in a string that starts at position `i`. -/
def findFrom (sub : List Char) : List Char → ℕ → Option ℕ
  | [], i => if sub.isEmpty then some i else none
  | c :: cs, i => if sub.isPrefixOf (c :: cs) then some i else findFrom sub cs (i + 1)

/-- `s.find(sub, pos)` -/
def find (s sub : List Char) (pos : ℕ) : ℕ :=
  if pos ≤ s.length then (findFrom sub (s.drop pos) pos).getD npos else npos

/-- `s.substr(pos, n)` -/
def substr (s : List Char) (pos n : ℕ) : Option (List Char) :=
  if pos ≤ s.length then some ((s.drop pos).take n) else none

/-- `isspace` -/
def isSpace (c : Char) : Bool := c == ' ' || decide (9 ≤ c.toNat ∧ c.toNat ≤ 13)

/-- The sign and the rest of a number. -/
def sign : List Char → Bool × List Char
  | '-' :: cs => (true, cs)
  | '+' :: cs => (false, cs)
  | cs => (false, cs)

/-- `std::stoi(s)`: white space, a sign, digits, and whatever follows. -/
def stoi (s : List Char) : Option ℤ :=
  let (neg, cs) := sign (s.dropWhile isSpace)
  let ds := cs.takeWhile Char.isDigit
  let n : ℤ := Nat.ofDigitChars 10 ds 0
  let v := if neg then -n else n
  if ds.isEmpty ∨ v < -2 ^ 31 ∨ 2 ^ 31 ≤ v then none else some v

/-- `std::to_string` of a number that is not negative. -/
protected def toString (n : ℕ) : List Char := Nat.toDigits 10 n

/-! ## The laws -/

theorem underscore_notMem_toString (n : ℕ) : '_' ∉ StdString.toString n := Nat.underscore_not_in_toDigits

/-- A string is found behind a string in which its first character does not occur. -/
theorem findFrom_append {c : Char} {sub ds : List Char} (hc : c ∉ ds) (rest : List Char) :
    ∀ i, findFrom (c :: sub) (ds ++ (c :: sub ++ rest)) i = some (i + ds.length) := by
  induction ds with
  | nil => intro i; simp [findFrom]
  | cons d ds ih =>
    intro i
    have hd : c ≠ d := fun h => hc (h ▸ List.mem_cons_self ..)
    have hds : c ∉ ds := fun h => hc (List.mem_cons_of_mem _ h)
    have hne : (c == d) = false := beq_false_of_ne hd
    rw [List.cons_append, findFrom]
    simp only [List.isPrefixOf, hne, Bool.false_and, Bool.false_eq_true, if_false]
    rw [ih hds, List.length_cons]
    congr 1
    omega

/-- It is not found in a string it does not occur in. -/
theorem findFrom_eq_none {c : Char} {ds : List Char} (hc : c ∉ ds) :
    ∀ i, findFrom [c] ds i = none := by
  induction ds with
  | nil => intro i; rfl
  | cons d ds ih =>
    intro i
    have hd : c ≠ d := fun h => hc (h ▸ List.mem_cons_self ..)
    have hds : c ∉ ds := fun h => hc (List.mem_cons_of_mem _ h)
    have hne : (c == d) = false := beq_false_of_ne hd
    rw [findFrom]
    simp only [List.isPrefixOf, hne, Bool.false_and, Bool.false_eq_true, if_false]
    exact ih hds (i + 1)

/-- `find` of a separator behind `pre ++ ds`, from the end of `pre`. -/
theorem find_append {c : Char} {pre ds : List Char} (hc : c ∉ ds) (rest : List Char) {pos : ℕ}
    (hpos : pre.length = pos) :
    find (pre ++ (ds ++ c :: rest)) [c] pos = pos + ds.length := by
  subst hpos
  have hfind : findFrom [c] (ds ++ c :: rest) pre.length = some (pre.length + ds.length) :=
    findFrom_append hc rest pre.length
  rw [find, if_pos (by simp), List.drop_left, hfind, Option.getD_some]

/-- `find` of a separator that does not occur any more. -/
theorem find_eq_npos {c : Char} {pre ds : List Char} (hc : c ∉ ds) {pos : ℕ}
    (hpos : pre.length = pos) : find (pre ++ ds) [c] pos = npos := by
  subst hpos
  rw [find, if_pos (by simp), List.drop_left, findFrom_eq_none hc, Option.getD_none]

/-- `substr` cuts out what stands between two positions. -/
theorem substr_append {pre ds rest : List Char} {pos n : ℕ} (hpos : pre.length = pos)
    (hn : ds.length = n) : substr (pre ++ (ds ++ rest)) pos n = some ds := by
  subst hpos hn
  rw [substr, if_pos (by simp), List.drop_left, List.take_left]

/-- `substr` up to the end. -/
theorem substr_of_length_le {pre ds : List Char} {pos n : ℕ} (hpos : pre.length = pos)
    (hn : ds.length ≤ n) : substr (pre ++ ds) pos n = some ds := by
  subst hpos
  rw [substr, if_pos (by simp), List.drop_left, List.take_of_length_le hn]

/-- **A printed number is read back.** -/
theorem stoi_toString {n : ℕ} (hn : n < 2 ^ 31) : stoi (StdString.toString n) = some (n : ℤ) := by
  have hdigit : ∀ c ∈ StdString.toString n, c.isDigit := fun c hc =>
    Nat.isDigit_of_mem_toDigits (by decide) (by decide) hc
  obtain ⟨c, cs, hcs⟩ : ∃ c cs, StdString.toString n = c :: cs :=
    List.exists_cons_of_ne_nil Nat.toDigits_ne_nil
  have hc : c.isDigit := hdigit c (by rw [hcs]; exact List.mem_cons_self ..)
  have hspace : isSpace c = false := by
    have hlow : '0'.toNat ≤ c.toNat := (Bool.and_eq_true_iff.mp hc).1 |> of_decide_eq_true
    have hzero : '0'.toNat = 48 := rfl
    have hne : c ≠ ' ' := by
      rintro rfl
      exact absurd hc (by decide)
    simp only [isSpace, beq_false_of_ne hne, Bool.false_or, decide_eq_false_iff_not]
    omega
  have hsign : sign (StdString.toString n) = (false, StdString.toString n) := by
    rw [hcs, sign]
    · rintro _ ⟨⟩
      exact absurd hc (by decide)
    · rintro _ ⟨⟩
      exact absurd hc (by decide)
  have hdrop : (StdString.toString n).dropWhile isSpace = StdString.toString n := by
    rw [hcs, List.dropWhile_cons, hspace]
    rfl
  have htake : (StdString.toString n).takeWhile Char.isDigit = StdString.toString n :=
    List.takeWhile_eq_self_iff.mpr hdigit
  have hvalue : Nat.ofDigitChars 10 (StdString.toString n) 0 = n := Nat.ofDigitChars_ten_toDigits
  have hempty : (StdString.toString n).isEmpty = false := by rw [hcs]; rfl
  simp only [stoi, hdrop, hsign, htake, hvalue, hempty]
  rw [if_neg (by simp; omega)]
  rfl

end StdString
