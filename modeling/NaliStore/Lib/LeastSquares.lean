import Mathlib.Algebra.Order.BigOperators.Group.List
import Mathlib.Algebra.Order.Field.Basic
import Mathlib.Tactic.Linarith
import Mathlib.Tactic.Ring
import Mathlib.Tactic.FieldSimp

/-!
# The least-squares line of a list of points

For points `(x, y)` over an ordered field, `cov` and `var` are the numerator and the denominator of
the slope of the least-squares line, `n ∑xy - ∑x ∑y` and `n ∑xx - (∑x)²`. Taking a point away from
the list subtracts a sum of products of differences (`cov_cons`), which gives their signs for points
that ascend. `valueAt` is the line, and `mul_valueAt` its value without a division.
-/

namespace LeastSquares

variable {K : Type*} [Field K]

/-- `∑ x` -/
def sumX (l : List (K × K)) : K := (l.map Prod.fst).sum

/-- `∑ y` -/
def sumY (l : List (K × K)) : K := (l.map Prod.snd).sum

/-- `∑ xx` -/
def sumXX (l : List (K × K)) : K := (l.map fun p => p.1 * p.1).sum

/-- `∑ xy` -/
def sumXY (l : List (K × K)) : K := (l.map fun p => p.1 * p.2).sum

/-- `n ∑ xy - ∑ x ∑ y` -/
def cov (l : List (K × K)) : K := l.length * sumXY l - sumX l * sumY l

/-- `n ∑ xx - (∑ x)²` -/
def var (l : List (K × K)) : K := l.length * sumXX l - sumX l * sumX l

/-- The least-squares line at `x`. -/
def valueAt (l : List (K × K)) (x : K) : K :=
  cov l / var l * x + (sumY l - cov l / var l * sumX l) / l.length

/-- The sum of the products of the differences to a point. -/
def diffs (p : K × K) (l : List (K × K)) : K := (l.map fun q => (q.1 - p.1) * (q.2 - p.2)).sum

theorem diffs_eq (p : K × K) (l : List (K × K)) :
    diffs p l = sumXY l - p.1 * sumY l - p.2 * sumX l + l.length * (p.1 * p.2) := by
  induction l with
  | nil => simp [diffs, sumXY, sumX, sumY]
  | cons q l ih =>
    have hcons : diffs p (q :: l) = (q.1 - p.1) * (q.2 - p.2) + diffs p l := List.sum_cons
    rw [hcons, ih]
    simp only [sumXY, sumX, sumY, List.map_cons, List.sum_cons, List.length_cons]
    push_cast
    ring

/-- **One point more.** -/
theorem cov_cons (p : K × K) (l : List (K × K)) : cov (p :: l) = cov l + diffs p l := by
  rw [diffs_eq, cov, cov]
  simp only [sumXY, sumX, sumY, List.map_cons, List.sum_cons, List.length_cons]
  push_cast
  ring

/-- The variance is the covariance of the abscissae with themselves. -/
theorem var_eq_cov (l : List (K × K)) : var l = cov (l.map fun p => (p.1, p.1)) := by
  simp [var, cov, sumXX, sumXY, sumX, sumY, Function.comp_def]

theorem mul_valueAt {l : List (K × K)} (hvar : var l ≠ 0) (hlen : (l.length : K) ≠ 0) (x : K) :
    l.length * var l * valueAt l x = sumY l * var l + cov l * (l.length * x - sumX l) := by
  rw [valueAt]
  field_simp
  ring

variable [LinearOrder K] [IsStrictOrderedRing K]

theorem diffs_nonneg {p : K × K} {l : List (K × K)} (h : ∀ q ∈ l, p.1 ≤ q.1 ∧ p.2 ≤ q.2) :
    0 ≤ diffs p l := by
  refine List.sum_nonneg fun d hd => ?_
  obtain ⟨q, hq, rfl⟩ := List.mem_map.mp hd
  exact mul_nonneg (sub_nonneg.mpr (h q hq).1) (sub_nonneg.mpr (h q hq).2)

/-- **The slope of ascending points is not negative.** -/
theorem cov_nonneg {l : List (K × K)} (h : l.Pairwise fun p q => p.1 ≤ q.1 ∧ p.2 ≤ q.2) :
    0 ≤ cov l := by
  induction l with
  | nil => simp [cov, sumX, sumY]
  | cons p l ih =>
    obtain ⟨hp, hl⟩ := List.pairwise_cons.mp h
    rw [cov_cons]
    exact add_nonneg (ih hl) (diffs_nonneg hp)

/-- Without a slope the points are on one level. -/
theorem eq_of_cov_eq_zero {l : List (K × K)} (h : l.Pairwise fun p q => p.1 < q.1 ∧ p.2 ≤ q.2)
    (hcov : cov l = 0) : l.Pairwise fun p q => p.2 = q.2 := by
  induction l with
  | nil => exact .nil
  | cons p l ih =>
    obtain ⟨hp, hl⟩ := List.pairwise_cons.mp h
    have hle : ∀ q ∈ l, p.1 ≤ q.1 ∧ p.2 ≤ q.2 := fun q hq => ⟨(hp q hq).1.le, (hp q hq).2⟩
    have hcov' : 0 ≤ cov l := cov_nonneg (hl.imp fun h => ⟨h.1.le, h.2⟩)
    have hdiffs := diffs_nonneg hle
    rw [cov_cons] at hcov
    refine List.pairwise_cons.mpr ⟨fun q hq => ?_, ih hl (by linarith)⟩
    -- all products of differences are zero
    have hprod : (q.1 - p.1) * (q.2 - p.2) = 0 := by
      refine List.all_zero_of_le_zero_le_of_sum_eq_zero (fun d hd => ?_) (?_ : diffs p l = 0)
        (List.mem_map.mpr ⟨q, hq, rfl⟩)
      · obtain ⟨r, hr, rfl⟩ := List.mem_map.mp hd
        exact mul_nonneg (sub_nonneg.mpr (hle r hr).1) (sub_nonneg.mpr (hle r hr).2)
      · linarith
    rcases mul_eq_zero.mp hprod with hx | hy
    · exact absurd hx (sub_ne_zero.mpr (hp q hq).1.ne')
    · exact (sub_eq_zero.mp hy).symm

/-- Two different abscissae are enough for a line. -/
theorem var_pos {l : List (K × K)} (h : l.Pairwise fun p q => p.1 < q.1) (hlen : 2 ≤ l.length) :
    0 < var l := by
  set m := l.map fun p => (p.1, p.1) with hm
  have hasc : m.Pairwise fun p q => p.1 < q.1 ∧ p.2 ≤ q.2 :=
    List.pairwise_map.mpr (h.imp fun hlt => ⟨hlt, hlt.le⟩)
  have hnonneg : 0 ≤ cov m := cov_nonneg (hasc.imp fun h => ⟨h.1.le, h.2⟩)
  rw [var_eq_cov, ← hm]
  refine lt_of_le_of_ne hnonneg fun hzero => ?_
  -- otherwise the first two would be equal
  have heq := List.pairwise_map.mp (eq_of_cov_eq_zero hasc hzero.symm)
  match l, hlen with
  | p :: q :: l, _ =>
    have hlt := (List.pairwise_cons.mp h).1 q (List.mem_cons_self ..)
    exact hlt.ne ((List.pairwise_cons.mp heq).1 q (List.mem_cons_self ..))

end LeastSquares
