import NaliStore.Nali
import NaliStore.Lib.LeastSquares
import Mathlib.Data.Rat.Floor

/-!
# The root model

`LinearModel` and `LinearModelBuilder` of `src/src/rmi_model.h`, with the sums, the slope and the
intercept as exact rational numbers. The builder fits a least-squares line to samples of keys and
positions; `predict` converts the value of the line at a key to `int`, which is defined only when
the value is in the range of `int`. The group is computed from the prediction, and it is clamped to
the groups there are after the conversion.

The line ascends, so predictions and groups do. But it goes on beyond the samples: `find_group` is
called with any key, and at a key far from the samples the line may have left the range of `int`
(`train_routable_iff`).
-/

namespace NaliStore

open LeastSquares

/-- The largest `double`. -/
def doubleMax : ℚ := (2 ^ 53 - 1) * 2 ^ 971

/-- A sample: a key and its position. -/
structure Sample where
  /-- the key -/
  key : UInt64
  /-- the position -/
  y : Int32
  deriving DecidableEq

/-- `LinearModel<uint64_t>` -/
structure LinearModel where
  /-- the slope `a_` -/
  a : ℚ
  /-- the intercept `b_` -/
  b : ℚ

namespace LinearModel

/-- The value at a key. -/
def predictDouble (m : LinearModel) (key : UInt64) : ℚ := m.a * key.toNat + m.b

/-- A real number without its fraction. -/
def trunc (v : ℚ) : ℤ := if 0 ≤ v then ⌊v⌋ else ⌈v⌉

/-- `predict`: the conversion to `int` is undefined when the number without its fraction does not
fit. -/
def predict (m : LinearModel) (key : UInt64) : Option Int32 :=
  let v := m.predictDouble key
  if -2 ^ 31 - 1 < v ∧ v < 2 ^ 31 then some (Int32.ofInt (trunc v)) else none

end LinearModel

/-- `LinearModelBuilder<uint64_t>` -/
structure LinearModelBuilder where
  /-- `count_` -/
  count : ℕ
  /-- `x_sum_` -/
  xSum : ℚ
  /-- `y_sum_` -/
  ySum : ℚ
  /-- `xx_sum_` -/
  xxSum : ℚ
  /-- `xy_sum_` -/
  xySum : ℚ
  /-- `x_min_` -/
  xMin : UInt64
  /-- `x_max_` -/
  xMax : UInt64
  /-- `y_min_` -/
  yMin : ℚ
  /-- `y_max_` -/
  yMax : ℚ

namespace LinearModelBuilder

/-- A new builder. -/
def new : LinearModelBuilder := ⟨0, 0, 0, 0, 0, uint64Max, 0, doubleMax, -doubleMax⟩

/-- `add` -/
def add (s : LinearModelBuilder) (p : Sample) : LinearModelBuilder where
  count := s.count + 1
  xSum := s.xSum + p.key.toNat
  ySum := s.ySum + p.y.toInt
  xxSum := s.xxSum + p.key.toNat * p.key.toNat
  xySum := s.xySum + p.key.toNat * p.y.toInt
  xMin := min p.key s.xMin
  xMax := max p.key s.xMax
  yMin := min p.y.toInt s.yMin
  yMax := max p.y.toInt s.yMax

/-- `build` -/
def build (s : LinearModelBuilder) : LinearModel :=
  if s.count ≤ 1 then ⟨0, s.ySum⟩
  else if s.count * s.xxSum - s.xSum * s.xSum = 0 then ⟨0, s.ySum / s.count⟩
  else
    let slope := (s.count * s.xySum - s.xSum * s.ySum) / (s.count * s.xxSum - s.xSum * s.xSum)
    let intercept := (s.ySum - slope * s.xSum) / s.count
    if slope ≤ 0 then
      let a := (s.yMax - s.yMin) / ((s.xMax - s.xMin).toNat : ℚ)
      ⟨a, -(s.xMin.toNat : ℚ) * a⟩
    else ⟨slope, intercept⟩

end LinearModelBuilder

/-- The model that is built from samples. -/
def train (samples : List Sample) : LinearModel :=
  (samples.foldl LinearModelBuilder.add .new).build

/-- `predict(key) / min_entry_count` of `find_group`, `ExpandTree` and `bulk_load`, clamped to the
groups there are. -/
def groupOf (prediction : Int32) (nrGroups : ℕ) : ℤ :=
  let quotient : ℤ := prediction.toInt % 2 ^ 64 / minEntryCount
  let groupId := quotient.bmod (2 ^ 32)
  min (max 0 groupId) ((nrGroups : ℤ) - 1)

theorem RootModel.groupId_eq (m : RootModel) (n : ℕ) (key : UInt64) :
    m.groupId n key = (groupOf (m.predict key) n).toNat := rfl

/-- A sample as a point. -/
def Sample.point (p : Sample) : ℚ × ℚ := (p.key.toNat, p.y.toInt)

/-- The samples as points. -/
def points (samples : List Sample) : List (ℚ × ℚ) := samples.map Sample.point

@[simp] theorem length_points (samples : List Sample) : (points samples).length = samples.length :=
  List.length_map ..

/-! ## What the builder sums up -/

/-- The samples `done` have been added. -/
structure LinearModelBuilder.Summed (done : List Sample) (s : LinearModelBuilder) : Prop where
  /-- how many -/
  count : s.count = done.length
  /-- the keys -/
  xSum : s.xSum = sumX (points done)
  /-- the positions -/
  ySum : s.ySum = sumY (points done)
  /-- the squares -/
  xxSum : s.xxSum = sumXX (points done)
  /-- the products -/
  xySum : s.xySum = sumXY (points done)
  /-- the least position is one of them -/
  yMin : done = [] ∧ s.yMin = doubleMax ∨ ∃ p ∈ done, s.yMin = p.y.toInt
  /-- so is the greatest -/
  yMax : done = [] ∧ s.yMax = -doubleMax ∨ ∃ p ∈ done, s.yMax = p.y.toInt

namespace LinearModelBuilder

/-- Every position is between the bounds the builder starts with. -/
theorem toInt_le_doubleMax (y : Int32) : (y.toInt : ℚ) ≤ doubleMax ∧ -doubleMax ≤ (y.toInt : ℚ) := by
  have hlt : (y.toInt : ℚ) < 2 ^ 31 := by exact_mod_cast Int32.toInt_lt y
  have hge : (-2 ^ 31 : ℚ) ≤ y.toInt := by exact_mod_cast Int32.le_toInt y
  have hmax : (2 ^ 31 : ℚ) ≤ doubleMax := by
    have hpow : (1 : ℚ) ≤ 2 ^ 971 := one_le_pow₀ (by norm_num)
    rw [doubleMax]
    generalize (2 : ℚ) ^ 971 = t at hpow
    linarith
  constructor <;> linarith

theorem summed_new : Summed [] new :=
  ⟨rfl, rfl, rfl, rfl, rfl, .inl ⟨rfl, rfl⟩, .inl ⟨rfl, rfl⟩⟩

theorem Summed.add {done : List Sample} {s : LinearModelBuilder} (h : Summed done s) (p : Sample) :
    Summed (done ++ [p]) (s.add p) := by
  obtain ⟨hle, hge⟩ := toInt_le_doubleMax p.y
  have hp : p ∈ done ++ [p] := List.mem_append_right _ (List.mem_singleton_self p)
  refine ⟨?_, ?_, ?_, ?_, ?_, .inr ?_, .inr ?_⟩
  · simp [LinearModelBuilder.add, h.count]
  · simp [LinearModelBuilder.add, h.xSum, sumX, points, Sample.point]
  · simp [LinearModelBuilder.add, h.ySum, sumY, points, Sample.point]
  · simp [LinearModelBuilder.add, h.xxSum, sumXX, points, Sample.point]
  · simp [LinearModelBuilder.add, h.xySum, sumXY, points, Sample.point]
  · rcases h.yMin with ⟨-, hmin⟩ | ⟨q, hq, hmin⟩
    · exact ⟨p, hp, by simp only [LinearModelBuilder.add, hmin, min_eq_left hle]⟩
    · rcases min_choice (p.y.toInt : ℚ) s.yMin with hc | hc
      · exact ⟨p, hp, hc⟩
      · exact ⟨q, List.mem_append_left _ hq, hc.trans hmin⟩
  · rcases h.yMax with ⟨-, hmax⟩ | ⟨q, hq, hmax⟩
    · exact ⟨p, hp, by simp only [LinearModelBuilder.add, hmax, max_eq_left hge]⟩
    · rcases max_choice (p.y.toInt : ℚ) s.yMax with hc | hc
      · exact ⟨p, hp, hc⟩
      · exact ⟨q, List.mem_append_left _ hq, hc.trans hmax⟩

theorem Summed.foldl (samples : List Sample) : ∀ {done : List Sample} {s : LinearModelBuilder},
    Summed done s → Summed (done ++ samples) (samples.foldl LinearModelBuilder.add s) := by
  induction samples with
  | nil => intro done s h; simpa using h
  | cons p samples ih =>
    intro done s h
    have hrest := ih (h.add p)
    rwa [List.append_assoc, List.singleton_append] at hrest

theorem summed_samples (samples : List Sample) : Summed samples (samples.foldl LinearModelBuilder.add new) :=
  summed_new.foldl samples

end LinearModelBuilder

/-! ## The model that comes out -/

/-- Keys and positions ascend. -/
def Ascending (samples : List Sample) : Prop :=
  samples.Pairwise fun p q => p.key < q.key ∧ p.y.toInt ≤ q.y.toInt

/-- The least-squares line through the samples is in the range of `int` at the keys 0 and
`2 ^ 64 - 1`, or there is only one sample. Both sides of the inequalities are multiplied by the
number of samples and `var`. -/
def LineFits (samples : List Sample) : Prop :=
  let l := points samples
  let n : ℚ := samples.length
  samples.length = 1 ∨
    (-2 ^ 31 - 1) * (n * var l) < sumY l * var l - cov l * sumX l ∧
    sumY l * var l + cov l * (n * (2 ^ 64 - 1) - sumX l) < 2 ^ 31 * (n * var l)

instance (samples : List Sample) : Decidable (LineFits samples) :=
  inferInstanceAs (Decidable (_ ∨ _ ∧ _))

variable {samples : List Sample}

theorem Ascending.pairwise (h : Ascending samples) :
    (points samples).Pairwise fun p q => p.1 < q.1 ∧ p.2 ≤ q.2 := by
  refine List.pairwise_map.mpr (h.imp fun {p q} hpq => ⟨?_, ?_⟩)
  · exact Nat.cast_lt.mpr (UInt64.lt_iff_toNat_lt.mp hpq.1)
  · exact Int.cast_le.mpr hpq.2

theorem Ascending.var_pos (h : Ascending samples) (hlen : 2 ≤ samples.length) :
    0 < var (points samples) :=
  LeastSquares.var_pos (h.pairwise.imp fun hpq => hpq.1) (by rwa [length_points])

/-- One sample: the model is its position. -/
theorem train_singleton (p : Sample) : train [p] = ⟨0, p.y.toInt⟩ := by
  simp [train, LinearModelBuilder.add, LinearModelBuilder.build, LinearModelBuilder.new]

/-- Two samples or more: the least-squares line if it ascends, and zero if it is level. -/
theorem train_eq (h : Ascending samples) (hlen : 2 ≤ samples.length) :
    0 < cov (points samples) ∧ train samples = ⟨cov (points samples) / var (points samples),
      (sumY (points samples) - cov (points samples) / var (points samples) * sumX (points samples)) /
        samples.length⟩ ∨
    cov (points samples) = 0 ∧ train samples = ⟨0, 0⟩ := by
  obtain ⟨hcount, hx, hy, hxx, hxy, hmin, hmax⟩ := LinearModelBuilder.summed_samples samples
  set l := points samples
  have hlength : (l.length : ℚ) = samples.length := by rw [length_points]
  have hvar : 0 < var l := h.var_pos hlen
  have hnum : (samples.length : ℚ) * sumXY l - sumX l * sumY l = cov l := by rw [cov, hlength]
  have hden : (samples.length : ℚ) * sumXX l - sumX l * sumX l = var l := by rw [var, hlength]
  have hbuild : train samples = if cov l / var l ≤ 0 then
      let s := samples.foldl LinearModelBuilder.add .new
      let a := (s.yMax - s.yMin) / ((s.xMax - s.xMin).toNat : ℚ)
      ⟨a, -(s.xMin.toNat : ℚ) * a⟩
    else ⟨cov l / var l, (sumY l - cov l / var l * sumX l) / samples.length⟩ := by
    rw [train, LinearModelBuilder.build]
    simp only [hcount, hx, hy, hxx, hxy, hnum, hden]
    rw [if_neg (by omega), if_neg hvar.ne']
  have hcov : 0 ≤ cov l := cov_nonneg (h.pairwise.imp fun hpq => ⟨hpq.1.le, hpq.2⟩)
  rcases hcov.lt_or_eq with hpos | hzero
  · exact .inl ⟨hpos, by rw [hbuild, if_neg (not_le_of_gt (div_pos hpos hvar))]⟩
  · refine .inr ⟨hzero.symm, ?_⟩
    -- all positions are the same, so the spline is level too
    have hlevel := eq_of_cov_eq_zero h.pairwise hzero.symm
    have hsame : ∀ p ∈ samples, ∀ q ∈ samples, (p.y.toInt : ℚ) = q.y.toInt := by
      have hall : ∀ ⦃p⦄, p ∈ l → ∀ ⦃q⦄, q ∈ l → p.2 = q.2 :=
        List.Pairwise.forall_of_forall_of_flip (fun _ _ => rfl) hlevel (hlevel.imp fun h => h.symm)
      exact fun p hp q hq => hall (List.mem_map_of_mem hp) (List.mem_map_of_mem hq)
    have hne : samples ≠ [] := by
      rintro rfl
      cases hlen
    obtain ⟨p, hp, hmin⟩ := hmin.resolve_left fun hnil => hne hnil.1
    obtain ⟨q, hq, hmax⟩ := hmax.resolve_left fun hnil => hne hnil.1
    rw [hbuild, if_pos (by rw [← hzero, zero_div])]
    simp [hmin, hmax, hsame p hp q hq]

/-! ## Predictions -/

namespace LinearModel

variable {m : LinearModel} {a b : UInt64} {p q : Int32}

theorem trunc_mono {v w : ℚ} (h : v ≤ w) : trunc v ≤ trunc w := by
  rw [trunc, trunc]
  split
  · rename_i hv
    rw [if_pos (hv.trans h)]
    exact Int.floor_le_floor h
  · rename_i hv
    split
    · rename_i hw
      have hneg : ⌈v⌉ ≤ 0 := Int.ceil_le.mpr (by exact_mod_cast (lt_of_not_ge hv).le)
      exact hneg.trans (Int.floor_nonneg.mpr hw)
    · exact Int.ceil_le_ceil h

/-- A number whose fraction is dropped is in the range of `int` when it is near it. -/
theorem trunc_mem {v : ℚ} (hlo : -2 ^ 31 - 1 < v) (hhi : v < 2 ^ 31) :
    -2 ^ 31 ≤ trunc v ∧ trunc v < 2 ^ 31 := by
  rw [trunc]
  split
  · rename_i hv
    have hnonneg : 0 ≤ ⌊v⌋ := Int.floor_nonneg.mpr hv
    have hlt : ⌊v⌋ < 2 ^ 31 := Int.floor_lt.mpr (by exact_mod_cast hhi)
    exact ⟨by omega, hlt⟩
  · rename_i hv
    have hneg : ⌈v⌉ ≤ 0 := Int.ceil_le.mpr (by exact_mod_cast (lt_of_not_ge hv).le)
    have hgt : -2 ^ 31 - 1 < ⌈v⌉ := Int.lt_ceil.mpr (by exact_mod_cast hlo)
    exact ⟨by omega, by omega⟩

theorem predict_eq_some_iff : m.predict a = some p ↔
    (-2 ^ 31 - 1 < m.predictDouble a ∧ m.predictDouble a < 2 ^ 31) ∧
      p.toInt = trunc (m.predictDouble a) := by
  rw [predict]
  split
  · rename_i h
    obtain ⟨hge, hlt⟩ := trunc_mem h.1 h.2
    rw [Option.some.injEq, ← Int32.toInt_inj, Int32.toInt_ofInt_of_le hge hlt]
    exact ⟨fun heq => ⟨h, heq.symm⟩, fun heq => heq.2.symm⟩
  · rename_i h
    exact ⟨fun heq => (nomatch heq), fun heq => absurd heq.1 h⟩

theorem isSome_predict_iff : (m.predict a).isSome ↔
    -2 ^ 31 - 1 < m.predictDouble a ∧ m.predictDouble a < 2 ^ 31 := by
  rw [predict]
  split
  · rename_i h
    exact ⟨fun _ => h, fun _ => rfl⟩
  · rename_i h
    exact ⟨fun heq => (nomatch heq), fun heq => absurd heq h⟩

theorem predictDouble_mono (hm : 0 ≤ m.a) (hab : a ≤ b) : m.predictDouble a ≤ m.predictDouble b := by
  have hle : (a.toNat : ℚ) ≤ b.toNat := Nat.cast_le.mpr (UInt64.le_iff_toNat_le.mp hab)
  have hmul := mul_le_mul_of_nonneg_left hle hm
  rw [predictDouble, predictDouble]
  linarith

/-- Predictions of a model that ascends are in the order of the keys. -/
theorem toInt_predict_mono (hm : 0 ≤ m.a) (hab : a ≤ b) (hp : m.predict a = some p)
    (hq : m.predict b = some q) : p.toInt ≤ q.toInt := by
  rw [(predict_eq_some_iff.mp hp).2, (predict_eq_some_iff.mp hq).2]
  exact trunc_mono (predictDouble_mono hm hab)

/-- It is in range for all keys if it is for the first and the last. -/
theorem forall_isSome_predict_iff (hm : 0 ≤ m.a) : (∀ key, (m.predict key).isSome) ↔
    -2 ^ 31 - 1 < m.predictDouble 0 ∧ m.predictDouble uint64Max < 2 ^ 31 := by
  constructor
  · intro h
    exact ⟨(isSome_predict_iff.mp (h 0)).1, (isSome_predict_iff.mp (h uint64Max)).2⟩
  · rintro ⟨hlo, hhi⟩ key
    have hmin : (0 : UInt64) ≤ key := UInt64.le_iff_toNat_le.mpr (Nat.zero_le _)
    have hmax : key ≤ uint64Max := by
      refine UInt64.le_iff_toNat_le.mpr ?_
      have hlt := key.toNat_lt
      have huint : uint64Max.toNat = 2 ^ 64 - 1 := rfl
      omega
    exact isSome_predict_iff.mpr ⟨hlo.trans_le (predictDouble_mono hm hmin),
      (predictDouble_mono hm hmax).trans_lt hhi⟩

/-- What is asked of the root model: every key has a prediction, the groups are in the order of the
keys, and a key with a negative prediction is in the first group. -/
structure Routable (m : LinearModel) : Prop where
  /-- the conversion to `int` is defined -/
  inRange : ∀ key, (m.predict key).isSome
  /-- the groups ascend -/
  mono : ∀ n k₁ k₂ p₁ p₂, 0 < n → k₁ ≤ k₂ → m.predict k₁ = some p₁ → m.predict k₂ = some p₂ →
    groupOf p₁ n ≤ groupOf p₂ n
  /-- what is negative is put to the first -/
  negative : ∀ n key p, 0 < n → m.predict key = some p → p.toInt < 0 → groupOf p n = 0

/-- A model that ascends is all right where it is in range. -/
theorem routable_iff (hm : 0 ≤ m.a) : m.Routable ↔
    -2 ^ 31 - 1 < m.predictDouble 0 ∧ m.predictDouble uint64Max < 2 ^ 31 := by
  rw [← forall_isSome_predict_iff hm]
  refine ⟨Routable.inRange, fun h => ⟨h, ?_, ?_⟩⟩
  · intro n k₁ k₂ p₁ p₂ _ hle h₁ h₂
    have hmono := toInt_predict_mono hm hle h₁ h₂
    simp only [groupOf, RootModel.bmod_quotient]
    omega
  · intro n key p hn _ hneg
    simp only [groupOf, RootModel.bmod_quotient]
    omega

end LinearModel

/-! ## When the root model routes -/

/-- The sum of the positions of samples. -/
theorem sumY_bounds (samples : List Sample) :
    (-2 ^ 31 : ℚ) * samples.length ≤ sumY (points samples) ∧
      sumY (points samples) ≤ (2 ^ 31 - 1) * samples.length := by
  induction samples with
  | nil => simp [sumY, points]
  | cons p samples ih =>
    have hge : (-2 ^ 31 : ℚ) ≤ p.y.toInt := by exact_mod_cast Int32.le_toInt p.y
    have hle : (p.y.toInt : ℚ) ≤ 2 ^ 31 - 1 := by
      exact_mod_cast Int.le_sub_one_of_lt (Int32.toInt_lt p.y)
    have hcons : sumY (points (p :: samples)) =
        p.y.toInt + sumY (points samples) := List.sum_cons
    rw [hcons, List.length_cons]
    push_cast
    constructor <;> linarith

/-- One sample or more. -/
theorem eq_singleton_or (hne : samples ≠ []) : (∃ p, samples = [p]) ∨ 2 ≤ samples.length := by
  rw [← List.length_eq_one_iff]
  have hpos := List.length_pos_iff.mpr hne
  omega

/-- The slope of a trained model is not negative. -/
theorem train_a_nonneg (h : Ascending samples) (hne : samples ≠ []) : 0 ≤ (train samples).a := by
  rcases eq_singleton_or hne with ⟨p, rfl⟩ | hlen
  · rw [train_singleton]
  · rcases train_eq h hlen with ⟨hcov, htrain⟩ | ⟨-, htrain⟩
    · rw [htrain]
      exact (div_pos hcov (h.var_pos hlen)).le
    · rw [htrain]

/-- What a line through samples is at a key, without divisions. -/
theorem mul_predictDouble (h : Ascending samples) (hlen : 2 ≤ samples.length)
    (htrain : train samples = ⟨cov (points samples) / var (points samples),
      (sumY (points samples) - cov (points samples) / var (points samples) * sumX (points samples)) /
        samples.length⟩) (key : UInt64) :
    (train samples).predictDouble key * (samples.length * var (points samples)) =
      sumY (points samples) * var (points samples) +
        cov (points samples) * (samples.length * key.toNat - sumX (points samples)) := by
  set l := points samples
  have hlength : (l.length : ℚ) = samples.length := by rw [length_points]
  have hvalue : (train samples).predictDouble key = valueAt l key.toNat := by
    rw [htrain, LinearModel.predictDouble, valueAt, hlength]
  have hlen' : (l.length : ℚ) ≠ 0 := by
    rw [hlength, Nat.cast_ne_zero]
    omega
  rw [hvalue, mul_comm, ← hlength, mul_valueAt (h.var_pos hlen).ne' hlen']

/-- **The root model routes** exactly when the line through its samples stays in the range of
`int` up to the first and the last key. -/
theorem train_routable_iff (h : Ascending samples) (hne : samples ≠ []) :
    (train samples).Routable ↔ LineFits samples := by
  rw [LinearModel.routable_iff (train_a_nonneg h hne)]
  rcases eq_singleton_or hne with ⟨p, rfl⟩ | hlen
  · have hge : (-2 ^ 31 : ℚ) ≤ p.y.toInt := by exact_mod_cast Int32.le_toInt p.y
    have hlt : (p.y.toInt : ℚ) < 2 ^ 31 := by exact_mod_cast Int32.toInt_lt p.y
    rw [train_singleton]
    refine ⟨fun _ => .inl rfl, fun _ => ?_⟩
    simp only [LinearModel.predictDouble, zero_mul, zero_add]
    exact ⟨by linarith, hlt⟩
  · have hvar : 0 < var (points samples) := h.var_pos hlen
    have hn : (0 : ℚ) < samples.length := Nat.cast_pos.mpr (by omega)
    have hpos : 0 < samples.length * var (points samples) := mul_pos hn hvar
    have hone : samples.length ≠ 1 := by omega
    rw [LineFits, or_iff_right hone]
    rcases train_eq h hlen with ⟨hcov, htrain⟩ | ⟨hcov, htrain⟩
    · have hfirst : (train samples).predictDouble 0 * (samples.length * var (points samples)) =
          sumY (points samples) * var (points samples) - cov (points samples) * sumX (points samples) := by
        rw [mul_predictDouble h hlen htrain]
        simp [sub_eq_add_neg]
      have hlast : (train samples).predictDouble uint64Max * (samples.length * var (points samples)) =
          sumY (points samples) * var (points samples) +
            cov (points samples) * (samples.length * (2 ^ 64 - 1) - sumX (points samples)) := by
        have hmax : ((uint64Max.toNat : ℕ) : ℚ) = 2 ^ 64 - 1 := by
          have huint : uint64Max.toNat = 2 ^ 64 - 1 := rfl
          rw [huint]
          norm_num
        rw [mul_predictDouble h hlen htrain, hmax]
      rw [← hfirst, ← hlast, mul_lt_mul_iff_left₀ hpos, mul_lt_mul_iff_left₀ hpos]
    · -- a level line: the model is zero, and the condition holds
      obtain ⟨hlo, hhi⟩ := sumY_bounds samples
      rw [htrain]
      refine iff_of_true (by norm_num [LinearModel.predictDouble]) ?_
      rw [hcov]
      constructor <;> nlinarith

/-- Two samples that are far from each other. -/
theorem train_routable_far : Ascending [⟨0, 0⟩, ⟨0x8000000000000000, 8⟩] ∧
    (train [⟨0, 0⟩, ⟨0x8000000000000000, 8⟩]).Routable := by
  have h : Ascending [⟨0, 0⟩, ⟨0x8000000000000000, 8⟩] := by
    simp [Ascending]
  exact ⟨h, (train_routable_iff h (by simp)).mpr (by decide +kernel)⟩

/-- Two samples 15 keys to a position: at the largest key the conversion to `int` is undefined. -/
theorem train_dense_not_routable : Ascending [⟨0, 0⟩, ⟨120, 8⟩] ∧
    (train [⟨0, 0⟩, ⟨120, 8⟩]).predict uint64Max = none ∧ ¬ (train [⟨0, 0⟩, ⟨120, 8⟩]).Routable := by
  have hnone : (train [⟨0, 0⟩, ⟨120, 8⟩]).predict uint64Max = none := by decide +kernel
  refine ⟨by simp [Ascending], hnone, fun h => ?_⟩
  have hsome := h.inRange uint64Max
  rw [hnone] at hsome
  cases hsome

/-- **A trained model that routes is a root model of the index**: what is proved of an index
with any root model holds of one with this model. -/
theorem exists_rootModel {samples : List Sample} (h : Ascending samples) (hne : samples ≠ [])
    (hroutable : (train samples).Routable) :
    ∃ m : RootModel, ∀ key, (train samples).predict key = some (m.predict key) := by
  have hsome := hroutable.inRange
  refine ⟨⟨fun key => ((train samples).predict key).get (hsome key), fun {a b} hab => ?_⟩,
    fun key => (Option.some_get _).symm⟩
  exact LinearModel.toInt_predict_mono (train_a_nonneg h hne) hab (Option.some_get _).symm
    (Option.some_get _).symm

end NaliStore
