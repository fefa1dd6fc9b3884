import Mathlib.Algebra.Order.Field.Basic
import Mathlib.Order.Lattice
import Mathlib.Tactic.FieldSimp
import Mathlib.Tactic.Linarith
import Mathlib.Tactic.LinearCombination
import Mathlib.Tactic.Ring

/-!
# Lines above points

Lines that are not vertical, over an ordered field, and points that they have to stay above. The
difference of two lines is a line, so two places decide what is between them and what is outside
them (`le_between`, `le_left`, `le_right`).

A list of points is a chain when it goes to the right and bends downwards (`Concave`). Seen from a
point to the right of it, the slopes of a chain first fall and then rise, so the walk along it that
stops when the slope rises finds the least one (`descent_le`). A chain can stand for a larger set of
points: `Covers` says that a line which is between two given lines from some place on, and above the
points of the chain, is above all of them. The rules say how points may be taken from the chain and
added to the set.
-/

namespace Lines

/-- A line that is not vertical. -/
structure Line (K : Type*) where
  /-- the slope -/
  slope : K
  /-- the value at 0 -/
  icept : K

variable {K : Type*} [Field K]

/-- The height of a line at a place. -/
def height (ℓ : Line K) (x : K) : K := ℓ.slope * x + ℓ.icept

instance Line.coeHeight : CoeFun (Line K) fun _ => K → K := ⟨height⟩

/-- The line through a point with a slope. -/
def ray (p : K × K) (s : K) : Line K := ⟨s, p.2 - s * p.1⟩

/-- The slope from a point to another one. -/
def slopeTo (p d : K × K) : K := (p.2 - d.2) / (p.1 - d.1)

/-- The line through two points. -/
def join (d p : K × K) : Line K := ray p (slopeTo p d)

/-- The line that divides the distance between two lines. -/
def mix (t : K) (ℓ m : Line K) : Line K :=
  ⟨(1 - t) * ℓ.slope + t * m.slope, (1 - t) * ℓ.icept + t * m.icept⟩

/-- The line upside down. -/
def flip (ℓ : Line K) : Line K := ⟨-ℓ.slope, -ℓ.icept⟩

/-- On which side of the line from `o` to `a` the point `b` is. -/
def cross (o a b : K × K) : K := (a.1 - o.1) * (b.2 - o.2) - (a.2 - o.2) * (b.1 - o.1)

@[simp] theorem ray_self (p : K × K) (s : K) : ray p s p.1 = p.2 := by
  simp [ray, height]

@[simp] theorem slope_ray (p : K × K) (s : K) : (ray p s).slope = s := rfl

@[simp] theorem join_right (d p : K × K) : join d p p.1 = p.2 := ray_self p _

theorem join_left {d p : K × K} (h : d.1 ≠ p.1) : join d p d.1 = d.2 := by
  have hne : p.1 - d.1 ≠ 0 := sub_ne_zero.mpr h.symm
  simp only [join, ray, slopeTo, height]
  field_simp
  ring

theorem mix_apply (t : K) (ℓ m : Line K) (x : K) : mix t ℓ m x = (1 - t) * ℓ x + t * m x := by
  simp only [mix, height]
  ring

@[simp] theorem flip_apply (ℓ : Line K) (x : K) : flip ℓ x = -ℓ x := by
  simp only [flip, height]
  ring

/-- The difference of two lines at three places. -/
theorem three_places (ℓ m : Line K) (a b c : K) :
    (c - a) * (ℓ b - m b) = (c - b) * (ℓ a - m a) + (b - a) * (ℓ c - m c) := by
  simp only [height]
  ring

/-! ## Two lines -/

section TwoLines

variable [LinearOrder K] [IsStrictOrderedRing K] {ℓ m : Line K} {a b c z : K}

theorem le_between (hab : a ≤ b) (hbc : b ≤ c) (ha : m a ≤ ℓ a) (hc : m c ≤ ℓ c) : m b ≤ ℓ b := by
  rcases eq_or_lt_of_le (hab.trans hbc) with rfl | hac
  · obtain rfl : b = a := le_antisymm hbc hab
    exact ha
  · have hmul : 0 ≤ (c - a) * (ℓ b - m b) := by
      rw [three_places]
      exact add_nonneg (mul_nonneg (sub_nonneg.mpr hbc) (sub_nonneg.mpr ha))
        (mul_nonneg (sub_nonneg.mpr hab) (sub_nonneg.mpr hc))
    exact sub_nonneg.mp (nonneg_of_mul_nonneg_right hmul (sub_pos.mpr hac))

theorem le_left (hza : z ≤ a) (hac : a < c) (ha : m a ≤ ℓ a) (hc : ℓ c ≤ m c) : m z ≤ ℓ z := by
  by_contra hlt
  have hmid : ℓ a < m a := by
    have hsum : (c - z) * (ℓ a - m a) = (c - a) * (ℓ z - m z) + (a - z) * (ℓ c - m c) :=
      three_places ℓ m z a c
    have hfirst : (c - a) * (ℓ z - m z) < 0 :=
      mul_neg_of_pos_of_neg (sub_pos.mpr hac) (sub_neg.mpr (not_le.mp hlt))
    have hsecond : (a - z) * (ℓ c - m c) ≤ 0 :=
      mul_nonpos_of_nonneg_of_nonpos (sub_nonneg.mpr hza) (sub_nonpos.mpr hc)
    have hneg : (c - z) * (ℓ a - m a) < 0 := by linarith
    have hpos : 0 < c - z := sub_pos.mpr (hza.trans_lt hac)
    exact sub_neg.mp (neg_of_mul_neg_right hneg hpos.le)
  exact absurd ha (not_le.mpr hmid)

theorem le_right (hac : a < c) (hcz : c ≤ z) (ha : ℓ a ≤ m a) (hc : m c ≤ ℓ c) : m z ≤ ℓ z := by
  by_contra hlt
  have hmid : ℓ c < m c := by
    have hsum : (z - a) * (ℓ c - m c) = (z - c) * (ℓ a - m a) + (c - a) * (ℓ z - m z) :=
      three_places ℓ m a c z
    have hfirst : (c - a) * (ℓ z - m z) < 0 :=
      mul_neg_of_pos_of_neg (sub_pos.mpr hac) (sub_neg.mpr (not_le.mp hlt))
    have hsecond : (z - c) * (ℓ a - m a) ≤ 0 :=
      mul_nonpos_of_nonneg_of_nonpos (sub_nonneg.mpr hcz) (sub_nonpos.mpr ha)
    have hneg : (z - a) * (ℓ c - m c) < 0 := by linarith
    have hpos : 0 < z - a := sub_pos.mpr (hac.trans_le hcz)
    exact sub_neg.mp (neg_of_mul_neg_right hneg hpos.le)
  exact absurd hc (not_le.mpr hmid)

theorem slope_le (hac : a < c) (ha : ℓ a ≤ m a) (hc : m c ≤ ℓ c) : m.slope ≤ ℓ.slope := by
  have hmul : 0 ≤ (c - a) * (ℓ.slope - m.slope) := by
    simp only [height] at ha hc
    linarith
  exact sub_nonneg.mp (nonneg_of_mul_nonneg_right hmul (sub_pos.mpr hac))

theorem le_mix {t y : K} (h0 : 0 ≤ t) (h1 : t ≤ 1) (hℓ : y ≤ ℓ z) (hm : y ≤ m z) :
    y ≤ mix t ℓ m z := by
  rw [mix_apply]
  have hfirst := mul_le_mul_of_nonneg_left hℓ (sub_nonneg.mpr h1)
  have hsecond := mul_le_mul_of_nonneg_left hm h0
  linarith

theorem mix_le {t y : K} (h0 : 0 ≤ t) (h1 : t ≤ 1) (hℓ : ℓ z ≤ y) (hm : m z ≤ y) :
    mix t ℓ m z ≤ y := by
  rw [mix_apply]
  have hfirst := mul_le_mul_of_nonneg_left hℓ (sub_nonneg.mpr h1)
  have hsecond := mul_le_mul_of_nonneg_left hm h0
  linarith

/-- Between two lines there is one of every slope between theirs. -/
theorem exists_slope {s : K} (hℓ : ℓ.slope ≤ s) (hm : s ≤ m.slope) :
    ∃ t, 0 ≤ t ∧ t ≤ 1 ∧ (mix t ℓ m).slope = s := by
  rcases eq_or_lt_of_le (hℓ.trans hm) with heq | hlt
  · refine ⟨0, le_rfl, zero_le_one, ?_⟩
    simp only [mix]
    linarith
  · have hpos : 0 < m.slope - ℓ.slope := sub_pos.mpr hlt
    refine ⟨(s - ℓ.slope) / (m.slope - ℓ.slope), div_nonneg (sub_nonneg.mpr hℓ) hpos.le, ?_, ?_⟩
    · rw [div_le_one hpos]
      linarith
    · simp only [mix]
      field_simp
      ring

/-- Between two lines there is one through every point between them. -/
theorem exists_mix {y : K} (hℓ : ℓ z ≤ y) (hm : y ≤ m z) :
    ∃ t, 0 ≤ t ∧ t ≤ 1 ∧ mix t ℓ m z = y := by
  rcases eq_or_lt_of_le (hℓ.trans hm) with heq | hlt
  · refine ⟨0, le_rfl, zero_le_one, ?_⟩
    rw [mix_apply]
    linarith
  · have hpos : 0 < m z - ℓ z := sub_pos.mpr hlt
    refine ⟨(y - ℓ z) / (m z - ℓ z), div_nonneg (sub_nonneg.mpr hℓ) hpos.le, ?_, ?_⟩
    · rw [div_le_one hpos]
      linarith
    · rw [mix_apply]
      field_simp
      ring

end TwoLines

/-! ## Slopes from a point -/

section Slopes

variable [LinearOrder K] [IsStrictOrderedRing K] {ℓ : Line K} {p d e o q : K × K}

theorem le_ray_iff (hd : d.1 < p.1) {s : K} : d.2 ≤ ray p s d.1 ↔ s ≤ slopeTo p d := by
  have hpos : 0 < p.1 - d.1 := sub_pos.mpr hd
  rw [slopeTo, le_div_iff₀ hpos]
  simp only [ray, height]
  constructor <;> intro h <;> linarith

theorem slopeTo_le_iff (hd : d.1 < p.1) (he : e.1 < p.1) :
    slopeTo p d ≤ slopeTo p e ↔ (p.2 - d.2) * (p.1 - e.1) ≤ (p.2 - e.2) * (p.1 - d.1) := by
  rw [slopeTo, slopeTo, div_le_div_iff₀ (sub_pos.mpr hd) (sub_pos.mpr he)]

theorem join_sub (hde : d.1 < e.1) : (e.1 - d.1) * (join d e p.1 - p.2) = -cross d e p := by
  have hpos : 0 < e.1 - d.1 := sub_pos.mpr hde
  simp only [join, ray, slopeTo, cross, height]
  field_simp
  ring

theorem lt_join_iff (hde : d.1 < e.1) : p.2 < join d e p.1 ↔ cross d e p < 0 := by
  rw [← sub_pos, ← mul_pos_iff_of_pos_left (sub_pos.mpr hde), join_sub hde, neg_pos]

theorem join_lt_iff (hde : d.1 < e.1) : join d e p.1 < p.2 ↔ 0 < cross d e p := by
  have hsub : (e.1 - d.1) * (p.2 - join d e p.1) = cross d e p := by
    linear_combination -join_sub (p := p) hde
  rw [← sub_pos, ← mul_pos_iff_of_pos_left (sub_pos.mpr hde), hsub]

/-- A point on or below a segment is below a line that is above the ends of the segment. -/
theorem below_of_cross (hod : o.1 < d.1) (hdp : d.1 < p.1) (hcross : 0 ≤ cross o d p)
    (ho : o.2 ≤ ℓ o.1) (hp : p.2 ≤ ℓ p.1) : d.2 ≤ ℓ d.1 := by
  have hsum : (p.1 - o.1) * (ℓ d.1 - d.2) =
      (p.1 - d.1) * (ℓ o.1 - o.2) + (d.1 - o.1) * (ℓ p.1 - p.2) + cross o d p := by
    simp only [cross, height]
    ring
  have hnonneg : 0 ≤ (p.1 - o.1) * (ℓ d.1 - d.2) := by
    rw [hsum]
    have hfirst := mul_nonneg (sub_nonneg.mpr hdp.le) (sub_nonneg.mpr ho)
    have hsecond := mul_nonneg (sub_nonneg.mpr hod.le) (sub_nonneg.mpr hp)
    linarith
  exact sub_nonneg.mp (nonneg_of_mul_nonneg_right hnonneg (sub_pos.mpr (hod.trans hdp)))

/-- What is below the line from `d` through `e`, when `e` is below the line from `d` to `p`. -/
theorem slopeTo_le_of_cross (hde : d.1 < e.1) (heq : e.1 < q.1) (hqp : q.1 < p.1)
    (hcross : cross d e q < 0) (hslope : slopeTo p d < slopeTo p e) : slopeTo p d ≤ slopeTo p q := by
  have hep := heq.trans hqp
  have hdp := hde.trans hep
  rw [← not_le, slopeTo_le_iff hep hdp, not_le] at hslope
  rw [slopeTo_le_iff hdp hqp]
  have hid : (e.1 - d.1) * ((p.2 - q.2) * (p.1 - d.1) - (p.2 - d.2) * (p.1 - q.1)) =
      (q.1 - d.1) * ((p.2 - e.2) * (p.1 - d.1) - (p.2 - d.2) * (p.1 - e.1)) -
        (p.1 - d.1) * cross d e q := by
    simp only [cross]
    ring
  have hfirst : 0 ≤ (q.1 - d.1) * ((p.2 - e.2) * (p.1 - d.1) - (p.2 - d.2) * (p.1 - e.1)) :=
    mul_nonneg (sub_nonneg.mpr (hde.trans heq).le) (sub_nonneg.mpr hslope.le)
  have hsecond : (p.1 - d.1) * cross d e q < 0 := mul_neg_of_pos_of_neg (sub_pos.mpr hdp) hcross
  have hmul : 0 ≤ (e.1 - d.1) * ((p.2 - q.2) * (p.1 - d.1) - (p.2 - d.2) * (p.1 - q.1)) := by
    rw [hid]
    linarith
  exact sub_nonneg.mp (nonneg_of_mul_nonneg_right hmul (sub_pos.mpr hde))

end Slopes

/-! ## Chains -/

theorem sublist_snoc {α : Type*} {k l : List α} {x : α} (h : k.Sublist (l ++ [x])) :
    k.Sublist l ∨ ∃ k', k = k' ++ [x] ∧ k'.Sublist l := by
  obtain ⟨k₁, k₂, rfl, hk₁, hk₂⟩ := List.sublist_append_iff.mp h
  rcases List.sublist_singleton.mp hk₂ with rfl | rfl
  · exact .inl (by simpa using hk₁)
  · exact .inr ⟨k₁, rfl, hk₁⟩

section Chains

variable [LinearOrder K] {p q o d e : K × K} {l : List (K × K)}

/-- The points go to the right and bend downwards. -/
structure Concave (l : List (K × K)) : Prop where
  /-- to the right -/
  right : l.Pairwise (fun a b => a.1 < b.1)
  /-- downwards -/
  bend : ∀ a b c, [a, b, c].Sublist l → cross a b c < 0

theorem Concave.sublist {l' : List (K × K)} (h : Concave l) (hl : l'.Sublist l) : Concave l' :=
  ⟨h.right.sublist hl, fun a b c habc => h.bend a b c (habc.trans hl)⟩

theorem Concave.pair (hod : o.1 < d.1) : Concave [o, d] := by
  refine ⟨by simpa using hod, fun a b c habc => ?_⟩
  have := habc.length_le
  simp at this

/-- The walk along a chain: it goes on while the slope seen from `p` does not rise. -/
def descent (p : K × K) : List (K × K) → List (K × K)
  | d :: e :: l => if slopeTo p d < slopeTo p e then d :: e :: l else descent p (e :: l)
  | l => l

variable [IsStrictOrderedRing K]

/-- Four points to the right of each other turn the same way everywhere when they do so at two
places. -/
theorem cross_of_four (hod : o.1 < d.1) (hde : d.1 < e.1) (hep : e.1 < p.1)
    (hfirst : cross o d e < 0) (hsecond : cross d e p < 0) : cross o d p < 0 ∧ cross o e p < 0 := by
  have hdo := sub_pos.mpr hod
  have hed := sub_pos.mpr hde
  have hpe := sub_pos.mpr hep
  have hleft : (e.1 - d.1) * cross o d p = (p.1 - d.1) * cross o d e + (d.1 - o.1) * cross d e p := by
    simp only [cross]
    ring
  have hright : (e.1 - d.1) * cross o e p = (p.1 - e.1) * cross o d e + (e.1 - o.1) * cross d e p := by
    simp only [cross]
    ring
  have hneg : ∀ {s t u v : K}, 0 < s → 0 < t → u < 0 → v < 0 → s * u + t * v < 0 :=
    fun hs ht hu hv => add_neg (mul_neg_of_pos_of_neg hs hu) (mul_neg_of_pos_of_neg ht hv)
  constructor
  · refine neg_of_mul_neg_right (hleft ▸ ?_) hed.le
    exact hneg (sub_pos.mpr (hde.trans hep)) hdo hfirst hsecond
  · refine neg_of_mul_neg_right (hright ▸ ?_) hed.le
    exact hneg hpe (sub_pos.mpr (hod.trans hde)) hfirst hsecond

/-- A chain goes on with a point to the right of it, when it bends downwards at its last point. -/
theorem Concave.push (h : Concave (l ++ [d])) (hdp : d.1 < p.1)
    (hcross : ∀ o ∈ l, cross o d p < 0) : Concave (l ++ [d, p]) := by
  have happ : l ++ [d, p] = (l ++ [d]) ++ [p] := by simp
  have hright : ∀ o ∈ l, o.1 < d.1 := by
    simpa using (List.pairwise_append.mp h.right).2.2
  rw [happ]
  refine ⟨?_, fun a b c habc => ?_⟩
  · refine List.pairwise_append.mpr ⟨h.right, by simp, ?_⟩
    intro o ho q hq
    obtain rfl := List.mem_singleton.mp hq
    rcases List.mem_append.mp ho with ho | ho
    · exact (hright o ho).trans hdp
    · obtain rfl := List.mem_singleton.mp ho
      exact hdp
  · rcases sublist_snoc habc with hl | ⟨k, hk, hl⟩
    · exact h.bend a b c hl
    · obtain ⟨rfl, rfl⟩ : k = [a, b] ∧ c = p := by
        have hsplit : [a, b] ++ [c] = k ++ [p] := hk
        obtain ⟨hinit, hlast⟩ := List.append_inj' hsplit rfl
        exact ⟨hinit.symm, by simpa using hlast⟩
      rcases sublist_snoc hl with hll | ⟨k, hk, hll⟩
      · -- both before the last point: the turn there is passed back
        have hb : b ∈ l := hll.subset (by simp)
        have hab : a.1 < b.1 := by
          simpa using h.right.sublist (hll.trans (List.sublist_append_left l [d]))
        exact (cross_of_four hab (hright b hb) hdp (h.bend a b d (hll.append_right [d]))
          (hcross b hb)).1
      · obtain ⟨rfl, rfl⟩ : k = [a] ∧ b = d := by
          have hsplit : [a] ++ [b] = k ++ [d] := hk
          obtain ⟨hinit, hlast⟩ := List.append_inj' hsplit rfl
          exact ⟨hinit.symm, by simpa using hlast⟩
        exact hcross a (hll.subset (by simp))

/-- The last bend decides. -/
theorem Concave.push_of_last (h : Concave (l ++ [o, d])) (hdp : d.1 < p.1)
    (hcross : cross o d p < 0) : Concave (l ++ [o, d, p]) := by
  have happ : l ++ [o, d] = (l ++ [o]) ++ [d] := by simp
  have happ' : l ++ [o, d, p] = (l ++ [o]) ++ [d, p] := by simp
  rw [happ] at h
  rw [happ']
  refine h.push hdp fun a ha => ?_
  rcases List.mem_append.mp ha with hal | hal
  · have hsub : [a, o, d].Sublist ((l ++ [o]) ++ [d]) := by
      have hone : [a].Sublist l := List.singleton_sublist.mpr hal
      simpa using hone.append_right [o, d]
    have hxs := h.right.sublist hsub
    simp only [List.pairwise_cons, List.mem_cons, List.not_mem_nil, or_false, forall_eq_or_imp,
      forall_eq] at hxs
    exact (cross_of_four hxs.1.1 hxs.2.1 hdp (h.bend a o d hsub) hcross).2
  · obtain rfl := List.mem_singleton.mp hal
    exact hcross

/-- The walk ends at the least slope of all. -/
theorem descent_le (hl : Concave l) (hp : ∀ e ∈ l, e.1 < p.1) (h : d ∈ (descent p l).head?) :
    ∀ e ∈ l, slopeTo p d ≤ slopeTo p e := by
  induction l using descent.induct p with
  | case1 d' e l hrise =>
    rw [descent, if_pos hrise] at h
    obtain rfl : d' = d := by simpa using h
    intro q hq
    have hde : d'.1 < e.1 := (List.pairwise_cons.mp hl.right).1 e (by simp)
    simp only [List.mem_cons] at hq
    rcases hq with rfl | rfl | hq
    · exact le_rfl
    · exact hrise.le
    · have hright := (List.pairwise_cons.mp (List.pairwise_cons.mp hl.right).2).1 q hq
      refine slopeTo_le_of_cross hde hright (hp q (by simp [hq])) (hl.bend d' e q ?_) hrise
      exact ((List.singleton_sublist.mpr hq).cons_cons e).cons_cons d'
  | case2 d' e l hfall ih =>
    rw [descent, if_neg hfall] at h
    have hle := ih (hl.sublist (List.sublist_cons_self d' _)) (fun q hq => hp q (by simp [hq])) h
    intro q hq
    rcases List.mem_cons.mp hq with rfl | hq
    · exact (hle e (by simp)).trans (not_lt.mp hfall)
    · exact hle q hq
  | case3 l hshort =>
    rcases l with _ | ⟨q, _ | ⟨q', l⟩⟩
    · simp
    · obtain rfl : q = d := by simpa [descent] using h
      simp
    · exact absurd rfl (hshort q q' l)

end Chains

/-! ## A set of points behind a chain -/

section Sides

variable [LinearOrder K] {A B : Set (K × K)} {l l' u u' : List (K × K)} {f g : Line K}
  {p q o d : K × K} {last : K}

/-- A line above all points. -/
def Above (A : Set (K × K)) (ℓ : Line K) : Prop := ∀ q ∈ A, q.2 ≤ ℓ q.1

/-- A line below all points. -/
def Below (B : Set (K × K)) (ℓ : Line K) : Prop := ∀ q ∈ B, ℓ q.1 ≤ q.2

/-- What is above the points of the one list is above those of the other. -/
def Dominates (l' l : List (K × K)) : Prop := ∀ ℓ : Line K, Above {q | q ∈ l'} ℓ → Above {q | q ∈ l} ℓ

/-- A line that is above the chain, and between the two lines at a place from `last` on, is above all
points. -/
def Covers (A : Set (K × K)) (l : List (K × K)) (f g : Line K) (last : K) : Prop :=
  ∀ x, last ≤ x → ∀ ℓ : Line K, f x ≤ ℓ x → ℓ x ≤ g x → Above {q | q ∈ l} ℓ → Above A ℓ

theorem Dominates.trans {l'' : List (K × K)} (h : Dominates l'' l') (h' : Dominates l' l) :
    Dominates l'' l := fun ℓ hℓ => h' ℓ (h ℓ hℓ)

theorem Covers.refl {l : List (K × K)} : Covers {q | q ∈ l} l f g last :=
  fun _ _ _ _ _ h => h

/-- The lines come closer. -/
theorem Covers.narrow {f' g' : Line K} {last' : K} (h : Covers A l f g last) (hlast : last ≤ last')
    (hf : ∀ x, last' ≤ x → f x ≤ f' x) (hg : ∀ x, last' ≤ x → g' x ≤ g x) :
    Covers A l f' g' last' :=
  fun x hx ℓ hfx hgx => h x (hlast.trans hx) ℓ ((hf x hx).trans hfx) (hgx.trans (hg x hx))

/-- A point in the chain. -/
theorem Covers.push (h : Covers A l f g last) (hl : Dominates l' l) (hp : p ∈ l') :
    Covers (insert p A) l' f g last := by
  intro x hx ℓ hfx hgx hℓ q hq
  rcases Set.mem_insert_iff.mp hq with rfl | hq
  · exact hℓ q hp
  · exact h x hx ℓ hfx hgx (hl ℓ hℓ) q hq

variable [IsStrictOrderedRing K]

/-- The point before the last one goes, when it is not above the segment over it. -/
theorem Dominates.pop (hod : o.1 < d.1) (hdp : d.1 < p.1) (hcross : 0 ≤ cross o d p) :
    Dominates (l ++ [o, p]) (l ++ [o, d, p]) := by
  intro ℓ hℓ q hq
  simp only [Set.mem_ofPred_eq, List.mem_append, List.mem_cons, List.not_mem_nil, or_false] at hq
  have ho : o.2 ≤ ℓ o.1 := hℓ o (by simp)
  have hp : p.2 ≤ ℓ p.1 := hℓ p (by simp)
  rcases hq with hq | rfl | rfl | rfl
  · exact hℓ q (by simp [hq])
  · exact ho
  · exact below_of_cross hod hdp hcross ho hp
  · exact hp

/-- The chain starts where the upper line touches it. -/
theorem Covers.drop (h : Covers A (l ++ d :: l') f g last) (hg : Above A g) (hgd : g d.1 = d.2)
    (hd : d.1 < last) (hl : ∀ q ∈ l, q ∈ A ∧ q.1 ≤ d.1) : Covers A (d :: l') f g last := by
  intro x hx ℓ hfx hgx hℓ
  refine h x hx ℓ hfx hgx fun q hq => ?_
  rcases List.mem_append.mp hq with hq | hq
  · obtain ⟨hA, hqd⟩ := hl q hq
    have htouch : g d.1 ≤ ℓ d.1 := hgd.trans_le (hℓ d (by simp))
    exact (hg q hA).trans (le_left hqd (hd.trans_le hx) htouch hgx)
  · exact hℓ q hq

/-- A point below the lower line needs no place in the chain. -/
theorem Covers.skip (h : Covers A l f g last) (hq : q ∈ A) (hfq : f q.1 = q.2) (hqp : q.1 ≤ p.1)
    (hlast : last ≤ p.1) (hp : p.2 ≤ f p.1) : Covers (insert p A) l f g p.1 := by
  intro x hx ℓ hfx hgx hℓ
  have hA := h x (hlast.trans hx) ℓ hfx hgx hℓ
  intro q' hq'
  rcases Set.mem_insert_iff.mp hq' with rfl | hq'
  · have htouch : f q.1 ≤ ℓ q.1 := hfq.trans_le (hA q hq)
    exact hp.trans (le_between hqp hx htouch hfx)
  · exact hA q' hq'

end Sides

end Lines
