import NaliStore.LargeSigned

/-!
# The line of a segment

What `get_segment` returns describes the points accepted since the model was empty, also when the
next point has been refused: the rectangle stays as it was. For two points and more the range of slopes
is that of all lines within `epsilon` of the points (for a single one `get_slope_range` gives the slopes
0 and 1, whatever `epsilon` is), and the line of `get_floating_point_segment`, before it is rounded, is
one of them (`segment_of_run`). A point is accepted exactly when there is such a line for it and the
others.
-/

namespace NaliStore

open Lines Point

namespace CanonicalSegment

/-- The line of `get_floating_point_segment`, with its intercept at `origin`. -/
def line (large : ℤ → ℤ) (s : CanonicalSegment) (origin : ℤ) : Line ℚ :=
  let seg := s.getFloatingPointSegment large origin
  ⟨seg.1, seg.2 - seg.1 * origin⟩

/-- `rectangle` in the plane. -/
def rect (s : CanonicalSegment) : Rect ℚ := ⟨s.rect0.pt, s.rect1.pt, s.rect2.pt, s.rect3.pt⟩

variable {s : CanonicalSegment}

theorem not_onePoint (h0 : s.rect0.x < s.rect2.x) : s.onePoint = false := by
  simp [onePoint, h0.ne]

theorem getSlopeRange_eq (h0 : s.rect0.x < s.rect2.x) :
    s.getSlopeRange = (s.rect.floor.slope, s.rect.ceil.slope) := by
  rw [getSlopeRange, not_onePoint h0]
  simp [Slope.toLongDouble, sub, rect, Rect.floor, Rect.ceil, join, slopeTo]

/-- The two lines meet there, or they are parallel. -/
theorem getIntersection_eq (h0 : s.rect0.x < s.rect2.x) (h1 : s.rect1.x < s.rect3.x) :
    s.rect.floor (s.getIntersection id).1 = (s.getIntersection id).2 ∧
      (s.rect.ceil (s.getIntersection id).1 = (s.getIntersection id).2 ∨
        s.rect.ceil.slope = s.rect.floor.slope) := by
  have hd0 : (s.rect2.x - s.rect0.x : ℚ) ≠ 0 := sub_ne_zero.mpr (by exact_mod_cast h0.ne')
  have hd1 : (s.rect3.x - s.rect1.x : ℚ) ≠ 0 := sub_ne_zero.mpr (by exact_mod_cast h1.ne')
  rw [getIntersection, not_onePoint h0]
  simp only [Bool.false_eq_true, false_or]
  split
  · next heq =>
    refine ⟨join_left (sub_ne_zero.mp hd0).symm, .inr ?_⟩
    rw [Slope.eq_iff] at heq
    have hcast : ((s.rect2.y - s.rect0.y) * (s.rect3.x - s.rect1.x) : ℚ) =
        (s.rect2.x - s.rect0.x) * (s.rect3.y - s.rect1.y) := by
      exact_mod_cast heq
    simp only [rect, Rect.ceil, Rect.floor, join, slope_ray, slopeTo, pt]
    rw [div_eq_div_iff hd1 hd0]
    linarith
  · next hne =>
    rw [Slope.eq_iff] at hne
    have ha : ((s.rect2.x - s.rect0.x) * (s.rect3.y - s.rect1.y) -
        (s.rect2.y - s.rect0.y) * (s.rect3.x - s.rect1.x) : ℚ) ≠ 0 := by
      have hne' := Ne.symm hne
      rw [sub_ne_zero]
      exact_mod_cast hne'
    simp only [rect, Rect.ceil, Rect.floor, join, ray, slopeTo, pt, height, sub, id_eq, Int.cast_sub,
      Int.cast_mul]
    have hb := div_mul_cancel₀ ((s.rect1.x - s.rect0.x) * (s.rect3.y - s.rect1.y) -
      (s.rect1.y - s.rect0.y) * (s.rect3.x - s.rect1.x) : ℚ) ha
    revert hb
    generalize (_ / _ : ℚ) = b
    intro hb
    constructor
    · field_simp
      ring
    · left
      field_simp
      linear_combination hb

/-- The line is the one in the middle between the flattest and the steepest one, except that it is
the flattest one when the two are parallel. -/
theorem line_eq (h0 : s.rect0.x < s.rect2.x) (h1 : s.rect1.x < s.rect3.x) (origin : ℤ) :
    ∃ t, 0 ≤ t ∧ t ≤ 1 ∧ ∀ x, s.line id origin x = mix t s.rect.floor s.rect.ceil x := by
  obtain ⟨hfloor, hceil⟩ := getIntersection_eq h0 h1
  have hline : ∀ x, s.line id origin x = (s.getIntersection id).2 +
      (s.rect.floor.slope + s.rect.ceil.slope) / 2 * (x - (s.getIntersection id).1) := by
    intro x
    rw [line, getFloatingPointSegment, not_onePoint h0]
    simp only [Bool.false_eq_true, if_false, getSlopeRange_eq h0, height]
    ring
  simp only [hline, mix_apply]
  rcases hceil with hmeet | hparallel
  · refine ⟨1 / 2, by norm_num, by norm_num, fun x => ?_⟩
    simp only [height] at hfloor hmeet ⊢
    linear_combination (-1 / 2) * hfloor + (-1 / 2) * hmeet
  · refine ⟨0, le_rfl, zero_le_one, fun x => ?_⟩
    simp only [height] at hfloor ⊢
    rw [hparallel]
    linear_combination -hfloor

end CanonicalSegment

namespace Oplm

variable {o o' : Oplm} {epsilon x y : ℤ} {pts : List StoredPoint}

theorem Holds.rect_eq (h : Holds epsilon pts o) (h2 : 2 ≤ pts.length) : o.getSegment.rect = o.rect := by
  have hcount : o.pointsInHull ≠ 1 := by
    rw [h.count]
    omega
  rw [getSegment, if_neg hcount]
  rfl

theorem Holds.rect_lt (h : Holds epsilon pts o) (h2 : 2 ≤ pts.length) :
    o.getSegment.rect0.x < o.getSegment.rect2.x ∧ o.getSegment.rect1.x < o.getSegment.rect3.x := by
  have hcount : o.pointsInHull ≠ 1 := by
    rw [h.count]
    omega
  rw [getSegment, if_neg hcount]
  exact ⟨(h.dug h2).rect0_lt, (h.dug h2).rect1_lt⟩

/-- The line of the segment is within `epsilon` of every point of the hull. -/
theorem Holds.line_within (h : Holds epsilon pts o) (hne : pts ≠ []) (origin : ℤ) :
    Within epsilon pts (o.getSegment.line id origin) := by
  rcases Nat.lt_or_ge pts.length 2 with h1 | h2
  · obtain ⟨s, rfl⟩ : ∃ s, pts = [s] := by
      have := List.length_pos_iff.mpr hne
      exact List.length_eq_one_iff.mp (by omega)
    obtain ⟨-, -, -, -, hr0, hr1⟩ := h.single s rfl
    have hhalf : (s.y + s.y).tdiv 2 = s.y := by
      rw [← mul_two, Int.mul_tdiv_cancel s.y two_ne_zero]
    have hseg : o.getSegment.getFloatingPointSegment id origin = (0, (s.y : ℚ)) := by
      simp [getSegment, h.count, CanonicalSegment.getFloatingPointSegment,
        CanonicalSegment.onePoint, hr0, hr1, hhalf]
    intro s' hs'
    obtain rfl := List.mem_singleton.mp hs'
    simp only [CanonicalSegment.line, hseg, height]
    simpa using h.nonneg
  · obtain ⟨hr0, hr1⟩ := h.rect_lt h2
    obtain ⟨t, ht0, ht1, hline⟩ := CanonicalSegment.line_eq hr0 hr1 origin
    have htunnel := (h.dug h2).tunnel
    rw [within_iff]
    rw [h.rect_eq h2] at hline
    refine ⟨fun q hq => ?_, fun q hq => ?_⟩
    · rw [hline]
      exact le_mix ht0 ht1 (htunnel.floor.1 q hq) (htunnel.ceil.1 q hq)
    · rw [hline]
      exact mix_le ht0 ht1 (htunnel.floor.2 q hq) (htunnel.ceil.2 q hq)

/-- The range of slopes is that of all lines within `epsilon`. -/
theorem Holds.slope_iff (h : Holds epsilon pts o) (h2 : 2 ≤ pts.length) (m : ℚ) :
    (∃ ℓ, Within epsilon pts ℓ ∧ ℓ.slope = m) ↔
      o.getSegment.getSlopeRange.1 ≤ m ∧ m ≤ o.getSegment.getSlopeRange.2 := by
  rw [CanonicalSegment.getSlopeRange_eq (h.rect_lt h2).1, h.rect_eq h2]
  have htunnel := (h.dug h2).tunnel
  constructor
  · rintro ⟨ℓ, hℓ, rfl⟩
    rw [within_iff] at hℓ
    constructor
    · refine slope_le htunnel.floorTouch.2.2 ?_ ?_
      · rw [htunnel.floor_r0]
        exact hℓ.2 _ htunnel.floorTouch.1
      · rw [htunnel.floor_r2]
        exact hℓ.1 _ htunnel.floorTouch.2.1
    · refine slope_le htunnel.ceilTouch.2.2 ?_ ?_
      · rw [htunnel.ceil_r1]
        exact hℓ.1 _ htunnel.ceilTouch.1
      · rw [htunnel.ceil_r3]
        exact hℓ.2 _ htunnel.ceilTouch.2.1
  · rintro ⟨hlow, hhigh⟩
    obtain ⟨t, ht0, ht1, hslope⟩ := exists_slope hlow hhigh
    refine ⟨_, within_iff.mpr ⟨fun q hq => ?_, fun q hq => ?_⟩, hslope⟩
    · exact le_mix ht0 ht1 (htunnel.floor.1 q hq) (htunnel.ceil.1 q hq)
    · exact mix_le ht0 ht1 (htunnel.floor.2 q hq) (htunnel.ceil.2 q hq)

/-- A point to the right of the last one is accepted exactly when a line is within `epsilon` of it and
of the points accepted since the model was empty. -/
theorem Grown.addPoint_iff (h : Grown epsilon pts o) (hx : ∀ s ∈ pts, s.x < x) (y : ℤ) :
    ∃ b o', o.addPoint id x y = .ok (b, o') ∧
      (b = true ↔ ∃ ℓ, Within epsilon (pts ++ [⟨x, y⟩]) ℓ) := by
  have hholds := h.holds
  have hno : ¬(0 < o.pointsInHull ∧ x ≤ o.lastX) := by
    rintro ⟨hpos, hle⟩
    rw [hholds.count, List.length_pos_iff] at hpos
    have hlast := hholds.last _ (List.getLast?_eq_getLast_of_ne_nil hpos)
    have := hx _ (List.getLast_mem hpos)
    omega
  obtain ⟨⟨b, o'⟩, hadd⟩ : ∃ r, o.addPoint id x y = .ok r := by
    rw [addPoint, if_neg hno]
    dsimp only
    split
    · exact ⟨_, rfl⟩
    · split <;> exact ⟨_, rfl⟩
  refine ⟨b, o', hadd, ?_⟩
  cases b with
  | true =>
    simp only [true_iff]
    exact ⟨_, (hholds.accept hadd).line_within (by simp) 0⟩
  | false =>
    simp only [Bool.false_eq_true, false_iff]
    rcases addPoint_cases hadd with ⟨-, hb, -⟩ | ⟨-, -, hb, -⟩ | ⟨h2, hlt, hextend⟩
    · cases hb
    · cases hb
    · have hd := hholds.dug (hholds.count ▸ h2)
      have heq := hholds.eq
      subst heq
      have hd' : { o with lastX := x }.Dug (lowers o.epsilon pts) (uppers o.epsilon pts) o.lastX :=
        ⟨hd.lowerStart, hd.upperStart, hd.tunnel⟩
      exact hd'.extend_false rfl rfl hlt hextend

/-- A point that is not accepted leaves the segment. -/
theorem getSegment_of_reject {large : ℤ → ℤ} (hadd : o.addPoint large x y = .ok (false, o')) :
    o'.getSegment = o.getSegment ∧ o'.pointsInHull = 0 ∧ 2 ≤ o.pointsInHull := by
  rcases addPoint_cases hadd with ⟨-, hb, -⟩ | ⟨-, -, hb, -⟩ | ⟨h2, -, hextend⟩
  · cases hb
  · cases hb
  · rw [extend] at hextend
    split at hextend
    · obtain ⟨-, rfl⟩ := Prod.mk.inj hextend
      have : o.pointsInHull ≠ 1 := by omega
      exact ⟨by simp [getSegment, this], rfl, h2⟩
    · simp at hextend

theorem Holds.first_eq (h : Holds epsilon pts o) : ∀ s ∈ pts.head?, o.getSegment.first = s.x := by
  intro s hs
  rw [← h.first s hs, getSegment]
  split <;> rfl

/-! ## In a run of the code -/

/-- The line that the code computes is the one without bounds. -/
theorem Ranged.line_int128 (h : o.Ranged) (origin : ℤ) :
    o.getSegment.line int128 origin = o.getSegment.line id origin := by
  simp only [CanonicalSegment.line, h.getFloatingPointSegment_int128]

theorem Reached.line_within (h : Reached epsilon pts o) (hne : pts ≠ []) (origin : ℤ) :
    Within epsilon pts (o.getSegment.line int128 origin) := by
  rw [h.ranged.line_int128]
  exact h.grown.holds.line_within hne origin

theorem Reached.addPoint_iff (h : Reached epsilon pts o) (hx : ∀ s ∈ pts, s.x < x)
    (hxy : (⟨x, y⟩ : StoredPoint).InRange) :
    ∃ b o', o.addPoint int128 x y = .ok (b, o') ∧
      (b = true ↔ ∃ ℓ, Within epsilon (pts ++ [⟨x, y⟩]) ℓ) := by
  rw [h.ranged.addPoint_int128 hxy]
  exact h.grown.addPoint_iff hx y

/-- **In every run of the code** the model describes the points accepted since it was empty. A point to
the right of them is accepted exactly when some line is within `epsilon` of them and of it, and one that
is refused does not change the segment. The line of `get_floating_point_segment` is within `epsilon` of
all of them, and for two points and more `get_slope_range` is the range of the slopes of all such
lines. -/
theorem segment_of_run (h : Reached epsilon pts o) :
    (∀ x y, (∀ s ∈ pts, s.x < x) → (⟨x, y⟩ : StoredPoint).InRange →
      ∃ b o', o.addPoint int128 x y = .ok (b, o') ∧
        (b = true ↔ ∃ ℓ, Within epsilon (pts ++ [⟨x, y⟩]) ℓ) ∧
        (b = false → o'.getSegment = o.getSegment)) ∧
    (pts ≠ [] → ∀ origin, Within epsilon pts (o.getSegment.line int128 origin)) ∧
    (∀ s ∈ pts.head?, o.getSegment.first = s.x) ∧
    (2 ≤ pts.length → ∀ m : ℚ, (∃ ℓ, Within epsilon pts ℓ ∧ ℓ.slope = m) ↔
      o.getSegment.getSlopeRange.1 ≤ m ∧ m ≤ o.getSegment.getSlopeRange.2) := by
  refine ⟨fun x y hx hxy => ?_, fun hne origin => h.line_within hne origin, h.grown.holds.first_eq,
    fun h2 m => h.grown.holds.slope_iff h2 m⟩
  obtain ⟨b, o', hadd, hb⟩ := h.addPoint_iff hx hxy
  refine ⟨b, o', hadd, hb, ?_⟩
  rintro rfl
  exact (getSegment_of_reject hadd).1

/-- After two points, a third one that no line reaches. -/
theorem segment_of_two : ∃ o, Reached 1 [⟨0, 0⟩, ⟨1, 5⟩] o ∧
    Within 1 [⟨0, 0⟩, ⟨1, 5⟩] (o.getSegment.line int128 0) ∧
    (∀ m : ℚ, (∃ ℓ, Within 1 [⟨0, 0⟩, ⟨1, 5⟩] ℓ ∧ ℓ.slope = m) ↔ 3 ≤ m ∧ m ≤ 7) ∧
    ∃ b o', o.addPoint int128 2 0 = .ok (b, o') ∧
      (b = true ↔ ∃ ℓ, Within 1 ([⟨0, 0⟩, ⟨1, 5⟩] ++ [⟨2, 0⟩]) ℓ) ∧
      (b = false → o'.getSegment = o.getSegment) := by
  have hreached : Reached 1 [⟨0, 0⟩, ⟨1, 5⟩] _ :=
    .accept (.accept (.fresh (by decide) rfl) ⟨by decide, by decide, by decide⟩ rfl)
      ⟨by decide, by decide, by decide⟩ rfl
  obtain ⟨hadd, hwithin, -, hslopes⟩ := segment_of_run hreached
  refine ⟨_, hreached, hwithin (by simp) 0, fun m => (hslopes le_rfl m).trans ?_,
    hadd 2 0 (by decide) ⟨by decide, by decide, by decide⟩⟩
  norm_num [getSegment, CanonicalSegment.getSlopeRange, CanonicalSegment.onePoint, Point.sub,
    Slope.toLongDouble]

end Oplm

end NaliStore
