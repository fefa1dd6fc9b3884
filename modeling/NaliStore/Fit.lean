import NaliStore.Hulls

/-!
# The points of the hull

`Holds` says what an `OptimalPiecewiseLinearModel` knows of the points it has accepted since it was
empty: the hulls and the rectangle are those of the tunnel between the points lowered by `epsilon` and
the points raised by it. Every accepted point keeps this (`Holds.accept`), so it is so in every run
(`Grown.holds`); for a point that is not accepted no line is left (`Dug.extend_false`).

The second search of `add_point` runs over a hull that may have the new point at its end already.
With `epsilon` above 0 the search stops before it. With `epsilon` 0 all lines through the points are
one, and nothing is ever searched (`Dug.ceil_le_floor`).
-/

namespace NaliStore

open Lines Point

/-! ## The comparisons -/

section Comparisons

variable {a b p : Point}

theorem lt_end_iff (hab : a.x < b.x) : (p.sub b).lt id (b.sub a) ↔ p.pt.2 < join a.pt b.pt p.pt.1 := by
  rw [lt_join_iff (by simpa using hab), ← cross_pt, Int.cast_lt_zero]
  simp only [Slope.lt_iff, sub, Point.cross, id_eq]
  constructor <;> intro h <;> linarith

theorem lt_start_iff (hab : a.x < b.x) : (p.sub a).lt id (b.sub a) ↔ p.pt.2 < join a.pt b.pt p.pt.1 := by
  rw [lt_join_iff (by simpa using hab), ← cross_pt, Int.cast_lt_zero]
  simp only [Slope.lt_iff, sub, Point.cross, id_eq]
  constructor <;> intro h <;> linarith

theorem gt_end_iff (hab : a.x < b.x) : (p.sub b).gt id (b.sub a) ↔ join a.pt b.pt p.pt.1 < p.pt.2 := by
  rw [join_lt_iff (by simpa using hab), ← cross_pt, Int.cast_pos]
  simp only [Slope.gt_iff, sub, Point.cross, id_eq]
  constructor <;> intro h <;> linarith

theorem gt_start_iff (hab : a.x < b.x) : (p.sub a).gt id (b.sub a) ↔ join a.pt b.pt p.pt.1 < p.pt.2 := by
  rw [join_lt_iff (by simpa using hab), ← cross_pt, Int.cast_pos]
  simp only [Slope.gt_iff, sub, Point.cross, id_eq]
  constructor <;> intro h <;> linarith

end Comparisons

/-! ## A hull with one point more -/

section Tighten

variable {A B : Set (ℚ × ℚ)} {hull hull' front : List Point} {start start' : ℕ} {r : Rect ℚ}
  {last : ℚ} {p : Point}

theorem LeftOf.below (h : LeftOf hull start p front) :
    ∀ e ∈ chain hull start, e.1 = p.pt.1 → e.2 ≤ p.pt.2 := by
  intro e he hep
  have hfront : ∀ q ∈ front.drop start, q.pt.1 ≠ p.pt.1 := by
    intro q hq
    simpa using (h.left q hq).ne
  rcases h.rest with rfl | ⟨q, rfl, -, hqy⟩
  · obtain ⟨q, hq, rfl⟩ := List.mem_map.mp he
    exact absurd hep (hfront q hq)
  · rw [chain, List.drop_append_of_le_length h.start_lt.le, List.map_append] at he
    rcases List.mem_append.mp he with he | he
    · obtain ⟨q, hq, rfl⟩ := List.mem_map.mp he
      exact absurd hep (hfront q hq)
    · obtain rfl : e = q.pt := by simpa using he
      simpa using hqy.le

/-- The search and the update for a point to be below, with the hull of the points to be above first. -/
theorem tighten (h : Tunnel A B (chain hull start) (chain hull' start') r last) (hlast : last ≤ p.x)
    (hfloor : r.floor p.pt.1 ≤ p.pt.2) (hceil : p.pt.2 ≤ r.ceil p.pt.1)
    (hfront : LeftOf hull start p front) (hstart' : start' < hull'.length)
    (hleft : ∀ q ∈ hull'.drop start', q.x < p.x) :
    let i := Oplm.extremeFrom (Slope.gt id) p hull start
    let hull'' := hull'.take (Oplm.popEnd id (· ≤ 0) hull' start' p hull'.length) ++ [p]
    Tunnel A (insert p.pt B) (chain hull i) (chain hull'' start')
        { r with r1 := (hull.getD i default).pt, r3 := p.pt } p.x ∧
      i < front.length ∧ start' < hull''.length := by
  obtain ⟨l₀, l₁, hi, -, hdp, hsplit, hchain, hmin⟩ := extremeFrom_split hfront h.lower.concave
  have hdown : chain (hull'.map down) start' = (chain hull' start').map turn := chain_down _ _
  obtain ⟨hlen, hconcave, hdom, hmem, hsub⟩ := popEnd_chain (p := p.down) (by simpa using hstart')
    (by
      intro q hq
      rw [← List.map_drop] at hq
      obtain ⟨q', hq', rfl⟩ := List.mem_map.mp hq
      exact hleft q' hq')
    (hdown ▸ h.upper.concave)
  have hhull : ∀ e, (hull'.map down).take e ++ [p.down] = (hull'.take e ++ [p]).map down := by
    simp [List.map_take]
  rw [← popEnd_down, List.length_map, hhull, chain_down] at hconcave hdom hmem hsub
  rw [← popEnd_down, List.length_map, hhull, List.length_map] at hlen
  rw [hdown] at hdom hsub
  refine ⟨?_, hi, hlen⟩
  rw [hchain]
  refine h.insertUpper hlast hfloor hceil hsplit (by simpa using hdp) (by simpa using hmin)
    hfront.below hconcave hdom ?_ ?_
  · rw [pt_down, List.mem_map] at hmem
    obtain ⟨e, he, heq⟩ := hmem
    rwa [← turn_turn p.pt, ← heq, turn_turn]
  · intro e he
    have := hsub (turn e) (List.mem_map_of_mem he)
    rw [pt_down, List.mem_map] at this
    rcases this with heq | ⟨e', he', heq⟩
    · exact .inl (by rw [← turn_turn e, heq, turn_turn])
    · exact .inr (by rwa [← turn_turn e, ← heq, turn_turn])

end Tighten

/-! ## The points of the hull -/

/-- The points a line has to be above. -/
def lowers (epsilon : ℤ) (pts : List StoredPoint) : Set (ℚ × ℚ) :=
  {q | ∃ s ∈ pts, q = (⟨s.x, s.y - epsilon⟩ : Point).pt}

/-- The points a line has to be below. -/
def uppers (epsilon : ℤ) (pts : List StoredPoint) : Set (ℚ × ℚ) :=
  {q | ∃ s ∈ pts, q = (⟨s.x, s.y + epsilon⟩ : Point).pt}

/-- A line is within `epsilon` of every point. -/
def Within (epsilon : ℤ) (pts : List StoredPoint) (ℓ : Line ℚ) : Prop :=
  ∀ s ∈ pts, |ℓ s.x - s.y| ≤ epsilon

theorem within_iff {epsilon : ℤ} {pts : List StoredPoint} {ℓ : Line ℚ} :
    Within epsilon pts ℓ ↔ Above (lowers epsilon pts) ℓ ∧ Below (uppers epsilon pts) ℓ := by
  constructor
  · intro h
    refine ⟨?_, ?_⟩
    · rintro q ⟨s, hs, rfl⟩
      have := abs_le.mp (h s hs)
      simp only [pt_fst, pt_snd, Int.cast_sub]
      linarith
    · rintro q ⟨s, hs, rfl⟩
      have := abs_le.mp (h s hs)
      simp only [pt_fst, pt_snd, Int.cast_add]
      linarith
  · rintro ⟨habove, hbelow⟩ s hs
    have hlow := habove _ ⟨s, hs, rfl⟩
    have hhigh := hbelow _ ⟨s, hs, rfl⟩
    simp only [pt_fst, pt_snd, Int.cast_sub, Int.cast_add] at hlow hhigh
    exact abs_le.mpr ⟨by linarith, by linarith⟩

theorem lowers_snoc (epsilon : ℤ) (pts : List StoredPoint) (s : StoredPoint) :
    lowers epsilon (pts ++ [s]) =
      insert (⟨s.x, s.y - epsilon⟩ : Point).pt (lowers epsilon pts) := by
  ext q
  simp only [lowers, List.mem_append, List.mem_singleton, Set.mem_ofPred_eq, Set.mem_insert_iff]
  constructor
  · rintro ⟨s', hs | rfl, rfl⟩
    · exact .inr ⟨s', hs, rfl⟩
    · exact .inl rfl
  · rintro (rfl | ⟨s', hs, rfl⟩)
    · exact ⟨s, .inr rfl, rfl⟩
    · exact ⟨s', .inl hs, rfl⟩

theorem uppers_snoc (epsilon : ℤ) (pts : List StoredPoint) (s : StoredPoint) :
    uppers epsilon (pts ++ [s]) =
      insert (⟨s.x, s.y + epsilon⟩ : Point).pt (uppers epsilon pts) := by
  ext q
  simp only [uppers, List.mem_append, List.mem_singleton, Set.mem_ofPred_eq, Set.mem_insert_iff]
  constructor
  · rintro ⟨s', hs | rfl, rfl⟩
    · exact .inr ⟨s', hs, rfl⟩
    · exact .inl rfl
  · rintro (rfl | ⟨s', hs, rfl⟩)
    · exact ⟨s, .inr rfl, rfl⟩
    · exact ⟨s', .inl hs, rfl⟩

namespace Oplm

/-- `rectangle` in the plane. -/
def rect (o : Oplm) : Rect ℚ := ⟨o.rect0.pt, o.rect1.pt, o.rect2.pt, o.rect3.pt⟩

/-- The hulls and the rectangle are those of a tunnel. -/
structure Dug (o : Oplm) (A B : Set (ℚ × ℚ)) (last : ℤ) : Prop where
  /-- the hull of the lower points is not empty -/
  lowerStart : o.lowerStart < o.lowerHull.length
  /-- the hull of the upper points is not empty -/
  upperStart : o.upperStart < o.upperHull.length
  /-- the tunnel -/
  tunnel : Tunnel A B (chain o.lowerHull o.lowerStart) (chain o.upperHull o.upperStart) o.rect last

variable {o : Oplm} {A B : Set (ℚ × ℚ)} {last x y : ℤ}

theorem Dug.lower_left (h : o.Dug A B last) (hA : ∀ q ∈ A, q.1 < x) :
    ∀ q ∈ o.lowerHull.drop o.lowerStart, q.x < x := by
  intro q hq
  simpa using hA q.pt (h.tunnel.lower.mem q.pt (List.mem_map_of_mem hq))

theorem Dug.upper_left (h : o.Dug A B last) (hB : ∀ q ∈ B, q.1 < x) :
    ∀ q ∈ o.upperHull.drop o.upperStart, q.x < x := by
  intro q hq
  have hmem := h.tunnel.upper.mem (turn q.pt) (List.mem_map_of_mem (List.mem_map_of_mem hq))
  simpa using hB q.pt (by simpa using hmem)

theorem Dug.lower_lt (h : o.Dug A B last) (hx : last < x) : ∀ q ∈ A, q.1 < x :=
  fun q hq => (h.tunnel.lower.bound q hq).trans_lt (by exact_mod_cast hx)

theorem Dug.upper_lt (h : o.Dug A B last) (hx : last < x) : ∀ q ∈ B, q.1 < x := by
  intro q hq
  have := h.tunnel.upper.bound (turn q) (by simpa using hq)
  exact lt_of_le_of_lt this (by exact_mod_cast hx)

theorem Dug.rect0_lt (h : o.Dug A B last) : o.rect0.x < o.rect2.x := by
  have : (o.rect0.x : ℚ) < o.rect2.x := h.tunnel.floorTouch.2.2
  exact_mod_cast this

theorem Dug.rect1_lt (h : o.Dug A B last) : o.rect1.x < o.rect3.x := by
  have : (o.rect1.x : ℚ) < o.rect3.x := h.tunnel.ceilTouch.2.2
  exact_mod_cast this

theorem upperHull_tightenUpper (o : Oplm) (x y : ℤ) :
    (o.tightenUpper id x y ⟨x, y + o.epsilon⟩).upperHull =
      o.upperHull.take (popEnd id (· ≤ 0) o.upperHull o.upperStart ⟨x, y + o.epsilon⟩
        o.upperHull.length) ++ [⟨x, y + o.epsilon⟩] := by
  simp [tightenUpper, upperHull, List.map_take]

theorem lowerHull_tightenLower (o : Oplm) (x y : ℤ) :
    (o.tightenLower id x y ⟨x, y - o.epsilon⟩).lowerHull =
      o.lowerHull.take (popEnd id (0 ≤ ·) o.lowerHull o.lowerStart ⟨x, y - o.epsilon⟩
        o.lowerHull.length) ++ [⟨x, y - o.epsilon⟩] := by
  simp [tightenLower, lowerHull, List.map_take]

theorem Dug.tightenUpper {p : Point} (h : o.Dug A B last) (hp : p = ⟨x, y + o.epsilon⟩)
    (hx : last < x) (hfloor : o.rect.floor p.pt.1 ≤ p.pt.2) (hceil : p.pt.2 ≤ o.rect.ceil p.pt.1) :
    (o.tightenUpper id x y p).Dug A (insert p.pt B) x := by
  have hpx : p.x = x := by rw [hp]
  have hfront : LeftOf o.lowerHull o.lowerStart p o.lowerHull :=
    ⟨h.lowerStart, hpx ▸ h.lower_left (h.lower_lt hx), .inl rfl⟩
  obtain ⟨htunnel, hi, hlen⟩ := tighten h.tunnel (by rw [hpx]; exact_mod_cast hx.le) hfloor hceil
    hfront h.upperStart (hpx ▸ h.upper_left (h.upper_lt hx))
  have hhull := upperHull_tightenUpper o x y
  rw [← hp] at hhull
  refine ⟨hi, ?_, ?_⟩
  · rw [hhull]
    exact hlen
  · rw [hhull, ← hpx]
    exact htunnel

theorem Dug.tightenLower {p : Point} {front : List Point} (h : o.Dug A B last)
    (hp : p = ⟨x, y - o.epsilon⟩) (hx : last ≤ x) (hA : ∀ q ∈ A, q.1 < x)
    (hfront : LeftOf (o.upperHull.map down) o.upperStart p.down front)
    (hfloor : o.rect.floor p.pt.1 ≤ p.pt.2) (hceil : p.pt.2 ≤ o.rect.ceil p.pt.1) :
    (o.tightenLower id x y p).Dug (insert p.pt A) B x := by
  have hpx : p.x = x := by rw [hp]
  have hmirror := h.tunnel.mirror
  rw [← chain_down, ← chain_down] at hmirror
  obtain ⟨htunnel, hi, hlen⟩ := tighten hmirror (p := p.down)
    (by rw [down_x, hpx]; exact_mod_cast hx) (by simpa using hceil) (by simpa using hfloor)
    hfront (by simpa using h.lowerStart)
    (by
      intro q hq
      rw [← List.map_drop] at hq
      obtain ⟨q', hq', rfl⟩ := List.mem_map.mp hq
      exact hpx ▸ h.lower_left hA q' hq')
  have hhull := lowerHull_tightenLower o x y
  rw [← hp] at hhull
  have hpop : (o.lowerHull.map down).take (popEnd id (· ≤ 0) (o.lowerHull.map down) o.lowerStart p.down
      (o.lowerHull.map down).length) ++ [p.down] = (o.tightenLower id x y p).lowerHull.map down := by
    rw [hhull, popEnd_down, map_down_down, down_down, List.length_map]
    simp [List.map_take]
  rw [hpop] at htunnel hlen
  rw [← extremeFrom_down] at htunnel hi
  rw [List.length_map] at hlen
  refine ⟨hlen, ?_, ?_⟩
  · have hfront_le : front.length ≤ o.upperHull.length := by
      rcases hfront.rest with heq | ⟨q, heq, -, -⟩
      · rw [← heq, List.length_map]
      · have := congrArg List.length heq
        simp only [List.length_map, List.length_append, List.length_cons] at this
        omega
    exact hi.trans_le hfront_le
  · have hback := htunnel.mirror
    rw [pt_down, mirror_insert, turn_turn, Lines.mirror_mirror, Lines.mirror_mirror, ← chain_down,
      ← chain_down, map_down_down, map_down_down, getD_map_down, down_x, hpx] at hback
    have hrect : ({ o.rect.mirror with
        r1 := (o.upperHull.getD (extremeFrom (Slope.lt id) p o.upperHull o.upperStart) default).down.pt
        r3 := turn p.pt } : Rect ℚ).mirror = (o.tightenLower id x y p).rect := by
      simp [Rect.mirror, rect, Oplm.tightenLower]
    rw [hrect] at hback
    exact hback

/-- Both points are at the same place, so the lines do not differ there. -/
theorem Dug.ceil_le_floor (h : o.Dug A A last) (hx : last ≤ x) : o.rect.ceil x ≤ o.rect.floor x := by
  have hr2 := h.tunnel.lower.bound _ h.tunnel.floorTouch.2.1
  refine le_right h.tunnel.floorTouch.2.2 (hr2.trans (by exact_mod_cast hx)) ?_ ?_
  · rw [h.tunnel.floor_r0]
    exact h.tunnel.ceil.1 _ h.tunnel.floorTouch.1
  · rw [h.tunnel.floor_r2]
    exact h.tunnel.ceil.2 _ h.tunnel.floorTouch.2.1

theorem Dug.skipUpper {p : Point} (h : o.Dug A B last) (hpx : p.x = x) (hx : last ≤ x)
    (hceil : o.rect.ceil p.pt.1 ≤ p.pt.2) : o.Dug A (insert p.pt B) x := by
  have hlast : (last : ℚ) ≤ p.pt.1 := by
    rw [pt_fst, hpx]
    exact_mod_cast hx
  exact ⟨h.lowerStart, h.upperStart, hpx ▸ h.tunnel.skipUpper hlast hceil⟩

theorem Dug.skipLower {p : Point} (h : o.Dug A B last) (hpx : p.x = x) (hx : last ≤ x)
    (hfloor : p.pt.2 ≤ o.rect.floor p.pt.1) : o.Dug (insert p.pt A) B x := by
  have hlast : (last : ℚ) ≤ (turn p.pt).1 := by
    rw [turn_fst, pt_fst, hpx]
    exact_mod_cast hx
  have hback := (h.tunnel.mirror.skipUpper hlast (by simpa using hfloor)).mirror
  rw [mirror_insert, turn_turn, Lines.mirror_mirror, Lines.mirror_mirror, map_turn_turn,
    map_turn_turn, Rect.mirror_mirror, turn_fst, pt_fst, hpx] at hback
  exact ⟨h.lowerStart, h.upperStart, hback⟩

/-- The first `if` of `extend`. -/
theorem Dug.cutUpper {p1 p2 : Point} (h : o.Dug A B last) (hp1 : p1 = ⟨x, y + o.epsilon⟩)
    (hp2 : p2 = ⟨x, y - o.epsilon⟩) (hx : last < x) (hε : 0 ≤ o.epsilon)
    (hzero : o.epsilon = 0 → A = B) (hfloor : o.rect.floor p1.pt.1 ≤ p1.pt.2)
    (hceil : p2.pt.2 ≤ o.rect.ceil p2.pt.1) :
    ∃ o₁, o₁ = (if (p1.sub o.rect1).lt id (o.rect3.sub o.rect1) then o.tightenUpper id x y p1 else o) ∧
      o₁.Dug A (insert p1.pt B) x ∧ o₁.epsilon = o.epsilon ∧ o₁.rect0 = o.rect0 ∧
      o₁.rect2 = o.rect2 ∧ p2.pt.2 ≤ o₁.rect.ceil p2.pt.1 ∧
      ∃ front, LeftOf (o₁.upperHull.map down) o₁.upperStart p2.down front := by
  refine ⟨_, rfl, ?_⟩
  have hr1 := h.rect1_lt
  have hx1 : p1.x = x := by rw [hp1]
  have hx2 : p2.x = x := by rw [hp2]
  have hleft : ∀ q ∈ (o.upperHull.drop o.upperStart).map down, q.x < p2.down.x := by
    intro q hq
    obtain ⟨q', hq', rfl⟩ := List.mem_map.mp hq
    rw [down_x, down_x, hx2]
    exact h.upper_left (h.upper_lt hx) q' hq'
  split
  · next hlt =>
    rw [lt_start_iff hr1] at hlt
    have hdug := h.tightenUpper hp1 hx hfloor hlt.le
    have hpos : 0 < o.epsilon := by
      refine lt_of_le_of_ne hε fun h0 => ?_
      have hAB := hzero h0.symm
      subst hAB
      have hle := h.ceil_le_floor hx.le
      rw [pt_fst, hx1] at hlt hfloor
      exact absurd (hlt.trans_le hle) (not_lt.mpr hfloor)
    refine ⟨hdug, rfl, rfl, rfl, ?_, ?_⟩
    · have hends : (o.tightenUpper id x y p1).rect.ceil p1.pt.1 = p1.pt.2 := join_right _ _
      have hxs : p2.pt.1 = p1.pt.1 := by simp [hx1, hx2]
      rw [hxs, hends, hp1, hp2, pt_snd, pt_snd]
      exact_mod_cast (by omega : y - o.epsilon ≤ y + o.epsilon)
    · have hhull := upperHull_tightenUpper o x y
      rw [← hp1] at hhull
      obtain ⟨-, hlow, hhigh⟩ := popEnd_induct id (Q := fun _ => True) (· ≤ 0) o.upperHull o.upperStart
        p1 h.upperStart le_rfl trivial (fun _ _ _ _ _ => trivial)
      refine ⟨(o.upperHull.take (popEnd id (· ≤ 0) o.upperHull o.upperStart p1
        o.upperHull.length)).map down, ?_, ?_, .inr ⟨p1.down, ?_, ?_, ?_⟩⟩
      · rw [List.length_map, List.length_take]
        exact lt_min hlow h.upperStart
      · intro q hq
        refine hleft q ?_
        rw [List.map_drop]
        rw [List.map_take] at hq
        exact ((List.take_sublist _ _).drop _).subset hq
      · rw [hhull, List.map_append]
        rfl
      · rw [down_x, down_x, hx1, hx2]
      · rw [down_y, down_y, hp1, hp2]
        show -(y + o.epsilon) < -(y - o.epsilon)
        omega
  · next hge =>
    rw [lt_start_iff hr1, not_lt] at hge
    refine ⟨h.skipUpper hx1 hx.le hge, rfl, rfl, rfl, hceil, o.upperHull.map down, ?_, ?_, .inl rfl⟩
    · simpa using h.upperStart
    · simpa [List.map_drop] using hleft

/-- The hulls of an accepted point. -/
theorem Dug.extend_true {pts : List StoredPoint} {o' : Oplm} {p1 p2 : Point}
    (h : o.Dug (lowers o.epsilon pts) (uppers o.epsilon pts) last) (hε : 0 ≤ o.epsilon)
    (hp1 : p1 = ⟨x, y + o.epsilon⟩) (hp2 : p2 = ⟨x, y - o.epsilon⟩) (hx : last < x)
    (hextend : o.extend id x y p1 p2 = (true, o')) :
    o'.Dug (lowers o.epsilon (pts ++ [⟨x, y⟩])) (uppers o.epsilon (pts ++ [⟨x, y⟩])) x := by
  have hr0 := h.rect0_lt
  rw [Oplm.extend] at hextend
  split at hextend
  · simp at hextend
  · next hinside =>
    rw [not_or, lt_end_iff hr0, gt_end_iff h.rect1_lt, not_lt, not_lt] at hinside
    obtain ⟨o₁, ho₁, hdug, hε₁, hrect0, hrect2, hceil, front, hfront⟩ :=
      h.cutUpper hp1 hp2 hx hε (fun h0 => by simp [lowers, uppers, h0]) hinside.1 hinside.2
    rw [← ho₁] at hextend
    have hx2 : p2.x = x := by rw [hp2]
    have hcond : (p2.sub o₁.rect0).gt id (o.rect2.sub o.rect0) ↔ o₁.rect.floor p2.pt.1 < p2.pt.2 := by
      rw [← hrect0, ← hrect2]
      exact gt_start_iff hdug.rect0_lt
    rw [lowers_snoc, uppers_snoc, ← hp1, ← hp2]
    simp only [Prod.mk.injEq, true_and] at hextend
    subst hextend
    split
    · next hgt =>
      have hdug' := hdug.tightenLower (hε₁ ▸ hp2) le_rfl (h.lower_lt hx) hfront (hcond.mp hgt).le hceil
      exact ⟨hdug'.lowerStart, hdug'.upperStart, hdug'.tunnel⟩
    · next hle =>
      have hdug' := hdug.skipLower hx2 le_rfl (not_lt.mp (hcond.not.mp hle))
      exact ⟨hdug'.lowerStart, hdug'.upperStart, hdug'.tunnel⟩

/-- No line is left for a point that is not accepted. -/
theorem Dug.extend_false {pts : List StoredPoint} {o' : Oplm} {p1 p2 : Point}
    (h : o.Dug (lowers o.epsilon pts) (uppers o.epsilon pts) last)
    (hp1 : p1 = ⟨x, y + o.epsilon⟩) (hp2 : p2 = ⟨x, y - o.epsilon⟩) (hx : last < x)
    (hextend : o.extend id x y p1 p2 = (false, o')) :
    ¬∃ ℓ, Within o.epsilon (pts ++ [⟨x, y⟩]) ℓ := by
  rintro ⟨ℓ, hℓ⟩
  rw [within_iff, lowers_snoc, uppers_snoc, ← hp1, ← hp2] at hℓ
  have hA : Above (lowers o.epsilon pts) ℓ := fun q hq => hℓ.1 q (Set.mem_insert_of_mem _ hq)
  have hB : Below (uppers o.epsilon pts) ℓ := fun q hq => hℓ.2 q (Set.mem_insert_of_mem _ hq)
  have hlast : ∀ p : Point, p.x = x → (last : ℚ) ≤ p.pt.1 := by
    rintro p rfl
    rw [pt_fst]
    exact_mod_cast hx.le
  rw [Oplm.extend] at hextend
  split at hextend
  · next houtside =>
    rw [lt_end_iff h.rect0_lt, gt_end_iff h.rect1_lt] at houtside
    rcases houtside with hlt | hgt
    · have hfloor := h.tunnel.floor_le hA hB (hlast p1 (by rw [hp1]))
      exact absurd (hfloor.trans (hℓ.2 _ (Set.mem_insert _ _))) (not_le.mpr hlt)
    · have hceil := h.tunnel.le_ceil hA hB (hlast p2 (by rw [hp2]))
      exact absurd ((hℓ.1 _ (Set.mem_insert _ _)).trans hceil) (not_le.mpr hgt)
  · simp at hextend

/-! ## Runs -/

/-- A model in a run, and the points of its hull. -/
inductive Grown (epsilon : ℤ) : List StoredPoint → Oplm → Prop
  | fresh {o : Oplm} (h : Oplm.new epsilon = .ok o) : Grown epsilon [] o
  | accept {pts : List StoredPoint} {o o' : Oplm} {x y : ℤ} (hgrown : Grown epsilon pts o)
      (hadd : o.addPoint id x y = .ok (true, o')) : Grown epsilon (pts ++ [⟨x, y⟩]) o'
  | reject {pts : List StoredPoint} {o o' : Oplm} {x y : ℤ} (hgrown : Grown epsilon pts o)
      (hadd : o.addPoint id x y = .ok (false, o')) : Grown epsilon [] o'
  | reset {pts : List StoredPoint} {o : Oplm} (hgrown : Grown epsilon pts o) :
      Grown epsilon [] o.reset

/-- What a model knows of the points of its hull. -/
structure Holds (epsilon : ℤ) (pts : List StoredPoint) (o : Oplm) : Prop where
  /-- the tolerance -/
  eq : o.epsilon = epsilon
  /-- which is not negative -/
  nonneg : 0 ≤ epsilon
  /-- the number of points -/
  count : o.pointsInHull = pts.length
  /-- the first point -/
  first : ∀ s ∈ pts.head?, o.firstX = s.x
  /-- the last point -/
  last : ∀ s ∈ pts.getLast?, o.lastX = s.x
  /-- a single point -/
  single : ∀ s, pts = [s] → o.lower = [s] ∧ o.upper = [s] ∧ o.lowerStart = 0 ∧ o.upperStart = 0 ∧
    o.rect0 = ⟨s.x, s.y + epsilon⟩ ∧ o.rect1 = ⟨s.x, s.y - epsilon⟩
  /-- more points -/
  dug : 2 ≤ pts.length → o.Dug (lowers epsilon pts) (uppers epsilon pts) o.lastX

theorem holds_nil {epsilon : ℤ} (heq : o.epsilon = epsilon) (hε : 0 ≤ epsilon)
    (hcount : o.pointsInHull = 0) : Holds epsilon [] o :=
  ⟨heq, hε, hcount, by simp, by simp, by simp, by simp⟩

/-- The tunnel of two points. -/
theorem dug_pair {epsilon : ℤ} {s t : StoredPoint} (hε : 0 ≤ epsilon) (hst : s.x < t.x)
    (heq : o.epsilon = epsilon) (hlower : o.lower = [s, t]) (hupper : o.upper = [s, t])
    (hls : o.lowerStart = 0) (hus : o.upperStart = 0) (h0 : o.rect0 = ⟨s.x, s.y + epsilon⟩)
    (h1 : o.rect1 = ⟨s.x, s.y - epsilon⟩) (h2 : o.rect2 = ⟨t.x, t.y - epsilon⟩)
    (h3 : o.rect3 = ⟨t.x, t.y + epsilon⟩) :
    o.Dug (lowers epsilon [s, t]) (uppers epsilon [s, t]) t.x := by
  have hlowers : lowers epsilon [s, t] = {q | q ∈ chain o.lowerHull o.lowerStart} := by
    ext q
    simp [lowers, chain, lowerHull, hlower, hls, heq]
  have huppers : uppers epsilon [s, t] = {q | q ∈ chain o.upperHull o.upperStart} := by
    ext q
    simp [uppers, chain, upperHull, hupper, hus, heq]
  refine ⟨by simp [lowerHull, hlower, hls], by simp [upperHull, hupper, hus], ?_⟩
  rw [hlowers, huppers]
  have hle : ∀ y : ℤ, (y : ℚ) - epsilon ≤ y + epsilon := by
    intro y
    exact_mod_cast (by omega : y - epsilon ≤ y + epsilon)
  have hpair : Tunnel {q | q ∈ [o.rect1.pt, o.rect2.pt]} {q | q ∈ [o.rect0.pt, o.rect3.pt]}
      [o.rect1.pt, o.rect2.pt] [o.rect0.pt, o.rect3.pt] o.rect o.rect2.pt.1 :=
    Tunnel.pair (by simp [h0, h1]) (by simp [h2, h3]) (by simpa [h1, h2] using hst)
      (by simpa [h0, h1] using hle s.y) (by simpa [h2, h3] using hle t.y)
  simpa [rect, chain, lowerHull, upperHull, hlower, hupper, hls, hus, heq, h0, h1, h2, h3] using hpair

/-- What `extend` leaves alone. -/
theorem extend_frame {large : ℤ → ℤ} {o' : Oplm} {p1 p2 : Point} {b : Bool}
    (h : o.extend large x y p1 p2 = (b, o')) :
    o'.epsilon = o.epsilon ∧ o'.firstX = o.firstX ∧ o'.lastX = o.lastX ∧
      o'.pointsInHull = if b then o.pointsInHull + 1 else 0 := by
  rw [extend] at h
  split at h
  · obtain ⟨rfl, rfl⟩ := Prod.mk.inj h
    simp
  · obtain ⟨rfl, rfl⟩ := Prod.mk.inj h
    dsimp only
    split <;> split <;> simp [tightenUpper, tightenLower]

/-- What a call of `add_point` does. -/
theorem addPoint_cases {large : ℤ → ℤ} {o' : Oplm} {b : Bool} (h : o.addPoint large x y = .ok (b, o')) :
    (o.pointsInHull = 0 ∧ b = true ∧ o' = { o with
        lastX := x, firstX := x, rect0 := ⟨x, y + o.epsilon⟩, rect1 := ⟨x, y - o.epsilon⟩
        upper := [⟨x, y⟩], lower := [⟨x, y⟩], upperStart := 0, lowerStart := 0, pointsInHull := 1 }) ∨
      (o.pointsInHull = 1 ∧ o.lastX < x ∧ b = true ∧ o' = { o with
        lastX := x, rect2 := ⟨x, y - o.epsilon⟩, rect3 := ⟨x, y + o.epsilon⟩
        upper := o.upper ++ [⟨x, y⟩], lower := o.lower ++ [⟨x, y⟩], pointsInHull := 2 }) ∨
      (2 ≤ o.pointsInHull ∧ o.lastX < x ∧ { o with lastX := x }.extend large x y ⟨x, y + o.epsilon⟩
        ⟨x, y - o.epsilon⟩ = (b, o')) := by
  rw [addPoint] at h
  split at h
  · cases h
  · next hlast =>
    dsimp only at h
    split at h
    · next h0 =>
      obtain ⟨rfl, rfl⟩ := Prod.mk.inj (Except.ok.inj h)
      exact .inl ⟨h0, rfl, rfl⟩
    · next h0 =>
      have hx : o.lastX < x := by
        by_contra hge
        exact hlast ⟨Nat.pos_of_ne_zero h0, not_lt.mp hge⟩
      split at h
      · next h1 =>
        obtain ⟨rfl, rfl⟩ := Prod.mk.inj (Except.ok.inj h)
        exact .inr (.inl ⟨h1, hx, rfl, rfl⟩)
      · next h1 => exact .inr (.inr ⟨by omega, hx, Except.ok.inj h⟩)

/-- One accepted point. -/
theorem Holds.accept {epsilon : ℤ} {pts : List StoredPoint} {o' : Oplm} (h : Holds epsilon pts o)
    (hadd : o.addPoint id x y = .ok (true, o')) : Holds epsilon (pts ++ [⟨x, y⟩]) o' := by
  obtain ⟨heq, hε, hcount, hfirst, hlast, hsingle, hdug⟩ := h
  subst heq
  rcases addPoint_cases hadd with ⟨h0, -, rfl⟩ | ⟨h1, hx, -, rfl⟩ | ⟨h2, hx, hextend⟩
  · obtain rfl : pts = [] := List.eq_nil_of_length_eq_zero (by omega)
    refine ⟨rfl, hε, rfl, by simp, by simp, ?_, by simp⟩
    intro s hs
    obtain rfl : (⟨x, y⟩ : StoredPoint) = s := by simpa using hs
    simp
  · obtain ⟨s, rfl⟩ : ∃ s, pts = [s] := List.length_eq_one_iff.mp (by omega)
    obtain ⟨hlower, hupper, hls, hus, hr0, hr1⟩ := hsingle s rfl
    have hsx : s.x < x := by
      rw [← hlast s (by simp)]
      exact hx
    refine ⟨rfl, hε, rfl, by simpa using hfirst, by simp, by simp, fun _ => ?_⟩
    exact dug_pair (s := s) (t := ⟨x, y⟩) hε hsx rfl (by simp [hlower]) (by simp [hupper]) hls hus hr0
      hr1 rfl rfl
  · obtain ⟨heq, hfx, hlx, hpts⟩ := extend_frame hextend
    have hd := hdug (by omega)
    have hlen : 2 ≤ pts.length := by omega
    have hd' : { o with lastX := x }.Dug (lowers o.epsilon pts) (uppers o.epsilon pts) o.lastX :=
      ⟨hd.lowerStart, hd.upperStart, hd.tunnel⟩
    refine ⟨heq, hε, ?_, ?_, ?_, ?_, fun _ => ?_⟩
    · simp [hpts, hcount]
    · intro s hs
      rw [hfx]
      refine hfirst s ?_
      rwa [List.head?_append_of_ne_nil pts (by rintro rfl; simp at hlen)] at hs
    · intro s hs
      obtain rfl : (⟨x, y⟩ : StoredPoint) = s := by simpa using hs
      exact hlx
    · intro s hs
      have := congrArg List.length hs
      simp only [List.length_append, List.length_cons, List.length_nil] at this
      omega
    · rw [hlx]
      exact hd'.extend_true hε rfl rfl hx hextend

/-- What a model knows holds in every run. -/
theorem Grown.holds {epsilon : ℤ} {pts : List StoredPoint} (h : Grown epsilon pts o) :
    Holds epsilon pts o := by
  induction h with
  | fresh h =>
    rw [new] at h
    split at h
    · cases h
    · next hε =>
      obtain rfl := Except.ok.inj h
      exact holds_nil rfl (not_lt.mp hε) rfl
  | accept hgrown hadd ih => exact ih.accept hadd
  | reject hgrown hadd ih =>
    rcases addPoint_cases hadd with ⟨-, hb, -⟩ | ⟨-, -, hb, -⟩ | ⟨-, -, hextend⟩
    · cases hb
    · cases hb
    · obtain ⟨heq, -, -, hpts⟩ := extend_frame hextend
      exact holds_nil (heq.trans ih.eq) ih.nonneg (by simpa using hpts)
  | reset hgrown ih => exact holds_nil ih.eq ih.nonneg rfl

end Oplm

end NaliStore
