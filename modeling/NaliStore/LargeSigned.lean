import NaliStore.Fit

/-!
# The products are exact

`add_point` multiplies differences of coordinates in `__int128`. With keys of type `uint64_t`, and with
positions and a tolerance of up to 60 bits (which an `int` always is), the coordinates of all points it
looks at are in range (`Ranged`), every product has less than 127 bits, and so has the difference of two
products. So the calls do what they would do without bounds (`Ranged.addPoint_int128`), and what has been
proved of those holds of the code (`Reached.grown`).
-/

namespace NaliStore

/-- An integer of less than 128 bits is left alone. -/
theorem int128_eq {z : ℤ} (h : |z| < 2 ^ 127) : int128 z = z := by
  obtain ⟨hlow, hhigh⟩ := abs_lt.mp h
  exact Int.bmod_eq_of_le (by omega) (by omega)

/-! ## Slopes -/

namespace Slope

/-- The differences of keys and of raised or lowered positions. -/
structure InRange (s : Slope) : Prop where
  /-- of keys -/
  dx : |s.dx| < 2 ^ 64
  /-- of positions -/
  dy : |s.dy| ≤ 2 ^ 62

variable {s t : Slope}

theorem product_lt (hs : s.InRange) (ht : t.InRange) : |s.dy * t.dx| < 2 ^ 126 := by
  rw [abs_mul]
  calc |s.dy| * |t.dx| ≤ 2 ^ 62 * (2 ^ 64 - 1) :=
        mul_le_mul hs.dy (Int.le_sub_one_of_lt ht.dx) (abs_nonneg _) (by positivity)
    _ < 2 ^ 126 := by norm_num

/-- A product is exact. -/
theorem product_int128 (hs : s.InRange) (ht : t.InRange) :
    int128 (s.dy * t.dx) = s.dy * t.dx ∧ int128 (s.dx * t.dy) = s.dx * t.dy := by
  have hleft := product_lt hs ht
  have hright := product_lt ht hs
  rw [mul_comm] at hright
  exact ⟨int128_eq (hleft.trans (by norm_num)), int128_eq (hright.trans (by norm_num))⟩

/-- And so is the difference of two products. -/
theorem products_int128 (hs : s.InRange) (ht : t.InRange) :
    int128 (int128 (s.dx * t.dy) - int128 (s.dy * t.dx)) = s.dx * t.dy - s.dy * t.dx := by
  obtain ⟨hleft, hright⟩ := product_int128 hs ht
  have hdy := product_lt hs ht
  have hdx := product_lt ht hs
  rw [mul_comm] at hdx
  rw [hleft, hright]
  refine int128_eq ((abs_sub _ _).trans_lt ?_)
  calc |s.dx * t.dy| + |s.dy * t.dx| < 2 ^ 126 + 2 ^ 126 := add_lt_add hdx hdy
    _ = 2 ^ 127 := by norm_num

theorem lt_int128 (hs : s.InRange) (ht : t.InRange) : s.lt int128 t = s.lt id t := by
  obtain ⟨hleft, hright⟩ := product_int128 hs ht
  simp only [lt, hleft, hright, id_eq]

theorem gt_int128 (hs : s.InRange) (ht : t.InRange) : s.gt int128 t = s.gt id t := by
  obtain ⟨hleft, hright⟩ := product_int128 hs ht
  simp only [gt, hleft, hright, id_eq]

theorem eq_int128 (hs : s.InRange) (ht : t.InRange) : s.eq int128 t = s.eq id t := by
  obtain ⟨hleft, hright⟩ := product_int128 hs ht
  simp only [eq, hleft, hright, id_eq]

end Slope

/-! ## Points -/

/-- The points that are given to a model: a key of type `uint64_t`, and a position that is an `int`, or
a `size_t` of up to 60 bits. -/
structure StoredPoint.InRange (s : StoredPoint) : Prop where
  /-- a key is not negative -/
  nonneg : 0 ≤ s.x
  /-- and has 64 bits -/
  lt : s.x < 2 ^ 64
  /-- a position -/
  bound : |s.y| ≤ 2 ^ 60

namespace Point

/-- The points that are compared. -/
structure InRange (p : Point) : Prop where
  /-- a key is not negative -/
  nonneg : 0 ≤ p.x
  /-- and has 64 bits -/
  lt : p.x < 2 ^ 64
  /-- a position raised or lowered -/
  bound : |p.y| ≤ 2 ^ 61

variable {a b c p : Point} {hull : List Point}

theorem InRange.sub (ha : a.InRange) (hb : b.InRange) : (a.sub b).InRange := by
  obtain ⟨ha₀, ha₁, hay⟩ := ha
  obtain ⟨hb₀, hb₁, hby⟩ := hb
  obtain ⟨hay₀, hay₁⟩ := abs_le.mp hay
  obtain ⟨hby₀, hby₁⟩ := abs_le.mp hby
  have hdx : |a.x - b.x| < 2 ^ 64 := abs_lt.mpr ⟨by omega, by omega⟩
  have hdy : |a.y - b.y| ≤ 2 ^ 62 := abs_le.mpr ⟨by omega, by omega⟩
  exact ⟨hdx, hdy⟩

theorem cross_int128 (ha : a.InRange) (hb : b.InRange) (hc : c.InRange) :
    a.cross int128 b c = a.cross id b c :=
  Slope.products_int128 (hb.sub ha) (hc.sub ha)

theorem inRange_getD (h : ∀ q ∈ hull, q.InRange) (i : ℕ) : (hull.getD i default).InRange := by
  rcases Nat.lt_or_ge i hull.length with hi | hi
  · refine h _ ?_
    simp [List.getD_eq_getElem?_getD, hi]
  · have hdefault : hull.getD i default = default := by simp [List.getD_eq_getElem?_getD, hi]
    rw [hdefault]
    exact ⟨le_rfl, by decide, by decide⟩

end Point

namespace Oplm

open Point

/-! ## The loops -/

section Loops

variable {p : Point} {hull : List Point}

theorem findExtreme_int128 {lt : (ℤ → ℤ) → Slope → Slope → Bool}
    (hlt : ∀ {s t : Slope}, s.InRange → t.InRange → lt int128 s t = lt id s t) (hp : p.InRange)
    (hhull : ∀ q ∈ hull, q.InRange) {m : Slope} (hm : m.InRange) (mi : ℕ) :
    findExtreme (lt int128) p m mi hull = findExtreme (lt id) p m mi hull := by
  induction hull generalizing m mi with
  | nil => rfl
  | cons q qs ih =>
    obtain ⟨hq, hqs⟩ := List.forall_mem_cons.mp hhull
    simp only [findExtreme, hlt (hq.sub hp) hm]
    rw [ih hqs (hq.sub hp)]

theorem extremeFrom_int128 (lt : (ℤ → ℤ) → Slope → Slope → Bool)
    (hlt : ∀ {s t : Slope}, s.InRange → t.InRange → lt int128 s t = lt id s t) (hp : p.InRange)
    (hhull : ∀ q ∈ hull, q.InRange) (start : ℕ) :
    extremeFrom (lt int128) p hull start = extremeFrom (lt id) p hull start :=
  findExtreme_int128 hlt hp (fun q hq => hhull q (List.mem_of_mem_drop hq))
    ((inRange_getD hhull start).sub hp) start

theorem popEnd_int128 (pops : ℤ → Bool) (hp : p.InRange) (hhull : ∀ q ∈ hull, q.InRange)
    (start e : ℕ) : popEnd int128 pops hull start p e = popEnd id pops hull start p e := by
  induction e with
  | zero => rfl
  | succ e ih =>
    rw [popEnd, popEnd, cross_int128 (inRange_getD hhull _) (inRange_getD hhull _) hp, ih]

end Loops

/-! ## Models in range -/

/-- All points of a model are in range. -/
structure Ranged (o : Oplm) : Prop where
  /-- the tolerance -/
  epsilon : 0 ≤ o.epsilon ∧ o.epsilon ≤ 2 ^ 60
  /-- the points of the hulls -/
  stored : ∀ s ∈ o.lower ++ o.upper, s.InRange
  /-- the rectangle -/
  rect : ∀ p ∈ [o.rect0, o.rect1, o.rect2, o.rect3], p.InRange

variable {o o' : Oplm} {epsilon x y : ℤ} {pts : List StoredPoint} {large : ℤ → ℤ}

/-- A point that is raised or lowered. -/
theorem inRange_raised {s : StoredPoint} (hs : s.InRange) {e : ℤ} (he : |e| ≤ 2 ^ 60) :
    (⟨s.x, s.y + e⟩ : Point).InRange := by
  obtain ⟨hy₀, hy₁⟩ := abs_le.mp hs.bound
  obtain ⟨he₀, he₁⟩ := abs_le.mp he
  have hy : |s.y + e| ≤ 2 ^ 61 := abs_le.mpr ⟨by omega, by omega⟩
  exact ⟨hs.nonneg, hs.lt, hy⟩

namespace Ranged

theorem raised (h : o.Ranged) {s : StoredPoint} (hs : s.InRange) :
    (⟨s.x, s.y + o.epsilon⟩ : Point).InRange ∧ (⟨s.x, s.y - o.epsilon⟩ : Point).InRange := by
  obtain ⟨hε₀, hε₁⟩ := h.epsilon
  refine ⟨inRange_raised hs (abs_le.mpr ⟨by omega, hε₁⟩), ?_⟩
  rw [sub_eq_add_neg]
  exact inRange_raised hs (abs_le.mpr ⟨by omega, by omega⟩)

theorem lowerHull (h : o.Ranged) : ∀ p ∈ o.lowerHull, p.InRange := by
  intro p hp
  obtain ⟨s, hs, rfl⟩ := List.mem_map.mp hp
  exact (h.raised (h.stored s (List.mem_append_left _ hs))).2

theorem upperHull (h : o.Ranged) : ∀ p ∈ o.upperHull, p.InRange := by
  intro p hp
  obtain ⟨s, hs, rfl⟩ := List.mem_map.mp hp
  exact (h.raised (h.stored s (List.mem_append_right _ hs))).1

theorem tightenUpper {p : Point} (h : o.Ranged) (large : ℤ → ℤ) (hp : p.InRange)
    (hxy : (⟨x, y⟩ : StoredPoint).InRange) : (o.tightenUpper large x y p).Ranged := by
  refine ⟨h.epsilon, fun s hs => ?_, fun q hq => ?_⟩
  · simp only [Oplm.tightenUpper, List.mem_append, List.mem_singleton] at hs
    rcases hs with hs | hs | rfl
    · exact h.stored s (List.mem_append_left _ hs)
    · exact h.stored s (List.mem_append_right _ (List.mem_of_mem_take hs))
    · exact hxy
  · simp only [Oplm.tightenUpper, List.mem_cons, List.not_mem_nil, or_false] at hq
    rcases hq with rfl | rfl | rfl | rfl
    · exact h.rect _ (by simp)
    · exact inRange_getD h.lowerHull _
    · exact h.rect _ (by simp)
    · exact hp

theorem tightenLower {p : Point} (h : o.Ranged) (large : ℤ → ℤ) (hp : p.InRange)
    (hxy : (⟨x, y⟩ : StoredPoint).InRange) : (o.tightenLower large x y p).Ranged := by
  refine ⟨h.epsilon, fun s hs => ?_, fun q hq => ?_⟩
  · simp only [Oplm.tightenLower, List.mem_append, List.mem_singleton] at hs
    rcases hs with (hs | rfl) | hs
    · exact h.stored s (List.mem_append_left _ (List.mem_of_mem_take hs))
    · exact hxy
    · exact h.stored s (List.mem_append_right _ hs)
  · simp only [Oplm.tightenLower, List.mem_cons, List.not_mem_nil, or_false] at hq
    rcases hq with rfl | rfl | rfl | rfl
    · exact inRange_getD h.upperHull _
    · exact h.rect _ (by simp)
    · exact hp
    · exact h.rect _ (by simp)

theorem tightenUpper_int128 {p : Point} (h : o.Ranged) (hp : p.InRange) (x y : ℤ) :
    o.tightenUpper int128 x y p = o.tightenUpper id x y p := by
  simp only [Oplm.tightenUpper, popEnd_int128 _ hp h.upperHull,
    extremeFrom_int128 Slope.gt Slope.gt_int128 hp h.lowerHull]

theorem tightenLower_int128 {p : Point} (h : o.Ranged) (hp : p.InRange) (x y : ℤ) :
    o.tightenLower int128 x y p = o.tightenLower id x y p := by
  simp only [Oplm.tightenLower, popEnd_int128 _ hp h.lowerHull,
    extremeFrom_int128 Slope.lt Slope.lt_int128 hp h.upperHull]

/-- The corners of the rectangle. -/
theorem corners (h : o.Ranged) :
    o.rect0.InRange ∧ o.rect1.InRange ∧ o.rect2.InRange ∧ o.rect3.InRange :=
  ⟨h.rect _ (by simp), h.rect _ (by simp), h.rect _ (by simp), h.rect _ (by simp)⟩

/-- The first `if` of `extend` leaves a model in range. -/
theorem cutUpper {p : Point} (h : o.Ranged) (large : ℤ → ℤ) (hp : p.InRange)
    (hxy : (⟨x, y⟩ : StoredPoint).InRange) (c : Prop) [Decidable c] :
    (if c then o.tightenUpper large x y p else o).Ranged := by
  split
  · exact h.tightenUpper large hp hxy
  · exact h

/-- `extend` does what it would do without bounds. -/
theorem extend_int128 {p1 p2 : Point} (h : o.Ranged) (hp1 : p1.InRange) (hp2 : p2.InRange)
    (hxy : (⟨x, y⟩ : StoredPoint).InRange) : o.extend int128 x y p1 p2 = o.extend id x y p1 p2 := by
  obtain ⟨h0, h1, h2, h3⟩ := h.corners
  rw [extend, extend]
  dsimp only
  rw [Slope.lt_int128 (hp1.sub h2) (h2.sub h0), Slope.gt_int128 (hp2.sub h3) (h3.sub h1),
    Slope.lt_int128 (hp1.sub h1) (h3.sub h1), h.tightenUpper_int128 hp1]
  have hcut := h.cutUpper id hp1 hxy ((p1.sub o.rect1).lt id (o.rect3.sub o.rect1) = true)
  generalize (if (p1.sub o.rect1).lt id (o.rect3.sub o.rect1) = true then o.tightenUpper id x y p1
    else o) = o₁ at hcut ⊢
  rw [Slope.gt_int128 (hp2.sub hcut.corners.1) (h2.sub h0), hcut.tightenLower_int128 hp2]

/-- **Every product of a call is exact**: `add_point` does what it would do without bounds. -/
theorem addPoint_int128 (h : o.Ranged) (hxy : (⟨x, y⟩ : StoredPoint).InRange) :
    o.addPoint int128 x y = o.addPoint id x y := by
  obtain ⟨hup, hlow⟩ := h.raised hxy
  have h' : { o with lastX := x }.Ranged := ⟨h.epsilon, h.stored, h.rect⟩
  rw [Oplm.addPoint, Oplm.addPoint]
  dsimp only
  rw [h'.extend_int128 hup hlow hxy]

/-- Every call keeps the points of a model in range. -/
theorem addPoint {b : Bool} (h : o.Ranged) (hxy : (⟨x, y⟩ : StoredPoint).InRange)
    (hadd : o.addPoint large x y = .ok (b, o')) : o'.Ranged := by
  obtain ⟨hup, hlow⟩ := h.raised hxy
  obtain ⟨h0, h1, h2, h3⟩ := h.corners
  rcases addPoint_cases hadd with ⟨-, -, rfl⟩ | ⟨-, -, -, rfl⟩ | ⟨-, -, hextend⟩
  · exact ⟨h.epsilon, by simpa using hxy, by simp [hup, hlow, h2, h3]⟩
  · refine ⟨h.epsilon, fun s hs => ?_, by simp [hup, hlow, h0, h1]⟩
    simp only [List.mem_append, List.mem_singleton] at hs
    rcases hs with (hs | rfl) | hs | rfl
    · exact h.stored s (List.mem_append_left _ hs)
    · exact hxy
    · exact h.stored s (List.mem_append_right _ hs)
    · exact hxy
  · have h' : { o with lastX := x }.Ranged := ⟨h.epsilon, h.stored, h.rect⟩
    rw [extend] at hextend
    split at hextend
    · obtain ⟨-, rfl⟩ := Prod.mk.inj hextend
      exact ⟨h.epsilon, h.stored, h.rect⟩
    · obtain ⟨-, rfl⟩ := Prod.mk.inj hextend
      have hcut := h'.cutUpper large hup hxy
        ((Point.sub ⟨x, y + o.epsilon⟩ o.rect1).lt large (o.rect3.sub o.rect1) = true)
      dsimp only
      generalize (if (Point.sub ⟨x, y + o.epsilon⟩ o.rect1).lt large (o.rect3.sub o.rect1) = true
        then { o with lastX := x }.tightenUpper large x y ⟨x, y + o.epsilon⟩
        else { o with lastX := x }) = o₁ at hcut ⊢
      split
      · have hcut' := hcut.tightenLower large hlow hxy
        exact ⟨hcut'.epsilon, hcut'.stored, hcut'.rect⟩
      · exact ⟨hcut.epsilon, hcut.stored, hcut.rect⟩

theorem new (hε : epsilon ≤ 2 ^ 60) (h : Oplm.new epsilon = .ok o) : o.Ranged := by
  rw [Oplm.new] at h
  split at h
  · cases h
  · next hneg =>
    obtain rfl := Except.ok.inj h
    refine ⟨⟨not_lt.mp hneg, hε⟩, by simp, fun p hp => ?_⟩
    obtain rfl : p = default := by simpa using hp
    exact ⟨le_rfl, by decide, by decide⟩

/-- The segment is computed as it would be without bounds. -/
theorem getFloatingPointSegment_int128 (h : o.Ranged) (origin : ℤ) :
    o.getSegment.getFloatingPointSegment int128 origin =
      o.getSegment.getFloatingPointSegment id origin := by
  obtain ⟨h0, h1, h2, h3⟩ : o.getSegment.rect0.InRange ∧ o.getSegment.rect1.InRange ∧
      o.getSegment.rect2.InRange ∧ o.getSegment.rect3.InRange := by
    obtain ⟨h0, h1, h2, h3⟩ := h.corners
    rw [getSegment]
    split
    · exact ⟨h0, h1, h0, h1⟩
    · exact ⟨h0, h1, h2, h3⟩
  have hmeet : o.getSegment.getIntersection int128 = o.getSegment.getIntersection id := by
    simp only [CanonicalSegment.getIntersection, Slope.eq_int128 (h2.sub h0) (h3.sub h1),
      Slope.products_int128 (h2.sub h0) (h3.sub h1), Slope.products_int128 (h1.sub h0) (h3.sub h1),
      id_eq]
  simp only [CanonicalSegment.getFloatingPointSegment, hmeet]

end Ranged

/-! ## Runs -/

/-- A model in a run of the code, and the points of its hull. -/
inductive Reached (epsilon : ℤ) : List StoredPoint → Oplm → Prop
  | fresh {o : Oplm} (hε : epsilon ≤ 2 ^ 60) (h : Oplm.new epsilon = .ok o) : Reached epsilon [] o
  | accept {pts : List StoredPoint} {o o' : Oplm} {x y : ℤ} (hreached : Reached epsilon pts o)
      (hxy : (⟨x, y⟩ : StoredPoint).InRange) (hadd : o.addPoint int128 x y = .ok (true, o')) :
      Reached epsilon (pts ++ [⟨x, y⟩]) o'
  | reject {pts : List StoredPoint} {o o' : Oplm} {x y : ℤ} (hreached : Reached epsilon pts o)
      (hxy : (⟨x, y⟩ : StoredPoint).InRange) (hadd : o.addPoint int128 x y = .ok (false, o')) :
      Reached epsilon [] o'
  | reset {pts : List StoredPoint} {o : Oplm} (hreached : Reached epsilon pts o) :
      Reached epsilon [] o.reset

theorem Reached.ranged (h : Reached epsilon pts o) : o.Ranged := by
  induction h with
  | fresh hε h => exact .new hε h
  | accept _ hxy hadd ih => exact ih.addPoint hxy hadd
  | reject _ hxy hadd ih => exact ih.addPoint hxy hadd
  | reset _ ih => exact ⟨ih.epsilon, by simp [Oplm.reset], ih.rect⟩

/-- A run of the code is one without bounds. -/
theorem Reached.grown (h : Reached epsilon pts o) : Grown epsilon pts o := by
  induction h with
  | fresh _ h => exact .fresh h
  | accept hreached hxy hadd ih =>
    rw [hreached.ranged.addPoint_int128 hxy] at hadd
    exact .accept ih hadd
  | reject hreached hxy hadd ih =>
    rw [hreached.ranged.addPoint_int128 hxy] at hadd
    exact .reject ih hadd
  | reset _ ih => exact .reset ih

end Oplm

end NaliStore
