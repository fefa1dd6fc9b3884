import NaliStore.Lib.Tunnel
import Mathlib.Data.Rat.Cast.Order
import Mathlib.Tactic.Push

/-!
# The optimal piecewise linear model

`OptimalPiecewiseLinearModel` of `src/src/piecewise_linear_model.h`, which `SegmentBuilder` fits to
the keys of a group. Points are added from left to right. Beside the four points `rectangle` it
keeps two hulls, of which only what is from `lower_start` and `upper_start` on is still looked at.
`add_point` gives up when no line is within `epsilon` of the points of the hull and the new one.

The keys are of type `uint64_t`, so the products of a slope comparison and of `cross` are computed in
`LargeSigned<uint64_t>`, which is `__int128`. The definitions take what is left of an integer in the
type of the products as a parameter `large`: `int128` is the code's, `id` is arithmetic without bounds.
The numbers of type `long double` are rational numbers here.
-/

namespace NaliStore

/-- What is left of an integer in an `__int128`. -/
def int128 (z : ℤ) : ℤ := z.bmod (2 ^ 128)

/-- `Slope` -/
structure Slope where
  /-- `dx` -/
  dx : ℤ
  /-- `dy` -/
  dy : ℤ
  deriving DecidableEq

namespace Slope

variable (large : ℤ → ℤ)

/-- `operator<` -/
def lt (s p : Slope) : Bool := large (s.dy * p.dx) < large (s.dx * p.dy)

/-- `operator>` -/
def gt (s p : Slope) : Bool := large (s.dy * p.dx) > large (s.dx * p.dy)

/-- `operator==` -/
def eq (s p : Slope) : Bool := large (s.dy * p.dx) = large (s.dx * p.dy)

@[simp] theorem lt_iff {s p : Slope} : s.lt id p ↔ s.dy * p.dx < s.dx * p.dy := decide_eq_true_iff

@[simp] theorem gt_iff {s p : Slope} : s.gt id p ↔ s.dx * p.dy < s.dy * p.dx := decide_eq_true_iff

@[simp] theorem eq_iff {s p : Slope} : s.eq id p ↔ s.dy * p.dx = s.dx * p.dy := decide_eq_true_iff

/-- `operator long double` -/
def toLongDouble (s : Slope) : ℚ := s.dy / s.dx

end Slope

/-- `StoredPoint` -/
structure StoredPoint where
  /-- `x` -/
  x : ℤ
  /-- `y` -/
  y : ℤ
  deriving DecidableEq, Inhabited

/-- `Point` -/
structure Point where
  /-- `x` -/
  x : ℤ
  /-- `y` -/
  y : ℤ
  deriving DecidableEq, Inhabited

/-- `operator-` -/
def Point.sub (a p : Point) : Slope := ⟨a.x - p.x, a.y - p.y⟩

/-- `cross` -/
def Point.cross (large : ℤ → ℤ) (o a b : Point) : ℤ :=
  large (large ((a.sub o).dx * (b.sub o).dy) - large ((a.sub o).dy * (b.sub o).dx))

/-- `CanonicalSegment` -/
structure CanonicalSegment where
  /-- `rectangle[0]` -/
  rect0 : Point
  /-- `rectangle[1]` -/
  rect1 : Point
  /-- `rectangle[2]` -/
  rect2 : Point
  /-- `rectangle[3]` -/
  rect3 : Point
  /-- `first` -/
  first : ℤ
  deriving DecidableEq

/-- `OptimalPiecewiseLinearModel` -/
structure Oplm where
  /-- `epsilon` -/
  epsilon : ℤ
  /-- the points of `lower` -/
  lower : List StoredPoint
  /-- the points of `upper` -/
  upper : List StoredPoint
  /-- `first_x` -/
  firstX : ℤ
  /-- `last_x` -/
  lastX : ℤ
  /-- `lower_start` -/
  lowerStart : ℕ
  /-- `upper_start` -/
  upperStart : ℕ
  /-- `points_in_hull` -/
  pointsInHull : ℕ
  /-- `rectangle[0]` -/
  rect0 : Point
  /-- `rectangle[1]` -/
  rect1 : Point
  /-- `rectangle[2]` -/
  rect2 : Point
  /-- `rectangle[3]` -/
  rect3 : Point

namespace Oplm

/-- The constructor. -/
def new (epsilon : ℤ) : Except String Oplm :=
  if epsilon < 0 then .error "epsilon cannot be negative"
  else .ok ⟨epsilon, [], [], 0, 0, 0, 0, 0, default, default, default, default⟩

/-- The points of `Hull<false>`: `operator[]` takes `epsilon` away. -/
def lowerHull (o : Oplm) : List Point := o.lower.map fun s => ⟨s.x, s.y - o.epsilon⟩

/-- The points of `Hull<true>`: `operator[]` adds `epsilon`. -/
def upperHull (o : Oplm) : List Point := o.upper.map fun s => ⟨s.x, s.y + o.epsilon⟩

/-- The loop under `Find extreme slope`: `m` and `mi` are the slope and the index found so far, and
the loop breaks at the first slope that is `beyond` the one before. -/
def findExtreme (beyond : Slope → Slope → Bool) (p : Point) (m : Slope) (mi : ℕ) : List Point → ℕ
  | [] => mi
  | q :: qs =>
    let val := q.sub p
    if beyond val m then mi else findExtreme beyond p val (mi + 1) qs

/-- The search in a hull from its start on. -/
def extremeFrom (beyond : Slope → Slope → Bool) (p : Point) (hull : List Point) (start : ℕ) : ℕ :=
  findExtreme beyond p ((hull.getD start default).sub p) start (hull.drop (start + 1))

section Large

variable (large : ℤ → ℤ)

/-- The loop under `Hull update`: the last points go while the turn at them is one that `pops`. -/
def popEnd (pops : ℤ → Bool) (hull : List Point) (start : ℕ) (p : Point) : ℕ → ℕ
  | 0 => 0
  | e + 1 =>
    if start + 2 ≤ e + 1 ∧
        pops ((hull.getD (e - 1) default).cross large (hull.getD e default) p) then
      popEnd pops hull start p e
    else e + 1

/-- The point is below the line of the largest slope, which now ends in it. -/
def tightenUpper (o : Oplm) (x y : ℤ) (p1 : Point) : Oplm :=
  let minI := extremeFrom (Slope.gt large) p1 o.lowerHull o.lowerStart
  let e := popEnd large (· ≤ 0) o.upperHull o.upperStart p1 o.upper.length
  { o with
    rect1 := o.lowerHull.getD minI default
    rect3 := p1
    lowerStart := minI
    upper := o.upper.take e ++ [⟨x, y⟩] }

/-- The point is above the line of the smallest slope, which now ends in it. -/
def tightenLower (o : Oplm) (x y : ℤ) (p2 : Point) : Oplm :=
  let maxI := extremeFrom (Slope.lt large) p2 o.upperHull o.upperStart
  let e := popEnd large (0 ≤ ·) o.lowerHull o.lowerStart p2 o.lower.length
  { o with
    rect0 := o.upperHull.getD maxI default
    rect2 := p2
    upperStart := maxI
    lower := o.lower.take e ++ [⟨x, y⟩] }

/-- The part of `add_point` for a hull of two points and more, with the slopes computed before any
change. -/
def extend (o : Oplm) (x y : ℤ) (p1 p2 : Point) : Bool × Oplm :=
  let slope1 := o.rect2.sub o.rect0
  let slope2 := o.rect3.sub o.rect1
  if (p1.sub o.rect2).lt large slope1 ∨ (p2.sub o.rect3).gt large slope2 then
    (false, { o with pointsInHull := 0 })
  else
    let o := if (p1.sub o.rect1).lt large slope2 then o.tightenUpper large x y p1 else o
    let o := if (p2.sub o.rect0).gt large slope1 then o.tightenLower large x y p2 else o
    (true, { o with pointsInHull := o.pointsInHull + 1 })

/-- `add_point` -/
def addPoint (o : Oplm) (x y : ℤ) : Except String (Bool × Oplm) :=
  if 0 < o.pointsInHull ∧ x ≤ o.lastX then .error "Points must be increasing by x."
  else
    let o := { o with lastX := x }
    let p1 : Point := ⟨x, y + o.epsilon⟩
    let p2 : Point := ⟨x, y - o.epsilon⟩
    if o.pointsInHull = 0 then
      .ok (true, { o with
        firstX := x, rect0 := p1, rect1 := p2, upper := [⟨x, y⟩], lower := [⟨x, y⟩],
        upperStart := 0, lowerStart := 0, pointsInHull := 1 })
    else if o.pointsInHull = 1 then
      .ok (true, { o with
        rect2 := p2, rect3 := p1, upper := o.upper ++ [⟨x, y⟩], lower := o.lower ++ [⟨x, y⟩],
        pointsInHull := 2 })
    else .ok (o.extend large x y p1 p2)

end Large

/-- `get_segment` -/
def getSegment (o : Oplm) : CanonicalSegment :=
  if o.pointsInHull = 1 then ⟨o.rect0, o.rect1, o.rect0, o.rect1, o.firstX⟩
  else ⟨o.rect0, o.rect1, o.rect2, o.rect3, o.firstX⟩

/-- `reset` -/
def reset (o : Oplm) : Oplm := { o with pointsInHull := 0, lower := [], upper := [] }

end Oplm

namespace CanonicalSegment

/-- `one_point` -/
def onePoint (s : CanonicalSegment) : Bool :=
  s.rect0.x = s.rect2.x ∧ s.rect0.y = s.rect2.y ∧ s.rect1.x = s.rect3.x ∧ s.rect1.y = s.rect3.y

/-- `get_intersection` -/
def getIntersection (large : ℤ → ℤ) (s : CanonicalSegment) : ℚ × ℚ :=
  let slope1 := s.rect2.sub s.rect0
  let slope2 := s.rect3.sub s.rect1
  if s.onePoint ∨ slope1.eq large slope2 then (s.rect0.x, s.rect0.y)
  else
    let p0p1 := s.rect1.sub s.rect0
    let a := large (large (slope1.dx * slope2.dy) - large (slope1.dy * slope2.dx))
    let b : ℚ := (large (large (p0p1.dx * slope2.dy) - large (p0p1.dy * slope2.dx)) : ℚ) / a
    (s.rect0.x + b * slope1.dx, s.rect0.y + b * slope1.dy)

/-- `get_slope_range` -/
def getSlopeRange (s : CanonicalSegment) : ℚ × ℚ :=
  if s.onePoint then (0, 1)
  else ((s.rect2.sub s.rect0).toLongDouble, (s.rect3.sub s.rect1).toLongDouble)

/-- `get_floating_point_segment`: for one point the half is taken of integers. -/
def getFloatingPointSegment (large : ℤ → ℤ) (s : CanonicalSegment) (origin : ℤ) : ℚ × ℚ :=
  if s.onePoint then (0, ((s.rect0.y + s.rect1.y).tdiv 2 : ℤ))
  else
    let i := s.getIntersection large
    let range := s.getSlopeRange
    let slope := (range.1 + range.2) / 2
    (slope, i.2 - (i.1 - origin) * slope)

end CanonicalSegment

end NaliStore
