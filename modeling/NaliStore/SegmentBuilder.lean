import NaliStore.Segments
import NaliStore.Predict

/-!
# The segment builder

`SegmentBuilder` of `src/src/rmi_model.h` fits a segment to the samples of a group with an
`OptimalPiecewiseLinearModel`. `add` does not look at the result of `add_point`, so a sample that is
refused would be lost, and the samples before it too. With the tolerance `INT32_MAX` that it has by
default this does not happen: one line is near enough to all positions there are, and every group has
a segment that all its samples are within the tolerance of (`segments_within`).

`build` rounds the line of the segment to two numbers of type `double`. What is said here is about the
line before it is rounded: for great keys the rounded one may be further away.
-/

namespace NaliStore

open Lines Runs

/-- `INT32_MAX`, the default of the parameter `epsilon`. -/
def defaultEpsilon : ℤ := 2 ^ 31 - 1

/-- `SegmentBuilder<uint64_t>` -/
structure SegmentBuilder where
  /-- `count_` -/
  count : ℕ
  /-- `oplm_` -/
  oplm : Oplm

namespace SegmentBuilder

/-- The constructor. -/
def new (epsilon : ℤ) : Except String SegmentBuilder := do
  let oplm ← Oplm.new epsilon
  .ok ⟨0, oplm⟩

/-- `add`, with the result of `add_point`, at which it does not look. -/
def add (b : SegmentBuilder) (s : Sample) : Except String (Bool × SegmentBuilder) := do
  let (accepted, oplm) ← b.oplm.addPoint int128 s.key.toNat s.y.toInt
  .ok (accepted, ⟨b.count + 1, oplm⟩)

/-- `build`, with the segment whose line it rounds for the model. -/
def build (b : SegmentBuilder) : CanonicalSegment × SegmentBuilder :=
  (b.oplm.getSegment, { b with oplm := b.oplm.reset })

/-- `clear` -/
def clear (b : SegmentBuilder) : SegmentBuilder := { b with count := 0 }

/-- The groups of `init` one after the other: the samples of a group, `build` and `clear`. For every
group its segment, and the results of `add_point` for its samples. -/
def segments (b : SegmentBuilder) :
    List (List Sample) → Except String (List (CanonicalSegment × List Bool))
  | [] => .ok []
  | samples :: groups => do
    let (accepted, b) ← exec add b samples
    let segs ← b.build.2.clear.segments groups
    .ok ((b.build.1, accepted) :: segs)

/-- The point of a sample. -/
def point (s : Sample) : StoredPoint := ⟨s.key.toNat, s.y.toInt⟩

/-- The samples of a group: ascending keys and positions that are not negative. -/
structure Ascends (samples : List Sample) : Prop where
  /-- there are samples -/
  ne_nil : samples ≠ []
  /-- the keys ascend -/
  keys : samples.Pairwise fun s t => s.key < t.key
  /-- the positions are not negative -/
  nonneg : ∀ s ∈ samples, 0 ≤ s.y.toInt

/-- A segment for the samples: none has been refused, and the line is within the tolerance of all. -/
structure Describes (seg : CanonicalSegment × List Bool) (samples : List Sample) : Prop where
  /-- no sample is refused -/
  accepted : seg.2 = List.replicate samples.length true
  /-- the line of `get_floating_point_segment(0)` -/
  within : Within defaultEpsilon (samples.map point) (seg.1.line int128 0)

theorem inRange_point (s : Sample) : (point s).InRange := by
  have hlow := Int32.le_toInt s.y
  have hhigh := Int32.toInt_lt s.y
  have hy : |s.y.toInt| ≤ 2 ^ 60 := abs_le.mpr ⟨by omega, by omega⟩
  have hkey : (s.key.toNat : ℤ) < 2 ^ 64 := by exact_mod_cast s.key.toNat_lt
  exact ⟨Int.natCast_nonneg _, hkey, hy⟩

/-- The line in the middle of all positions. -/
theorem fits_default {pts : List StoredPoint} (h : ∀ s ∈ pts, 0 ≤ s.y ∧ s.y < 2 ^ 31) :
    ∃ ℓ, Within defaultEpsilon pts ℓ := by
  refine ⟨⟨0, 2 ^ 30⟩, fun s hs => ?_⟩
  obtain ⟨h0, h1⟩ := h s hs
  have h0' : (0 : ℚ) ≤ s.y := by exact_mod_cast h0
  have h1' : (s.y : ℚ) ≤ 2 ^ 31 - 1 := by exact_mod_cast Int.le_sub_one_of_lt h1
  simp only [height, defaultEpsilon]
  push_cast
  exact abs_le.mpr ⟨by linarith, by linarith⟩

/-- No sample is refused. -/
theorem exec_add {b : SegmentBuilder} {samples : List Sample} {pts : List StoredPoint}
    (h : Oplm.Reached defaultEpsilon pts b.oplm) (hpts : ∀ p ∈ pts, 0 ≤ p.y ∧ p.y < 2 ^ 31)
    (hleft : ∀ p ∈ pts, ∀ s ∈ samples, p.x < s.key.toNat)
    (hkeys : samples.Pairwise fun s t => s.key < t.key) (hnonneg : ∀ s ∈ samples, 0 ≤ s.y.toInt) :
    ∃ b', exec add b samples = .ok (List.replicate samples.length true, b') ∧
      Oplm.Reached defaultEpsilon (pts ++ samples.map point) b'.oplm := by
  induction samples generalizing b pts with
  | nil => exact ⟨b, rfl, by simpa using h⟩
  | cons s samples ih =>
    have hlt : s.y.toInt < 2 ^ 31 := Int32.toInt_lt s.y
    obtain ⟨r, o', hadd, hr⟩ := h.addPoint_iff (fun p hp => hleft p hp s (by simp)) (inRange_point s)
    have hall : ∀ p ∈ pts ++ [point s], 0 ≤ p.y ∧ p.y < 2 ^ 31 := by
      intro p hp
      rcases List.mem_append.mp hp with hp | hp
      · exact hpts p hp
      · obtain rfl := List.mem_singleton.mp hp
        exact ⟨hnonneg s (by simp), hlt⟩
    obtain rfl : r = true := hr.mpr (fits_default hall)
    obtain ⟨hfirst, hkeys⟩ := List.pairwise_cons.mp hkeys
    have hleft' : ∀ p ∈ pts ++ [point s], ∀ t ∈ samples, p.x < t.key.toNat := by
      intro p hp t ht
      rcases List.mem_append.mp hp with hp | hp
      · exact hleft p hp t (by simp [ht])
      · obtain rfl := List.mem_singleton.mp hp
        exact Int.ofNat_lt.mpr (UInt64.lt_iff_toNat_lt.mp (hfirst t ht))
    obtain ⟨b', hrun, hreached⟩ := ih (b := ⟨b.count + 1, o'⟩) (h.accept (inRange_point s) hadd) hall
      hleft' hkeys fun t ht => hnonneg t (by simp [ht])
    refine ⟨b', ?_, by simpa [point] using hreached⟩
    simp only [exec, add, hadd, ok_bind, hrun]
    rfl

/-- The segments of all groups, from a builder whose model is empty. -/
theorem segments_of_reached {b : SegmentBuilder} (hb : Oplm.Reached defaultEpsilon [] b.oplm)
    {groups : List (List Sample)} (hgroups : ∀ samples ∈ groups, Ascends samples) :
    ∃ segs, b.segments groups = .ok segs ∧ List.Forall₂ Describes segs groups := by
  induction groups generalizing b with
  | nil => exact ⟨[], rfl, .nil⟩
  | cons samples groups ih =>
    have hsamples := hgroups samples (by simp)
    obtain ⟨b', hrun, hreached⟩ := exec_add hb (by simp) (by simp) hsamples.keys hsamples.nonneg
    rw [List.nil_append] at hreached
    obtain ⟨segs, hsegs, hall⟩ := ih (b := b'.build.2.clear) hreached.reset
      fun samples hsamples => hgroups samples (by simp [hsamples])
    have hne : samples.map point ≠ [] := by simpa using hsamples.ne_nil
    refine ⟨(b'.build.1, List.replicate samples.length true) :: segs, ?_,
      .cons ⟨rfl, hreached.line_within hne 0⟩ hall⟩
    rw [segments, hrun, ok_bind]
    dsimp only
    rw [hsegs, ok_bind]

/-- **No sample is lost**: every group has a segment within the tolerance of all its samples. -/
theorem segments_within {b : SegmentBuilder} (hb : new defaultEpsilon = .ok b)
    {groups : List (List Sample)} (hgroups : ∀ samples ∈ groups, Ascends samples) :
    ∃ segs, b.segments groups = .ok segs ∧ List.Forall₂ Describes segs groups := by
  obtain ⟨o, ho, hok⟩ := bind_eq_ok hb
  obtain rfl := Except.ok.inj hok
  exact segments_of_reached (.fresh (by decide) ho) hgroups

/-- Two groups, the second one with positions that are far apart. -/
theorem segments_of_two_groups : ∃ b, new defaultEpsilon = .ok b ∧
    ∃ segs, b.segments [[⟨1, 0⟩, ⟨5, 4⟩], [⟨7, 0⟩, ⟨8, 2147483647⟩, ⟨9, 0⟩]] = .ok segs ∧
      List.Forall₂ Describes segs [[⟨1, 0⟩, ⟨5, 4⟩], [⟨7, 0⟩, ⟨8, 2147483647⟩, ⟨9, 0⟩]] := by
  refine ⟨_, rfl, segments_within rfl fun samples hsamples => ?_⟩
  simp only [List.mem_cons, List.not_mem_nil, or_false] at hsamples
  rcases hsamples with rfl | rfl
  · exact ⟨by simp, by decide, by decide⟩
  · exact ⟨by simp, by decide, by decide⟩

end SegmentBuilder

end NaliStore
