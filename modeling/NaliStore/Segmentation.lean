import NaliStore.Segments
import NaliStore.Lib.Cuts
import NaliStore.Lib.Runs

/-!
# Segmentation

`make_segmentation` of `src/src/piecewise_linear_model.h` gives the points one after the other to a
model, and starts a segment with every point that is refused. Of the points with the same `x` only
the first one counts (`keptFrom`).

A part that fits no line within `epsilon` fits none with more points, and a segment ends only where
it has to, so there is no cut of the points into fewer parts (`makeSegmentation_least`). With several
threads every border between two chunks costs at most one segment (`makeSegmentationPar_near_least`).

The tolerance comes as a `size_t` and is converted to the type of the positions. It has to fit there,
and with several threads its square has to fit a `size_t`, by which `reserve` divides.
-/

namespace NaliStore

open Lines Cuts

/-- The types of the positions, `Y`. -/
inductive PosType where
  /-- `int` -/
  | int
  /-- `size_t` -/
  | sizeT

namespace PosType

/-- The conversion of a `size_t`. -/
def ofSizeT : PosType → ℕ → ℤ
  | .int, n => (n : ℤ).bmod (2 ^ 32)
  | .sizeT, n => (n : ℤ) % 2 ^ 64

/-- The values of the type, of those of a `size_t` the ones of up to 60 bits. -/
def Holds : PosType → ℤ → Prop
  | .int, y => -2 ^ 31 ≤ y ∧ y < 2 ^ 31
  | .sizeT, y => 0 ≤ y ∧ y ≤ 2 ^ 60

variable {Y : PosType}

theorem ofSizeT_eq {n : ℕ} (h : Y.Holds n) : Y.ofSizeT n = n := by
  cases Y with
  | int =>
    have hlow : (0 : ℤ) ≤ n := Int.natCast_nonneg n
    have hhigh : (n : ℤ) < 2 ^ 31 := h.2
    have heq : (n : ℤ).bmod (2 ^ 32) = n := Int.bmod_eq_of_le (by omega) (by omega)
    exact heq
  | sizeT => exact Int.emod_eq_of_lt h.1 (h.2.trans_lt (by norm_num))

theorem Holds.bound {y : ℤ} (h : Y.Holds y) : |y| ≤ 2 ^ 60 := by
  cases Y with
  | int =>
    obtain ⟨hlow, hhigh⟩ := h
    exact abs_le.mpr ⟨by omega, by omega⟩
  | sizeT =>
    obtain ⟨hlow, hhigh⟩ := h
    exact abs_le.mpr ⟨by omega, hhigh⟩

end PosType

/-- A point that `add_point` refuses is accepted when it comes again. -/
theorem Oplm.rejected_again {large : ℤ → ℤ} {o o' : Oplm} {x y : ℤ}
    (h : o.addPoint large x y = .ok (false, o')) :
    o.pointsInHull ≠ 0 ∧ o'.pointsInHull = 0 := by
  obtain ⟨-, h0, h2⟩ := Oplm.getSegment_of_reject h
  exact ⟨by omega, h0⟩

/-- The loop of `make_segmentation`: a refused point is looked at once more, as the first one of the
next segment. -/
def segmentLoop (n : ℕ) (inp : ℕ → ℤ × ℤ) (i start c : ℕ) (px : ℤ) (opt : Oplm)
    (out : List CanonicalSegment) : Except String (List CanonicalSegment × ℕ) :=
  if i < n then
    if i ≠ start ∧ (inp i).1 = px then segmentLoop n inp (i + 1) start c px opt out
    else
      match hadd : opt.addPoint int128 (inp i).1 (inp i).2 with
      | .error e => .error e
      | .ok (true, opt') => segmentLoop n inp (i + 1) start c (inp i).1 opt' out
      | .ok (false, opt') =>
        segmentLoop n inp i i (c + 1) (inp i).1 opt' (out ++ [opt'.getSegment])
  else .ok (out ++ [opt.getSegment], c + 1)
termination_by 2 * (n - i) + if opt.pointsInHull = 0 then 0 else 1
decreasing_by
  · omega
  · split <;> split <;> omega
  · have := Oplm.rejected_again hadd
    simp [this]

/-- `make_segmentation`: the segments given to `out`, and the result. -/
def makeSegmentation (Y : PosType) (n epsilon : ℕ) (inp : ℕ → ℤ × ℤ) :
    Except String (List CanonicalSegment × ℕ) :=
  if n = 0 then .ok ([], 0)
  else do
    let opt ← Oplm.new (Y.ofSizeT epsilon)
    let (_, opt) ← opt.addPoint int128 (inp 0).1 (inp 0).2
    segmentLoop n inp 1 0 0 (inp 0).1 opt []

/-- The point at an index. -/
def pointAt (inp : ℕ → ℤ × ℤ) (i : ℕ) : StoredPoint := ⟨(inp i).1, (inp i).2⟩

/-- The points from `a` to `b` that have another `x` than the point before. -/
def keptFrom (inp : ℕ → ℤ × ℤ) (a b : ℕ) : List StoredPoint :=
  ((List.range' a (b - a)).filter fun i => i = 0 ∨ (inp i).1 ≠ (inp (i - 1)).1).map
    (pointAt inp)

/-- One line within `epsilon` for all. -/
def Fits (epsilon : ℕ) (pts : List StoredPoint) : Prop := ∃ ℓ, Within epsilon pts ℓ

theorem hereditary_fits (epsilon : ℕ) : Hereditary (Fits epsilon) where
  left := fun _ _ ⟨ℓ, h⟩ => ⟨ℓ, fun s hs => h s (by simp [hs])⟩
  right := fun _ _ ⟨ℓ, h⟩ => ⟨ℓ, fun s hs => h s (by simp [hs])⟩

/-- The segment describes the points. -/
structure Describes (epsilon : ℕ) (seg : CanonicalSegment) (pts : List StoredPoint) : Prop where
  /-- its line is within `epsilon` -/
  within : ∀ origin, Within epsilon pts (seg.line int128 origin)
  /-- it starts with the first point -/
  first : ∀ s ∈ pts.head?, seg.first = s.x

section Loop

variable {Y : PosType} {n c i start epsilon : ℕ} {inp : ℕ → ℤ × ℤ} {px : ℤ} {opt opt' : Oplm}
  {out : List CanonicalSegment} {done : List (List StoredPoint)} {pts : List StoredPoint}

theorem segmentLoop_skip (hi : i < n) (hstart : i ≠ start) (hx : (inp i).1 = px) :
    segmentLoop n inp i start c px opt out = segmentLoop n inp (i + 1) start c px opt out := by
  rw [segmentLoop, if_pos hi, if_pos ⟨hstart, hx⟩]

theorem segmentLoop_accept (hi : i < n) (hnew : ¬(i ≠ start ∧ (inp i).1 = px))
    (hadd : opt.addPoint int128 (inp i).1 (inp i).2 = .ok (true, opt')) :
    segmentLoop n inp i start c px opt out =
      segmentLoop n inp (i + 1) start c (inp i).1 opt' out := by
  rw [segmentLoop, if_pos hi, if_neg hnew]
  split
  · next heq => rw [hadd] at heq; cases heq
  · next heq => rw [hadd] at heq; cases heq; rfl
  · next heq => rw [hadd] at heq; cases heq

theorem segmentLoop_reject (hi : i < n) (hnew : ¬(i ≠ start ∧ (inp i).1 = px))
    (hadd : opt.addPoint int128 (inp i).1 (inp i).2 = .ok (false, opt')) :
    segmentLoop n inp i start c px opt out =
      segmentLoop n inp i i (c + 1) (inp i).1 opt' (out ++ [opt'.getSegment]) := by
  rw [segmentLoop, if_pos hi, if_neg hnew]
  split
  · next heq => rw [hadd] at heq; cases heq
  · next heq => rw [hadd] at heq; cases heq
  · next heq => rw [hadd] at heq; cases heq; rfl

/-- The loop: the parts that are done, and the points of the hull. -/
structure Cutting (n epsilon : ℕ) (inp : ℕ → ℤ × ℤ) (i start : ℕ) (px : ℤ) (opt : Oplm)
    (out : List CanonicalSegment) (done : List (List StoredPoint)) (pts : List StoredPoint) : Prop where
  /-- the hull -/
  reached : Oplm.Reached epsilon pts opt
  /-- all points so far -/
  flat : done.flatten ++ pts = keptFrom inp 0 i
  /-- the segments -/
  describes : List.Forall₂ (Describes epsilon) out done
  /-- no part can be longer -/
  greedy : Greedy (Fits epsilon) done
  /-- the first point is taken before the loop -/
  pos : 0 < i
  /-- in a segment -/
  inside : pts ≠ [] → start < i ∧ px = (inp (i - 1)).1 ∧
    ∀ p ∈ done.getLast?, ∃ s ∈ pts.head?, ¬Fits epsilon (p ++ [s])
  /-- at the start of one -/
  again : pts = [] → start = i ∧ i < n ∧ (inp i).1 ≠ (inp (i - 1)).1 ∧
    ∀ p ∈ done.getLast?, ¬Fits epsilon (p ++ [pointAt inp i])

theorem keptFrom_succ {a : ℕ} (ha : a ≤ i) : keptFrom inp a (i + 1) = keptFrom inp a i ++
    if i = 0 ∨ (inp i).1 ≠ (inp (i - 1)).1 then [pointAt inp i] else [] := by
  have hlen : i + 1 - a = (i - a) + 1 := by omega
  rw [keptFrom, hlen, List.range'_concat, List.filter_append, List.map_append]
  have hlast : a + 1 * (i - a) = i := by omega
  rw [hlast, keptFrom]
  congr 1
  simp only [List.filter_cons, List.filter_nil, decide_eq_true_eq]
  split <;> rfl

theorem mem_keptFrom {a b : ℕ} {s : StoredPoint} (h : s ∈ keptFrom inp a b) :
    ∃ j, a ≤ j ∧ j < b ∧ s = pointAt inp j := by
  obtain ⟨j, hj, rfl⟩ := List.mem_map.mp h
  have := List.mem_range'_1.mp (List.mem_of_mem_filter hj)
  exact ⟨j, by omega, by omega, rfl⟩

/-- The points come from left to right: keys of type `uint64_t`, and positions. -/
structure LeftToRight (Y : PosType) (n : ℕ) (inp : ℕ → ℤ × ℤ) : Prop where
  /-- the order -/
  le : ∀ i j, i ≤ j → j < n → (inp i).1 ≤ (inp j).1
  /-- the keys -/
  key : ∀ i < n, 0 ≤ (inp i).1 ∧ (inp i).1 < 2 ^ 64
  /-- the positions -/
  position : ∀ i < n, Y.Holds (inp i).2

theorem LeftToRight.inRange (hn : LeftToRight Y n inp) (hi : i < n) : (pointAt inp i).InRange :=
  ⟨(hn.key i hi).1, (hn.key i hi).2, (hn.position i hi).bound⟩

/-- The points of the hull are to the left of a new one. -/
theorem Cutting.left (h : Cutting n epsilon inp i start px opt out done pts) (hn : LeftToRight Y n inp)
    (hi : i < n) (hx : (inp i).1 ≠ (inp (i - 1)).1) : ∀ s ∈ pts, s.x < (inp i).1 := by
  intro s hs
  have hpos := h.pos
  obtain ⟨j, -, hj, rfl⟩ := mem_keptFrom (h.flat ▸ List.mem_append_right _ hs)
  have hle := hn.le j (i - 1) (by omega) (by omega)
  have hstep := hn.le (i - 1) i (by omega) hi
  have hlt : (inp (i - 1)).1 < (inp i).1 := lt_of_le_of_ne hstep hx.symm
  exact hle.trans_lt hlt

/-- A point that is looked at is one with another `x`. -/
theorem Cutting.new (h : Cutting n epsilon inp i start px opt out done pts)
    (hnew : ¬(i ≠ start ∧ (inp i).1 = px)) : (inp i).1 ≠ (inp (i - 1)).1 := by
  rcases eq_or_ne pts [] with hnil | hne
  · exact (h.again hnil).2.2.1
  · obtain ⟨hstart, hpx, -⟩ := h.inside hne
    intro heq
    exact hnew ⟨by omega, by rw [heq, hpx]⟩

theorem Cutting.skip (h : Cutting n epsilon inp i start px opt out done pts) (hstart : i ≠ start)
    (hx : (inp i).1 = px) : Cutting n epsilon inp (i + 1) start px opt out done pts := by
  have hne : pts ≠ [] := fun hnil => hstart (h.again hnil).1.symm
  obtain ⟨hlt, hpx, hstuck⟩ := h.inside hne
  have hpos := h.pos
  refine ⟨h.reached, ?_, h.describes, h.greedy, by omega, fun _ => ⟨by omega, ?_, hstuck⟩,
    fun hnil => absurd hnil hne⟩
  · have hold : ¬(i = 0 ∨ (inp i).1 ≠ (inp (i - 1)).1) := by
      rw [not_or, not_not, hx, hpx]
      exact ⟨by omega, rfl⟩
    rw [keptFrom_succ (Nat.zero_le i), if_neg hold, List.append_nil]
    exact h.flat
  · rw [Nat.add_sub_cancel, hx]

theorem Cutting.accept (h : Cutting n epsilon inp i start px opt out done pts)
    (hxy : (pointAt inp i).InRange) (hnew : ¬(i ≠ start ∧ (inp i).1 = px))
    (hadd : opt.addPoint int128 (inp i).1 (inp i).2 = .ok (true, opt')) :
    Cutting n epsilon inp (i + 1) start (inp i).1 opt' out done (pts ++ [pointAt inp i]) := by
  have hpos := h.pos
  refine ⟨h.reached.accept hxy hadd, ?_, h.describes, h.greedy, by omega, fun _ => ⟨?_, ?_, ?_⟩, by simp⟩
  · rw [keptFrom_succ (Nat.zero_le i), if_pos (.inr (h.new hnew)), ← h.flat, List.append_assoc]
  · rcases eq_or_ne pts [] with hnil | hne
    · have := (h.again hnil).1
      omega
    · have := (h.inside hne).1
      omega
  · rw [Nat.add_sub_cancel]
  · intro p hp
    rcases eq_or_ne pts [] with rfl | hne
    · exact ⟨pointAt inp i, by simp, (h.again rfl).2.2.2 p hp⟩
    · obtain ⟨s, hs, hstuck⟩ := (h.inside hne).2.2 p hp
      exact ⟨s, by rwa [List.head?_append_of_ne_nil pts hne], hstuck⟩

/-- The parts with the points of the hull as the last one. -/
theorem Cutting.close (h : Cutting n epsilon inp i start px opt out done pts) (hne : pts ≠ []) :
    List.Forall₂ (Describes epsilon) (out ++ [opt.getSegment]) (done ++ [pts]) ∧
      Greedy (Fits epsilon) (done ++ [pts]) ∧ (done ++ [pts]).flatten = keptFrom inp 0 i := by
  have hdescribes : Describes epsilon opt.getSegment pts :=
    ⟨fun origin => h.reached.line_within hne origin, h.reached.grown.holds.first_eq⟩
  refine ⟨List.rel_append h.describes (.cons hdescribes .nil), ⟨?_, ?_, ?_⟩, ?_⟩
  · intro p hp
    rcases List.mem_append.mp hp with hp | hp
    · exact h.greedy.ne_nil p hp
    · exact List.mem_singleton.mp hp ▸ hne
  · intro p hp
    rcases List.mem_append.mp hp with hp | hp
    · exact h.greedy.all p hp
    · exact List.mem_singleton.mp hp ▸ ⟨_, hdescribes.within 0⟩
  · refine List.isChain_append.mpr ⟨h.greedy.stuck, List.isChain_singleton pts, ?_⟩
    intro p hp q hq
    obtain rfl : pts = q := by simpa using hq
    exact (h.inside hne).2.2 p hp
  · rw [List.flatten_append, List.flatten_singleton]
    exact h.flat

theorem Cutting.reject (h : Cutting n epsilon inp i start px opt out done pts) (hn : LeftToRight Y n inp)
    (hi : i < n) (hnew : ¬(i ≠ start ∧ (inp i).1 = px))
    (hadd : opt.addPoint int128 (inp i).1 (inp i).2 = .ok (false, opt')) :
    Cutting n epsilon inp i i (inp i).1 opt' (out ++ [opt'.getSegment]) (done ++ [pts]) [] := by
  obtain ⟨hseg, -, h2⟩ := Oplm.getSegment_of_reject hadd
  have hne : pts ≠ [] := by
    rintro rfl
    have := h.reached.grown.holds.count
    simp only [List.length_nil] at this
    omega
  obtain ⟨hdescribes, hgreedy, hflat⟩ := h.close hne
  obtain ⟨b, o, hadd', hb⟩ := h.reached.addPoint_iff (h.left hn hi (h.new hnew)) (hn.inRange hi)
  obtain ⟨rfl, -⟩ : b = false ∧ o = opt' := by
    rw [hadd] at hadd'
    simpa [eq_comm] using hadd'
  refine ⟨h.reached.reject (hn.inRange hi) hadd, by simpa using hflat, hseg ▸ hdescribes, hgreedy, h.pos,
    fun hnil => absurd rfl hnil, fun _ => ⟨rfl, hi, h.new hnew, ?_⟩⟩
  intro p hp
  obtain rfl : pts = p := by simpa using hp
  exact fun hfits => absurd (hb.mpr hfits) (by simp)

/-- How often the loop still turns: a refused point is looked at twice. -/
def turnsLeft (n i : ℕ) (opt : Oplm) : ℕ := 2 * (n - i) + if opt.pointsInHull = 0 then 0 else 1

/-- The loop from any of its states. -/
theorem Cutting.run (hn : LeftToRight Y n inp) (h : Cutting n epsilon inp i start px opt out done pts)
    (hin : i ≤ n) : ∃ out' parts,
      segmentLoop n inp i start out.length px opt out = .ok (out', out'.length) ∧
      List.Forall₂ (Describes epsilon) out' parts ∧ Greedy (Fits epsilon) parts ∧
      parts.flatten = keptFrom inp 0 n := by
  induction hm : turnsLeft n i opt using Nat.strong_induction_on generalizing i start px opt out
    done pts with
  | _ m ih =>
    subst hm
    rcases Nat.lt_or_ge i n with hi | hge
    · by_cases hskip : i ≠ start ∧ (inp i).1 = px
      · rw [segmentLoop_skip hi hskip.1 hskip.2]
        exact ih (turnsLeft n (i + 1) opt) (by simp only [turnsLeft]; omega)
          (h.skip hskip.1 hskip.2) hi rfl
      · obtain ⟨b, opt', hadd, -⟩ :=
          h.reached.addPoint_iff (h.left hn hi (h.new hskip)) (hn.inRange hi)
        cases b with
        | true =>
          rw [segmentLoop_accept hi hskip hadd]
          refine ih (turnsLeft n (i + 1) opt') ?_ (h.accept (hn.inRange hi) hskip hadd) hi rfl
          simp only [turnsLeft]
          split <;> split <;> omega
        | false =>
          obtain ⟨hbefore, hafter⟩ := Oplm.rejected_again hadd
          rw [segmentLoop_reject hi hskip hadd]
          have hlen : out.length + 1 = (out ++ [opt'.getSegment]).length := by simp
          rw [hlen]
          refine ih (turnsLeft n i opt') ?_ (h.reject hn hi hskip hadd) hin rfl
          simp only [turnsLeft, if_neg hbefore, if_pos hafter]
          omega
    · obtain rfl : i = n := le_antisymm hin hge
      have hne : pts ≠ [] := fun hnil => absurd (h.again hnil).2.1 (lt_irrefl i)
      obtain ⟨hdescribes, hgreedy, hflat⟩ := h.close hne
      refine ⟨_, _, ?_, hdescribes, hgreedy, hflat⟩
      rw [segmentLoop, if_neg (lt_irrefl i)]
      simp

end Loop

/-- What `make_segmentation` computes. -/
theorem makeSegmentation_spec {Y : PosType} {epsilon : ℕ} (hε : Y.Holds epsilon) {n : ℕ}
    {inp : ℕ → ℤ × ℤ} (hn : LeftToRight Y n inp) :
    ∃ out parts, makeSegmentation Y n epsilon inp = .ok (out, out.length) ∧
      List.Forall₂ (Describes epsilon) out parts ∧ Greedy (Fits epsilon) parts ∧
      parts.flatten = keptFrom inp 0 n := by
  rcases Nat.eq_zero_or_pos n with rfl | hpos
  · refine ⟨[], [], rfl, .nil, ⟨by simp, by simp, .nil⟩, rfl⟩
  · obtain ⟨o, ho⟩ : ∃ o, Oplm.new epsilon = .ok o := by
      rw [Oplm.new, if_neg (by omega)]
      exact ⟨_, rfl⟩
    have hfresh : Oplm.Reached epsilon [] o := .fresh (abs_le.mp hε.bound).2 ho
    obtain ⟨b, o', hadd, hb⟩ := hfresh.addPoint_iff (by simp) (hn.inRange hpos)
    obtain rfl : b = true := by
      rw [hb]
      refine ⟨⟨0, (inp 0).2⟩, fun s hs => ?_⟩
      obtain rfl := List.mem_singleton.mp hs
      simp [height]
    have hfirst : keptFrom inp 0 1 = [pointAt inp 0] := by simp [keptFrom]
    have hcut : Cutting n epsilon inp 1 0 (inp 0).1 o' [] [] [pointAt inp 0] :=
      ⟨hfresh.accept (hn.inRange hpos) hadd, by simp [hfirst], .nil, ⟨by simp, by simp, .nil⟩, by omega,
        fun _ => ⟨by omega, rfl, by simp⟩, by simp⟩
    obtain ⟨out, parts, hrun, hrest⟩ := hcut.run hn hpos
    refine ⟨out, parts, ?_, hrest⟩
    rw [makeSegmentation, if_neg (by omega), Y.ofSizeT_eq hε, ho]
    rw [Runs.ok_bind, hadd]
    exact hrun

/-- `make_segmentation` cuts the points into parts each of which has a segment within `epsilon`, and
into as few parts as such a cut can have. -/
theorem makeSegmentation_least {Y : PosType} {epsilon : ℕ} (hε : Y.Holds epsilon) {n : ℕ}
    {inp : ℕ → ℤ × ℤ} (hn : LeftToRight Y n inp) :
    ∃ out parts, makeSegmentation Y n epsilon inp = .ok (out, parts.length) ∧
      List.Forall₂ (Describes epsilon) out parts ∧ IsCut (Fits epsilon) (keptFrom inp 0 n) parts ∧
      ∀ qs, IsCut (Fits epsilon) (keptFrom inp 0 n) qs → parts.length ≤ qs.length := by
  obtain ⟨out, parts, hrun, hdescribes, hgreedy, hflat⟩ := makeSegmentation_spec hε hn
  rw [hdescribes.length_eq] at hrun
  exact ⟨out, parts, hrun, hdescribes, ⟨hflat, hgreedy.all⟩,
    fun qs hqs => hgreedy.le (hereditary_fits epsilon) (hflat ▸ hqs)⟩

/-- Points on a parabola, up to 2^15 of them. -/
def parabola (i : ℕ) : ℤ × ℤ := (i, (i : ℤ) ^ 2)

theorem leftToRight_parabola {n : ℕ} (hn : n ≤ 2 ^ 15) : LeftToRight .int n parabola where
  le i j hij _ := Int.ofNat_le.mpr hij
  key i hi := ⟨Int.natCast_nonneg i, by simp only [parabola]; omega⟩
  position i hi := by
    have hle : (i : ℤ) ≤ 2 ^ 15 := by exact_mod_cast (hi.trans_le hn).le
    have hsquare : (i : ℤ) ^ 2 ≤ (2 ^ 15) ^ 2 := pow_le_pow_left₀ (Int.natCast_nonneg i) hle 2
    have hpos : (0 : ℤ) ≤ (i : ℤ) ^ 2 := by positivity
    exact ⟨by simp only [parabola]; omega, by simp only [parabola]; omega⟩

/-- Three points on a parabola. -/
theorem makeSegmentation_parabola :
    ∃ out parts, makeSegmentation .int 3 1 parabola = .ok (out, parts.length) ∧
      List.Forall₂ (Describes 1) out parts ∧ IsCut (Fits 1) (keptFrom parabola 0 3) parts ∧
      ∀ qs, IsCut (Fits 1) (keptFrom parabola 0 3) qs → parts.length ≤ qs.length :=
  makeSegmentation_least (Y := .int) ⟨by decide, by decide⟩ (leftToRight_parabola (by decide))

/-! ## In parallel -/

/-- The loop that moves `first` behind the points with the `x` of the point before, up to `k` times. -/
def skipSame (inp : ℕ → ℤ × ℤ) (first : ℕ) : ℕ → ℕ
  | 0 => first
  | k + 1 => if (inp first).1 ≠ (inp (first - 1)).1 then first else skipSame inp (first + 1) k

/-- What the call of `results[i].reserve` divides by, a `size_t`. -/
def reserveDivisor (epsilon : ℕ) : ℕ := if epsilon > 0 then epsilon * epsilon % 2 ^ 64 else 16

/-- A chunk from `first` on: `results[i].reserve` and `make_segmentation`. -/
def segmentChunk (Y : PosType) (epsilon : ℕ) (inp : ℕ → ℤ × ℤ) (first last : ℕ) :
    Except String (List CanonicalSegment × ℕ) :=
  if reserveDivisor epsilon = 0 then .error "division by zero"
  else makeSegmentation Y (last - first) epsilon fun j => inp (first + j)

/-- One turn of the parallel loop of `make_segmentation_par`: what it puts into `results[i]`, and what
it adds to `c`. -/
def makeChunk (Y : PosType) (n epsilon parallelism : ℕ) (inp : ℕ → ℤ × ℤ) (i : ℕ) :
    Except String (List CanonicalSegment × ℕ) :=
  let chunkSize := n / parallelism
  let first := i * chunkSize
  let last := if i = parallelism - 1 then n else first + chunkSize
  if first > 0 then
    let first := skipSame inp first (last - first)
    if first = last then .ok ([], 0)
    else segmentChunk Y epsilon inp first last
  else segmentChunk Y epsilon inp first last

/-- `make_segmentation_par`, with the number of `omp_get_max_threads()`: the turns of the loop have
nothing in common, so that their order does not matter. -/
def makeSegmentationPar (Y : PosType) (threads n epsilon : ℕ) (inp : ℕ → ℤ × ℤ) :
    Except String (List CanonicalSegment × ℕ) :=
  let parallelism := min threads 20
  if parallelism = 1 ∨ n < 2 ^ 15 then makeSegmentation Y n epsilon inp
  else do
    let results ← (List.range parallelism).mapM (makeChunk Y n epsilon parallelism inp)
    .ok ((results.map (·.1)).flatten, (results.map (·.2)).sum)

/-- A tolerance whose square is a `size_t`. -/
theorem reserveDivisor_ne_zero {epsilon : ℕ} (h : epsilon < 2 ^ 32) : reserveDivisor epsilon ≠ 0 := by
  rw [reserveDivisor]
  split
  · next hpos =>
    have hlt : epsilon * epsilon < 2 ^ 32 * 2 ^ 32 := Nat.mul_lt_mul'' h h
    rw [Nat.mod_eq_of_lt (by omega)]
    exact (Nat.mul_pos hpos hpos).ne'
  · decide

section Chunks

variable {Y : PosType} {inp : ℕ → ℤ × ℤ} {a b c n epsilon : ℕ}

theorem keptFrom_append (hab : a ≤ b) (hbc : b ≤ c) :
    keptFrom inp a b ++ keptFrom inp b c = keptFrom inp a c := by
  have hlen : c - a = (b - a) + (c - b) := by omega
  have hb : a + 1 * (b - a) = b := by omega
  rw [keptFrom, keptFrom, keptFrom, ← List.map_append, ← List.filter_append, hlen,
    ← List.range'_append, hb]

theorem skipSame_spec (inp : ℕ → ℤ × ℤ) (k : ℕ) {first : ℕ} (hpos : 0 < first) :
    first ≤ skipSame inp first k ∧ skipSame inp first k ≤ first + k ∧
      keptFrom inp first (skipSame inp first k) = [] ∧
      (skipSame inp first k < first + k →
        (inp (skipSame inp first k)).1 ≠ (inp (skipSame inp first k - 1)).1) := by
  induction k generalizing first with
  | zero => simp [skipSame, keptFrom]
  | succ k ih =>
    rw [skipSame]
    split
    · next hne => exact ⟨le_rfl, by omega, by simp [keptFrom], fun _ => hne⟩
    · next heq =>
      obtain ⟨hlow, hhigh, hnone, hstop⟩ := ih (show 0 < first + 1 by omega)
      refine ⟨by omega, by omega, ?_, fun hlt => hstop (by omega)⟩
      rw [← keptFrom_append (Nat.le_succ first) hlow, hnone, keptFrom_succ le_rfl, if_neg (by omega)]
      simp [keptFrom]

theorem keptFrom_shift {f : ℕ} (hf : f = 0 ∨ (inp f).1 ≠ (inp (f - 1)).1) (m : ℕ) :
    keptFrom (fun j => inp (f + j)) 0 m = keptFrom inp f (f + m) := by
  induction m with
  | zero => simp [keptFrom]
  | succ m ih =>
    rw [keptFrom_succ (Nat.zero_le m), ih, ← Nat.add_assoc, keptFrom_succ (Nat.le_add_right f m)]
    congr 1
    rcases Nat.eq_zero_or_pos m with rfl | hm
    · simp [hf, pointAt]
    · have hpred : f + (m - 1) = f + m - 1 := by omega
      have hm0 : m ≠ 0 := by omega
      simp [hpred, hm0, pointAt]

theorem LeftToRight.shift (h : LeftToRight Y n inp) {f last : ℕ} (hlast : last ≤ n) :
    LeftToRight Y (last - f) fun j => inp (f + j) where
  le i j hij hj := h.le (f + i) (f + j) (by omega) (by omega)
  key i hi := h.key (f + i) (by omega)
  position i hi := h.position (f + i) (by omega)

/-- The segments of the points from `first` to `last`. -/
theorem segmentChunk_spec (hε : Y.Holds epsilon) (hreserve : epsilon < 2 ^ 32)
    (hn : LeftToRight Y n inp) {first last : ℕ} (hle : first ≤ last) (hlast : last ≤ n)
    (hfirst : first = 0 ∨ (inp first).1 ≠ (inp (first - 1)).1) :
    ∃ out parts, segmentChunk Y epsilon inp first last = .ok (out, out.length) ∧
      List.Forall₂ (Describes epsilon) out parts ∧ Greedy (Fits epsilon) parts ∧
      parts.flatten = keptFrom inp first last := by
  obtain ⟨out, parts, hrun, hdescribes, hgreedy, hflat⟩ :=
    makeSegmentation_spec hε (hn.shift (f := first) hlast)
  rw [keptFrom_shift hfirst, Nat.add_sub_of_le hle] at hflat
  refine ⟨out, parts, ?_, hdescribes, hgreedy, hflat⟩
  rw [segmentChunk, if_neg (reserveDivisor_ne_zero hreserve)]
  exact hrun

/-- Where the chunk `k` begins, and the one before ends. -/
def border (n parallelism k : ℕ) : ℕ := if k = parallelism then n else k * (n / parallelism)

theorem border_le {parallelism k : ℕ} (hk : k ≤ parallelism) : border n parallelism k ≤ n := by
  rw [border]
  split
  · exact le_rfl
  · exact (Nat.mul_le_mul_right _ hk).trans (Nat.mul_div_le n parallelism)

theorem border_mono {parallelism k : ℕ} (hk : k < parallelism) :
    border n parallelism k ≤ border n parallelism (k + 1) := by
  have hle := border_le (n := n) hk.le
  rw [border, if_neg hk.ne] at hle ⊢
  rw [border]
  split
  · exact hle
  · exact Nat.mul_le_mul_right _ (Nat.le_succ k)

/-- One turn of the parallel loop. -/
theorem makeChunk_spec (hε : Y.Holds epsilon) (hreserve : epsilon < 2 ^ 32) (hn : LeftToRight Y n inp)
    {parallelism i : ℕ} (hi : i < parallelism) :
    ∃ out parts, makeChunk Y n epsilon parallelism inp i = .ok (out, out.length) ∧
      List.Forall₂ (Describes epsilon) out parts ∧ Greedy (Fits epsilon) parts ∧
      parts.flatten = keptFrom inp (border n parallelism i) (border n parallelism (i + 1)) := by
  have hfirst : i * (n / parallelism) = border n parallelism i := by rw [border, if_neg hi.ne]
  have hlast : (if i = parallelism - 1 then n else i * (n / parallelism) + n / parallelism) =
      border n parallelism (i + 1) := by
    have hiff : i = parallelism - 1 ↔ i + 1 = parallelism := by omega
    simp only [border, hiff, Nat.succ_mul]
  have hle := border_mono (n := n) hi
  have hn' := border_le (n := n) (k := i + 1) hi
  rw [hfirst] at hlast
  simp only [makeChunk, hfirst, hlast]
  generalize border n parallelism i = first at hle ⊢
  generalize border n parallelism (i + 1) = last at hle hn' ⊢
  split
  · next hpos =>
    obtain ⟨hlow, hhigh, hnone, hstop⟩ := skipSame_spec inp (last - first) hpos
    generalize skipSame inp first (last - first) = f at hlow hhigh hnone hstop ⊢
    have hkept : keptFrom inp first last = keptFrom inp f last := by
      rw [← keptFrom_append hlow (by omega), hnone, List.nil_append]
    split
    · next heq =>
      refine ⟨[], [], rfl, .nil, ⟨by simp, by simp, .nil⟩, ?_⟩
      rw [hkept, heq]
      simp [keptFrom]
    · next hne =>
      rw [hkept]
      exact segmentChunk_spec hε hreserve hn (by omega) hn' (.inr (hstop (by omega)))
  · next hzero => exact segmentChunk_spec hε hreserve hn hle hn' (.inl (by omega))

end Chunks

theorem mapM_ok {ε α β : Type} {f : α → Except ε β} {g : α → β} {l : List α}
    (h : ∀ a ∈ l, f a = .ok (g a)) : l.mapM f = .ok (l.map g) := by
  induction l with
  | nil => rfl
  | cons a l ih =>
    rw [List.mapM_cons, h a (by simp), Runs.ok_bind, ih fun a' ha' => h a' (by simp [ha'])]
    rfl

/-- Each of the parallel chunks but one costs one segment at most, compared to any cut. -/
theorem makeSegmentationPar_near_least {Y : PosType} {epsilon : ℕ} (hε : Y.Holds epsilon)
    (hreserve : epsilon < 2 ^ 32) {threads n : ℕ} {inp : ℕ → ℤ × ℤ} (hn : LeftToRight Y n inp)
    (hthreads : 0 < threads) :
    ∃ out parts, makeSegmentationPar Y threads n epsilon inp = .ok (out, parts.length) ∧
      List.Forall₂ (Describes epsilon) out parts ∧ IsCut (Fits epsilon) (keptFrom inp 0 n) parts ∧
      ∀ qs, IsCut (Fits epsilon) (keptFrom inp 0 n) qs →
        parts.length ≤ qs.length + (min threads 20 - 1) := by
  have hpos : 0 < min threads 20 := by omega
  rw [makeSegmentationPar]
  generalize min threads 20 = parallelism at hpos ⊢
  split
  · obtain ⟨out, parts, hrun, hdescribes, hgreedy, hflat⟩ := makeSegmentation_spec hε hn
    rw [hdescribes.length_eq] at hrun
    exact ⟨out, parts, hrun, hdescribes, ⟨hflat, hgreedy.all⟩, fun qs hqs =>
      (hgreedy.le (hereditary_fits epsilon) (hflat ▸ hqs)).trans (Nat.le_add_right _ _)⟩
  · have hchunk : ∀ i, ∃ out parts, i < parallelism →
        makeChunk Y n epsilon parallelism inp i = .ok (out, out.length) ∧
        List.Forall₂ (Describes epsilon) out parts ∧ Greedy (Fits epsilon) parts ∧
        parts.flatten = keptFrom inp (border n parallelism i) (border n parallelism (i + 1)) := by
      intro i
      by_cases hi : i < parallelism
      · obtain ⟨out, parts, h⟩ := makeChunk_spec hε hreserve hn hi
        exact ⟨out, parts, fun _ => h⟩
      · exact ⟨[], [], fun h => absurd h hi⟩
    choose out parts h using hchunk
    have hmap : (List.range parallelism).mapM (makeChunk Y n epsilon parallelism inp) =
        .ok ((List.range parallelism).map fun i => (out i, (out i).length)) :=
      mapM_ok fun i hi => (h i (List.mem_range.mp hi)).1
    have hprefix : ∀ k ≤ parallelism,
        List.Forall₂ (Describes epsilon) ((List.range k).map out).flatten
          ((List.range k).map parts).flatten ∧
        (((List.range k).map parts).map List.flatten).flatten =
          keptFrom inp 0 (border n parallelism k) := by
      intro k hk
      induction k with
      | zero => simp [keptFrom, border, hpos.ne]
      | succ k ih =>
        obtain ⟨hdescribes, hflat⟩ := ih (by omega)
        obtain ⟨-, hdescribes', -, hflat'⟩ := h k hk
        simp only [List.range_succ, List.map_append, List.flatten_append, List.map_cons, List.map_nil,
          List.flatten_singleton]
        refine ⟨List.rel_append hdescribes hdescribes', ?_⟩
        rw [hflat, hflat', keptFrom_append (Nat.zero_le _) (border_mono hk)]
    obtain ⟨hdescribes, hflat⟩ := hprefix parallelism le_rfl
    rw [border, if_pos rfl] at hflat
    refine ⟨_, _, ?_, hdescribes, ⟨?_, ?_⟩, ?_⟩
    · rw [hmap, Runs.ok_bind, ← hdescribes.length_eq, List.length_flatten]
      simp [Function.comp_def]
    · rw [List.flatten_flatten]
      exact hflat
    · intro p hp
      obtain ⟨ps, hps, hp⟩ := List.mem_flatten.mp hp
      obtain ⟨i, hi, rfl⟩ := List.mem_map.mp hps
      exact (h i (List.mem_range.mp hi)).2.2.1.all p hp
    · intro qs hqs
      have hgreedy : ∀ ps ∈ (List.range parallelism).map parts, Greedy (Fits epsilon) ps := by
        intro ps hps
        obtain ⟨i, hi, rfl⟩ := List.mem_map.mp hps
        exact (h i (List.mem_range.mp hi)).2.2.1
      have hle := le_of_pieces (hereditary_fits epsilon) hgreedy (hflat ▸ hqs)
      rw [List.length_flatten]
      simpa using hle

/-- Four threads and as many points as they need to start. -/
theorem makeSegmentationPar_parabola :
    ∃ out parts, makeSegmentationPar .int 4 (2 ^ 15) 1 parabola = .ok (out, parts.length) ∧
      List.Forall₂ (Describes 1) out parts ∧ IsCut (Fits 1) (keptFrom parabola 0 (2 ^ 15)) parts ∧
      ∀ qs, IsCut (Fits 1) (keptFrom parabola 0 (2 ^ 15)) qs →
        parts.length ≤ qs.length + (min 4 20 - 1) :=
  makeSegmentationPar_near_least (Y := .int) ⟨by decide, by decide⟩ (by decide) (leftToRight_parabola le_rfl)
    (by decide)

end NaliStore
