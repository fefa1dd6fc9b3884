import NaliStore.Lib.Lines

/-!
# The lines through a tunnel

Points that a line has to be above and points that it has to be below, which come from left to
right. Of the lines that meet this the flattest and the steepest one touch two points each: the
flattest a point below which it has to be and then one above which it has to be, the steepest the
other way round. These four points (`Rect`) and two chains are enough to go on (`Tunnel`): from the
last point on the lines are exactly those between the two (`Tunnel.between`), a new point that
leaves no line is seen from them, and otherwise the new extreme line goes through the new point and
the point of the chain with the least slope to it (`Tunnel.insertUpper`).

Upside down the two kinds of points change places, so every result is stated for one of them.
-/

namespace Lines

variable {K : Type*} [Field K]

/-- A point upside down. -/
def turn (q : K × K) : K × K := (q.1, -q.2)

/-- The points upside down. -/
def mirror (B : Set (K × K)) : Set (K × K) := {q | turn q ∈ B}

/-- The points which the two extreme lines touch. -/
structure Rect (K : Type*) where
  /-- where the flattest line starts -/
  r0 : K × K
  /-- where the steepest line starts -/
  r1 : K × K
  /-- where the flattest line ends -/
  r2 : K × K
  /-- where the steepest line ends -/
  r3 : K × K

namespace Rect

/-- The flattest line. -/
def floor (r : Rect K) : Line K := join r.r0 r.r2

/-- The steepest line. -/
def ceil (r : Rect K) : Line K := join r.r1 r.r3

/-- The points upside down. -/
def mirror (r : Rect K) : Rect K := ⟨turn r.r1, turn r.r0, turn r.r3, turn r.r2⟩

end Rect

@[simp] theorem turn_fst (q : K × K) : (turn q).1 = q.1 := rfl

@[simp] theorem turn_snd (q : K × K) : (turn q).2 = -q.2 := rfl

@[simp] theorem turn_turn (q : K × K) : turn (turn q) = q := by
  simp [turn]

theorem turn_eq_iff {q a : K × K} : turn q = a ↔ q = turn a := by
  constructor <;> rintro rfl <;> rw [turn_turn]

@[simp] theorem mem_mirror {B : Set (K × K)} {q : K × K} : q ∈ mirror B ↔ turn q ∈ B := Iff.rfl

@[simp] theorem mirror_mirror (B : Set (K × K)) : mirror (mirror B) = B := by
  ext q
  simp

theorem mirror_insert (p : K × K) (B : Set (K × K)) :
    mirror (insert p B) = insert (turn p) (mirror B) := by
  ext q
  simp only [mem_mirror, Set.mem_insert_iff, turn_eq_iff]

@[simp] theorem map_turn_turn (l : List (K × K)) : (l.map turn).map turn = l := by
  simp [Function.comp_def]

theorem join_turn (d p : K × K) (x : K) : join (turn d) (turn p) x = -join d p x := by
  simp only [join, ray, slopeTo, height, turn_fst, turn_snd]
  ring

@[simp] theorem floor_mirror (r : Rect K) (x : K) : r.mirror.floor x = -r.ceil x := join_turn _ _ x

@[simp] theorem ceil_mirror (r : Rect K) (x : K) : r.mirror.ceil x = -r.floor x := join_turn _ _ x

@[simp] theorem Rect.mirror_mirror (r : Rect K) : r.mirror.mirror = r := by
  simp [Rect.mirror]

variable [LinearOrder K] {A B : Set (K × K)} {l u u' l₀ l₁ : List (K × K)} {r : Rect K}
  {p d : K × K} {last : K} {ℓ : Line K}

/-- The points that a line has to be above, and the chain that stands for them. -/
structure Side (A : Set (K × K)) (l : List (K × K)) (f g : Line K) (last : K) : Prop where
  /-- the chain bends downwards -/
  concave : Concave l
  /-- it consists of points of the set -/
  mem : ∀ e ∈ l, e ∈ A
  /-- the set ends at `last` -/
  bound : ∀ q ∈ A, q.1 ≤ last
  /-- and the chain stands for it -/
  covers : Covers A l f g last

/-- The points that a line has to be above and those it has to be below, and the state in which the
extreme lines through them are known. -/
structure Tunnel (A B : Set (K × K)) (l u : List (K × K)) (r : Rect K) (last : K) : Prop where
  /-- the flattest line goes through -/
  floor : Above A r.floor ∧ Below B r.floor
  /-- the steepest line goes through -/
  ceil : Above A r.ceil ∧ Below B r.ceil
  /-- the points the flattest line touches -/
  floorTouch : r.r0 ∈ B ∧ r.r2 ∈ A ∧ r.r0.1 < r.r2.1
  /-- the points the steepest line touches -/
  ceilTouch : r.r1 ∈ A ∧ r.r3 ∈ B ∧ r.r1.1 < r.r3.1
  /-- the points to be above -/
  lower : Side A l r.floor r.ceil last
  /-- the points to be below, upside down -/
  upper : Side (mirror B) (u.map turn) r.mirror.floor r.mirror.ceil last

namespace Tunnel

theorem floor_r0 (h : Tunnel A B l u r last) : r.floor r.r0.1 = r.r0.2 := join_left h.floorTouch.2.2.ne

theorem floor_r2 (_ : Tunnel A B l u r last) : r.floor r.r2.1 = r.r2.2 := join_right _ _

theorem ceil_r1 (h : Tunnel A B l u r last) : r.ceil r.r1.1 = r.r1.2 := join_left h.ceilTouch.2.2.ne

theorem ceil_r3 (_ : Tunnel A B l u r last) : r.ceil r.r3.1 = r.r3.2 := join_right _ _

/-- The tunnel of two points of each kind. -/
theorem pair {a a' b b' : K × K} (ha : a'.1 = a.1) (hb : b'.1 = b.1) (hab : a.1 < b.1)
    (haa : a.2 ≤ a'.2) (hbb : b.2 ≤ b'.2) :
    Tunnel {q | q ∈ [a, b]} {q | q ∈ [a', b']} [a, b] [a', b'] ⟨a', a, b, b'⟩ b.1 := by
  have hfloor : join a' b a.1 = a'.2 ∧ join a' b b.1 = b.2 :=
    ⟨ha ▸ join_left (by rw [ha]; exact hab.ne), join_right a' b⟩
  have hceil : join a b' a.1 = a.2 ∧ join a b' b.1 = b'.2 :=
    ⟨join_left (by rw [hb]; exact hab.ne), hb ▸ join_right a b'⟩
  have hmirror : Lines.mirror {q | q ∈ [a', b']} = {q | q ∈ [a', b'].map turn} := by
    ext q
    simp only [mem_mirror, Set.mem_ofPred_eq, List.map_cons, List.map_nil, List.mem_cons,
      List.not_mem_nil, or_false]
    rw [turn_eq_iff, turn_eq_iff]
  refine ⟨⟨?_, ?_⟩, ⟨?_, ?_⟩, by simpa [ha] using hab, by simpa [hb] using hab, ?_, ?_⟩
  · simp [Above, Rect.floor, hfloor, haa]
  · simp [Below, Rect.floor, ha, hb, hfloor, hbb]
  · simp [Above, Rect.ceil, hceil, hbb]
  · simp [Below, Rect.ceil, ha, hb, hceil, haa]
  · exact ⟨Concave.pair hab, fun _ h => h, by simp [hab.le], Covers.refl⟩
  · rw [hmirror]
    refine ⟨Concave.pair ?_, fun _ h => h, ?_, Covers.refl⟩
    · simpa [ha, hb] using hab
    · simp [ha, hb, hab.le]

theorem below_insert {ℓ : Line K} (h : Below B ℓ) (hp : ℓ p.1 ≤ p.2) : Below (insert p B) ℓ := by
  intro q hq
  rcases Set.mem_insert_iff.mp hq with rfl | hq
  · exact hp
  · exact h q hq

variable [IsStrictOrderedRing K]

theorem above_mirror {m : Line K} (hm : ∀ x, m x = -ℓ x) : Above (Lines.mirror B) m ↔ Below B ℓ := by
  constructor
  · intro h q hq
    have := h (turn q) (by simpa using hq)
    simp only [turn_fst, turn_snd, hm] at this
    exact neg_le_neg_iff.mp this
  · intro h q hq
    have := h (turn q) hq
    simp only [turn_fst, turn_snd] at this
    rw [hm]
    exact le_neg.mp this

theorem below_mirror {m : Line K} (hm : ∀ x, m x = -ℓ x) : Below (Lines.mirror A) m ↔ Above A ℓ := by
  constructor
  · intro h q hq
    have := h (turn q) (by simpa using hq)
    simp only [turn_fst, turn_snd, hm] at this
    exact neg_le_neg_iff.mp this
  · intro h q hq
    have := h (turn q) hq
    simp only [turn_fst, turn_snd] at this
    rw [hm]
    exact neg_le.mp this

protected theorem mirror (h : Tunnel A B l u r last) :
    Tunnel (Lines.mirror B) (Lines.mirror A) (u.map turn) (l.map turn) r.mirror last where
  floor := ⟨(above_mirror (floor_mirror r)).mpr h.ceil.2, (below_mirror (floor_mirror r)).mpr h.ceil.1⟩
  ceil := ⟨(above_mirror (ceil_mirror r)).mpr h.floor.2, (below_mirror (ceil_mirror r)).mpr h.floor.1⟩
  floorTouch := by simpa [Rect.mirror] using h.ceilTouch
  ceilTouch := by simpa [Rect.mirror] using h.floorTouch
  lower := h.upper
  upper := by simpa only [mirror_mirror, map_turn_turn, Rect.mirror_mirror] using h.lower

/-- A line through the tunnel is above the flattest one behind it. -/
theorem floor_le (h : Tunnel A B l u r last) (hA : Above A ℓ) (hB : Below B ℓ) {x : K}
    (hx : last ≤ x) : r.floor x ≤ ℓ x := by
  refine le_right h.floorTouch.2.2 ((h.lower.bound _ h.floorTouch.2.1).trans hx) ?_ ?_
  · rw [h.floor_r0]
    exact hB _ h.floorTouch.1
  · rw [h.floor_r2]
    exact hA _ h.floorTouch.2.1

/-- And below the steepest one. -/
theorem le_ceil (h : Tunnel A B l u r last) (hA : Above A ℓ) (hB : Below B ℓ) {x : K}
    (hx : last ≤ x) : ℓ x ≤ r.ceil x := by
  have hm : ∀ z, flip ℓ z = -ℓ z := flip_apply ℓ
  have := h.mirror.floor_le ((above_mirror hm).mpr hB) ((below_mirror hm).mpr hA) hx
  simpa using this

/-- The line from the chain to a point between the two lines goes through the tunnel when no point of
the chain has a smaller slope. -/
theorem tangent (h : Tunnel A B l u r last) (hlast : last ≤ p.1) (hfloor : r.floor p.1 ≤ p.2)
    (hceil : p.2 ≤ r.ceil p.1) (hd : d ∈ l) (hdp : d.1 < p.1)
    (hmin : ∀ e ∈ l, e.1 < p.1 → slopeTo p d ≤ slopeTo p e)
    (htop : ∀ e ∈ l, e.1 = p.1 → e.2 ≤ p.2) : Above A (join d p) ∧ Below B (join d p) := by
  have hp : join d p p.1 = p.2 := join_right d p
  constructor
  · refine h.lower.covers p.1 hlast _ (hfloor.trans_eq hp.symm) (hp.trans_le hceil) fun e he => ?_
    have hbound := (h.lower.bound e (h.lower.mem e he)).trans hlast
    rcases eq_or_lt_of_le hbound with heq | hlt
    · rw [heq, hp]
      exact htop e he heq
    · exact (le_ray_iff hlt).mpr (hmin e he hlt)
  · -- a line through the tunnel and through the point, which is steeper nowhere
    obtain ⟨t, h0, h1, hmix⟩ := exists_mix hfloor hceil
    intro q hq
    have hqp : q.1 ≤ p.1 := by
      have := h.upper.bound (turn q) (by simpa using hq)
      exact this.trans hlast
    have habove : d.2 ≤ mix t r.floor r.ceil d.1 :=
      le_mix h0 h1 (h.floor.1 d (h.lower.mem d hd)) (h.ceil.1 d (h.lower.mem d hd))
    have hleft : join d p d.1 ≤ mix t r.floor r.ceil d.1 := by
      rwa [join_left hdp.ne]
    have hbelow : mix t r.floor r.ceil q.1 ≤ q.2 := mix_le h0 h1 (h.floor.2 q hq) (h.ceil.2 q hq)
    refine le_trans ?_ hbelow
    rcases le_total q.1 d.1 with hqd | hdq
    · exact le_left hqd hdp hleft (hmix.trans hp.symm).le
    · exact le_between hdq hqp hleft (hp.trans hmix.symm).le

/-- From the new point on the new line is below the steepest one there was. -/
theorem join_le_ceil (h : Tunnel A B l u r last) (hlast : last ≤ p.1) (hceil : p.2 ≤ r.ceil p.1)
    (habove : Above A (join d p)) {x : K} (hx : p.1 ≤ x) : join d p x ≤ r.ceil x := by
  have hr3 : r.r3.1 ≤ last := h.upper.bound (turn r.r3) (by simpa using h.ceilTouch.2.1)
  refine le_right (h.ceilTouch.2.2.trans_le (hr3.trans hlast)) hx ?_ ?_
  · rw [h.ceil_r1]
    exact habove _ h.ceilTouch.1
  · rwa [join_right]

/-- A new point to be below, which cuts off the steepest line. -/
theorem insertUpper (h : Tunnel A B l u r last) (hlast : last ≤ p.1) (hfloor : r.floor p.1 ≤ p.2)
    (hceil : p.2 ≤ r.ceil p.1) (hl : l = l₀ ++ d :: l₁) (hdp : d.1 < p.1)
    (hmin : ∀ e ∈ l, e.1 < p.1 → slopeTo p d ≤ slopeTo p e)
    (htop : ∀ e ∈ l, e.1 = p.1 → e.2 ≤ p.2) (hu : Concave (u'.map turn))
    (hdom : Dominates (u'.map turn) (u.map turn)) (hpu : p ∈ u') (hsub : ∀ e ∈ u', e = p ∨ e ∈ u) :
    Tunnel A (insert p B) (d :: l₁) u' { r with r1 := d, r3 := p } p.1 := by
  have hd : d ∈ l := by simp [hl]
  obtain ⟨habove, hbelow⟩ := h.tangent hlast hfloor hceil hd hdp hmin htop
  have hnarrow : ∀ x, p.1 ≤ x → join d p x ≤ r.ceil x :=
    fun x hx => h.join_le_ceil hlast hceil habove hx
  refine ⟨⟨h.floor.1, below_insert h.floor.2 hfloor⟩,
    ⟨habove, below_insert hbelow (join_right d p).le⟩,
    ⟨Set.mem_insert_of_mem p h.floorTouch.1, h.floorTouch.2⟩,
    ⟨h.lower.mem d hd, Set.mem_insert p B, hdp⟩, ?_, ?_⟩
  · have hcovers : Covers A l r.floor (join d p) p.1 :=
      h.lower.covers.narrow hlast (fun _ _ => le_rfl) hnarrow
    have hright := h.lower.concave.right
    have hmem := h.lower.mem
    have hconcave := h.lower.concave
    rw [hl] at hcovers hright hmem hconcave
    refine ⟨hconcave.sublist (List.sublist_append_right l₀ _),
      fun e he => hmem e (List.mem_append_right l₀ he),
      fun q hq => (h.lower.bound q hq).trans hlast,
      hcovers.drop habove (join_left hdp.ne) hdp fun q hq => ?_⟩
    have hqd := (List.pairwise_append.mp hright).2.2 q hq d (by simp)
    exact ⟨hmem q (List.mem_append_left _ hq), hqd.le⟩
  · have hmem := h.upper.mem
    rw [mirror_insert]
    refine ⟨hu, ?_, ?_, ?_⟩
    · intro e he
      obtain ⟨e, he', rfl⟩ := List.mem_map.mp he
      rcases hsub e he' with rfl | heu
      · exact Set.mem_insert _ _
      · exact Set.mem_insert_of_mem _ (hmem _ (List.mem_map_of_mem heu))
    · intro q hq
      rcases Set.mem_insert_iff.mp hq with rfl | hq
      · exact le_rfl
      · exact (h.upper.bound q hq).trans hlast
    · refine Covers.push (h.upper.covers.narrow hlast ?_ ?_) hdom (List.mem_map_of_mem hpu)
      · intro x hx
        simpa [Rect.ceil] using hnarrow x hx
      · intro x _
        simp [Rect.floor]

/-- A new point to be below, which is above the steepest line. -/
theorem skipUpper (h : Tunnel A B l u r last) (hlast : last ≤ p.1) (hceil : r.ceil p.1 ≤ p.2) :
    Tunnel A (insert p B) l u r p.1 := by
  have hfloor : r.floor p.1 ≤ p.2 := (h.floor_le h.ceil.1 h.ceil.2 hlast).trans hceil
  have hr3 : r.r3.1 ≤ p.1 := (h.upper.bound (turn r.r3) (by simpa using h.ceilTouch.2.1)).trans hlast
  refine ⟨⟨h.floor.1, below_insert h.floor.2 hfloor⟩, ⟨h.ceil.1, below_insert h.ceil.2 hceil⟩,
    ⟨Set.mem_insert_of_mem p h.floorTouch.1, h.floorTouch.2⟩,
    ⟨h.ceilTouch.1, Set.mem_insert_of_mem p h.ceilTouch.2.1, h.ceilTouch.2.2⟩,
    ⟨h.lower.concave, h.lower.mem, fun q hq => (h.lower.bound q hq).trans hlast, ?_⟩, ?_⟩
  · exact h.lower.covers.narrow hlast (fun _ _ => le_rfl) fun _ _ => le_rfl
  · rw [mirror_insert]
    refine ⟨h.upper.concave, fun e he => Set.mem_insert_of_mem _ (h.upper.mem e he), ?_, ?_⟩
    · intro q hq
      rcases Set.mem_insert_iff.mp hq with rfl | hq
      · exact le_rfl
      · exact (h.upper.bound q hq).trans hlast
    · refine h.upper.covers.skip (p := turn p) (q := turn r.r3) ?_ ?_ hr3 hlast ?_
      · simpa using h.ceilTouch.2.1
      · simpa using h.ceil_r3
      · simpa using hceil

end Tunnel

end Lines
