import NaliStore.PiecewiseLinear

/-!
# The two loops of `add_point`

A hull from its start on is a chain of points (`chain`). The search walks down the chain, so it ends
at the point of the least slope (`extremeFrom_split`), and the update leaves a chain that bends
downwards with the new point at its end (`popEnd_chain`).

The hull of the upper points is searched and updated in the same way upside down. The arithmetic is
without bounds here.
-/

namespace NaliStore

open Lines

namespace Point

/-- The point in the plane. -/
def pt (p : Point) : ℚ × ℚ := (p.x, p.y)

/-- The point upside down. -/
def down (p : Point) : Point := ⟨p.x, -p.y⟩

@[simp] theorem pt_fst (p : Point) : p.pt.1 = p.x := rfl

@[simp] theorem pt_snd (p : Point) : p.pt.2 = p.y := rfl

@[simp] theorem down_x (p : Point) : p.down.x = p.x := rfl

@[simp] theorem down_y (p : Point) : p.down.y = -p.y := rfl

@[simp] theorem pt_down (p : Point) : p.down.pt = turn p.pt := by
  simp [pt, down, turn]

@[simp] theorem down_down (p : Point) : p.down.down = p := by
  simp [down]

@[simp] theorem map_down_down (hull : List Point) : (hull.map down).map down = hull := by
  simp [Function.comp_def]

@[simp] theorem down_default : (default : Point).down = default := rfl

theorem cross_pt (o a b : Point) : ((o.cross id a b : ℤ) : ℚ) = Lines.cross o.pt a.pt b.pt := by
  simp [cross, sub, Lines.cross]

theorem cross_down (o a b : Point) : o.down.cross id a.down b.down = -o.cross id a b := by
  simp only [cross, sub, down, id_eq]
  ring

theorem gt_sub_iff {p d e : Point} (hd : d.x < p.x) (he : e.x < p.x) :
    (e.sub p).gt id (d.sub p) ↔ slopeTo p.pt d.pt < slopeTo p.pt e.pt := by
  have hd' : d.pt.1 < p.pt.1 := by simpa using hd
  have he' : e.pt.1 < p.pt.1 := by simpa using he
  rw [← not_le, slopeTo_le_iff he' hd', not_le]
  simp only [Slope.gt_iff, sub, pt]
  rw [← Int.cast_lt (R := ℚ)]
  push_cast
  constructor <;> intro h <;> linarith

end Point

open Point Oplm

/-- The points of a hull from its start on. -/
def chain (hull : List Point) (start : ℕ) : List (ℚ × ℚ) := (hull.drop start).map pt

theorem chain_down (hull : List Point) (start : ℕ) :
    chain (hull.map down) start = (chain hull start).map turn := by
  simp [chain, ← List.map_drop, Function.comp_def]

theorem getD_map_down (hull : List Point) (i : ℕ) :
    (hull.map down).getD i default = (hull.getD i default).down := by
  rcases Nat.lt_or_ge i hull.length with hi | hi
  · simp [List.getD_eq_getElem?_getD, hi]
  · simp [List.getD_eq_getElem?_getD, hi]

/-! ## The search -/

theorem findExtreme_down (p : Point) (hull : List Point) (m : Slope) (mi : ℕ) :
    findExtreme (Slope.lt id) p m mi hull =
      findExtreme (Slope.gt id) p.down ⟨m.dx, -m.dy⟩ mi (hull.map down) := by
  induction hull generalizing m mi with
  | nil => rfl
  | cons q qs ih =>
    have hsub : q.down.sub p.down = ⟨(q.sub p).dx, -(q.sub p).dy⟩ := by
      simp only [sub, down, Slope.mk.injEq, true_and]
      ring
    have hbreak : (q.sub p).lt id m = (q.down.sub p.down).gt id ⟨m.dx, -m.dy⟩ := by
      rw [hsub]
      simp only [Slope.lt, Slope.gt, neg_mul, mul_neg, gt_iff_lt, id_eq, neg_lt_neg_iff]
    simp only [findExtreme, List.map_cons, hbreak]
    split
    · rfl
    · rw [ih, hsub]

theorem extremeFrom_down (p : Point) (hull : List Point) (start : ℕ) :
    extremeFrom (Slope.lt id) p hull start = extremeFrom (Slope.gt id) p.down (hull.map down) start := by
  simp only [extremeFrom, findExtreme_down, getD_map_down, List.map_drop]
  congr 2
  simp only [sub, down_y]
  ring

/-- The loop is the walk down the chain. -/
theorem findExtreme_descent {p d : Point} {qs hull : List Point} {mi : ℕ}
    (hdrop : hull.drop mi = d :: qs) (hlt : ∀ q ∈ d :: qs, q.x < p.x) :
    mi ≤ findExtreme (Slope.gt id) p (d.sub p) mi qs ∧
      findExtreme (Slope.gt id) p (d.sub p) mi qs < hull.length ∧
      chain hull (findExtreme (Slope.gt id) p (d.sub p) mi qs) = descent p.pt ((d :: qs).map pt) := by
  have hmi : mi < hull.length := by
    by_contra hge
    rw [List.drop_eq_nil_of_le (not_lt.mp hge)] at hdrop
    cases hdrop
  induction qs generalizing d mi with
  | nil => simp [findExtreme, descent, chain, hdrop, hmi]
  | cons q qs ih =>
    have hd := hlt d (by simp)
    have hq := hlt q (by simp)
    simp only [findExtreme, List.map_cons, descent, ← gt_sub_iff hd hq]
    split
    · simp [chain, hdrop, hmi]
    · have hnext : hull.drop (mi + 1) = q :: qs := by
        rw [← List.tail_drop, hdrop, List.tail_cons]
      have hlen : mi + 1 < hull.length := by
        by_contra hge
        rw [List.drop_eq_nil_of_le (not_lt.mp hge)] at hnext
        cases hnext
      obtain ⟨hle, hltn, heq⟩ := ih hnext (fun q' hq' => hlt q' (List.mem_cons_of_mem d hq')) hlen
      exact ⟨by omega, hltn, by simpa using heq⟩

/-- A point above the new one, at the same place, ends the search. -/
theorem findExtreme_snoc {p q : Point} {m : Slope} {qs : List Point} {mi : ℕ} (hqx : q.x = p.x)
    (hqy : q.y < p.y) (hm : m.dx < 0) (hlt : ∀ q ∈ qs, q.x < p.x) :
    findExtreme (Slope.gt id) p m mi (qs ++ [q]) = findExtreme (Slope.gt id) p m mi qs := by
  induction qs generalizing m mi with
  | nil =>
    have hbreak : (q.sub p).gt id m := by
      have hdy : q.y - p.y < 0 := by omega
      simp only [Slope.gt_iff, sub, hqx, sub_self, zero_mul]
      exact mul_pos_of_neg_of_neg hdy hm
    simp [findExtreme, hbreak]
  | cons q' qs ih =>
    have hdx : (q'.sub p).dx < 0 := by
      have := hlt q' (by simp)
      simp only [sub]
      omega
    simp only [List.cons_append, findExtreme]
    rw [ih hdx fun q'' hq'' => hlt q'' (List.mem_cons_of_mem q' hq'')]

/-- A hull whose points are to the left of a point, but for a last one that may be below it. -/
structure LeftOf (hull : List Point) (start : ℕ) (p : Point) (front : List Point) : Prop where
  /-- it starts in the part to the left -/
  start_lt : start < front.length
  /-- that part is to the left -/
  left : ∀ q ∈ front.drop start, q.x < p.x
  /-- and the rest is below -/
  rest : hull = front ∨ ∃ q, hull = front ++ [q] ∧ q.x = p.x ∧ q.y < p.y

theorem drop_eq_cons {α : Type*} {l : List α} {i : ℕ} (hi : i < l.length) (a : α) :
    l.drop i = l.getD i a :: l.drop (i + 1) := by
  rw [List.drop_eq_getElem_cons hi]
  simp [List.getD_eq_getElem?_getD, hi]

theorem extremeFrom_front {hull front : List Point} {start : ℕ} {p : Point}
    (h : LeftOf hull start p front) :
    extremeFrom (Slope.gt id) p hull start = extremeFrom (Slope.gt id) p front start := by
  rcases h.rest with rfl | ⟨q, rfl, hqx, hqy⟩
  · rfl
  · have hcons := drop_eq_cons h.start_lt default
    have hget : (front ++ [q]).getD start default = front.getD start default := by
      simp [List.getD_eq_getElem?_getD, List.getElem?_append_left h.start_lt]
    have hdrop : (front ++ [q]).drop (start + 1) = front.drop (start + 1) ++ [q] :=
      List.drop_append_of_le_length h.start_lt
    have hm : ((front.getD start default).sub p).dx < 0 := by
      have := h.left (front.getD start default) (by simp [hcons])
      simp only [sub]
      omega
    rw [extremeFrom, extremeFrom, hget, hdrop, findExtreme_snoc hqx hqy hm]
    intro q' hq'
    exact h.left q' (by rw [hcons]; exact List.mem_cons_of_mem _ hq')

/-- The search ends at the point of the least slope. -/
theorem extremeFrom_split {hull front : List Point} {start : ℕ} {p : Point}
    (h : LeftOf hull start p front) (hconcave : Concave (chain hull start)) :
    ∃ l₀ l₁, let i := extremeFrom (Slope.gt id) p hull start
      let d := hull.getD i default
      i < front.length ∧ start ≤ i ∧ d.x < p.x ∧ chain hull start = l₀ ++ d.pt :: l₁ ∧
        chain hull i = d.pt :: l₁ ∧
        ∀ e ∈ chain hull start, e.1 < p.x → slopeTo p.pt d.pt ≤ slopeTo p.pt e := by
  have hprefix : front <+: hull := by
    rcases h.rest with rfl | ⟨q, rfl, -, -⟩
    · exact List.prefix_refl _
    · exact List.prefix_append _ _
  have hcons := drop_eq_cons h.start_lt default
  obtain ⟨hle, hlt, hdesc⟩ := findExtreme_descent hcons (by rw [← hcons]; exact h.left)
  rw [← hcons] at hdesc
  rw [← extremeFrom, ← extremeFrom_front h] at hle hlt hdesc
  generalize extremeFrom (Slope.gt id) p hull start = i at hle hlt hdesc ⊢
  have hget : hull.getD i default = front.getD i default := by
    obtain ⟨t, rfl⟩ := hprefix
    simp [List.getD_eq_getElem?_getD, List.getElem?_append_left hlt]
  have hcons_i : chain hull i = (hull.getD i default).pt :: chain hull (i + 1) := by
    simp only [chain, drop_eq_cons (hlt.trans_le hprefix.length_le) default, List.map_cons]
  have hsub : (chain front start).Sublist (chain hull start) := by
    obtain ⟨t, rfl⟩ := hprefix
    rw [chain, chain, List.drop_append_of_le_length h.start_lt.le, List.map_append]
    exact List.sublist_append_left _ _
  have hmem : front.getD i default ∈ front.drop start := by
    have hdrop : front.drop i <:+ front.drop start := List.drop_suffix_drop_left front hle
    exact hdrop.subset (by simp [drop_eq_cons hlt default])
  refine ⟨((hull.drop start).take (i - start)).map pt, chain hull (i + 1), hlt, hle, ?_, ?_, hcons_i, ?_⟩
  · rw [hget]
    exact h.left _ hmem
  · have hsplit : hull.drop i = (hull.drop start).drop (i - start) := by
      rw [List.drop_drop]
      congr 1
      omega
    rw [← hcons_i, chain, chain, hsplit, ← List.map_append, List.take_append_drop]
  · intro e he hep
    have hfront : e ∈ chain front start := by
      rcases h.rest with rfl | ⟨q, rfl, hqx, -⟩
      · exact he
      · rw [chain, List.drop_append_of_le_length h.start_lt.le, List.map_append] at he
        rcases List.mem_append.mp he with he | he
        · exact he
        · obtain rfl : e = q.pt := by simpa using he
          simp [hqx] at hep
    refine descent_le (hconcave.sublist hsub) ?_ ?_ e hfront
    · intro e' he'
      obtain ⟨q, hq, rfl⟩ := List.mem_map.mp he'
      simpa using h.left q hq
    · have hhead : chain front i = (front.getD i default).pt :: chain front (i + 1) := by
        simp only [chain, drop_eq_cons hlt default, List.map_cons]
      rw [chain, ← hdesc, hhead, hget]
      rfl

/-! ## The update -/

theorem popEnd_down (hull : List Point) (start : ℕ) (p : Point) (e : ℕ) :
    popEnd id (· ≤ 0) hull start p e = popEnd id (0 ≤ ·) (hull.map down) start p.down e := by
  induction e with
  | zero => rfl
  | succ e ih =>
    simp only [popEnd, getD_map_down, cross_down, ih, Left.nonneg_neg_iff]

/-- What holds before the loop and is kept by each of its steps holds behind it. -/
theorem popEnd_induct (large : ℤ → ℤ) (pops : ℤ → Bool) (hull : List Point) (start : ℕ) (p : Point) {Q : ℕ → Prop}
    {n e : ℕ} (hstart : start + 1 ≤ e) (hn : e ≤ n) (h : Q e)
    (hstep : ∀ e, start + 1 ≤ e → e < n →
      pops ((hull.getD (e - 1) default).cross large (hull.getD e default) p) → Q (e + 1) → Q e) :
    Q (popEnd large pops hull start p e) ∧ start + 1 ≤ popEnd large pops hull start p e ∧
      popEnd large pops hull start p e ≤ n := by
  induction e with
  | zero => omega
  | succ e ih =>
    rw [popEnd]
    split
    · next hpop =>
      exact ih (by omega) (by omega) (hstep e (by omega) hn hpop.2 h)
    · exact ⟨h, hstart, hn⟩

/-- Where the loop stops the turn is one that does not pop. -/
theorem popEnd_stop (large : ℤ → ℤ) (pops : ℤ → Bool) (hull : List Point) (start : ℕ) (p : Point) (e : ℕ)
    (h : start + 2 ≤ popEnd large pops hull start p e) :
    pops ((hull.getD (popEnd large pops hull start p e - 2) default).cross large
      (hull.getD (popEnd large pops hull start p e - 1) default) p) = false := by
  induction e with
  | zero => simp [popEnd] at h
  | succ e ih =>
    rw [popEnd] at h ⊢
    split
    · next hpop =>
      rw [if_pos hpop] at h
      exact ih h
    · next hkeep =>
      rw [if_neg hkeep] at h
      have := not_and.mp hkeep h
      simpa using this

theorem chain_take_succ {hull : List Point} {start i : ℕ} (hs : start ≤ i) (hi : i < hull.length) :
    chain (hull.take (i + 1)) start = chain (hull.take i) start ++ [(hull.getD i default).pt] := by
  have htake : hull.take (i + 1) = hull.take i ++ [hull.getD i default] := by
    rw [List.take_succ_eq_append_getElem hi]
    simp [List.getD_eq_getElem?_getD, hi]
  have hlen : start ≤ (hull.take i).length := by
    rw [List.length_take]
    omega
  rw [htake, chain, List.drop_append_of_le_length hlen, List.map_append]
  rfl

theorem chain_take_sublist (hull : List Point) (start i : ℕ) :
    (chain (hull.take i) start).Sublist (chain hull start) :=
  ((List.take_sublist i hull).drop start).map pt

/-- The hull behind the update is a chain with the new point at its end, and stands for the points
that have gone. -/
theorem popEnd_chain {hull : List Point} {start : ℕ} {p : Point} (hstart : start < hull.length)
    (hleft : ∀ q ∈ hull.drop start, q.x < p.x) (hconcave : Concave (chain hull start)) :
    let hull' := hull.take (popEnd id (0 ≤ ·) hull start p hull.length) ++ [p]
    start < hull'.length ∧ Concave (chain hull' start) ∧
      Dominates (chain hull' start) (chain hull start) ∧ p.pt ∈ chain hull' start ∧
      ∀ e ∈ chain hull' start, e = p.pt ∨ e ∈ chain hull start := by
  have hleft' : ∀ e ∈ chain hull start, e.1 < p.pt.1 := by
    intro e he
    obtain ⟨q, hq, rfl⟩ := List.mem_map.mp he
    simpa using hleft q hq
  have hpair : ∀ i, start + 1 ≤ i → i < hull.length →
      chain (hull.take i) start =
        chain (hull.take (i - 1)) start ++ [(hull.getD (i - 1) default).pt] ∧
      (hull.getD (i - 1) default).pt.1 < (hull.getD i default).pt.1 ∧
      (hull.getD i default).pt.1 < p.pt.1 := by
    intro i hsi hi
    have hpred : i - 1 + 1 = i := by omega
    have hfirst : chain (hull.take (i - 1 + 1)) start = _ :=
      chain_take_succ (Nat.le_sub_one_of_lt hsi) (by omega)
    have hsub := chain_take_sublist hull start (i + 1)
    rw [hpred] at hfirst
    rw [chain_take_succ (Nat.le_of_succ_le hsi) hi, hfirst] at hsub
    have hright := hconcave.right.sublist hsub
    refine ⟨hfirst, ?_, hleft' _ (hsub.subset (by simp))⟩
    exact (List.pairwise_append.mp hright).2.2 _ (by simp) _ (by simp)
  obtain ⟨hdom, hlow, hhigh⟩ := popEnd_induct id (0 ≤ ·) hull start p (n := hull.length)
    (Q := fun e => Dominates (chain (hull.take e) start ++ [p.pt]) (chain hull start)) hstart le_rfl
    (by
      rw [List.take_length]
      exact fun ℓ hℓ q hq => hℓ q (List.mem_append_left _ hq))
    (by
      intro e hse he hpop hQ
      obtain ⟨htake, hod, hdp⟩ := hpair e hse he
      have hcross : 0 ≤ cross (hull.getD (e - 1) default).pt (hull.getD e default).pt p.pt := by
        rw [← cross_pt]
        exact_mod_cast of_decide_eq_true hpop
      rw [chain_take_succ (Nat.le_of_succ_le hse) he, htake] at hQ
      rw [htake]
      refine Dominates.trans ?_ hQ
      simpa using Dominates.pop hod hdp hcross)
  have hstop := popEnd_stop id (0 ≤ ·) hull start p hull.length
  generalize popEnd id (0 ≤ ·) hull start p hull.length = e at hdom hlow hhigh hstop ⊢
  have hchain : chain (hull.take e ++ [p]) start = chain (hull.take e) start ++ [p.pt] := by
    have hlen : start ≤ (hull.take e).length := by
      rw [List.length_take]
      omega
    rw [chain, List.drop_append_of_le_length hlen, List.map_append]
    rfl
  have hsub := chain_take_sublist hull start e
  simp only [hchain]
  refine ⟨?_, ?_, hdom, by simp, ?_⟩
  · simp only [List.length_append, List.length_take, List.length_cons, List.length_nil]
    omega
  · have hconcave' := hconcave.sublist hsub
    obtain ⟨e, rfl⟩ : ∃ i, e = i + 1 := ⟨e - 1, by omega⟩
    have he : e < hull.length := hhigh
    have hd := chain_take_succ (Nat.le_of_succ_le_succ hlow) he
    have hdp : (hull.getD e default).pt.1 < p.pt.1 :=
      hleft' _ (hsub.subset (by simp [hd]))
    rw [hd] at hconcave' ⊢
    rcases Nat.eq_or_lt_of_le hlow with heq | hlt
    · -- only the start is left
      have hnil : chain (hull.take e) start = [] := by
        simp [chain, Nat.le_of_succ_le_succ heq.ge]
      rw [hnil] at hconcave' ⊢
      exact hconcave'.push hdp (by simp)
    · obtain ⟨htake, -, -⟩ := hpair e (by omega) he
      have hcross : cross (hull.getD (e - 1) default).pt (hull.getD e default).pt p.pt < 0 := by
        have := hstop hlt
        rw [← cross_pt]
        simpa using this
      rw [htake] at hconcave' ⊢
      have := Concave.push_of_last (by simpa using hconcave') hdp hcross
      simpa using this
  · intro q hq
    rcases List.mem_append.mp hq with hq | hq
    · exact .inr (hsub.subset hq)
    · exact .inl (List.mem_singleton.mp hq)

end NaliStore
