import Mathlib.Order.Lattice
import Mathlib.Data.List.Nodup

/-!
# Routing by lower bounds

Cells with lower bounds `lo`: a key belongs to the cell with the greatest lower bound that
is at most the key, and to the first cell when the key is below all of them (`Routes`).
A sorted list of cells may be cut into blocks; a search that picks a block first and then
a cell in it routes as a search of the whole list does (`Routes.of_block`).

`UpperBound` says that an index is where an upper bound search stops: what is before is at
most the key, what is after is above it.
-/

namespace Routing

variable {α κ : Type*} [LinearOrder κ] {lo : α → κ} {l : List α} {k : κ} {c d : α}

/-- The cell a key belongs to: the greatest lower bound at most the key, or the first cell
when there is none. -/
def Routes (lo : α → κ) (l : List α) (k : κ) (c : α) : Prop :=
  c ∈ l ∧ ((lo c ≤ k ∧ ∀ d ∈ l, lo d ≤ k → lo d ≤ lo c) ∨ ∀ d ∈ l, k < lo d ∧ lo c ≤ lo d)

theorem Routes.mem (h : Routes lo l k c) : c ∈ l := h.1

/-- What is above the cell of a key is above the key. -/
theorem Routes.lt_of_lt (h : Routes lo l k c) (hd : d ∈ l) (hlt : lo c < lo d) : k < lo d := by
  rcases h.2 with ⟨-, hmax⟩ | hall
  · by_contra hle
    exact absurd hlt (not_lt_of_ge (hmax d hd (le_of_not_gt hle)))
  · exact (hall d hd).1

/-- A key is above the lower bound of its cell, unless the cell is the first. -/
theorem Routes.le_or_first (h : Routes lo l k c) : lo c ≤ k ∨ ∀ d ∈ l, lo c ≤ lo d := by
  rcases h.2 with ⟨hle, -⟩ | hall
  · exact .inl hle
  · exact .inr fun d hd => (hall d hd).2

/-- **A key that is in the range of a cell belongs to it.** -/
theorem Routes.eq_of_range (h : Routes lo l k c) (hd : d ∈ l) (hinj : lo c = lo d → c = d)
    (hle : lo d ≤ k) (hrange : ∀ e ∈ l, lo d < lo e → k < lo e) : c = d := by
  rcases h.2 with ⟨hck, hmax⟩ | hall
  · refine hinj (le_antisymm ?_ (hmax d hd hle))
    exact le_of_not_gt fun hlt => absurd hck (not_le_of_gt (hrange c h.1 hlt))
  · exact absurd hle (not_le_of_gt (hall d hd).1)

/-- In a sorted list a lower bound names one cell. -/
theorem eq_of_lo_eq (hsorted : l.Pairwise fun a b => lo a < lo b) (hc : c ∈ l) (hd : d ∈ l)
    (heq : lo c = lo d) : c = d := by
  have hnodup : (l.map lo).Nodup := List.pairwise_map.mpr (hsorted.imp fun h => h.ne)
  exact List.inj_on_of_nodup_map hnodup hc hd heq

/-- **Routing by blocks.** The cells after the block are above the key; the block is the
first or has a cell with a lower bound at most the key. -/
theorem Routes.of_block {pre blk post : List α} (h : Routes lo blk k c)
    (hsorted : (pre ++ (blk ++ post)).Pairwise fun a b => lo a < lo b)
    (hpost : ∀ d ∈ post, k < lo d) (hpre : pre = [] ∨ ∃ d ∈ blk, lo d ≤ k) :
    Routes lo (pre ++ (blk ++ post)) k c := by
  rw [List.pairwise_append] at hsorted
  obtain ⟨-, hblk, hcross⟩ := hsorted
  refine ⟨List.mem_append_right _ (List.mem_append_left _ h.1), ?_⟩
  rcases h.2 with ⟨hle, hmax⟩ | hall
  · refine .inl ⟨hle, fun d hd hdk => ?_⟩
    rcases List.mem_append.mp hd with hd | hd
    · exact (hcross d hd c (List.mem_append_left _ h.1)).le
    · rcases List.mem_append.mp hd with hd | hd
      · exact hmax d hd hdk
      · exact absurd hdk (not_le_of_gt (hpost d hd))
  · -- the key is below the whole block, so nothing is before it
    have hnil : pre = [] := by
      rcases hpre with hnil | ⟨d, hd, hdk⟩
      · exact hnil
      · exact absurd hdk (not_le_of_gt (hall d hd).1)
    subst hnil
    refine .inr fun d hd => ?_
    rw [List.nil_append] at hd
    rcases List.mem_append.mp hd with hd | hd
    · exact hall d hd
    · exact ⟨hpost d hd, ((List.pairwise_append.mp hblk).2.2 c h.1 d hd).le⟩

/-- After its cell has been split a key belongs to one of the two parts. -/
theorem Routes.of_split {pre post : List α} {n c' : α} (h : Routes lo (pre ++ c :: post) k c)
    (hsorted : (pre ++ c :: post).Pairwise fun a b => lo a < lo b)
    (h' : Routes lo (pre ++ c :: n :: post) k c') : c' = c ∨ c' = n := by
  obtain ⟨-, hcons, hcross⟩ := List.pairwise_append.mp hsorted
  have hc : c ∈ pre ++ c :: n :: post := List.mem_append_right _ (List.mem_cons_self ..)
  rcases List.mem_append.mp h'.1 with hpre | hrest
  · -- not before the cell
    have hlt := hcross c' hpre c (List.mem_cons_self ..)
    have hck := h'.lt_of_lt hc hlt
    rcases h.le_or_first with hle | hfirst
    · exact absurd hck (not_lt_of_ge hle)
    · exact absurd hlt (not_lt_of_ge (hfirst c' (List.mem_append_left _ hpre)))
  · rcases List.mem_cons.mp hrest with rfl | hrest
    · exact .inl rfl
    · rcases List.mem_cons.mp hrest with rfl | hpost
      · exact .inr rfl
      · -- not after it
        have hlt := (List.pairwise_cons.mp hcons).1 c' hpost
        have hk := h.lt_of_lt (List.mem_append_right _ (List.mem_cons_of_mem _ hpost)) hlt
        rcases h'.le_or_first with hle | hfirst
        · exact absurd hk (not_lt_of_ge hle)
        · exact absurd hlt (not_lt_of_ge (hfirst c hc))

/-- A list around one of its places. -/
theorem exists_append_cons {i : ℕ} (h : l[i]? = some c) : ∃ pre post, l = pre ++ c :: post ∧
    pre.length = i ∧ ∀ d, l.set i d = pre ++ d :: post := by
  obtain ⟨hi, rfl⟩ := List.getElem?_eq_some_iff.mp h
  refine ⟨l.take i, l.drop (i + 1), ?_, List.length_take_of_le (Nat.le_of_lt hi), fun d => ?_⟩
  · rw [← List.drop_eq_getElem_cons hi, List.take_append_drop]
  · rw [List.set_eq_take_append_cons_drop, if_pos hi]

/-- The length of a list by the places it has. -/
theorem length_eq_of_isSome {n : ℕ} (h : ∀ i, l[i]?.isSome ↔ i < n) : l.length = n := by
  have hlt : ∀ i, i < l.length ↔ i < n := by
    intro i
    rw [← h i]
    simp
  apply Nat.le_antisymm
  · exact Nat.le_of_not_lt fun hgt => Nat.lt_irrefl n ((hlt n).mp hgt)
  · exact Nat.le_of_not_lt fun hgt => Nat.lt_irrefl _ ((hlt _).mpr hgt)

/-- Dealing out a list by places keeps a relation that holds from lower to higher places. -/
theorem pairwise_deal {r : α → α → Prop} {place : α → ℕ} (hl : l.Pairwise r)
    (hplace : ∀ a ∈ l, ∀ b ∈ l, place a < place b → r a b) (n : ℕ) :
    ((List.range n).flatMap fun i => l.filter fun a => place a = i).Pairwise r := by
  refine List.pairwise_flatMap.mpr ⟨fun i _ => hl.sublist List.filter_sublist, ?_⟩
  refine List.pairwise_lt_range.imp fun {i j} hij a ha b hb => ?_
  obtain ⟨ha, hai⟩ := List.mem_filter.mp ha
  obtain ⟨hb, hbj⟩ := List.mem_filter.mp hb
  refine hplace a ha b hb ?_
  rw [of_decide_eq_true hai, of_decide_eq_true hbj]
  exact hij

/-- What is dealt to the lowest place is a run at the front, when the places do not descend. -/
theorem eq_filter_append {place : α → ℕ} {i : ℕ} (hl : l.Pairwise fun a b => place a ≤ place b)
    (hge : ∀ a ∈ l, i ≤ place a) :
    l = l.filter (fun a => place a = i) ++ l.filter fun a => i < place a := by
  induction l with
  | nil => rfl
  | cons a l ih =>
    obtain ⟨ha, hl⟩ := List.pairwise_cons.mp hl
    have hl' := ih hl fun b hb => hge b (List.mem_cons_of_mem _ hb)
    rcases Nat.eq_or_lt_of_le (hge a (List.mem_cons_self ..)) with heq | hlt
    · simpa [← heq] using hl'
    · -- nothing is at the place any more
      have hnone : l.filter (fun b => place b = i) = [] := by
        rw [List.filter_eq_nil_iff]
        intro b hb
        have hab := ha b hb
        simp only [decide_eq_true_eq]
        omega
      rw [hnone, List.nil_append] at hl'
      have hne : place a ≠ i := Nat.ne_of_gt hlt
      simpa [hlt, hne, hnone] using hl'

theorem filter_lt_succ {place : α → ℕ} (hl : l.Pairwise fun a b => place a ≤ place b) (n : ℕ) :
    l.filter (fun a => place a < n + 1) =
      l.filter (fun a => place a < n) ++ l.filter fun a => place a = n := by
  induction l with
  | nil => rfl
  | cons a l ih =>
    obtain ⟨ha, hl⟩ := List.pairwise_cons.mp hl
    have ih := ih hl
    rcases Nat.lt_or_ge (place a) n with hlt | hge
    · have hne : place a ≠ n := Nat.ne_of_lt hlt
      have hsucc : place a < n + 1 := Nat.lt_succ_of_lt hlt
      simp only [List.filter_cons, hlt, hne, hsucc, decide_true, decide_false, if_true,
        Bool.false_eq_true, if_false, List.cons_append, ih]
    · -- there is nothing before the place any more
      have hnone : l.filter (fun b => place b < n) = [] := by
        rw [List.filter_eq_nil_iff]
        intro b hb
        have hab := ha b hb
        simp only [decide_eq_true_eq]
        omega
      have hnot : ¬ place a < n := Nat.not_lt_of_le hge
      have hiff : place a < n + 1 ↔ place a = n := by omega
      rw [hnone, List.nil_append] at ih
      simp only [List.filter_cons, hnot, hnone, ih, hiff, decide_false, Bool.false_eq_true, if_false,
        List.nil_append]

/-- **A list in the order of its places** stays as it is when it is dealt out by them. -/
theorem deal_eq {place : α → ℕ} {n : ℕ} (hl : l.Pairwise fun a b => place a ≤ place b)
    (hlt : ∀ a ∈ l, place a < n) :
    ((List.range n).flatMap fun i => l.filter fun a => place a = i) = l := by
  have hall : ∀ m, ((List.range m).flatMap fun i => l.filter fun a => place a = i) =
      l.filter fun a => place a < m := by
    intro m
    induction m with
    | zero => simp
    | succ m ih => rw [List.range_succ, List.flatMap_append, ih, filter_lt_succ hl,
        List.flatMap_singleton]
  rw [hall]
  exact List.filter_eq_self.mpr fun a ha => decide_eq_true (hlt a ha)

/-! ## Blocks -/

/-- The block of a key, between those before and after it: what is after it is above the key. -/
structure Around {β : Type*} (cells : β → List α) (lo : α → κ) (blocks : List β) (k : κ)
    (pre : List β) (b : β) (post : List β) : Prop where
  /-- where it is -/
  eq : blocks = pre ++ b :: post
  /-- what is after it is above the key -/
  above : ∀ d ∈ post.flatMap cells, k < lo d

namespace Around

variable {β : Type*} {cells : β → List α} {blocks pre post : List β} {b : β}
  (h : Around cells lo blocks k pre b post)

include h

theorem getElem?_length : blocks[pre.length]? = some b := by
  rw [h.eq, List.getElem?_append_right le_rfl, Nat.sub_self]
  rfl

theorem set_length (b' : β) : blocks.set pre.length b' = pre ++ b' :: post := by
  rw [h.eq, List.set_append_right _ _ le_rfl, Nat.sub_self]
  rfl

theorem mem : b ∈ blocks := by
  rw [h.eq]
  exact List.mem_append_right _ (List.mem_cons_self ..)

theorem lt_length : pre.length < blocks.length := by
  rw [h.eq, List.length_append, List.length_cons]
  exact Nat.lt_add_of_pos_right (Nat.zero_lt_succ _)

/-- The blocks after it. -/
theorem drop_eq : blocks.drop (pre.length + 1) = post := by
  rw [h.eq, List.drop_length_add_append]
  rfl

theorem flatMap_eq : blocks.flatMap cells =
    pre.flatMap cells ++ (cells b ++ post.flatMap cells) := by
  rw [h.eq, List.flatMap_append, List.flatMap_cons]

/-- A key is routed through its block, the first or one with a cell at most the key. -/
theorem routes (hsorted : (blocks.flatMap cells).Pairwise fun c d => lo c < lo d)
    (hbelow : pre.flatMap cells = [] ∨ ∃ d ∈ cells b, lo d ≤ k)
    (hroute : Routes lo (cells b) k c) : Routes lo (blocks.flatMap cells) k c := by
  rw [h.flatMap_eq] at hsorted ⊢
  exact hroute.of_block hsorted h.above hbelow

end Around

/-! ## Upper bounds -/

variable {key : ℕ → κ} {a b i : ℕ}

/-- In `[a, b)`, the keys before `i` are at most `k` and those from `i` on are above it. -/
structure UpperBound (key : ℕ → κ) (a b : ℕ) (k : κ) (i : ℕ) : Prop where
  /-- not before the range -/
  ge : a ≤ i
  /-- not after the range -/
  le : i ≤ b
  /-- what is before is at most the key -/
  below : ∀ j, a ≤ j → j < i → key j ≤ k
  /-- what is from there on is above the key -/
  above : ∀ j, i ≤ j → j < b → k < key j

/-- The upper bound of a part is that of the whole, when the part is where it can be. -/
theorem UpperBound.widen {a' b' : ℕ} (h : UpperBound key a b k i) (ha : a' ≤ a) (hb : b ≤ b')
    (hbelow : ∀ j, a' ≤ j → j < a → key j ≤ k) (habove : ∀ j, b ≤ j → j < b' → k < key j) :
    UpperBound key a' b' k i where
  ge := Nat.le_trans ha h.ge
  le := Nat.le_trans h.le hb
  below j hj hji := by
    rcases Nat.lt_or_ge j a with hlt | hge
    · exact hbelow j hj hlt
    · exact h.below j hge hji
  above j hj hjb := by
    rcases Nat.lt_or_ge j b with hlt | hge
    · exact h.above j hj hlt
    · exact habove j hge hjb

/-! ## Searches -/

/-- `while (l < r && key[l] <= k) l++`, with `r - l` rounds left. -/
def linearSearch (key : ℕ → κ) (k : κ) : ℕ → ℕ → ℕ
  | 0, l => l
  | n + 1, l => if key l ≤ k then linearSearch key k n (l + 1) else l

/-- `while (l < r)`: compare the middle and keep one half. A round leaves at most half of
the range, so `r - l` rounds are enough. -/
def binarySearch (key : ℕ → κ) (k : κ) : ℕ → ℕ → ℕ → ℕ
  | 0, l, _ => l
  | n + 1, l, r =>
    if l < r then
      let mid := l + (r - l) / 2
      if key mid ≤ k then binarySearch key k n (mid + 1) r else binarySearch key k n l mid
    else l

/-- `while (bound < size && more(bound)) bound *= 2`. -/
def gallop (more : ℕ → Bool) (size : ℕ) : ℕ → ℕ → ℕ
  | 0, bound => bound
  | n + 1, bound => if bound < size && more bound then gallop more size n (bound * 2) else bound

/-- The keys of the range ascend. -/
def Ascending (key : ℕ → κ) (n : ℕ) : Prop := ∀ i j, i < j → j < n → key i < key j

/-- The keys of the range do not descend. -/
def Rising (key : ℕ → κ) (n : ℕ) : Prop := ∀ i j, i ≤ j → j < n → key i ≤ key j

theorem Ascending.rising (h : Ascending key b) : Rising key b := by
  intro i j hij hj
  rcases Nat.lt_or_eq_of_le hij with hlt | rfl
  · exact (h i j hlt hj).le
  · exact le_rfl

theorem Ascending.le (h : Ascending key b) {i j : ℕ} (hij : i ≤ j) (hj : j < b) : key i ≤ key j :=
  h.rising i j hij hj

/-- The search stops at the first key above `k`, in whatever order the keys are. -/
theorem linearSearch_spec (key : ℕ → κ) (k : κ) (n : ℕ) : ∀ a,
    a ≤ linearSearch key k n a ∧ linearSearch key k n a ≤ a + n ∧
      (∀ j, a ≤ j → j < linearSearch key k n a → key j ≤ k) ∧
      (linearSearch key k n a < a + n → k < key (linearSearch key k n a)) := by
  induction n with
  | zero =>
    intro a
    exact ⟨Nat.le_refl _, Nat.le_refl _, fun j hj hj' => absurd hj' (Nat.not_lt_of_le hj),
      fun hlt => absurd hlt (Nat.lt_irrefl _)⟩
  | succ n ih =>
    intro a
    obtain ⟨hge, hle, hbelow, habove⟩ := ih (a + 1)
    rw [linearSearch]
    rcases le_or_gt (key a) k with hak | hak
    · rw [if_pos hak]
      refine ⟨by omega, by omega, fun j hj hj' => ?_, fun hlt => habove (by omega)⟩
      rcases Nat.eq_or_lt_of_le hj with rfl | hlt
      · exact hak
      · exact hbelow j hlt hj'
    · rw [if_neg (not_le_of_gt hak)]
      exact ⟨Nat.le_refl _, by omega, fun j hj hj' => absurd hj' (Nat.not_lt_of_le hj),
        fun _ => hak⟩

/-- The search stays in its range, in whatever order the keys are. -/
theorem binarySearch_le (key : ℕ → κ) (k : κ) (n : ℕ) : ∀ l r, l ≤ r →
    binarySearch key k n l r ≤ r := by
  induction n with
  | zero => exact fun l r hlr => hlr
  | succ n ih =>
    intro l r hlr
    rw [binarySearch]
    split
    · simp only
      split
      · exact ih _ r (by omega)
      · have hle := ih l (l + (r - l) / 2) (by omega)
        omega
    · exact hlr

theorem upperBound_linearSearch (h : Rising key b) {n a : ℕ} (hab : a + n = b) :
    UpperBound key a b k (linearSearch key k n a) := by
  obtain ⟨hge, hle, hbelow, habove⟩ := linearSearch_spec key k n a
  refine ⟨hge, by omega, hbelow, fun j hj hjb => ?_⟩
  exact (habove (by omega)).trans_le (h _ j hj hjb)

theorem upperBound_binarySearch (h : Rising key b) (n : ℕ) : ∀ l r, l ≤ r → r ≤ b → r - l ≤ n →
    UpperBound key l r k (binarySearch key k n l r) := by
  induction n with
  | zero =>
    intro l r hlr hrb hn
    obtain rfl : l = r := by omega
    exact ⟨Nat.le_refl _, Nat.le_refl _, fun j hj hj' => absurd hj' (Nat.not_lt_of_le hj),
      fun j hj hj' => absurd hj' (Nat.not_lt_of_le hj)⟩
  | succ n ih =>
    intro l r hlr hrb hn
    rw [binarySearch]
    split
    · rename_i hlt
      simp only
      split
      · rename_i hle
        refine (ih _ r (by omega) hrb (by omega)).widen (by omega) (Nat.le_refl _)
          (fun j hj hj' => ?_) fun j hj hj' => absurd hj' (Nat.not_lt_of_le hj)
        exact (h j _ (by omega) (by omega)).trans hle
      · rename_i hgt
        refine (ih l _ (by omega) (by omega) (by omega)).widen (Nat.le_refl _) (by omega)
          (fun j hj hj' => absurd hj' (Nat.not_lt_of_le hj)) fun j hj hj' => ?_
        exact (lt_of_not_ge hgt).trans_le (h _ j hj (by omega))
    · obtain rfl : l = r := by omega
      exact ⟨Nat.le_refl _, Nat.le_refl _, fun j hj hj' => absurd hj' (Nat.not_lt_of_le hj),
        fun j hj hj' => absurd hj' (Nat.not_lt_of_le hj)⟩

/-- The bound a gallop ends with: it goes no further, and it went on at half of it. -/
theorem gallop_spec (more : ℕ → Bool) (size n : ℕ) : ∀ bound, 0 < bound → size ≤ bound + n →
    (bound = 1 ∨ bound % 2 = 0 ∧ bound / 2 < size ∧ more (bound / 2)) →
    let r := gallop more size n bound
    0 < r ∧ (r < size → ¬ more r) ∧ (r = 1 ∨ r % 2 = 0 ∧ r / 2 < size ∧ more (r / 2)) := by
  induction n with
  | zero =>
    intro bound hpos hn hhalf
    exact ⟨hpos, fun hlt => absurd hlt (by simp only [gallop]; omega), hhalf⟩
  | succ n ih =>
    intro bound hpos hn hhalf
    rw [gallop]
    split
    · rename_i hgo
      rw [Bool.and_eq_true, decide_eq_true_eq] at hgo
      refine ih (bound * 2) (by omega) (by omega) (.inr ⟨by omega, ?_⟩)
      rw [Nat.mul_div_cancel bound (by omega)]
      exact hgo
    · rename_i hstop
      rw [Bool.and_eq_true, decide_eq_true_eq] at hstop
      exact ⟨hpos, fun hlt hmore => hstop ⟨hlt, hmore⟩, hhalf⟩

/-- The range an exponential search from `m` ends with. -/
def exponentialRange (key : ℕ → κ) (k : κ) (n m : ℕ) : ℕ × ℕ :=
  if key m > k then
    let bound := gallop (fun d => key (m - d) > k) m m 1
    (m - min bound m, m - bound / 2)
  else
    let bound := gallop (fun d => key (m + d) ≤ k) (n - m) (n - m) 1
    (m + bound / 2, m + min bound (n - m))

/-- The range is one of the array, in whatever order the keys are. -/
theorem exponentialRange_le (key : ℕ → κ) (k : κ) {n m : ℕ} (hm : m < n) :
    (exponentialRange key k n m).1 ≤ (exponentialRange key k n m).2 ∧
      (exponentialRange key k n m).2 ≤ n := by
  rw [exponentialRange]
  split
  · obtain ⟨hpos, -, hhalf⟩ := gallop_spec (fun d => key (m - d) > k) m m 1 Nat.one_pos
      (by omega) (.inl rfl)
    generalize gallop (fun d => key (m - d) > k) m m 1 = bound at hpos hhalf
    simp only
    omega
  · obtain ⟨hpos, -, hhalf⟩ := gallop_spec (fun d => key (m + d) ≤ k) (n - m) (n - m) 1
      Nat.one_pos (by omega) (.inl rfl)
    generalize gallop (fun d => key (m + d) ≤ k) (n - m) (n - m) 1 = bound at hpos hhalf
    simp only
    omega

/-- **Wherever an exponential search starts, its range has the upper bound.** -/
theorem exponentialRange_spec {n m : ℕ} (h : Rising key n) (hm : m < n) (k : κ) :
    let range := exponentialRange key k n m
    range.1 ≤ range.2 ∧ range.2 ≤ n ∧
      ∀ i, UpperBound key range.1 range.2 k i → UpperBound key 0 n k i := by
  rw [exponentialRange]
  split
  · rename_i hgt
    obtain ⟨hpos, hstop, hhalf⟩ := gallop_spec (fun d => key (m - d) > k) m m 1 Nat.one_pos
      (by omega) (.inl rfl)
    generalize gallop (fun d => key (m - d) > k) m m 1 = bound at hpos hstop hhalf
    simp only [decide_eq_true_eq] at hstop hhalf ⊢
    have hhalf' : bound / 2 ≤ m := by omega
    refine ⟨by omega, by omega, fun i hi => hi.widen (Nat.zero_le _) (by omega)
      (fun j _ hj => ?_) fun j hj hjn => ?_⟩
    · -- the search stopped where the key is not above `k`
      have hlt : bound < m := by omega
      exact (h _ _ (by omega) (by omega)).trans (le_of_not_gt (hstop hlt))
    · refine lt_of_lt_of_le ?_ (h _ _ hj hjn)
      rcases hhalf with rfl | ⟨-, -, hmore⟩
      · exact hgt
      · exact hmore
  · rename_i hle
    obtain ⟨hpos, hstop, hhalf⟩ := gallop_spec (fun d => key (m + d) ≤ k) (n - m) (n - m) 1
      Nat.one_pos (by omega) (.inl rfl)
    generalize gallop (fun d => key (m + d) ≤ k) (n - m) (n - m) 1 = bound at hpos hstop hhalf
    simp only [decide_eq_true_eq] at hstop hhalf ⊢
    have hhalf' : bound / 2 < n - m := by omega
    refine ⟨by omega, by omega, fun i hi => hi.widen (Nat.zero_le _) (by omega)
      (fun j _ hj => ?_) fun j hj hjn => ?_⟩
    · have hj' : key j ≤ key (m + bound / 2) := h _ _ (Nat.le_of_lt hj) (by omega)
      refine hj'.trans ?_
      rcases hhalf with rfl | ⟨-, -, hmore⟩
      · exact le_of_not_gt hle
      · exact hmore
    · have hlt : bound < n - m := by omega
      exact (lt_of_not_ge (hstop hlt)).trans_le (h _ _ (by omega) hjn)

end Routing
