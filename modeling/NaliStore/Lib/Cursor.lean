import Mathlib.Data.Nat.Notation
import Mathlib.Logic.Function.Basic

/-!
# Cursors

A cursor stands at an item. `next` goes on to another one and says whether there is one; after
it has said no, the cursor need not stand at an item any more. `Shows c Q s l` says what a
cursor shows from the state `s` on: the items `l`, one after the other, and it is then left in
a state that satisfies `Q`.

Cursors are nested: an outer cursor stands where an inner one stands, goes on with it as long
as it can, and then goes on to the next inner one by itself. `Shows.lift` says what the outer
cursor shows: what the inner one shows, and then what it goes on to.
-/

universe u v

/-- A cursor with states in `σ` over items in `α`. -/
structure Cursor (ε : Type*) (σ α : Type u) where
  /-- the item it stands at -/
  cur : σ → Except ε α
  /-- go on, and say whether there is an item -/
  next : σ → Except ε (Bool × σ)

namespace Cursor

variable {ε : Type v} {σ τ α : Type u} (c : Cursor ε σ α) (Q : σ → Prop)

/-- From the state on the cursor shows the items, and it is then left where `Q` holds. -/
inductive Shows : σ → List α → Prop
  /-- the last item -/
  | last {s s' : σ} {a : α} : c.cur s = .ok a → c.next s = .ok (false, s') → Q s' → Shows s [a]
  /-- an item with others after it -/
  | more {s s' : σ} {a : α} {l : List α} :
      c.cur s = .ok a → c.next s = .ok (true, s') → Shows s' l → Shows s (a :: l)

/-- What the cursor shows after the item it stands at, which may be nothing. -/
def After (s : σ) (l : List α) : Prop :=
  l = [] ∧ (∃ s', c.next s = .ok (false, s') ∧ Q s') ∨
    ∃ s', c.next s = .ok (true, s') ∧ c.Shows Q s' l

variable {c Q} {s : σ} {a : α} {l m : List α}

theorem After.shows (h : c.After Q s l) (hcur : c.cur s = .ok a) : c.Shows Q s (a :: l) := by
  rcases h with ⟨rfl, s', hnext, hs'⟩ | ⟨s', hnext, hs'⟩
  · exact .last hcur hnext hs'
  · exact .more hcur hnext hs'

/-- A cursor stands at an item. -/
theorem Shows.ne_nil (h : c.Shows Q s l) : l ≠ [] := by
  cases h with
  | last => exact List.cons_ne_nil _ _
  | more => exact List.cons_ne_nil _ _

/-- **Nested cursors.** While the inner cursor goes on the outer one goes on with it; after the
last item of the inner one the outer one shows `m`. -/
theorem Shows.lift {d : Cursor ε τ α} {P : τ → Prop} (h : c.Shows Q s l) (place : σ → τ)
    (hcur : ∀ s a, c.cur s = .ok a → d.cur (place s) = .ok a)
    (hmore : ∀ s s', c.next s = .ok (true, s') → d.next (place s) = .ok (true, place s'))
    (hlast : ∀ s s', c.next s = .ok (false, s') → Q s' → d.After P (place s) m) :
    d.Shows P (place s) (l ++ m) := by
  induction h with
  | last ha hnext hs' => exact (hlast _ _ hnext hs').shows (hcur _ _ ha)
  | more ha hnext _ ih => exact .more (hcur _ _ ha) (hmore _ _ hnext) ih

/-! ## Collecting what is shown -/

/-- Collect the items until the cursor is done, in a bounded number of rounds. -/
def collect (c : Cursor ε σ α) (done : σ → Bool) (diverges : ε) : ℕ → σ → Except ε (List α)
  | 0, _ => .error diverges
  | fuel + 1, s =>
    if done s then .ok []
    else do
      let a ← c.cur s
      let (_, s) ← c.next s
      let l ← collect c done diverges fuel s
      .ok (a :: l)

variable {done : σ → Bool} {diverges : ε}

/-- The items are collected, in as many rounds as there are items and one more. -/
def Collects (c : Cursor ε σ α) (done : σ → Bool) (diverges : ε) (s : σ) (l : List α) : Prop :=
  ∀ fuel, c.collect done diverges fuel s = if l.length < fuel then .ok l else .error diverges

theorem collects_nil (hs : done s = true) : c.Collects done diverges s [] := by
  intro fuel
  cases fuel with
  | zero => rfl
  | succ fuel => rw [collect, if_pos hs, List.length_nil, if_pos (Nat.zero_lt_succ fuel)]

theorem Collects.cons {s' : σ} {r : Bool} (h : c.Collects done diverges s' l)
    (hs : done s = false) (ha : c.cur s = .ok a) (hnext : c.next s = .ok (r, s')) :
    c.Collects done diverges s (a :: l) := by
  intro fuel
  cases fuel with
  | zero => rfl
  | succ fuel =>
    rw [collect, hs, if_neg Bool.false_ne_true, ha, List.length_cons]
    simp only [bind, Except.bind, hnext, h fuel, Nat.add_lt_add_iff_right]
    by_cases hlt : l.length < fuel
    · rw [if_pos hlt, if_pos hlt]
    · rw [if_neg hlt, if_neg hlt]

/-- **What is shown is collected**, when `next` says whether the cursor is done. -/
theorem Shows.collects (h : c.Shows Q s l)
    (hnext : ∀ s r s', c.next s = .ok (r, s') → done s' = !r) (hs : done s = false) :
    c.Collects done diverges s l := by
  induction h with
  | last ha hgo _ => exact (collects_nil (hnext _ _ _ hgo)).cons hs ha hgo
  | more ha hgo _ ih => exact (ih (hnext _ _ _ hgo)).cons hs ha hgo

/-! ## Places in a list -/

/-- A list that goes on from a place on. -/
theorem getElem?_of_drop_eq_cons {i : ℕ} {rest : List α} (hl : l.drop i = a :: rest) :
    l[i]? = some a ∧ l.drop (i + 1) = rest := by
  refine ⟨?_, ?_⟩
  · rw [← Nat.add_zero i, ← List.getElem?_drop, hl]
    rfl
  · rw [← List.drop_drop, hl]
    rfl

/-- In a list in which the predicate stays true, what satisfies it begins where it is first
true. -/
theorem filter_eq_drop_findIdx {p : α → Bool}
    (hl : l.Pairwise fun a b => p a = true → p b = true) : l.filter p = l.drop (l.findIdx p) := by
  induction l with
  | nil => rfl
  | cons a l ih =>
    obtain ⟨ha, hl⟩ := List.pairwise_cons.mp hl
    rw [List.findIdx_cons]
    cases hpa : p a with
    | true =>
      rw [List.filter_cons_of_pos hpa, List.filter_eq_self.mpr fun b hb => ha b hb hpa]
      rfl
    | false =>
      rw [List.filter_cons_of_neg (by rw [hpa]; exact Bool.false_ne_true), ih hl]
      rfl

end Cursor
