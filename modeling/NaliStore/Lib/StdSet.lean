import Mathlib.Order.Lattice
import Mathlib.Data.List.Pairwise

/-!
# `std::set` with a comparator

A set is the list of its elements in ascending order of the comparator `lt`. Elements that
the comparator does not tell apart are the same for the set: the second one is not inserted,
and `erase` of one erases the other. The laws are for comparators that compare a key `f` in
a linear order.
-/

namespace StdSet

variable {α κ : Type*} (lt : α → α → Prop) [DecidableRel lt]

/-- `s.insert(a)` -/
def insert (a : α) : List α → List α
  | [] => [a]
  | b :: l => if lt a b then a :: b :: l else if lt b a then b :: insert a l else b :: l

/-- `s.erase(a)` -/
def erase (a : α) (l : List α) : List α := l.filter fun b => lt b a ∨ lt a b

variable {lt} [LinearOrder κ] {f : α → κ} {a c : α} {l : List α}

/-- What is in the set after `insert` of a new element. -/
theorem mem_insert (hlt : ∀ a b, lt a b ↔ f a < f b) (hnew : ∀ b ∈ l, f b ≠ f a) :
    c ∈ insert lt a l ↔ c = a ∨ c ∈ l := by
  induction l with
  | nil => simp only [insert, List.mem_cons]
  | cons b l ih =>
    rw [insert]
    split
    · exact List.mem_cons
    · rename_i hnot
      have hba : lt b a := by
        rw [hlt] at hnot ⊢
        exact lt_of_le_of_ne (not_lt.mp hnot) (hnew b (List.mem_cons_self ..))
      rw [if_pos hba, List.mem_cons, ih fun b hb => hnew b (List.mem_cons_of_mem _ hb), List.mem_cons]
      exact or_left_comm

/-- `insert` keeps the order. -/
theorem pairwise_insert (hlt : ∀ a b, lt a b ↔ f a < f b) (hl : l.Pairwise lt) :
    (insert lt a l).Pairwise lt := by
  have htrans : ∀ {a b c}, lt a b → lt b c → lt a c := by
    intro a b c hab hbc
    rw [hlt] at hab hbc ⊢
    exact lt_trans hab hbc
  induction l with
  | nil => exact List.pairwise_singleton _ _
  | cons b l ih =>
    obtain ⟨hb, hl'⟩ := List.pairwise_cons.mp hl
    rw [insert]
    split
    · rename_i hab
      refine List.pairwise_cons.mpr ⟨fun c hc => ?_, hl⟩
      rcases List.mem_cons.mp hc with rfl | hc
      · exact hab
      · exact htrans hab (hb c hc)
    · split
      · rename_i hba
        refine List.pairwise_cons.mpr ⟨fun c hc => ?_, ih hl'⟩
        rcases mem_of_mem_insert hc with rfl | hc
        · exact hba
        · exact hb c hc
      · exact hl
where
  mem_of_mem_insert {a c : α} {l : List α} (hc : c ∈ insert lt a l) : c = a ∨ c ∈ l := by
    induction l with
    | nil => exact .inl (List.mem_singleton.mp hc)
    | cons b l ih =>
      rw [insert] at hc
      split at hc
      · exact List.mem_cons.mp hc
      · split at hc
        · rcases List.mem_cons.mp hc with rfl | hc
          · exact .inr (List.mem_cons_self ..)
          · exact (ih hc).imp_right (List.mem_cons_of_mem _)
        · exact .inr hc

omit [DecidableRel lt] in
/-- Elements of a set have different keys. -/
theorem eq_of_key_eq (hlt : ∀ a b, lt a b ↔ f a < f b) (hl : l.Pairwise lt) (ha : a ∈ l) (hc : c ∈ l)
    (heq : f c = f a) : c = a := by
  by_contra hne
  have hkeys : l.Pairwise fun b c => f b ≠ f c := hl.imp fun h => ne_of_lt ((hlt ..).mp h)
  have hsymm : Std.Symm fun b c => f b ≠ f c := ⟨fun _ _ h => h.symm⟩
  exact hkeys.forall hc ha hne heq

/-- What is in the set after `erase` of an element. -/
theorem mem_erase (hlt : ∀ a b, lt a b ↔ f a < f b) (hl : l.Pairwise lt) (ha : a ∈ l) :
    c ∈ erase lt a l ↔ c ∈ l ∧ c ≠ a := by
  rw [erase, List.mem_filter, decide_eq_true_iff, hlt, hlt]
  refine and_congr_right fun hc => ⟨fun hor heq => ?_, fun hne => ?_⟩
  · subst heq
    exact hor.elim (lt_irrefl _) (lt_irrefl _)
  · exact lt_or_gt_of_ne fun heq => hne (eq_of_key_eq hlt hl ha hc heq)

/-- `erase` keeps the order. -/
theorem pairwise_erase (hl : l.Pairwise lt) : (erase lt a l).Pairwise lt := hl.filter _

end StdSet
