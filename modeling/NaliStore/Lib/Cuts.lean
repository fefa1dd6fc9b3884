import Mathlib.Data.List.Basic
import Mathlib.Data.List.Chain
import Mathlib.Algebra.GroupWithZero.Nat

/-!
# Cutting a list into as few parts as possible

A list is cut into consecutive parts that all have a property, which the parts of a part have too.
Taking as much as possible every time (`Greedy`) gives the least number of parts (`Greedy.le`). When
the list is first divided into pieces that are cut one by one, every border costs one part at most
(`le_of_pieces`).
-/

namespace Cuts

variable {α : Type*}

/-- Consecutive parts with a property. -/
structure IsCut (P : List α → Prop) (l : List α) (parts : List (List α)) : Prop where
  /-- the parts make up the list -/
  flatten : parts.flatten = l
  /-- all have the property -/
  all : ∀ p ∈ parts, P p

/-- The property of a part is that of its parts. -/
structure Hereditary (P : List α → Prop) : Prop where
  /-- a part at the start -/
  left : ∀ a b, P (a ++ b) → P a
  /-- a part at the end -/
  right : ∀ a b, P (a ++ b) → P b

/-- No part can take the first element of the next one. -/
structure Greedy (P : List α → Prop) (parts : List (List α)) : Prop where
  /-- no part is empty -/
  ne_nil : ∀ p ∈ parts, p ≠ []
  /-- all have the property -/
  all : ∀ p ∈ parts, P p
  /-- and cannot be longer -/
  stuck : parts.IsChain fun p q => ∃ x ∈ q.head?, ¬P (p ++ [x])

variable {P : List α → Prop} {l l₁ l₂ : List α} {p : List α} {parts qs : List (List α)}

/-- The end of a list is cut into no more parts. -/
theorem IsCut.trim (hP : Hereditary P) (h : IsCut P (l₁ ++ l₂) qs) :
    ∃ qs', IsCut P l₂ qs' ∧ qs'.length ≤ qs.length := by
  induction qs generalizing l₁ with
  | nil =>
    have hnil : l₁ ++ l₂ = [] := by simpa using h.flatten.symm
    exact ⟨[], ⟨(List.append_eq_nil_iff.mp hnil).2.symm, by simp⟩, le_rfl⟩
  | cons q qs ih =>
    have hflat : q ++ qs.flatten = l₁ ++ l₂ := by simpa using h.flatten
    rcases List.append_eq_append_iff.mp hflat with ⟨a, rfl, hrest⟩ | ⟨c, rfl, rfl⟩
    · obtain ⟨qs', hcut, hle⟩ := ih ⟨hrest, fun p hp => h.all p (by simp [hp])⟩
      exact ⟨qs', hcut, hle.trans (by simp)⟩
    · refine ⟨c :: qs, ⟨by simp, ?_⟩, by simp⟩
      intro p hp
      rcases List.mem_cons.mp hp with rfl | hp
      · exact hP.right l₁ p (h.all _ (by simp))
      · exact h.all p (by simp [hp])

/-- A cut of two pieces cuts each of them, with one part more. -/
theorem IsCut.split (hP : Hereditary P) (h : IsCut P (l₁ ++ l₂) qs) :
    ∃ qs₁ qs₂, IsCut P l₁ qs₁ ∧ IsCut P l₂ qs₂ ∧ qs₁.length + qs₂.length ≤ qs.length + 1 := by
  induction qs generalizing l₁ with
  | nil =>
    have hnil : l₁ ++ l₂ = [] := by simpa using h.flatten.symm
    obtain ⟨rfl, rfl⟩ := List.append_eq_nil_iff.mp hnil
    exact ⟨[], [], ⟨rfl, by simp⟩, ⟨rfl, by simp⟩, by simp⟩
  | cons q qs ih =>
    have hflat : q ++ qs.flatten = l₁ ++ l₂ := by simpa using h.flatten
    rcases List.append_eq_append_iff.mp hflat with ⟨a, rfl, hrest⟩ | ⟨c, rfl, rfl⟩
    · obtain ⟨qs₁, qs₂, hcut₁, hcut₂, hle⟩ := ih ⟨hrest, fun p hp => h.all p (by simp [hp])⟩
      refine ⟨q :: qs₁, qs₂, ⟨by simp [hcut₁.flatten], ?_⟩, hcut₂, ?_⟩
      · intro p hp
        rcases List.mem_cons.mp hp with rfl | hp
        · exact h.all p (by simp)
        · exact hcut₁.all p hp
      · simp only [List.length_cons]
        omega
    · refine ⟨[l₁], c :: qs, ⟨by simp, ?_⟩, ⟨by simp, ?_⟩, ?_⟩
      · intro p hp
        obtain rfl := List.mem_singleton.mp hp
        exact hP.left p c (h.all _ (by simp))
      · intro p hp
        rcases List.mem_cons.mp hp with rfl | hp
        · exact hP.right l₁ p (h.all _ (by simp))
        · exact h.all p (by simp [hp])
      · simp only [List.length_cons, List.length_nil]
        omega

/-- Taking as much as possible gives the least number of parts. -/
theorem Greedy.le (hP : Hereditary P) (h : Greedy P parts) (hqs : IsCut P parts.flatten qs) :
    parts.length ≤ qs.length := by
  induction parts generalizing qs with
  | nil => simp
  | cons p parts ih =>
    have hne : p ≠ [] := h.ne_nil p (by simp)
    obtain ⟨q, qs, rfl⟩ : ∃ q qs', qs = q :: qs' := by
      cases qs with
      | nil =>
        have := hqs.flatten
        simp [hne] at this
      | cons q qs => exact ⟨q, qs, rfl⟩
    have htail : Greedy P parts :=
      ⟨fun p hp => h.ne_nil p (by simp [hp]), fun p hp => h.all p (by simp [hp]), h.stuck.tail⟩
    have hflat : q ++ qs.flatten = p ++ parts.flatten := by simpa using hqs.flatten
    have hall : ∀ p ∈ qs, P p := fun p hp => hqs.all p (by simp [hp])
    rcases List.append_eq_append_iff.mp hflat with ⟨a, rfl, hrest⟩ | ⟨c, rfl, hrest⟩
    · obtain ⟨qs', hcut, hle⟩ := IsCut.trim hP (⟨hrest, hall⟩ : IsCut P (a ++ parts.flatten) qs)
      have := ih htail hcut
      simp only [List.length_cons]
      omega
    · -- the other part goes on: it is not longer, so it ends here
      cases parts with
      | nil => simp
      | cons p' parts =>
        obtain ⟨x, hx, hstuck⟩ := (List.isChain_cons_cons.mp h.stuck).1
        cases c with
        | nil =>
          have hcut : IsCut P (p' :: parts).flatten qs := ⟨by simpa using hrest.symm, hall⟩
          have := ih htail hcut
          simp only [List.length_cons] at this ⊢
          omega
        | cons x' c =>
          obtain ⟨p', rfl⟩ : ∃ r, p' = x :: r := by
            cases p' with
            | nil => simp at hx
            | cons a r => exact ⟨r, by simpa using hx⟩
          obtain rfl : x = x' := by
            simp only [List.flatten_cons, List.cons_append, List.cons.injEq] at hrest
            exact hrest.1
          refine absurd (hP.left (p ++ [x]) c ?_) hstuck
          have := hqs.all (p ++ x :: c) (by simp)
          simpa using this

/-- Every border between pieces costs one part at most. -/
theorem le_of_pieces (hP : Hereditary P) {pieces : List (List (List α))}
    (h : ∀ parts ∈ pieces, Greedy P parts)
    (hqs : IsCut P (pieces.map List.flatten).flatten qs) :
    (pieces.map List.length).sum ≤ qs.length + (pieces.length - 1) := by
  induction pieces generalizing qs with
  | nil => simp
  | cons parts pieces ih =>
    rcases eq_or_ne pieces [] with rfl | hne
    · simp only [List.map_cons, List.map_nil, List.flatten_cons, List.flatten_nil,
        List.append_nil] at hqs
      exact (h parts (by simp)).le hP hqs
    · have hqs' : IsCut P (parts.flatten ++ (pieces.map List.flatten).flatten) qs := by
        simpa using hqs
      obtain ⟨qs₁, qs₂, hcut₁, hcut₂, hle⟩ := hqs'.split hP
      have hfirst := (h parts (by simp)).le hP hcut₁
      have hrest := ih (fun parts hparts => h parts (by simp [hparts])) hcut₂
      have := List.length_pos_iff.mpr hne
      simp only [List.map_cons, List.sum_cons, List.length_cons]
      omega

end Cuts
