import Mathlib.Data.List.Range
import Mathlib.Order.Basic

/-!
# The first place from an offset on

A search in the places below a bound returns the first place from an offset on that has a
property, or the bound when there is none (`FirstFrom`). A search may skip places that do not
have the property and may look beyond the bound, as long as its result is clamped. Searching
again behind every place found enumerates the places that have the property.
-/

namespace Search

variable {P : ℕ → Prop} {size offset mid r r' : ℕ}

/-- The first place from the offset on that has the property, or the bound. -/
structure FirstFrom (P : ℕ → Prop) (size offset r : ℕ) : Prop where
  /-- it is at most the bound -/
  le : r ≤ size
  /-- below the bound it is a place with the property -/
  found : r < size → offset ≤ r ∧ P r
  /-- there is none before -/
  before : ∀ i, offset ≤ i → i < r → ¬ P i

namespace FirstFrom

/-- There is nothing from the offset on. -/
theorem none (h : ∀ i, offset ≤ i → i < size → ¬ P i) : FirstFrom P size offset size :=
  ⟨le_rfl, fun hlt => absurd hlt (lt_irrefl _), h⟩

/-- A place that is found is the result, or it is beyond the bound. -/
theorem clamp (hle : offset ≤ r) (hP : P r) (hbefore : ∀ i, offset ≤ i → i < r → ¬ P i) :
    FirstFrom P size offset (if r < size then r else size) := by
  split
  · exact ⟨le_of_lt ‹_›, fun _ => ⟨hle, hP⟩, hbefore⟩
  · rename_i hge
    exact none fun i hi hlt => hbefore i hi (hlt.trans_le (Nat.le_of_not_lt hge))

/-- Skipping places that do not have the property. -/
theorem skip (hle : offset ≤ mid) (hskip : ∀ i, offset ≤ i → i < mid → ¬ P i)
    (h : FirstFrom P size mid r) : FirstFrom P size offset r := by
  refine ⟨h.le, fun hlt => ?_, fun i hi hlt => ?_⟩
  · obtain ⟨hmid, hP⟩ := h.found hlt
    exact ⟨hle.trans hmid, hP⟩
  · rcases Nat.lt_or_ge i mid with him | him
    · exact hskip i hi him
    · exact h.before i him hlt

/-- The same search with all places moved. -/
theorem shift (n : ℕ) (h : FirstFrom (fun i => P (n + i)) (size - n) 0 r) (hn : n ≤ size) :
    FirstFrom P size n (n + r) := by
  refine ⟨?_, fun hlt => ?_, fun i hi hlt => ?_⟩
  · have hle := h.le
    omega
  · exact ⟨Nat.le_add_right _ _, (h.found (by omega)).2⟩
  · obtain ⟨j, rfl⟩ := Nat.exists_eq_add_of_le hi
    exact h.before j (Nat.zero_le _) (by omega)

end FirstFrom

/-- The places from the offset on that have the property, in ascending order. -/
def places (P : ℕ → Prop) [DecidablePred P] (size offset : ℕ) : List ℕ :=
  (List.range' offset (size - offset)).filter fun i => P i

variable [DecidablePred P]

theorem mem_places {i : ℕ} : i ∈ places P size offset ↔ offset ≤ i ∧ i < size ∧ P i := by
  rw [places, List.mem_filter, List.mem_range'_1, decide_eq_true_eq, ← and_assoc]
  exact and_congr_left' (by omega)

/-- Nothing is left when the search returns the bound. -/
theorem FirstFrom.places_eq_nil (h : FirstFrom P size offset size) : places P size offset = [] := by
  rw [List.eq_nil_iff_forall_not_mem]
  intro i hi
  obtain ⟨hle, hlt, hP⟩ := mem_places.mp hi
  exact h.before i hle hlt hP

/-- What is left behind a place that is found. -/
theorem FirstFrom.places_eq_cons (h : FirstFrom P size offset r) (hr : r < size) :
    places P size offset = r :: places P size (r + 1) := by
  obtain ⟨hle, hP⟩ := h.found hr
  have hsplit : List.range' offset (size - offset) =
      List.range' offset (r - offset) ++ r :: List.range' (r + 1) (size - (r + 1)) := by
    have hlen : size - offset = (r - offset) + ((size - (r + 1)) + 1) := by omega
    have hend : offset + (r - offset) = r := by omega
    rw [hlen, ← List.range'_append_1, hend, List.range'_succ]
  have hnil : (List.range' offset (r - offset)).filter (fun i => P i) = [] := by
    rw [List.filter_eq_nil_iff]
    intro i hi
    rw [List.mem_range'_1] at hi
    rw [decide_eq_true_eq]
    exact h.before i hi.1 (by omega)
  have hcons : (r :: List.range' (r + 1) (size - (r + 1))).filter (fun i => P i) =
      r :: places P size (r + 1) := List.filter_cons_of_pos (decide_eq_true hP)
  rw [places, hsplit, List.filter_append, hnil, List.nil_append, hcons]

end Search
