import Mathlib.Logic.Function.Basic
import Mathlib.Order.Basic

/-!
# Tickets that are taken and given back in order

Any number of parties take ranges of numbers: a party that takes `n` numbers gets those from `head`
on, and `head` moves on by `n`. When it is done with them it waits until `tail` is at its first number,
and moves `tail` behind its last. `Tickets` says that the ranges that are out are apart and fill the
place between `tail` and `head`, and the rules keep that up.
-/

namespace Tickets

variable {ι : Type*}

/-- The ranges, given by first number and length, that the parties have out. -/
structure Out (span : ι → Option (ℕ × ℕ)) (tail head : ℕ) : Prop where
  /-- the bounds are in order -/
  le : tail ≤ head
  /-- a range has a number -/
  pos : ∀ t p n, span t = some (p, n) → 0 < n
  /-- it is behind `tail` -/
  tail_le : ∀ t p n, span t = some (p, n) → tail ≤ p
  /-- and before `head` -/
  le_head : ∀ t p n, span t = some (p, n) → p + n ≤ head
  /-- two ranges are apart -/
  apart : ∀ t t' p p' n n', t ≠ t' → span t = some (p, n) → span t' = some (p', n') →
    p + n ≤ p' ∨ p' + n' ≤ p
  /-- every number in between is in a range -/
  cover : ∀ i, tail ≤ i → i < head → ∃ t p n, span t = some (p, n) ∧ p ≤ i ∧ i < p + n

variable {span : ι → Option (ℕ × ℕ)} {tail head : ℕ} {t t' : ι} {p n n' : ℕ}

theorem out_none (c : ℕ) : Out (fun _ : ι => none) c c where
  le := Nat.le_refl c
  pos _ _ _ h := by cases h
  tail_le _ _ _ h := by cases h
  le_head _ _ _ h := by cases h
  apart _ _ _ _ _ _ _ h := by cases h
  cover i hi hi' := absurd (Nat.lt_of_le_of_lt hi hi') (Nat.lt_irrefl c)

namespace Out

/-- What the others have out when a party changes what it does with its range, or without one. -/
theorem congr (h : Out span tail head) {span' : ι → Option (ℕ × ℕ)} (heq : ∀ t, span' t = span t) :
    Out span' tail head := by
  obtain rfl : span' = span := funext heq
  exact h

/-- Somebody has the first range. -/
theorem exists_first (h : Out span tail head) (hlt : tail < head) :
    ∃ t n, span t = some (tail, n) := by
  obtain ⟨t, p, n, ht, hp, -⟩ := h.cover tail (Nat.le_refl tail) hlt
  obtain rfl : p = tail := Nat.le_antisymm hp (h.tail_le t p n ht)
  exact ⟨t, n, ht⟩

/-- The party whose range is the first is one. -/
theorem first_unique (h : Out span tail head) (ht : span t = some (p, n))
    (ht' : span t' = some (p, n')) : t = t' := by
  by_contra hne
  have hpos := h.pos t p n ht
  have hpos' := h.pos t' p n' ht'
  rcases h.apart t t' p p n n' hne ht ht' with hle | hle <;> omega

variable [DecidableEq ι]

/-- **Taking** a range at `head`. -/
theorem take (h : Out span tail head) (ht : span t = none) (hn : 0 < n) :
    Out (Function.update span t (some (head, n))) tail (head + n) := by
  have hcases : ∀ {t' p' n'}, Function.update span t (some (head, n)) t' = some (p', n') →
      (t' = t ∧ p' = head ∧ n' = n) ∨ (t' ≠ t ∧ span t' = some (p', n')) := by
    intro t' p' n' ht'
    by_cases htt : t' = t
    · subst htt
      rw [Function.update_self] at ht'
      obtain ⟨rfl, rfl⟩ := Prod.mk.inj (Option.some.inj ht')
      exact .inl ⟨rfl, rfl, rfl⟩
    · rw [Function.update_of_ne htt] at ht'
      exact .inr ⟨htt, ht'⟩
  refine ⟨Nat.le_trans h.le (Nat.le_add_right head n), fun t' p' n' ht' => ?_, fun t' p' n' ht' => ?_,
    fun t' p' n' ht' => ?_, fun t₁ t₂ p₁ p₂ n₁ n₂ hne h₁ h₂ => ?_, fun i hi hi' => ?_⟩
  · rcases hcases ht' with ⟨-, -, rfl⟩ | ⟨-, ho⟩
    · exact hn
    · exact h.pos t' p' n' ho
  · rcases hcases ht' with ⟨-, rfl, -⟩ | ⟨-, ho⟩
    · exact h.le
    · exact h.tail_le t' p' n' ho
  · rcases hcases ht' with ⟨-, rfl, rfl⟩ | ⟨-, ho⟩
    · exact Nat.le_refl _
    · exact Nat.le_trans (h.le_head t' p' n' ho) (Nat.le_add_right head n)
  · rcases hcases h₁ with ⟨rfl, rfl, rfl⟩ | ⟨-, ho₁⟩
    · rcases hcases h₂ with ⟨rfl, -, -⟩ | ⟨-, ho₂⟩
      · exact absurd rfl hne
      · exact .inr (h.le_head t₂ p₂ n₂ ho₂)
    · rcases hcases h₂ with ⟨rfl, rfl, rfl⟩ | ⟨-, ho₂⟩
      · exact .inl (h.le_head t₁ p₁ n₁ ho₁)
      · exact h.apart t₁ t₂ p₁ p₂ n₁ n₂ hne ho₁ ho₂
  · rcases Nat.lt_or_ge i head with hlt | hge
    · obtain ⟨t', p', n', ho, hp, hp'⟩ := h.cover i hi hlt
      have hne : t' ≠ t := by
        rintro rfl
        rw [ht] at ho
        cases ho
      exact ⟨t', p', n', by rw [Function.update_of_ne hne, ho], hp, hp'⟩
    · exact ⟨t, head, n, Function.update_self .., hge, hi'⟩

/-- **Giving back** the first range. -/
theorem give (h : Out span tail head) (ht : span t = some (tail, n)) :
    Out (Function.update span t none) (tail + n) head := by
  have hcases : ∀ {t' p' n'}, Function.update span t none t' = some (p', n') →
      t' ≠ t ∧ span t' = some (p', n') := by
    intro t' p' n' ht'
    by_cases htt : t' = t
    · subst htt
      rw [Function.update_self] at ht'
      cases ht'
    · rw [Function.update_of_ne htt] at ht'
      exact ⟨htt, ht'⟩
  refine ⟨h.le_head t tail n ht, fun t' p' n' ht' => ?_, fun t' p' n' ht' => ?_,
    fun t' p' n' ht' => ?_, fun t₁ t₂ p₁ p₂ n₁ n₂ hne h₁ h₂ => ?_, fun i hi hi' => ?_⟩
  · exact h.pos t' p' n' (hcases ht').2
  · obtain ⟨hne, ho⟩ := hcases ht'
    -- a range that is not the first is behind it
    have hpos := h.pos t' p' n' ho
    have hle := h.tail_le t' p' n' ho
    rcases h.apart t t' tail p' n n' (Ne.symm hne) ht ho with hlt | hlt <;> omega
  · exact h.le_head t' p' n' (hcases ht').2
  · exact h.apart t₁ t₂ p₁ p₂ n₁ n₂ hne (hcases h₁).2 (hcases h₂).2
  · obtain ⟨t', p', n', ho, hp, hp'⟩ := h.cover i (Nat.le_trans (Nat.le_add_right tail n) hi) hi'
    have hne : t' ≠ t := by
      rintro rfl
      obtain ⟨rfl, rfl⟩ := Prod.mk.inj (Option.some.inj (ht.symm.trans ho))
      omega
    exact ⟨t', p', n', by rw [Function.update_of_ne hne, ho], hp, hp'⟩

end Out

end Tickets
