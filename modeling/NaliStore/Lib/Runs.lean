import Mathlib.Logic.Function.Basic

/-!
# Runs of a fallible step function

A system is a step function `σ → α → Except ε σ`: from a state, an action leads to
a next state or faults. `Run step C s as t` says that the actions `as` lead from
`s` to `t` without a fault and that every step was taken in a state where the
condition `C` on state and action held. Since every initial segment of a run is a
run, a statement about the end of every run is a statement about every state
reached; `Run.invariant` is the rule for proving one.

`exec` is the same for a system whose actions return something, with the results
collected, and `exec_refines` is the rule for comparing it with a total abstract system.
-/

namespace Runs

universe u

variable {ε σ : Type*} {α β : Type u}

/-- Going on after a computation that succeeds. -/
theorem ok_bind (a : α) (f : α → Except ε β) : (Except.ok a >>= f) = f a := rfl

/-- Inversion for a sequenced computation that succeeds. -/
theorem bind_eq_ok {x : Except ε α} {f : α → Except ε β} {b : β} (h : x >>= f = .ok b) :
    ∃ a, x = .ok a ∧ f a = .ok b := by
  cases x with
  | error e => cases h
  | ok a => exact ⟨a, rfl, h⟩

/-- The actions `as` lead from the first state to the second, each step taken where
`C` allows it. -/
inductive Run (step : σ → α → Except ε σ) (C : σ → α → Prop) : σ → List α → σ → Prop
  /-- the empty run -/
  | nil (s : σ) : Run step C s [] s
  /-- one allowed step, then a run -/
  | cons {s t u : σ} {a : α} {as : List α} :
      C s a → step s a = .ok t → Run step C t as u → Run step C s (a :: as) u

namespace Run

variable {step : σ → α → Except ε σ} {C : σ → α → Prop} {s t u : σ} {as bs : List α}

/-- **The invariant rule**: what holds at the start and is kept by every allowed
step holds at the end of every run. -/
theorem invariant {I : σ → Prop}
    (hstep : ∀ s a t, I s → C s a → step s a = .ok t → I t)
    (h : Run step C s as t) (hs : I s) : I t := by
  induction h with
  | nil s => exact hs
  | cons hC hst _ ih => exact ih (hstep _ _ _ hs hC hst)

/-- Every step of a run is taken in a state where an invariant holds. -/
theorem with_invariant {I : σ → Prop}
    (hstep : ∀ s a t, I s → C s a → step s a = .ok t → I t)
    (h : Run step C s as t) (hs : I s) : Run step (fun s a => C s a ∧ I s) s as t := by
  induction h with
  | nil s => exact .nil s
  | cons hC hst _ ih => exact .cons ⟨hC, hs⟩ hst (ih (hstep _ _ _ hs hC hst))

/-- Runs compose. -/
theorem append (h₁ : Run step C s as t) (h₂ : Run step C t bs u) :
    Run step C s (as ++ bs) u := by
  induction h₁ with
  | nil s => exact h₂
  | cons hC hst _ ih => exact .cons hC hst (ih h₂)

/-- A single step is a run. -/
theorem single {a : α} (hC : C s a) (hst : step s a = .ok t) : Run step C s [a] t :=
  .cons hC hst (.nil t)

/-- Weakening the condition on the steps. -/
theorem mono {D : σ → α → Prop} (hCD : ∀ s a, C s a → D s a) (h : Run step C s as t) :
    Run step D s as t := by
  induction h with
  | nil s => exact .nil s
  | cons hC hst _ ih => exact .cons (hCD _ _ hC) hst ih

/-- Steps taken one after the other are a run. -/
theorem of_foldlM (h : as.foldlM step s = .ok t) : Run step (fun _ _ => True) s as t := by
  induction as generalizing s with
  | nil =>
    cases h
    exact .nil _
  | cons a as ih =>
    rw [List.foldlM_cons] at h
    obtain ⟨s', hst, hrest⟩ := bind_eq_ok h
    exact .cons trivial hst (ih hrest)

/-- The condition on the steps, checked along the way. -/
def check (step : σ → α → Except ε σ) (C : σ → α → Prop) [∀ s a, Decidable (C s a)] :
    σ → List α → Bool
  | _, [] => true
  | s, a :: as =>
    decide (C s a) && match step s a with
      | .ok t => check step C t as
      | .error _ => false

/-- Steps taken one after the other that pass the check are a run. -/
theorem of_check [∀ s a, Decidable (C s a)] (h : as.foldlM step s = .ok t)
    (hcheck : check step C s as = true) : Run step C s as t := by
  induction as generalizing s with
  | nil =>
    cases h
    exact .nil _
  | cons a as ih =>
    rw [List.foldlM_cons] at h
    obtain ⟨s', hst, hrest⟩ := bind_eq_ok h
    rw [check, hst, Bool.and_eq_true, decide_eq_true_iff] at hcheck
    exact .cons hcheck.1 hst (ih hrest hcheck.2)

/-- Every action of a run is one of its list. -/
theorem mem (h : Run step C s as t) : Run step (fun s a => C s a ∧ a ∈ as) s as t := by
  induction h with
  | nil s => exact .nil s
  | cons hC hst _ ih =>
    exact .cons ⟨hC, List.mem_cons_self ..⟩ hst
      (ih.mono fun _ _ h => ⟨h.1, List.mem_cons_of_mem _ h.2⟩)

end Run

/-! ## Loops -/

section FoldlM

variable {ε σ α : Type*} {f : σ → α → Except ε σ} {as : List α} {P : List α → σ → Prop}

/-- **The loop rule for loops that may fail**: what every round that returns keeps holds
in the end, and where a round failed. -/
theorem foldlM_cases
    (hstep : ∀ done a rest s t, as = done ++ a :: rest → P done s → f s a = .ok t →
      P (done ++ [a]) t) {s : σ} (hs : P [] s) :
    (∃ t, as.foldlM f s = .ok t ∧ P as t) ∨
      ∃ done a rest t e, as = done ++ a :: rest ∧ P done t ∧ f t a = .error e ∧
        as.foldlM f s = .error e := by
  suffices h : ∀ (rest done : List α) (s : σ), as = done ++ rest → P done s →
      (∃ t, rest.foldlM f s = .ok t ∧ P as t) ∨
        ∃ done a rest' t e, as = done ++ a :: rest' ∧ P done t ∧ f t a = .error e ∧
          rest.foldlM f s = .error e from h as [] s rfl hs
  intro rest
  induction rest with
  | nil =>
    intro done s has hP
    rw [List.append_nil] at has
    exact .inl ⟨s, rfl, has ▸ hP⟩
  | cons a rest ih =>
    intro done s has hP
    cases hfa : f s a with
    | error e =>
      refine .inr ⟨done, a, rest, s, e, has, hP, hfa, ?_⟩
      rw [List.foldlM_cons, hfa]
      rfl
    | ok t =>
      have hcons : (a :: rest).foldlM f s = rest.foldlM f t := by
        rw [List.foldlM_cons, hfa]
        rfl
      rw [hcons]
      exact ih (done ++ [a]) t (by rw [has, List.append_assoc]; rfl)
        (hstep done a rest s t has hP hfa)

/-- What every round keeps holds when the loop has returned. -/
theorem foldlM_invariant
    (hstep : ∀ done a rest s t, as = done ++ a :: rest → P done s → f s a = .ok t →
      P (done ++ [a]) t) {s t : σ} (hs : P [] s) (h : as.foldlM f s = .ok t) : P as t := by
  rcases foldlM_cases hstep hs with ⟨u, hu, hP⟩ | ⟨_, _, _, _, _, _, _, _, he⟩
  · rw [Except.ok.inj (h.symm.trans hu)]
    exact hP
  · rw [h] at he
    cases he

/-- When every round succeeds and keeps what is known of the items done, the loop succeeds
and all items are done. -/
theorem exists_foldlM_of_append (as : List α) (P : List α → σ → Prop)
    (hstep : ∀ done a rest s, as = done ++ a :: rest → P done s →
      ∃ t, f s a = .ok t ∧ P (done ++ [a]) t) {s : σ} (hs : P [] s) :
    ∃ t, as.foldlM f s = .ok t ∧ P as t := by
  have hok : ∀ done a rest s t, as = done ++ a :: rest → P done s → f s a = .ok t →
      P (done ++ [a]) t := by
    intro done a rest s t has hP hst
    obtain ⟨t', ht', hP'⟩ := hstep done a rest s has hP
    rwa [Except.ok.inj (hst.symm.trans ht')]
  rcases foldlM_cases hok hs with h | ⟨done, a, rest, t, e, has, hP, herr, -⟩
  · exact h
  · obtain ⟨t', ht', -⟩ := hstep done a rest t has hP
    rw [herr] at ht'
    cases ht'

/-- A loop that returns, by something of the state it returns. -/
theorem exists_of_foldlM {β : Type*} (f : σ → α → Except ε σ) (g : σ → β) (s : σ) (as : List α) (y : β)
    (h : (as.foldlM f s).toOption.map g = some y) : ∃ t, as.foldlM f s = .ok t ∧ g t = y := by
  cases hfold : as.foldlM f s with
  | error e => simp [hfold, Except.toOption] at h
  | ok t =>
    rw [hfold] at h
    exact ⟨t, rfl, Option.some.inj h⟩

/-- Forgetting a part of the state that the rounds do not look at. -/
theorem map_foldlM {τ : Type*} {g : τ → α → Except ε τ} {forget : σ → τ}
    (hstep : ∀ s a, (f s a).map forget = g (forget s) a) (as : List α) (s : σ) :
    (as.foldlM f s).map forget = as.foldlM g (forget s) := by
  induction as generalizing s with
  | nil => rfl
  | cons a as ih =>
    rw [List.foldlM_cons, List.foldlM_cons, ← hstep]
    cases f s a with
    | error e => rfl
    | ok t => exact ih t

/-- **The loop rule**, when the rounds are independent of their order. -/
theorem exists_foldlM (as : List α) (P : List α → σ → Prop)
    (hstep : ∀ done a s, a ∈ as → P done s → ∃ t, f s a = .ok t ∧ P (done ++ [a]) t)
    {s : σ} (hs : P [] s) : ∃ t, as.foldlM f s = .ok t ∧ P as t := by
  refine exists_foldlM_of_append as P (fun done a rest s has hP => hstep done a s ?_ hP) hs
  rw [has]
  exact List.mem_append_right _ (List.mem_cons_self ..)

end FoldlM

/-! ## Systems whose actions return -/

section Exec

variable {τ ρ : Type*}

/-- Perform the actions in order and collect what they return. -/
def exec (step : σ → α → Except ε (ρ × σ)) : σ → List α → Except ε (List ρ × σ)
  | s, [] => .ok ([], s)
  | s, a :: as =>
    match step s a with
    | .error e => .error e
    | .ok (r, s') =>
      match exec step s' as with
      | .error e => .error e
      | .ok (rs, t) => .ok (r :: rs, t)

/-- Inversion of a sequence that starts with an action. -/
theorem exec_cons_eq_ok {step : σ → α → Except ε (ρ × σ)} {s t : σ} {a : α} {as : List α}
    {rs : List ρ} (h : exec step s (a :: as) = .ok (rs, t)) :
    ∃ r s' rs', step s a = .ok (r, s') ∧ exec step s' as = .ok (rs', t) := by
  rw [exec] at h
  cases hst : step s a with
  | error e =>
    rw [hst] at h
    cases h
  | ok p =>
    obtain ⟨r, s'⟩ := p
    rw [hst] at h
    simp only at h
    cases hrest : exec step s' as with
    | error e =>
      rw [hrest] at h
      cases h
    | ok q =>
      rw [hrest] at h
      obtain ⟨-, rfl⟩ := Prod.mk.inj (Except.ok.inj h)
      exact ⟨r, s', q.1, rfl, hrest⟩

/-- What holds at the start and is kept by every action holds at the end. -/
theorem exec_invariant {step : σ → α → Except ε (ρ × σ)} {I : σ → Prop}
    (hstep : ∀ s a r t, I s → step s a = .ok (r, t) → I t) :
    ∀ (as : List α) (s : σ) {rs : List ρ} {t : σ}, I s → exec step s as = .ok (rs, t) → I t := by
  intro as
  induction as with
  | nil =>
    intro s rs t hs h
    obtain ⟨-, rfl⟩ := Prod.mk.inj (Except.ok.inj h)
    exact hs
  | cons a as ih =>
    intro s rs t hs h
    obtain ⟨r, s', rs', hst, hrest⟩ := exec_cons_eq_ok h
    exact ih s' (hstep s a r s' hs hst) hrest

/-- Every action is taken in a state where `C` allows it. -/
def Along (step : σ → α → Except ε (ρ × σ)) (C : σ → α → Prop) : σ → List α → Prop
  | _, [] => True
  | s, a :: as => C s a ∧ ∀ r t, step s a = .ok (r, t) → Along step C t as

/-- The same for a total system. -/
def specRun (spec : τ → α → ρ × τ) : τ → List α → List ρ × τ
  | t, [] => ([], t)
  | t, a :: as =>
    let rest := specRun spec (spec t a).2 as
    ((spec t a).1 :: rest.1, rest.2)

/-- **The refinement rule**: when related states return the same on every action and stay
related, the results of every sequence agree. The relation may depend on the actions
still to come, so it can carry a budget. -/
theorem exec_refines {step : σ → α → Except ε (ρ × σ)} {spec : τ → α → ρ × τ}
    (R : List α → σ → τ → Prop)
    (hstep : ∀ a as s t, R (a :: as) s t →
      ∃ s', step s a = .ok ((spec t a).1, s') ∧ R as s' (spec t a).2) :
    ∀ (as : List α) (s : σ) (t : τ), R as s t →
      ∃ s', exec step s as = .ok ((specRun spec t as).1, s') ∧
        R [] s' (specRun spec t as).2 := by
  intro as
  induction as with
  | nil => intro s t h; exact ⟨s, rfl, h⟩
  | cons a as ih =>
    intro s t h
    obtain ⟨s', hs', hR⟩ := hstep a as s t h
    obtain ⟨u, hu, hR'⟩ := ih s' _ hR
    refine ⟨u, ?_, hR'⟩
    simp only [exec, hs', hu]
    rfl

/-- **The simulation rule** for sequences that return: when related states return, on every
action that `C` allows, what is the same as far as `f` and `g` tell, and stay related, so does
the sequence. -/
theorem exec_simulates {ρ' γ : Type*} {step : σ → α → Except ε (ρ × σ)}
    {spec : τ → α → ρ' × τ} {C : σ → α → Prop} (f : ρ → γ) (g : ρ' → γ) {R : σ → τ → Prop}
    {as : List α} (hstep : ∀ a ∈ as, ∀ s t r s', C s a → R s t → step s a = .ok (r, s') →
      f r = g (spec t a).1 ∧ R s' (spec t a).2)
    {s s' : σ} {t : τ} {rs : List ρ} (hR : R s t) (hC : Along step C s as)
    (hexec : exec step s as = .ok (rs, s')) :
    rs.map f = (specRun spec t as).1.map g ∧ R s' (specRun spec t as).2 := by
  induction as generalizing s t rs with
  | nil =>
    obtain ⟨rfl, rfl⟩ := Prod.mk.inj (Except.ok.inj hexec)
    exact ⟨rfl, hR⟩
  | cons a as ih =>
    rw [exec] at hexec
    cases hst : step s a with
    | error e =>
      rw [hst] at hexec
      cases hexec
    | ok p =>
      obtain ⟨r, u⟩ := p
      rw [hst] at hexec
      simp only at hexec
      cases hrest : exec step u as with
      | error e =>
        rw [hrest] at hexec
        cases hexec
      | ok q =>
        rw [hrest] at hexec
        obtain ⟨rfl, rfl⟩ := Prod.mk.inj (Except.ok.inj hexec)
        obtain ⟨hr, hRu⟩ := hstep a (List.mem_cons_self ..) s t r u hC.1 hR hst
        obtain ⟨hall, hend⟩ := ih (fun b hb => hstep b (List.mem_cons_of_mem _ hb)) hRu
          (hC.2 r u hst) hrest
        refine ⟨?_, hend⟩
        rw [List.map_cons, hr, hall]
        rfl

end Exec

end Runs
