import Mathlib.Data.List.Basic
import Mathlib.Logic.Relation
import Mathlib.Order.WellFounded

/-!
# Guarded runs of a partial step function

`step s a` is the state after action `a`, or `none` where `a` is not possible in `s`. A run is
restricted further by a guard `ok`, which sees the steps made so far (newest first) as well as the
state and the action. `Reach` is the set of states such runs reach, `Reach.inv` the invariant rule;
`exec` plays a given list of actions and so reaches a state by evaluation
(`exists_reach_of_exec`). `lastWord` reads from the steps what the last of them said that said anything, and
`Reach.lastWord` is the rule for it. `Terminates` says that a state has no infinite sequence of steps before it,
which a rank shows (`terminates_of_rank`) and a set of states to which steps return refutes
(`not_terminates_of_return`).
-/

namespace Runs

universe u v

variable {σ : Type u} {α : Type v}

/-- The steps of a run, newest first, each with the state it was made in. -/
abbrev History (σ : Type u) (α : Type v) := List (σ × α)

inductive Reach (step : σ → α → Option σ) (ok : History σ α → σ → α → Prop) (s₀ : σ) :
    History σ α → σ → Prop where
  | start : Reach step ok s₀ [] s₀
  | step {hist : History σ α} {s s' : σ} {a : α} :
      Reach step ok s₀ hist s → ok hist s a → step s a = some s' →
      Reach step ok s₀ ((s, a) :: hist) s'

variable {step : σ → α → Option σ} {ok : History σ α → σ → α → Prop} {s₀ s : σ}
  {hist : History σ α}

/-- **Invariant rule**: what holds at the start and is kept by every guarded step holds in every
state reached. -/
theorem Reach.inv {I : History σ α → σ → Prop} (hr : Reach step ok s₀ hist s) (h0 : I [] s₀)
    (hstep : ∀ hist s a s', Reach step ok s₀ hist s → I hist s → ok hist s a → step s a = some s' →
      I ((s, a) :: hist) s') : I hist s := by
  induction hr with
  | start => exact h0
  | step hr hok hs ih => exact hstep _ _ _ _ hr ih hok hs

/-- Play `as` from `s`, checking the guard before each step. -/
def exec (step : σ → α → Option σ) (ok : History σ α → σ → α → Prop)
    [∀ h s a, Decidable (ok h s a)] : History σ α → σ → List α → Option (History σ α × σ)
  | hist, s, [] => some (hist, s)
  | hist, s, a :: as =>
    if ok hist s a then
      match step s a with
      | some s' => exec step ok ((s, a) :: hist) s' as
      | none => none
    else none

theorem Reach.exec [∀ h s a, Decidable (ok h s a)] :
    ∀ {as : List α} {hist : History σ α} {s : σ} {r : History σ α × σ},
      Reach step ok s₀ hist s → exec step ok hist s as = some r → Reach step ok s₀ r.1 r.2
  | [], _, _, _, hr, h => by
    simp only [Runs.exec, Option.some.injEq] at h
    subst h
    exact hr
  | a :: as, hist, s, r, hr, h => by
    simp only [Runs.exec] at h
    split at h
    · rename_i hok
      split at h
      · rename_i s' hs
        exact Reach.exec (hr.step hok hs) h
      · simp at h
    · simp at h

/-- What a played list of actions ends in is reached. -/
theorem exists_reach_of_exec {P : History σ α → σ → Prop} [∀ h s, Decidable (P h s)]
    [∀ h s a, Decidable (ok h s a)] {as : List α}
    (h : (Runs.exec step ok [] s₀ as).any (fun r => decide (P r.1 r.2)) = true) :
    ∃ hist s, Reach step ok s₀ hist s ∧ P hist s := by
  cases hr : Runs.exec step ok [] s₀ as with
  | none => simp [hr] at h
  | some r =>
    rw [hr, Option.any_some, decide_eq_true_eq] at h
    exact ⟨r.1, r.2, Reach.exec .start hr, h⟩

/-! ## What was said last -/

/-- What the last step that says something says; before that, `false`. -/
def lastWord (word : σ → α → Option Bool) : History σ α → Bool
  | [] => false
  | (s, a) :: hist => (word s a).getD (lastWord word hist)

/-- **Last-word rule**: what each step makes of a property, or leaves of it, it is at the end. -/
theorem Reach.lastWord {word : σ → α → Option Bool} {P : σ → Bool → Prop} (hr : Reach step ok s₀ hist s)
    (h0 : P s₀ false) (hstep : ∀ s a s' b, P s b → step s a = some s' → P s' ((word s a).getD b)) :
    P s (Runs.lastWord word hist) :=
  hr.inv (I := fun hist s => P s (Runs.lastWord word hist)) h0 fun _ _ _ _ _ hi _ hs => hstep _ _ _ _ hi hs

/-! ## Runs that end -/

/-- Every sequence of steps from `s` comes to an end. -/
def Terminates (R : σ → σ → Prop) (s : σ) : Prop :=
  ¬ ∃ f : ℕ → σ, f 0 = s ∧ ∀ n, R (f n) (f (n + 1))

section
variable {R : σ → σ → Prop} {I : σ → Prop}

/-- **Ranking rule**: steps from `I` stay in `I` and lower the rank. -/
theorem terminates_of_rank {β : Type v} [Preorder β] [WellFoundedLT β] (rank : σ → β)
    (hstep : ∀ s s', I s → R s s' → I s' ∧ rank s' < rank s) (h : I s) : Terminates R s := by
  rintro ⟨f, rfl, hf⟩
  have hI : ∀ n, I (f n) := by
    intro n
    induction n with
    | zero => exact h
    | succ n ih => exact (hstep _ _ ih (hf n)).1
  obtain ⟨n, hn⟩ := WellFounded.not_rel_apply_succ (r := (· < ·)) fun n => rank (f n)
  exact hn (hstep _ _ (hI n) (hf n)).2

/-- **Return rule**: from `I` some steps, and not none, lead back to `I`. -/
theorem not_terminates_of_return (hstep : ∀ s, I s → ∃ s', Relation.TransGen R s s' ∧ I s') (h : I s) :
    ¬ Terminates R s := by
  have hacc : ¬ Acc (Function.swap R) s := by
    intro hs
    have htrans := hs.transGen
    induction htrans with
    | intro s _ ih =>
      obtain ⟨s', hR, hI⟩ := hstep s h
      have hback := Relation.transGen_swap.2 hR
      exact ih s' hback hI (hs.inv_of_transGen hback)
  exact not_not.2 (not_acc_iff_exists_descending_chain.1 hacc)

end

end Runs
