import Mathlib.Data.List.Basic

/-!
# Computations that issue requests and may stop

An `Effect ι α` is what a piece of client code does in one go: the requests it issues, in order,
and its result, or `none` where a run-time trap stops it. Requests issued before the trap stay
issued.
-/

universe u v

structure Effect (ι : Type u) (α : Type v) where
  issued : List ι
  value : Option α

namespace Effect

variable {ι : Type u} {α β : Type v}

instance : Monad (Effect ι) where
  pure a := ⟨[], some a⟩
  bind x f := match x.value with
    | none => ⟨x.issued, none⟩
    | some a => ⟨x.issued ++ (f a).issued, (f a).value⟩

/-- Issue one request. -/
def issue (i : ι) : Effect ι PUnit := ⟨[i], some ⟨⟩⟩

/-- Stop here. -/
def trap : Effect ι α := ⟨[], none⟩

/-- Go on with the value of an option, trap where there is none. -/
def force : Option α → Effect ι α
  | some a => pure a
  | none => trap

/-- The same computation with its requests renamed. -/
def mapIssued {κ : Type u} (f : ι → κ) (x : Effect ι α) : Effect κ α := ⟨x.issued.map f, x.value⟩

@[simp] theorem pure_issued (a : α) : (pure a : Effect ι α).issued = [] := rfl
@[simp] theorem pure_value (a : α) : (pure a : Effect ι α).value = some a := rfl
@[simp] theorem issue_issued (i : ι) : (issue i : Effect ι PUnit).issued = [i] := rfl
@[simp] theorem issue_value (i : ι) : (issue i : Effect ι PUnit).value = some ⟨⟩ := rfl
@[simp] theorem trap_issued : (trap : Effect ι α).issued = [] := rfl
@[simp] theorem trap_value : (trap : Effect ι α).value = none := rfl
@[simp] theorem force_some (a : α) : (force (some a) : Effect ι α) = pure a := rfl
@[simp] theorem force_none : (force none : Effect ι α) = trap := rfl

@[simp] theorem mapIssued_issued {κ : Type u} (f : ι → κ) (x : Effect ι α) :
    (x.mapIssued f).issued = x.issued.map f := rfl
@[simp] theorem mapIssued_value {κ : Type u} (f : ι → κ) (x : Effect ι α) :
    (x.mapIssued f).value = x.value := rfl

theorem bind_of_some {x : Effect ι α} {f : α → Effect ι β} {a : α} (h : x.value = some a) :
    x >>= f = ⟨x.issued ++ (f a).issued, (f a).value⟩ := by
  show (match x.value with | none => _ | some a => _) = _
  rw [h]

theorem bind_value (x : Effect ι α) (f : α → Effect ι β) : (x >>= f).value = x.value.bind fun a => (f a).value := by
  show (match x.value with | none => _ | some a => _ : Effect ι β).value = _
  cases x.value <;> rfl

/-- What is issued is issued by the first part, or by the second if the first does not stop. -/
theorem mem_bind_issued {x : Effect ι α} {f : α → Effect ι β} {i : ι} :
    i ∈ (x >>= f).issued ↔ i ∈ x.issued ∨ ∃ a ∈ x.value, i ∈ (f a).issued := by
  show i ∈ (match x.value with | none => _ | some a => _ : Effect ι β).issued ↔ _
  cases x.value <;> simp

@[simp] theorem pure_bind (a : α) (f : α → Effect ι β) : (pure a >>= f : Effect ι β) = f a := by
  rw [bind_of_some rfl]; simp

@[simp] theorem trap_bind (f : α → Effect ι β) : (trap >>= f : Effect ι β) = trap := rfl

end Effect
