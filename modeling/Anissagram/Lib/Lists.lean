import Mathlib.Algebra.BigOperators.Group.List.Basic
import Mathlib.Data.List.Perm.Basic

/-!
# Lists that change in one place

What counts, sums and images of a list become when one element is replaced or removed.
-/

namespace Lists

universe u v

variable {α : Type u} {β : Type v}

/-- An element gives way to one with the same image. -/
theorem map_set (f : α → β) {a : α} (a' : α) :
    ∀ {l : List α} {i : ℕ}, l[i]? = some a → f a' = f a → (l.set i a').map f = l.map f
  | [], _, h, _ => by simp at h
  | x :: l, 0, h, hf => by
    obtain rfl : x = a := by simpa using h
    simp [hf]
  | x :: l, i + 1, h, hf => by
    have ih := map_set f a' (l := l) (i := i) (by simpa using h) hf
    simp [ih]

/-- What is not replaced is still there. -/
theorem eq_or_mem_set {a x : α} {l : List α} {i : ℕ} (h : l[i]? = some a) (a' : α) (hx : x ∈ l) :
    x = a ∨ x ∈ l.set i a' := by
  obtain ⟨j, hj⟩ := List.mem_iff_getElem?.1 hx
  by_cases hji : j = i
  · subst hji
    exact Or.inl (Option.some.inj (hj.symm.trans h))
  · refine Or.inr (List.mem_iff_getElem?.2 ⟨j, ?_⟩)
    rw [List.getElem?_set_ne (Ne.symm hji), hj]

/-- A sum changes by what is replaced. -/
theorem sum_map_set {M : Type v} [AddCommMonoid M] (f : α → M) {a : α} (a' : α) :
    ∀ {l : List α} {i : ℕ}, l[i]? = some a → ((l.set i a').map f).sum + f a = (l.map f).sum + f a'
  | [], _, h => by simp at h
  | x :: l, 0, h => by
    obtain rfl : x = a := by simpa using h
    simp only [List.set_cons_zero, List.map_cons, List.sum_cons]
    rw [add_right_comm, add_comm (f a'), add_right_comm]
  | x :: l, i + 1, h => by
    have ih := sum_map_set f a' (l := l) (i := i) (by simpa using h)
    simp only [List.set_cons_succ, List.map_cons, List.sum_cons]
    rw [add_assoc, ih, add_assoc]

/-- A removed element no longer counts. -/
theorem countP_eraseIdx (p : α → Bool) {l : List α} {i : ℕ} {a : α} (h : l[i]? = some a) :
    l.countP p = (l.eraseIdx i).countP p + [a].countP p := by
  obtain ⟨hi, rfl⟩ := List.getElem?_eq_some_iff.1 h
  rw [← (List.getElem_cons_eraseIdx_perm hi).countP_eq, ← List.countP_append]
  exact (List.perm_append_singleton _ _).symm.countP_eq p

/-- Fewer elements count when one of them stops to. -/
theorem countP_lt_countP {p q : α → Bool} {l : List α} (h : ∀ x ∈ l, p x → q x) {a : α} (ha : a ∈ l)
    (hp : p a = false) (hq : q a = true) : l.countP p < l.countP q := by
  obtain ⟨l₁, l₂, rfl⟩ := List.append_of_mem ha
  have h₁ : l₁.countP p ≤ l₁.countP q := List.countP_mono_left fun x hx => h x (by simp [hx])
  have h₂ : l₂.countP p ≤ l₂.countP q := List.countP_mono_left fun x hx => h x (by simp [hx])
  simp only [List.countP_append, List.countP_cons, hp, hq, if_true]
  simp only [Bool.false_eq_true, if_false]
  omega

end Lists
