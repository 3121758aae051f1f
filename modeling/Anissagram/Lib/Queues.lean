import Mathlib.Data.Fintype.Basic
import Mathlib.Data.List.Basic

/-!
# Families of queues

Every index has a queue. A `Push` appends to the end of one of them, a `Pop` takes the first
element of one of them. `Lone P D` is the invariant of a discipline that admits a new element with
`P` only while none is waiting: there is at most one, and `D` holds of what waits before it and of
the element itself.
-/

namespace Queues

universe u v

variable {ι : Type u} {α : Type v} [DecidableEq ι]

def Push (q q' : ι → List α) (i : ι) (xs : List α) : Prop :=
  ∀ j, q' j = if j = i then q i ++ xs else q j

structure Pop (q q' : ι → List α) (i : ι) (x : α) (rest : List α) : Prop where
  head : q i = x :: rest
  tail : ∀ j, q' j = if j = i then rest else q j

/-- No element with `P` waits. -/
def NoneWaits (P : α → Prop) (q : ι → List α) : Prop := ∀ i, ∀ x ∈ q i, ¬ P x

instance [Fintype ι] {P : α → Prop} [DecidablePred P] {q : ι → List α} : Decidable (NoneWaits P q) :=
  inferInstanceAs (Decidable (∀ i, ∀ x ∈ q i, ¬ P x))

/-- `x` is the only element with `P`; it waits in queue `i` behind `before`. -/
structure Sole (P : α → Prop) (q : ι → List α) (i : ι) (before : List α) (x : α) (after : List α) :
    Prop where
  queue : q i = before ++ x :: after
  holds : P x
  before : ∀ y ∈ before, ¬ P y
  after : ∀ y ∈ after, ¬ P y
  others : ∀ j, j ≠ i → ∀ y ∈ q j, ¬ P y

def Lone (P : α → Prop) (D : List α → α → Prop) (q : ι → List α) : Prop :=
  NoneWaits P q ∨ ∃ i before x after, Sole P q i before x after ∧ D before x

variable {P : α → Prop} {D D' : List α → α → Prop} {q q' : ι → List α} {i : ι} {xs rest : List α}
  {x : α}

theorem Pop.mem (h : Pop q q' i x rest) : x ∈ q i := by
  rw [h.head]
  exact List.mem_cons_self

theorem Push.same (h : Push q q' i xs) : q' i = q i ++ xs := by
  rw [h i, if_pos rfl]

theorem Push.other (h : Push q q' i xs) {j : ι} (hj : j ≠ i) : q' j = q j := by
  rw [h j, if_neg hj]

theorem Pop.same (h : Pop q q' i x rest) : q' i = rest := by
  rw [h.tail i, if_pos rfl]

theorem Pop.other (h : Pop q q' i x rest) {j : ι} (hj : j ≠ i) : q' j = q j := by
  rw [h.tail j, if_neg hj]

/-- Whatever waits after a pop waited before. -/
theorem Pop.sub (h : Pop q q' i x rest) {j : ι} {y : α} (hy : y ∈ q' j) : y ∈ q j := by
  rw [h.tail j] at hy
  split at hy
  · rename_i hj
    rw [hj, h.head]
    exact List.mem_cons_of_mem _ hy
  · exact hy

theorem Push.cases (h : Push q q' i xs) {j : ι} {y : α} (hy : y ∈ q' j) :
    y ∈ q j ∨ j = i ∧ y ∈ xs := by
  rw [h j] at hy
  split at hy
  · rename_i hj
    subst hj
    rcases List.mem_append.1 hy with hy | hy
    · exact Or.inl hy
    · exact Or.inr ⟨rfl, hy⟩
  · exact Or.inl hy

theorem NoneWaits.push (h : NoneWaits P q) (hp : Push q q' i xs) (hxs : ∀ y ∈ xs, ¬ P y) :
    NoneWaits P q' := by
  intro j y hy
  rcases hp.cases hy with hy | ⟨-, hy⟩
  · exact h j y hy
  · exact hxs y hy

/-- The discipline: a new element with `P`, at the end of what is appended. -/
theorem NoneWaits.push_last (h : NoneWaits P q) (hp : Push q q' i (xs ++ [x])) (hxs : ∀ y ∈ xs, ¬ P y)
    (hx : P x) (hd : D (q i ++ xs) x) : Lone P D q' := by
  refine Or.inr ⟨i, q i ++ xs, x, [], ⟨?_, hx, ?_, by simp, ?_⟩, hd⟩
  · rw [hp.same, List.append_assoc]
  · intro y hy
    rcases List.mem_append.1 hy with hy | hy
    · exact h i y hy
    · exact hxs y hy
  · intro j hj y hy
    rw [hp.other hj] at hy
    exact h j y hy

theorem Lone.push (h : Lone P D q) (hp : Push q q' i xs) (hxs : ∀ y ∈ xs, ¬ P y) : Lone P D q' := by
  rcases h with h | ⟨k, before, x, after, hs, hd⟩
  · exact Or.inl (h.push hp hxs)
  · by_cases hk : k = i
    · subst hk
      refine Or.inr ⟨k, before, x, after ++ xs, ⟨?_, hs.holds, hs.before, ?_, ?_⟩, hd⟩
      · rw [hp.same, hs.queue, List.append_assoc, List.cons_append]
      · intro y hy
        rcases List.mem_append.1 hy with hy | hy
        · exact hs.after y hy
        · exact hxs y hy
      · intro j hj y hy
        rw [hp.other hj] at hy
        exact hs.others j hj y hy
    · refine Or.inr ⟨k, before, x, after, ⟨?_, hs.holds, hs.before, hs.after, ?_⟩, hd⟩
      · rw [hp.other hk, hs.queue]
      · intro j hj y hy
        rcases hp.cases hy with hy | ⟨-, hy⟩
        · exact hs.others j hj y hy
        · exact hxs y hy

/-- **A pop** takes the lone element, and then nothing waited before it, or another one; the
condition is carried over in the second case. -/
theorem Lone.pop (h : Lone P D q) (hp : Pop q q' i x rest) :
    (P x ∧ D [] x ∧ NoneWaits P q') ∨
    (¬ P x ∧ ((∀ before y, P y → D before y → D' before y) →
      (∀ before y, P y → D (x :: before) y → D' before y) → Lone P D' q')) := by
  rcases h with h | ⟨k, before, y, after, hs, hd⟩
  · exact Or.inr ⟨h i x hp.mem, fun _ _ => Or.inl fun j z hz => h j z (hp.sub hz)⟩
  · by_cases hk : k = i
    · subst hk
      have hq := hs.queue.symm.trans hp.head
      cases before with
      | nil =>
        obtain ⟨rfl, rfl⟩ := List.cons.inj hq
        refine Or.inl ⟨hs.holds, hd, fun j z hz => ?_⟩
        by_cases hj : j = k
        · subst hj
          rw [hp.same] at hz
          exact hs.after z hz
        · rw [hp.other hj] at hz
          exact hs.others j hj z hz
      | cons b before =>
        obtain ⟨rfl, rfl⟩ := List.cons.inj hq
        refine Or.inr ⟨hs.before b List.mem_cons_self, fun _ hsame => ?_⟩
        refine Or.inr ⟨k, before, y, after, ⟨hp.same, hs.holds, ?_, hs.after, ?_⟩,
          hsame before y hs.holds hd⟩
        · exact fun z hz => hs.before z (List.mem_cons_of_mem _ hz)
        · intro j hj z hz
          rw [hp.other hj] at hz
          exact hs.others j hj z hz
    · refine Or.inr ⟨hs.others i (Ne.symm hk) x hp.mem, fun hother _ => ?_⟩
      refine Or.inr ⟨k, before, y, after, ⟨?_, hs.holds, hs.before, hs.after, ?_⟩,
        hother before y hs.holds hd⟩
      · rw [hp.other hk, hs.queue]
      · exact fun j hj z hz => hs.others j hj z (hp.sub hz)

end Queues
