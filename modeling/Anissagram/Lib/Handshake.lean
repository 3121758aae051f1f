import Anissagram.Lib.Runs
import Mathlib.Data.Sym.Sym2
import Mathlib.Logic.Function.Basic

/-!
# Handshakes

Any two parties have one link: none, a request of one of them under an id, or a relationship under
an id. A party adds and unsends its own request, accepts or declines the other's, and deletes the
relationship. Accepting keeps the id. `Links` is the state of all pairs together.

Under `Fresh`, where an id is taken from a supply and never drawn twice, an id belongs to one pair
(`Links.OneOwner`).
-/

namespace Handshake

open Runs

universe u v

variable {U : Type u} {I : Type v}

/-- The link of one pair. -/
inductive Link (U : Type u) (I : Type v) where
  | none
  | requested (who : U) (id : I)
  | related (id : I)
deriving DecidableEq

inductive Move (I : Type v) where
  | add (id : I)
  | unsend
  | accept
  | decline
  | delete
deriving DecidableEq

/-- The id a link is under. -/
def Link.id? : Link U I → Option I
  | .none => Option.none
  | .requested _ id | .related id => some id

/-- The id a move draws. -/
def Move.id? : Move I → Option I
  | .add id => some id
  | _ => none

/-- What a move of `me` makes of the link to `them`. -/
def Link.step [DecidableEq U] (me them : U) : Link U I → Move I → Option (Link U I)
  | .none, .add id => some (.requested me id)
  | .requested who _, .unsend => if who = me then some .none else Option.none
  | .requested who id, .accept => if who = them then some (.related id) else Option.none
  | .requested who _, .decline => if who = them then some .none else Option.none
  | .related _, .delete => some .none
  | _, _ => Option.none

/-- The links of all pairs. A request comes from one of the two, and nobody has a link with himself. -/
structure Links (U : Type u) (I : Type v) where
  link : Sym2 U → Link U I
  asked : ∀ p who id, link p = .requested who id → who ∈ p
  irrefl : ∀ a, link s(a, a) = .none

/-- A move of one party towards another one. -/
structure Action (U : Type u) (I : Type v) where
  me : U
  them : U
  move : Move I
deriving DecidableEq

variable [DecidableEq U]

/-- What a move can be. -/
theorem Link.step_cases {me them : U} {l l' : Link U I} {m : Move I} (h : l.step me them m = some l') :
    (∃ id, m = .add id ∧ l = .none ∧ l' = .requested me id) ∨
    (∃ id, m = .unsend ∧ l = .requested me id ∧ l' = .none) ∨
    (∃ id, m = .accept ∧ l = .requested them id ∧ l' = .related id) ∨
    (∃ id, m = .decline ∧ l = .requested them id ∧ l' = .none) ∨
    (∃ id, m = .delete ∧ l = .related id ∧ l' = .none) := by
  cases l <;> cases m <;> simp only [step, Option.ite_none_right_eq_some, Option.some.injEq,
    reduceCtorEq] at h
  case none.add id => exact Or.inl ⟨id, rfl, rfl, h.symm⟩
  case related.delete id =>
    exact Or.inr (Or.inr (Or.inr (Or.inr ⟨id, rfl, rfl, h.symm⟩)))
  all_goals obtain ⟨rfl, rfl⟩ := h
  case requested.unsend id => exact Or.inr (Or.inl ⟨id, rfl, rfl, rfl⟩)
  case requested.accept id => exact Or.inr (Or.inr (Or.inl ⟨id, rfl, rfl, rfl⟩))
  case requested.decline id => exact Or.inr (Or.inr (Or.inr (Or.inl ⟨id, rfl, rfl, rfl⟩)))

/-- A move that leaves a request leaves the mover's own. -/
theorem Link.step_requested {me them who : U} {l : Link U I} {m : Move I} {id : I}
    (h : l.step me them m = some (.requested who id)) : who = me := by
  rcases Link.step_cases h with ⟨_, -, -, h⟩ | ⟨_, -, -, h⟩ | ⟨_, -, -, h⟩ | ⟨_, -, -, h⟩ | ⟨_, -, -, h⟩ <;>
    cases h
  rfl

/-- The id of a link is the one it had, or the one drawn. -/
theorem Link.step_id {me them : U} {l l' : Link U I} {m : Move I} (h : l.step me them m = some l')
    {id : I} (hid : l'.id? = some id) : l.id? = some id ∨ m.id? = some id := by
  rcases Link.step_cases h with ⟨_, rfl, rfl, rfl⟩ | ⟨_, rfl, rfl, rfl⟩ | ⟨_, rfl, rfl, rfl⟩ |
    ⟨_, rfl, rfl, rfl⟩ | ⟨_, rfl, rfl, rfl⟩
  · exact Or.inr hid
  · cases hid
  · exact Or.inl hid
  · cases hid
  · cases hid

namespace Links

omit [DecidableEq U] in
/-- A request between two parties is of one of them. -/
theorem asked_pair (σ : Links U I) {a b who : U} {id : I} (h : σ.link s(a, b) = .requested who id) :
    who = a ∨ who = b :=
  Sym2.mem_iff.1 (σ.asked _ who id h)

/-- Nobody has a link yet. -/
def empty : Links U I := ⟨fun _ => .none, (fun _ _ _ h => nomatch h), fun _ => rfl⟩

/-- One move: the link of the two changes, and no other one. -/
def step (σ : Links U I) (x : Action U I) : Option (Links U I) :=
  if hne : x.me = x.them then none
  else match h : (σ.link s(x.me, x.them)).step x.me x.them x.move with
    | none => none
    | some l => some {
        link := Function.update σ.link s(x.me, x.them) l
        asked := by
          intro p who id hp
          by_cases hpair : p = s(x.me, x.them)
          · subst hpair
            rw [Function.update_self] at hp
            subst hp
            rw [Link.step_requested h]
            exact Sym2.mem_mk_left _ _
          · rw [Function.update_of_ne hpair] at hp
            exact σ.asked p who id hp
        irrefl := by
          intro a
          rw [Function.update_of_ne, σ.irrefl]
          intro heq
          rw [Sym2.eq_iff] at heq
          rcases heq with ⟨h1, h2⟩ | ⟨h1, h2⟩
          · exact hne (h1.symm.trans h2)
          · exact hne (h2.symm.trans h1) }

theorem step_eq_some {σ σ' : Links U I} {x : Action U I} :
    σ.step x = some σ' ↔
      x.me ≠ x.them ∧ ∃ l, (σ.link s(x.me, x.them)).step x.me x.them x.move = some l ∧
        σ'.link = Function.update σ.link s(x.me, x.them) l := by
  unfold step
  split
  · rename_i heq
    simp [heq]
  rename_i hne
  split
  · rename_i h
    simp [h]
  · rename_i l h
    simp only [Option.some.injEq, ne_eq, hne, not_false_eq_true, true_and, h, exists_eq_left']
    constructor
    · rintro rfl
      rfl
    · intro heq
      cases σ'
      simp only at heq
      subst heq
      rfl

theorem exists_step {σ : Links U I} {x : Action U I} (hne : x.me ≠ x.them) {l : Link U I}
    (h : (σ.link s(x.me, x.them)).step x.me x.them x.move = some l) :
    ∃ σ', σ.step x = some σ' ∧ σ'.link = Function.update σ.link s(x.me, x.them) l := by
  cases hs : σ.step x with
  | some σ' =>
    obtain ⟨-, l', hl, hlink⟩ := step_eq_some.1 hs
    cases h.symm.trans hl
    exact ⟨σ', rfl, hlink⟩
  | none =>
    unfold step at hs
    rw [dif_neg hne] at hs
    split at hs
    · rename_i hno
      cases hno.symm.trans h
    · cases hs

/-! ## Fresh ids -/

/-- The ids drawn in a run. -/
def drawn (hist : History (Links U I) (Action U I)) : List I := hist.filterMap fun x => x.2.move.id?

omit [DecidableEq U] in
theorem drawn_cons (σ : Links U I) (x : Action U I) (hist : History (Links U I) (Action U I)) :
    drawn ((σ, x) :: hist) = x.move.id?.toList ++ drawn hist := by
  unfold drawn
  cases h : x.move.id? <;> simp [h]

/-- A drawn id comes from the supply and is new. -/
def Fresh (supply : Set I) (hist : History (Links U I) (Action U I)) (_ : Links U I) (x : Action U I) : Prop :=
  ∀ id ∈ x.move.id?, id ∈ supply ∧ id ∉ drawn hist

/-- Links under one id are the same link. -/
def OneOwner (σ : Links U I) : Prop :=
  ∀ p q id, (σ.link p).id? = some id → (σ.link q).id? = some id → p = q

variable {supply : Set I} {hist : History (Links U I) (Action U I)} {σ σ' : Links U I} {x : Action U I}

/-- An id after a move: it was there before under the same pair, or this move of the pair drew it. -/
theorem step_id (h : σ.step x = some σ') {p : Sym2 U} {id : I} (hid : (σ'.link p).id? = some id) :
    (σ.link p).id? = some id ∨ p = s(x.me, x.them) ∧ x.move.id? = some id := by
  obtain ⟨-, l, hl, hlink⟩ := step_eq_some.1 h
  rw [hlink] at hid
  by_cases hp : p = s(x.me, x.them)
  · subst hp
    rw [Function.update_self] at hid
    exact (Link.step_id hl hid).imp_right fun h => ⟨rfl, h⟩
  · rw [Function.update_of_ne hp] at hid
    exact Or.inl hid

/-- The invariant of the runs with fresh ids. -/
structure Owned (supply : Set I) (hist : History (Links U I) (Action U I)) (σ : Links U I) : Prop where
  drawn : ∀ p id, (σ.link p).id? = some id → id ∈ supply ∧ id ∈ drawn hist
  one : σ.OneOwner

theorem Owned.step (h : Owned supply hist σ) (hx : Fresh supply hist σ x) (hs : σ.step x = some σ') :
    Owned supply ((σ, x) :: hist) σ' := by
  refine ⟨fun p id hid => ?_, fun p q id hp hq => ?_⟩
  · rw [drawn_cons, List.mem_append, Option.mem_toList]
    rcases step_id hs hid with hid | ⟨-, hid⟩
    · exact (h.drawn p id hid).imp_right Or.inr
    · exact ⟨(hx id hid).1, Or.inl hid⟩
  · rcases step_id hs hp with hp | ⟨hp, hpid⟩ <;> rcases step_id hs hq with hq | ⟨hq, hqid⟩
    · exact h.one p q id hp hq
    · exact absurd (h.drawn p id hp).2 (hx id hqid).2
    · exact absurd (h.drawn q id hq).2 (hx id hpid).2
    · rw [hp, hq]

/-- **Ids belong to one pair** in every run with fresh ids. -/
theorem owned_of_reach (hr : Reach step (Fresh supply) empty hist σ) : Owned supply hist σ :=
  hr.inv ⟨(fun _ _ h => nomatch h), (fun _ _ _ h => nomatch h)⟩ fun _ _ _ _ _ hi hx hs => hi.step hx hs

end Links

end Handshake
