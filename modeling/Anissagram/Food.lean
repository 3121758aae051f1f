import Anissagram.Lib.Runs
import Mathlib.Data.List.Nodup
/-
# The restaurant choices (`Views/MainViews/FoodView.swift`)

| here | there |
| --- | --- |
| `RestauantItem`, `FoodView` | the item (:10) and the state of the view (:21-27) |
| `FoodAction.generateDinner` | `choices.randomElement()!` (:70); the index is the random one |
| `FoodAction.tapChoice`, `tapDinner` | `onTapGesture` of the `ChoiceView`s of the grid (:40) and of the dinner (:79) |

An item is identified by its id (`Identifiable`), and a new one takes the number of choices for it (:57).
That number is taken again once an earlier choice has gone. Names are taken in one normal form, so that `=`
is the equality of Swift's strings.
-/

namespace Anissagram

open Runs

structure RestauantItem where
  id : Nat
  name : String
deriving DecidableEq, Repr

structure FoodView where
  stringToAdd : String
  dinnerDecided : Bool
  dinner : Option RestauantItem
  choices : List RestauantItem
deriving DecidableEq

inductive FoodAction where
  /-- The text field holds `text`. -/
  | type (text : String)
  | addRestaurant
  | generateDinner (i : Nat)
  | tapChoice (i : Nat)
  | tapDinner
deriving DecidableEq

namespace FoodView

def initial : FoodView := ⟨"", false, none, [⟨0, "Manpuku"⟩, ⟨1, "Me ;)"⟩]⟩

/-- `choices.removeAll` in `ChoiceView` (:109). -/
def removeAll (v : FoodView) (name : String) : FoodView :=
  { v with choices := v.choices.filter fun rest => rest.name ≠ name }

/-- `none` where the action is not possible or traps. -/
def step (v : FoodView) : FoodAction → Option FoodView
  | .type text => some { v with stringToAdd := text }
  | .addRestaurant =>
    if v.stringToAdd.length > 0 then
      let newChoice : RestauantItem := ⟨v.choices.length, v.stringToAdd⟩
      some { v with choices := v.choices ++ [newChoice], stringToAdd := "" }
    else some v
  | .generateDinner i => do
    let dinner ← v.choices[i]?
    some { v with dinnerDecided := true, dinner := some dinner }
  | .tapChoice i => do
    let choice ← v.choices[i]?
    some (v.removeAll choice.name)
  | .tapDinner => if v.dinnerDecided then v.dinner.map fun dinner => v.removeAll dinner.name else none

/-- What `Identifiable` asks for. -/
def IdsUnique (v : FoodView) : Prop := (v.choices.map RestauantItem.id).Nodup

instance (v : FoodView) : Decidable v.IdsUnique := inferInstanceAs (Decidable (List.Nodup _))

/-- A restaurant is added only where no choice has the number of choices for its id. -/
def TakesNewId (v : FoodView) : FoodAction → Prop
  | .addRestaurant => v.stringToAdd ≠ "" → ∀ choice ∈ v.choices, choice.id ≠ v.choices.length
  | _ => True

instance (v : FoodView) (a : FoodAction) : Decidable (v.TakesNewId a) :=
  match a with
  | .addRestaurant =>
    inferInstanceAs (Decidable (v.stringToAdd ≠ "" → ∀ choice ∈ v.choices, choice.id ≠ v.choices.length))
  | .type _ | .generateDinner _ | .tapChoice _ | .tapDinner => isTrue trivial

variable {v v' : FoodView}

/-- Choices that go leave the others apart. -/
theorem IdsUnique.removeAll (h : v.IdsUnique) (name : String) : (v.removeAll name).IdsUnique :=
  List.Nodup.sublist (List.filter_sublist.map RestauantItem.id) h

/-- An added restaurant has an id of its own exactly when the number of choices is no id yet. -/
theorem idsUnique_add_iff (h : v.IdsUnique) (name : String) :
    ((v.choices ++ [(⟨v.choices.length, name⟩ : RestauantItem)]).map RestauantItem.id).Nodup ↔
      ∀ choice ∈ v.choices, choice.id ≠ v.choices.length := by
  rw [List.map_append, List.map_singleton, List.nodup_append]
  constructor
  · rintro ⟨-, -, hne⟩ choice hchoice
    exact hne _ (List.mem_map_of_mem hchoice) _ (List.mem_singleton_self _)
  · intro hnew
    refine ⟨h, List.nodup_singleton _, fun x hx y hy => ?_⟩
    obtain ⟨choice, hchoice, rfl⟩ := List.mem_map.1 hx
    rw [List.mem_singleton.1 hy]
    exact hnew choice hchoice

/-- **One action** keeps the ids apart exactly when it takes no used one. -/
theorem IdsUnique.step_iff (h : v.IdsUnique) {a : FoodAction} (hs : v.step a = some v') :
    v'.IdsUnique ↔ v.TakesNewId a := by
  cases a with
  | type text =>
    cases hs
    exact iff_of_true h trivial
  | addRestaurant =>
    simp only [step] at hs
    split at hs
    · rename_i hlength
      have hne : v.stringToAdd ≠ "" := by
        rintro hempty
        rw [hempty] at hlength
        cases hlength
      cases hs
      rw [IdsUnique, idsUnique_add_iff h]
      exact ⟨fun hnew _ => hnew, fun hnew => hnew hne⟩
    · rename_i hlength
      have hempty : v.stringToAdd = "" := by
        rw [← String.length_eq_zero_iff]
        omega
      cases hs
      exact iff_of_true h fun hne => absurd hempty hne
  | generateDinner i =>
    obtain ⟨dinner, -, heq⟩ := Option.bind_eq_some_iff.1 hs
    cases heq
    exact iff_of_true h trivial
  | tapChoice i =>
    obtain ⟨choice, -, heq⟩ := Option.bind_eq_some_iff.1 hs
    cases heq
    exact iff_of_true (h.removeAll _) trivial
  | tapDinner =>
    obtain ⟨dinner, -, rfl⟩ := Option.map_eq_some_iff.1 (Option.ite_none_right_eq_some.1 hs).2
    exact iff_of_true (h.removeAll _) trivial

end FoodView

/-- **The ids stay unique** in every run of the view in which no addition takes an id that is in use, and
the first addition that does makes two of them equal. -/
theorem choice_ids_unique {hist : History FoodView FoodAction} {v : FoodView}
    (hr : Reach FoodView.step (fun _ v a => v.TakesNewId a) FoodView.initial hist v) :
    v.IdsUnique ∧ ∀ a v', v.step a = some v' → (v'.IdsUnique ↔ v.TakesNewId a) := by
  have h : v.IdsUnique :=
    hr.inv (I := fun _ v => v.IdsUnique) (by decide) fun _ _ _ _ _ hi ha hs => (hi.step_iff hs).2 ha
  exact ⟨h, fun a v' hs => h.step_iff hs⟩

/-- A restaurant is added and eaten up again, and another one added. -/
theorem choice_ids_unique_sushi :
    ∃ hist v, Reach FoodView.step (fun _ v a => v.TakesNewId a) FoodView.initial hist v ∧
      v.choices.length = 3 ∧ v.IdsUnique := by
  have hplay : (exec FoodView.step (fun _ v a => v.TakesNewId a) [] FoodView.initial
      [.type "Sushi", .addRestaurant, .tapChoice 2, .type "Pizza", .addRestaurant]).any
      (fun r => decide (r.2.choices.length = 3)) = true := by
    decide +kernel
  obtain ⟨hist, v, hr, hlength⟩ := exists_reach_of_exec
    (P := fun _ (v : FoodView) => v.choices.length = 3) hplay
  exact ⟨hist, v, hr, hlength, (choice_ids_unique hr).1⟩

/-- The first choice goes, and the next restaurant gets the id of the second. -/
theorem choice_ids_clash :
    ∃ hist v, Reach FoodView.step (fun _ _ _ => True) FoodView.initial hist v ∧ ¬ v.IdsUnique := by
  have hplay : (exec FoodView.step (fun _ _ _ => True) [] FoodView.initial
      [.tapChoice 0, .type "Sushi", .addRestaurant]).any (fun r => decide ¬ r.2.IdsUnique) = true := by
    decide +kernel
  exact exists_reach_of_exec (P := fun _ (v : FoodView) => ¬ v.IdsUnique) hplay

end Anissagram
