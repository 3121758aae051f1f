import Anissagram.Rows
/-
# A row on the screen (`Views/MainViews/ExploreView.swift:263`)

| here | there |
| --- | --- |
| `Row.toggled`     | `@State var toggled` of a `SearchResultItem`; it starts as `false` and lives as long as the row is shown |
| `Row.shown`       | the buttons of the last rendering |
| `RowAction.net`   | anything that happens on any device, other rows included |

Only the last branch of the row looks at its flag, and only the button of that branch turns it; all the others
leave it as it is. So a row whose Add was tapped once shows Unsend as soon as the last branch is reached again,
although nothing is pending (`row_offers_iff`, `row_unsends_nothing`).
-/

namespace Anissagram

open PathTree Runs SearchResultItem

variable {ι : Type} [DecidableEq ι]

structure Row where
  toggled : Bool
  shown : List Button
deriving DecidableEq

/-- The devices and the server, and on one device the row of a name, if it is shown. -/
structure RowScreen (ι : Type) where
  net : State ι
  row : Option Row

inductive RowAction (ι : Type) where
  | net (a : Action ι)
  | appear
  | disappear
  | render
  | tap (b : Button) (newUUID : String)

namespace RowScreen

def start (db : Database) : RowScreen ι := ⟨State.start db, none⟩

/-- An action happens and the row becomes `row`; a process that ends takes its row with it. -/
def after (x : RowScreen ι) (c : ι) (a : Action ι) (row : Option Row) : Option (RowScreen ι) :=
  (x.net.step a).map fun s => ⟨s, if x.net.Ends c a then none else row⟩

/-- The row of `name` on device `c`. -/
def step (c : ι) (name : String) (x : RowScreen ι) : RowAction ι → Option (RowScreen ι)
  | .net a => x.after c a x.row
  | .appear => some { x with row := some ⟨false, body (x.net.clients c).store name⟩ }
  | .disappear => some { x with row := none }
  | .render => x.row.map fun row => { x with row := some { row with shown := body (x.net.clients c).store name } }
  | .tap b newUUID => do
    let row ← x.row
    if b ∈ row.shown then
      x.after c (.tap c (b.op row.toggled name newUUID)) (some { row with toggled := b.flip row.toggled })
    else none

end RowScreen

/-- What the buttons show where the row is rendered. -/
def SearchResultItem.labels (s : SessionStore) (toggled : Bool) (name : String) : List String :=
  (body s name).map (Button.label toggled)

/-- The name stands in one of the three dictionaries. -/
def SessionStore.Linked (s : SessionStore) (name : String) : Prop :=
  s.isInRelationship name ∨ s.isPendingRelationship name ∨ s.isRequestedRelationship name

instance (s : SessionStore) (name : String) : Decidable (s.Linked name) := inferInstanceAs (Decidable (_ ∨ _ ∨ _))

/-- A row that is rendered offers what the link state says. -/
structure OffersLinkState (s : SessionStore) (toggled : Bool) (name : String) : Prop where
  delete : "Delete" ∈ labels s toggled name ↔ s.isInRelationship name
  unsend : "Unsend" ∈ labels s toggled name ↔ ¬ s.isInRelationship name ∧ s.isPendingRelationship name
  answer : ∀ image ∈ ["checkmark", "xmark"], image ∈ labels s toggled name ↔
    ¬ s.isInRelationship name ∧ ¬ s.isPendingRelationship name ∧ s.isRequestedRelationship name
  add : "Add" ∈ labels s toggled name ↔ ¬ s.Linked name
  adds : "Add" ∈ labels s toggled name → ∀ newUUID, buttons s toggled name newUUID = [.addPending name newUUID]

/-- How often the button of the last branch was tapped since the row appeared. -/
def flips : History (RowScreen ι) (RowAction ι) → Nat
  | [] => 0
  | (_, .appear) :: _ => 0
  | (_, .tap .toggle _) :: hist => flips hist + 1
  | _ :: hist => flips hist

/-- **The flag decides in the last branch alone.** -/
theorem offersLinkState_iff (s : SessionStore) (toggled : Bool) (name : String) :
    OffersLinkState s toggled name ↔ s.Linked name ∨ toggled = false := by
  by_cases hrel : s.isInRelationship name
  · refine iff_of_true ⟨?_, ?_, ?_, ?_, ?_⟩ (Or.inl (Or.inl hrel)) <;>
      simp [labels, body, hrel, Button.label, SessionStore.Linked]
  by_cases hpend : s.isPendingRelationship name
  · refine iff_of_true ⟨?_, ?_, ?_, ?_, ?_⟩ (Or.inl (Or.inr (Or.inl hpend))) <;>
      simp [labels, body, hrel, hpend, Button.label, SessionStore.Linked]
  by_cases hreq : s.isRequestedRelationship name
  · refine iff_of_true ⟨?_, ?_, ?_, ?_, ?_⟩ (Or.inl (Or.inr (Or.inr hreq))) <;>
      simp [labels, body, hrel, hpend, hreq, Button.label, SessionStore.Linked]
  have hno : ¬ s.Linked name := by simp [SessionStore.Linked, hrel, hpend, hreq]
  cases toggled with
  | false =>
    refine iff_of_true ⟨?_, ?_, ?_, ?_, ?_⟩ (Or.inr rfl) <;>
      simp [labels, body, buttons, hrel, hpend, hreq, hno, Button.label]
  | true =>
    refine iff_of_false (fun h => ?_) (by simp [hno])
    have hunsend := h.unsend
    simp [labels, body, hrel, hpend, hreq, Button.label] at hunsend

/-- The flag is turned by the taps that `flips` counts. -/
theorem Row.toggled_iff {c : ι} {name : String} {db : Database} {hist : History (RowScreen ι) (RowAction ι)}
    {x : RowScreen ι} (hr : Reach (RowScreen.step c name) (fun _ _ _ => True) (RowScreen.start db) hist x) :
    ∀ row ∈ x.row, row.toggled = false ↔ flips hist % 2 = 0 := by
  refine hr.inv (I := fun hist x => ∀ row ∈ x.row, row.toggled = false ↔ flips hist % 2 = 0)
    (fun row hrow => by cases hrow) fun hist x a x' _ ih _ hs => ?_
  have hafter : ∀ {a : Action ι} {row' : Option Row} {n : Nat}, x.after c a row' = some x' →
      (∀ row ∈ row', row.toggled = false ↔ n % 2 = 0) → ∀ row ∈ x'.row, row.toggled = false ↔ n % 2 = 0 := by
    intro a row' n h hrow' row hrow
    obtain ⟨s, -, rfl⟩ := Option.map_eq_some_iff.1 h
    dsimp only at hrow
    split at hrow
    · cases hrow
    · exact hrow' row hrow
  cases a with
  | net a => exact hafter hs ih
  | appear =>
    cases hs
    rintro row ⟨rfl⟩
    simp [flips]
  | disappear =>
    cases hs
    exact fun row hrow => by cases hrow
  | render =>
    obtain ⟨row, hrow, rfl⟩ := Option.map_eq_some_iff.1 hs
    rintro row' ⟨rfl⟩
    exact ih row hrow
  | tap b newUUID =>
    simp only [RowScreen.step, Option.bind_eq_bind, Option.bind_eq_some_iff, Option.ite_none_right_eq_some] at hs
    obtain ⟨row, hrow, -, hs⟩ := hs
    have hold := ih row hrow
    refine hafter hs ?_
    rintro row' ⟨rfl⟩
    cases b with
    | toggle =>
      simp only [Button.flip, flips, Bool.not_eq_false', ← Bool.not_eq_false, hold]
      omega
    | _ => exact hold

/-- **A row offers what the link state says** exactly where the name is linked, or the button of its last branch
was tapped an even number of times since the row appeared; whatever else was tapped, rendered or changed. -/
theorem row_offers_iff {c : ι} {name : String} {db : Database} {hist : History (RowScreen ι) (RowAction ι)}
    {x : RowScreen ι} (hr : Reach (RowScreen.step c name) (fun _ _ _ => True) (RowScreen.start db) hist x) :
    ∀ row ∈ x.row, OffersLinkState (x.net.clients c).store row.toggled name ↔
      (x.net.clients c).store.Linked name ∨ flips hist % 2 = 0 := by
  intro row hrow
  rw [offersLinkState_iff, Row.toggled_iff hr row hrow]

/-- Alice adds Bob in his row, and the row is rendered. -/
def addsBob (c d : ι) : List (RowAction ι) :=
  (bothSignUp c d).map .net ++ [.appear, .tap .toggle "R1", .render]

/-- Then it offers to unsend what is pending. -/
theorem row_offers_unsend :
    ∃ hist x, Reach (RowScreen.step (0 : Fin 2) "bob") (fun _ _ _ => True) (RowScreen.start Tree.empty) hist x ∧
      ∃ row ∈ x.row, row.shown = [.unsend] ∧ OffersLinkState (x.net.clients 0).store row.toggled "bob" := by
  have hplay : (exec (RowScreen.step (0 : Fin 2) "bob") (fun _ _ _ => True) [] (RowScreen.start Tree.empty)
      (addsBob 0 1)).any (fun r => decide ((r.2.net.clients 0).store.Linked "bob" ∧
        ∃ row ∈ r.2.row, row.shown = [.unsend])) = true := by
    decide +kernel
  obtain ⟨hist, x, hr, hlinked, row, hrow, hshown⟩ := exists_reach_of_exec
    (P := fun _ (x : RowScreen (Fin 2)) => (x.net.clients 0).store.Linked "bob" ∧
      ∃ row ∈ x.row, row.shown = [.unsend]) hplay
  exact ⟨hist, x, hr, row, hrow, hshown, (row_offers_iff hr row hrow).2 (Or.inl hlinked)⟩

/-- She takes the request back, and the row offers to unsend it again. -/
theorem row_unsends_nothing :
    ∃ hist x, Reach (RowScreen.step (0 : Fin 2) "bob") (fun _ _ _ => True) (RowScreen.start Tree.empty) hist x ∧
      (∃ user ∈ x.net.session 0, user.userName ≠ "bob") ∧ ¬ (x.net.clients 0).store.isPendingRelationship "bob" ∧
      ∃ row ∈ x.row, "Unsend" ∈ labels (x.net.clients 0).store row.toggled "bob" ∧
        ¬ OffersLinkState (x.net.clients 0).store row.toggled "bob" := by
  have hplay : (exec (RowScreen.step (0 : Fin 2) "bob") (fun _ _ _ => True) [] (RowScreen.start Tree.empty)
      (addsBob 0 1 ++ [.tap .unsend "R2", .render])).any (fun r => decide
        ((∃ user ∈ r.2.net.session 0, user.userName ≠ "bob") ∧ ¬ (r.2.net.clients 0).store.isPendingRelationship "bob" ∧
          ∃ row ∈ r.2.row, "Unsend" ∈ labels (r.2.net.clients 0).store row.toggled "bob")) = true := by
    decide +kernel
  obtain ⟨hist, x, hr, hother, hpend, row, hrow, hlabel⟩ := exists_reach_of_exec
    (P := fun _ (x : RowScreen (Fin 2)) => (∃ user ∈ x.net.session 0, user.userName ≠ "bob") ∧
      ¬ (x.net.clients 0).store.isPendingRelationship "bob" ∧
      ∃ row ∈ x.row, "Unsend" ∈ labels (x.net.clients 0).store row.toggled "bob") hplay
  exact ⟨hist, x, hr, hother, hpend, row, hrow, hlabel, fun h => hpend (h.unsend.1 hlabel).2⟩

end Anissagram
