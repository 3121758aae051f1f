import Anissagram.SignIn
/-
# Asking for attention (`Views/MainViews/LoveView.swift`)

| here | there |
| --- | --- |
| `LoveView.lastConversation` | `@State var lastConversation`: whom Send asks; `String.loading` where the view is new |
| `LoveView.picker`           | the names of `PopRelationshipsView` (:89) in the last rendering, while it is shown |
| `LoveAction.appear`         | `onAppear` (:93); the first one makes the view |
| `LoveAction.close`          | the tab view goes, and `LoveView` with it |

The recipient is a state of the view. `onAppear` and the picker set it, and nothing looks at it again: not when the
session comes, not when a relationship goes, not when Send reads it. `LoveScreen.word` is what an action says about
the recipient being a relationship of the session; what was said last is how it is (`attention_iff`).
-/

namespace Anissagram

open PathTree NSMutableDictionary Runs

/-- Whom a call asks for attention. -/
def Call.sendTo? : Call → Option String
  | .sendNotification _ sendTo _ _ => some sendTo
  | _ => none

structure LoveView where
  lastConversation : String
  numLove : Int
  picker : Option (Multiset String)

namespace LoveView

/-- A view that was just made. -/
def new : LoveView := ⟨loading, 0, none⟩

def appear (v : LoveView) (s : SessionStore) : LoveView :=
  match s.session with
  | some user => { v with lastConversation := user.userName }
  | none => v

/-- `show.toggle()`, by the header or the cross of the picker. -/
def toggleShow (v : LoveView) (s : SessionStore) : LoveView :=
  { v with picker := if v.picker.isSome then none else some s.createUserNames }

def render (v : LoveView) (s : SessionStore) : LoveView :=
  { v with picker := v.picker.map fun _ => s.createUserNames }

/-- The Send button (:36); `newUUID` is the drawn message key. -/
def send (v : LoveView) (s : SessionStore) (newUUID : String) : Effect Call LoveView :=
  match s.session with
  | some user => do
    (Call.sendNotification newUUID v.lastConversation user.userName v.numLove).send
    pure { v with numLove := 0 }
  | none => pure v

end LoveView

variable {ι : Type} [DecidableEq ι]

/-- The devices and the server, and the `LoveView` of one device, if there is one. -/
structure LoveScreen (ι : Type) where
  net : State ι
  view : Option LoveView

inductive LoveAction (ι : Type) where
  | net (a : Action ι)
  | appear
  | close
  | toggleShow
  | render
  /-- A name of the picker is tapped (`PopListView.swift:38`). -/
  | pick (name : String)
  /-- The heart is tapped (:69). -/
  | love
  | send (newUUID : String)

namespace LoveScreen

def start (db : Database) : LoveScreen ι := ⟨State.start db, none⟩

/-- The store that the view of device `c` reads. -/
def store (x : LoveScreen ι) (c : ι) : SessionStore := (x.net.clients c).store

def step (c : ι) (x : LoveScreen ι) : LoveAction ι → Option (LoveScreen ι)
  | .net a => (x.net.step a).map fun s => ⟨s, if x.net.Ends c a then none else x.view⟩
  | .appear => some { x with view := some ((x.view.getD .new).appear (x.store c)) }
  | .close => some { x with view := none }
  | .toggleShow => x.view.map fun v => { x with view := some (v.toggleShow (x.store c)) }
  | .render => x.view.map fun v => { x with view := some (v.render (x.store c)) }
  | .pick name => do
    let v ← x.view
    let names ← v.picker
    if name ∈ names then some { x with view := some { v with lastConversation := name, picker := none } } else none
  | .love => x.view.map fun v => { x with view := some { v with numLove := v.numLove + 1 } }
  | .send newUUID => do
    let v ← x.view
    let k := x.net.clients c
    let sent := v.send k.store newUUID
    some ⟨x.net.setClient c (k.finish (Effect.mapIssued .call do let _ ← sent; pure k.store)), sent.value⟩

end LoveScreen

/-- What Send would ask now goes to a key of the relationships of the session that sends it. -/
def AsksRelationships (s : SessionStore) (v : LoveView) (newUUID : String) : Prop :=
  ∀ call ∈ (v.send s newUUID).issued, ∀ sendTo ∈ call.sendTo?, ∃ user ∈ s.session, sendTo ∈ user.relationships.keys

instance (s : SessionStore) (v : LoveView) (newUUID : String) : Decidable (AsksRelationships s v newUUID) :=
  inferInstanceAs (Decidable (∀ call ∈ (v.send s newUUID).issued, ∀ sendTo ∈ call.sendTo?,
    ∃ user ∈ s.session, sendTo ∈ user.relationships.keys))

/-- What an operation says about a relationship with `name`. -/
def LinkOp.word (name : String) : LinkOp → Option Bool
  | addRelationShip n _ | acceptRequest n => if n = name then some true else none
  | deleteRelationShip n => if n = name then some false else none
  | addPending _ _ | deletePending _ | declineRequest _ => none

/-- What an action says about `name` being a relationship of the session of device `c`. -/
def State.word (s : State ι) (c : ι) (name : String) : Action ι → Option Bool
  | .tap c' op => if c' = c then op.word name else none
  | a => (s.sets c a).map fun user => decide (name ∈ user.relationships.keys)

/-- What an action says about the recipient. -/
def LoveScreen.word (c : ι) (x : LoveScreen ι) : LoveAction ι → Option Bool
  | .net a => x.view.bind fun v => x.net.word c v.lastConversation a
  | .appear =>
    match x.net.session c with
    | some user => some (decide (user.userName ∈ user.relationships.keys))
    | none => if x.view.isSome then none else some false
  | .pick name => some (decide (∃ user ∈ x.net.session c, name ∈ user.relationships.keys))
  | .close | .toggleShow | .render | .love | .send _ => none

/-! ## One Send -/

/-- Send leaves the recipient as it is. -/
theorem LoveView.send_value {v v' : LoveView} {s : SessionStore} {newUUID : String}
    (h : (v.send s newUUID).value = some v') : v'.lastConversation = v.lastConversation := by
  unfold send at h
  split at h
  · rw [Call.send_bind] at h
    split at h
    · cases h
      rfl
    · cases h
  · cases h
    rfl

/-- With a session, and only then, Send asks the recipient. -/
theorem LoveView.send_issued (v : LoveView) (s : SessionStore) {newUUID : String} (hid : isValidKey newUUID) :
    (v.send s newUUID).issued = (s.session.map fun user =>
      Call.sendNotification newUUID v.lastConversation user.userName v.numLove).toList := by
  unfold send
  cases s.session with
  | none => rfl
  | some user =>
    have hw : (Call.sendNotification newUUID v.lastConversation user.userName v.numLove).write.isSome := by
      simp [Call.write, DatabaseManager.sendNotification, child_of_isValidKey hid]
    simp [Call.send_bind, hw]

/-! ## What an action makes of a relationship -/

section
variable {c : ι} {s s' : State ι} {a : Action ι} {name : String} {b : Bool}

theorem LinkOp.word_localEffect {op : LinkOp} {user : User} (hc : op.CastOk user)
    (hb : name ∈ user.relationships.keys ↔ b = true) :
    name ∈ (op.localEffect user).relationships.keys ↔ (op.word name).getD b = true := by
  have hstore : ∀ {n : String} {value : Option String}, name ∈ (store user.relationships n value).keys ↔
      (if n = name then value.isSome else b) = true := by
    intro n value
    by_cases hn : n = name
    · subst hn
      rw [if_pos rfl, Tree.mem_keys, ← object, object_store_self]
      cases value <;> simp [entryNode, Node.string_ne_empty]
    · rw [if_neg hn, ← hb, Tree.mem_keys, Tree.mem_keys, ← object, ← object, object_store, if_neg (Ne.symm hn)]
  cases op with
  | addRelationShip n id =>
    refine hstore.trans ?_
    by_cases hn : n = name <;> simp [word, hn]
  | deleteRelationShip n =>
    refine hstore.trans ?_
    by_cases hn : n = name <;> simp [word, hn]
  | acceptRequest n =>
    refine hstore.trans ?_
    rw [show (idAt user .requests n).isSome = true from hc]
    by_cases hn : n = name <;> simp [word, hn]
  | addPending n id => exact hb
  | deletePending n => exact hb
  | declineRequest n => exact hb

theorem State.session_tap {op : LinkOp} (hs : s.step (.tap c op) = some s') {user' : User} (hu : user' ∈ s'.session c) :
    ∃ user ∈ s.session c, op.CastOk user ∧ user' = op.localEffect user := by
  cases hs
  rw [session_setClient, if_pos rfl, Client.finish_store, Effect.mapIssued_value] at hu
  cases hsession : (s.clients c).store.session with
  | none =>
    rw [op.run_none hsession] at hu
    exact absurd hu (by simp [hsession])
  | some user =>
    cases hv : (op.run (s.clients c).store).value with
    | none =>
      rw [hv] at hu
      cases hu
    | some store =>
      obtain ⟨hc, -, rfl⟩ := (op.run_spec hsession).2.2 store hv
      rw [hv] at hu
      cases hu
      exact ⟨user, hsession, hc, rfl⟩

/-- **One step**: where the word of an action is known, it is known who is a relationship after it. -/
theorem State.word_step (hs : s.step a = some s')
    (hb : ∀ user ∈ s.session c, name ∈ user.relationships.keys ↔ b = true) :
    ∀ user ∈ s'.session c, name ∈ user.relationships.keys ↔ (s.word c name a).getD b = true := by
  intro user hu
  have hset : s.word c name a = ((s.sets c a).map fun user => decide (name ∈ user.relationships.keys)) →
      (name ∈ user.relationships.keys ↔ (s.word c name a).getD b = true) := by
    intro hw
    rw [hw]
    rcases Option.or_eq_some_iff.1 (State.session_step hs hu) with hset | ⟨hset, hkept⟩
    · simp [hset]
    · rw [hset]
      exact hb user hkept
  cases a with
  | tap c' op =>
    by_cases hc : c' = c
    · subst hc
      obtain ⟨user₀, hu₀, hcast, rfl⟩ := State.session_tap hs hu
      rw [word, if_pos rfl]
      exact op.word_localEffect hcast (hb user₀ hu₀)
    · rw [State.session_step_other hs fun h => hc (Option.some.inj h)] at hu
      rw [word, if_neg hc]
      exact hb user hu
  | _ => exact hset rfl

end

/-! ## Every run -/

section
variable {c : ι} {x x' : LoveScreen ι} {a : LoveAction ι} {b : Bool}

/-- Whether the recipient is a relationship of the session, if there is a session. -/
def LoveScreen.Standing (c : ι) (x : LoveScreen ι) (b : Bool) : Prop :=
  ∀ v ∈ x.view, ∀ user ∈ x.net.session c, v.lastConversation ∈ user.relationships.keys ↔ b = true

theorem LoveScreen.Standing.step (h : x.Standing c b) (hs : x.step c a = some x') :
    x'.Standing c ((x.word c a).getD b) := by
  -- an action that leaves the recipient as it is, and the session
  have hview : ∀ {v v' : LoveView}, x.view = some v → v'.lastConversation = v.lastConversation →
      LoveScreen.Standing c { x with view := some v' } b := by
    rintro v v' hv hsame _ ⟨rfl⟩ user hu
    rw [hsame]
    exact h v hv user hu
  cases a with
  | net a =>
    obtain ⟨s', hstep, rfl⟩ := Option.map_eq_some_iff.1 hs
    intro v hv
    have hv : x.view = some v := (Option.ite_none_left_eq_some.1 hv).2
    rw [word, hv, Option.bind_some]
    exact State.word_step hstep (h v hv)
  | appear =>
    cases hs
    cases hsession : x.net.session c with
    | some user =>
      rintro v ⟨rfl⟩ user' hu'
      cases hsession.symm.trans hu'
      have hstore : (x.store c).session = some user := hsession
      simp [word, LoveView.appear, hsession, hstore]
    | none =>
      rintro v - user hu
      cases hsession.symm.trans hu
  | close =>
    cases hs
    rintro v ⟨⟩
  | toggleShow =>
    obtain ⟨v, hv, rfl⟩ := Option.map_eq_some_iff.1 hs
    exact hview hv rfl
  | render =>
    obtain ⟨v, hv, rfl⟩ := Option.map_eq_some_iff.1 hs
    exact hview hv rfl
  | pick name =>
    simp only [LoveScreen.step, Option.bind_eq_bind, Option.bind_eq_some_iff, Option.ite_none_right_eq_some,
      Option.some.injEq] at hs
    obtain ⟨v, hv, names, -, -, rfl⟩ := hs
    rintro _ ⟨rfl⟩ user hu
    have hu : x.net.session c = some user := hu
    simp [word, hu]
  | love =>
    obtain ⟨v, hv, rfl⟩ := Option.map_eq_some_iff.1 hs
    exact hview hv rfl
  | send newUUID =>
    simp only [LoveScreen.step, Option.bind_eq_bind, Option.bind_eq_some_iff, Option.some.injEq] at hs
    obtain ⟨v, hv, rfl⟩ := hs
    intro v' hv' user hu
    rw [LoveView.send_value hv']
    refine h v hv user ?_
    -- the process goes on with the store it had
    rw [State.session_setClient, if_pos rfl, Client.finish_store, Effect.mapIssued_value,
      Effect.bind_of_some hv'] at hu
    exact hu

end

/-- **Attention is asked of relationships** exactly when there is no session, so that nothing is sent, or what was said
last about the recipient was in its favour; in every state of every run. -/
theorem attention_iff {c : ι} {db : Database} {hist : History (LoveScreen ι) (LoveAction ι)} {x : LoveScreen ι}
    (hr : Reach (LoveScreen.step c) (fun _ _ _ => True) (LoveScreen.start db) hist x) {newUUID : String}
    (hid : isValidKey newUUID) :
    ∀ v ∈ x.view, AsksRelationships (x.store c) v newUUID ↔
      x.net.session c = none ∨ lastWord (LoveScreen.word c) hist = true := by
  have hstanding : x.Standing c (lastWord (LoveScreen.word c) hist) :=
    hr.lastWord (P := fun x b => x.Standing c b) (by rintro v ⟨⟩) fun _ _ _ _ h hs => h.step hs
  intro v hv
  rw [AsksRelationships, LoveView.send_issued v _ hid]
  cases hsession : x.net.session c with
  | none =>
    have hstore : (x.store c).session = none := hsession
    simp [hstore]
  | some user =>
    have hstore : (x.store c).session = some user := hsession
    rw [← hstanding v hv user hsession]
    simp [hstore, Call.sendTo?]

/-- Alice has signed up. -/
def aliceSignsUp (c : ι) : List (LoveAction ι) :=
  [Action.signUp c (some alice.auth) "alice" "Alice" "Liddell" "A0", .apply c].map .net

/-- She adds Bob while the picker is shown, and picks him when it is shown again. -/
theorem attention_bob :
    ∃ hist x, Reach (LoveScreen.step (0 : Fin 2)) (fun _ _ _ => True) (LoveScreen.start Tree.empty) hist x ∧
      ∃ v ∈ x.view, v.lastConversation = "bob" ∧ AsksRelationships (x.store 0) v "M1" := by
  have hplay : (exec (LoveScreen.step (0 : Fin 2)) (fun _ _ _ => True) [] (LoveScreen.start Tree.empty)
      (aliceSignsUp 0 ++ [.appear, .toggleShow, .net (.tap 0 (.addRelationShip "bob" "R1")), .render, .pick "bob", .love])).any
      (fun r => decide ((∃ v ∈ r.2.view, v.lastConversation = "bob") ∧
        lastWord (LoveScreen.word (0 : Fin 2)) r.1 = true)) = true := by
    decide +kernel
  obtain ⟨hist, x, hr, ⟨v, hv, hbob⟩, hword⟩ := exists_reach_of_exec
    (P := fun hist (x : LoveScreen (Fin 2)) => (∃ v ∈ x.view, v.lastConversation = "bob") ∧
      lastWord (LoveScreen.word (0 : Fin 2)) hist = true) hplay
  exact ⟨hist, x, hr, v, hv, hbob, (attention_iff hr (by decide) v hv).2 (Or.inr hword)⟩

/-- She starts the app again and looks at the view before her session is there: Send asks the placeholder. -/
theorem asks_placeholder :
    ∃ hist x, Reach (LoveScreen.step (0 : Fin 2)) (fun _ _ _ => True) (LoveScreen.start Tree.empty) hist x ∧
      ∃ v ∈ x.view, v.lastConversation = loading ∧ (x.net.session 0).isSome ∧
        ¬ AsksRelationships (x.store 0) v "M1" := by
  have hplay : (exec (LoveScreen.step (0 : Fin 2)) (fun _ _ _ => True) [] (LoveScreen.start Tree.empty)
      (aliceSignsUp 0 ++ [.net (.kill 0 0), .net (.setupUser 0 alice.auth "alice"), .appear, .net (.deliver 0 0)])).any
      (fun r => decide (∃ v ∈ r.2.view, v.lastConversation = loading ∧ (r.2.net.session 0).isSome ∧
        ¬ AsksRelationships (r.2.store 0) v "M1")) = true := by
    decide +kernel
  exact exists_reach_of_exec (P := fun _ (x : LoveScreen (Fin 2)) => ∃ v ∈ x.view, v.lastConversation = loading ∧
    (x.net.session 0).isSome ∧ ¬ AsksRelationships (x.store 0) v "M1") hplay

end Anissagram
