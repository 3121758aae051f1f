import Anissagram.Lib.Effect
import Anissagram.Links
import Mathlib.Data.Multiset.Replicate
/-
# `SessionStore` (`anissagram/ViewModels/SessionStore.swift`)

| here | there |
| --- | --- |
| `SessionStore.session`, `downloadedRelationships` | the two published properties (:17, :18); `didChange` only notifies views |
| `Effect Call`, `Effect Request` | what one run of a method hands to Firebase, in order, and where it traps (`as!` on `nil` or another type, `!`, a literal with duplicate keys, an exception of the SDK) |
| `AuthUser`                      | `authResult!.user` |
| `decodeUser`                    | the casts that `signIn` (:68-74) and `setupUser` (:109-115) share |
| `LinkOp`                        | a link operation with its arguments; `newUUID` is the drawn `UUID().uuidString` |

The dictionaries of a user are reference types that the operations change in place
(`SessionStore.mutate`), after the matching `DatabaseManager` call.
-/

namespace Anissagram

open PathTree NSMutableDictionary

/-- One memory: its `id`, `type` and `value`. -/
abbrev Block := List (String × String)

structure AuthUser where
  uid : String
  email : String
  displayName : Option String

structure SessionStore where
  session : Option User
  downloadedRelationships : String → Option (List Block)

/-- What the app hands to Firebase. -/
inductive Request where
  | call (c : Call)
  /-- `Messaging.messaging().token { … }` on behalf of a user name. -/
  | token (userName : String)

/-- Run a method of `DatabaseManager`. -/
def Call.send (c : Call) : Effect Call Unit :=
  if c.write.isSome then Effect.issue c else Effect.trap

/-- `String.loading` (`Constants.swift:21`). -/
def loading : String := "loading..."

namespace SessionStore

/-- The store of a process that has just started. -/
def initial : SessionStore := ⟨none, fun _ => none⟩

/-- `createUserNames` (:20); the keys come in no particular order. -/
def createUserNames (s : SessionStore) : Multiset String :=
  match s.session with
  | some user => user.relationships.keys.val
  | none => Multiset.replicate 25 loading

/-- An in-place change of the session's user. -/
def mutate (s : SessionStore) (f : Field) (name : String) (value : Option String) : SessionStore :=
  { s with session := s.session.map fun user => user.mutate f name value }

/-! ## Signing in and out -/

/-- The user `signUp` (:37) builds for a new account. -/
def newUser (auth : AuthUser) (userName firstName lastName newUUID : String) : User where
  uid := auth.uid
  email := auth.email
  displayName := auth.displayName
  userName := userName
  firstName := firstName
  lastName := lastName
  relationships := .dictionary [(userName, .string newUUID)]
  requests := Tree.empty
  pending := Tree.empty

/-- The completion of `Auth.auth().createUser` in `signUp` (:31). -/
def signUp (s : SessionStore) (authResult : Option AuthUser)
    (userName firstName lastName newUUID : String) : Effect Request SessionStore :=
  match authResult with
  | none => pure s
  | some auth =>
    let user := newUser auth userName firstName lastName newUUID
    if (Call.insertUser user).write.isSome then
      ⟨[.call (.insertUser user), .token userName], some { s with session := some user }⟩
    else Effect.trap

/-- The argument of the completion handler of `retrieveUserByUsername`
(`DatabaseManager.swift:75-80`): `(value, false)` or `(nil, true)`. -/
def retrieved (snapshot : Node) : Option Node × Bool :=
  match snapshot.asDictionary? with
  | some value => (some value, false)
  | none => (none, true)

/-- The user a looked-up node describes; `none` where a forced cast traps. -/
def decodeUser (auth : AuthUser) (userName : String) (userObject : Option Node) : Option User := do
  let value ← userObject
  let firstName ← (object value "first_name").asString?
  let lastName ← (object value "last_name").asString?
  let relationships ← (object value "relationships").asDictionary?
  let requests := (object value "requests").asDictionary?.getD Tree.empty
  let pending := (object value "pending").asDictionary?.getD Tree.empty
  some {
    uid := auth.uid
    email := auth.email
    displayName := auth.displayName
    userName := userName
    firstName := firstName
    lastName := lastName
    relationships := relationships
    requests := requests
    pending := pending }

/-- How the handlers cast the three dictionaries: `as!` for the first, `as? … ?? [:]` for the
others. -/
def exported : Field → Node → NSMutableDictionary
  | .relationships, n => n
  | _, n => n.asDictionary?.getD Tree.empty

/-- The cast keeps a dictionary and takes anything else for no entries. -/
theorem exported_cases (f : Field) (n : Node) : exported f n = n ∨ exported f n = Tree.empty := by
  have hcast : n.asDictionary?.getD Tree.empty = n ∨ n.asDictionary?.getD Tree.empty = Tree.empty := by
    cases hd : n.asDictionary? with
    | none => exact Or.inr rfl
    | some d => exact Or.inl (Node.asDictionary?_eq_some hd)
  cases f with
  | relationships => exact Or.inl rfl
  | pending => exact hcast
  | requests => exact hcast

/-- What a successful decode says about the user and its node. -/
theorem decodeUser_spec {auth : AuthUser} {userName : String} {value : Node} {user : User}
    (h : decodeUser auth userName (some value) = some user) :
    user.uid = auth.uid ∧ user.userName = userName ∧
    (∀ f, user.dict f = exported f (object value f.key)) ∧
    (object value "first_name").asString?.isSome ∧ user.email = auth.email := by
  simp only [decodeUser, Option.bind_eq_bind, Option.bind_some, Option.bind_eq_some_iff,
    Option.some.injEq] at h
  obtain ⟨_, hfirst, _, -, relationships, hr, rfl⟩ := h
  refine ⟨rfl, rfl, fun f => ?_, by rw [hfirst]; rfl, rfl⟩
  cases f with
  | relationships => exact Node.asDictionary?_eq_some hr
  | pending => rfl
  | requests => rfl

/-- The handler `signIn` passes to `retrieveUserByUsername` (:64): the casts come first. -/
def signInCompletion (s : SessionStore) (auth : AuthUser) (userName : String)
    (userObject : Option Node) (error : Bool) : Effect Request SessionStore := do
  let user ← Effect.force (decodeUser auth userName userObject)
  if error then pure s
  else ⟨[.token user.userName], some { s with session := some user }⟩

/-- The handler `setupUser` passes to `retrieveUserByUsername` (:104). -/
def setupUserCompletion (s : SessionStore) (auth : AuthUser) (userName : String)
    (userObject : Option Node) (error : Bool) : Effect Request SessionStore :=
  if error then pure s
  else do
    let user ← Effect.force (decodeUser auth userName userObject)
    pure { s with session := some user }

/-- `signOut` (:133); `signedOut` is whether `Auth.auth().signOut()` went through. -/
def signOut (s : SessionStore) (signedOut : Bool) : SessionStore :=
  if signedOut then { s with session := none } else s

/-! ## Link operations -/

/-- `self.session?.<field>[name] != nil`. -/
def holds (s : SessionStore) (f : Field) (name : String) : Prop :=
  ∃ user ∈ s.session, object (user.dict f) name ≠ Tree.empty

instance (s : SessionStore) (f : Field) (name : String) : Decidable (s.holds f name) :=
  inferInstanceAs (Decidable (∃ user ∈ s.session, object (user.dict f) name ≠ Tree.empty))

def isInRelationship (s : SessionStore) (name : String) : Prop := s.holds .relationships name
def isPendingRelationship (s : SessionStore) (name : String) : Prop := s.holds .pending name
def isRequestedRelationship (s : SessionStore) (name : String) : Prop := s.holds .requests name

instance (s : SessionStore) (name : String) : Decidable (s.isInRelationship name) :=
  inferInstanceAs (Decidable (s.holds _ _))
instance (s : SessionStore) (name : String) : Decidable (s.isPendingRelationship name) :=
  inferInstanceAs (Decidable (s.holds _ _))
instance (s : SessionStore) (name : String) : Decidable (s.isRequestedRelationship name) :=
  inferInstanceAs (Decidable (s.holds _ _))

/-- `addRelationShip(with:newUUID:)` (:161). -/
def addRelationShip (s : SessionStore) (name newUUID : String) : Effect Call SessionStore :=
  match s.session with
  | none => pure s
  | some user => do
    (Call.addRelationship user.userName name newUUID).send
    pure (s.mutate .relationships name (some newUUID))

/-- `deleteRelationShip(with:)` (:168). -/
def deleteRelationShip (s : SessionStore) (name : String) : Effect Call SessionStore :=
  match s.session with
  | none => pure s
  | some user => do
    let relationshipUUID ← Effect.force (object user.relationships name).asString?
    (Call.deleteRelationship user.userName name relationshipUUID).send
    pure (s.mutate .relationships name none)

/-- `addPending(with:)` (:175). -/
def addPending (s : SessionStore) (name newUUID : String) : Effect Call SessionStore :=
  match s.session with
  | none => pure s
  | some user => do
    (Call.addPending user.userName name newUUID).send
    pure (s.mutate .pending name (some newUUID))

/-- `deletePending(with:)` (:183). -/
def deletePending (s : SessionStore) (name : String) : Effect Call SessionStore :=
  match s.session with
  | none => pure s
  | some user => do
    (Call.removePending user.userName name).send
    pure (s.mutate .pending name none)

/-- `acceptRequest(from:)` (:191): the request is removed before its id is read. -/
def acceptRequest (s : SessionStore) (name : String) : Effect Call SessionStore :=
  match s.session with
  | none => pure s
  | some user => do
    (Call.removeRequest user.userName name).send
    let newUUID ← Effect.force (object user.requests name).asString?
    let s ← s.addRelationShip name newUUID
    pure (s.mutate .requests name none)

/-- `declineRequest(from:)` (:201). -/
def declineRequest (s : SessionStore) (name : String) : Effect Call SessionStore :=
  match s.session with
  | none => pure s
  | some user => do
    (Call.removeRequest user.userName name).send
    pure (s.mutate .requests name none)

/-- `addBlock(with:update:)` (:208). -/
def addBlock (s : SessionStore) (name : String) (update : Block) : SessionStore :=
  match s.session with
  | none => s
  | some _ => { s with
      downloadedRelationships := fun n =>
        if n = name then some ((s.downloadedRelationships name).getD [] ++ [update])
        else s.downloadedRelationships n }

end SessionStore

inductive LinkOp where
  | addRelationShip (name newUUID : String)
  | deleteRelationShip (name : String)
  | addPending (name newUUID : String)
  | deletePending (name : String)
  | acceptRequest (name : String)
  | declineRequest (name : String)
deriving DecidableEq, Repr

namespace LinkOp

def run (s : SessionStore) : LinkOp → Effect Call SessionStore
  | addRelationShip name newUUID => s.addRelationShip name newUUID
  | deleteRelationShip name => s.deleteRelationShip name
  | addPending name newUUID => s.addPending name newUUID
  | deletePending name => s.deletePending name
  | acceptRequest name => s.acceptRequest name
  | declineRequest name => s.declineRequest name

def name : LinkOp → String
  | addRelationShip name _ | deleteRelationShip name | addPending name _ | deletePending name
  | acceptRequest name | declineRequest name => name

/-- The `UUID()` an operation draws. -/
def uuid? : LinkOp → Option String
  | addRelationShip _ newUUID | addPending _ newUUID => some newUUID
  | _ => none

/-- The id the entry of a dictionary holds, if `as! String` finds one there. -/
def idAt (user : User) (f : Field) (name : String) : Option String :=
  (object (user.dict f) name).asString?

/-- The calls of an operation that is not stopped by a call. -/
def calls (user : User) : LinkOp → List Call
  | addRelationShip name newUUID => [.addRelationship user.userName name newUUID]
  | deleteRelationShip name =>
    ((idAt user .relationships name).map (Call.deleteRelationship user.userName name)).toList
  | addPending name newUUID => [.addPending user.userName name newUUID]
  | deletePending name => [.removePending user.userName name]
  | acceptRequest name =>
    .removeRequest user.userName name ::
      ((idAt user .requests name).map (Call.addRelationship user.userName name)).toList
  | declineRequest name => [.removeRequest user.userName name]

/-- The user after the in-place changes of an operation that runs to its end. -/
def localEffect (user : User) : LinkOp → User
  | addRelationShip name newUUID => user.mutate .relationships name (some newUUID)
  | deleteRelationShip name => user.mutate .relationships name none
  | addPending name newUUID => user.mutate .pending name (some newUUID)
  | deletePending name => user.mutate .pending name none
  | acceptRequest name =>
    (user.mutate .relationships name (idAt user .requests name)).mutate .requests name none
  | declineRequest name => user.mutate .requests name none

/-- The forced cast of an operation finds a string. -/
def CastOk (user : User) : LinkOp → Prop
  | deleteRelationShip name => (idAt user .relationships name).isSome
  | acceptRequest name => (idAt user .requests name).isSome
  | _ => True

end LinkOp

/-! ## What an operation issues and changes -/

theorem Call.send_bind {α : Type} (c : Call) (k : Unit → Effect Call α) :
    (c.send >>= k) =
      if c.write.isSome then ⟨c :: (k ⟨⟩).issued, (k ⟨⟩).value⟩ else Effect.trap := by
  unfold Call.send
  split
  · exact Effect.bind_of_some rfl
  · rfl

theorem Call.send_issued (c : Call) : c.send.issued = if c.write.isSome then [c] else [] := by
  unfold Call.send
  split <;> rfl

/-- **One operation.** Its calls are handed over in order until one traps; an operation that runs
to its end has issued them all and changed the user in place. -/
theorem LinkOp.run_spec (op : LinkOp) {s : SessionStore} {user : User} (hs : s.session = some user) :
    (∀ c ∈ (op.run s).issued, c.write.isSome) ∧
    (op.run s).issued <+: op.calls user ∧
    ∀ s' ∈ (op.run s).value, op.CastOk user ∧ (op.run s).issued = op.calls user ∧
      s' = { s with session := some (op.localEffect user) } := by
  cases op with
  | deleteRelationShip name =>
    simp only [run, SessionStore.deleteRelationShip, hs, calls, localEffect, CastOk, idAt, User.dict]
    cases (object user.relationships name).asString? with
    | none => simp
    | some id =>
      by_cases hw : (Call.deleteRelationship user.userName name id).write.isSome <;>
        simp [Call.send_bind, hw, SessionStore.mutate, hs]
  | acceptRequest name =>
    simp only [run, SessionStore.acceptRequest, SessionStore.addRelationShip, hs, calls, localEffect,
      CastOk, idAt, User.dict]
    by_cases hr : (Call.removeRequest user.userName name).write.isSome
    · cases (object user.requests name).asString? with
      | none => simp [Call.send_bind, hr]
      | some id =>
        by_cases hw : (Call.addRelationship user.userName name id).write.isSome
        · simp [Call.send_bind, hr, hw, Effect.bind_of_some, SessionStore.mutate, hs]
        · simp [Call.send_bind, hr, hw]
    · simp [Call.send_bind, hr]
  | addRelationShip name id =>
    simp only [run, SessionStore.addRelationShip, hs, calls, localEffect, CastOk]
    by_cases hw : (Call.addRelationship user.userName name id).write.isSome <;>
      simp [Call.send_bind, hw, SessionStore.mutate, hs]
  | addPending name id =>
    simp only [run, SessionStore.addPending, hs, calls, localEffect, CastOk]
    by_cases hw : (Call.addPending user.userName name id).write.isSome <;>
      simp [Call.send_bind, hw, SessionStore.mutate, hs]
  | deletePending name =>
    simp only [run, SessionStore.deletePending, hs, calls, localEffect, CastOk]
    by_cases hw : (Call.removePending user.userName name).write.isSome <;>
      simp [Call.send_bind, hw, SessionStore.mutate, hs]
  | declineRequest name =>
    simp only [run, SessionStore.declineRequest, hs, calls, localEffect, CastOk]
    by_cases hw : (Call.removeRequest user.userName name).write.isSome <;>
      simp [Call.send_bind, hw, SessionStore.mutate, hs]

/-- An operation runs to its end when its cast succeeds and the SDK takes its calls. -/
theorem LinkOp.run_completes (op : LinkOp) {s : SessionStore} {user : User}
    (hs : s.session = some user) (hc : op.CastOk user) (hw : ∀ c ∈ op.calls user, c.write.isSome) :
    op.run s = ⟨op.calls user, some { s with session := some (op.localEffect user) }⟩ := by
  cases op with
  | deleteRelationShip name =>
    obtain ⟨id, hid⟩ := Option.isSome_iff_exists.1 hc
    simp only [idAt, User.dict] at hid
    simp only [calls, idAt, User.dict, hid, Option.map_some, Option.toList_some, List.mem_singleton,
      forall_eq] at hw
    simp [run, SessionStore.deleteRelationShip, hs, hid, Call.send_bind, hw, calls, idAt, User.dict,
      localEffect, SessionStore.mutate]
  | acceptRequest name =>
    obtain ⟨id, hid⟩ := Option.isSome_iff_exists.1 hc
    simp only [idAt, User.dict] at hid
    simp only [calls, idAt, User.dict, hid, Option.map_some, Option.toList_some, List.mem_cons,
      List.not_mem_nil, or_false, forall_eq_or_imp, forall_eq] at hw
    simp [run, SessionStore.acceptRequest, SessionStore.addRelationShip, hs, hid, Call.send_bind, hw,
      Effect.bind_of_some, calls, idAt, User.dict, localEffect, SessionStore.mutate]
  | addRelationShip name id =>
    simp only [calls, List.mem_singleton, forall_eq] at hw
    simp [run, SessionStore.addRelationShip, hs, Call.send_bind, hw, calls, localEffect,
      SessionStore.mutate]
  | addPending name id =>
    simp only [calls, List.mem_singleton, forall_eq] at hw
    simp [run, SessionStore.addPending, hs, Call.send_bind, hw, calls, localEffect,
      SessionStore.mutate]
  | deletePending name =>
    simp only [calls, List.mem_singleton, forall_eq] at hw
    simp [run, SessionStore.deletePending, hs, Call.send_bind, hw, calls, localEffect,
      SessionStore.mutate]
  | declineRequest name =>
    simp only [calls, List.mem_singleton, forall_eq] at hw
    simp [run, SessionStore.declineRequest, hs, Call.send_bind, hw, calls, localEffect,
      SessionStore.mutate]

/-- The calls of an operation are link updates of the caller, about the name it is given. -/
theorem LinkOp.calls_own {op : LinkOp} {user : User} {c : Call} (hc : c ∈ op.calls user) :
    ∃ h, c.own? = some h ∧ h.owner = user.userName ∧ h.name = op.name := by
  cases op with
  | deleteRelationShip name =>
    simp only [calls, Option.mem_toList, Option.map_eq_some_iff] at hc
    obtain ⟨id, -, rfl⟩ := hc
    exact ⟨_, rfl, rfl, rfl⟩
  | acceptRequest name =>
    simp only [calls, List.mem_cons, Option.mem_toList, Option.map_eq_some_iff] at hc
    rcases hc with rfl | ⟨id, -, rfl⟩ <;> exact ⟨_, rfl, rfl, rfl⟩
  | _ =>
    simp only [calls, List.mem_singleton] at hc
    subst hc
    exact ⟨_, rfl, rfl, rfl⟩

theorem LinkOp.localEffect_userName (op : LinkOp) (user : User) :
    (op.localEffect user).userName = user.userName := by
  cases op <;> simp [localEffect]

/-- **The in-place changes are the calls' own halves.** -/
theorem LinkOp.dict_localEffect (op : LinkOp) (user : User) (hc : op.CastOk user) (f : Field) :
    (op.localEffect user).dict f =
      (op.calls user).foldl (fun d c => c.onOwn f d) (user.dict f) := by
  cases op with
  | deleteRelationShip name =>
    obtain ⟨id, hid⟩ := Option.isSome_iff_exists.1 hc
    cases f <;> simp [localEffect, calls, hid, Call.onOwn, Call.own?, User.dict_mutate]
  | acceptRequest name =>
    obtain ⟨id, hid⟩ := Option.isSome_iff_exists.1 hc
    cases f <;> simp [localEffect, calls, hid, Call.onOwn, Call.own?, User.dict_mutate]
  | _ => cases f <;> simp [localEffect, calls, Call.onOwn, Call.own?, User.dict_mutate]

/-- Without a session an operation does nothing. -/
theorem LinkOp.run_none (op : LinkOp) {s : SessionStore} (hs : s.session = none) :
    op.run s = pure s := by
  cases op <;> simp [run, SessionStore.addRelationShip, SessionStore.deleteRelationShip,
    SessionStore.addPending, SessionStore.deletePending, SessionStore.acceptRequest,
    SessionStore.declineRequest, hs]

/-! ## What the session views offer (`Views/MainViews/ExploreView.swift`) -/

/-- The buttons of a `SearchResultItem` row (:280-339); `toggled` is the row's own flag, `newUUID`
the id `addPending` would draw. -/
def SearchResultItem.buttons (s : SessionStore) (toggled : Bool) (name newUUID : String) :
    List LinkOp :=
  if s.isInRelationship name then [.deleteRelationShip name]
  else if s.isPendingRelationship name then [.deletePending name]
  else if s.isRequestedRelationship name then [.acceptRequest name, .declineRequest name]
  else if toggled then [.deletePending name]
  else [.addPending name newUUID]

end Anissagram
