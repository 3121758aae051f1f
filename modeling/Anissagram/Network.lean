import Anissagram.Lib.Queues
import Anissagram.Lib.Runs
import Anissagram.LinkOps
import Mathlib.Logic.Function.Basic
/-
# Devices and the server

| here | there |
| --- | --- |
| `Observer`       | one `observe(.value)` of `retrieveUserByUsername` (`DatabaseManager.swift:72`) with the handler of `signIn` (`SessionStore.swift:64`) or of `setupUser` (:104); nothing in the app removes it |
| `Observer.events` | the snapshots on their way: the node when the observer was added, then one for each change |
| `Client.tokens`  | token requests under way (`DatabaseManager.swift:55`) |
| `Client.queue`   | updates handed to the SDK and not yet applied by the server, in order |
| `Client.crash`   | the process ends; what it handed over may still reach the server |
| `Action.reload`  | a handler is given any snapshot, however old; only runs that say so contain it |
| `Action.remote`  | a write from outside the app |

One step is one callback, one tap or one update applied by the server. A snapshot shows what the
server holds; that the SDK also shows a device its own waiting updates early is not modelled.
-/

namespace Anissagram

open PathTree NSMutableDictionary

/-- Where a session came from. -/
inductive Entrance where
  | signIn
  | setupUser
deriving DecidableEq, Repr

/-- `users/<userName>`. -/
def userNode (userName : String) : List String := "users" :: pathComponents userName

structure Observer where
  entrance : Entrance
  auth : AuthUser
  userName : String
  /-- The handler has run before: the look-up has had its answer. -/
  answered : Bool
  events : List Node

namespace Observer

/-- `users/<userName>`. -/
def path (o : Observer) : List String := "users" :: pathComponents o.userName

/-- The user the handler makes of a snapshot. -/
def decoded (o : Observer) (snapshot : Node) : Option User :=
  SessionStore.decodeUser o.auth o.userName (SessionStore.retrieved snapshot).1

/-- The handler. -/
def completion (o : Observer) (s : SessionStore) (snapshot : Node) : Effect Request SessionStore :=
  let (userObject, error) := SessionStore.retrieved snapshot
  match o.entrance with
  | .signIn => s.signInCompletion o.auth o.userName userObject error
  | .setupUser => s.setupUserCompletion o.auth o.userName userObject error

/-- The observer when its handler has run; `events` stay on their way. -/
def handled (o : Observer) (events : List Node) : Observer := { o with events := events, answered := true }

/-- A change of the node is an event. -/
def notify (o : Observer) (db db' : Database) : Observer :=
  if db'.sub o.path = db.sub o.path then o else { o with events := o.events ++ [db'.sub o.path] }

end Observer

structure Client where
  store : SessionStore
  observers : List Observer
  tokens : List String
  queue : List Call

def Request.call? : Request → Option Call
  | .call c => some c
  | .token _ => none

def Request.token? : Request → Option String
  | .token userName => some userName
  | .call _ => none

namespace Client

/-- A process that has just started. -/
def idle : Client := ⟨SessionStore.initial, [], [], []⟩

def crash (k : Client) : Client := { idle with queue := k.queue }

/-- Carry out what a method did. -/
def finish (k : Client) (e : Effect Request SessionStore) : Client :=
  let k := { k with
    queue := k.queue ++ e.issued.filterMap Request.call?
    tokens := k.tokens ++ e.issued.filterMap Request.token? }
  match e.value with
  | some store => { k with store := store }
  | none => k.crash

/-- `retrieveUserByUsername` (:72); an invalid name raises an exception. -/
def observe (k : Client) (db : Database) (entrance : Entrance) (auth : AuthUser) (userName : String) :
    Client :=
  match child ["users"] userName with
  | some path => { k with
      observers := k.observers ++ [⟨entrance, auth, userName, false, [db.sub path]⟩] }
  | none => k.crash

def notify (k : Client) (db db' : Database) : Client :=
  { k with observers := k.observers.map fun o => o.notify db db' }

def receive (k : Client) (i : Nat) (o : Observer) : Client :=
  { k with observers := k.observers.set i o }

/-- Some observer of this process watches the node of `userName`. -/
def Observes (k : Client) (userName : String) : Prop := ∃ o ∈ k.observers, o.userName = userName

instance (k : Client) (userName : String) : Decidable (k.Observes userName) :=
  inferInstanceAs (Decidable (∃ o ∈ k.observers, o.userName = userName))

end Client

/-- The server and any number of devices. -/
structure State (ι : Type) where
  db : Database
  clients : ι → Client

inductive Action (ι : Type) where
  | signUp (c : ι) (authResult : Option AuthUser) (userName firstName lastName newUUID : String)
  | signIn (c : ι) (authResult : Option AuthUser) (userName : String)
  | setupUser (c : ι) (auth : AuthUser) (userName : String)
  | signOut (c : ι) (signedOut : Bool)
  | tap (c : ι) (op : LinkOp)
  /-- The answer to the token request at index `i`. -/
  | token (c : ι) (i : Nat) (token : Option String)
  /-- The server applies the oldest waiting update of a device. -/
  | apply (c : ι)
  /-- The oldest event of observer `i` reaches its handler. -/
  | deliver (c : ι) (i : Nat)
  /-- The process is killed when `sent` of its updates are out. -/
  | kill (c : ι) (sent : Nat)
  | reload (c : ι) (o : Observer) (snapshot : Node)
  | remote (w : CompoundWrite)

variable {ι : Type} [DecidableEq ι]

namespace State

def setClient (s : State ι) (c : ι) (k : Client) : State ι :=
  { s with clients := Function.update s.clients c k }

/-- The server applies a write and tells every observer whose node it changed. -/
def commit (s : State ι) (w : CompoundWrite) : State ι :=
  ⟨s.db.update w, fun c => (s.clients c).notify s.db (s.db.update w)⟩

/-- The callback of `uploadDeviceToken` (:57). -/
def tokenCallback (s : State ι) (c : ι) (i : Nat) (userName : String) (token : Option String) : State ι :=
  let k := { s.clients c with tokens := (s.clients c).tokens.eraseIdx i }
  match token with
  | none => s.setClient c k
  | some token =>
    s.setClient c <| k.finish <| Effect.mapIssued .call do
      (Call.uploadDeviceToken userName token).send
      pure k.store

/-- Observer `i`, which is `o`, hands `snapshot` to its handler. -/
def handle (s : State ι) (c : ι) (i : Nat) (o : Observer) (snapshot : Node) (events : List Node) : State ι :=
  let k := (s.clients c).receive i (o.handled events)
  s.setClient c (k.finish (o.completion k.store snapshot))

def step (s : State ι) : Action ι → Option (State ι)
  | .signUp c authResult userName firstName lastName newUUID =>
    let k := s.clients c
    some (s.setClient c (k.finish (k.store.signUp authResult userName firstName lastName newUUID)))
  | .signIn _ none _ => some s
  | .signIn c (some auth) userName =>
    some (s.setClient c ((s.clients c).observe s.db .signIn auth userName))
  | .setupUser c auth userName =>
    some (s.setClient c ((s.clients c).observe s.db .setupUser auth userName))
  | .signOut c signedOut =>
    some (s.setClient c { s.clients c with store := (s.clients c).store.signOut signedOut })
  | .tap c op =>
    let k := s.clients c
    some (s.setClient c (k.finish (Effect.mapIssued .call (op.run k.store))))
  | .token c i token => do
    let userName ← (s.clients c).tokens[i]?
    some (s.tokenCallback c i userName token)
  | .apply c =>
    match (s.clients c).queue with
    | [] => none
    | call :: queue =>
      some ((s.setClient c { s.clients c with queue := queue }).commit (call.write.getD []))
  | .deliver c i => do
    let o ← (s.clients c).observers[i]?
    match o.events with
    | [] => none
    | snapshot :: events => some (s.handle c i o snapshot events)
  | .kill c sent =>
    some (s.setClient c { Client.idle with queue := (s.clients c).queue.take sent })
  | .reload c o snapshot =>
    let k := s.clients c
    some (s.setClient c (k.finish (o.completion k.store snapshot)))
  | .remote w => some (s.commit w)

/-- Nothing is running yet. -/
def start (db : Database) : State ι := ⟨db, fun _ => Client.idle⟩

/-- The updates of device `c` that wait to be applied. -/
def queue (s : State ι) (c : ι) : List Call := (s.clients c).queue

/-- The session of device `c`. -/
def session (s : State ι) (c : ι) : Option User := (s.clients c).store.session

end State

/-! ## Clients -/

namespace Client

variable (k : Client) (e : Effect Request SessionStore)

@[simp] theorem finish_queue :
    (k.finish e).queue = k.queue ++ e.issued.filterMap Request.call? := by
  unfold finish
  cases e.value <;> rfl

@[simp] theorem finish_store : (k.finish e).store = e.value.getD SessionStore.initial := by
  unfold finish
  cases e.value <;> rfl

theorem finish_observers :
    (k.finish e).observers = if e.value.isSome then k.observers else [] := by
  unfold finish
  cases e.value <;> rfl

theorem finish_tokens :
    (k.finish e).tokens =
      if e.value.isSome then k.tokens ++ e.issued.filterMap Request.token? else [] := by
  unfold finish
  cases e.value <;> rfl

theorem observe_cases (db : Database) (entrance : Entrance) (auth : AuthUser) (userName : String) :
    (∃ path, child ["users"] userName = some path ∧
      k.observe db entrance auth userName =
        { k with observers := k.observers ++ [⟨entrance, auth, userName, false, [db.sub path]⟩] }) ∨
    k.observe db entrance auth userName = k.crash := by
  unfold observe
  cases child ["users"] userName with
  | none => exact Or.inr rfl
  | some path => exact Or.inl ⟨path, rfl, rfl⟩

end Client

@[simp] theorem Observer.notify_userName (o : Observer) (db db' : Database) :
    (o.notify db db').userName = o.userName := by
  unfold notify
  split <;> rfl

@[simp] theorem Observer.notify_path (o : Observer) (db db' : Database) : (o.notify db db').path = o.path := by
  rw [path, path, notify_userName]

/-- What comes after a change: the event, unless the node stayed as it was. -/
theorem Observer.notify_events (o : Observer) (db db' : Database) :
    (o.notify db db').events =
      if db'.sub o.path = db.sub o.path then o.events else o.events ++ [db'.sub o.path] := by
  unfold notify
  split <;> rfl

/-- If the last event shows the node, it still does after a change. -/
theorem Observer.notify_last {o : Observer} {db : Database} (h : ∀ n ∈ o.events.getLast?, n = db.sub o.path)
    (db' : Database) : ∀ n ∈ (o.notify db db').events.getLast?, n = db'.sub (o.notify db db').path := by
  rw [notify_path, notify_events]
  split
  · rename_i hsame
    rw [hsame]
    exact h
  · simp

theorem Observer.handled_last {o : Observer} {db : Database} (h : ∀ n ∈ o.events.getLast?, n = db.sub o.path)
    {snapshot : Node} {events : List Node} (he : o.events = snapshot :: events) :
    ∀ n ∈ (o.handled events).events.getLast?, n = db.sub (o.handled events).path := by
  intro n hn
  refine h n ?_
  change n ∈ events.getLast? at hn
  rw [he, List.getLast?_cons, Option.mem_def.1 hn]
  rfl

/-- A decoded user shows the snapshot, which has a first name. -/
theorem Observer.decoded_spec {o : Observer} {snapshot : Node} {user : User}
    (h : o.decoded snapshot = some user) :
    user.uid = o.auth.uid ∧ user.userName = o.userName ∧
    (∀ f, user.dict f = SessionStore.exported f (object snapshot f.key)) ∧
    (object snapshot "first_name").asString?.isSome ∧ user.email = o.auth.email := by
  unfold decoded SessionStore.retrieved at h
  cases hv : snapshot.asDictionary? with
  | none => simp [hv, SessionStore.decodeUser] at h
  | some value =>
    simp only [hv] at h
    obtain rfl := Node.asDictionary?_eq_some hv
    exact SessionStore.decodeUser_spec h

/-- A handler that can decode its node sets the session; the one of `signIn` asks for a token too. -/
theorem Observer.completion_some {o : Observer} {snapshot : Node} {user : User} (h : o.decoded snapshot = some user)
    (s : SessionStore) :
    o.completion s snapshot =
      ⟨if o.entrance = .signIn then [.token o.userName] else [], some { s with session := some user }⟩ := by
  have hname : user.userName = o.userName := (o.decoded_spec h).2.1
  unfold decoded SessionStore.retrieved at h
  cases hn : snapshot.asDictionary? with
  | none => simp [hn, SessionStore.decodeUser] at h
  | some value =>
    simp only [hn] at h
    cases ho : o.entrance with
    | signIn => simp [completion, ho, SessionStore.retrieved, hn, SessionStore.signInCompletion, h, hname]
    | setupUser =>
      simp only [completion, ho, SessionStore.retrieved, hn, SessionStore.setupUserCompletion, h,
        Effect.force_some, Effect.pure_bind]
      rfl

/-- A handler that cannot decode its node traps, except that `setupUser` minds no missing node. -/
theorem Observer.completion_none {o : Observer} {snapshot : Node} (h : o.decoded snapshot = none) (s : SessionStore) :
    o.completion s snapshot =
      if o.entrance = .setupUser ∧ snapshot.asDictionary? = none then pure s else Effect.trap := by
  unfold decoded SessionStore.retrieved at h
  cases hn : snapshot.asDictionary? with
  | none =>
    cases ho : o.entrance <;>
      simp [completion, ho, SessionStore.retrieved, hn, SessionStore.signInCompletion,
        SessionStore.setupUserCompletion, SessionStore.decodeUser]
  | some value =>
    simp only [hn] at h
    cases ho : o.entrance <;>
      simp [completion, ho, SessionStore.retrieved, hn, SessionStore.signInCompletion,
        SessionStore.setupUserCompletion, h]

/-- A handler sets the session to the decoded user, traps, or (`setupUser` at a missing node) does
nothing. It asks for a token at most for its own user, and never writes. -/
theorem Observer.completion_cases (o : Observer) (s : SessionStore) (snapshot : Node) :
    (∃ user tokens, o.decoded snapshot = some user ∧ user.userName = o.userName ∧
      (∀ t ∈ tokens, t = Request.token o.userName) ∧
      o.completion s snapshot = ⟨tokens, some { s with session := some user }⟩) ∨
    (o.decoded snapshot = none ∧ o.completion s snapshot = Effect.trap) ∨
    (o.decoded snapshot = none ∧ snapshot.asDictionary? = none ∧ o.completion s snapshot = pure s) := by
  cases hd : o.decoded snapshot with
  | some user =>
    refine Or.inl ⟨user, _, rfl, (o.decoded_spec hd).2.1, fun t ht => ?_, Observer.completion_some hd s⟩
    split at ht
    · exact List.mem_singleton.1 ht
    · cases ht
  | none =>
    rw [Observer.completion_none hd]
    split
    · rename_i hmissing
      exact Or.inr (Or.inr ⟨rfl, hmissing.2, rfl⟩)
    · exact Or.inr (Or.inl ⟨rfl, rfl⟩)

/-- So a handler hands no update over. -/
theorem Observer.completion_calls (o : Observer) (s : SessionStore) (snapshot : Node) :
    (o.completion s snapshot).issued.filterMap Request.call? = [] := by
  rcases o.completion_cases s snapshot with ⟨user, tokens, -, -, ht, hc⟩ | ⟨-, hc⟩ | ⟨-, -, hc⟩
  · rw [hc, List.filterMap_eq_nil_iff]
    intro t hmem
    rw [ht t hmem]
    rfl
  · rw [hc]
    rfl
  · rw [hc]
    rfl

namespace State

@[simp] theorem setClient_db (s : State ι) (c : ι) (k : Client) : (s.setClient c k).db = s.db := rfl

theorem setClient_clients (s : State ι) (c : ι) (k : Client) (c' : ι) :
    (s.setClient c k).clients c' = if c' = c then k else s.clients c' := by
  simp [setClient, Function.update_apply]

theorem step_token {s s' : State ι} {c : ι} {i : Nat} {token : Option String} :
    s.step (.token c i token) = some s' ↔
      ∃ userName, (s.clients c).tokens[i]? = some userName ∧
        s' = s.tokenCallback c i userName token := by
  simp only [step, Option.bind_eq_bind, Option.bind_eq_some_iff, Option.some.injEq]
  exact exists_congr fun _ => and_congr_right fun _ => eq_comm

theorem step_apply {s s' : State ι} {c : ι} :
    s.step (.apply c) = some s' ↔
      ∃ call queue, (s.clients c).queue = call :: queue ∧
        s' = (s.setClient c { s.clients c with queue := queue }).commit (call.write.getD []) := by
  simp only [step]
  cases (s.clients c).queue <;> simp [eq_comm]

theorem step_deliver {s s' : State ι} {c : ι} {i : Nat} :
    s.step (.deliver c i) = some s' ↔
      ∃ o snapshot events, (s.clients c).observers[i]? = some o ∧ o.events = snapshot :: events ∧
        s' = s.handle c i o snapshot events := by
  simp only [step, Option.bind_eq_bind, Option.bind_eq_some_iff]
  constructor
  · rintro ⟨o, ho, h⟩
    cases he : o.events with
    | nil => simp [he] at h
    | cons snapshot events =>
      simp only [he, Option.some.injEq] at h
      exact ⟨o, snapshot, events, ho, he, h.symm⟩
  · rintro ⟨o, snapshot, events, ho, he, rfl⟩
    exact ⟨o, ho, by simp [he]⟩

/-! ## The waiting updates -/

/-- The updates an action hands over to the SDK. -/
def issues (s : State ι) : Action ι → List Call
  | .signUp c authResult userName firstName lastName newUUID =>
    ((s.clients c).store.signUp authResult userName firstName lastName newUUID).issued.filterMap
      Request.call?
  | .tap c op => (op.run (s.clients c).store).issued
  | .token c i (some token) =>
    ((s.clients c).tokens[i]?.map fun userName =>
      (Call.uploadDeviceToken userName token).send.issued).getD []
  | _ => []

/-- The queue of one device gets longer at its end. -/
def Enqueues (s s' : State ι) (c : ι) (calls : List Call) : Prop :=
  s'.db = s.db ∧ Queues.Push s.queue s'.queue c calls

/-- The oldest waiting update of one device is applied. -/
def Applies (s s' : State ι) (c : ι) (call : Call) (rest : List Call) : Prop :=
  s'.db = s.db.apply call ∧ Queues.Pop s.queue s'.queue c call rest

theorem enqueues_setClient (s : State ι) (c : ι) {k : Client} {calls : List Call}
    (hk : k.queue = s.queue c ++ calls) : s.Enqueues (s.setClient c k) c calls := by
  refine ⟨rfl, fun c' => ?_⟩
  simp only [queue, setClient_clients]
  split
  · exact hk
  · rfl

theorem Enqueues.refl (s : State ι) (c : ι) : s.Enqueues s c [] := by
  refine ⟨rfl, fun c' => ?_⟩
  split
  · rename_i h
    rw [h, List.append_nil]
  · rfl

end State

/-- The device an action happens on. -/
def Action.device : Action ι → Option ι
  | .signUp c _ _ _ _ _ | .signIn c _ _ | .setupUser c _ _ | .signOut c _ | .tap c _ | .token c _ _
  | .apply c | .deliver c _ | .kill c _ | .reload c _ _ => some c
  | .remote _ => none

/-- The process of device `c` ends in an action: it is killed, traps or raises an exception. -/
def State.Ends (s : State ι) (c : ι) : Action ι → Prop
  | .signUp c' authResult userName firstName lastName newUUID =>
    c' = c ∧ ((s.clients c).store.signUp authResult userName firstName lastName newUUID).value.isNone
  | .signIn c' authResult userName => c' = c ∧ authResult.isSome ∧ (child ["users"] userName).isNone
  | .setupUser c' _ userName => c' = c ∧ (child ["users"] userName).isNone
  | .tap c' op => c' = c ∧ (op.run (s.clients c).store).value.isNone
  | .token c' i token => c' = c ∧ ∃ userName ∈ (s.clients c).tokens[i]?, ∃ t ∈ token,
    (Call.uploadDeviceToken userName t).write.isNone
  | .deliver c' i => c' = c ∧ ∃ o ∈ (s.clients c).observers[i]?, ∃ snapshot ∈ o.events.head?,
    (o.completion (s.clients c).store snapshot).value.isNone
  | .kill c' _ => c' = c
  | .reload c' o snapshot => c' = c ∧ (o.completion (s.clients c).store snapshot).value.isNone
  | .signOut _ _ | .apply _ | .remote _ => False

instance (s : State ι) (c : ι) (a : Action ι) : Decidable (s.Ends c a) :=
  match a with
  | .signUp c' authResult userName firstName lastName newUUID => inferInstanceAs (Decidable (c' = c ∧
      ((s.clients c).store.signUp authResult userName firstName lastName newUUID).value.isNone))
  | .signIn c' authResult userName =>
    inferInstanceAs (Decidable (c' = c ∧ authResult.isSome ∧ (child ["users"] userName).isNone))
  | .setupUser c' _ userName => inferInstanceAs (Decidable (c' = c ∧ (child ["users"] userName).isNone))
  | .tap c' op => inferInstanceAs (Decidable (c' = c ∧ (op.run (s.clients c).store).value.isNone))
  | .token c' i token => inferInstanceAs (Decidable (c' = c ∧ ∃ userName ∈ (s.clients c).tokens[i]?, ∃ t ∈ token,
      (Call.uploadDeviceToken userName t).write.isNone))
  | .deliver c' i => inferInstanceAs (Decidable (c' = c ∧ ∃ o ∈ (s.clients c).observers[i]?,
      ∃ snapshot ∈ o.events.head?, (o.completion (s.clients c).store snapshot).value.isNone))
  | .kill c' _ => inferInstanceAs (Decidable (c' = c))
  | .reload c' o snapshot =>
    inferInstanceAs (Decidable (c' = c ∧ (o.completion (s.clients c).store snapshot).value.isNone))
  | .signOut _ _ | .apply _ | .remote _ => isFalse id

/-- A process that has ended has no session. -/
theorem State.not_ends {s s' : State ι} {a : Action ι} {c : ι} (hs : s.step a = some s') {user : User}
    (hu : s'.session c = some user) : ¬ s.Ends c a := by
  have hself : ∀ {k : Client}, s' = s.setClient c k → k.store.session = some user := by
    rintro k rfl
    rwa [session, setClient_clients, if_pos rfl] at hu
  have hfinish : ∀ {k : Client} {e : Effect Request SessionStore}, s' = s.setClient c (k.finish e) → ¬ e.value.isNone := by
    intro k e heq hnone
    have hsession := hself heq
    rw [Client.finish_store, Option.isNone_iff_eq_none.1 hnone] at hsession
    cases hsession
  have hobserve : ∀ {entrance : Entrance} {auth : AuthUser} {userName : String},
      s' = s.setClient c ((s.clients c).observe s.db entrance auth userName) → ¬ (child ["users"] userName).isNone := by
    intro entrance auth userName heq hnone
    have hsession := hself heq
    rw [Client.observe, Option.isNone_iff_eq_none.1 hnone] at hsession
    cases hsession
  cases a with
  | signUp c' authResult userName firstName lastName newUUID =>
    rintro ⟨rfl, hnone⟩
    exact hfinish (Option.some.inj hs).symm hnone
  | signIn c' authResult userName =>
    rintro ⟨rfl, hsome, hnone⟩
    cases authResult with
    | none => cases hsome
    | some auth => exact hobserve (Option.some.inj hs).symm hnone
  | setupUser c' auth userName =>
    rintro ⟨rfl, hnone⟩
    exact hobserve (Option.some.inj hs).symm hnone
  | tap c' op =>
    rintro ⟨rfl, hnone⟩
    exact hfinish (Option.some.inj hs).symm hnone
  | token c' i token =>
    rintro ⟨rfl, userName, hmem, t, ht, hnone⟩
    obtain ⟨userName', hmem', rfl⟩ := step_token.1 hs
    cases hmem'.symm.trans hmem
    cases ht
    refine hfinish rfl ?_
    rw [Call.send_bind, if_neg (by simpa using hnone)]
    rfl
  | deliver c' i =>
    rintro ⟨rfl, o, ho, snapshot, hhead, hnone⟩
    obtain ⟨o', snapshot', events, ho', he, rfl⟩ := step_deliver.1 hs
    cases ho'.symm.trans ho
    rw [he] at hhead
    cases hhead
    exact hfinish rfl hnone
  | kill c' sent =>
    rintro rfl
    cases hself (Option.some.inj hs).symm
  | reload c' o snapshot =>
    rintro ⟨rfl, hnone⟩
    exact hfinish (Option.some.inj hs).symm hnone
  | signOut c' signedOut => exact id
  | apply c' => exact id
  | remote w => exact id

/-- Not an action of the app: a killed process or a write from outside. -/
def Action.IsExternal : Action ι → Prop
  | .kill _ _ | .remote _ => True
  | _ => False

instance (a : Action ι) : Decidable a.IsExternal :=
  match a with
  | .kill _ _ | .remote _ => instDecidableTrue
  | .signUp _ _ _ _ _ _ | .signIn _ _ _ | .setupUser _ _ _ | .signOut _ _ | .tap _ _
  | .token _ _ _ | .apply _ | .deliver _ _ | .reload _ _ _ => instDecidableFalse

namespace State

/-- **Queues.** An action of the app either applies the oldest update of a device, or leaves the
database alone and hands over new updates behind the waiting ones. -/
theorem step_queue {s s' : State ι} {a : Action ι} (h : s.step a = some s') (ha : ¬ a.IsExternal) :
    (∃ c call rest, a = .apply c ∧ s.Applies s' c call rest) ∨
    ∃ c, a.device = some c ∧ s.Enqueues s' c (s.issues a) := by
  cases a with
  | signUp c authResult userName firstName lastName newUUID =>
    simp only [step, Option.some.injEq] at h
    subst h
    exact Or.inr ⟨c, rfl, s.enqueues_setClient c (by simp [queue, issues])⟩
  | signIn c authResult userName =>
    cases authResult with
    | none =>
      cases h
      exact Or.inr ⟨c, rfl, Enqueues.refl s c⟩
    | some auth =>
      simp only [step, Option.some.injEq] at h
      subst h
      refine Or.inr ⟨c, rfl, s.enqueues_setClient c ?_⟩
      rcases (s.clients c).observe_cases s.db .signIn auth userName with ⟨_, -, hk⟩ | hk <;>
        simp [hk, queue, issues, Client.crash]
  | setupUser c auth userName =>
    simp only [step, Option.some.injEq] at h
    subst h
    refine Or.inr ⟨c, rfl, s.enqueues_setClient c ?_⟩
    rcases (s.clients c).observe_cases s.db .setupUser auth userName with ⟨_, -, hk⟩ | hk <;>
      simp [hk, queue, issues, Client.crash]
  | signOut c signedOut =>
    simp only [step, Option.some.injEq] at h
    subst h
    exact Or.inr ⟨c, rfl, s.enqueues_setClient c (by simp [queue, issues])⟩
  | tap c op =>
    simp only [step, Option.some.injEq] at h
    subst h
    refine Or.inr ⟨c, rfl, s.enqueues_setClient c ?_⟩
    rw [Client.finish_queue, Effect.mapIssued_issued, List.filterMap_map,
      show Request.call? ∘ Request.call = some from rfl, List.filterMap_some]
    rfl
  | token c i token =>
    obtain ⟨userName, hu, rfl⟩ := step_token.1 h
    cases token with
    | none => exact Or.inr ⟨c, rfl, s.enqueues_setClient c (by simp [queue, issues])⟩
    | some token =>
      refine Or.inr ⟨c, rfl, s.enqueues_setClient c ?_⟩
      rw [Client.finish_queue, Effect.mapIssued_issued, Call.send_bind]
      by_cases hw : (Call.uploadDeviceToken userName token).write.isSome <;>
        simp [queue, issues, hu, hw, Call.send, Request.call?]
  | apply c =>
    obtain ⟨call, rest, hq, rfl⟩ := step_apply.1 h
    refine Or.inl ⟨c, call, rest, rfl, rfl, hq, fun c' => ?_⟩
    simp only [State.queue, commit, Client.notify, setClient_clients]
    split <;> rfl
  | deliver c i =>
    obtain ⟨o, snapshot, events, -, -, rfl⟩ := step_deliver.1 h
    refine Or.inr ⟨c, rfl, s.enqueues_setClient c ?_⟩
    rw [Client.finish_queue, o.completion_calls]
    rfl
  | reload c o snapshot =>
    simp only [step, Option.some.injEq] at h
    subst h
    refine Or.inr ⟨c, rfl, s.enqueues_setClient c ?_⟩
    rw [Client.finish_queue, o.completion_calls]
    rfl
  | kill c sent => exact absurd trivial ha
  | remote w => exact absurd trivial ha

omit [DecidableEq ι] in
/-- Where a new update comes from: a sign-up, a token request, or a tap. -/
theorem issues_cases {s : State ι} {a : Action ι} {call : Call} (h : call ∈ s.issues a) :
    (∃ c authResult userName firstName lastName newUUID,
      a = .signUp c authResult userName firstName lastName newUUID) ∨
    (∃ userName token, call = .uploadDeviceToken userName token) ∨
    ∃ c op user, a = .tap c op ∧ s.session c = some user ∧ call ∈ op.calls user := by
  cases a with
  | signUp c authResult userName firstName lastName newUUID => exact Or.inl ⟨_, _, _, _, _, _, rfl⟩
  | tap c op =>
    refine Or.inr (Or.inr ?_)
    simp only [issues] at h
    cases hs : (s.clients c).store.session with
    | none =>
      rw [op.run_none hs] at h
      simp at h
    | some user => exact ⟨c, op, user, rfl, hs, (op.run_spec hs).2.1.mem h⟩
  | token c i token =>
    refine Or.inr (Or.inl ?_)
    cases token with
    | none => simp [issues] at h
    | some token =>
      simp only [issues] at h
      cases hu : (s.clients c).tokens[i]? with
      | none => simp [hu] at h
      | some userName =>
        simp only [hu, Option.map_some, Option.getD_some, Call.send_issued] at h
        split at h
        · exact ⟨userName, token, List.mem_singleton.1 h⟩
        · simp at h
  | _ => simp [issues] at h

end State

end Anissagram
