import Anissagram.Circulation
/-
# Whose session it is

`retrieveUserByUsername` (`DatabaseManager.swift:72`) once looked its user up a single time; the
commented-out line above the `observe` still says so. The observer that took its place is never
removed, and its handler sets the session at every later change of the node, under the credentials
it was made with. `signOut` (`SessionStore.swift:133`) only clears the session. So a change of an
account's node signs a device in again that has signed out (`signed_out_returns`).

`lastSignIn` reads from the history of a run who should be signed in. Sign-ins count in the order of
their calls: what a look-up made before the last sign-out, or before a later sign-in, is told is not a
sign-in, and neither is what it is told after it was told of no user. `session_of_last_signIn` says which
events a device can take without ending up with someone else's session.
-/

namespace Anissagram

open PathTree NSMutableDictionary Runs

variable {ι : Type} [DecidableEq ι]

/-- Whom a session belongs to. -/
structure Account where
  uid : String
  userName : String
deriving DecidableEq, Repr

def User.account (user : User) : Account := ⟨user.uid, user.userName⟩

/-- The credentials a handler was made with. -/
def Observer.account (o : Observer) : Account := ⟨o.auth.uid, o.userName⟩

/-- The sign-in that the next event of observer `i` completes: the first answer to its look-up is a user. -/
def State.completedSignIn (s : State ι) (c : ι) (i : Nat) : Option Account := do
  let o ← (s.clients c).observers[i]?
  let snapshot ← o.events.head?
  let user ← o.decoded snapshot
  if o.answered then none else some user.account

/-- Who is signed in, and how many observers of the process are older: their look-ups were made before
that sign-in was, or before the sign-out. -/
structure LastSignIn where
  account : Option Account
  older : Nat

/-- The last sign-in on device `c` after a step, if it was `last` before. -/
def LastSignIn.after (last : LastSignIn) (c : ι) (s : State ι) (a : Action ι) : LastSignIn :=
  if s.Ends c a then ⟨none, 0⟩
  else
    match a with
    | .signUp c' (some auth) userName _ _ _ =>
      if c' = c then ⟨some ⟨auth.uid, userName⟩, (s.clients c).observers.length⟩ else last
    | .signOut c' true => if c' = c then ⟨none, (s.clients c).observers.length⟩ else last
    | .deliver c' i =>
      if c' = c ∧ last.older ≤ i then
        match s.completedSignIn c i with
        | some account => ⟨some account, i⟩
        | none => last
      else last
    | _ => last

/-- The most recent successful sign-in on device `c`: nobody's where a successful sign-out or the end of
the process came after it. -/
def lastSignIn (c : ι) : History (State ι) (Action ι) → LastSignIn
  | [] => ⟨none, 0⟩
  | (s, a) :: hist => (lastSignIn c hist).after c s a

/-- The session of device `c`, if there is one, is that of the last sign-in. -/
def SessionOfLast (c : ι) (hist : History (State ι) (Action ι)) (s : State ι) : Prop :=
  ∀ user ∈ s.session c, (lastSignIn c hist).account = some user.account

instance (c : ι) (hist : History (State ι) (Action ι)) (s : State ι) : Decidable (SessionOfLast c hist s) :=
  inferInstanceAs (Decidable (∀ user ∈ s.session c, (lastSignIn c hist).account = some user.account))

/-- A handler that is given a snapshot without an event. -/
def Action.IsReload : Action ι → Prop
  | .reload _ _ _ => True
  | _ => False

instance (a : Action ι) : Decidable a.IsReload :=
  match a with
  | .reload _ _ _ => instDecidableTrue
  | .signUp _ _ _ _ _ _ | .signIn _ _ _ | .setupUser _ _ _ | .signOut _ _ | .tap _ _
  | .token _ _ _ | .apply _ | .deliver _ _ | .kill _ _ | .remote _ => instDecidableFalse

/-- A handler that will set the session of device `c`, but whose look-up is older than the last sign-in or
sign-out or had its answer before, does so for the account of the last sign-in. -/
def Current (c : ι) (hist : History (State ι) (Action ι)) (s : State ι) : Action ι → Prop
  | .deliver c' i => c' = c → ∀ o ∈ (s.clients c).observers[i]?, ∀ snapshot ∈ o.events.head?,
    i < (lastSignIn c hist).older ∨ o.answered → (o.decoded snapshot).isSome →
      (lastSignIn c hist).account = some o.account
  | _ => True

instance (c : ι) (hist : History (State ι) (Action ι)) (s : State ι) (a : Action ι) :
    Decidable (Current c hist s a) :=
  match a with
  | .deliver c' i => inferInstanceAs (Decidable (c' = c → ∀ o ∈ (s.clients c).observers[i]?,
      ∀ snapshot ∈ o.events.head?, i < (lastSignIn c hist).older ∨ o.answered → (o.decoded snapshot).isSome →
        (lastSignIn c hist).account = some o.account))
  | .signUp _ _ _ _ _ _ | .signIn _ _ _ | .setupUser _ _ _ | .signOut _ _ | .tap _ _ | .token _ _ _
  | .apply _ | .kill _ _ | .reload _ _ _ | .remote _ => isTrue trivial

/-- The user that the next event of observer `i` describes. -/
def State.decodes (s : State ι) (c : ι) (i : Nat) : Option User := do
  let o ← (s.clients c).observers[i]?
  let snapshot ← o.events.head?
  o.decoded snapshot

/-- The user that an action makes the session of device `c`. -/
def State.sets (s : State ι) (c : ι) : Action ι → Option User
  | .signUp c' (some auth) userName firstName lastName newUUID =>
    if c' = c then
      ((s.clients c).store.signUp (some auth) userName firstName lastName newUUID).value.bind SessionStore.session
    else none
  | .tap c' op => if c' = c then (op.run (s.clients c).store).value.bind SessionStore.session else none
  | .deliver c' i => if c' = c then s.decodes c i else none
  | .reload c' o snapshot => if c' = c then o.decoded snapshot else none
  | _ => none

/-! ## One step -/

section
variable {c : ι} {hist : History (State ι) (Action ι)} {s s' : State ι} {a : Action ι}

theorem State.session_setClient (s : State ι) (c c' : ι) (k : Client) :
    (s.setClient c k).session c' = if c' = c then k.store.session else s.session c' := by
  unfold State.session
  rw [State.setClient_clients]
  split <;> rfl

/-- What happens elsewhere leaves the session alone. -/
theorem State.session_step_other (hs : s.step a = some s') (hd : a.device ≠ some c) :
    s'.session c = s.session c := by
  have hclient : ∀ {c'} (k : Client), a.device = some c' → (s.setClient c' k).session c = s.session c := by
    intro c' k hc'
    rw [State.session_setClient, if_neg]
    rintro rfl
    exact hd hc'
  cases a with
  | signIn c' authResult userName =>
    cases authResult with
    | none => cases hs; rfl
    | some auth => cases hs; exact hclient _ rfl
  | token c' i token =>
    obtain ⟨userName, -, rfl⟩ := State.step_token.1 hs
    cases token <;> exact hclient _ rfl
  | apply c' =>
    obtain ⟨call, rest, -, rfl⟩ := State.step_apply.1 hs
    exact hclient _ rfl
  | deliver c' i =>
    obtain ⟨o, snapshot, events, -, -, rfl⟩ := State.step_deliver.1 hs
    exact hclient _ rfl
  | remote w => cases hs; rfl
  | _ =>
    cases hs
    exact hclient _ rfl

/-- An action that leaves the last sign-in of device `c` alone as long as its process lives. -/
def Action.Keeps (c : ι) : Action ι → Prop
  | .signUp c' (some _) _ _ _ _ => c' ≠ c
  | .signOut c' true => c' ≠ c
  | .deliver c' _ => c' ≠ c
  | _ => True

omit [DecidableEq ι] in
theorem Action.keeps_other (hd : a.device ≠ some c) : a.Keeps c := by
  have hne : ∀ {c' : ι}, a.device = some c' → c' ≠ c := by
    rintro c' hc' rfl
    exact hd hc'
  cases a with
  | signUp c' authResult userName firstName lastName newUUID =>
    cases authResult with
    | none => trivial
    | some auth => exact hne rfl
  | signOut c' signedOut =>
    cases signedOut with
    | true => exact hne rfl
    | false => trivial
  | deliver c' i => exact hne rfl
  | _ => trivial

theorem LastSignIn.after_keeps (last : LastSignIn) (hends : ¬ s.Ends c a) (hkeeps : a.Keeps c) :
    last.after c s a = last := by
  refine (if_neg hends).trans ?_
  cases a with
  | signUp c' authResult userName firstName lastName newUUID =>
    cases authResult with
    | none => rfl
    | some auth => exact if_neg hkeeps
  | signOut c' signedOut =>
    cases signedOut with
    | true => exact if_neg hkeeps
    | false => rfl
  | deliver c' i => exact if_neg fun h => hkeeps h.1
  | _ => rfl

/-- The same person's session, or none. -/
theorem SessionOfLast.keep (h : SessionOfLast c hist s) (hs : s.step a = some s') (hkeeps : a.Keeps c)
    (hsame : ∀ user' ∈ s'.session c, ∃ user ∈ s.session c, user'.account = user.account) :
    SessionOfLast c ((s, a) :: hist) s' := by
  intro user' hu'
  obtain ⟨user, hu, hacc⟩ := hsame user' hu'
  rw [lastSignIn, LastSignIn.after_keeps _ (State.not_ends hs hu') hkeeps, hacc]
  exact h user hu

theorem LinkOp.localEffect_account (op : LinkOp) (user : User) :
    (op.localEffect user).account = user.account ∧ (op.localEffect user).email = user.email := by
  cases op <;> simp [localEffect, User.account]

/-- A tap leaves the session to its user. -/
theorem LinkOp.run_account (op : LinkOp) {store store' : SessionStore} (hv : (op.run store).value = some store')
    {user' : User} (hu : store'.session = some user') :
    ∃ user, store.session = some user ∧ user'.account = user.account ∧ user'.email = user.email := by
  cases hs : store.session with
  | none =>
    rw [op.run_none hs] at hv
    cases hv
    rw [hs] at hu
    cases hu
  | some user =>
    obtain ⟨-, -, rfl⟩ := (op.run_spec hs).2.2 store' hv
    cases hu
    exact ⟨user, rfl, op.localEffect_account user⟩

/-- Observing sets no session. -/
theorem Client.session_observe {k : Client} {db : Database} {entrance : Entrance} {auth : AuthUser}
    {userName : String} {user : User} (hu : user ∈ (k.observe db entrance auth userName).store.session) :
    user ∈ k.store.session := by
  rcases k.observe_cases db entrance auth userName with ⟨_, -, hk⟩ | hk
  · rw [hk] at hu
    exact hu
  · rw [hk] at hu
    cases hu

/-- The completion of `signUp` makes the new user the session, or ends the process. -/
theorem SessionStore.session_signUp {store : SessionStore} {auth : AuthUser}
    {userName firstName lastName newUUID : String}
    {user : User} (hu : user ∈ ((store.signUp (some auth) userName firstName lastName newUUID).value.getD
      SessionStore.initial).session) :
    user = newUser auth userName firstName lastName newUUID ∧ (Call.insertUser user).write.isSome := by
  rw [signUp] at hu
  split at hu
  · rename_i hw
    cases hu
    exact ⟨rfl, hw⟩
  · cases hu

/-- A token sets no session. -/
theorem State.session_tokenCallback {i : Nat} {userName : String} {token : Option String} {user : User}
    (hu : user ∈ (s.tokenCallback c i userName token).session c) : user ∈ s.session c := by
  cases token with
  | none =>
    rw [tokenCallback, session_setClient, if_pos rfl] at hu
    exact hu
  | some token =>
    rw [tokenCallback, session_setClient, if_pos rfl, Client.finish_store, Effect.mapIssued_value,
      Call.send_bind] at hu
    split at hu
    · exact hu
    · cases hu

omit [DecidableEq ι] in
theorem State.decodes_of_event {i : Nat} {o : Observer} {snapshot : Node} {events : List Node}
    (ho : (s.clients c).observers[i]? = some o) (he : o.events = snapshot :: events) :
    s.decodes c i = o.decoded snapshot := by
  simp [decodes, ho, he]

theorem State.sets_other (hd : a.device ≠ some c) : s.sets c a = none := by
  have hne : ∀ {c' : ι}, a.device = some c' → c' ≠ c := by
    rintro c' hc' rfl
    exact hd hc'
  cases a with
  | signUp c' authResult userName firstName lastName newUUID =>
    cases authResult with
    | none => rfl
    | some auth => exact if_neg (hne rfl)
  | tap c' op => exact if_neg (hne rfl)
  | deliver c' i => exact if_neg (hne rfl)
  | reload c' o snapshot => exact if_neg (hne rfl)
  | _ => rfl

/-- **A session after a step** is what the step set, or was there before. -/
theorem State.session_step (hs : s.step a = some s') {user : User} (hu : user ∈ s'.session c) :
    (s.sets c a).or (s.session c) = some user := by
  by_cases hd : a.device = some c
  swap
  · rw [State.sets_other hd, Option.none_or, ← State.session_step_other hs hd]
    exact hu
  have hsession : ∀ k : Client, (s.setClient c k).session c = k.store.session := fun k => by
    rw [State.session_setClient, if_pos rfl]
  -- a handler sets the user it decoded, traps, or does nothing
  have hhandler : ∀ {o : Observer} {snapshot : Node} {k : Client},
      user ∈ (k.finish (o.completion (s.clients c).store snapshot)).store.session →
      (o.decoded snapshot).or (s.session c) = some user := by
    intro o snapshot k hu
    rw [Client.finish_store] at hu
    rcases o.completion_cases (s.clients c).store snapshot with ⟨user, tokens, hdec, -, -, hc⟩ | ⟨-, hc⟩ | ⟨hdec, -, hc⟩
    · rw [hc] at hu
      rw [hdec]
      exact hu
    · rw [hc] at hu
      cases hu
    · rw [hc] at hu
      rw [hdec]
      exact hu
  cases a with
  | signUp c' authResult userName firstName lastName newUUID =>
    obtain rfl := Option.some.inj hd
    cases hs
    rw [hsession, Client.finish_store] at hu
    cases authResult with
    | none => exact hu
    | some auth =>
      rw [sets, if_pos rfl]
      cases hv : ((s.clients c').store.signUp (some auth) userName firstName lastName newUUID).value with
      | none =>
        rw [hv] at hu
        cases hu
      | some store =>
        have hset : store.session = some user := by
          rw [hv] at hu
          exact hu
        rw [Option.bind_some, hset, Option.some_or]
  | signIn c' authResult userName =>
    obtain rfl := Option.some.inj hd
    cases authResult with
    | none =>
      cases hs
      exact hu
    | some auth =>
      cases hs
      rw [hsession] at hu
      exact Client.session_observe hu
  | setupUser c' auth userName =>
    obtain rfl := Option.some.inj hd
    cases hs
    rw [hsession] at hu
    exact Client.session_observe hu
  | signOut c' signedOut =>
    obtain rfl := Option.some.inj hd
    cases hs
    rw [hsession] at hu
    cases signedOut with
    | true => cases hu
    | false => exact hu
  | tap c' op =>
    obtain rfl := Option.some.inj hd
    cases hs
    rw [hsession, Client.finish_store, Effect.mapIssued_value] at hu
    rw [sets, if_pos rfl]
    cases hv : (op.run (s.clients c').store).value with
    | none =>
      rw [hv] at hu
      cases hu
    | some store =>
      have hset : store.session = some user := by
        rw [hv] at hu
        exact hu
      rw [Option.bind_some, hset, Option.some_or]
  | token c' i token =>
    obtain rfl := Option.some.inj hd
    obtain ⟨userName, -, rfl⟩ := State.step_token.1 hs
    exact State.session_tokenCallback hu
  | apply c' =>
    obtain rfl := Option.some.inj hd
    obtain ⟨call, rest, -, rfl⟩ := State.step_apply.1 hs
    change user ∈ (s.setClient c' _).session c' at hu
    rw [hsession] at hu
    exact hu
  | deliver c' i =>
    obtain rfl := Option.some.inj hd
    obtain ⟨o, snapshot, events, ho, he, rfl⟩ := State.step_deliver.1 hs
    rw [State.handle, hsession] at hu
    rw [sets, if_pos rfl, State.decodes_of_event ho he]
    exact hhandler hu
  | kill c' sent =>
    obtain rfl := Option.some.inj hd
    cases hs
    rw [hsession] at hu
    cases hu
  | reload c' o snapshot =>
    obtain rfl := Option.some.inj hd
    cases hs
    rw [hsession] at hu
    rw [sets, if_pos rfl]
    exact hhandler hu
  | remote w => cases hd

/-- **Where a session comes from**: it was there before, the completion of `signUp` set it, or the handler
of an observer decoded it. -/
theorem State.session_cases (ha : ¬ a.IsReload) (hs : s.step a = some s') {user' : User}
    (hu : user' ∈ s'.session c) :
    (∃ user ∈ s.session c, user'.account = user.account ∧ user'.email = user.email) ∨
    (∃ auth userName firstName lastName newUUID, a = .signUp c (some auth) userName firstName lastName newUUID ∧
      user' = SessionStore.newUser auth userName firstName lastName newUUID ∧ (Call.insertUser user').write.isSome) ∨
    ∃ i o snapshot, a = .deliver c i ∧ (s.clients c).observers[i]? = some o ∧ o.events.head? = some snapshot ∧
      o.decoded snapshot = some user' := by
  rcases Option.or_eq_some_iff.1 (State.session_step hs hu) with hset | ⟨-, hkept⟩
  swap
  · exact Or.inl ⟨user', hkept, rfl, rfl⟩
  cases a with
  | signUp c' authResult userName firstName lastName newUUID =>
    cases authResult with
    | none => cases hset
    | some auth =>
      obtain ⟨rfl, hset⟩ := Option.ite_none_right_eq_some.1 hset
      obtain ⟨store, hv, hstore⟩ := Option.bind_eq_some_iff.1 hset
      obtain ⟨hnew, hw⟩ := SessionStore.session_signUp (by rw [hv]; exact hstore)
      exact Or.inr (Or.inl ⟨auth, userName, firstName, lastName, newUUID, rfl, hnew, hw⟩)
  | tap c' op =>
    obtain ⟨rfl, hset⟩ := Option.ite_none_right_eq_some.1 hset
    obtain ⟨store, hv, hstore⟩ := Option.bind_eq_some_iff.1 hset
    exact Or.inl (op.run_account hv hstore)
  | deliver c' i =>
    obtain ⟨rfl, hset⟩ := Option.ite_none_right_eq_some.1 hset
    simp only [decodes, Option.bind_eq_bind, Option.bind_eq_some_iff] at hset
    obtain ⟨o, ho, snapshot, hsnap, hdec⟩ := hset
    exact Or.inr (Or.inr ⟨i, o, snapshot, rfl, ho, hsnap, hdec⟩)
  | reload c' o snapshot => exact absurd trivial ha
  | _ => cases hset

/-- A handler that decodes a user makes it the session. -/
theorem State.session_deliver {i : Nat} (hs : s.step (.deliver c i) = some s') {o : Observer}
    (ho : (s.clients c).observers[i]? = some o) {snapshot : Node} (hsnap : o.events.head? = some snapshot)
    {user : User} (hdec : o.decoded snapshot = some user) : s'.session c = some user := by
  obtain ⟨o', snapshot', events, ho', he, rfl⟩ := State.step_deliver.1 hs
  obtain rfl := Option.some.inj (ho.symm.trans ho')
  rw [he] at hsnap
  cases hsnap
  rw [State.handle, State.session_setClient, if_pos rfl, Client.finish_store, Observer.completion_some hdec]
  rfl

/-- Who is signed in after a sign-up that goes through. -/
theorem lastSignIn_signUp {auth : AuthUser} {userName firstName lastName newUUID : String}
    (hv : ((s.clients c).store.signUp (some auth) userName firstName lastName newUUID).value.isSome) :
    (lastSignIn c ((s, .signUp c (some auth) userName firstName lastName newUUID) :: hist)).account =
      some ⟨auth.uid, userName⟩ := by
  have hends : ¬ s.Ends c (.signUp c (some auth) userName firstName lastName newUUID) := by
    rintro ⟨-, hnone⟩
    rw [Option.isNone_iff_eq_none.1 hnone] at hv
    cases hv
  rw [lastSignIn, LastSignIn.after, if_neg hends, if_pos rfl]

theorem Observer.account_of_decoded {o : Observer} {snapshot : Node} {user : User}
    (h : o.decoded snapshot = some user) : user.account = o.account := by
  obtain ⟨huid, hname, -⟩ := o.decoded_spec h
  rw [User.account, Observer.account, huid, hname]

/-- Who is signed in after an event that is a user. -/
theorem lastSignIn_deliver {i : Nat} {o : Observer} {snapshot : Node} {events : List Node} {user : User}
    (hs : s.step (.deliver c i) = some s') (ho : (s.clients c).observers[i]? = some o)
    (he : o.events = snapshot :: events) (hd : o.decoded snapshot = some user) (hsession : user ∈ s'.session c) :
    (lastSignIn c ((s, .deliver c i) :: hist)).account =
      if i < (lastSignIn c hist).older ∨ o.answered then (lastSignIn c hist).account else some o.account := by
  rw [lastSignIn, LastSignIn.after, if_neg (State.not_ends hs hsession)]
  have hcompleted : s.completedSignIn c i = if o.answered then none else some o.account := by
    simp [State.completedSignIn, ho, he, hd, Observer.account_of_decoded hd]
  by_cases holder : i < (lastSignIn c hist).older
  · rw [if_neg (fun h => absurd h.2 (Nat.not_le.2 holder)), if_pos (Or.inl holder)]
  · rw [if_pos ⟨rfl, Nat.not_lt.1 holder⟩, hcompleted]
    cases o.answered <;> simp [holder]

/-- **A handled event** keeps the session with the last sign-in exactly when it completes a sign-in,
leaves the session alone or is for the account of the last sign-in. -/
theorem SessionOfLast.deliver_iff (h : SessionOfLast c hist s) {i : Nat}
    (hs : s.step (.deliver c i) = some s') :
    SessionOfLast c ((s, .deliver c i) :: hist) s' ↔ Current c hist s (.deliver c i) := by
  obtain ⟨o, snapshot, events, ho, he, heq⟩ := State.step_deliver.1 hs
  have hcurrent : Current c hist s (.deliver c i) ↔
      (i < (lastSignIn c hist).older ∨ o.answered → (o.decoded snapshot).isSome →
        (lastSignIn c hist).account = some o.account) := by
    simp [Current, ho, he]
  have hsession : s'.session c =
      ((o.completion (s.clients c).store snapshot).value.getD SessionStore.initial).session := by
    rw [heq, State.handle, State.session_setClient, if_pos rfl, Client.finish_store]
    rfl
  rw [hcurrent]
  rcases o.completion_cases (s.clients c).store snapshot with
    ⟨user, tokens, hd, -, -, hc⟩ | ⟨hd, hc⟩ | ⟨hd, -, hc⟩
  · have hacc : user.account = o.account := Observer.account_of_decoded hd
    have hset : s'.session c = some user := State.session_deliver hs ho (by rw [he]; rfl) hd
    rw [SessionOfLast, lastSignIn_deliver hs ho he hd hset, hset]
    by_cases hold : i < (lastSignIn c hist).older ∨ o.answered
    · simp [hold, hd, hacc]
    · simp [hold, hacc]
  · have hnone : s'.session c = none := by
      rw [hsession, hc]
      rfl
    refine iff_of_true (fun user hu => ?_) fun _ hsome => ?_
    · rw [hnone] at hu
      cases hu
    · rw [hd] at hsome
      cases hsome
  · refine iff_of_true (fun user hu => ?_) fun _ hsome => ?_
    · have hkept : (s.clients c).store.session = some user := by
        rw [hsession, hc] at hu
        exact hu
      have hcompleted : s.completedSignIn c i = none := by
        simp [State.completedSignIn, ho, he, hd]
      rw [lastSignIn, LastSignIn.after, if_neg (State.not_ends hs hu), hcompleted]
      simp only [ite_self]
      exact h user hkept
    · rw [hd] at hsome
      cases hsome

/-- **One step** keeps the session with the last sign-in exactly when it is a current one. -/
theorem SessionOfLast.step_iff (h : SessionOfLast c hist s) (ha : ¬ a.IsReload) (hs : s.step a = some s') :
    SessionOfLast c ((s, a) :: hist) s' ↔ Current c hist s a := by
  by_cases hd : a.device = some c
  swap
  · have hcurrent : Current c hist s a := by
      cases a with
      | deliver c' i => exact fun hc => absurd (congrArg some hc) hd
      | _ => trivial
    refine iff_of_true (h.keep hs (Action.keeps_other hd) fun user hu => ?_) hcurrent
    rw [State.session_step_other hs hd] at hu
    exact ⟨user, hu, rfl⟩
  have hcases := fun user (hu : user ∈ s'.session c) => State.session_cases ha hs hu
  cases a with
  | deliver c' i =>
    obtain rfl := Option.some.inj hd
    exact h.deliver_iff hs
  | signUp c' authResult userName firstName lastName newUUID =>
    obtain rfl := Option.some.inj hd
    refine iff_of_true ?_ trivial
    cases authResult with
    | none =>
      refine h.keep hs trivial fun user hu => ⟨user, ?_, rfl⟩
      cases hs
      rw [State.session_setClient, if_pos rfl, Client.finish_store] at hu
      exact hu
    | some auth =>
      intro user hu
      rw [lastSignIn, LastSignIn.after, if_neg (State.not_ends hs hu), if_pos rfl]
      cases hs
      rw [State.session_setClient, if_pos rfl, Client.finish_store] at hu
      obtain ⟨rfl, -⟩ := SessionStore.session_signUp hu
      rfl
  | signOut c' signedOut =>
    obtain rfl := Option.some.inj hd
    refine iff_of_true ?_ trivial
    cases signedOut with
    | true =>
      intro user hu
      cases hs
      rw [State.session_setClient, if_pos rfl] at hu
      cases hu
    | false =>
      refine h.keep hs trivial fun user hu => ⟨user, ?_, rfl⟩
      cases hs
      rw [State.session_setClient, if_pos rfl] at hu
      exact hu
  | reload c' o snapshot => exact absurd trivial ha
  | _ =>
    refine iff_of_true (h.keep hs trivial fun user hu => ?_) trivial
    rcases hcases user hu with ⟨user₀, hu₀, hsame, -⟩ | ⟨_, _, _, _, _, heq, -⟩ | ⟨_, _, _, heq, -⟩
    · exact ⟨user₀, hu₀, hsame⟩
    · cases heq
    · cases heq

end

/-! ## Every run -/

variable {c : ι} {hist : History (State ι) (Action ι)} {s : State ι} {db : Database}

/-- **The session belongs to the last sign-in** in every run of any devices whose events on device
`c` are current, and the first event that is not breaks it. -/
theorem session_of_last_signIn
    (hr : Reach State.step (fun hist s a => ¬ a.IsReload ∧ Current c hist s a) (State.start db) hist s) :
    SessionOfLast c hist s ∧
    ∀ a s', ¬ a.IsReload → s.step a = some s' →
      (SessionOfLast c ((s, a) :: hist) s' ↔ Current c hist s a) := by
  have h : SessionOfLast c hist s :=
    hr.inv (I := fun hist s => SessionOfLast c hist s) (fun _ hu => nomatch hu)
      fun _ _ _ _ _ hi ha hs => (hi.step_iff ha.1 hs).2 ha.2
  exact ⟨h, fun a s' ha hs => h.step_iff ha hs⟩

/-- The tokens of two phones. -/
def deviceToken (c : Fin 2) : String := "T" ++ toString c.val

/-- Alice signs in, and Bob's request reaches her session. -/
theorem session_of_last_signIn_alice :
    ∃ hist s, Reach State.step (fun hist s a => ¬ a.IsReload ∧ Current 0 hist s a)
        (State.start (registered aliceAndBob) : State (Fin 2)) hist s ∧
      (s.session 0).isSome ∧ SessionOfLast 0 hist s := by
  have hplay : (exec State.step (fun hist s a => ¬ a.IsReload ∧ Current 0 hist s a) []
      (State.start (registered aliceAndBob) : State (Fin 2)) (bothSignIn 0 1 ++ [.tap 1 (.addPending "alice" "R1"),
        .apply 1, .deliver 0 0])).any (fun r => decide ((r.2.session 0).isSome = true)) = true := by
    decide +kernel
  obtain ⟨hist, s, hr, hsome⟩ := exists_reach_of_exec
    (P := fun _ (s : State (Fin 2)) => (s.session 0).isSome = true) hplay
  exact ⟨hist, s, hr, hsome, (session_of_last_signIn hr).1⟩

/-- Alice signs out, Bob asks her, and her session is back. -/
theorem signed_out_returns :
    ∃ hist s, Reach State.step (fun _ _ a => ¬ a.IsReload)
        (State.start (registered aliceAndBob) : State (Fin 2)) hist s ∧
      (lastSignIn 0 hist).account = none ∧ ¬ SessionOfLast 0 hist s := by
  have hplay : (exec State.step (fun _ _ a => ¬ a.IsReload) []
      (State.start (registered aliceAndBob) : State (Fin 2)) (bothSignIn 0 1 ++ [.signOut 0 true,
        .tap 1 (.addPending "alice" "R1"), .apply 1, .deliver 0 0])).any
      (fun r => decide ((lastSignIn 0 r.1).account = none ∧ ¬ SessionOfLast 0 r.1 r.2)) = true := by
    decide +kernel
  exact exists_reach_of_exec (P := fun hist (s : State (Fin 2)) =>
    (lastSignIn 0 hist).account = none ∧ ¬ SessionOfLast 0 hist s) hplay

end Anissagram
