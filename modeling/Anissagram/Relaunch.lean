import Anissagram.Credentials
/-
# What a relaunch restores (`Views/MainViews/ContentView.swift`)

Who is signed in is kept in two places that outlive the process: Firebase Auth keeps the account and
`UserDefaults` a user name. Auth writes the first when it accepts a login; the second is written by `save`
(:78), when the tab view appears with a session. A process that ends in between is followed by one whose
`load` (:70) opens the node of the name before, for the account after.

| here | there |
| --- | --- |
| `Phone.currentUser`, `Phone.username` | `Auth.auth().currentUser`, `UserDefaults` (`"username"`) |
| `Process.completions` | completions of `createUser` and `signIn` that Auth has accepted and that have not run yet |
| `Process.tabs`, `Process.dirty` | the `TabView` is on screen; the session was published after the last evaluation of `body` |
| `body`       | one evaluation of `ContentView.body` (:23) with the `onAppear` (:55) of a `TabView` it brings up |

Every account uses the name it signed up with. What the database answers is arbitrary.
-/

namespace Anissagram

open PathTree Runs

/-- A login that Firebase Auth has accepted. -/
inductive AuthCompletion where
  | signUp (account : RegisteredAccount) (firstName lastName newUUID : String)
  | signIn (account : RegisteredAccount)

def AuthCompletion.account : AuthCompletion → RegisteredAccount
  | signUp account _ _ _ | signIn account => account

structure Process where
  store : SessionStore
  observers : List Observer
  completions : List AuthCompletion
  tabs : Bool
  dirty : Bool

structure Phone where
  currentUser : Option RegisteredAccount
  username : Option String
  /-- `none` when the app is not running. -/
  process : Option Process

inductive PhoneAction where
  /-- Firebase Auth accepts a login and keeps its account. -/
  | accept (login : AuthCompletion)
  | complete (i : Nat)
  /-- Observer `j` gets a snapshot. -/
  | deliver (j : Nat) (snapshot : Node)
  | render
  | signOut (signedOut : Bool)
  | kill
  | launch

namespace Process

/-- A process that has just started. -/
def fresh : Process := ⟨SessionStore.initial, [], [], false, false⟩

/-- `retrieveUserByUsername` (`DatabaseManager.swift:72`); an invalid name raises an exception. -/
def observe (q : Process) (entrance : Entrance) (auth : AuthUser) (userName : String) : Option Process :=
  (child ["users"] userName).map fun _ =>
    { q with observers := q.observers ++ [⟨entrance, auth, userName, false, []⟩] }

/-- A completion runs; `none` where the process stops. -/
def complete (q : Process) : AuthCompletion → Option Process
  | .signUp account firstName lastName newUUID =>
    (q.store.signUp (some account.auth) account.userName firstName lastName newUUID).value.map fun store =>
      { q with store := store, dirty := true }
  | .signIn account => q.observe .signIn account.auth account.userName

/-- A handler runs; setting the session publishes it. -/
def handle (q : Process) (o : Observer) (snapshot : Node) : Option Process :=
  (o.completion q.store snapshot).value.map fun store =>
    { q with store := store, dirty := q.dirty || (o.decoded snapshot).isSome }

end Process

namespace Phone

/-- A phone with the app just installed. -/
def installed : Phone := ⟨none, none, none⟩

/-- The user name `load` takes, and the account it takes it for, where an evaluation of `body` loads. -/
def loads (p : Phone) (q : Process) : Option (String × RegisteredAccount) :=
  match p.currentUser with
  | none => none
  | some account =>
    if q.tabs ∨ q.store.session.isSome then none else some (p.username.getD "nil", account)

/-- The user name `save` stores, where an evaluation of `body` saves. -/
def saves (p : Phone) (q : Process) : Option String :=
  match p.currentUser with
  | none => none
  | some _ => if q.tabs then none else q.store.session.map User.userName

/-- One evaluation of `ContentView.body` (:23). -/
def body (p : Phone) (q : Process) : Phone :=
  let q' := { q with tabs := p.currentUser.isSome, dirty := false }
  match p.loads q with
  | some (cachedUsername, account) =>
    let auth := { account.auth with displayName := some (account.auth.displayName.getD "nil") }
    { p with process := q'.observe .setupUser auth cachedUsername }
  | none => { p with username := (p.saves q).or p.username, process := some q' }

def step (p : Phone) : PhoneAction → Option Phone
  | .accept login => do
    let q ← p.process
    some { p with
      currentUser := some login.account
      process := some { q with completions := q.completions ++ [login] } }
  | .complete i => do
    let q ← p.process
    let login ← q.completions[i]?
    some { p with process := { q with completions := q.completions.eraseIdx i }.complete login }
  | .deliver j snapshot => do
    let q ← p.process
    let o ← q.observers[j]?
    some { p with process := q.handle o snapshot }
  | .render => do
    let q ← p.process
    if q.dirty then some (p.body q) else none
  | .signOut signedOut => do
    let q ← p.process
    if q.tabs then
      some { p with
        currentUser := if signedOut then none else p.currentUser
        process := some { q with
          store := q.store.signOut signedOut
          dirty := q.dirty || signedOut } }
    else none
  | .kill => if p.process.isSome then some { p with process := none } else none
  | .launch => if p.process.isNone then some (p.body Process.fresh) else none

end Phone

/-! ## Logins and launches -/

/-- What `load` takes in a step, if the step calls it. -/
def loadOf (p : Phone) : PhoneAction → Option (String × RegisteredAccount)
  | .render => p.process.bind p.loads
  | .launch => p.loads Process.fresh
  | _ => none

/-- What `save` stores in a step, if the step calls it. -/
def saveOf (p : Phone) : PhoneAction → Option String
  | .render => p.process.bind p.saves
  | .launch => p.saves Process.fresh
  | _ => none

/-- The name is the one registered for the account. -/
def RightLoad (p : Phone) (a : PhoneAction) : Prop := ∀ x ∈ loadOf p a, x.1 = x.2.userName

instance (p : Phone) (a : PhoneAction) : Decidable (RightLoad p a) :=
  inferInstanceAs (Decidable (∀ x ∈ loadOf p a, x.1 = x.2.userName))

/-- The account of the last login that Auth has accepted, unless a sign-out came after it. -/
def lastAccepted : History Phone PhoneAction → Option RegisteredAccount
  | [] => none
  | (_, .accept login) :: _ => some login.account
  | (_, .signOut true) :: _ => none
  | _ :: hist => lastAccepted hist

/-- The last name the tab view has saved. -/
def lastSaved : History Phone PhoneAction → Option String
  | [] => none
  | (p, a) :: hist => (saveOf p a).or (lastSaved hist)

/-- Nobody is logged in, or the last login is finished: its name is the one saved last. -/
def Finished (hist : History Phone PhoneAction) : Prop :=
  ∀ account ∈ lastAccepted hist, (lastSaved hist).getD "nil" = account.userName

instance (hist : History Phone PhoneAction) : Decidable (Finished hist) :=
  inferInstanceAs (Decidable (∀ account ∈ lastAccepted hist, (lastSaved hist).getD "nil" = account.userName))

/-- The step ends the process: it is killed, traps or raises an exception. -/
def Ends (p : Phone) (a : PhoneAction) : Prop := ∃ p' ∈ p.step a, p'.process.isNone

instance (p : Phone) (a : PhoneAction) : Decidable (Ends p a) :=
  inferInstanceAs (Decidable (∃ p' ∈ p.step a, p'.process.isNone))

/-! ## One step -/

section
variable {p p' : Phone} {q : Process} {a : PhoneAction} {hist : History Phone PhoneAction}

theorem Phone.step_accept {login : AuthCompletion} (hs : p.step (.accept login) = some p') :
    ∃ q, p.process = some q ∧
      p' = ⟨some login.account, p.username, some { q with completions := q.completions ++ [login] }⟩ := by
  obtain ⟨q, hq, heq⟩ := Option.bind_eq_some_iff.1 hs
  exact ⟨q, hq, (Option.some.inj heq).symm⟩

theorem Phone.step_complete {i : Nat} (hs : p.step (.complete i) = some p') :
    ∃ q login, p.process = some q ∧ q.completions[i]? = some login ∧
      p' = { p with process := { q with completions := q.completions.eraseIdx i }.complete login } := by
  obtain ⟨q, hq, hs⟩ := Option.bind_eq_some_iff.1 hs
  obtain ⟨login, hlogin, heq⟩ := Option.bind_eq_some_iff.1 hs
  exact ⟨q, login, hq, hlogin, (Option.some.inj heq).symm⟩

theorem Phone.step_deliver {j : Nat} {snapshot : Node} (hs : p.step (.deliver j snapshot) = some p') :
    ∃ q o, p.process = some q ∧ q.observers[j]? = some o ∧ p' = { p with process := q.handle o snapshot } := by
  obtain ⟨q, hq, hs⟩ := Option.bind_eq_some_iff.1 hs
  obtain ⟨o, ho, heq⟩ := Option.bind_eq_some_iff.1 hs
  exact ⟨q, o, hq, ho, (Option.some.inj heq).symm⟩

theorem Phone.step_render (hs : p.step .render = some p') :
    ∃ q, p.process = some q ∧ q.dirty = true ∧ p' = p.body q := by
  obtain ⟨q, hq, hs⟩ := Option.bind_eq_some_iff.1 hs
  obtain ⟨hdirty, heq⟩ := Option.ite_none_right_eq_some.1 hs
  exact ⟨q, hq, hdirty, (Option.some.inj heq).symm⟩

theorem Phone.step_signOut {signedOut : Bool} (hs : p.step (.signOut signedOut) = some p') :
    ∃ q, p.process = some q ∧ q.tabs = true ∧
      p' = ⟨if signedOut then none else p.currentUser, p.username,
        some { q with store := q.store.signOut signedOut, dirty := q.dirty || signedOut }⟩ := by
  obtain ⟨q, hq, hs⟩ := Option.bind_eq_some_iff.1 hs
  obtain ⟨htabs, heq⟩ := Option.ite_none_right_eq_some.1 hs
  exact ⟨q, hq, htabs, (Option.some.inj heq).symm⟩

theorem Phone.step_kill (hs : p.step .kill = some p') : p' = { p with process := none } :=
  (Option.some.inj (Option.ite_none_right_eq_some.1 hs).2).symm

theorem Phone.step_launch (hs : p.step .launch = some p') : p.process = none ∧ p' = p.body Process.fresh := by
  obtain ⟨hdown, heq⟩ := Option.ite_none_right_eq_some.1 hs
  exact ⟨Option.isNone_iff_eq_none.1 hdown, (Option.some.inj heq).symm⟩

theorem Phone.loads_eq_some {x : String × RegisteredAccount} (h : p.loads q = some x) :
    p.currentUser = some x.2 ∧ x.1 = p.username.getD "nil" ∧ q.tabs = false ∧ q.store.session = none := by
  unfold loads at h
  cases hu : p.currentUser with
  | none => simp [hu] at h
  | some account =>
    simp only [hu, Option.ite_none_left_eq_some, not_or, Option.some.injEq] at h
    obtain ⟨⟨htabs, hsession⟩, rfl⟩ := h
    exact ⟨rfl, rfl, by simpa using htabs, by simpa using hsession⟩

/-- Where `load` is called `save` is not. -/
theorem Phone.saves_of_loads {x : String × RegisteredAccount} (h : p.loads q = some x) : p.saves q = none := by
  obtain ⟨hu, -, htabs, hsession⟩ := loads_eq_some h
  simp [saves, hu, htabs, hsession]

theorem Phone.body_spec (p : Phone) (q : Process) :
    (p.body q).currentUser = p.currentUser ∧ (p.body q).username = (p.saves q).or p.username ∧
      (∀ q' ∈ (p.body q).process, q'.dirty = false) ∧ ((p.body q).process = none → p.saves q = none) := by
  unfold body
  cases hl : p.loads q with
  | none => exact ⟨rfl, rfl, by rintro _ ⟨⟩; rfl, fun h => by cases h⟩
  | some x =>
    have hsaves := saves_of_loads hl
    refine ⟨rfl, by rw [hsaves]; rfl, fun q' hq' => ?_, fun _ => hsaves⟩
    obtain ⟨_, -, rfl⟩ := Option.map_eq_some_iff.1 hq'
    rfl

/-- What the two stores hold, and what the process may still do about it. -/
structure Tracked (hist : History Phone PhoneAction) (p : Phone) : Prop where
  account : p.currentUser = lastAccepted hist
  name : p.username = lastSaved hist
  down : p.process = none → Finished hist
  /-- What was published without the tab view is a session. -/
  published : ∀ q ∈ p.process, q.tabs = false → q.dirty = true → q.store.session.isSome

/-- An evaluation of `body`. -/
theorem Tracked.body (h : Tracked hist p) (hstep : p.step a = some (p.body q)) (hsave : saveOf p a = p.saves q)
    (haccount : lastAccepted ((p, a) :: hist) = lastAccepted hist) (hends : Ends p a → Finished hist) :
    Tracked ((p, a) :: hist) (p.body q) := by
  obtain ⟨hcurrent, husername, hclean, hdown⟩ := p.body_spec q
  have hsaved : lastSaved ((p, a) :: hist) = (p.saves q).or (lastSaved hist) := by
    rw [lastSaved, hsave]
  refine ⟨?_, ?_, fun hnone => ?_, fun q' hq' _ hdirty => ?_⟩
  · rw [hcurrent, haccount, h.account]
  · rw [husername, hsaved, h.name]
  · have hfinished := hends ⟨_, hstep, by rw [hnone]; rfl⟩
    rw [Finished, haccount, hsaved, hdown hnone]
    exact hfinished
  · rw [hclean q' hq'] at hdirty
    cases hdirty

/-- A step that neither logs in nor out nor evaluates `body`. -/
theorem Tracked.keep (h : Tracked hist p) (hstep : p.step a = some p') (hsave : saveOf p a = none)
    (haccount : lastAccepted ((p, a) :: hist) = lastAccepted hist) (hends : Ends p a → Finished hist)
    (hcurrent : p'.currentUser = p.currentUser) (husername : p'.username = p.username)
    (hpublished : ∀ q ∈ p'.process, q.tabs = false → q.dirty = true → q.store.session.isSome) :
    Tracked ((p, a) :: hist) p' := by
  have hsaved : lastSaved ((p, a) :: hist) = lastSaved hist := by
    rw [lastSaved, hsave]
    rfl
  refine ⟨?_, ?_, fun hnone => ?_, hpublished⟩
  · rw [hcurrent, haccount, h.account]
  · rw [husername, hsaved, h.name]
  · rw [Finished, haccount, hsaved]
    exact hends ⟨p', hstep, by rw [hnone]; rfl⟩

theorem Process.complete_published {q' : Process} {login : AuthCompletion}
    (h : q.tabs = false → q.dirty = true → q.store.session.isSome) (hc : q.complete login = some q') :
    q'.tabs = false → q'.dirty = true → q'.store.session.isSome := by
  cases login with
  | signUp account firstName lastName newUUID =>
    obtain ⟨store, hv, rfl⟩ := Option.map_eq_some_iff.1 hc
    intro _ _
    simp only [SessionStore.signUp] at hv
    split at hv
    · cases hv
      rfl
    · cases hv
  | signIn account =>
    obtain ⟨_, -, rfl⟩ := Option.map_eq_some_iff.1 hc
    exact h

theorem Process.handle_published {q' : Process} {o : Observer} {snapshot : Node}
    (h : q.tabs = false → q.dirty = true → q.store.session.isSome) (hc : q.handle o snapshot = some q') :
    q'.tabs = false → q'.dirty = true → q'.store.session.isSome := by
  obtain ⟨store, hv, rfl⟩ := Option.map_eq_some_iff.1 hc
  rcases o.completion_cases q.store snapshot with ⟨user, tokens, hd, -, -, he⟩ | ⟨hd, he⟩ | ⟨hd, -, he⟩
  · rw [he] at hv
    cases hv
    intro _ _
    rfl
  · rw [he] at hv
    cases hv
  · rw [he] at hv
    cases hv
    simpa [hd] using h

theorem Tracked.step (h : Tracked hist p) (hends : Ends p a → Finished hist) (hs : p.step a = some p') :
    RightLoad p a ∧ Tracked ((p, a) :: hist) p' := by
  have hstep := hs
  cases a with
  | accept login =>
    obtain ⟨q, hq, rfl⟩ := Phone.step_accept hs
    refine ⟨fun x hx => (by cases hx), rfl, h.name, fun hnone => (by cases hnone), ?_⟩
    rintro _ ⟨⟩
    exact h.published q hq
  | complete i =>
    obtain ⟨q, login, hq, -, rfl⟩ := Phone.step_complete hs
    refine ⟨fun x hx => (by cases hx), h.keep hstep rfl rfl hends rfl rfl fun q' hq' => ?_⟩
    exact Process.complete_published (q := { q with completions := q.completions.eraseIdx i }) (h.published q hq) hq'
  | deliver j snapshot =>
    obtain ⟨q, o, hq, -, rfl⟩ := Phone.step_deliver hs
    refine ⟨fun x hx => (by cases hx), h.keep hstep rfl rfl hends rfl rfl fun q' hq' => ?_⟩
    exact Process.handle_published (h.published q hq) hq'
  | render =>
    obtain ⟨q, hq, hdirty, rfl⟩ := Phone.step_render hs
    refine ⟨fun x hx => ?_, h.body hstep (by simp [saveOf, hq]) rfl hends⟩
    -- what `body` shows was published, and without the tab view that was a session
    simp only [loadOf, hq, Option.bind_some] at hx
    obtain ⟨-, -, htabs, hsession⟩ := Phone.loads_eq_some hx
    have hsome := h.published q hq htabs hdirty
    rw [hsession] at hsome
    cases hsome
  | signOut signedOut =>
    obtain ⟨q, hq, htabs, rfl⟩ := Phone.step_signOut hs
    have hpublished : ∀ q' ∈ some { q with store := q.store.signOut signedOut, dirty := q.dirty || signedOut },
        q'.tabs = false → q'.dirty = true → q'.store.session.isSome := by
      rintro _ ⟨⟩ hno
      rw [show q.tabs = true from htabs] at hno
      cases hno
    refine ⟨fun x hx => (by cases hx), ?_⟩
    cases signedOut with
    | true => exact ⟨rfl, h.name, fun hnone => (by cases hnone), hpublished⟩
    | false => exact h.keep hstep rfl rfl hends rfl rfl hpublished
  | kill =>
    obtain rfl := Phone.step_kill hs
    exact ⟨fun x hx => (by cases hx), h.keep hstep rfl rfl hends rfl rfl fun _ hq => by cases hq⟩
  | launch =>
    obtain ⟨hdown, rfl⟩ := Phone.step_launch hs
    refine ⟨fun x hx => ?_, h.body hstep rfl rfl hends⟩
    obtain ⟨haccount, hname, -⟩ := Phone.loads_eq_some hx
    rw [h.account] at haccount
    rw [hname, h.name]
    exact h.down hdown _ haccount

/-- A process that ends leaves both stores as they are. -/
theorem Phone.step_ends (hs : p.step a = some p') (hnone : p'.process = none) :
    p'.currentUser = p.currentUser ∧ p'.username = p.username := by
  have hbody : ∀ q, (p.body q).process = none → (p.body q).currentUser = p.currentUser ∧
      (p.body q).username = p.username := by
    intro q hq
    obtain ⟨hcurrent, husername, -, hsaves⟩ := p.body_spec q
    rw [husername, hsaves hq]
    exact ⟨hcurrent, rfl⟩
  cases a with
  | render =>
    obtain ⟨q, -, -, rfl⟩ := step_render hs
    exact hbody q hnone
  | launch =>
    obtain ⟨-, rfl⟩ := step_launch hs
    exact hbody _ hnone
  | kill =>
    obtain rfl := step_kill hs
    exact ⟨rfl, rfl⟩
  | accept login =>
    obtain ⟨q, -, rfl⟩ := step_accept hs
    cases hnone
  | complete i =>
    obtain ⟨q, login, -, -, rfl⟩ := step_complete hs
    exact ⟨rfl, rfl⟩
  | deliver j snapshot =>
    obtain ⟨q, o, -, -, rfl⟩ := step_deliver hs
    exact ⟨rfl, rfl⟩
  | signOut signedOut =>
    obtain ⟨q, -, -, rfl⟩ := step_signOut hs
    cases hnone

theorem rightLoad_launch_iff :
    RightLoad p .launch ↔ ∀ account ∈ p.currentUser, p.username.getD "nil" = account.userName := by
  cases hu : p.currentUser <;> simp [RightLoad, loadOf, Phone.loads, hu, Process.fresh, SessionStore.initial]

end

/-! ## Every run -/

theorem tracked_installed : Tracked [] Phone.installed :=
  ⟨rfl, rfl, fun _ _ h => (nomatch h), fun _ h => (nomatch h)⟩

/-- **A relaunch restores the right user** in every run whose processes end only when the last login is
finished; after a process that ends at any other moment the next launch takes a wrong name. -/
theorem relaunch_restores {hist : History Phone PhoneAction} {p : Phone}
    (hr : Reach Phone.step (fun hist p a => Ends p a → Finished hist) Phone.installed hist p) :
    (∀ x ∈ hist, RightLoad x.1 x.2) ∧
    ∀ a p', p.step a = some p' → p'.process = none → (RightLoad p' .launch ↔ Finished hist) := by
  have h : (∀ x ∈ hist, RightLoad x.1 x.2) ∧ Tracked hist p := by
    refine hr.inv (I := fun hist p => (∀ x ∈ hist, RightLoad x.1 x.2) ∧ Tracked hist p)
      ⟨by simp, tracked_installed⟩ fun hist p a p' _ hi hends hs => ?_
    obtain ⟨hload, htracked⟩ := hi.2.step hends hs
    exact ⟨List.forall_mem_cons.2 ⟨hload, hi.1⟩, htracked⟩
  refine ⟨h.1, fun a p' hs hnone => ?_⟩
  obtain ⟨hcurrent, husername⟩ := Phone.step_ends hs hnone
  rw [rightLoad_launch_iff, hcurrent, husername, h.2.account, h.2.name]
  rfl

/-- Accounts of the two users. -/
def aliceAccount : RegisteredAccount := ⟨alice.auth, "a", "alice"⟩
def bobAccount : RegisteredAccount := ⟨bob.auth, "b", "bob"⟩

/-- Alice signs up on a new phone, and the tab view appears. -/
def aliceAppears : List PhoneAction :=
  [.launch, .accept (.signUp aliceAccount "Alice" "Liddell" "A0"), .complete 0, .render]

/-- Killed then, the phone comes back as Alice's. -/
theorem relaunch_restores_alice :
    ∃ hist p, Reach Phone.step (fun hist p a => Ends p a → Finished hist) Phone.installed hist p ∧
      hist.map (fun x => (loadOf x.1 x.2).map Prod.fst) = [some "alice", none, none, none, none, none] ∧
      ∀ x ∈ hist, RightLoad x.1 x.2 := by
  have hplay : (exec Phone.step (fun hist p a => Ends p a → Finished hist) [] Phone.installed
      (aliceAppears ++ [.kill, .launch])).any (fun r => decide (r.1.map (fun x => (loadOf x.1 x.2).map Prod.fst) =
        [some "alice", none, none, none, none, none])) = true := by
    decide +kernel
  obtain ⟨hist, p, hr, hloads⟩ := exists_reach_of_exec (P := fun (hist : History Phone PhoneAction) (_ : Phone) =>
    hist.map (fun x => (loadOf x.1 x.2).map Prod.fst) = [some "alice", none, none, none, none, none]) hplay
  exact ⟨hist, p, hr, hloads, (relaunch_restores hr).1⟩

/-- Alice signs out, Auth accepts Bob, and the phone is killed before the database answers: the next
launch opens Alice's node for Bob. -/
theorem relaunch_mixes_up :
    ∃ hist p, Reach Phone.step (fun _ _ _ => True) Phone.installed hist p ∧
      hist.head?.bind (fun x => (loadOf x.1 x.2).map fun l => (l.1, l.2.userName)) = some ("alice", "bob") ∧
      ¬ ∀ x ∈ hist, RightLoad x.1 x.2 := by
  have hplay : (exec Phone.step (fun _ _ _ => True) [] Phone.installed
      (aliceAppears ++ [.signOut true, .render, .accept (.signIn bobAccount), .complete 0, .kill, .launch])).any
      (fun r => decide (r.1.head?.bind (fun x => (loadOf x.1 x.2).map fun l => (l.1, l.2.userName)) =
        some ("alice", "bob") ∧ ¬ ∀ x ∈ r.1, RightLoad x.1 x.2)) = true := by
    decide +kernel
  exact exists_reach_of_exec (P := fun (hist : History Phone PhoneAction) (_ : Phone) =>
    hist.head?.bind (fun x => (loadOf x.1 x.2).map fun l => (l.1, l.2.userName)) = some ("alice", "bob") ∧
      ¬ ∀ x ∈ hist, RightLoad x.1 x.2) hplay

end Anissagram
