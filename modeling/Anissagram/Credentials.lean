import Anissagram.SignIn
import Anissagram.SignUp
/-
# Whose node a login opens

`LoginView.logIn` (`Views/LoginViews/LoginView.swift:107`) hands an email, a password and a user name to
`signIn` (`SessionStore.swift:55`). Firebase Auth checks the first two; the name only says which node
`retrieveUserByUsername` reads. Neither the account nor the node (`insertUser` stores two names and the
relationships) says to whom the other belongs, so any account opens any node (`mallory_is_alice`). `signIn`
itself speaks of the name as something to get right (`Unable to login, check username and password`). Nor does
`signUp` look whether its name is taken (`second_alice`).

`Accounts` is Firebase Auth with the name each account was registered under, which Firebase does not know.
-/

namespace Anissagram

open PathTree Runs

variable {ι : Type} [DecidableEq ι]

structure RegisteredAccount where
  auth : AuthUser
  password : String
  /-- The user name `signUp` was called with. -/
  userName : String

abbrev Accounts := List RegisteredAccount

namespace Accounts

/-- The name under which the account of an email signed up. -/
def registeredName (accounts : Accounts) (email : String) : Option String :=
  (accounts.find? (·.auth.email = email)).map (·.userName)

/-- `Auth.auth().signIn(withEmail:password:)`. -/
def signIn (accounts : Accounts) (email password : String) : Option AuthUser :=
  (accounts.find? fun a => a.auth.email = email ∧ a.password = password).map (·.auth)

/-- `Auth.auth().createUser(withEmail:password:)`: refused where the email is in use. -/
def createUser (accounts : Accounts) (uid email password userName : String) : Option AuthUser × Accounts :=
  if (accounts.registeredName email).isSome then (none, accounts)
  else
    let auth : AuthUser := ⟨uid, email, none⟩
    (some auth, accounts ++ [⟨auth, password, userName⟩])

end Accounts

/-- Firebase Auth, the database and the devices. -/
structure Service (ι : Type) where
  accounts : Accounts
  net : State ι

/-- What the login views do, and everything that follows. -/
inductive ServiceAction (ι : Type) where
  /-- `LoginView.signUp`; Firebase draws `uid`, the completion `newUUID`. -/
  | signUp (c : ι) (email password userName firstName lastName uid newUUID : String)
  | signIn (c : ι) (email password userName : String)
  | other (a : Action ι)

/-- An action that is neither a login nor a snapshot out of nowhere. -/
def Action.IsOther : Action ι → Prop
  | .signUp _ _ _ _ _ _ | .signIn _ _ _ | .setupUser _ _ _ | .reload _ _ _ => False
  | _ => True

instance (a : Action ι) : Decidable a.IsOther :=
  match a with
  | .signUp _ _ _ _ _ _ | .signIn _ _ _ | .setupUser _ _ _ | .reload _ _ _ => instDecidableFalse
  | .signOut _ _ | .tap _ _ | .token _ _ _ | .apply _ | .deliver _ _ | .kill _ _ | .remote _ => instDecidableTrue

namespace Service

def step (s : Service ι) : ServiceAction ι → Option (Service ι)
  | .signUp c email password userName firstName lastName uid newUUID =>
    let (authResult, accounts) := s.accounts.createUser uid email password userName
    (s.net.step (.signUp c authResult userName firstName lastName newUUID)).map fun net => ⟨accounts, net⟩
  | .signIn c email password userName =>
    (s.net.step (.signIn c (s.accounts.signIn email password) userName)).map fun net => { s with net := net }
  | .other a => if a.IsOther then (s.net.step a).map fun net => { s with net := net } else none

/-- Nobody has an account yet. -/
def start (db : Database) : Service ι := ⟨[], State.start db⟩

end Service

/-- A session under `userName` reads or changes the node that the account is registered under; a name that is
no key gets none at its sign-up. -/
def RegisteredAccount.OpenTo (a : RegisteredAccount) (userName : String) : Prop :=
  isValidKey a.userName ∧ ¬ Apart (userNode userName) (userNode a.userName)

instance (a : RegisteredAccount) (userName : String) : Decidable (a.OpenTo userName) :=
  inferInstanceAs (Decidable (_ ∧ ¬ _))

/-- A login on device `c` with these three. -/
def ServiceAction.Gives (c : ι) (email password userName : String) : ServiceAction ι → Prop
  | .signUp c' e p n _ _ _ _ | .signIn c' e p n => c' = c ∧ e = email ∧ p = password ∧ n = userName
  | .other _ => False

instance (c : ι) (email password userName : String) (a : ServiceAction ι) :
    Decidable (a.Gives c email password userName) :=
  match a with
  | .signUp c' e p n _ _ _ _ | .signIn c' e p n =>
    inferInstanceAs (Decidable (c' = c ∧ e = email ∧ p = password ∧ n = userName))
  | .other _ => instDecidableFalse

/-- The credentials of an account were given on device `c`, with this name. -/
def Given (hist : History (Service ι) (ServiceAction ι)) (c : ι) (a : RegisteredAccount) (userName : String) : Prop :=
  ∃ x ∈ hist, x.2.Gives c a.auth.email a.password userName

instance (hist : History (Service ι) (ServiceAction ι)) (c : ι) (a : RegisteredAccount) (userName : String) :
    Decidable (Given hist c a userName) :=
  inferInstanceAs (Decidable (∃ x ∈ hist, x.2.Gives c a.auth.email a.password userName))

/-- Every session is under the name its account signed up with. -/
def OwnName (s : Service ι) : Prop :=
  ∀ c, ∀ user ∈ s.net.session c, s.accounts.registeredName user.email = some user.userName

/-- Every session that reads or changes a registered account's node is that account's, and the credentials
of the account were given for it. -/
def HasCredentials (hist : History (Service ι) (ServiceAction ι)) (s : Service ι) : Prop :=
  ∀ c, ∀ user ∈ s.net.session c, ∀ a ∈ s.accounts, a.OpenTo user.userName →
    user.email = a.auth.email ∧ Given hist c a user.userName

section
variable [Fintype ι]

instance (s : Service ι) : Decidable (OwnName s) :=
  inferInstanceAs (Decidable (∀ c, ∀ user ∈ s.net.session c, s.accounts.registeredName user.email = some user.userName))

instance (hist : History (Service ι) (ServiceAction ι)) (s : Service ι) : Decidable (HasCredentials hist s) :=
  inferInstanceAs (Decidable (∀ c, ∀ user ∈ s.net.session c, ∀ a ∈ s.accounts, a.OpenTo user.userName →
    user.email = a.auth.email ∧ Given hist c a user.userName))

end

/-- An observer that may still set a session: `signIn` ends the process where there is no user. -/
def Observer.Live (o : Observer) : Prop :=
  o.entrance = .setupUser ∨ ∀ snapshot ∈ o.events.head?, (o.decoded snapshot).isSome

instance (o : Observer) : Decidable o.Live :=
  inferInstanceAs (Decidable (o.entrance = .setupUser ∨ ∀ snapshot ∈ o.events.head?, (o.decoded snapshot).isSome))

/-- A new name is nobody's, and no other name in use leads to its node. Where a user is stored, the name
typed at a login is that of the account and leads to the node of no other. -/
def KeepsToOwnNode (s : Service ι) : ServiceAction ι → Prop
  | .signUp _ email _ userName _ _ _ _ => s.accounts.registeredName email = none → isValidKey userName →
    (∀ a ∈ s.accounts, a.userName ≠ userName) ∧
    ∀ d, (∀ user ∈ s.net.session d, Apart (userNode user.userName) (userNode userName)) ∧
      ∀ o ∈ (s.net.clients d).observers, o.Live → Apart (userNode o.userName) (userNode userName)
  | .signIn _ email password userName => ∀ auth ∈ s.accounts.signIn email password,
    (SessionStore.decodeUser auth userName
      (SessionStore.retrieved (s.net.db.sub (userNode userName))).1).isSome →
        s.accounts.registeredName email = some userName ∧
        ∀ a ∈ s.accounts, a.OpenTo userName → a.auth.email = email
  | .other _ => True

instance [Fintype ι] (s : Service ι) (a : ServiceAction ι) : Decidable (KeepsToOwnNode s a) :=
  match a with
  | .signUp _ email _ userName _ _ _ _ => inferInstanceAs (Decidable (s.accounts.registeredName email = none →
      isValidKey userName → (∀ a ∈ s.accounts, a.userName ≠ userName) ∧
      ∀ d, (∀ user ∈ s.net.session d, Apart (userNode user.userName) (userNode userName)) ∧
        ∀ o ∈ (s.net.clients d).observers, o.Live → Apart (userNode o.userName) (userNode userName)))
  | .signIn _ email password userName => inferInstanceAs (Decidable (∀ auth ∈ s.accounts.signIn email password,
      (SessionStore.decodeUser auth userName
        (SessionStore.retrieved (s.net.db.sub (userNode userName))).1).isSome →
          s.accounts.registeredName email = some userName ∧
          ∀ a ∈ s.accounts, a.OpenTo userName → a.auth.email = email))
  | .other _ => isTrue trivial

/-! ## Firebase Auth -/

namespace Accounts

variable {accounts : Accounts} {uid email password userName : String}

/-- No two accounts share an email. -/
def Distinct (accounts : Accounts) : Prop := (accounts.map (·.auth.email)).Nodup

theorem registeredName_eq_none : accounts.registeredName email = none ↔ ∀ a ∈ accounts, a.auth.email ≠ email := by
  simp [registeredName]

theorem registeredName_append {name : String} (h : accounts.registeredName email = some name) (a : RegisteredAccount) :
    registeredName (accounts ++ [a]) email = some name := by
  obtain ⟨b, hb, rfl⟩ := Option.map_eq_some_iff.1 h
  simp [registeredName, List.find?_append, hb]

theorem registeredName_new {a : RegisteredAccount} (h : accounts.registeredName a.auth.email = none) :
    registeredName (accounts ++ [a]) a.auth.email = some a.userName := by
  have hnone : accounts.find? (·.auth.email = a.auth.email) = none := by
    simpa [registeredName] using h
  simp [registeredName, List.find?_append, hnone]

/-- A new account has an email of its own. -/
theorem createUser_cases (accounts : Accounts) (uid email password userName : String) :
    accounts.createUser uid email password userName = (none, accounts) ∨
    accounts.registeredName email = none ∧
      accounts.createUser uid email password userName =
        (some ⟨uid, email, none⟩, accounts ++ [⟨⟨uid, email, none⟩, password, userName⟩]) := by
  unfold createUser
  cases h : accounts.registeredName email with
  | none => exact Or.inr ⟨rfl, rfl⟩
  | some name => exact Or.inl rfl

theorem Distinct.append (h : Distinct accounts) {a : RegisteredAccount}
    (ha : accounts.registeredName a.auth.email = none) :
    Distinct (accounts ++ [a]) := by
  rw [Distinct, List.map_append]
  refine List.Nodup.append h (List.nodup_singleton _) fun e he he' => ?_
  obtain ⟨b, hb, rfl⟩ := List.mem_map.1 he
  exact registeredName_eq_none.1 ha b hb (List.mem_singleton.1 he')

/-- Firebase Auth accepts a login with the password of the one account of the email. -/
theorem Distinct.signIn (h : Distinct accounts) {auth : AuthUser} (hs : accounts.signIn email password = some auth) :
    auth.email = email ∧ ∀ a ∈ accounts, a.auth.email = email → a.password = password := by
  obtain ⟨b, hb, rfl⟩ := Option.map_eq_some_iff.1 hs
  have hmem : b ∈ accounts := List.mem_of_find?_eq_some hb
  obtain ⟨hemail, hpassword⟩ : b.auth.email = email ∧ b.password = password := by
    simpa using List.find?_some hb
  refine ⟨hemail, fun a ha he => ?_⟩
  rw [List.inj_on_of_nodup_map h ha hmem (he.trans hemail.symm), hpassword]

end Accounts

/-! ## Observers -/

/-- The same look-up later: what may still set a session might have before. -/
structure Observer.Continues (o' o : Observer) : Prop where
  auth : o'.auth = o.auth
  userName : o'.userName = o.userName
  live : o'.Live → o.Live

theorem Observer.Continues.refl (o : Observer) : o.Continues o := ⟨rfl, rfl, id⟩

/-- The next event stays what it is. -/
theorem Observer.Continues.notify (o : Observer) (db db' : Database) : (o.notify db db').Continues o := by
  unfold Observer.notify
  split
  · exact .refl o
  · refine ⟨rfl, rfl, fun hlive => hlive.imp_right fun hnext snapshot hsnap => ?_⟩
    refine hnext snapshot ?_
    rw [List.head?_append, Option.mem_def.1 hsnap]
    rfl

/-- A handler that returns has found a user, or is that of `setupUser`. -/
theorem Observer.Continues.handled {o : Observer} {snapshot : Node} {events : List Node}
    (he : o.events = snapshot :: events) {store : SessionStore} (hv : (o.completion store snapshot).value.isSome) :
    (o.handled events).Continues o := by
  refine ⟨rfl, rfl, fun _ => ?_⟩
  cases hd : o.decoded snapshot with
  | some user =>
    refine Or.inr fun snapshot' hsnap => ?_
    rw [he] at hsnap
    cases hsnap
    rw [hd]
    rfl
  | none =>
    rw [Observer.completion_none hd] at hv
    split at hv
    · rename_i hsetup
      exact Or.inl hsetup.1
    · cases hv

theorem child_users {userName : String} {path : List String} (h : child ["users"] userName = some path) :
    path = userNode userName := by
  simp only [child, Option.ite_none_right_eq_some, Option.some.injEq] at h
  exact h.2.symm

/-- Who was observing still is, with the new look-up, or nobody is. -/
theorem Client.mem_observe {k : Client} {db : Database} {entrance : Entrance} {auth : AuthUser} {userName : String}
    {o : Observer} (h : o ∈ (k.observe db entrance auth userName).observers) :
    o ∈ k.observers ∨ o = ⟨entrance, auth, userName, false, [db.sub (userNode userName)]⟩ := by
  rcases k.observe_cases db entrance auth userName with ⟨path, hpath, hk⟩ | hk
  · rw [hk] at h
    obtain rfl := child_users hpath
    exact (List.mem_append.1 h).imp_right List.mem_singleton.1
  · rw [hk] at h
    cases h

section
variable {c : ι} {s s' : State ι} {a : Action ι}

/-- **An observer after a step** was there before, or the step is the login that opened it. -/
theorem State.observers_step (hs : s.step a = some s') {o' : Observer} (ho' : o' ∈ (s'.clients c).observers) :
    (∃ o ∈ (s.clients c).observers, o'.Continues o) ∨
    (∃ auth userName, a = .signIn c (some auth) userName ∧
      o' = ⟨.signIn, auth, userName, false, [s.db.sub (userNode userName)]⟩) ∨
    ∃ auth userName, a = .setupUser c auth userName := by
  -- what a step makes of the observers of its device
  have hclient : ∀ {c' : ι} {k : Client},
      (c = c' → o' ∈ k.observers → ∃ o ∈ (s.clients c).observers, o'.Continues o) →
      o' ∈ ((s.setClient c' k).clients c).observers → ∃ o ∈ (s.clients c).observers, o'.Continues o := by
    intro c' k hk hmem
    rw [State.setClient_clients] at hmem
    split at hmem
    · exact hk (by assumption) hmem
    · exact ⟨o', hmem, .refl o'⟩
  have hsame : ∀ {c' : ι}, c = c' → o' ∈ (s.clients c').observers → ∃ o ∈ (s.clients c).observers, o'.Continues o := by
    rintro c' rfl hmem
    exact ⟨o', hmem, .refl o'⟩
  have hfinish : ∀ {c' : ι} {k : Client} {e : Effect Request SessionStore},
      (c = c' → e.value.isSome → o' ∈ k.observers → ∃ o ∈ (s.clients c).observers, o'.Continues o) →
      o' ∈ ((s.setClient c' (k.finish e)).clients c).observers → ∃ o ∈ (s.clients c).observers, o'.Continues o := by
    intro c' k e hk hmem
    refine hclient (fun hc hmem => ?_) hmem
    rw [Client.finish_observers] at hmem
    split at hmem
    · rename_i hv
      exact hk hc hv hmem
    · cases hmem
  have hnotify : ∀ {k : Client} {db db' : Database}, k.observers = (s.clients c).observers →
      o' ∈ (k.notify db db').observers → ∃ o ∈ (s.clients c).observers, o'.Continues o := by
    intro k db db' hk hmem
    obtain ⟨o, ho, rfl⟩ := List.mem_map.1 hmem
    exact ⟨o, hk ▸ ho, .notify o db db'⟩
  cases a with
  | signUp c' authResult userName firstName lastName newUUID =>
    cases hs
    exact Or.inl (hfinish (fun hc _ hmem => hsame hc hmem) ho')
  | signIn c' authResult userName =>
    cases authResult with
    | none =>
      cases hs
      exact Or.inl ⟨o', ho', .refl o'⟩
    | some auth =>
      cases hs
      by_cases hc : c = c'
      · subst hc
        rw [State.setClient_clients, if_pos rfl] at ho'
        rcases Client.mem_observe ho' with hold | rfl
        · exact Or.inl ⟨o', hold, .refl o'⟩
        · exact Or.inr (Or.inl ⟨auth, userName, rfl, rfl⟩)
      · exact Or.inl (hclient (fun heq => absurd heq hc) ho')
  | setupUser c' auth userName =>
    cases hs
    by_cases hc : c = c'
    · subst hc
      exact Or.inr (Or.inr ⟨auth, userName, rfl⟩)
    · exact Or.inl (hclient (fun heq => absurd heq hc) ho')
  | signOut c' signedOut =>
    cases hs
    refine Or.inl (hclient (fun hc hmem => ?_) ho')
    exact hsame hc hmem
  | tap c' op =>
    cases hs
    exact Or.inl (hfinish (fun hc _ hmem => hsame hc hmem) ho')
  | token c' i token =>
    obtain ⟨userName, -, rfl⟩ := State.step_token.1 hs
    cases token with
    | none =>
      refine Or.inl (hclient (fun hc hmem => ?_) ho')
      exact hsame hc hmem
    | some token =>
      refine Or.inl (hfinish (fun hc _ hmem => ?_) ho')
      exact hsame hc hmem
  | apply c' =>
    obtain ⟨call, rest, -, rfl⟩ := State.step_apply.1 hs
    refine Or.inl (hnotify ?_ ho')
    rw [State.setClient_clients]
    split
    · rename_i hc
      rw [hc]
    · rfl
  | deliver c' i =>
    obtain ⟨o, snapshot, events, ho, he, rfl⟩ := State.step_deliver.1 hs
    refine Or.inl (hfinish (fun hc hv hmem => ?_) ho')
    subst hc
    rcases List.mem_or_eq_of_mem_set hmem with hold | rfl
    · exact ⟨o', hold, .refl o'⟩
    · exact ⟨o, List.mem_of_getElem? ho, .handled he hv⟩
  | kill c' sent =>
    cases hs
    refine Or.inl (hclient (fun _ hmem => ?_) ho')
    cases hmem
  | reload c' o snapshot =>
    cases hs
    exact Or.inl (hfinish (fun hc _ hmem => hsame hc hmem) ho')
  | remote w =>
    cases hs
    exact Or.inl (hnotify rfl ho')

end

/-! ## One step -/

/-- Whoever is, or will be, signed in on device `c` under `userName` for the account of `email` is who they
say. -/
structure Owned (hist : History (Service ι) (ServiceAction ι)) (accounts : Accounts) (c : ι) (email userName : String) :
    Prop where
  name : accounts.registeredName email = some userName
  node : ∀ a ∈ accounts, a.OpenTo userName → a.auth.email = email
  given : ∀ a ∈ accounts, a.auth.email = email → Given hist c a userName

/-- Nobody is on a node of somebody else. -/
structure Owners (hist : History (Service ι) (ServiceAction ι)) (s : Service ι) : Prop where
  distinct : s.accounts.Distinct
  sessions : ∀ c, ∀ user ∈ s.net.session c, Owned hist s.accounts c user.email user.userName
  observers : ∀ c, ∀ o ∈ (s.net.clients c).observers, o.Live → Owned hist s.accounts c o.auth.email o.userName

section
variable {hist : History (Service ι) (ServiceAction ι)} {s s' : Service ι} {c : ι} {email userName : String}

omit [DecidableEq ι] in
theorem Given.cons {a : RegisteredAccount} (h : Given hist c a userName) (x : Service ι × ServiceAction ι) :
    Given (x :: hist) c a userName := by
  obtain ⟨y, hy, hgives⟩ := h
  exact ⟨y, List.mem_cons_of_mem _ hy, hgives⟩

omit [DecidableEq ι] in
theorem Owned.cons {accounts : Accounts} (h : Owned hist accounts c email userName) (x : Service ι × ServiceAction ι) :
    Owned (x :: hist) accounts c email userName :=
  ⟨h.name, h.node, fun a ha he => (h.given a ha he).cons x⟩

omit [DecidableEq ι] in
/-- A new account changes nothing if its node is nobody's. -/
theorem Owned.append {accounts : Accounts} (h : Owned hist accounts c email userName) {b : RegisteredAccount}
    (hnew : accounts.registeredName b.auth.email = none)
    (hapart : isValidKey b.userName → Apart (userNode userName) (userNode b.userName)) :
    Owned hist (accounts ++ [b]) c email userName := by
  refine ⟨Accounts.registeredName_append h.name b, fun a ha hopen => ?_, fun a ha he => ?_⟩
  · rcases List.mem_append.1 ha with ha | ha
    · exact h.node a ha hopen
    · obtain rfl := List.mem_singleton.1 ha
      exact absurd (hapart hopen.1) hopen.2
  · rcases List.mem_append.1 ha with ha | ha
    · exact h.given a ha he
    · obtain rfl := List.mem_singleton.1 ha
      rw [he, h.name] at hnew
      cases hnew

omit [DecidableEq ι] in
/-- Who signs up under a name that nobody has. -/
theorem Owned.new {accounts : Accounts} {b : RegisteredAccount} (hnew : accounts.registeredName b.auth.email = none)
    (hkey : isValidKey b.userName) (hname : ∀ a ∈ accounts, a.userName ≠ b.userName)
    {x : Service ι × ServiceAction ι} (hx : x.2.Gives c b.auth.email b.password b.userName) :
    Owned (x :: hist) (accounts ++ [b]) c b.auth.email b.userName := by
  refine ⟨Accounts.registeredName_new hnew, fun a ha hopen => ?_, fun a ha he => ?_⟩
  · rcases List.mem_append.1 ha with ha | ha
    · refine absurd (apart_of_length_eq ?_ ?_) hopen.2
      · simp [userNode, hkey.pathComponents, hopen.1.pathComponents]
      · simpa [userNode, hkey.pathComponents, hopen.1.pathComponents] using (hname a ha).symm
    · rw [List.mem_singleton.1 ha]
  · rcases List.mem_append.1 ha with ha | ha
    · exact absurd he (Accounts.registeredName_eq_none.1 hnew a ha)
    · rw [List.mem_singleton.1 ha]
      exact ⟨x, List.mem_cons_self, hx⟩

omit [DecidableEq ι] in
/-- The same person's session. -/
theorem Owners.session (h : Owners hist s) {user user₀ : User} (hu₀ : user₀ ∈ s.net.session c)
    (hacc : user.account = user₀.account) (hemail : user.email = user₀.email) :
    Owned hist s.accounts c user.email user.userName := by
  have hname : user.userName = user₀.userName := congrArg Account.userName hacc
  rw [hemail, hname]
  exact h.sessions c user₀ hu₀

omit [DecidableEq ι] in
/-- The same look-up. -/
theorem Owners.observer (h : Owners hist s) {o o₀ : Observer} (ho₀ : o₀ ∈ (s.net.clients c).observers)
    (hcont : o.Continues o₀) (hlive : o.Live) : Owned hist s.accounts c o.auth.email o.userName := by
  rw [hcont.auth, hcont.userName]
  exact h.observers c o₀ ho₀ (hcont.live hlive)

/-- What is neither a login nor a sign-up leaves everybody where they are. -/
theorem Owners.other (h : Owners hist s) {a : Action ι} (hs : s.step (.other a) = some s') :
    Owners ((s, .other a) :: hist) s' := by
  simp only [Service.step, Option.ite_none_right_eq_some] at hs
  obtain ⟨hother, hs⟩ := hs
  obtain ⟨net, hnet, rfl⟩ := Option.map_eq_some_iff.1 hs
  have hreload : ¬ a.IsReload := by
    cases a <;> first | exact id | exact absurd hother id
  refine ⟨h.distinct, fun c user hu => Owned.cons ?_ _, fun c o ho hlive => Owned.cons ?_ _⟩
  · rcases State.session_cases hreload hnet hu with ⟨user₀, hu₀, hacc, hemail⟩ | ⟨_, _, _, _, _, rfl, -⟩ |
      ⟨i, o, snapshot, rfl, ho, hsnap, hdec⟩
    · exact h.session hu₀ hacc hemail
    · exact absurd hother id
    · obtain ⟨-, hname, -, -, hemail⟩ := o.decoded_spec hdec
      rw [hemail, hname]
      refine h.observers c o (List.mem_of_getElem? ho) (Or.inr fun snapshot' hsnap' => ?_)
      cases hsnap.symm.trans hsnap'
      rw [hdec]
      rfl
  · rcases State.observers_step hnet ho with ⟨o₀, ho₀, hcont⟩ | ⟨_, _, rfl, -⟩ | ⟨_, _, rfl⟩
    · exact h.observer ho₀ hcont hlive
    · exact absurd hother id
    · exact absurd hother id

/-- **A login**: Firebase Auth has seen the password of the account whose name was typed. -/
theorem Owners.signIn (h : Owners hist s) {password : String}
    (ha : KeepsToOwnNode s (.signIn c email password userName))
    (hs : s.step (.signIn c email password userName) = some s') :
    Owners ((s, .signIn c email password userName) :: hist) s' := by
  obtain ⟨net, hnet, rfl⟩ := Option.map_eq_some_iff.1 hs
  refine ⟨h.distinct, fun d user hu => Owned.cons ?_ _, fun d o ho hlive => ?_⟩
  · rcases State.session_cases id hnet hu with ⟨user₀, hu₀, hacc, hemail⟩ | ⟨_, _, _, _, _, heq, -⟩ | ⟨_, _, _, heq, -⟩
    · exact h.session hu₀ hacc hemail
    · cases heq
    · cases heq
  · rcases State.observers_step hnet ho with ⟨o₀, ho₀, hcont⟩ | ⟨auth, name, heq, rfl⟩ | ⟨_, _, heq⟩
    · exact (h.observer ho₀ hcont hlive).cons _
    -- the new look-up
    · obtain ⟨rfl, hauth, rfl⟩ : c = d ∧ s.accounts.signIn email password = some auth ∧ userName = name := by
        simpa using heq
      obtain ⟨hemail, hpassword⟩ := h.distinct.signIn hauth
      have hdec := hlive.resolve_left (by simp) _ rfl
      obtain ⟨hname, hnode⟩ := ha auth hauth hdec
      refine ⟨?_, ?_, fun a hmem he => ?_⟩
      · rw [hemail]
        exact hname
      · rw [hemail]
        exact hnode
      · rw [hemail] at he
        exact ⟨_, List.mem_cons_self, rfl, he.symm, (hpassword a hmem he).symm, rfl⟩
    · cases heq

/-- Firebase Auth refuses an email in use. -/
theorem Owners.refused (h : Owners hist s) {firstName lastName newUUID : String} {net : State ι}
    (hnet : s.net.step (.signUp c none userName firstName lastName newUUID) = some net) (x : ServiceAction ι) :
    Owners ((s, x) :: hist) { s with net := net } := by
  refine ⟨h.distinct, fun d user hu => Owned.cons ?_ _, fun d o ho hlive => Owned.cons ?_ _⟩
  · rcases State.session_cases id hnet hu with ⟨user₀, hu₀, hacc, hemail⟩ | ⟨_, _, _, _, _, heq, -⟩ | ⟨_, _, _, heq, -⟩
    · exact h.session hu₀ hacc hemail
    · cases heq
    · cases heq
  · rcases State.observers_step hnet ho with ⟨o₀, ho₀, hcont⟩ | ⟨_, _, heq, -⟩ | ⟨_, _, heq⟩
    · exact h.observer ho₀ hcont hlive
    · cases heq
    · cases heq

/-- **A sign-up**: nobody has the name, and nobody is on its node. -/
theorem Owners.created (h : Owners hist s) {b : RegisteredAccount} (hb : s.accounts.registeredName b.auth.email = none)
    (hfresh : isValidKey b.userName → (∀ a ∈ s.accounts, a.userName ≠ b.userName) ∧
      ∀ d, (∀ user ∈ s.net.session d, Apart (userNode user.userName) (userNode b.userName)) ∧
        ∀ o ∈ (s.net.clients d).observers, o.Live → Apart (userNode o.userName) (userNode b.userName))
    {firstName lastName newUUID : String} {net : State ι}
    (hnet : s.net.step (.signUp c (some b.auth) b.userName firstName lastName newUUID) = some net)
    {x : ServiceAction ι} (hx : x.Gives c b.auth.email b.password b.userName) :
    Owners ((s, x) :: hist) ⟨s.accounts ++ [b], net⟩ := by
  refine ⟨h.distinct.append hb, fun d user hu => ?_, fun d o ho hlive => ?_⟩
  · rcases State.session_cases id hnet hu with ⟨user₀, hu₀, hacc, hemail⟩ | ⟨_, _, _, _, _, heq, rfl, hw⟩ |
      ⟨_, _, _, heq, -⟩
    · have hname : user.userName = user₀.userName := congrArg Account.userName hacc
      refine ((h.session hu₀ hacc hemail).append hb fun hkey => ?_).cons _
      rw [hname]
      exact ((hfresh hkey).2 d).1 user₀ hu₀
    -- the new user
    · cases heq
      have hkey : isValidKey b.userName :=
        Registration.isValidKey_of_insertUser (g := ⟨b.auth, b.userName, firstName, lastName, newUUID, none⟩) hw
      exact Owned.new hb hkey (hfresh hkey).1 hx
    · cases heq
  · rcases State.observers_step hnet ho with ⟨o₀, ho₀, hcont⟩ | ⟨_, _, heq, -⟩ | ⟨_, _, heq⟩
    · refine ((h.observer ho₀ hcont hlive).append hb fun hkey => ?_).cons _
      rw [hcont.userName]
      exact ((hfresh hkey).2 d).2 o₀ ho₀ (hcont.live hlive)
    · cases heq
    · cases heq

/-- **One step** leaves nobody on a node of somebody else, if every name typed leads to the typist's own. -/
theorem Owners.step (h : Owners hist s) {a : ServiceAction ι} (ha : KeepsToOwnNode s a) (hs : s.step a = some s') :
    Owners ((s, a) :: hist) s' := by
  cases a with
  | signUp c email password userName firstName lastName uid newUUID =>
    rcases s.accounts.createUser_cases uid email password userName with hused | ⟨hfree, hnew⟩
    · simp only [Service.step, hused] at hs
      obtain ⟨net, hnet, rfl⟩ := Option.map_eq_some_iff.1 hs
      exact h.refused hnet _
    · simp only [Service.step, hnew] at hs
      obtain ⟨net, hnet, rfl⟩ := Option.map_eq_some_iff.1 hs
      exact h.created (b := ⟨⟨uid, email, none⟩, password, userName⟩) hfree (ha hfree) hnet ⟨rfl, rfl, rfl, rfl⟩
  | signIn c email password userName => exact h.signIn ha hs
  | other a => exact h.other hs

end

/-! ## Every run -/

variable {hist : History (Service ι) (ServiceAction ι)} {s : Service ι} {db : Database}

/-- Alice and Mallory sign up, each on a device of her own. -/
def twoSignUps (c d : ι) : List (ServiceAction ι) :=
  [.signUp c "alice@mail" "a" "alice" "Alice" "Liddell" "uid-a" "A0", .other (.apply c),
    .signUp d "mallory@mail" "m" "mallory" "Mallory" "Mole" "uid-m" "M0", .other (.apply d)]

/-- Mallory signs up under Alice's name. -/
theorem second_alice :
    ∃ hist s, Reach Service.step (fun _ _ _ => True) (Service.start Tree.empty : Service (Fin 2)) hist s ∧
      OwnName s ∧ ¬ HasCredentials hist s := by
  have hplay : (exec Service.step (fun _ _ _ => True) [] (Service.start Tree.empty : Service (Fin 2))
      (twoSignUps 0 1 ++ [.signUp 1 "mallory@post" "m" "alice" "Mallory" "Mole" "uid-n" "N0"])).any
      (fun r => decide (OwnName r.2 ∧ ¬ HasCredentials r.1 r.2)) = true := by
    decide +kernel
  exact exists_reach_of_exec (P := fun hist (s : Service (Fin 2)) => OwnName s ∧ ¬ HasCredentials hist s) hplay

end Anissagram
