import Anissagram.CloudFunction
import Anissagram.SignIn
import Anissagram.SignUp
import Mathlib.Data.Fintype.Basic
/-
# Where a push goes

`insertUser` and the handler of `signIn` store the token of their device under the name that signs in
("set current device fcm token", "in case logged in on new device"), `signOut`
(`SessionStore.swift:133`) leaves it there. So the token of a device may stand under the name of someone
who has signed out on it, and a message for that name is shown to whoever uses the device now
(`pushed_after_signOut`). It may also come back there: the handler of `signIn` asks for the token at every
later event of its observer (`pushed_after_return`).

A token is on its way from the request to the database and from there to the function; `Carries` says
where it may be, and a device is safe to leave when its token is nowhere (`push_reaches_recipient`). Who is
signed in is read from the history and not from the session, which an old observer may have brought back.
-/

namespace Anissagram

open PathTree NSMutableDictionary Runs

/-- The devices, the server and the cloud function. -/
structure Delivery (ι : Type) where
  net : State ι
  function : CloudFunction

inductive DeliveryAction (ι : Type) where
  | net (a : Action ι)
  /-- `sendNotification` on a device. -/
  | sendNotification (c : ι) (m : Message)
  | newNodeDetected (i : Nat)
  | submitPayload (j : Nat)

/-- The message a call stores. -/
def Call.message? : Call → Option Message
  | .sendNotification uuid sendTo sendFrom numLove => some ⟨uuid, sendTo, sendFrom, numLove⟩
  | _ => none

/-- The key below `users` that a user name leads to, if it leads to one. -/
def accountNode (userName : String) : Option String :=
  match pathComponents userName with
  | [n] => some n
  | _ => none

/-- Whose `deviceID` a call stores. -/
def Call.uploadsTo : Call → Option String
  | .uploadDeviceToken userName _ => accountNode userName
  | _ => none

variable {ι : Type} [DecidableEq ι]

/-- The message that the server stores in a step. -/
def State.created (s : State ι) : Action ι → Option Message
  | .apply c => (s.queue c).head?.bind Call.message?
  | _ => none

namespace Delivery

/-- A message key is drawn, so it is a key of the database. -/
def step (s : Delivery ι) : DeliveryAction ι → Option (Delivery ι)
  | .net a => (s.net.step a).map fun net =>
      ⟨net, s.function.changed s.net.db net.db (s.net.created a)⟩
  | .sendNotification c m =>
    if isValidKey m.id then
      some { s with net := s.net.setClient c { s.net.clients c with queue := s.net.queue c ++ [m.call] } }
    else none
  | .newNodeDetected i => (s.function.newNodeDetected s.net.db i).map fun f => { s with function := f }
  | .submitPayload j => (s.function.submitPayload j).map fun f => { s with function := f }

def start (db : Database) : Delivery ι := ⟨State.start db, CloudFunction.idle⟩

end Delivery

/-- The steps of the devices and the server. -/
def Delivery.netSteps : History (Delivery ι) (DeliveryAction ι) → History (State ι) (Action ι)
  | [] => []
  | (s, .net a) :: hist => (s.net, a) :: netSteps hist
  | (_, .sendNotification _ _) :: hist | (_, .newNodeDetected _) :: hist | (_, .submitPayload _) :: hist =>
    netSteps hist

/-- The user whose node is `users/<u>` is signed in on device `c`: the last sign-in there was for it, and no
sign-out came after. -/
def SignedIn (hist : History (Delivery ι) (DeliveryAction ι)) (u : String) (c : ι) : Prop :=
  ∃ account ∈ (lastSignIn c (Delivery.netSteps hist)).account, accountNode account.userName = some u

instance (hist : History (Delivery ι) (DeliveryAction ι)) (u : String) (c : ι) : Decidable (SignedIn hist u c) :=
  inferInstanceAs (Decidable (∃ account ∈ (lastSignIn c (Delivery.netSteps hist)).account,
    accountNode account.userName = some u))

/-- What listener `j` submits next has no token or that of a device on which the recipient is signed in. -/
def ReachesRecipient (tokenOf : ι → String) (hist : History (Delivery ι) (DeliveryAction ι)) (s : Delivery ι)
    (j : Nat) : Prop :=
  ∀ f ∈ s.function.submitPayload j, ∀ push ∈ f.sent.getLast?, isValidKey push.message.sendTo →
    push.token ≠ Tree.empty →
      ∃ c, push.token = Node.string (tokenOf c) ∧ SignedIn hist push.message.sendTo c

instance [Fintype ι] (tokenOf : ι → String) (hist : History (Delivery ι) (DeliveryAction ι)) (s : Delivery ι)
    (j : Nat) : Decidable (ReachesRecipient tokenOf hist s j) :=
  inferInstanceAs (Decidable (∀ f ∈ s.function.submitPayload j, ∀ push ∈ f.sent.getLast?,
    isValidKey push.message.sendTo → push.token ≠ Tree.empty →
      ∃ c, push.token = Node.string (tokenOf c) ∧ SignedIn hist push.message.sendTo c))

/-- Signing up, in and out, with the token of the device for every token request. -/
def DeliveryAction.Plays (tokenOf : ι → String) : DeliveryAction ι → Prop
  | .net (.signUp _ _ _ _ _ newUUID) => isValidKey newUUID
  | .net (.token c _ token) => ∀ t ∈ token, t = tokenOf c
  | .net (.tap _ _) | .net (.kill _ _) | .net (.reload _ _ _) | .net (.remote _) => False
  | _ => True

instance (tokenOf : ι → String) (a : DeliveryAction ι) : Decidable (a.Plays tokenOf) :=
  match a with
  | .net (.signUp _ _ _ _ _ newUUID) => inferInstanceAs (Decidable (isValidKey newUUID))
  | .net (.token c _ token) => inferInstanceAs (Decidable (∀ t ∈ token, t = tokenOf c))
  | .net (.tap _ _) | .net (.kill _ _) | .net (.reload _ _ _) | .net (.remote _) => isFalse id
  | .net (.signIn _ _ _) | .net (.setupUser _ _ _) | .net (.signOut _ _) | .net (.apply _)
  | .net (.deliver _ _) | .sendNotification _ _ | .newNodeDetected _ | .submitPayload _ => isTrue trivial

def deviceIDPath (u : String) : List String := ["users", u, "deviceID"]

/-- The token of device `c` is stored for `u`, is on its way there, or is on its way to the function. -/
def Carries (tokenOf : ι → String) (s : Delivery ι) (u : String) (c : ι) : Prop :=
  s.net.db.sub (deviceIDPath u) = Node.string (tokenOf c) ∨
  (∃ call ∈ s.net.queue c, call.uploadsTo = some u) ∨
  (∃ userName ∈ (s.net.clients c).tokens, accountNode userName = some u) ∨
  ∃ l ∈ s.function.listeners, l.path = deviceIDPath u ∧ Node.string (tokenOf c) ∈ l.events

instance (tokenOf : ι → String) (s : Delivery ι) (u : String) (c : ι) : Decidable (Carries tokenOf s u c) :=
  inferInstanceAs (Decidable (_ ∨ _ ∨ _ ∨ _))

/-- Who is no longer signed in on a device after a step has left no token of it. -/
def LeavesNoToken (tokenOf : ι → String) (hist hist' : History (Delivery ι) (DeliveryAction ι)) (s : Delivery ι) :
    Prop :=
  ∀ c, ∀ account ∈ (lastSignIn c (Delivery.netSteps hist)).account, ∀ u ∈ accountNode account.userName,
    SignedIn hist' u c ∨ ¬ Carries tokenOf s u c

instance [Fintype ι] (tokenOf : ι → String) (hist hist' : History (Delivery ι) (DeliveryAction ι)) (s : Delivery ι) :
    Decidable (LeavesNoToken tokenOf hist hist' s) :=
  inferInstanceAs (Decidable (∀ c, ∀ account ∈ (lastSignIn c (Delivery.netSteps hist)).account,
    ∀ u ∈ accountNode account.userName, SignedIn hist' u c ∨ ¬ Carries tokenOf s u c))

/-- A handler of `signIn` that decodes a user, but whose look-up is older than the last sign-in or sign-out or
had its answer before, asks for the token of a user who is signed in on its device. -/
def AsksForSignedIn (hist : History (Delivery ι) (DeliveryAction ι)) (s : Delivery ι) : DeliveryAction ι → Prop
  | .net (.deliver c i) => ∀ o ∈ (s.net.clients c).observers[i]?, ∀ snapshot ∈ o.events.head?,
    o.entrance = .signIn → i < (lastSignIn c (Delivery.netSteps hist)).older ∨ o.answered →
      (o.decoded snapshot).isSome → ∀ u ∈ accountNode o.userName, SignedIn hist u c
  | _ => True

instance (hist : History (Delivery ι) (DeliveryAction ι)) (s : Delivery ι) (a : DeliveryAction ι) :
    Decidable (AsksForSignedIn hist s a) :=
  match a with
  | .net (.deliver c i) => inferInstanceAs (Decidable (∀ o ∈ (s.net.clients c).observers[i]?,
      ∀ snapshot ∈ o.events.head?, o.entrance = .signIn →
        i < (lastSignIn c (Delivery.netSteps hist)).older ∨ o.answered → (o.decoded snapshot).isSome →
          ∀ u ∈ accountNode o.userName, SignedIn hist u c))
  | .net (.signUp _ _ _ _ _ _) | .net (.signIn _ _ _) | .net (.setupUser _ _ _) | .net (.signOut _ _)
  | .net (.tap _ _) | .net (.token _ _ _) | .net (.apply _) | .net (.kill _ _) | .net (.reload _ _ _)
  | .net (.remote _) | .sendNotification _ _ | .newNodeDetected _ | .submitPayload _ => isTrue trivial

/-- A step after which the tokens still lead to where their owners are signed in. -/
def TokensFollow (tokenOf : ι → String) (hist : History (Delivery ι) (DeliveryAction ι)) (s : Delivery ι)
    (a : DeliveryAction ι) : Prop :=
  a.Plays tokenOf ∧ LeavesNoToken tokenOf hist ((s, a) :: hist) s ∧ AsksForSignedIn hist s a

instance [Fintype ι] (tokenOf : ι → String) (hist : History (Delivery ι) (DeliveryAction ι)) (s : Delivery ι)
    (a : DeliveryAction ι) : Decidable (TokensFollow tokenOf hist s a) :=
  inferInstanceAs (Decidable (_ ∧ _ ∧ _))

/-! ## What one update stores -/

section
variable {tokenOf : ι → String} {c : ι}

/-- An update that device `c` hands over in such a run. -/
inductive Handed (tokenOf : ι → String) (c : ι) : Call → Prop where
  | insertUser (g : Registration) (hg : g.Valid) : Handed tokenOf c (.insertUser g.user)
  | uploadDeviceToken (userName u : String) (hu : accountNode userName = some u) :
    Handed tokenOf c (.uploadDeviceToken userName (tokenOf c))
  | sendNotification (m : Message) (hm : isValidKey m.id) : Handed tokenOf c m.call

/-- A handler finds both names in the node; only the node of a user has them. -/
def HasNames (n : Node) : Prop := (n.leaf ["first_name"]).isSome ∧ (n.leaf ["last_name"]).isSome

/-- Nothing but `users/<u>` has names. -/
def Named (db : Database) : Prop := ∀ p, HasNames (db.sub ("users" :: p)) → ∃ u, p = [u]

theorem accountNode_eq_some {userName u : String} : accountNode userName = some u ↔ pathComponents userName = [u] := by
  unfold accountNode
  split
  · rename_i n hn
    simp [hn]
  · rename_i hno
    exact iff_of_false (by simp) (hno u)

theorem isValidKey.accountNode {u : String} (hu : isValidKey u) : accountNode u = some u :=
  accountNode_eq_some.2 hu.pathComponents

theorem Call.write_uploadDeviceToken_node {userName u : String} (hu : accountNode userName = some u) (t : String) :
    (Call.uploadDeviceToken userName t).write = none ∨
    (Call.uploadDeviceToken userName t).write = some [(deviceIDPath u, .string t)] := by
  have h := Call.write_uploadDeviceToken_cases userName t
  rwa [accountNode_eq_some.1 hu] at h

theorem Message.write_call_cases {m : Message} (hm : isValidKey m.id) (db : Database) :
    ∃ node, db.apply m.call = db.set ["messages", m.id] node := by
  obtain ⟨node, -, hw⟩ := m.write_call hm
  exact ⟨node, by simp [Database.apply, hw]⟩

omit [DecidableEq ι] in
/-- **What an update leaves under `deviceID`**: what was there, nothing, or the token of its device. -/
theorem Handed.deviceID {call : Call} (h : Handed tokenOf c call) (db : Database) (u : String) :
    (db.apply call).sub (deviceIDPath u) = db.sub (deviceIDPath u) ∨
    (db.apply call).sub (deviceIDPath u) = Tree.empty ∨
    call.uploadsTo = some u ∧ (db.apply call).sub (deviceIDPath u) = Node.string (tokenOf c) := by
  cases h with
  | insertUser g hg =>
    have hsub := (g.issued_insertUser hg).insertUser_sub db u "deviceID"
    by_cases hu : u = g.user.userName
    · refine Or.inr (Or.inl ?_)
      rw [deviceIDPath, hsub, if_pos hu, g.user.object_body_other (by decide) (by decide) (by decide)]
    · refine Or.inl ?_
      rw [deviceIDPath, hsub, if_neg hu]
  | uploadDeviceToken userName v hv =>
    unfold Database.apply
    rcases Call.write_uploadDeviceToken_node hv (tokenOf c) with hw | hw
    · exact Or.inl (by rw [hw]; rfl)
    · rw [hw, Option.getD_some, Tree.update_cons, Tree.update_nil]
      by_cases hu : v = u
      · subst hu
        exact Or.inr (Or.inr ⟨hv, Tree.sub_set_self _ _ _⟩)
      · refine Or.inl (Tree.sub_set_apart _ _ (apart_of_length_eq rfl ?_))
        simpa [deviceIDPath] using hu
  | sendNotification m hm =>
    obtain ⟨node, hdb⟩ := Message.write_call_cases hm db
    rw [hdb]
    exact Or.inl (Tree.sub_set_apart _ _ (apart_cons_of_ne _ _ (by decide)))

theorem leaf_dictionary_single {k id : String} {p : List String}
    (h : ((Node.dictionary [(k, .string id)]).leaf p).isSome) : p = [k] := by
  simp only [Node.dictionary, List.map_cons, List.map_nil, Tree.update_cons, Tree.update_nil, Tree.leaf_set] at h
  split at h
  · rename_i hk
    obtain ⟨q, rfl⟩ := hk
    cases q with
    | nil => rfl
    | cons x q => cases h
  · split at h <;> cases h

/-- In the body of a user only the root has names: the dictionary below it has a single entry. -/
theorem Registration.names_body {g : Registration} {q : List String} (h : HasNames (g.user.body.sub q)) : q = [] := by
  cases q with
  | nil => rfl
  | cons k r =>
    exfalso
    change ((object g.user.body k).leaf (r ++ ["first_name"])).isSome ∧
      ((object g.user.body k).leaf (r ++ ["last_name"])).isSome at h
    by_cases hfirst : k = "first_name"
    · rw [hfirst, g.user.object_body_first_name] at h
      cases r <;> cases h.1
    by_cases hlast : k = "last_name"
    · rw [hlast, g.user.object_body_last_name] at h
      cases r <;> cases h.1
    by_cases hrel : k = "relationships"
    · rw [hrel, show "relationships" = Field.key .relationships from rfl, g.user.object_body] at h
      have h1 := leaf_dictionary_single h.1
      have h2 := leaf_dictionary_single h.2
      have heq := List.append_cancel_left (h1.trans h2.symm)
      simp at heq
    · rw [g.user.object_body_other hfirst hlast hrel] at h
      cases h.1

theorem leaf_set_isSome {db : Database} {q p : List String} {n : Node} (hq : ¬ q <+: p)
    (h : ((db.set q n).leaf p).isSome) : (db.leaf p).isSome := by
  rw [Tree.leaf_set, if_neg hq] at h
  split at h
  · cases h
  · exact h

/-- A user who is called like one of the names does not turn it into a string. -/
theorem Registration.leaf_set_body {g : Registration} {db : Database} {x : String}
    (h : ((db.set ["users", g.userName] g.user.body).leaf ["users", x]).isSome) : (db.leaf ["users", x]).isSome := by
  by_cases heq : x = g.userName
  · subst heq
    have hroot : g.user.body.leaf [] = none := by simp [User.body, Node.dictionary, Tree.leaf_set]
    have hbody := Tree.leaf_set_append db g.user.body ["users", g.userName] []
    rw [List.append_nil, hroot] at hbody
    rw [hbody] at h
    cases h
  · have hap : Apart ["users", g.userName] ["users", x] := apart_of_length_eq rfl (by simpa using Ne.symm heq)
    rwa [Tree.leaf_set_apart _ _ hap] at h

/-- A registration names its own node and no other. -/
theorem Named.set_body {db : Database} (h : Named db) (g : Registration) :
    Named (db.set ["users", g.userName] g.user.body) := by
  intro p hp
  cases p with
  | nil => exact h [] ⟨Registration.leaf_set_body hp.1, Registration.leaf_set_body hp.2⟩
  | cons a q =>
    by_cases ha : a = g.userName
    · subst ha
      rw [show "users" :: g.userName :: q = ["users", g.userName] ++ q from rfl, ← Tree.sub_sub, Tree.sub_set_self] at hp
      rw [g.names_body hp]
      exact ⟨_, rfl⟩
    · have hap : Apart ["users", g.userName] ("users" :: a :: q) := apart_cons.2 (apart_cons_of_ne _ _ (Ne.symm ha))
      rw [Tree.sub_set_apart _ _ hap] at hp
      exact h _ hp

/-- A stored token is no name. -/
theorem Named.set_token {db : Database} (h : Named db) (u t : String) :
    Named (db.set (deviceIDPath u) (Node.string t)) := by
  have hleaf : ∀ (p : List String) (x : String), x ≠ "deviceID" →
      ((db.set (deviceIDPath u) (Node.string t)).leaf ("users" :: p ++ [x])).isSome →
      (db.leaf ("users" :: p ++ [x])).isSome := by
    intro p x hx hsome
    by_cases hpre : deviceIDPath u <+: "users" :: p ++ [x]
    · obtain ⟨r, hr⟩ := hpre
      rw [Tree.leaf_set, if_pos ⟨r, hr⟩, ← hr, List.drop_left] at hsome
      cases r with
      | nil =>
        have hlast := congrArg List.getLast? hr
        rw [List.append_nil, List.getLast?_append] at hlast
        exact absurd (Option.some.inj hlast).symm hx
      | cons y r => cases hsome
    · exact leaf_set_isSome hpre hsome
  exact fun p hp => h p ⟨hleaf p _ (by decide) hp.1, hleaf p _ (by decide) hp.2⟩

/-- What is stored outside `users` names nobody. -/
theorem Named.set_apart {db : Database} (h : Named db) {k : String} (hk : k ≠ "users") (p : List String) (n : Node) :
    Named (db.set (k :: p) n) := by
  intro q hq
  rw [Tree.sub_set_apart _ _ (apart_cons_of_ne _ _ hk)] at hq
  exact h q hq

omit [DecidableEq ι] in
/-- **Names stay where they belong.** -/
theorem Handed.named {call : Call} (h : Handed tokenOf c call) {db : Database} (hdb : Named db) :
    Named (db.apply call) := by
  cases h with
  | insertUser g hg =>
    have hw : db.apply (.insertUser g.user) =
        (db.set ["users", g.userName] g.user.body).set ["relationships", g.uuid] (Registration.selfRecord g.userName) := by
      rw [Database.apply, g.write_insertUser hg]
      rfl
    rw [hw]
    exact (hdb.set_body g).set_apart (by decide) _ _
  | uploadDeviceToken userName v hv =>
    rw [Database.apply]
    rcases Call.write_uploadDeviceToken_node hv (tokenOf c) with hw | hw
    · rw [hw]
      exact hdb
    · rw [hw]
      exact hdb.set_token v _
  | sendNotification m hm =>
    obtain ⟨node, heq⟩ := Message.write_call_cases hm db
    rw [heq]
    exact hdb.set_apart (by decide) _ _

end

/-! ## The invariant -/

/-- Nothing, or the token of a device. -/
def IsToken (tokenOf : ι → String) (n : Node) : Prop := n = Tree.empty ∨ ∃ c, n = Node.string (tokenOf c)

/-- An observer that ever decodes a user is at the node of a user. -/
def Observer.Watches (o : Observer) : Prop :=
  ∀ snapshot ∈ o.events, HasNames snapshot → ∃ u, accountNode o.userName = some u

/-- No token is found where it does not belong, as long as nobody leaves one. -/
structure Kept (tokenOf : ι → String) (hist : History (Delivery ι) (DeliveryAction ι)) (s : Delivery ι) : Prop where
  carried : ∀ u c, Carries tokenOf s u c → SignedIn hist u c
  handed : ∀ c, ∀ call ∈ s.net.queue c, Handed tokenOf c call
  requested : ∀ c, ∀ userName ∈ (s.net.clients c).tokens, ∃ u, accountNode userName = some u
  watched : ∀ c, ∀ o ∈ (s.net.clients c).observers, o.Watches
  named : Named s.net.db
  stored : ∀ u, IsToken tokenOf (s.net.db.sub (deviceIDPath u))
  listened : ∀ l ∈ s.function.listeners, isValidKey l.message.sendTo → l.path = deviceIDPath l.message.sendTo
  heard : ∀ l ∈ s.function.listeners, ∀ u, l.path = deviceIDPath u → ∀ n ∈ l.events, IsToken tokenOf n

section
variable {tokenOf : ι → String} {hist hist' : History (Delivery ι) (DeliveryAction ι)} {s s' : Delivery ι}

/-- Where nobody leaves a token, one may only turn up where its device is signed in. -/
theorem Kept.carried_of (h : Kept tokenOf hist s) (hleft : LeavesNoToken tokenOf hist hist' s)
    (hnew : ∀ u c, Carries tokenOf s' u c → Carries tokenOf s u c ∨ SignedIn hist' u c) (u : String) (c : ι)
    (hc : Carries tokenOf s' u c) : SignedIn hist' u c := by
  rcases hnew u c hc with hold | hin
  · obtain ⟨account, haccount, hu⟩ := h.carried u c hold
    exact (hleft c account haccount u hu).resolve_right (not_not.2 hold)
  · exact hin

/-- **A device does something.** -/
theorem Kept.setClient (h : Kept tokenOf hist s) {c : ι} {k : Client}
    (hleft : LeavesNoToken tokenOf hist hist' s)
    (hqueue : ∀ call ∈ k.queue, call ∈ s.net.queue c ∨
      Handed tokenOf c call ∧ ∀ u, call.uploadsTo = some u → Carries tokenOf s u c)
    (htokens : ∀ userName ∈ k.tokens, userName ∈ (s.net.clients c).tokens ∨
      ∃ u, accountNode userName = some u ∧ SignedIn hist' u c)
    (hobservers : ∀ o ∈ k.observers, o.Watches) :
    Kept tokenOf hist' { s with net := s.net.setClient c k } := by
  have hclient : (s.net.setClient c k).clients c = k := by rw [State.setClient_clients, if_pos rfl]
  have hother : ∀ d, d ≠ c → (s.net.setClient c k).clients d = s.net.clients d := fun d hd => by
    rw [State.setClient_clients, if_neg hd]
  refine ⟨h.carried_of hleft fun u d hcarries => ?_, fun d call hcall => ?_, fun d userName hname => ?_,
    fun d o ho => ?_, h.named, h.stored, h.listened, h.heard⟩
  · rcases hcarries with hstored | ⟨call, hcall, hu⟩ | ⟨userName, hname, hu⟩ | hheard
    · exact Or.inl (Or.inl hstored)
    · by_cases hd : d = c
      · subst hd
        rw [State.queue, hclient] at hcall
        rcases hqueue call hcall with hold | ⟨-, hnew⟩
        · exact Or.inl (Or.inr (Or.inl ⟨call, hold, hu⟩))
        · exact Or.inl (hnew u hu)
      · rw [State.queue, hother d hd] at hcall
        exact Or.inl (Or.inr (Or.inl ⟨call, hcall, hu⟩))
    · by_cases hd : d = c
      · subst hd
        rw [hclient] at hname
        rcases htokens userName hname with hold | ⟨v, hv, hin⟩
        · exact Or.inl (Or.inr (Or.inr (Or.inl ⟨userName, hold, hu⟩)))
        · obtain rfl := Option.some.inj (hu.symm.trans hv)
          exact Or.inr hin
      · rw [hother d hd] at hname
        exact Or.inl (Or.inr (Or.inr (Or.inl ⟨userName, hname, hu⟩)))
    · exact Or.inl (Or.inr (Or.inr (Or.inr hheard)))
  · by_cases hd : d = c
    · subst hd
      rw [State.queue, hclient] at hcall
      exact (hqueue call hcall).elim (h.handed d call) And.left
    · rw [State.queue, hother d hd] at hcall
      exact h.handed d call hcall
  · by_cases hd : d = c
    · subst hd
      rw [hclient] at hname
      rcases htokens userName hname with hold | ⟨u, hu, -⟩
      · exact h.requested d userName hold
      · exact ⟨u, hu⟩
    · rw [hother d hd] at hname
      exact h.requested d userName hname
  · by_cases hd : d = c
    · subst hd
      rw [hclient] at ho
      exact hobservers o ho
    · rw [hother d hd] at ho
      exact h.watched d o ho

theorem Observer.hasNames_of_decoded {o : Observer} {snapshot : Node} {user : User}
    (h : o.decoded snapshot = some user) : HasNames snapshot := by
  have hleaf : ∀ {k t : String}, (object snapshot k).asString? = some t → (snapshot.leaf [k]).isSome := by
    intro k t hk
    have hroot := congrArg (fun n => Tree.leaf n []) (Node.asString?_eq_some.1 hk)
    exact Option.isSome_iff_exists.2 ⟨_, hroot⟩
  unfold decoded SessionStore.retrieved at h
  cases hv : snapshot.asDictionary? with
  | none => simp [hv, SessionStore.decodeUser] at h
  | some value =>
    obtain rfl := Node.asDictionary?_eq_some hv
    simp only [hv, SessionStore.decodeUser, Option.bind_eq_bind, Option.bind_some, Option.bind_eq_some_iff] at h
    obtain ⟨_, hfirst, _, hlast, -⟩ := h
    exact ⟨hleaf hfirst, hleaf hlast⟩

/-- A snapshot of the database is one of a user or does not decode. -/
theorem Named.watches {db : Database} (hdb : Named db) {o : Observer} (events : List Node)
    (he : ∀ snapshot ∈ o.events, snapshot ∈ events ∨ snapshot = db.sub o.path)
    (hold : ∀ snapshot ∈ events, HasNames snapshot → ∃ u, accountNode o.userName = some u) : o.Watches := by
  intro snapshot hmem hn
  rcases he snapshot hmem with hin | rfl
  · exact hold snapshot hin hn
  · obtain ⟨u, hu⟩ := hdb _ hn
    exact ⟨u, accountNode_eq_some.2 hu⟩

theorem Kept.observe (h : Kept tokenOf hist s) (c : ι) (entrance : Entrance) (auth : AuthUser) (userName : String)
    (hleft : LeavesNoToken tokenOf hist hist' s) :
    Kept tokenOf hist'
      { s with net := s.net.setClient c ((s.net.clients c).observe s.net.db entrance auth userName) } := by
  rcases (s.net.clients c).observe_cases s.net.db entrance auth userName with ⟨path, hpath, hk⟩ | hk <;>
    rw [hk]
  · refine h.setClient hleft (fun call hcall => Or.inl hcall) (fun n hn => Or.inl hn) fun o ho => ?_
    rcases List.mem_append.1 ho with ho | ho
    · exact h.watched c o ho
    · rw [List.mem_singleton] at ho
      subst ho
      have hpath' : path = "users" :: pathComponents userName := by
        simp only [child, Option.ite_none_right_eq_some, Option.some.injEq] at hpath
        exact hpath.2.symm
      refine h.named.watches [] (fun snapshot hmem => Or.inr ?_) (fun _ hmem => by cases hmem)
      rw [List.mem_singleton.1 hmem, hpath']
      rfl
  · exact h.setClient hleft (fun call hcall => Or.inl hcall) (fun n hn => by cases hn) (fun o ho => by cases ho)

theorem Request.mem_filterMap_call? {rs : List Request} {call : Call} :
    call ∈ rs.filterMap Request.call? ↔ Request.call call ∈ rs := by
  rw [List.mem_filterMap]
  constructor
  · rintro ⟨r, hr, heq⟩
    cases r with
    | call c =>
      cases heq
      exact hr
    | token n => cases heq
  · exact fun h => ⟨_, h, rfl⟩

theorem Request.mem_filterMap_token? {rs : List Request} {userName : String} :
    userName ∈ rs.filterMap Request.token? ↔ Request.token userName ∈ rs := by
  rw [List.mem_filterMap]
  constructor
  · rintro ⟨r, hr, heq⟩
    cases r with
    | call c => cases heq
    | token n =>
      cases heq
      exact hr
  · exact fun h => ⟨_, h, rfl⟩

/-- **A method returns**, on a device `k` that has at most what it had before. -/
theorem Kept.finish (h : Kept tokenOf hist s) {c : ι} {k : Client} {e : Effect Request SessionStore}
    (hleft : LeavesNoToken tokenOf hist hist' s)
    (hqueue : k.queue = s.net.queue c) (htokens : k.tokens ⊆ (s.net.clients c).tokens)
    (hobservers : ∀ o ∈ k.observers, o.Watches)
    (hcalls : ∀ call, Request.call call ∈ e.issued →
      Handed tokenOf c call ∧ ∀ u, call.uploadsTo = some u → Carries tokenOf s u c)
    (hnames : e.value.isSome → ∀ userName, Request.token userName ∈ e.issued →
      ∃ u, accountNode userName = some u ∧ SignedIn hist' u c) :
    Kept tokenOf hist' { s with net := s.net.setClient c (k.finish e) } := by
  refine h.setClient hleft (fun call hcall => ?_) (fun n hn => ?_) fun o ho => ?_
  · rw [Client.finish_queue, hqueue] at hcall
    exact (List.mem_append.1 hcall).imp_right fun hnew => hcalls call (Request.mem_filterMap_call?.1 hnew)
  · rw [Client.finish_tokens] at hn
    cases hv : e.value with
    | none => simp [hv] at hn
    | some store =>
      rw [hv, Option.isSome_some, if_pos rfl] at hn
      refine (List.mem_append.1 hn).imp (fun hold => htokens hold) fun hnew => ?_
      exact hnames (by rw [hv]; rfl) n (Request.mem_filterMap_token?.1 hnew)
  · rw [Client.finish_observers] at ho
    split at ho
    · exact hobservers o ho
    · cases ho

/-- `signUp` does nothing for the database, or inserts a user and asks for a token. -/
theorem SessionStore.signUp_cases (store : SessionStore) (authResult : Option AuthUser)
    (userName firstName lastName : String) {newUUID : String} (hid : isValidKey newUUID) :
    (store.signUp authResult userName firstName lastName newUUID).issued = [] ∨
    ∃ g : Registration, g.Valid ∧ authResult = some g.auth ∧ userName = g.userName ∧
      store.signUp authResult userName firstName lastName newUUID =
      ⟨[.call (.insertUser g.user), .token g.userName], some { store with session := some g.user }⟩ := by
  cases authResult with
  | none => exact Or.inl rfl
  | some auth =>
    let g : Registration := ⟨auth, userName, firstName, lastName, newUUID, none⟩
    by_cases hw : (Call.insertUser g.user).write.isSome
    · exact Or.inr ⟨g, ⟨(Registration.insertUser_isSome_iff hid).1 hw, hid⟩, rfl, rfl, if_pos hw⟩
    · refine Or.inl ?_
      rw [show store.signUp (some auth) userName firstName lastName newUUID = Effect.trap from if_neg hw]
      rfl

theorem Kept.signUp (h : Kept tokenOf hist s) (c : ι) (authResult : Option AuthUser)
    (userName firstName lastName : String) {newUUID : String} (hid : isValidKey newUUID)
    (hleft : LeavesNoToken tokenOf hist
      ((s, .net (.signUp c authResult userName firstName lastName newUUID)) :: hist) s) :
    Kept tokenOf ((s, .net (.signUp c authResult userName firstName lastName newUUID)) :: hist)
      { s with net := s.net.setClient c ((s.net.clients c).finish
        ((s.net.clients c).store.signUp authResult userName firstName lastName newUUID)) } := by
  refine h.finish hleft rfl (List.Subset.refl _) (h.watched c) (fun call hcall => ?_) fun hsome n hn => ?_
  · rcases SessionStore.signUp_cases _ authResult userName firstName lastName hid with hnone | ⟨g, hg, -, -, heq⟩
    · rw [hnone] at hcall
      cases hcall
    · rw [heq] at hcall
      obtain rfl : call = .insertUser g.user := by simpa using hcall
      exact ⟨.insertUser g hg, fun u hu => nomatch hu⟩
  · rcases SessionStore.signUp_cases (s.net.clients c).store authResult userName firstName lastName hid with
      hnone | ⟨g, hg, rfl, rfl, heq⟩
    · rw [hnone] at hn
      cases hn
    · rw [heq] at hn
      obtain rfl : n = g.userName := by simpa using hn
      exact ⟨g.userName, hg.1.accountNode, _, lastSignIn_signUp hsome, hg.1.accountNode⟩

/-- The token of the device is stored under the name that was asked for. -/
theorem Kept.token (h : Kept tokenOf hist s) {c : ι} {i : Nat} {userName : String}
    (hi : (s.net.clients c).tokens[i]? = some userName) {token : Option String}
    (ht : ∀ t ∈ token, t = tokenOf c)
    (hleft : LeavesNoToken tokenOf hist hist' s) :
    Kept tokenOf hist' { s with net := s.net.tokenCallback c i userName token } := by
  have hsub : (s.net.clients c).tokens.eraseIdx i ⊆ (s.net.clients c).tokens := List.eraseIdx_subset
  cases token with
  | none =>
    exact h.setClient hleft (fun call hcall => Or.inl hcall) (fun n hn => Or.inl (hsub hn)) (h.watched c)
  | some t =>
    obtain rfl := ht t rfl
    have hmem : userName ∈ (s.net.clients c).tokens := List.mem_of_getElem? hi
    obtain ⟨u, hu⟩ := h.requested c userName hmem
    refine h.finish hleft rfl hsub (h.watched c) (fun call hcall => ?_) fun hsome n hn => ?_
    · rw [Effect.mapIssued_issued, Call.send_bind] at hcall
      split at hcall
      · obtain rfl : call = .uploadDeviceToken userName (tokenOf c) := by simpa using hcall
        exact ⟨.uploadDeviceToken userName u hu, fun v hv => Or.inr (Or.inr (Or.inl ⟨userName, hmem, hv⟩))⟩
      · cases hcall
    · rw [Effect.mapIssued_issued] at hn
      obtain ⟨call, -, hno⟩ := List.mem_map.1 hn
      cases hno

/-- **An event is handled**: who is asked a token for is signed in. -/
theorem Kept.deliver (h : Kept tokenOf hist s) {c : ι} {i : Nat} {o : Observer} {snapshot : Node} {events : List Node}
    (ho : (s.net.clients c).observers[i]? = some o) (he : o.events = snapshot :: events)
    (hleft : LeavesNoToken tokenOf hist ((s, .net (.deliver c i)) :: hist) s)
    (hasks : AsksForSignedIn hist s (.net (.deliver c i))) :
    Kept tokenOf ((s, .net (.deliver c i)) :: hist) { s with net := s.net.handle c i o snapshot events } := by
  have hwatched : o.Watches := h.watched c o (List.mem_of_getElem? ho)
  refine h.finish hleft rfl (List.Subset.refl _) (fun o' ho' => ?_) (fun call hcall => ?_) fun _ n hn => ?_
  · rcases List.mem_or_eq_of_mem_set ho' with hold | rfl
    · exact h.watched c o' hold
    · exact fun x hx => hwatched x (by rw [he]; exact List.mem_cons_of_mem _ hx)
  · have hmem := Request.mem_filterMap_call?.2 hcall
    rw [o.completion_calls] at hmem
    cases hmem
  · cases hd : o.decoded snapshot with
    | none =>
      rw [Observer.completion_none hd] at hn
      split at hn <;> cases hn
    | some user =>
      have hstep : s.net.step (.deliver c i) = some (s.net.handle c i o snapshot events) :=
        State.step_deliver.2 ⟨o, snapshot, events, ho, he, rfl⟩
      have hsession : (s.net.handle c i o snapshot events).session c = some user :=
        State.session_deliver hstep ho (by rw [he]; rfl) hd
      have hlast : (lastSignIn c ((s.net, .deliver c i) :: Delivery.netSteps hist)).account = _ :=
        lastSignIn_deliver hstep ho he hd hsession
      rw [Observer.completion_some hd] at hn
      obtain ⟨hentrance, hname⟩ : o.entrance = .signIn ∧ n = o.userName := by
        split at hn
        · rename_i hentrance
          exact ⟨hentrance, by simpa using hn⟩
        · cases hn
      subst hname
      obtain ⟨u, hu⟩ := hwatched snapshot (by rw [he]; exact List.mem_cons_self) (Observer.hasNames_of_decoded hd)
      refine ⟨u, hu, ?_⟩
      by_cases hold : i < (lastSignIn c (Delivery.netSteps hist)).older ∨ o.answered
      -- the token is asked for again
      · obtain ⟨account, haccount, hnode⟩ := hasks o ho snapshot (by rw [he]; rfl) hentrance hold (by rw [hd]; rfl) u hu
        rw [if_pos hold] at hlast
        exact ⟨account, hlast.trans haccount, hnode⟩
      -- the event completes a sign-in
      · rw [if_neg hold] at hlast
        exact ⟨o.account, hlast, hu⟩

/-- **The server applies an update**: a token it stores was waiting. -/
theorem Kept.apply (h : Kept tokenOf hist s) (hinj : Function.Injective tokenOf) {c : ι} {call : Call} {rest : List Call}
    (hq : s.net.queue c = call :: rest) {net : State ι} (hdb : net.db = s.net.db.apply call)
    (hqueue : ∀ d, net.queue d = if d = c then rest else s.net.queue d)
    (htokens : ∀ d, (net.clients d).tokens = (s.net.clients d).tokens)
    (hobservers : ∀ d, (net.clients d).observers = (s.net.clients d).observers.map fun o => o.notify s.net.db net.db)
    (m : Option Message)
    (hleft : LeavesNoToken tokenOf hist hist' s) :
    Kept tokenOf hist' ⟨net, s.function.changed s.net.db net.db m⟩ := by
  have hcall : Handed tokenOf c call := h.handed c call (by rw [hq]; exact List.mem_cons_self)
  have hrest : ∀ d, net.queue d ⊆ s.net.queue d := by
    intro d x hx
    rw [hqueue] at hx
    split at hx
    · rename_i hd
      rw [hd, hq]
      exact List.mem_cons_of_mem _ hx
    · exact hx
  have hwaiting : ∀ u d, net.db.sub (deviceIDPath u) = Node.string (tokenOf d) → Carries tokenOf s u d := by
    intro u d heq
    rw [hdb] at heq
    rcases hcall.deviceID s.net.db u with hsame | hempty | ⟨hu, hset⟩
    · exact Or.inl (hsame.symm.trans heq)
    · exact absurd (heq.symm.trans hempty) (Node.string_ne_empty _)
    · obtain rfl : c = d := hinj (Node.string_inj.1 (hset.symm.trans heq))
      exact Or.inr (Or.inl ⟨call, by rw [hq]; exact List.mem_cons_self, hu⟩)
  have hstored : ∀ u, IsToken tokenOf (net.db.sub (deviceIDPath u)) := by
    intro u
    rw [hdb]
    rcases hcall.deviceID s.net.db u with hsame | hempty | ⟨-, hset⟩
    · rw [hsame]
      exact h.stored u
    · exact Or.inl hempty
    · exact Or.inr ⟨c, hset⟩
  refine ⟨h.carried_of hleft fun u d hcarries => Or.inl ?_, fun d x hx => h.handed d x (hrest d hx),
    fun d n hn => h.requested d n (by rwa [← htokens d]), fun d o ho => ?_, ?_, hstored, fun l hl => ?_, fun l hl => ?_⟩
  · rcases hcarries with heq | ⟨x, hx, hu⟩ | ⟨n, hn, hu⟩ | ⟨l, hl, hpath, hmem⟩
    · exact hwaiting u d heq
    · exact Or.inr (Or.inl ⟨x, hrest d hx, hu⟩)
    · exact Or.inr (Or.inr (Or.inl ⟨n, by rwa [← htokens d], hu⟩))
    · obtain ⟨l₀, hl₀, rfl⟩ := List.mem_map.1 hl
      obtain ⟨-, hp, hevents⟩ := l₀.notify_cases s.net.db net.db
      rw [hp] at hpath
      rcases hevents _ hmem with hold | hnew
      · exact Or.inr (Or.inr (Or.inr ⟨l₀, hl₀, hpath, hold⟩))
      · exact hwaiting u d (by rw [← hpath, hnew])
  · rw [hobservers] at ho
    obtain ⟨o₀, ho₀, rfl⟩ := List.mem_map.1 ho
    have hnamed : Named net.db := hdb ▸ hcall.named h.named
    have hold := h.watched d o₀ ho₀
    unfold Observer.notify
    split
    · exact hold
    · exact hnamed.watches o₀.events (fun x hx => (List.mem_append.1 hx).imp_right List.mem_singleton.1) hold
  · exact hdb ▸ hcall.named h.named
  · obtain ⟨l₀, hl₀, rfl⟩ := List.mem_map.1 hl
    obtain ⟨hmessage, hp, -⟩ := l₀.notify_cases s.net.db net.db
    rw [hmessage, hp]
    exact h.listened l₀ hl₀
  · obtain ⟨l₀, hl₀, rfl⟩ := List.mem_map.1 hl
    obtain ⟨-, hp, hevents⟩ := l₀.notify_cases s.net.db net.db
    rw [hp]
    intro u hu n hn
    rcases hevents n hn with hold | rfl
    · exact h.heard l₀ hl₀ u hu n hold
    · rw [hu]
      exact hstored u

/-- Nothing happens in the database. -/
theorem CloudFunction.changed_self (f : CloudFunction) (db : Database) : f.changed db db none = f := by
  have hsame : f.listeners.map (fun l => l.notify db db) = f.listeners := by
    refine (List.map_congr_left fun l _ => ?_).trans (List.map_id _)
    exact if_pos rfl
  simp only [changed, hsame, Option.filter_none, Option.toList_none, List.append_nil]

/-- **The function does something**: what a listener is told is stored, or it was on its way to one before. -/
theorem Kept.function (h : Kept tokenOf hist s) {f : CloudFunction} (hleft : LeavesNoToken tokenOf hist hist' s)
    (hlisteners : ∀ x ∈ f.listeners,
      (isValidKey x.message.sendTo → x.path = deviceIDPath x.message.sendTo) ∧
      ∀ n ∈ x.events, n = s.net.db.sub x.path ∨ ∃ l ∈ s.function.listeners, l.path = x.path ∧ n ∈ l.events) :
    Kept tokenOf hist' { s with function := f } := by
  refine ⟨h.carried_of hleft fun u c hc => Or.inl ?_, h.handed, h.requested, h.watched, h.named, h.stored,
    fun x hx => (hlisteners x hx).1, fun x hx u hu n hn => ?_⟩
  · rcases hc with hstored | hcall | hname | ⟨x, hx, hu, ht⟩
    · exact Or.inl hstored
    · exact Or.inr (Or.inl hcall)
    · exact Or.inr (Or.inr (Or.inl hname))
    · rcases (hlisteners x hx).2 _ ht with hnow | ⟨l, hl, hpath, hold⟩
      · rw [hu] at hnow
        exact Or.inl hnow.symm
      · exact Or.inr (Or.inr (Or.inr ⟨l, hl, hpath.trans hu, hold⟩))
  · rcases (hlisteners x hx).2 n hn with rfl | ⟨l, hl, hpath, hold⟩
    · rw [hu]
      exact h.stored u
    · exact h.heard l hl u (hpath.trans hu) n hold

/-- **One step of the devices and the server.** -/
theorem Kept.net (h : Kept tokenOf hist s) (hinj : Function.Injective tokenOf) {a : Action ι}
    (ha : TokensFollow tokenOf hist s (.net a)) (hs : s.step (.net a) = some s') :
    Kept tokenOf ((s, .net a) :: hist) s' := by
  obtain ⟨ha, hleft, hasks⟩ := ha
  obtain ⟨net, hnet, rfl⟩ := Option.map_eq_some_iff.1 hs
  have hquiet : ∀ k : State ι, k.db = s.net.db → s.net.created a = none →
      (⟨k, s.function.changed s.net.db k.db (s.net.created a)⟩ : Delivery ι) = { s with net := k } := by
    intro k hdb hnone
    rw [hdb, hnone, CloudFunction.changed_self]
  cases a with
  | apply c =>
    obtain ⟨call, rest, hq, rfl⟩ := State.step_apply.1 hnet
    refine h.apply hinj (c := c) hq rfl (fun d => ?_) (fun d => ?_) (fun d => ?_) _ hleft
    all_goals
      simp only [State.queue, State.commit, Client.notify, State.setClient_clients]
      split
    · rfl
    · rfl
    · rename_i hd
      rw [hd]
    · rfl
    · rename_i hd
      rw [hd]
      rfl
    · rfl
  | signUp c authResult userName firstName lastName newUUID =>
    cases hnet
    rw [hquiet (s.net.setClient c _) rfl rfl]
    exact h.signUp c authResult userName firstName lastName ha hleft
  | signIn c authResult userName =>
    cases authResult with
    | none =>
      cases hnet
      rw [hquiet _ rfl rfl]
      exact h.function hleft fun x hx => ⟨h.listened x hx, fun n hn => Or.inr ⟨x, hx, rfl, hn⟩⟩
    | some auth =>
      cases hnet
      rw [hquiet (s.net.setClient c _) rfl rfl]
      exact h.observe c .signIn auth userName hleft
  | setupUser c auth userName =>
    cases hnet
    rw [hquiet (s.net.setClient c _) rfl rfl]
    exact h.observe c .setupUser auth userName hleft
  | signOut c signedOut =>
    cases hnet
    rw [hquiet (s.net.setClient c _) rfl rfl]
    exact h.setClient hleft (fun call hcall => Or.inl hcall) (fun n hn => Or.inl hn) (h.watched c)
  | token c i token =>
    obtain ⟨userName, hi, rfl⟩ := State.step_token.1 hnet
    have hdb : (s.net.tokenCallback c i userName token).db = s.net.db := by cases token <;> rfl
    rw [hquiet _ hdb rfl]
    exact h.token hi ha hleft
  | deliver c i =>
    obtain ⟨o, snapshot, events, ho, he, rfl⟩ := State.step_deliver.1 hnet
    rw [hquiet (s.net.handle c i o snapshot events) rfl rfl]
    exact h.deliver ho he hleft hasks
  | tap c op => exact absurd ha id
  | kill c sent => exact absurd ha id
  | reload c o snapshot => exact absurd ha id
  | remote w => exact absurd ha id

theorem Kept.sendNotification (h : Kept tokenOf hist s) {c : ι} {m : Message} (hm : isValidKey m.id)
    (hleft : LeavesNoToken tokenOf hist hist' s) :
    Kept tokenOf hist'
      { s with net := s.net.setClient c { s.net.clients c with queue := s.net.queue c ++ [m.call] } } := by
  refine h.setClient hleft (fun call hcall => ?_) (fun n hn => Or.inl hn) (h.watched c)
  refine (List.mem_append.1 hcall).imp_right fun hnew => ?_
  rw [List.mem_singleton.1 hnew]
  exact ⟨.sendNotification m hm, fun u hu => nomatch hu⟩

theorem Kept.newNodeDetected (h : Kept tokenOf hist s) {i : Nat} {f : CloudFunction}
    (hf : s.function.newNodeDetected s.net.db i = some f)
    (hleft : LeavesNoToken tokenOf hist hist' s) : Kept tokenOf hist' { s with function := f } := by
  refine h.function hleft fun x hx => ?_
  have hold : x ∈ s.function.listeners → (isValidKey x.message.sendTo → x.path = deviceIDPath x.message.sendTo) ∧
      ∀ n ∈ x.events, n = s.net.db.sub x.path ∨ ∃ l ∈ s.function.listeners, l.path = x.path ∧ n ∈ l.events :=
    fun hx => ⟨h.listened x hx, fun n hn => Or.inr ⟨x, hx, rfl, hn⟩⟩
  obtain ⟨m, -, -, -, hsame | ⟨path, hpath, hnew⟩⟩ := CloudFunction.newNodeDetected_cases hf
  · rw [hsame] at hx
    exact hold hx
  · rw [hnew] at hx
    rcases List.mem_append.1 hx with hx | hx
    · exact hold hx
    · rw [List.mem_singleton] at hx
      subst hx
      refine ⟨fun hkey => ?_, fun n hn => Or.inl (List.mem_singleton.1 hn)⟩
      rw [Message.ref_eq hpath, hkey.pathComponents]
      rfl

theorem Kept.submitPayload (h : Kept tokenOf hist s) {j : Nat} {f : CloudFunction}
    (hf : s.function.submitPayload j = some f) (hleft : LeavesNoToken tokenOf hist hist' s) :
    Kept tokenOf hist' { s with function := f } := by
  obtain ⟨l, token, events, hl, he, rfl⟩ := CloudFunction.submitPayload_cases hf
  have hmem : l ∈ s.function.listeners := List.mem_of_getElem? hl
  refine h.function hleft fun x hx => ?_
  rcases List.mem_or_eq_of_mem_set hx with hx | rfl
  · exact ⟨h.listened x hx, fun n hn => Or.inr ⟨x, hx, rfl, hn⟩⟩
  · refine ⟨h.listened l hmem, fun n hn => Or.inr ⟨l, hmem, rfl, ?_⟩⟩
    rw [he]
    exact List.mem_cons_of_mem _ hn

/-- **One step** keeps the tokens where they belong, unless someone leaves one. -/
theorem Kept.step (h : Kept tokenOf hist s) (hinj : Function.Injective tokenOf) {a : DeliveryAction ι}
    (ha : TokensFollow tokenOf hist s a) (hs : s.step a = some s') : Kept tokenOf ((s, a) :: hist) s' := by
  have hleft := ha.2.1
  cases a with
  | net a => exact h.net hinj ha hs
  | sendNotification c m =>
    simp only [Delivery.step, Option.ite_none_right_eq_some, Option.some.injEq] at hs
    obtain ⟨hm, rfl⟩ := hs
    exact h.sendNotification hm hleft
  | newNodeDetected i =>
    obtain ⟨f, hf, rfl⟩ := Option.map_eq_some_iff.1 hs
    exact h.newNodeDetected hf hleft
  | submitPayload j =>
    obtain ⟨f, hf, rfl⟩ := Option.map_eq_some_iff.1 hs
    exact h.submitPayload hf hleft

theorem Kept.reaches (h : Kept tokenOf hist s) (j : Nat) : ReachesRecipient tokenOf hist s j := by
  intro f hf push hpush hkey hne
  obtain ⟨l, token, events, hl, he, rfl⟩ := CloudFunction.submitPayload_cases hf
  obtain rfl : push = ⟨l.message, token⟩ := by simpa using hpush.symm
  have hmem : l ∈ s.function.listeners := List.mem_of_getElem? hl
  have hpath := h.listened l hmem hkey
  have htoken : token ∈ l.events := by rw [he]; exact List.mem_cons_self
  obtain ⟨c, hc⟩ := (h.heard l hmem _ hpath token htoken).resolve_left hne
  refine ⟨c, hc, h.carried _ c (Or.inr (Or.inr (Or.inr ⟨l, hmem, hpath, ?_⟩)))⟩
  rw [← hc]
  exact htoken

end

/-! ## Every run -/

/-- A database of accounts that no device has uploaded a token for. -/
structure Blank (db : Database) : Prop where
  named : Named db
  tokens : ∀ u, db.sub (deviceIDPath u) = Tree.empty

theorem blank_empty : Blank Tree.empty := ⟨fun _ hp => (nomatch hp.1), fun _ => rfl⟩

theorem Kept.start (tokenOf : ι → String) {db : Database} (h : Blank db) :
    Kept tokenOf [] (Delivery.start db : Delivery ι) where
  carried u c hc := by
    rcases hc with hstored | ⟨call, hcall, -⟩ | ⟨name, hname, -⟩ | ⟨l, hl, -⟩
    · exact absurd ((h.tokens u).symm.trans hstored).symm (Node.string_ne_empty _)
    · cases hcall
    · cases hname
    · cases hl
  handed _ _ hcall := nomatch hcall
  requested _ _ hname := nomatch hname
  watched _ _ ho := nomatch ho
  named := h.named
  stored u := Or.inl (h.tokens u)
  listened _ hl := nomatch hl
  heard _ hl := nomatch hl

/-- The token of the device that someone else uses now is not the one. -/
theorem ReachesRecipient.others {tokenOf : ι → String} (hinj : Function.Injective tokenOf)
    {hist : History (Delivery ι) (DeliveryAction ι)} {s : Delivery ι} {j : Nat}
    (h : ReachesRecipient tokenOf hist s j) {f : CloudFunction} (hf : f ∈ s.function.submitPayload j) {push : Push}
    (hpush : push ∈ f.sent.getLast?) (hkey : isValidKey push.message.sendTo) {c : ι} {v : String}
    (hv : SignedIn hist v c) (hne : v ≠ push.message.sendTo) : push.token ≠ Node.string (tokenOf c) := by
  intro htoken
  have hsome : push.token ≠ Tree.empty := by
    rw [htoken]
    exact Node.string_ne_empty _
  obtain ⟨d, hd, account, haccount, hu⟩ := h f hf push hpush hkey hsome
  obtain rfl : d = c := hinj (Node.string_inj.1 (hd.symm.trans htoken))
  obtain ⟨account', haccount', hv⟩ := hv
  obtain rfl := Option.some.inj (Eq.trans (Eq.symm haccount) haccount')
  exact hne (Option.some.inj (hv.symm.trans hu))

/-- **A push reaches a device on which its recipient is signed in**, and none that someone else uses, in every
run in which nobody stops being signed in on a device whose token still leads there, and no look-up of somebody
who has left asks for it again. -/
theorem push_reaches_recipient {tokenOf : ι → String} (hinj : Function.Injective tokenOf) {db : Database}
    (hdb : Blank db) {hist : History (Delivery ι) (DeliveryAction ι)} {s : Delivery ι}
    (hr : Reach Delivery.step (TokensFollow tokenOf) (Delivery.start db) hist s) (j : Nat) :
    ReachesRecipient tokenOf hist s j ∧
    ∀ f ∈ s.function.submitPayload j, ∀ push ∈ f.sent.getLast?, isValidKey push.message.sendTo →
      ∀ c v, SignedIn hist v c → v ≠ push.message.sendTo → push.token ≠ Node.string (tokenOf c) := by
  have h : Kept tokenOf hist s :=
    hr.inv (I := fun hist s => Kept tokenOf hist s) (.start tokenOf hdb) fun _ _ _ _ _ hi ha hs => hi.step hinj ha hs
  exact ⟨h.reaches j, fun f hf push hpush hkey c v hv hne => (h.reaches j).others hinj hf hpush hkey hv hne⟩

/-- Bob wants Alice's attention. -/
def wantsAlice : Message := ⟨"M1", "alice", "bob", 3⟩

/-- Alice signs up and Bob's message is pushed to her phone. -/
theorem push_reaches_alice :
    ∃ hist s, Reach Delivery.step (TokensFollow deviceToken) (Delivery.start Tree.empty) hist s ∧
      (∃ f ∈ s.function.submitPayload 0, f.sent.map (·.token) = [Node.string "T0"]) ∧
      ReachesRecipient deviceToken hist s 0 := by
  have hplay : ((exec Delivery.step (TokensFollow deviceToken) [] (Delivery.start Tree.empty)
      [.net (.signUp 0 (some alice.auth) "alice" "Alice" "Liddell" "A0"), .net (.apply 0),
        .net (.token 0 0 (some "T0")), .net (.apply 0), .sendNotification 1 wantsAlice, .net (.apply 1),
        .newNodeDetected 0]).any fun r => decide
          (∃ f ∈ r.2.function.submitPayload 0, f.sent.map (·.token) = [Node.string "T0"])) = true := by
    decide +kernel
  obtain ⟨hist, s, hr, hsent⟩ := exists_reach_of_exec (P := fun _ (s : Delivery (Fin 2)) =>
    ∃ f ∈ s.function.submitPayload 0, f.sent.map (·.token) = [Node.string "T0"]) hplay
  exact ⟨hist, s, hr, hsent, (push_reaches_recipient (by unfold Function.Injective; decide +kernel) blank_empty hr 0).1⟩

/-- Alice signs out, Bob signs up on her phone, and it is told of a message for Alice. -/
theorem pushed_after_signOut :
    ∃ hist s, Reach Delivery.step (fun _ _ a => DeliveryAction.Plays deviceToken a) (Delivery.start Tree.empty) hist s ∧
      SignedIn hist "bob" 0 ∧ ¬ ReachesRecipient deviceToken hist s 0 := by
  have hplay : ((exec Delivery.step (fun _ _ a => DeliveryAction.Plays deviceToken a) [] (Delivery.start Tree.empty)
      [.net (.signUp 0 (some alice.auth) "alice" "Alice" "Liddell" "A0"), .net (.apply 0),
        .net (.token 0 0 (some "T0")), .net (.apply 0), .net (.signOut 0 true),
        .net (.signUp 0 (some bob.auth) "bob" "Bob" "Moran" "B0"), .net (.apply 0),
        .sendNotification 1 wantsAlice, .net (.apply 1), .newNodeDetected 0]).any fun r => decide
          (SignedIn r.1 "bob" 0 ∧ ¬ ReachesRecipient deviceToken r.1 r.2 0)) = true := by
    decide +kernel
  exact exists_reach_of_exec (P := fun hist (s : Delivery (Fin 2)) =>
    SignedIn hist "bob" 0 ∧ ¬ ReachesRecipient deviceToken hist s 0) hplay

/-- Alice has signed in on the first phone, left no token there and signed out. Bob signs up on it; when Alice's
node changes, her look-up there asks for its token. -/
theorem pushed_after_return :
    ∃ hist s, Reach Delivery.step
        (fun hist s a => a.Plays deviceToken ∧ LeavesNoToken deviceToken hist ((s, a) :: hist) s)
        (Delivery.start Tree.empty) hist s ∧
      SignedIn hist "bob" 0 ∧ ¬ ReachesRecipient deviceToken hist s 0 := by
  have hplay : ((exec Delivery.step
      (fun hist s a => a.Plays deviceToken ∧ LeavesNoToken deviceToken hist ((s, a) :: hist) s) []
      (Delivery.start Tree.empty)
      [.net (.signUp 1 (some alice.auth) "alice" "Alice" "Liddell" "A0"), .net (.apply 1),
        .net (.signIn 0 (some alice.auth) "alice"), .net (.deliver 0 0), .net (.token 0 0 none), .net (.signOut 0 true),
        .net (.signUp 0 (some bob.auth) "bob" "Bob" "Moran" "B0"), .net (.apply 0), .net (.token 1 0 (some "T1")),
        .net (.apply 1), .net (.deliver 0 0), .net (.token 0 1 (some "T0")), .net (.apply 0),
        .sendNotification 1 wantsAlice, .net (.apply 1), .newNodeDetected 0]).any fun r => decide
          (SignedIn r.1 "bob" 0 ∧ ¬ ReachesRecipient deviceToken r.1 r.2 0)) = true := by
    decide +kernel
  exact exists_reach_of_exec (P := fun hist (s : Delivery (Fin 2)) =>
    SignedIn hist "bob" 0 ∧ ¬ ReachesRecipient deviceToken hist s 0) hplay

end Anissagram
