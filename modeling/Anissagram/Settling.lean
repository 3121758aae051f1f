import Anissagram.Lib.Lists
import Anissagram.SignIn
import Mathlib.Algebra.BigOperators.Fin
import Mathlib.Algebra.Order.BigOperators.Group.Finset
import Mathlib.Data.Prod.Lex
/-
# Token uploads settle

The handler of `signIn` stores the token of its device in the node that it observes
(`SessionStore.swift:97`), and so runs again. The line it replaces, `observeSingleEvent`
(`DatabaseManager.swift:73`), ran it once. On one device the second upload stores what is there and
nothing happens; two devices with the same name undo each other's upload forever
(`duel_never_settles`).

Where no two devices do (`OneToken`), every internal step lowers a rank (`State.rank`): the observers;
the waiting updates and token requests of anyone but the handlers of `signIn`; the nodes without the
token of the device that watches them; what is on its way.
-/

namespace Anissagram

open PathTree NSMutableDictionary Runs

variable {ι : Type} [DecidableEq ι]

/-- A step without the user: an event reaches its handler, a token request is answered with the token
of the device or fails, an update is applied. -/
def Action.IsInternal (tokenOf : ι → String) : Action ι → Prop
  | .deliver _ _ | .apply _ => True
  | .token c _ answer => ∀ t ∈ answer, t = tokenOf c
  | _ => False

def State.Internal (tokenOf : ι → String) (s s' : State ι) : Prop :=
  ∃ a : Action ι, a.IsInternal tokenOf ∧ s.step a = some s'

/-- Every sequence of internal steps ends. -/
def State.Settles (tokenOf : ι → String) (s : State ι) : Prop := Terminates (State.Internal tokenOf) s

/-- The node in which a handler of `signIn` keeps storing the token. -/
def Observer.target? (o : Observer) : Option (List String) :=
  if o.entrance = .signIn then some o.path else none

def Client.targets (k : Client) : List (List String) := k.observers.filterMap Observer.target?

/-- A token that device `d` stores in `q` is no change of `p` to device `c`, or is the one that `c` stores there. -/
def Agrees (tokenOf : ι → String) (c d : ι) (p q : List String) : Prop :=
  Apart p (q ++ ["deviceID"]) ∨ p = q ∧ tokenOf c = tokenOf d

instance (tokenOf : ι → String) (c d : ι) (p q : List String) : Decidable (Agrees tokenOf c d p q) :=
  inferInstanceAs (Decidable (_ ∨ _ ∧ _))

/-- A user signs in where no device with another token watches the node. -/
def SharesNoNode (tokenOf : ι → String) (s : State ι) : Action ι → Prop
  | .signIn c (some _) userName => ∀ d, ∀ q ∈ (s.clients d).targets,
    Agrees tokenOf c d (userNode userName) q ∧ Agrees tokenOf d c q (userNode userName)
  | _ => True

instance [Fintype ι] (tokenOf : ι → String) (s : State ι) (a : Action ι) : Decidable (SharesNoNode tokenOf s a) :=
  match a with
  | .signIn c (some _) userName => inferInstanceAs (Decidable (∀ d, ∀ q ∈ (s.clients d).targets,
      Agrees tokenOf c d (userNode userName) q ∧ Agrees tokenOf d c q (userNode userName)))
  | .signIn _ none _ | .signUp _ _ _ _ _ _ | .setupUser _ _ _ | .signOut _ _ | .tap _ _ | .token _ _ _
  | .apply _ | .deliver _ _ | .kill _ _ | .reload _ _ _ | .remote _ => isTrue trivial

/-- The handlers of `signIn` on all devices agree on the token of every node. -/
def OneToken (tokenOf : ι → String) (s : State ι) : Prop :=
  ∀ c d, ∀ p ∈ (s.clients c).targets, ∀ q ∈ (s.clients d).targets, Agrees tokenOf c d p q

/-! ## The rank -/

namespace Client

/-- An update that a handler of `signIn` of this process has asked for; `t` is the token of the device. -/
def IsOwn (k : Client) (t : String) : Call → Prop
  | .uploadDeviceToken userName token => token = t ∧ userNode userName ∈ k.targets
  | _ => False

instance (k : Client) (t : String) (call : Call) : Decidable (k.IsOwn t call) :=
  match call with
  | .uploadDeviceToken userName token => inferInstanceAs (Decidable (token = t ∧ userNode userName ∈ k.targets))
  | .sendNotification _ _ _ _ | .insertUser _ | .addRelationship _ _ _ | .deleteRelationship _ _ _
  | .addPending _ _ _ | .removePending _ _ | .removeRequest _ _ => instDecidableFalse

/-- What waits on behalf of anyone else. -/
def foreign (k : Client) (t : String) : ℕ :=
  k.queue.countP (fun call => ¬ k.IsOwn t call) + k.tokens.countP fun userName => userNode userName ∉ k.targets

/-- How many handlers do not find their token. -/
def unsettled (k : Client) (t : String) (db : Database) : ℕ :=
  k.targets.countP fun p => db.sub (p ++ ["deviceID"]) ≠ Node.string t

/-- An event becomes a request and a request an update. -/
def pending (k : Client) : ℕ :=
  3 * (k.observers.map fun o => o.events.length).sum + 2 * k.tokens.length + k.queue.length

end Client

/-- Each part outweighs the later ones. -/
def State.rank [Fintype ι] (tokenOf : ι → String) (s : State ι) : ℕ ×ₗ ℕ ×ₗ ℕ ×ₗ ℕ :=
  toLex (∑ c, (s.clients c).observers.length, toLex (∑ c, (s.clients c).foreign (tokenOf c),
    toLex (∑ c, (s.clients c).unsettled (tokenOf c) s.db, ∑ c, (s.clients c).pending)))

/-! ### Sums over the devices -/

section
variable [Fintype ι] {tokenOf : ι → String} {s s' : State ι}

omit [DecidableEq ι] in
theorem State.rank_lt
    (hobs : ∑ c, (s'.clients c).observers.length ≤ ∑ c, (s.clients c).observers.length)
    (h : ∑ c, (s'.clients c).observers.length < ∑ c, (s.clients c).observers.length ∨
      ∑ c, (s'.clients c).foreign (tokenOf c) ≤ ∑ c, (s.clients c).foreign (tokenOf c) ∧
      (∑ c, (s'.clients c).foreign (tokenOf c) < ∑ c, (s.clients c).foreign (tokenOf c) ∨
        ∑ c, (s'.clients c).unsettled (tokenOf c) s'.db ≤ ∑ c, (s.clients c).unsettled (tokenOf c) s.db ∧
        (∑ c, (s'.clients c).unsettled (tokenOf c) s'.db < ∑ c, (s.clients c).unsettled (tokenOf c) s.db ∨
          ∑ c, (s'.clients c).pending < ∑ c, (s.clients c).pending))) :
    s'.rank tokenOf < s.rank tokenOf := by
  unfold State.rank
  simp only [Prod.Lex.toLex_lt_toLex]
  omega

/-- A step of one device, which leaves the database alone. -/
theorem State.rank_setClient {c : ι} {k : Client}
    (hobs : k.observers.length ≤ (s.clients c).observers.length)
    (h : k.observers.length < (s.clients c).observers.length ∨
      k.foreign (tokenOf c) ≤ (s.clients c).foreign (tokenOf c) ∧
      (k.foreign (tokenOf c) < (s.clients c).foreign (tokenOf c) ∨
        k.unsettled (tokenOf c) s.db ≤ (s.clients c).unsettled (tokenOf c) s.db ∧
        k.pending < (s.clients c).pending)) :
    (s.setClient c k).rank tokenOf < s.rank tokenOf := by
  have hle : ∀ f : ι → Client → ℕ, f c k ≤ f c (s.clients c) →
      ∑ d, f d ((s.setClient c k).clients d) ≤ ∑ d, f d (s.clients d) := by
    intro f hf
    refine Finset.sum_le_sum fun d _ => ?_
    rw [State.setClient_clients]
    split
    · rename_i hd
      rw [hd]
      exact hf
    · exact le_rfl
  have hlt : ∀ f : ι → Client → ℕ, f c k < f c (s.clients c) →
      ∑ d, f d ((s.setClient c k).clients d) < ∑ d, f d (s.clients d) := by
    intro f hf
    refine Finset.sum_lt_sum (fun d _ => ?_) ⟨c, Finset.mem_univ c, ?_⟩
    · rw [State.setClient_clients]
      split
      · rename_i hd
        rw [hd]
        exact hf.le
      · exact le_rfl
    · rwa [State.setClient_clients, if_pos rfl]
  refine State.rank_lt (hle (fun _ k => k.observers.length) hobs) ?_
  refine h.imp (hlt fun _ k => k.observers.length) fun h => ⟨hle (fun d k => k.foreign (tokenOf d)) h.1, ?_⟩
  refine h.2.imp (hlt fun d k => k.foreign (tokenOf d)) fun h =>
    ⟨hle (fun d k => k.unsettled (tokenOf d) s.db) h.1, Or.inr (hlt (fun _ k => k.pending) h.2)⟩

end

/-! ## What a device does -/

namespace Client

variable {k k' : Client} {t : String}

theorem targets_eq (h : k'.observers.map Observer.target? = k.observers.map Observer.target?) :
    k'.targets = k.targets := by
  have hmap : ∀ k : Client, k.targets = (k.observers.map Observer.target?).filterMap id := fun k => by
    rw [targets, List.filterMap_map]
    rfl
  rw [hmap, hmap, h]

theorem foreign_congr (h : k'.targets = k.targets) :
    k'.foreign t = k'.queue.countP (fun call => ¬ k.IsOwn t call) +
      k'.tokens.countP fun userName => userNode userName ∉ k.targets := by
  have hown : ∀ call, k'.IsOwn t call ↔ k.IsOwn t call := by
    intro call
    cases call <;> simp only [IsOwn, h]
  simp only [foreign, hown, h]

theorem unsettled_congr (h : k'.targets = k.targets) (db : Database) : k'.unsettled t db = k.unsettled t db := by
  rw [unsettled, unsettled, h]

/-- Where nobody observes, everything is foreign. -/
theorem foreign_of_observers (h : k.observers = []) : k.foreign t = k.queue.length + k.tokens.length := by
  have htargets : k.targets = [] := by
    rw [targets, h]
    rfl
  have hown : ∀ call, ¬ k.IsOwn t call := by
    intro call hcall
    cases call with
    | uploadDeviceToken userName token =>
      have hmem := hcall.2
      rw [htargets] at hmem
      cases hmem
    | _ => exact hcall
  have hqueue : k.queue.countP (fun call => ¬ k.IsOwn t call) = k.queue.length :=
    List.countP_eq_length.2 fun call _ => by simp [hown call]
  have htokens : (k.tokens.countP fun userName => userNode userName ∉ k.targets) = k.tokens.length :=
    List.countP_eq_length.2 fun userName _ => by simp [htargets]
  rw [foreign, hqueue, htokens]

end Client

/-- A handler asks for a token if it is one of `signIn` and signs in. -/
theorem Observer.completion_issued (o : Observer) (s : SessionStore) (snapshot : Node) :
    (o.completion s snapshot).issued = [] ∨
    o.entrance = .signIn ∧ (o.completion s snapshot).issued = [.token o.userName] := by
  cases hd : o.decoded snapshot with
  | none =>
    refine Or.inl ?_
    rw [Observer.completion_none hd]
    split <;> rfl
  | some user =>
    rw [Observer.completion_some hd]
    by_cases ho : o.entrance = .signIn
    · exact Or.inr ⟨ho, if_pos ho⟩
    · exact Or.inl (if_neg ho)

section
variable [Fintype ι] {tokenOf : ι → String} {s : State ι}

omit [Fintype ι] [DecidableEq ι] in
theorem Client.targets_receive {k : Client} {i : ℕ} {o : Observer} (ho : k.observers[i]? = some o)
    (events : List Node) : (k.receive i (o.handled events)).targets = k.targets :=
  targets_eq (Lists.map_set Observer.target? (o.handled events) ho rfl)

omit [Fintype ι] [DecidableEq ι] in
/-- A handler ends the process, or it may have asked for a token. -/
theorem Client.finish_completion (k : Client) (o : Observer) (snapshot : Node) :
    (k.finish (o.completion k.store snapshot)).observers = [] ∨
    ∃ store names, k.finish (o.completion k.store snapshot) = { k with store := store, tokens := k.tokens ++ names } ∧
      (names = [] ∨ o.entrance = .signIn ∧ names = [o.userName]) := by
  have hcalls := o.completion_calls k.store snapshot
  have hissued := o.completion_issued k.store snapshot
  generalize o.completion k.store snapshot = e at hcalls hissued
  unfold Client.finish
  cases e.value with
  | none => exact Or.inl rfl
  | some store =>
    refine Or.inr ⟨store, e.issued.filterMap Request.token?, by rw [hcalls, List.append_nil], ?_⟩
    rcases hissued with hnone | ⟨hsign, hone⟩
    · exact Or.inl (by rw [hnone]; rfl)
    · exact Or.inr ⟨hsign, by rw [hone]; rfl⟩

/-- **An event is handled**: it is gone, or the process with all its observers is. -/
theorem State.rank_handle {c : ι} {i : ℕ} {o : Observer} {snapshot : Node} {events : List Node}
    (ho : (s.clients c).observers[i]? = some o) (he : o.events = snapshot :: events) :
    (s.handle c i o snapshot events).rank tokenOf < s.rank tokenOf := by
  have hmem : o ∈ (s.clients c).observers := List.mem_of_getElem? ho
  have hlength : ((s.clients c).receive i (o.handled events)).observers.length =
      (s.clients c).observers.length := List.length_set
  rcases ((s.clients c).receive i (o.handled events)).finish_completion o snapshot with
    hcrash | ⟨store, names, hk, hnames⟩
  · have hgone := congrArg List.length hcrash
    have hsome := List.length_pos_of_mem hmem
    exact State.rank_setClient (hgone.le.trans (Nat.zero_le _)) (Or.inl (hgone.trans_lt hsome))
  · have htargets := Client.targets_receive ho events
    have hforeign : ({ (s.clients c).receive i (o.handled events) with
        store := store
        tokens := (s.clients c).tokens ++ names } : Client).foreign (tokenOf c) =
        (s.clients c).queue.countP (fun call => ¬ (s.clients c).IsOwn (tokenOf c) call) +
          ((s.clients c).tokens ++ names).countP fun n => userNode n ∉ (s.clients c).targets :=
      Client.foreign_congr htargets
    have hevents := Lists.sum_map_set (fun o => o.events.length) (o.handled events) ho
    rw [he, List.length_cons, show (o.handled events).events = events from rfl] at hevents
    rw [State.handle, hk]
    refine State.rank_setClient hlength.le (Or.inr ⟨?_, Or.inr ⟨(Client.unsettled_congr htargets _).le, ?_⟩⟩)
    · refine hforeign.trans_le ?_
      rw [Client.foreign, List.countP_append]
      rcases hnames with rfl | ⟨hsign, rfl⟩
      · exact le_rfl
      · -- the request is the handler's own
        have hown : userNode o.userName ∈ (s.clients c).targets :=
          List.mem_filterMap.2 ⟨o, hmem, by rw [Observer.target?, if_pos hsign]; rfl⟩
        simp [hown]
    · have hone : names.length ≤ 1 := by
        rcases hnames with rfl | ⟨-, rfl⟩
        · exact Nat.zero_le _
        · exact le_rfl
      simp only [Client.pending, Client.receive, List.length_append]
      omega

omit [Fintype ι] in
theorem State.tokenCallback_sent {c : ι} {i : ℕ} {userName t : String}
    (hw : (Call.uploadDeviceToken userName t).write.isSome) :
    s.tokenCallback c i userName (some t) = s.setClient c { s.clients c with
      tokens := (s.clients c).tokens.eraseIdx i
      queue := (s.clients c).queue ++ [.uploadDeviceToken userName t] } := by
  simp [State.tokenCallback, Call.send_bind, hw, Client.finish, Request.call?,
    show Request.token? (Request.call _) = none from rfl]

omit [Fintype ι] in
/-- The SDK throws. -/
theorem State.tokenCallback_thrown {c : ι} {i : ℕ} {userName t : String}
    (hw : ¬ (Call.uploadDeviceToken userName t).write.isSome) :
    s.tokenCallback c i userName (some t) = s.setClient c (s.clients c).crash := by
  simp [State.tokenCallback, Call.send_bind, hw, Client.finish, Client.crash]

/-- **A token request is answered**: it becomes an update of the same kind. -/
theorem State.rank_tokenCallback {c : ι} {i : ℕ} {userName : String}
    (hi : (s.clients c).tokens[i]? = some userName) {answer : Option String} (ht : ∀ t ∈ answer, t = tokenOf c) :
    (s.tokenCallback c i userName answer).rank tokenOf < s.rank tokenOf := by
  have hlength : ((s.clients c).tokens.eraseIdx i).length + 1 = (s.clients c).tokens.length := by
    obtain ⟨hlt, -⟩ := List.getElem?_eq_some_iff.1 hi
    rw [List.length_eraseIdx_of_lt hlt]
    omega
  have hcount := Lists.countP_eraseIdx (fun n => decide (userNode n ∉ (s.clients c).targets)) hi
  cases answer with
  | none =>
    have hforeign : ({ s.clients c with tokens := (s.clients c).tokens.eraseIdx i } : Client).foreign (tokenOf c) =
        (s.clients c).queue.countP (fun call => ¬ (s.clients c).IsOwn (tokenOf c) call) +
          ((s.clients c).tokens.eraseIdx i).countP fun n => userNode n ∉ (s.clients c).targets :=
      Client.foreign_congr rfl
    refine State.rank_setClient le_rfl (Or.inr ⟨?_, Or.inr ⟨le_rfl, ?_⟩⟩)
    · rw [hforeign, Client.foreign]
      omega
    · simp only [Client.pending]
      omega
  | some t =>
    obtain rfl := ht t rfl
    by_cases hw : (Call.uploadDeviceToken userName (tokenOf c)).write.isSome
    · have hforeign : ({ s.clients c with
          tokens := (s.clients c).tokens.eraseIdx i
          queue := (s.clients c).queue ++ [.uploadDeviceToken userName (tokenOf c)] } : Client).foreign (tokenOf c) =
          ((s.clients c).queue ++ [Call.uploadDeviceToken userName (tokenOf c)]).countP
            (fun call => ¬ (s.clients c).IsOwn (tokenOf c) call) +
          ((s.clients c).tokens.eraseIdx i).countP fun n => userNode n ∉ (s.clients c).targets :=
        Client.foreign_congr rfl
      have hsame : [Call.uploadDeviceToken userName (tokenOf c)].countP
            (fun call => ¬ (s.clients c).IsOwn (tokenOf c) call) =
          [userName].countP fun n => userNode n ∉ (s.clients c).targets := by
        simp [List.countP_cons, Client.IsOwn]
      rw [State.tokenCallback_sent hw]
      refine State.rank_setClient le_rfl (Or.inr ⟨?_, Or.inr ⟨le_rfl, ?_⟩⟩)
      · rw [hforeign, Client.foreign, List.countP_append, hsame]
        omega
      · simp only [Client.pending, List.length_append, List.length_singleton]
        omega
    · rw [State.tokenCallback_thrown hw]
      refine State.rank_setClient (Nat.zero_le _) ?_
      cases hobs : (s.clients c).observers with
      | cons o os => exact Or.inl (Nat.succ_pos _)
      | nil =>
        refine Or.inr ⟨?_, Or.inl ?_⟩
        all_goals
          rw [Client.foreign_of_observers hobs, Client.foreign_of_observers rfl]
          simp only [Client.crash, Client.idle, List.length_nil]
          omega

section
omit [DecidableEq ι] [Fintype ι]

/-- The upload of one handler unsettles no other: it is the token of every handler there, and no change elsewhere. -/
theorem OneToken.unsettled_of (h : OneToken tokenOf s) {c d : ι} {p q : List String} (hp : p ∈ (s.clients c).targets)
    (hq : q ∈ (s.clients d).targets)
    (hne : (s.db.set (p ++ ["deviceID"]) (Node.string (tokenOf c))).sub (q ++ ["deviceID"]) ≠ Node.string (tokenOf d)) :
    s.db.sub (q ++ ["deviceID"]) ≠ Node.string (tokenOf d) := by
  rcases h d c q hq p hp with hapart | ⟨rfl, htoken⟩
  · rwa [Tree.sub_set_apart _ _ (hapart.append_left _).symm] at hne
  · rw [Tree.sub_set_self, htoken] at hne
    exact absurd rfl hne

theorem OneToken.unsettled_le (h : OneToken tokenOf s) {c : ι} {p : List String} (hp : p ∈ (s.clients c).targets) (d : ι) :
    (s.clients d).unsettled (tokenOf d) (s.db.set (p ++ ["deviceID"]) (Node.string (tokenOf c))) ≤
      (s.clients d).unsettled (tokenOf d) s.db :=
  List.countP_mono_left fun q hq => by simpa using h.unsettled_of hp hq

/-- A handler that did not find its token is settled by its upload. -/
theorem OneToken.unsettled_lt (h : OneToken tokenOf s) {c : ι} {p : List String} (hp : p ∈ (s.clients c).targets)
    (hne : s.db.sub (p ++ ["deviceID"]) ≠ Node.string (tokenOf c)) :
    (s.clients c).unsettled (tokenOf c) (s.db.set (p ++ ["deviceID"]) (Node.string (tokenOf c))) <
      (s.clients c).unsettled (tokenOf c) s.db :=
  Lists.countP_lt_countP (fun q hq => by simpa using h.unsettled_of hp hq) hp (by simp) (by simpa using hne)

/-- An update that a handler has asked for stores what is there, or its token. -/
theorem Client.IsOwn.apply_cases {k : Client} {t : String} {call : Call} (h : k.IsOwn t call) (db : Database) :
    db.apply call = db ∨ ∃ p ∈ k.targets, db.sub (p ++ ["deviceID"]) ≠ Node.string t ∧
      db.apply call = db.set (p ++ ["deviceID"]) (Node.string t) := by
  cases call with
  | uploadDeviceToken userName token =>
    obtain ⟨rfl, hp⟩ := h
    unfold Database.apply
    rcases Call.write_uploadDeviceToken_cases userName token with hw | hw <;> rw [hw]
    · exact Or.inl rfl
    · by_cases hsame : db.sub (userNode userName ++ ["deviceID"]) = Node.string token
      · refine Or.inl ?_
        have hset := Tree.set_sub db (userNode userName ++ ["deviceID"])
        rwa [hsame] at hset
      · exact Or.inr ⟨_, hp, hsame, rfl⟩
  | _ => exact absurd h id

end

theorem Observer.target?_notify (o : Observer) (db db' : Database) : (o.notify db db').target? = o.target? := by
  unfold notify
  split <;> rfl

/-- **An update is applied**: it is one less, and one that changes a node settles a handler. -/
theorem State.rank_apply (h : OneToken tokenOf s) {c : ι} {call : Call} {rest : List Call} {s' : State ι}
    (hq : (s.clients c).queue = call :: rest) (hdb : s'.db = s.db.apply call)
    (hclients : ∀ d, s'.clients d =
      ({ s.clients d with queue := if d = c then rest else (s.clients d).queue } : Client).notify s.db s'.db) :
    s'.rank tokenOf < s.rank tokenOf := by
  have hobs : ∀ d, (s'.clients d).observers = (s.clients d).observers.map fun o => o.notify s.db s'.db := fun d => by
    rw [hclients]
    rfl
  have hqueue : ∀ d, (s'.clients d).queue = if d = c then rest else (s.clients d).queue := fun d => by
    rw [hclients]
    rfl
  have htokens : ∀ d, (s'.clients d).tokens = (s.clients d).tokens := fun d => by
    rw [hclients]
    rfl
  have htargets : ∀ d, (s'.clients d).targets = (s.clients d).targets := by
    intro d
    refine Client.targets_eq ?_
    rw [hobs, List.map_map]
    exact List.map_congr_left fun o _ => o.target?_notify _ _
  have hlength : ∑ d, (s'.clients d).observers.length ≤ ∑ d, (s.clients d).observers.length := by
    refine Finset.sum_le_sum fun d _ => ?_
    rw [hobs, List.length_map]
  have hcount := List.countP_cons (p := fun x => decide ¬ (s.clients c).IsOwn (tokenOf c) x) (a := call) (l := rest)
  have hforeign : ∀ d, (s'.clients d).foreign (tokenOf d) ≤ (s.clients d).foreign (tokenOf d) := by
    intro d
    rw [Client.foreign_congr (htargets d), htokens, hqueue, Client.foreign]
    split
    · rename_i hd
      subst hd
      rw [hq, hcount]
      omega
    · exact le_rfl
  refine State.rank_lt hlength (Or.inr ⟨Finset.sum_le_sum fun d _ => hforeign d, ?_⟩)
  by_cases hown : (s.clients c).IsOwn (tokenOf c) call
  swap
  · refine Or.inl (Finset.sum_lt_sum (fun d _ => hforeign d) ⟨c, Finset.mem_univ c, ?_⟩)
    rw [Client.foreign_congr (htargets c), htokens, hqueue, if_pos rfl, Client.foreign, hq, hcount]
    simp [hown]
  refine Or.inr ?_
  have hcases := hown.apply_cases s.db
  rw [← hdb] at hcases
  rcases hcases with hsame | ⟨p, hp, hne, hset⟩
  · have hstill : ∀ d, (s'.clients d).observers = (s.clients d).observers := by
      intro d
      rw [hobs, hsame]
      exact (List.map_congr_left fun o _ => if_pos rfl).trans (List.map_id _)
    refine ⟨Finset.sum_le_sum fun d _ => ?_, Or.inr (Finset.sum_lt_sum (fun d _ => ?_) ⟨c, Finset.mem_univ c, ?_⟩)⟩
    · rw [Client.unsettled_congr (htargets d), hsame]
    · rw [Client.pending, Client.pending, hstill, htokens, hqueue]
      split
      · rename_i hd
        rw [hd, hq, List.length_cons]
        omega
      · exact le_rfl
    · rw [Client.pending, Client.pending, hstill, htokens, hqueue, if_pos rfl, hq, List.length_cons]
      omega
  · have hle : ∀ d, (s'.clients d).unsettled (tokenOf d) s'.db ≤ (s.clients d).unsettled (tokenOf d) s.db := by
      intro d
      rw [Client.unsettled_congr (htargets d), hset]
      exact h.unsettled_le hp d
    have hlt : (s'.clients c).unsettled (tokenOf c) s'.db < (s.clients c).unsettled (tokenOf c) s.db := by
      rw [Client.unsettled_congr (htargets c), hset]
      exact h.unsettled_lt hp hne
    have hsum := Finset.sum_lt_sum (fun d _ => hle d) ⟨c, Finset.mem_univ c, hlt⟩
    exact ⟨hsum.le, Or.inl hsum⟩

end

/-! ## Who watches what -/

section
variable {tokenOf : ι → String} {s s' : State ι}

theorem Client.targets_finish (k : Client) (e : Effect Request SessionStore) : (k.finish e).targets ⊆ k.targets := by
  intro p hp
  rw [targets, finish_observers] at hp
  split at hp
  · exact hp
  · cases hp

theorem Client.targets_notify (k : Client) (db db' : Database) : (k.notify db db').targets = k.targets := by
  refine targets_eq ?_
  rw [notify, List.map_map]
  exact List.map_congr_left fun o _ => o.target?_notify db db'

/-- An observer of `signIn` is a new target, one of `setupUser` is none. -/
theorem Client.targets_observe (k : Client) (db : Database) (entrance : Entrance) (auth : AuthUser) (userName : String)
    {p : List String} (hp : p ∈ (k.observe db entrance auth userName).targets) :
    p ∈ k.targets ∨ entrance = .signIn ∧ p = userNode userName := by
  rcases k.observe_cases db entrance auth userName with ⟨path, -, hk⟩ | hk <;> rw [hk] at hp
  · rw [targets, List.filterMap_append] at hp
    refine (List.mem_append.1 hp).imp_right fun hnew => ?_
    cases entrance with
    | signIn => exact ⟨rfl, by simpa [Observer.target?, Observer.path, userNode] using hnew⟩
    | setupUser => simp [Observer.target?] at hnew
  · cases hp

/-- **Only `signIn` adds a target.** -/
theorem State.targets_step {a : Action ι} (hs : s.step a = some s') (c : ι) {p : List String}
    (hp : p ∈ (s'.clients c).targets) :
    p ∈ (s.clients c).targets ∨ ∃ auth userName, a = .signIn c (some auth) userName ∧ p = userNode userName := by
  have hclient : ∀ {d : ι} {k : Client}, s' = s.setClient d k → k.targets ⊆ (s.clients d).targets →
      p ∈ (s.clients c).targets := by
    rintro d k rfl hk
    rw [State.setClient_clients] at hp
    split at hp
    · rename_i hd
      rw [hd]
      exact hk hp
    · exact hp
  cases a with
  | signIn d authResult userName =>
    cases authResult with
    | none =>
      cases hs
      exact Or.inl hp
    | some auth =>
      cases hs
      rw [State.setClient_clients] at hp
      split at hp
      · rename_i hd
        subst hd
        exact (Client.targets_observe _ _ _ _ _ hp).imp_right fun hnew => ⟨auth, userName, rfl, hnew.2⟩
      · exact Or.inl hp
  | setupUser d auth userName =>
    refine Or.inl (hclient (Option.some.inj hs).symm fun q hq => ?_)
    exact (Client.targets_observe _ _ _ _ _ hq).resolve_right fun hno => by cases hno.1
  | token d i answer =>
    obtain ⟨userName, -, rfl⟩ := State.step_token.1 hs
    cases answer with
    | none => exact Or.inl (hclient rfl (List.Subset.refl _))
    | some t => exact Or.inl (hclient rfl (Client.targets_finish _ _))
  | apply d =>
    obtain ⟨call, rest, -, rfl⟩ := State.step_apply.1 hs
    simp only [State.commit, Client.targets_notify, State.setClient_clients] at hp
    split at hp
    · rename_i hd
      rw [hd]
      exact Or.inl hp
    · exact Or.inl hp
  | deliver d i =>
    obtain ⟨o, snapshot, events, ho, -, rfl⟩ := State.step_deliver.1 hs
    exact Or.inl (hclient rfl (Client.targets_receive ho events ▸ Client.targets_finish _ _))
  | signUp d authResult userName firstName lastName newUUID =>
    exact Or.inl (hclient (Option.some.inj hs).symm (Client.targets_finish _ _))
  | signOut d signedOut => exact Or.inl (hclient (Option.some.inj hs).symm (List.Subset.refl _))
  | tap d op => exact Or.inl (hclient (Option.some.inj hs).symm (Client.targets_finish _ _))
  | kill d sent => exact Or.inl (hclient (Option.some.inj hs).symm (List.nil_subset _))
  | reload d o snapshot => exact Or.inl (hclient (Option.some.inj hs).symm (Client.targets_finish _ _))
  | remote w =>
    cases hs
    rw [State.commit, Client.targets_notify] at hp
    exact Or.inl hp

/-- **One step** shares no node between tokens unless a `signIn` does. -/
theorem OneToken.step (h : OneToken tokenOf s) {a : Action ι} (ha : SharesNoNode tokenOf s a)
    (hs : s.step a = some s') : OneToken tokenOf s' := by
  intro c d p hp q hq
  rcases State.targets_step hs c hp with hp | ⟨auth, userName, rfl, rfl⟩
  · rcases State.targets_step hs d hq with hq | ⟨auth, userName, rfl, rfl⟩
    · exact h c d p hp q hq
    · exact (ha c p hp).2
  · rcases State.targets_step hs d hq with hq | ⟨auth', userName', heq, rfl⟩
    · exact (ha d q hq).1
    · cases heq
      exact Or.inr ⟨rfl, rfl⟩

/-- **An internal step lowers the rank.** -/
theorem OneToken.internal [Fintype ι] (h : OneToken tokenOf s) (hs : s.Internal tokenOf s') :
    OneToken tokenOf s' ∧ s'.rank tokenOf < s.rank tokenOf := by
  obtain ⟨a, ha, hstep⟩ := hs
  cases a with
  | deliver c i =>
    refine ⟨h.step (a := .deliver c i) trivial hstep, ?_⟩
    obtain ⟨o, snapshot, events, ho, he, rfl⟩ := State.step_deliver.1 hstep
    exact State.rank_handle ho he
  | token c i answer =>
    refine ⟨h.step (a := .token c i answer) trivial hstep, ?_⟩
    obtain ⟨userName, hi, rfl⟩ := State.step_token.1 hstep
    exact State.rank_tokenCallback hi ha
  | apply c =>
    refine ⟨h.step (a := .apply c) trivial hstep, ?_⟩
    obtain ⟨call, rest, hq, rfl⟩ := State.step_apply.1 hstep
    refine State.rank_apply h hq rfl fun d => ?_
    simp only [State.commit, State.setClient_clients]
    split
    · rename_i hd
      rw [hd]
      rfl
    · rfl
  | _ => exact absurd ha id

end

/-! ## Every run -/

/-- **Token uploads settle** in every state of every run in which no `signIn` shares a node with a handler of
`signIn` on a device with another token. -/
theorem uploads_settle [Fintype ι] {tokenOf : ι → String} {db : Database} {hist : History (State ι) (Action ι)}
    {s : State ι} (hr : Reach State.step (fun _ s a => SharesNoNode tokenOf s a) (State.start db) hist s) :
    s.Settles tokenOf := by
  have h : OneToken tokenOf s :=
    hr.inv (I := fun _ s => OneToken tokenOf s) (fun _ _ _ hp => nomatch hp)
      fun _ _ _ _ _ hi ha hs => hi.step ha hs
  exact terminates_of_rank (State.rank tokenOf) (fun _ _ hi hs => hi.internal hs) h

/-! ## Two devices with one name -/

/-- What a handler of `signIn` can make a session of. -/
def Decodes (n : Node) : Prop :=
  (object n "first_name").asString?.isSome ∧ (object n "last_name").asString?.isSome ∧
    (object n "relationships").asDictionary?.isSome

instance (n : Node) : Decidable (Decodes n) := inferInstanceAs (Decidable (_ ∧ _ ∧ _))

/-- An observer of `signIn` for `u` that no waiting event stops. -/
def Observer.Fights (o : Observer) (u : String) : Prop :=
  o.entrance = .signIn ∧ o.userName = u ∧ ∀ n ∈ o.events, Decodes n

instance (o : Observer) (u : String) : Decidable (o.Fights u) := inferInstanceAs (Decidable (_ ∧ _ ∧ _))

/-- Both devices observe `users/<u>`, and the handler of the second one, whose token is not stored there, is about
to run. -/
structure Duel (tokenOf : ι → String) (u : String) (c d : ι) (s : State ι) : Prop where
  key : isValidKey u
  tokens : tokenOf c ≠ tokenOf d
  queues : s.queue c = [] ∧ s.queue d = []
  node : Decodes (s.db.sub ["users", u])
  other : s.db.sub ["users", u, "deviceID"] ≠ Node.string (tokenOf d)
  first : ∃ (i : ℕ) (o : Observer), (s.clients c).observers[i]? = some o ∧ o.Fights u
  second : ∃ (j : ℕ) (o : Observer), (s.clients d).observers[j]? = some o ∧ o.Fights u ∧ o.events ≠ []

section
variable {tokenOf : ι → String} {u : String} {c d : ι} {s : State ι}

theorem Decodes.decoded {n : Node} (h : Decodes n) (o : Observer) : ∃ user, o.decoded n = some user := by
  obtain ⟨hfirst, hlast, hrel⟩ := h
  obtain ⟨firstName, hfirst⟩ := Option.isSome_iff_exists.1 hfirst
  obtain ⟨lastName, hlast⟩ := Option.isSome_iff_exists.1 hlast
  obtain ⟨relationships, hrel⟩ := Option.isSome_iff_exists.1 hrel
  have hkey : n.sub ["first_name"] ≠ Tree.empty := by
    intro he
    rw [object, he] at hfirst
    cases hfirst
  have hdict := Node.asDictionary?_of_key hkey (by decide +kernel)
  simp [Observer.decoded, SessionStore.retrieved, hdict, SessionStore.decodeUser, hfirst, hlast, hrel]

theorem Decodes.set_deviceID {db : Database} (h : Decodes (db.sub ["users", u])) (n : Node) :
    Decodes ((db.set ["users", u, "deviceID"] n).sub ["users", u]) := by
  have hkept : ∀ k, k ≠ "deviceID" →
      object ((db.set ["users", u, "deviceID"] n).sub ["users", u]) k = object (db.sub ["users", u]) k := by
    intro k hk
    rw [object, object, Tree.sub_sub, Tree.sub_sub]
    exact Tree.sub_set_apart _ _ (apart_of_length_eq rfl (by simpa using hk.symm))
  unfold Decodes
  rw [hkept _ (by decide), hkept _ (by decide), hkept _ (by decide)]
  exact h

/-- A change of the node is one more event, and it can be made a session of again. -/
theorem Observer.Fights.notify {o : Observer} (h : o.Fights u) (hu : isValidKey u) {db db' : Database}
    (hnode : Decodes (db'.sub ["users", u])) : (o.notify db db').Fights u := by
  obtain ⟨hentrance, hname, hevents⟩ := h
  have hpath : o.path = ["users", u] := by rw [path, hname, hu.pathComponents]
  refine ⟨?_, by rw [notify_userName, hname], fun n hn => ?_⟩
  · rw [← hentrance]
    unfold Observer.notify
    split <;> rfl
  · rw [notify_events, hpath] at hn
    split at hn
    · exact hevents n hn
    · rcases List.mem_append.1 hn with hn | hn
      · exact hevents n hn
      · rw [List.mem_singleton.1 hn]
        exact hnode

/-- **A handler of `signIn` runs**: its event is handled, the token arrives, the server stores it. -/
theorem State.uploads (tokenOf : ι → String) {j : ℕ} {o : Observer} {snapshot : Node} {events : List Node} (hu : isValidKey u)
    (ho : (s.clients d).observers[j]? = some o) (hfights : o.Fights u) (he : o.events = snapshot :: events)
    (hq : s.queue d = []) :
    ∃ k : Client, k.observers = (s.clients d).observers.set j (o.handled events) ∧ k.queue = [] ∧
      Relation.TransGen (State.Internal tokenOf) s
        ((s.setClient d k).commit [(["users", u, "deviceID"], Node.string (tokenOf d))]) := by
  obtain ⟨user, huser⟩ := (hfights.2.2 snapshot (by rw [he]; exact List.mem_cons_self)).decoded o
  have hcompletion := Observer.completion_some huser (s.clients d).store
  rw [if_pos hfights.1] at hcompletion
  let k : Client := ⟨{ (s.clients d).store with session := some user },
    (s.clients d).observers.set j (o.handled events), (s.clients d).tokens, []⟩
  have hdeliver : s.step (.deliver d j) = some (s.setClient d { k with tokens := (s.clients d).tokens ++ [u] }) := by
    refine State.step_deliver.2 ⟨o, snapshot, events, ho, he, ?_⟩
    have hqueue : (s.clients d).queue = [] := hq
    simp only [State.handle, Client.receive, hcompletion, Client.finish, hqueue, hfights.2.1, List.nil_append]
    rfl
  have hagain : ∀ k k' : Client, (s.setClient d k).setClient d k' = s.setClient d k' := fun k k' => by
    simp only [State.setClient, Function.update_idem]
  have hclient : ∀ k : Client, (s.setClient d k).clients d = k := fun k => by
    rw [State.setClient_clients, if_pos rfl]
  have hwrite := Call.write_uploadDeviceToken hu (tokenOf d)
  have htoken : (s.setClient d { k with tokens := (s.clients d).tokens ++ [u] }).step
      (.token d (s.clients d).tokens.length (some (tokenOf d))) =
        some (s.setClient d { k with queue := [.uploadDeviceToken u (tokenOf d)] }) := by
    refine State.step_token.2 ⟨u, ?_, ?_⟩
    · rw [hclient]
      simp
    · rw [State.tokenCallback_sent (by rw [hwrite]; rfl), hagain, hclient]
      simp [List.eraseIdx_append_of_length_le, k]
  have happly : (s.setClient d { k with queue := [.uploadDeviceToken u (tokenOf d)] }).step (.apply d) =
      some ((s.setClient d k).commit [(["users", u, "deviceID"], Node.string (tokenOf d))]) := by
    refine State.step_apply.2 ⟨_, [], by rw [hclient], ?_⟩
    rw [hwrite, hclient, hagain]
    rfl
  refine ⟨k, rfl, rfl, .tail (.tail (.single ⟨_, ?_, hdeliver⟩) ⟨_, ?_, htoken⟩) ⟨_, ?_, happly⟩⟩
  · trivial
  · exact fun t ht => (Option.some.inj ht).symm
  · trivial

/-- **The second device has its token stored**, and now the first one is about to run. -/
theorem Duel.turn (h : Duel tokenOf u c d s) :
    ∃ s', Relation.TransGen (State.Internal tokenOf) s s' ∧ Duel tokenOf u d c s' := by
  obtain ⟨hu, htokens, ⟨hqc, hqd⟩, hnode, hother, ⟨i, o, ho, hfirst⟩, j, o', ho', hsecond, hne⟩ := h
  have hcd : c ≠ d := fun heq => htokens (by rw [heq])
  obtain ⟨snapshot, events, he⟩ := List.exists_cons_of_ne_nil hne
  obtain ⟨k, hobservers, hqueue, hrun⟩ := State.uploads tokenOf hu ho' hsecond he hqd
  let db' : Database := s.db.set (["users", u, "deviceID"]) (Node.string (tokenOf d))
  have hnode' : Decodes (db'.sub ["users", u]) := hnode.set_deviceID _
  have hclients : ∀ x, ((s.setClient d k).commit [(["users", u, "deviceID"], Node.string (tokenOf d))]).clients x =
      (if x = d then k else s.clients x).notify s.db db' := fun x => by
    rw [← State.setClient_clients]
    rfl
  refine ⟨_, hrun, ⟨hu, htokens.symm, ⟨?_, ?_⟩, hnode', ?_, ⟨j, (o'.handled events).notify s.db db', ?_, ?_⟩,
    ⟨i, o.notify s.db db', ?_, hfirst.notify hu hnode', ?_⟩⟩⟩
  · rw [State.queue, hclients, if_pos rfl]
    exact hqueue
  · rw [State.queue, hclients, if_neg hcd]
    exact hqc
  · have hstored : db'.sub (["users", u, "deviceID"]) = Node.string (tokenOf d) := Tree.sub_set_self _ _ _
    exact fun heq => htokens (Node.string_inj.1 (hstored.symm.trans heq)).symm
  · have hlt : j < (s.clients d).observers.length := (List.getElem?_eq_some_iff.1 ho').1
    rw [hclients, if_pos rfl, Client.notify, List.getElem?_map, hobservers, List.getElem?_set_self hlt]
    rfl
  · have hhandled : (o'.handled events).Fights u :=
      ⟨hsecond.1, hsecond.2.1, fun n hn => hsecond.2.2 n (by rw [he]; exact List.mem_cons_of_mem _ hn)⟩
    exact hhandled.notify hu hnode'
  · rw [hclients, if_neg hcd, Client.notify, List.getElem?_map, ho]
    rfl
  · -- the token is new to the first device
    have hpath : o.path = ["users", u] := by rw [Observer.path, hfirst.2.1, hu.pathComponents]
    have hchanged : db'.sub ["users", u] ≠ s.db.sub ["users", u] := by
      intro hsame
      have hid := congrArg (fun n => Tree.sub n ["deviceID"]) hsame
      simp only [Tree.sub_sub] at hid
      exact hother (hid.symm.trans (Tree.sub_set_self s.db _ (["users", u, "deviceID"])))
    rw [Observer.notify_events, hpath, if_neg hchanged]
    simp

/-- **Two devices with one name never settle**, whatever else is under way elsewhere. -/
theorem duel_never_settles (h : Duel tokenOf u c d s) : ¬ s.Settles tokenOf :=
  not_terminates_of_return (I := fun s => ∃ c d, Duel tokenOf u c d s)
    (fun _ ⟨c, d, h⟩ => let ⟨s', hrun, h'⟩ := h.turn; ⟨s', hrun, d, c, h'⟩) ⟨c, d, h⟩

end

/-- Alice and Bob sign in on a phone each, and their tokens are stored. -/
theorem uploads_settle_alice :
    ∃ hist s, Reach State.step (fun _ s a => SharesNoNode deviceToken s a) (State.start (registered aliceAndBob)) hist s ∧
      (∀ c, (s.clients c).targets ≠ []) ∧ s.Settles deviceToken := by
  have hplay : ((exec State.step (fun _ s a => SharesNoNode deviceToken s a) []
      (State.start (registered aliceAndBob) : State (Fin 2))
      [.signIn 0 (some alice.auth) "alice", .deliver 0 0, .token 0 0 (some "T0"), .apply 0,
        .signIn 1 (some bob.auth) "bob"]).any fun r => decide (∀ c, (r.2.clients c).targets ≠ [])) = true := by
    decide +kernel
  obtain ⟨hist, s, hr, htargets⟩ := exists_reach_of_exec
    (P := fun _ (s : State (Fin 2)) => ∀ c, (s.clients c).targets ≠ []) hplay
  exact ⟨hist, s, hr, htargets, uploads_settle hr⟩

/-- Alice signs in on both phones. -/
theorem signed_in_twice :
    ∃ hist s, Reach State.step (fun _ _ a => ¬ a.IsReload ∧ ¬ a.IsExternal)
      (State.start (registered aliceAndBob)) hist s ∧ ¬ s.Settles deviceToken := by
  have hplay : ((exec State.step (fun _ _ a => ¬ a.IsReload ∧ ¬ a.IsExternal) []
      (State.start (registered aliceAndBob) : State (Fin 2))
      [.signIn 0 (some alice.auth) "alice", .signIn 1 (some alice.auth) "alice"]).any fun r => decide
        ((r.2.queue 0 = [] ∧ r.2.queue 1 = []) ∧ Decodes (r.2.db.sub ["users", "alice"]) ∧
          r.2.db.sub ["users", "alice", "deviceID"] ≠ Node.string (deviceToken 1) ∧
          (∃ o ∈ (r.2.clients 0).observers[0]?, o.Fights "alice") ∧
          ∃ o ∈ (r.2.clients 1).observers[0]?, o.Fights "alice" ∧ o.events ≠ [])) = true := by
    decide +kernel
  obtain ⟨hist, s, hr, hqueues, hnode, hother, hfirst, hsecond⟩ := exists_reach_of_exec
    (P := fun _ (s : State (Fin 2)) => (s.queue 0 = [] ∧ s.queue 1 = []) ∧ Decodes (s.db.sub ["users", "alice"]) ∧
      s.db.sub ["users", "alice", "deviceID"] ≠ Node.string (deviceToken 1) ∧
      (∃ o ∈ (s.clients 0).observers[0]?, o.Fights "alice") ∧
      ∃ o ∈ (s.clients 1).observers[0]?, o.Fights "alice" ∧ o.events ≠ []) hplay
  exact ⟨hist, s, hr, duel_never_settles ⟨by decide, by decide +kernel, hqueues, hnode, hother, ⟨0, hfirst⟩, ⟨0, hsecond⟩⟩⟩

end Anissagram
