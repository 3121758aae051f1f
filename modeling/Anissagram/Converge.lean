import Anissagram.Circulation
import Anissagram.Lib.Lists
/-
# Sessions and their nodes

`signIn` and `setupUser` register an observer on `users/<userName>` (`DatabaseManager.swift:75`), and
every later change of the node reaches the session. `signUp` (`SessionStore.swift:29-53`) registers
none, so its session misses what others write (`signUp_misses`).

For a process that does observe the node of its session, the session is at every moment the node as
of the last event, changed by the updates it has handed over since (`SessionOk.stored`). An applied
update either changes the node, and then an event is on its way, or it changes nothing, and then it
changed nothing in the session either (`Call.ownEffect_of_unchanged`).
-/

namespace Anissagram

open PathTree NSMutableDictionary Runs

/-! ## What a process has changed itself -/

/-- The effect of a call in the caller's own dictionary `f`. -/
def Call.ownEffect (c : Call) (f : Field) (d : NSMutableDictionary) : NSMutableDictionary :=
  match c with
  | .insertUser user => user.inserted f
  | c => c.onOwn f d

/-- Whose session the call also changes. -/
def Call.owner? : Call → Option String
  | .insertUser user => some user.userName
  | c => c.own?.map Half.owner

theorem Call.owner?_of_own {c : Call} {h : Half} (ho : c.own? = some h) : c.owner? = some h.owner := by
  cases c <;> first | (cases ho; rfl) | cases ho

def effects (f : Field) (own : List Call) (d : NSMutableDictionary) : NSMutableDictionary :=
  own.foldl (fun d c => c.ownEffect f d) d

/-- The session shows `base`, changed by its own calls. -/
def User.Shows (user : User) (own : List Call) (base : Field → NSMutableDictionary) : Prop :=
  (∀ c ∈ own, ∀ u ∈ c.owner?, u = user.userName) ∧ ∀ f, user.dict f = effects f own (base f)

theorem User.shows_nil {user : User} {base : Field → NSMutableDictionary}
    (h : ∀ f, user.dict f = base f) : user.Shows [] base :=
  ⟨by simp, h⟩

/-- A call that leaves the caller's node as it is leaves the session as it is. -/
theorem Call.ownEffect_of_unchanged {c : Call} (hi : c.Issued) {u : String}
    (ho : ∀ u' ∈ c.owner?, u' = u) {db : Database} (h : ∀ f, (db.apply c).dict f u = db.dict f u)
    (f : Field) : c.ownEffect f (db.dict f u) = db.dict f u := by
  by_cases hins : c.IsInsert
  · cases c with
    | insertUser user =>
      have hu : user.userName = u := ho _ rfl
      rw [← h f, Database.dict_insertUser hi, if_pos hu.symm]
      rfl
    | _ => exact absurd hins id
  · have honown : c.ownEffect f (db.dict f u) = c.onOwn f (db.dict f u) := by
      cases c <;> first | rfl | exact absurd trivial hins
    rw [honown, Call.onOwn]
    cases hown : c.own? with
    | none => rfl
    | some k =>
      have hu : k.owner = u := ho _ (Call.owner?_of_own hown)
      subst hu
      dsimp only
      split
      · rename_i hf
        subst hf
        have hsame := h k.field
        rw [Database.dict_apply hi hins, Call.onDict, Call.edit_own hown] at hsame
        exact hsame
      · rfl

/-! ## First names

A decoded node has a first name, no update takes it away, and so the node is never again missing. -/

def HasName (db : Database) (u : String) : Prop :=
  (Node.asString? (db.sub ["users", u, "first_name"])).isSome

theorem HasName.apply {c : Call} (hi : c.Issued) {db : Database} {u : String} (h : HasName db u) :
    HasName (db.apply c) u := by
  unfold HasName at h ⊢
  by_cases hins : c.IsInsert
  · cases c with
    | insertUser user =>
      rw [hi.insertUser_sub]
      split
      · rw [user.object_body_first_name]
        rfl
      · exact h
    | _ => exact absurd hins id
  · rwa [Database.sub_apply hi hins _ _ (by decide) (by decide)]

theorem hasName_insertUser {user : User} (hi : (Call.insertUser user).Issued) (db : Database) :
    HasName (db.apply (.insertUser user)) user.userName := by
  unfold HasName
  rw [hi.insertUser_sub, if_pos rfl, user.object_body_first_name]
  rfl

/-- A node with a first name is exported as a dictionary. -/
theorem HasName.asDictionary? {db : Database} {u : String} (h : HasName db u) :
    Node.asDictionary? (db.sub ["users", u]) ≠ none := by
  have hkey : (db.sub ["users", u]).sub ["first_name"] ≠ Tree.empty := by
    rw [Tree.sub_sub]
    intro hempty
    unfold HasName at h
    rw [show ["users", u, "first_name"] = ["users", u] ++ ["first_name"] from rfl, hempty] at h
    cases h
  rw [Node.asDictionary?_of_key hkey (by decide +kernel)]
  simp

/-! ## One process -/

/-- The dictionaries of `u` come through the casts as they are. -/
def Exports (db : Database) (u : String) : Prop :=
  ∀ f, SessionStore.exported f (db.dict f u) = db.dict f u

/-- The process observes the node of `u`, has seen its last event and can take it in. -/
structure Client.CaughtUp (k : Client) (db : Database) (u : String) : Prop where
  observes : k.Observes u
  seen : ∀ o ∈ k.observers, o.userName = u → o.events = []
  exports : Exports db u

/-- How a session relates to the database. -/
inductive SessionOk (db : Database) (k : Client) (user : User) : Prop
  /-- Signed up, and the new node is not stored yet. -/
  | fresh (before own : List Call) (new : User) :
    k.queue = before ++ .insertUser new :: own → new.userName = user.userName →
      user.Shows own new.inserted → SessionOk db k user
  /-- Its node is stored; once caught up, the session shows it with the own updates since. -/
  | stored :
    HasName db user.userName →
      (k.CaughtUp db user.userName → ∃ before own, k.queue = before ++ own ∧
        user.Shows own (fun f => db.dict f user.userName)) → SessionOk db k user

/-- The last event of an observer is the node as it is, and nodes keep their first name. -/
structure Observer.Watching (o : Observer) (db : Database) : Prop where
  last : ∀ n ∈ o.events.getLast?, n = db.sub o.path
  named : ∀ n ∈ o.events, (object n "first_name").asString?.isSome → HasName db o.userName

theorem Observer.path_eq {o : Observer} (h : IsComponent o.userName) : o.path = ["users", o.userName] := by
  rw [path, h.pathComponents]

theorem Observer.object_path {o : Observer} (h : IsComponent o.userName) (db : Database) (k : String) :
    object (db.sub o.path) k = db.sub ["users", o.userName, k] := by
  rw [object, o.path_eq h, Tree.sub_sub]
  rfl

section
variable {db : Database} {k k' : Client} {user : User} {c : Call}

/-- New updates of the session's own, with their effect. -/
theorem SessionOk.extend (h : SessionOk db k user) (own : List Call) (hq : k'.queue = k.queue ++ own)
    (hobs : k'.observers = k.observers) {user' : User} (hname : user'.userName = user.userName)
    (howner : ∀ c ∈ own, ∀ u ∈ c.owner?, u = user.userName)
    (hdict : ∀ f, user'.dict f = effects f own (user.dict f)) : SessionOk db k' user' := by
  have hshows : ∀ {own' : List Call} {base : Field → NSMutableDictionary}, user.Shows own' base →
      user'.Shows (own' ++ own) base := by
    rintro own' base ⟨h1, h2⟩
    refine ⟨fun c hc u hu => ?_, fun f => ?_⟩
    · rw [hname]
      rcases List.mem_append.1 hc with hc | hc
      · exact h1 c hc u hu
      · exact howner c hc u hu
    · rw [hdict f, h2 f, effects, effects, effects, List.foldl_append]
  cases h with
  | fresh before own' new hqueue hnew hs =>
    refine .fresh before (own' ++ own) new ?_ (hnew.trans hname.symm) (hshows hs)
    rw [hq, hqueue, List.append_assoc, List.cons_append]
  | stored hn hs =>
    rw [← hname] at hn
    refine .stored hn fun hcaught => ?_
    obtain ⟨hobserves, hseen, hexp⟩ := hcaught
    rw [hname] at hobserves hexp
    obtain ⟨before, own', hqueue, hs⟩ := hs
      ⟨by simpa [Client.Observes, hobs] using hobserves, by rw [← hobs, ← hname]; exact hseen, hexp⟩
    refine ⟨before, own' ++ own, by rw [hq, hqueue, List.append_assoc], ?_⟩
    rw [hname]
    exact hshows hs

/-- Only the queue and the observers matter. -/
theorem SessionOk.congr (h : SessionOk db k user) (hq : k'.queue = k.queue)
    (hobs : k'.observers = k.observers) : SessionOk db k' user :=
  h.extend [] (by rw [hq, List.append_nil]) hobs rfl (by simp) fun _ => rfl

/-- An update is applied: of this process (`queue` gets shorter) or of another one. -/
theorem SessionOk.apply (h : SessionOk db k user) (hi : c.Issued)
    (hnames : ∀ o ∈ k.observers, IsComponent o.userName)
    (hq : k'.queue = k.queue ∨ k.queue = c :: k'.queue)
    (hobs : k'.observers = k.observers.map fun o => o.notify db (db.apply c)) :
    SessionOk (db.apply c) k' user := by
  cases h with
  | fresh before own new hqueue hnew hs =>
    rcases hq with hq | hq
    · exact .fresh before own new (hq.trans hqueue) hnew hs
    · rw [hqueue] at hq
      cases before with
      | cons b before =>
        exact .fresh before own new (List.cons.inj hq).2.symm hnew hs
      | nil =>
        -- the new node is stored now
        obtain ⟨rfl, hrest⟩ := List.cons.inj hq
        refine .stored (hnew ▸ hasName_insertUser hi db) fun _ => ⟨[], own, hrest.symm, ?_⟩
        refine ⟨hs.1, fun f => ?_⟩
        simp only [hs.2 f, Database.dict_insertUser hi, if_pos hnew.symm]
  | stored hn hs =>
    refine .stored (hn.apply hi) fun hcaught => ?_
    -- nothing is on its way, so the node did not change
    have hsame : ∀ o ∈ k.observers, o.userName = user.userName →
        o.events = [] ∧ (db.apply c).sub o.path = db.sub o.path := by
      intro o ho hou
      have hev := hcaught.seen (o.notify db (db.apply c)) (by rw [hobs]; exact List.mem_map_of_mem ho)
        (by rw [Observer.notify_userName, hou])
      rw [Observer.notify_events] at hev
      split at hev
      · exact ⟨hev, by assumption⟩
      · simp at hev
    have hobserves : k.Observes user.userName := by
      obtain ⟨o', ho', hname⟩ := hcaught.observes
      rw [hobs] at ho'
      obtain ⟨o, ho, rfl⟩ := List.mem_map.1 ho'
      exact ⟨o, ho, by rwa [Observer.notify_userName] at hname⟩
    have hdict : ∀ f, (db.apply c).dict f user.userName = db.dict f user.userName := by
      obtain ⟨o, ho, hname⟩ := hobserves
      intro f
      have hobj := o.object_path (hnames o ho)
      have h := congrArg (object · f.key) (hsame o ho hname).2
      simp only [hobj, hname] at h
      exact h
    have hexp : Exports db user.userName := fun f => by
      rw [← hdict f]
      exact hcaught.exports f
    obtain ⟨before, own, hqueue, hshows⟩ := hs ⟨hobserves, fun o ho hou => (hsame o ho hou).1, hexp⟩
    simp only [hdict]
    rcases hq with hq | hq
    · exact ⟨before, own, hq.trans hqueue, hshows⟩
    · rw [hqueue] at hq
      cases before with
      | cons b before => exact ⟨before, own, (List.cons.inj hq).2.symm, hshows⟩
      | nil =>
        cases own with
        | nil => simp at hq
        | cons c' own =>
          obtain ⟨rfl, hrest⟩ := List.cons.inj hq
          refine ⟨[], own, hrest.symm, fun x hx => hshows.1 x (List.mem_cons_of_mem _ hx), fun f => ?_⟩
          rw [hshows.2 f]
          simp only [effects, List.foldl_cons]
          rw [Call.ownEffect_of_unchanged hi (hshows.1 c' List.mem_cons_self) hdict]

theorem Observer.Watching.notify {o : Observer} (h : o.Watching db) (hname : IsComponent o.userName)
    (hi : c.Issued) : (o.notify db (db.apply c)).Watching (db.apply c) := by
  refine ⟨Observer.notify_last h.last _, ?_⟩
  · rw [Observer.notify_userName, Observer.notify_events]
    split
    · exact fun n hn hfirst => (h.named n hn hfirst).apply hi
    · intro n hn hfirst
      rcases List.mem_append.1 hn with hn | hn
      · exact (h.named n hn hfirst).apply hi
      · rw [List.mem_singleton] at hn
        subst hn
        rwa [o.object_path hname] at hfirst

theorem Observer.Watching.handled {o : Observer} (h : o.Watching db) {snapshot : Node} {events : List Node}
    (he : o.events = snapshot :: events) : (o.handled events).Watching db := by
  refine ⟨Observer.handled_last h.last he, fun n hn => h.named n ?_⟩
  rw [he]
  exact List.mem_cons_of_mem _ hn

end

/-! ## Every run -/

variable {ι : Type} [DecidableEq ι]

/-- No update waits to be applied and no event to be delivered. -/
def State.Quiescent (s : State ι) : Prop :=
  (∀ c, s.queue c = []) ∧ ∀ c, ∀ o ∈ (s.clients c).observers, o.events = []

instance [Fintype ι] (s : State ι) : Decidable s.Quiescent :=
  inferInstanceAs (Decidable ((∀ c, s.queue c = []) ∧ ∀ c, ∀ o ∈ (s.clients c).observers, o.events = []))

/-- A handler run out of order, or a write from outside. -/
def Action.IsForeign : Action ι → Prop
  | .reload _ _ _ | .remote _ => True
  | _ => False

instance (a : Action ι) : Decidable a.IsForeign :=
  match a with
  | .reload _ _ _ | .remote _ => instDecidableTrue
  | .signUp _ _ _ _ _ _ | .signIn _ _ _ | .setupUser _ _ _ | .signOut _ _ | .tap _ _
  | .token _ _ _ | .apply _ | .deliver _ _ | .kill _ _ => instDecidableFalse

/-- An action of the app under names that are single path components. -/
def Ordinary (a : Action ι) : Prop := a.NamesOk ∧ ¬ a.IsForeign

instance (a : Action ι) : Decidable (Ordinary a) := inferInstanceAs (Decidable (_ ∧ _))

/-- A sign-up succeeds only in a process that observes the new user's node already, and an event
that reaches its handler comes through the casts as it is. -/
def Attended (s : State ι) : Action ι → Prop
  | .signUp c authResult userName firstName lastName newUUID => ∀ auth ∈ authResult,
    (Call.insertUser (SessionStore.newUser auth userName firstName lastName newUUID)).write.isSome →
      (s.clients c).Observes userName
  | .deliver c i => ∀ o ∈ (s.clients c).observers[i]?, ∀ n ∈ o.events.head?,
    ∀ f : Field, SessionStore.exported f (object n f.key) = object n f.key
  | _ => True

instance (s : State ι) (a : Action ι) : Decidable (Attended s a) :=
  match a with
  | .signUp c authResult userName firstName lastName newUUID => inferInstanceAs (Decidable (∀ auth ∈ authResult,
      (Call.insertUser (SessionStore.newUser auth userName firstName lastName newUUID)).write.isSome →
        (s.clients c).Observes userName))
  | .deliver c i => inferInstanceAs (Decidable (∀ o ∈ (s.clients c).observers[i]?, ∀ n ∈ o.events.head?,
      ∀ f : Field, SessionStore.exported f (object n f.key) = object n f.key))
  | .signIn _ _ _ | .setupUser _ _ _ | .signOut _ _ | .tap _ _ | .token _ _ _ | .apply _ | .kill _ _
  | .reload _ _ _ | .remote _ => isTrue trivial

/-- A process as it should be; `attended` says whether its actions are. -/
structure Client.Converging (attended : Prop) (k : Client) (db : Database) : Prop where
  watching : ∀ o ∈ k.observers, o.Watching db
  sessions : ∀ user ∈ k.store.session, SessionOk db k user
  observed : attended → ∀ user ∈ k.store.session, k.Observes user.userName
  exports : attended → ∀ o ∈ k.observers, o.events = [] → Exports db o.userName

/-- The invariant: well-formed names and updates, and every process as it should be. -/
structure Converging (attended : ι → Prop) (s : State ι) : Prop where
  sound : Sound (fun _ _ _ => True) s
  clients : ∀ c, (s.clients c).Converging (attended c) s.db

namespace Client.Converging

variable {attended : Prop} {db : Database} {k k' : Client}

theorem of_idle (hobs : k.observers = []) (hs : k.store.session = none) : k.Converging attended db :=
  ⟨by simp [hobs], by simp [hs], by simp [hs], by simp [hobs]⟩

theorem crash : k.crash.Converging attended db := of_idle rfl rfl

/-- The observers stay, and so does the session's user, or the session ends. -/
theorem congr (h : k.Converging attended db) (hobs : k'.observers = k.observers)
    (hs : ∀ user' ∈ k'.store.session, ∃ user ∈ k.store.session,
      user'.userName = user.userName ∧ (SessionOk db k user → SessionOk db k' user')) :
    k'.Converging attended db := by
  refine ⟨hobs ▸ h.watching, fun user' hu' => ?_, fun hatt user' hu' => ?_,
    fun hatt => hobs ▸ h.exports hatt⟩
  · obtain ⟨user, hu, -, hok⟩ := hs user' hu'
    exact hok (h.sessions user hu)
  · obtain ⟨user, hu, hname, -⟩ := hs user' hu'
    rw [Client.Observes, hobs, hname]
    exact h.observed hatt user hu

/-- Where a method leaves the store as it was and hands nothing over. -/
theorem finish_pure (h : k.Converging attended db) {e : Effect Request SessionStore}
    (he : e = pure k.store) : (k.finish e).Converging attended db := by
  subst he
  exact h.congr (by simp [finish_observers]) fun user hu => ⟨user, by simpa using hu, rfl, fun hok =>
    hok.congr (by simp) (by simp [finish_observers])⟩

theorem observe (h : k.Converging attended db) {userName : String} (hn : IsComponent userName)
    (entrance : Entrance) (auth : AuthUser) :
    (k.observe db entrance auth userName).Converging attended db := by
  rcases k.observe_cases db entrance auth userName with ⟨path, hp, hk⟩ | hk
  swap
  · rw [hk]
    exact crash
  rw [hk]
  have hpath : path = Observer.path ⟨entrance, auth, userName, false, [db.sub path]⟩ := by
    simp [Observer.path, child_eq_some hn hp, hn.pathComponents]
  refine ⟨fun o ho => ?_, fun user hu => ?_, fun hatt user hu => ?_, fun hatt o ho hev => ?_⟩
  · rcases List.mem_append.1 ho with ho | ho
    · exact h.watching o ho
    · rw [List.mem_singleton] at ho
      subst ho
      refine ⟨?_, ?_⟩
      · simp [Observer.path, child_eq_some hn hp, hn.pathComponents]
      · simp only [List.mem_singleton, forall_eq]
        rw [hpath, Observer.object_path hn]
        exact id
  · cases h.sessions user hu with
    | fresh before own new hq hnew hs => exact .fresh before own new hq hnew hs
    | stored hname hs =>
      refine .stored hname fun hcaught => hs ⟨?_, fun o ho => hcaught.seen o (List.mem_append_left _ ho),
        hcaught.exports⟩
      obtain ⟨o, ho, hou⟩ := hcaught.observes
      rcases List.mem_append.1 ho with ho | ho
      · exact ⟨o, ho, hou⟩
      · -- the new observer still has an event
        have hev := hcaught.seen o (List.mem_append_right _ ho) hou
        rw [List.mem_singleton] at ho
        subst ho
        cases hev
  · obtain ⟨o, ho, hou⟩ := h.observed hatt user hu
    exact ⟨o, List.mem_append_left _ ho, hou⟩
  · rcases List.mem_append.1 ho with ho | ho
    · exact h.exports hatt o ho hev
    · rw [List.mem_singleton] at ho
      subst ho
      cases hev

theorem signUp (h : k.Converging attended db) {authResult : Option AuthUser}
    {userName firstName lastName newUUID : String}
    (ho : attended → ∀ auth ∈ authResult,
      (Call.insertUser (SessionStore.newUser auth userName firstName lastName newUUID)).write.isSome →
        k.Observes userName) :
    (k.finish (k.store.signUp authResult userName firstName lastName newUUID)).Converging attended db := by
  cases authResult with
  | none => exact h.finish_pure rfl
  | some auth =>
    unfold SessionStore.signUp
    dsimp only
    split
    swap
    · exact crash
    rename_i hw
    refine ⟨by rw [finish_observers]; exact h.watching, ?_, ?_, ?_⟩
    · rw [finish_store]
      rintro user ⟨rfl⟩
      refine .fresh k.queue [] _ ?_ rfl (User.shows_nil fun f => by cases f <;> rfl)
      simp [Request.call?]
    · rw [finish_store]
      rintro hatt user ⟨rfl⟩
      rw [Client.Observes, finish_observers]
      exact ho hatt auth rfl hw
    · rw [finish_observers]
      exact h.exports

theorem tap (h : k.Converging attended db) (op : LinkOp) :
    (k.finish (Effect.mapIssued .call (op.run k.store))).Converging attended db := by
  cases hs : k.store.session with
  | none => exact h.finish_pure (by rw [op.run_none hs]; rfl)
  | some user =>
    cases hv : (op.run k.store).value with
    | none => exact of_idle (by simp [finish_observers, hv]) (by simp [hv, SessionStore.initial])
    | some store =>
      obtain ⟨hcast, hissued, rfl⟩ := (op.run_spec hs).2.2 store hv
      have hobs : (k.finish (Effect.mapIssued .call (op.run k.store))).observers = k.observers := by
        simp [finish_observers, hv]
      refine h.congr hobs ?_
      rw [finish_store, Effect.mapIssued_value, hv]
      rintro user' ⟨rfl⟩
      refine ⟨user, hs, op.localEffect_userName user, fun hok =>
        hok.extend (op.calls user) ?_ hobs (op.localEffect_userName user) ?_ ?_⟩
      · rw [finish_queue, Effect.mapIssued_issued, List.filterMap_map,
          show Request.call? ∘ Request.call = some from rfl, List.filterMap_some, hissued]
      · intro c hc u hu
        obtain ⟨k', ho, hown, -⟩ := LinkOp.calls_own hc
        rw [Call.owner?_of_own ho] at hu
        cases hu
        exact hown
      · intro f
        rw [op.dict_localEffect user hcast, effects]
        refine List.foldl_ext _ _ _ fun d c hc => ?_
        obtain ⟨k', ho, -⟩ := LinkOp.calls_own hc
        cases c <;> first | rfl | cases ho

theorem uploadDeviceToken (h : k.Converging attended db) (userName token : String) :
    (k.finish (Effect.mapIssued .call do
      (Call.uploadDeviceToken userName token).send
      pure k.store)).Converging attended db := by
  rw [Call.send_bind]
  split
  · refine h.congr (by simp [finish_observers]) fun user hu => ⟨user, by simpa using hu, rfl, fun hok =>
      hok.extend [.uploadDeviceToken userName token] ?_ ?_ rfl ?_ fun f => rfl⟩
    · simp [Request.call?]
    · simp [finish_observers]
    · simp [Call.owner?, Call.own?]
  · exact crash

/-- The server applies an update, of this process or of another one. -/
theorem apply (h : k.Converging attended db) {c : Call} (hi : c.Issued)
    (hnames : ∀ o ∈ k.observers, IsComponent o.userName)
    (hq : k'.queue = k.queue ∨ k.queue = c :: k'.queue) (hs : k'.store = k.store)
    (hobs : k'.observers = k.observers.map fun o => o.notify db (db.apply c)) :
    k'.Converging attended (db.apply c) := by
  refine ⟨?_, ?_, ?_, ?_⟩
  · rw [hobs]
    intro o ho
    obtain ⟨o, hmem, rfl⟩ := List.mem_map.1 ho
    exact (h.watching o hmem).notify (hnames o hmem) hi
  · rw [hs]
    exact fun user hu => (h.sessions user hu).apply hi hnames hq hobs
  · rw [hs]
    intro hatt user hu
    obtain ⟨o, ho, hou⟩ := h.observed hatt user hu
    exact ⟨o.notify db (db.apply c), by rw [hobs]; exact List.mem_map_of_mem ho,
      by rw [Observer.notify_userName, hou]⟩
  · rw [hobs]
    intro hatt o ho hev
    obtain ⟨o, hmem, rfl⟩ := List.mem_map.1 ho
    rw [Observer.notify_events] at hev
    split at hev
    · rename_i hsame
      intro f
      have hdict := congrArg (object · f.key) hsame
      simp only [o.object_path (hnames o hmem)] at hdict
      have hexp := h.exports hatt o hmem hev f
      rw [Observer.notify_userName]
      change SessionStore.exported f ((db.apply c).sub ["users", o.userName, f.key]) =
        (db.apply c).sub ["users", o.userName, f.key]
      rw [hdict]
      exact hexp
    · simp at hev

/-- An event reaches its handler. -/
theorem deliver (h : k.Converging attended db) (hnames : ∀ o ∈ k.observers, IsComponent o.userName)
    {i : Nat} {o : Observer} {snapshot : Node} {events : List Node} (ho : k.observers[i]? = some o)
    (he : o.events = snapshot :: events)
    (hx : attended → ∀ f : Field, SessionStore.exported f (object snapshot f.key) = object snapshot f.key) :
    ((k.receive i (o.handled events)).finish (o.completion k.store snapshot)).Converging
      attended db := by
  have hmem : o ∈ k.observers := List.mem_of_getElem? ho
  have hw := h.watching o hmem
  have hname := hnames o hmem
  have hin : o.handled events ∈ (k.receive i (o.handled events)).observers :=
    List.mem_set (List.getElem?_eq_some_iff.1 ho).1 _
  have hother : ∀ o' ∈ k.observers, o' = o ∨ o' ∈ (k.receive i (o.handled events)).observers :=
    fun o' => Lists.eq_or_mem_set ho _
  -- the last event shows the node as it is
  have hlast : events = [] → snapshot = db.sub o.path := by
    rintro rfl
    exact hw.last snapshot (by rw [he]; rfl)
  have hwatch : ∀ o' ∈ (k.receive i (o.handled events)).observers, o'.Watching db := by
    intro o' ho'
    rcases List.mem_or_eq_of_mem_set ho' with ho' | rfl
    · exact h.watching o' ho'
    · exact hw.handled he
  have hexports : attended → ∀ o' ∈ (k.receive i (o.handled events)).observers,
      o'.events = [] → Exports db o'.userName := by
    intro hatt o' ho' hev
    rcases List.mem_or_eq_of_mem_set ho' with ho' | rfl
    · exact h.exports hatt o' ho' hev
    · intro f
      have hxf := hx hatt f
      rwa [hlast hev, o.object_path hname] at hxf
  have hcalls := o.completion_calls k.store snapshot
  rcases o.completion_cases k.store snapshot with ⟨user, tokens, hd, -, -, hc⟩ | ⟨-, hc⟩ | ⟨-, hnone, hc⟩
  · obtain ⟨-, hu, hdict, hfirst, -⟩ := o.decoded_spec hd
    refine ⟨by rw [finish_observers, hc]; exact hwatch, ?_, ?_, by rw [finish_observers, hc]; exact hexports⟩
    · rw [finish_store, hc]
      rintro user' ⟨rfl⟩
      have hstored : HasName db o.userName :=
        hw.named snapshot (by rw [he]; exact List.mem_cons_self) hfirst
      rw [← hu] at hstored
      refine .stored hstored fun hcaught => ⟨k.queue, [], ?_, User.shows_nil fun f => ?_⟩
      · rw [finish_queue, ← hc, hcalls]
        rfl
      · have hrest := hcaught.seen (o.handled events) (by rw [finish_observers]; exact hin) hu.symm
        have hexp := hcaught.exports f
        rw [hdict f, hlast hrest, o.object_path hname, hu]
        rwa [hu] at hexp
    · rw [finish_store, hc]
      rintro - user' ⟨rfl⟩
      rw [Client.Observes, finish_observers]
      exact ⟨_, hin, hu.symm⟩
  · rw [hc]
    exact crash
  · refine finish_pure (k := k.receive i (o.handled events)) ?_ hc
    refine ⟨hwatch, fun user hu => ?_, fun hatt user hu => ?_, hexports⟩
    · cases h.sessions user hu with
      | fresh before own new hq hnew hs => exact .fresh before own new hq hnew hs
      | stored hstored hs =>
        refine .stored hstored fun hcaught => hs ⟨?_, ?_, hcaught.exports⟩
        · obtain ⟨o', ho', hou⟩ := hcaught.observes
          rcases List.mem_or_eq_of_mem_set ho' with ho' | rfl
          · exact ⟨o', ho', hou⟩
          · exact ⟨o, hmem, hou⟩
        · intro o' ho' hou
          rcases hother o' ho' with rfl | ho'
          · -- a missing node would have a first name
            have hrest := hcaught.seen _ hin hou
            rw [hlast hrest, o'.path_eq hname, hou] at hnone
            exact absurd hnone hstored.asDictionary?
          · exact hcaught.seen o' ho' hou
    · obtain ⟨o', ho', hou⟩ := h.observed hatt user hu
      rcases hother o' ho' with rfl | ho'
      · exact ⟨_, hin, hou⟩
      · exact ⟨o', ho', hou⟩

end Client.Converging

/-! ## One step -/

section
variable {attended : ι → Prop} {s s' : State ι}

theorem Converging.setClient (h : Converging attended s) (hsound : Sound (fun _ _ _ => True) s')
    {c : ι} {k : Client} (hs : s' = s.setClient c k) (hk : k.Converging (attended c) s.db) :
    Converging attended s' := by
  refine ⟨hsound, fun c' => ?_⟩
  subst hs
  rw [State.setClient_clients]
  split
  · rename_i hc
    rw [hc]
    exact hk
  · exact h.clients c'

theorem Converging.step {a : Action ι} (h : Converging attended s) (ha : Ordinary a)
    (hatt : ∀ c, a.device = some c → attended c → Attended s a) (hs : s.step a = some s') :
    Converging attended s' := by
  have hsound : Sound (fun _ _ _ => True) s' := by
    refine h.sound.step (fun _ _ _ _ => trivial) hs ha.1 ?_ ?_ ?_ ?_
    · rintro w rfl
      exact ha.2 trivial
    · exact fun _ _ _ _ _ _ _ => trivial
    · exact fun _ _ _ _ _ _ _ => trivial
    · rintro c o snapshot rfl
      exact absurd trivial ha.2
  have hnames : ∀ c, ∀ o ∈ (s.clients c).observers, IsComponent o.userName :=
    fun c o ho => ((h.sound.clients c).observers o ho).1
  cases a with
  | signUp c authResult userName firstName lastName newUUID =>
    simp only [State.step, Option.some.injEq] at hs
    exact h.setClient hsound hs.symm ((h.clients c).signUp (hatt c rfl))
  | signIn c authResult userName =>
    cases authResult with
    | none =>
      cases hs
      exact h
    | some auth =>
      simp only [State.step, Option.some.injEq] at hs
      exact h.setClient hsound hs.symm ((h.clients c).observe ha.1 _ _)
  | setupUser c auth userName =>
    simp only [State.step, Option.some.injEq] at hs
    exact h.setClient hsound hs.symm ((h.clients c).observe ha.1 _ _)
  | signOut c signedOut =>
    simp only [State.step, Option.some.injEq] at hs
    refine h.setClient hsound hs.symm ((h.clients c).congr rfl fun user hu =>
      ⟨user, ?_, rfl, fun hok => hok.congr rfl rfl⟩)
    unfold SessionStore.signOut at hu
    split at hu
    · cases hu
    · exact hu
  | tap c op =>
    simp only [State.step, Option.some.injEq] at hs
    exact h.setClient hsound hs.symm ((h.clients c).tap op)
  | token c i token =>
    obtain ⟨userName, -, hs⟩ := State.step_token.1 hs
    have hk : Client.Converging (attended c)
        { s.clients c with tokens := (s.clients c).tokens.eraseIdx i } s.db :=
      (h.clients c).congr rfl fun user hu => ⟨user, hu, rfl, fun hok => hok.congr rfl rfl⟩
    cases token with
    | none => exact h.setClient hsound hs hk
    | some token => exact h.setClient hsound hs (hk.uploadDeviceToken userName token)
  | apply c =>
    obtain ⟨call, rest, hq, rfl⟩ := State.step_apply.1 hs
    have hi : call.Issued := ((h.sound.clients c).queue call (hq ▸ List.mem_cons_self)).1
    refine ⟨hsound, fun c' => (h.clients c').apply hi (hnames c') ?_ ?_ ?_⟩
    all_goals
      simp only [State.commit, Client.notify, State.setClient_clients]
      by_cases hc : c' = c
      · subst hc
        simp [hq, Database.apply]
      · simp [hc, Database.apply]
  | deliver c i =>
    obtain ⟨o, snapshot, events, ho, he, hs⟩ := State.step_deliver.1 hs
    refine h.setClient hsound hs ((h.clients c).deliver (hnames c) ho he fun hstrict => ?_)
    exact hatt c rfl hstrict o ho snapshot (by rw [he]; rfl)
  | kill c sent =>
    simp only [State.step, Option.some.injEq] at hs
    exact h.setClient hsound hs.symm (Client.Converging.of_idle rfl rfl)
  | reload c o snapshot => exact absurd trivial ha.2
  | remote w => exact absurd trivial ha.2

omit [DecidableEq ι] in
theorem converging_start (attended : ι → Prop) (db : Database) :
    Converging attended (State.start db : State ι) :=
  ⟨sound_start fun _ _ _ _ _ => trivial, fun _ => Client.Converging.of_idle rfl rfl⟩

omit [DecidableEq ι] in
/-- Nothing waits: an observed session shows what is stored. -/
theorem Converging.matches (h : Converging attended s) (hq : s.Quiescent) {c : ι} {user : User}
    (hs : s.session c = some user) (ho : (s.clients c).Observes user.userName)
    (hx : Exports s.db user.userName) : user.Matches s.db := by
  have hqueue : (s.clients c).queue = [] := hq.1 c
  cases (h.clients c).sessions user hs with
  | fresh before own new hnew =>
    rw [hqueue] at hnew
    simp at hnew
  | stored _ hstored =>
    obtain ⟨before, own, hown, hshows⟩ := hstored ⟨ho, fun o hmem _ => hq.2 c o hmem, hx⟩
    obtain ⟨-, rfl⟩ := List.append_eq_nil_iff.1 (hown.symm.trans hqueue)
    exact hshows.2

end

variable {db : Database} {hist : History (State ι) (Action ι)} {s : State ι} {c : ι}

/-- **A session whose process observes its node** shows what is stored once nothing waits, whatever
anybody has done before. -/
theorem observed_session_matches
    (hr : Reach State.step (fun _ _ a => Ordinary a) (State.start db) hist s) (hq : s.Quiescent)
    {user : User} (hs : s.session c = some user) (ho : (s.clients c).Observes user.userName)
    (hx : Exports s.db user.userName) : user.Matches s.db := by
  have h : Converging (fun _ => False) s :=
    hr.inv (I := fun _ s => Converging (fun _ => False) s) (converging_start _ db)
      fun _ _ _ _ _ hi ha hs => hi.step ha (fun _ _ hf => absurd hf id) hs
  exact h.matches hq hs ho hx

/-- **Signed-in sessions converge** on every device whose sign-ups are observed, whatever happens on
the other devices. -/
theorem sessions_converge
    (hr : Reach State.step (fun _ s a => Ordinary a ∧ (a.device = some c → Attended s a))
      (State.start db) hist s) (hq : s.Quiescent) :
    ∀ user ∈ s.session c, user.Matches s.db := by
  intro user hs
  have h : Converging (fun c' => c' = c) s :=
    hr.inv (I := fun _ s => Converging (fun c' => c' = c) s) (converging_start _ db)
      fun _ _ _ _ _ hi ha hs => hi.step ha.1 (by rintro c' hdev rfl; exact ha.2 hdev) hs
  have ho := (h.clients c).observed rfl user hs
  obtain ⟨o, hmem, hou⟩ := ho
  have hx := (h.clients c).exports rfl o hmem (hq.2 c o hmem)
  rw [hou] at hx
  exact h.matches hq hs ⟨o, hmem, hou⟩ hx

/-- Bob asks Alice, and everything is applied and delivered. -/
theorem sessions_converge_alice :
    ∃ hist s, Reach State.step (fun _ s a => Ordinary a ∧ (a.device = some 0 → Attended s a))
        (State.start (registered aliceAndBob) : State (Fin 2)) hist s ∧
      s.Quiescent ∧ s.db.entry .requests "alice" "bob" = .string "R1" ∧
      ∃ user ∈ s.session 0, user.userName = "alice" ∧ user.Matches s.db := by
  have hplay : (exec State.step (fun _ s a => Ordinary a ∧ (a.device = some 0 → Attended s a)) []
      (State.start (registered aliceAndBob) : State (Fin 2)) (bothSignIn 0 1 ++ [.tap 1 (.addPending "alice" "R1"), .apply 1,
        .deliver 0 0, .deliver 1 0])).any
      (fun r => decide (r.2.Quiescent ∧ r.2.db.entry .requests "alice" "bob" = .string "R1" ∧
        ∃ user ∈ r.2.session 0, user.userName = "alice")) = true := by
    decide +kernel
  obtain ⟨hist, s, hr, hq, hentry, user, hs, hname⟩ := exists_reach_of_exec
    (P := fun _ (s : State (Fin 2)) => s.Quiescent ∧ s.db.entry .requests "alice" "bob" = .string "R1" ∧
      ∃ user ∈ s.session 0, user.userName = "alice") hplay
  exact ⟨hist, s, hr, hq, hentry, user, hs, hname, sessions_converge hr hq user hs⟩

/-- Alice and Bob sign up, and Bob asks Alice: nothing tells her session. -/
theorem signUp_misses :
    ∃ hist s, Reach State.step (fun _ _ a => Ordinary a) (State.start Tree.empty : State (Fin 2)) hist s ∧
      s.Quiescent ∧ ∃ user ∈ s.session 0, ¬ user.Matches s.db := by
  have hplay : (exec State.step (fun _ _ a => Ordinary a) [] (State.start Tree.empty : State (Fin 2))
      [.signUp 0 (some alice.auth) "alice" "Alice" "Liddell" "A0", .apply 0,
        .signUp 1 (some bob.auth) "bob" "Bob" "Moran" "B0", .apply 1,
        .tap 1 (.addPending "alice" "R1"), .apply 1]).any
      (fun r => decide (r.2.Quiescent ∧ ∃ user ∈ r.2.session 0, ¬ user.Matches r.2.db)) = true := by
    decide +kernel
  exact exists_reach_of_exec (P := fun _ (s : State (Fin 2)) =>
    s.Quiescent ∧ ∃ user ∈ s.session 0, ¬ user.Matches s.db) hplay

end Anissagram
