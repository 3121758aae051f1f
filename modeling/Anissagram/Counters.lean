import Anissagram.Converge
import Anissagram.Shape
/-
# The counters of `ExploreView` (`Views/MainViews/ExploreView.swift:16-18`, `:123-136`)

| here | there |
| --- | --- |
| `ExploreView.counters`   | `numberRelations`, `numberPending`, `numberRequests` |
| `ExploreView.receive`    | `onReceive(session.didChange)` |
| `State.Notifies`         | the `didSet` of `session` (`SessionStore.swift:17`) |
| `ExploreAction.addBlock` | `updateSession` (:144), which only `addBlock` calls (:223) |

The link operations change the dictionaries in place, and `didSet` does not see that. What tells the view is the
event that the update brings about at the server, if the process observes the node of its session. `signUp`
observes nothing (`signUp_counts_nothing`).

The invariant (`Tracks`): since the last event, or since the new user was handed to `insertUser`, the session is a
base changed by own updates that still wait, and the counters count the base changed by the first few of them.
What is applied without an event changes nothing in the node and so nothing in either (`Call.Of.onOwn_of_still`).
-/

namespace Anissagram

open PathTree NSMutableDictionary Runs

/-- The three sizes. -/
structure Counters where
  numberRelations : Nat
  numberPending : Nat
  numberRequests : Nat
deriving DecidableEq

/-- `count` of the three dictionaries. -/
def Counters.of (d : Field → NSMutableDictionary) : Counters :=
  ⟨(d .relationships).keys.card, (d .pending).keys.card, (d .requests).keys.card⟩

structure ExploreView where
  onScreen : Bool
  counters : Counters
deriving DecidableEq

namespace ExploreView

def initial : ExploreView := ⟨false, ⟨0, 0, 0⟩⟩

/-- What `onAppear` and `onReceive` do. -/
def refresh (v : ExploreView) (session : Option User) : ExploreView :=
  match session with
  | some user => { v with counters := .of user.dict }
  | none => v

def appear (v : ExploreView) (session : Option User) : ExploreView := { v with onScreen := true }.refresh session

def receive (v : ExploreView) (session : Option User) : ExploreView :=
  if v.onScreen then v.refresh session else v

end ExploreView

variable {ι : Type} [DecidableEq ι]

/-- The session of device `c` is set in an action. -/
def State.Notifies (s : State ι) (c : ι) : Action ι → Prop
  | .signUp c' authResult _ _ _ _ => c' = c ∧ authResult.isSome
  | .signOut c' signedOut => c' = c ∧ signedOut = true
  | .deliver c' i => c' = c ∧ ∃ o ∈ (s.clients c).observers[i]?, ∃ snapshot ∈ o.events.head?, (o.decoded snapshot).isSome
  | .reload c' o snapshot => c' = c ∧ (o.decoded snapshot).isSome
  | .signIn _ _ _ | .setupUser _ _ _ | .tap _ _ | .token _ _ _ | .apply _ | .kill _ _ | .remote _ => False

instance (s : State ι) (c : ι) (a : Action ι) : Decidable (s.Notifies c a) :=
  match a with
  | .signUp c' authResult _ _ _ _ => inferInstanceAs (Decidable (c' = c ∧ authResult.isSome))
  | .signOut c' signedOut => inferInstanceAs (Decidable (c' = c ∧ signedOut = true))
  | .deliver c' i => inferInstanceAs (Decidable (c' = c ∧ ∃ o ∈ (s.clients c).observers[i]?,
      ∃ snapshot ∈ o.events.head?, (o.decoded snapshot).isSome))
  | .reload c' o snapshot => inferInstanceAs (Decidable (c' = c ∧ (o.decoded snapshot).isSome))
  | .signIn _ _ _ | .setupUser _ _ _ | .tap _ _ | .token _ _ _ | .apply _ | .kill _ _ | .remote _ => isFalse id

/-- The devices and the server, and the `ExploreView` of one device. -/
structure ExploreScreen (ι : Type) where
  net : State ι
  view : ExploreView

inductive ExploreAction (ι : Type) where
  | net (a : Action ι)
  | appear
  | disappear
  | addBlock

namespace ExploreScreen

def start : ExploreScreen ι := ⟨State.start Tree.empty, .initial⟩

/-- The view of device `c` after an action. -/
def viewAfter (x : ExploreScreen ι) (c : ι) (a : Action ι) (s : State ι) : ExploreView :=
  if x.net.Ends c a then .initial
  else if x.net.Notifies c a then x.view.receive (s.session c)
  else x.view

def step (c : ι) (x : ExploreScreen ι) : ExploreAction ι → Option (ExploreScreen ι)
  | .net a => (x.net.step a).map fun s => ⟨s, x.viewAfter c a s⟩
  | .appear => some { x with view := x.view.appear (x.net.session c) }
  | .disappear => some { x with view := { x.view with onScreen := false } }
  | .addBlock => some { x with view := x.view.receive (x.net.session c) }

end ExploreScreen

/-- Nothing of the process is under way: no update to be applied, no event to be delivered. -/
def Client.Settled (k : Client) : Prop := k.queue = [] ∧ ∀ o ∈ k.observers, o.events = []

instance (k : Client) : Decidable k.Settled := inferInstanceAs (Decidable (_ ∧ _))

/-- `users/<userName>`. -/
def User.path (user : User) : List String := "users" :: pathComponents user.userName

/-- Some observer of the process watches the node at `path`. -/
def Client.Watches (k : Client) (path : List String) : Prop := ∃ o ∈ k.observers, o.path = path

instance (k : Client) (path : List String) : Decidable (k.Watches path) :=
  inferInstanceAs (Decidable (∃ o ∈ k.observers, o.path = path))

/-- The id of a request is not stored already. -/
def Call.NewId (c : Call) (db : Database) : Prop :=
  ∀ h ∈ c.own?, h.field = .pending → h.value.isSome → ∀ w ∈ c.write.getD [], db.sub w.1 ≠ w.2

instance (c : Call) (db : Database) : Decidable (c.NewId db) :=
  inferInstanceAs (Decidable (∀ h ∈ c.own?, h.field = .pending → h.value.isSome → ∀ w ∈ c.write.getD [], db.sub w.1 ≠ w.2))

/-- The counters are those of the session, if the view is on the screen and there is a session. -/
def ExploreScreen.Counts (c : ι) (x : ExploreScreen ι) : Prop :=
  x.view.onScreen = true → ∀ user ∈ x.net.session c, x.view.counters = .of user.dict

instance (c : ι) (x : ExploreScreen ι) : Decidable (x.Counts c) :=
  inferInstanceAs (Decidable (x.view.onScreen = true → ∀ user ∈ x.net.session c, x.view.counters = .of user.dict))

/-- An operation leaves the sizes as they are. -/
def LinkOp.KeepsSizes (op : LinkOp) (s : SessionStore) (user : User) : Prop :=
  ∀ s' ∈ (op.run s).value, ∀ user' ∈ s'.session, Counters.of user'.dict = Counters.of user.dict

instance (op : LinkOp) (s : SessionStore) (user : User) : Decidable (op.KeepsSizes s user) :=
  inferInstanceAs (Decidable (∀ s' ∈ (op.run s).value, ∀ user' ∈ s'.session,
    Counters.of user'.dict = Counters.of user.dict))

/-- While the view is on the screen, a link operation changes a size only in a process that watches the node of its
session; and an id that was drawn for a request is not there already when the request is applied. -/
def Announced (s : State ι) (c : ι) (v : ExploreView) : Action ι → Prop
  | .tap c' op => c' = c → v.onScreen = true → ∀ user ∈ s.session c,
    (s.clients c).Watches user.path ∨ op.KeepsSizes (s.clients c).store user
  | .apply c' => ∀ call ∈ (s.queue c').head?, call.NewId s.db
  | _ => True

instance (s : State ι) (c : ι) (v : ExploreView) (a : Action ι) : Decidable (Announced s c v a) :=
  match a with
  | .tap c' op => inferInstanceAs (Decidable (c' = c → v.onScreen = true → ∀ user ∈ s.session c,
      (s.clients c).Watches user.path ∨ op.KeepsSizes (s.clients c).store user))
  | .apply c' => inferInstanceAs (Decidable (∀ call ∈ (s.queue c').head?, call.NewId s.db))
  | .signUp _ _ _ _ _ _ | .signIn _ _ _ | .setupUser _ _ _ | .signOut _ _ | .token _ _ _ | .deliver _ _
  | .kill _ _ | .reload _ _ _ | .remote _ => isTrue trivial

def ExploreAction.FromApp : ExploreAction ι → Prop
  | .net a => a.FromApp
  | .appear | .disappear | .addBlock => True

instance (a : ExploreAction ι) : Decidable a.FromApp :=
  match a with
  | .net a => inferInstanceAs (Decidable a.FromApp)
  | .appear | .disappear | .addBlock => isTrue trivial

/-- An action of the app that is announced. -/
def ExploreScreen.Attentive (c : ι) (x : ExploreScreen ι) (a : ExploreAction ι) : Prop :=
  a.FromApp ∧
  match a with
  | .net a => Announced x.net c x.view a
  | .appear | .disappear | .addBlock => True

instance (c : ι) (x : ExploreScreen ι) (a : ExploreAction ι) : Decidable (x.Attentive c a) :=
  match a with
  | .net a => inferInstanceAs (Decidable (a.FromApp ∧ Announced x.net c x.view a))
  | .appear | .disappear | .addBlock => isTrue ⟨trivial, trivial⟩

/-! ## Writes and nodes -/

theorem Stores.hasName {w : List String × Node} (hw : Stores w) {db : Database} {u : String} (h : HasName db u) :
    HasName (db.set w.1 w.2) u := by
  unfold HasName at h ⊢
  have hapart : Apart w.1 ["users", u, "first_name"] → HasName (db.set w.1 w.2) u := by
    intro hap
    unfold HasName
    rwa [Tree.sub_set_apart _ _ hap]
  cases hw with
  | user g hg =>
    by_cases hu : g.userName = u
    · subst hu
      rw [show ["users", g.userName, "first_name"] = ["users", g.userName] ++ ["first_name"] from rfl, ← Tree.sub_sub,
        Tree.sub_set_self]
      change ((object g.user.body "first_name").asString?).isSome
      rw [g.user.object_body_first_name]
      rfl
    · refine hapart ?_
      have hap : Apart ["users", g.userName] ["users", u] := apart_of_length_eq rfl (by simpa using hu)
      exact (hap.symm.append_left ["first_name"]).symm
  | @entry u' n f value _ _ _ =>
    refine hapart ?_
    have hap : Apart ["users", u', f.key] ["users", u, "first_name"] :=
      apart_of_length_eq rfl (by cases f <;> simp [Field.key])
    exact hap.append_left [n]
  | deviceID token _ => exact hapart (apart_of_length_eq rfl (by simp))
  | elsewhere p n hk => exact hapart (apart_cons_of_ne _ _ hk)

/-- No write of the app takes a first name away. -/
theorem HasName.update {u : String} :
    ∀ {ws : CompoundWrite} {db : Database}, (∀ w ∈ ws, Stores w) → HasName db u → HasName (db.update ws) u
  | [], _, _, h => h
  | w :: ws, db, hws, h => by
    rw [Tree.update_cons]
    exact HasName.update (fun x hx => hws x (List.mem_cons_of_mem _ hx)) ((hws w List.mem_cons_self).hasName h)

/-! ## Own updates -/

/-- An accepted update that waits for the owner of the node `users/<u>` and is not its `insertUser`. -/
structure Call.Of (c : Call) (u : String) : Prop where
  write : c.write.isSome
  own : ∀ h ∈ c.own?, NodeName h.owner u ∧ isValidKey h.name

/-- The own changes of several updates. -/
def ownEdits (cs : List Call) (d : Field → NSMutableDictionary) : Field → NSMutableDictionary :=
  fun f => cs.foldl (fun d c => c.onOwn f d) (d f)

theorem ownEdits_append (cs cs' : List Call) (d : Field → NSMutableDictionary) :
    ownEdits (cs ++ cs') d = ownEdits cs' (ownEdits cs d) := by
  funext f
  simp [ownEdits, List.foldl_append]

/-- What a handler may have made of the dictionaries of a node. -/
def CastOf (node d : Field → NSMutableDictionary) : Prop :=
  ∀ f, d f = node f ∨ f ≠ .relationships ∧ d f = Tree.empty

theorem SessionStore.exported_castOf (f : Field) (n : Node) :
    SessionStore.exported f n = n ∨ f ≠ .relationships ∧ SessionStore.exported f n = Tree.empty := by
  cases f with
  | relationships => exact Or.inl rfl
  | pending => exact (SessionStore.exported_cases .pending n).imp_right fun h => ⟨by simp, h⟩
  | requests => exact (SessionStore.exported_cases .requests n).imp_right fun h => ⟨by simp, h⟩

/-- The own half of an accepted update is one of its writes. -/
theorem Call.Of.own_stored {c : Call} {u : String} (hc : c.Of u) {h : Half} (ho : c.own? = some h) (db : Database) :
    (["users", u, h.field.key, h.name], entryNode h.value) ∈ c.write.getD [] ∧
    (db.apply c).sub ["users", u, h.field.key, h.name] = entryNode h.value := by
  obtain ⟨hu, hn⟩ := hc.own h ho
  obtain ⟨ws, hws⟩ := Option.isSome_iff_exists.1 hc.write
  have hmem : (["users", u, h.field.key, h.name], entryNode h.value) ∈ ws ∧ ws.Pairwise fun w w' => Apart w.1 w'.1 := by
    cases c <;> simp only [Call.own?, Option.some.injEq, reduceCtorEq] at ho
    all_goals subst ho
    case removeRequest a b =>
      obtain ⟨rfl, hap⟩ := Call.write_under (h := ⟨.pending, b, a, none⟩) rfl hn.pathComponents hu.1 hws
      exact ⟨by simp [Half.under, Half.write, Half.mirror, Field.mirror], hap⟩
    all_goals
      obtain ⟨rfl, hap⟩ := Call.write_under rfl hu.1 hn.pathComponents hws
      exact ⟨by simp [Half.under, Half.write], hap⟩
  unfold Database.apply
  rw [hws, Option.getD_some]
  exact ⟨hmem.1, Tree.sub_update_mem db hmem.2 hmem.1⟩

/-- **An update that leaves the node as it is changes nothing** in what a handler has made of it. -/
theorem Call.Of.onOwn_of_still {c : Call} {u : String} (hc : c.Of u) {db : Database} {d : Field → NSMutableDictionary}
    (hcast : CastOf (fun f => db.dict f u) d) (hstill : ∀ f, (db.apply c).dict f u = db.dict f u)
    (hnew : c.NewId db) (f : Field) :
    c.onOwn f (d f) = d f := by
  cases ho : c.own? with
  | none => simp [Call.onOwn, ho]
  | some h =>
    simp only [Call.onOwn, ho]
    split
    swap
    · rfl
    rename_i hf
    subst hf
    obtain ⟨hmem, hstored⟩ := hc.own_stored ho db
    have hentry : (db.dict h.field u).sub [h.name] = entryNode h.value := by
      rw [← hstill h.field, Database.dict, Tree.sub_sub]
      exact hstored
    rcases hcast h.field with heq | ⟨hne, heq⟩
    · rw [heq, store, ← hentry]
      exact Tree.set_sub _ _
    · rw [heq]
      cases hv : h.value with
      | none =>
        rw [store, show entryNode none = Tree.sub (Tree.empty : NSMutableDictionary) [h.name] from rfl]
        exact Tree.set_sub _ _
      | some id =>
        -- only `addPending` stores an id outside the relationships, and it was drawn for it
        have hpending : h.field = .pending := by
          cases c <;> simp only [Call.own?, Option.some.injEq, reduceCtorEq] at ho
          all_goals
            subst ho
            first | rfl | exact absurd rfl hne | cases hv
        refine absurd ?_ (hnew h ho hpending (by rw [hv]; rfl) _ hmem)
        rw [Database.dict, Tree.sub_sub] at hentry
        exact hentry

/-! ## What the counters follow -/

/-- The session is `d` changed by the own updates that wait, and the counters on the screen count `d` changed by
the first few of them. -/
structure Follows (d : Field → NSMutableDictionary) (v : ExploreView) (u : String) (user : User)
    (waiting : List Call) : Prop where
  own : ∀ c ∈ waiting, c.Of u
  session : user.dict = ownEdits waiting d
  counted : v.onScreen = true → ∃ cs cs', waiting = cs ++ cs' ∧ v.counters = .of (ownEdits cs d)

/-- The process watches the node `users/<u>` and has seen its last event. -/
structure Client.UpToDate (k : Client) (u : String) : Prop where
  watches : k.Watches ["users", u]
  seen : ∀ o ∈ k.observers, o.path = ["users", u] → o.events = []

/-- How session and counters relate to the node `users/<u>`. -/
inductive Tracks (db : Database) (k : Client) (v : ExploreView) (u : String) (user : User) : Prop
  /-- Signed up, and the new node is not stored yet. -/
  | fresh (before waiting : List Call) (new : User) :
    k.queue = before ++ .insertUser new :: waiting → (Call.insertUser new).Issued → new.userName = u →
      Follows new.inserted v u user waiting → Tracks db k v u user
  /-- Once the last event is seen, the base is what a handler has made of the node. -/
  | stored :
    HasName db u →
      (k.UpToDate u → ∃ before waiting d, CastOf (fun f => db.dict f u) d ∧ k.queue = before ++ waiting ∧
        Follows d v u user waiting) → Tracks db k v u user

/-- The last event of an observer is the node as it is, and nodes keep their first name. -/
structure Observer.Current (o : Observer) (db : Database) : Prop where
  last : ∀ n ∈ o.events.getLast?, n = db.sub o.path
  named : ∀ u, o.path = ["users", u] → ∀ n ∈ o.events, (object n "first_name").asString?.isSome → HasName db u

/-- The process of the view. -/
structure Client.Tracking (k : Client) (db : Database) (v : ExploreView) : Prop where
  current : ∀ o ∈ k.observers, o.Current db
  sessions : ∀ user ∈ k.store.session, ∃ u, NodeName user.userName u ∧ Tracks db k v u user
  unwatched : ∀ user ∈ k.store.session, ¬ k.Watches user.path → v.onScreen = true → v.counters = .of user.dict

theorem NodeName.path {user : User} {u : String} (h : NodeName user.userName u) : user.path = ["users", u] := by
  rw [User.path, h.1]

section
variable {d : Field → NSMutableDictionary} {v v' : ExploreView} {u : String} {user user' : User} {waiting : List Call}

/-- The counters are refreshed, or nobody sees them. -/
theorem Follows.refresh (h : Follows d v u user waiting) (hv : v'.onScreen = true → v'.counters = .of user.dict) :
    Follows d v' u user waiting :=
  ⟨h.own, h.session, fun hon => ⟨waiting, [], by simp, by rw [hv hon, h.session]⟩⟩

theorem Follows.extend (h : Follows d v u user waiting) {own : List Call} (hown : ∀ c ∈ own, c.Of u)
    (hdict : user'.dict = ownEdits own user.dict) : Follows d v u user' (waiting ++ own) := by
  refine ⟨fun c hc => ?_, ?_, fun hon => ?_⟩
  · rcases List.mem_append.1 hc with hc | hc
    · exact h.own c hc
    · exact hown c hc
  · rw [hdict, h.session, ownEdits_append]
  · obtain ⟨cs, cs', rfl, hcounters⟩ := h.counted hon
    exact ⟨cs, cs' ++ own, by simp, hcounters⟩

/-- The oldest update is applied, and has changed nothing. -/
theorem Follows.tail {c : Call} (h : Follows d v u user (c :: waiting)) (hsame : ∀ f, c.onOwn f (d f) = d f) :
    Follows d v u user waiting := by
  have hedits : ∀ cs, ownEdits (c :: cs) d = ownEdits cs d := by
    intro cs
    funext f
    simp only [ownEdits, List.foldl_cons, hsame]
  refine ⟨fun x hx => h.own x (List.mem_cons_of_mem _ hx), by rw [h.session, hedits], fun hon => ?_⟩
  obtain ⟨cs, cs', hsplit, hcounters⟩ := h.counted hon
  cases cs with
  | nil => exact ⟨[], waiting, rfl, hcounters⟩
  | cons x cs =>
    obtain ⟨rfl, hrest⟩ := List.cons.inj hsplit
    exact ⟨cs, cs', hrest, by rw [hcounters, hedits]⟩

end

section
variable {db : Database} {k k' : Client} {v v' : ExploreView} {u : String} {user user' : User}

theorem Tracks.refresh (h : Tracks db k v u user) (hv : v'.onScreen = true → v'.counters = .of user.dict) :
    Tracks db k v' u user := by
  cases h with
  | fresh before waiting new hq hi hnew hf => exact .fresh before waiting new hq hi hnew (hf.refresh hv)
  | stored hname hs =>
    refine .stored hname fun hup => ?_
    obtain ⟨before, waiting, d, hcast, hq, hf⟩ := hs hup
    exact ⟨before, waiting, d, hcast, hq, hf.refresh hv⟩

/-- New own updates, with their effect. -/
theorem Tracks.extend (h : Tracks db k v u user) (own : List Call) (hq : k'.queue = k.queue ++ own)
    (hobs : k'.observers = k.observers) (hown : ∀ c ∈ own, c.Of u) (hdict : user'.dict = ownEdits own user.dict) :
    Tracks db k' v u user' := by
  cases h with
  | fresh before waiting new hqueue hi hnew hf =>
    refine .fresh before (waiting ++ own) new ?_ hi hnew (hf.extend hown hdict)
    rw [hq, hqueue, List.append_assoc, List.cons_append]
  | stored hname hs =>
    refine .stored hname fun hup => ?_
    obtain ⟨hwatches, hseen⟩ := hup
    rw [Client.Watches, hobs] at hwatches
    rw [hobs] at hseen
    obtain ⟨before, waiting, d, hcast, hqueue, hf⟩ := hs ⟨hwatches, hseen⟩
    exact ⟨before, waiting ++ own, d, hcast, by rw [hq, hqueue, List.append_assoc], hf.extend hown hdict⟩

/-- A write reaches the server: of somebody else, or the oldest update of this process. -/
theorem Tracks.commit (h : Tracks db k v u user) {ws : CompoundWrite} (hws : ∀ w ∈ ws, Stores w)
    (hq : k'.queue = k.queue ∨ ∃ c, k.queue = c :: k'.queue ∧ ws = c.write.getD [] ∧ c.NewId db)
    (hobs : k'.observers = k.observers.map fun o => o.notify db (db.update ws)) :
    Tracks (db.update ws) k' v u user := by
  cases h with
  | fresh before waiting new hqueue hi hnew hf =>
    rcases hq with hq | ⟨c, hq, rfl, -⟩
    · exact .fresh before waiting new (hq.trans hqueue) hi hnew hf
    rw [hqueue] at hq
    cases before with
    | cons b before => exact .fresh before waiting new (List.cons.inj hq).2.symm hi hnew hf
    | nil =>
      -- the new node is stored now
      obtain ⟨rfl, hrest⟩ := List.cons.inj hq
      subst hnew
      refine .stored (hasName_insertUser hi db) fun _ => ⟨[], waiting, new.inserted, fun f => Or.inl ?_, hrest.symm, hf⟩
      exact ((Database.dict_insertUser hi db f new.userName).trans (if_pos rfl)).symm
  | stored hname hs =>
    refine .stored (hname.update hws) fun hup => ?_
    -- no event is on its way, so the node did not change
    have hsame : ∀ o ∈ k.observers, o.path = ["users", u] →
        o.events = [] ∧ Tree.sub (db.update ws) ["users", u] = db.sub ["users", u] := by
      intro o ho hou
      have hev := hup.seen (o.notify db (db.update ws)) (by rw [hobs]; exact List.mem_map_of_mem ho) ((o.notify_path _ _).trans hou)
      rw [Observer.notify_events, hou] at hev
      split at hev
      · exact ⟨hev, by assumption⟩
      · simp at hev
    obtain ⟨o', ho', hou'⟩ := hup.watches
    rw [hobs] at ho'
    obtain ⟨o, ho, rfl⟩ := List.mem_map.1 ho'
    have hou : o.path = ["users", u] := (o.notify_path _ _).symm.trans hou'
    have hstill : ∀ f, Database.dict (db.update ws) f u = db.dict f u := fun f => by
      have hdict := congrArg (fun n => Tree.sub n [f.key]) (hsame o ho hou).2
      rwa [Tree.sub_sub, Tree.sub_sub] at hdict
    obtain ⟨before, waiting, d, hcast, hqueue, hf⟩ := hs ⟨⟨o, ho, hou⟩, fun o ho hou => (hsame o ho hou).1⟩
    have hcast' : CastOf (fun f => Database.dict (db.update ws) f u) d := by
      simpa only [hstill] using hcast
    rcases hq with hq | ⟨c, hq, rfl, hnew⟩
    · exact ⟨before, waiting, d, hcast', hq.trans hqueue, hf⟩
    rw [hqueue] at hq
    cases before with
    | cons b before => exact ⟨before, waiting, d, hcast', (List.cons.inj hq).2.symm, hf⟩
    | nil =>
      cases waiting with
      | nil => simp at hq
      | cons x waiting =>
        obtain ⟨rfl, hrest⟩ := List.cons.inj hq
        exact ⟨[], waiting, d, hcast', hrest.symm,
          hf.tail ((hf.own x List.mem_cons_self).onOwn_of_still hcast hstill hnew)⟩

/-- Only the events of the watched node matter. -/
theorem Tracks.observers (h : Tracks db k v u user) (hq : k'.queue = k.queue)
    (hup : HasName db u → k'.UpToDate u → k.UpToDate u) : Tracks db k' v u user := by
  cases h with
  | fresh before waiting new hqueue hi hnew hf => exact .fresh before waiting new (hq.trans hqueue) hi hnew hf
  | stored hname hs =>
    refine .stored hname fun hup' => ?_
    obtain ⟨before, waiting, d, hcast, hqueue, hf⟩ := hs (hup hname hup')
    exact ⟨before, waiting, d, hcast, hq.trans hqueue, hf⟩

theorem Observer.Current.notify {o : Observer} (h : o.Current db) {ws : CompoundWrite} (hws : ∀ w ∈ ws, Stores w) :
    (o.notify db (db.update ws)).Current (db.update ws) := by
  refine ⟨Observer.notify_last h.last _, fun u hu n hn hfirst => ?_⟩
  rw [Observer.notify_path] at hu
  rw [Observer.notify_events] at hn
  split at hn
  · exact (h.named u hu n hn hfirst).update hws
  · rcases List.mem_append.1 hn with hn | hn
    · exact (h.named u hu n hn hfirst).update hws
    · rw [List.mem_singleton] at hn
      subst hn
      rw [hu, object, Tree.sub_sub] at hfirst
      exact hfirst

theorem Observer.Current.handled {o : Observer} (h : o.Current db) {snapshot : Node} {events : List Node}
    (he : o.events = snapshot :: events) : (o.handled events).Current db := by
  refine ⟨Observer.handled_last h.last he, fun u hu n hn => h.named u hu n ?_⟩
  rw [he]
  exact List.mem_cons_of_mem _ hn

end

namespace Client.Tracking

variable {db : Database} {k k' : Client} {v v' : ExploreView}

theorem of_idle (hobs : k.observers = []) (hs : k.store.session = none) : k.Tracking db v :=
  ⟨by simp [hobs], by simp [hs], by simp [hs]⟩

theorem crash : k.crash.Tracking db v := of_idle rfl rfl

/-- Without a session the view does not matter. -/
theorem congr_view (h : k.Tracking db v) (hv : ∀ user ∈ k.store.session, v' = v) : k.Tracking db v' := by
  refine ⟨h.current, fun user hu => ?_, fun user hu => ?_⟩
  · rw [hv user hu]
    exact h.sessions user hu
  · rw [hv user hu]
    exact h.unwatched user hu

/-- The counters are refreshed, or nobody sees them. -/
theorem refresh (h : k.Tracking db v)
    (hv : v'.onScreen = true → ∀ user ∈ k.store.session, v'.counters = .of user.dict) : k.Tracking db v' := by
  refine ⟨h.current, fun user hu => ?_, fun user hu _ hon => hv hon user hu⟩
  obtain ⟨u, hnode, ht⟩ := h.sessions user hu
  exact ⟨u, hnode, ht.refresh fun hon => hv hon user hu⟩

/-- Neither the observers nor the session change. -/
theorem extend (h : k.Tracking db v) (hobs : k'.observers = k.observers) (hs : k'.store.session = k.store.session)
    (own : List Call) (hq : k'.queue = k.queue ++ own) (hown : ∀ u, ∀ c ∈ own, c.Of u)
    (hedit : ∀ d, ownEdits own d = d) : k'.Tracking db v := by
  refine ⟨hobs ▸ h.current, fun user hu => ?_, fun user hu => ?_⟩
  · obtain ⟨u, hnode, ht⟩ := h.sessions user (hs ▸ hu)
    exact ⟨u, hnode, ht.extend own hq hobs (hown u) (hedit _).symm⟩
  · rw [Client.Watches, hobs]
    exact h.unwatched user (hs ▸ hu)

theorem finish_pure (h : k.Tracking db v) {e : Effect Request SessionStore} (he : e = pure k.store) :
    (k.finish e).Tracking db v := by
  subst he
  exact h.extend (by simp [finish_observers]) (by simp) [] (by simp) (by simp) fun _ => rfl

theorem observe (h : k.Tracking db v) (entrance : Entrance) (auth : AuthUser) (userName : String) :
    (k.observe db entrance auth userName).Tracking db v := by
  rcases k.observe_cases db entrance auth userName with ⟨path, hp, hk⟩ | hk
  swap
  · rw [hk]
    exact crash
  rw [hk]
  obtain ⟨-, rfl⟩ : isValidPathString userName ∧ "users" :: pathComponents userName = path := by
    simpa [child] using hp
  refine ⟨fun o ho => ?_, fun user hu => ?_, fun user hu hno => ?_⟩
  · rcases List.mem_append.1 ho with ho | ho
    · exact h.current o ho
    · obtain rfl := List.mem_singleton.1 ho
      refine ⟨fun n hn => ?_, fun u hpath n hn hfirst => ?_⟩
      · cases hn
        rfl
      · obtain rfl := List.mem_singleton.1 hn
        have hpath : "users" :: pathComponents userName = ["users", u] := hpath
        rw [hpath, object, Tree.sub_sub] at hfirst
        exact hfirst
  · obtain ⟨u, hnode, ht⟩ := h.sessions user hu
    refine ⟨u, hnode, ht.observers rfl fun _ hup => ⟨?_, fun o ho => hup.seen o (List.mem_append_left _ ho)⟩⟩
    obtain ⟨o, ho, hpath⟩ := hup.watches
    rcases List.mem_append.1 ho with hmem | hmem
    · exact ⟨o, hmem, hpath⟩
    · -- the new observer still has an event
      have hev := hup.seen o ho hpath
      obtain rfl := List.mem_singleton.1 hmem
      cases hev
  · refine h.unwatched user hu ?_
    rintro ⟨o, ho, hpath⟩
    exact hno ⟨o, List.mem_append_left _ ho, hpath⟩

/-- `signUp` sets the session, and the view is told. -/
theorem signUp {auth : AuthUser} {userName firstName lastName newUUID : String} (h : k.Tracking db v)
    (hid : isValidKey newUUID)
    (hv : ∀ user ∈ (k.store.signUp (some auth) userName firstName lastName newUUID).value.bind SessionStore.session,
      v'.onScreen = true → v'.counters = .of user.dict) :
    (k.finish (k.store.signUp (some auth) userName firstName lastName newUUID)).Tracking db v' := by
  unfold SessionStore.signUp at *
  dsimp only at *
  split at hv
  swap
  · rename_i hw
    rw [if_neg hw]
    exact crash
  rename_i hw
  rw [if_pos hw]
  have hname : isValidKey userName :=
    (Registration.insertUser_isSome_iff (g := ⟨auth, userName, firstName, lastName, newUUID, none⟩) hid).1 hw
  have hcounters := hv _ rfl
  refine ⟨by rw [finish_observers]; exact h.current, ?_, ?_⟩
  · rw [finish_store]
    rintro user ⟨rfl⟩
    refine ⟨userName, hname.nodeName, .fresh k.queue [] (SessionStore.newUser auth userName firstName lastName newUUID)
      ?_ ⟨hname.isComponent, hw⟩ rfl ⟨by simp, ?_, fun hon => ?_⟩⟩
    · simp [Request.call?]
    · funext f
      cases f <;> rfl
    · refine ⟨[], [], rfl, (hcounters hon).trans (congrArg Counters.of ?_)⟩
      funext f
      cases f <;> rfl
  · rw [finish_store]
    rintro user ⟨rfl⟩ - hon
    exact hcounters hon

theorem tap (h : k.Tracking db v) {op : LinkOp} (hn : isValidKey op.name)
    (hok : v.onScreen = true → ∀ user ∈ k.store.session, k.Watches user.path ∨ op.KeepsSizes k.store user) :
    (k.finish (Effect.mapIssued .call (op.run k.store))).Tracking db v := by
  cases hs : k.store.session with
  | none => exact h.finish_pure (by rw [op.run_none hs]; rfl)
  | some user =>
    cases hval : (op.run k.store).value with
    | none => exact of_idle (by simp [finish_observers, hval]) (by simp [hval, SessionStore.initial])
    | some store =>
      obtain ⟨hwrite, -, hspec⟩ := op.run_spec hs
      obtain ⟨hcast, hissued, rfl⟩ := hspec store hval
      have hobs : (k.finish (Effect.mapIssued .call (op.run k.store))).observers = k.observers := by
        simp [finish_observers, hval]
      have hpath : (op.localEffect user).path = user.path := by
        rw [User.path, User.path, op.localEffect_userName]
      refine ⟨hobs ▸ h.current, ?_, ?_⟩ <;> rw [finish_store, Effect.mapIssued_value, hval]
      · rintro user' ⟨rfl⟩
        obtain ⟨u, hnode, ht⟩ := h.sessions user hs
        refine ⟨u, by rwa [op.localEffect_userName], ht.extend (op.calls user) ?_ hobs (fun c hc => ?_) ?_⟩
        · rw [finish_queue, Effect.mapIssued_issued, List.filterMap_map,
            show Request.call? ∘ Request.call = some from rfl, List.filterMap_some, hissued]
        · refine ⟨hwrite c (hissued ▸ hc), fun half ho => ?_⟩
          obtain ⟨half', ho', hown, hname⟩ := LinkOp.calls_own hc
          cases ho.symm.trans ho'
          exact ⟨hown ▸ hnode, hname ▸ hn⟩
        · funext f
          exact op.dict_localEffect user hcast f
      · rintro user' ⟨rfl⟩ hno hon
        rw [hpath, Client.Watches, hobs] at hno
        have hkeeps := (hok hon user hs).resolve_left hno _ hval _ rfl
        rw [hkeeps]
        exact h.unwatched user hs hno hon

/-- A write reaches the server. -/
theorem commit (h : k.Tracking db v) {ws : CompoundWrite} (hws : ∀ w ∈ ws, Stores w)
    (hq : k'.queue = k.queue ∨ ∃ c, k.queue = c :: k'.queue ∧ ws = c.write.getD [] ∧ c.NewId db)
    (hs : k'.store = k.store) (hobs : k'.observers = k.observers.map fun o => o.notify db (db.update ws)) :
    k'.Tracking (db.update ws) v := by
  refine ⟨?_, fun user hu => ?_, fun user hu hno => ?_⟩
  · rw [hobs]
    intro o ho
    obtain ⟨o, hmem, rfl⟩ := List.mem_map.1 ho
    exact (h.current o hmem).notify hws
  · obtain ⟨u, hnode, ht⟩ := h.sessions user (hs ▸ hu)
    exact ⟨u, hnode, ht.commit hws hq hobs⟩
  · refine h.unwatched user (hs ▸ hu) ?_
    rintro ⟨o, ho, hpath⟩
    refine hno ⟨o.notify db (db.update ws), ?_, ?_⟩
    · rw [hobs]
      exact List.mem_map_of_mem ho
    · rw [Observer.notify_path]
      exact hpath

/-- An event reaches its handler; a session that is set is told to the view. -/
theorem deliver (h : k.Tracking db v) (hk : k.InShape) {i : Nat} {o : Observer} {snapshot : Node} {events : List Node}
    (ho : k.observers[i]? = some o) (he : o.events = snapshot :: events)
    (hset : ∀ user ∈ o.decoded snapshot, v'.onScreen = true → v'.counters = .of user.dict)
    (hkeep : o.decoded snapshot = none → v' = v) :
    ((k.receive i (o.handled events)).finish (o.completion k.store snapshot)).Tracking db v' := by
  have hmem : o ∈ k.observers := List.mem_of_getElem? ho
  have hcurrent := h.current o hmem
  have hin : o.handled events ∈ (k.receive i (o.handled events)).observers :=
    List.mem_set (List.getElem?_eq_some_iff.1 ho).1 _
  have hother : ∀ o' ∈ k.observers, o' = o ∨ o' ∈ (k.receive i (o.handled events)).observers :=
    fun o' => Lists.eq_or_mem_set ho _
  -- the last event shows the node as it is
  have hlast : events = [] → snapshot = db.sub o.path := by
    rintro rfl
    exact hcurrent.last snapshot (by rw [he]; rfl)
  have hall : ∀ o' ∈ (k.receive i (o.handled events)).observers, o'.Current db := by
    intro o' ho'
    rcases List.mem_or_eq_of_mem_set ho' with ho' | rfl
    · exact h.current o' ho'
    · exact hcurrent.handled he
  rcases o.completion_cases k.store snapshot with ⟨user, tokens, hd, -, -, hc⟩ | ⟨-, hc⟩ | ⟨hd, hnone, hc⟩
  · obtain ⟨-, hname, hdict, hfirst, -⟩ := o.decoded_spec hd
    obtain ⟨u, hnode⟩ := o.decoded_path (hk.observers o hmem snapshot (by rw [he]; exact List.mem_cons_self)) hd
    have hpath : o.path = ["users", u] := by rw [Observer.path, hnode.1]
    refine ⟨by rw [finish_observers, hc]; exact hall, ?_, ?_⟩ <;> rw [finish_store, hc]
    · rintro user' ⟨rfl⟩
      have hstored := hcurrent.named u hpath snapshot (by rw [he]; exact List.mem_cons_self) hfirst
      refine ⟨u, hname ▸ hnode, .stored hstored fun hup => ?_⟩
      refine ⟨k.queue, [], user.dict, fun f => ?_, ?_, ⟨by simp, rfl, fun hon => ⟨[], [], rfl, hset user hd hon⟩⟩⟩
      · have hrest := hup.seen (o.handled events) (by rw [finish_observers]; exact hin) hpath
        have hcast := SessionStore.exported_castOf f (object snapshot f.key)
        rw [← hdict f, hlast hrest, hpath, object, Tree.sub_sub] at hcast
        exact hcast
      · rw [finish_queue, ← hc, o.completion_calls]
        rfl
    · rintro user' ⟨rfl⟩ - hon
      exact hset user hd hon
  · rw [hc]
    exact crash
  · rw [hkeep hd]
    refine finish_pure (k := k.receive i (o.handled events)) ?_ hc
    refine ⟨hall, fun user hu => ?_, fun user hu hno => h.unwatched user hu ?_⟩
    · obtain ⟨u, hnode, ht⟩ := h.sessions user hu
      refine ⟨u, hnode, ht.observers rfl fun hstored hup => ⟨?_, fun o' ho' hpath => ?_⟩⟩
      · obtain ⟨o', ho', hpath⟩ := hup.watches
        rcases List.mem_or_eq_of_mem_set ho' with ho' | rfl
        · exact ⟨o', ho', hpath⟩
        · exact ⟨o, hmem, hpath⟩
      · rcases hother o' ho' with rfl | ho'
        · -- a missing node would have a first name
          have hrest := hup.seen _ hin hpath
          rw [hlast hrest, hpath] at hnone
          exact absurd hnone hstored.asDictionary?
        · exact hup.seen o' ho' hpath
    · rintro ⟨o', ho', hpath⟩
      rcases hother o' ho' with rfl | ho'
      · exact hno ⟨_, hin, hpath⟩
      · exact hno ⟨o', ho', hpath⟩

end Client.Tracking

/-! ## Every run -/

theorem Client.Tracking.step {s s' : State ι} {c : ι} {v v' : ExploreView} {a : Action ι}
    (h : (s.clients c).Tracking s.db v) (hshape : s.InShape) (ha : a.FromApp) (hok : Announced s c v a)
    (hs : s.step a = some s')
    (hv : ∀ user ∈ s'.session c, v' = if s.Notifies c a then v.receive (some user) else v) :
    (s'.clients c).Tracking s'.db v' := by
  have hreceive : ∀ {user : User}, v' = v.receive (some user) → v'.onScreen = true → v'.counters = .of user.dict := by
    rintro user rfl
    unfold ExploreView.receive
    split
    · exact fun _ => rfl
    · exact fun hon => absurd hon ‹_›
  have hsilent : ¬ s.Notifies c a → ∀ user ∈ s'.session c, v' = v := fun hno user hu => (hv user hu).trans (if_neg hno)
  -- nothing happens to the process, and nothing is told to the view
  have hother : ∀ {c' : ι} {k : Client}, s' = s.setClient c' k → ¬ c' = c → ¬ s.Notifies c a →
      (s'.clients c).Tracking s'.db v' := by
    rintro c' k rfl hc hno
    have hsame : (s.setClient c' k).clients c = s.clients c := by rw [State.setClient_clients, if_neg (Ne.symm hc)]
    rw [hsame]
    exact h.congr_view fun user hu => hsilent hno user (by rw [State.session, hsame]; exact hu)
  have hself : ∀ {k : Client}, s' = s.setClient c k → k.Tracking s.db v' → (s'.clients c).Tracking s'.db v' := by
    rintro k rfl hk
    rwa [State.setClient_clients, if_pos rfl]
  have hquiet : ∀ {k : Client}, s' = s.setClient c k → ¬ s.Notifies c a → k.Tracking s.db v →
      (s'.clients c).Tracking s'.db v' := by
    rintro k rfl hno hk
    refine hself rfl (hk.congr_view fun user hu => hsilent hno user ?_)
    rwa [State.session, State.setClient_clients, if_pos rfl]
  cases a with
  | signUp c' authResult userName firstName lastName newUUID =>
    have heq := (Option.some.inj hs).symm
    by_cases hc : c' = c
    swap
    · exact hother heq hc fun hno => hc hno.1
    subst hc
    cases authResult with
    | none => exact hquiet heq (fun hno => by cases hno.2) (h.finish_pure rfl)
    | some auth =>
      refine hself heq (h.signUp ha fun user hu => hreceive ?_)
      rw [hv user ?_, if_pos ⟨rfl, rfl⟩]
      rw [heq, State.session, State.setClient_clients, if_pos rfl, Client.finish_store]
      obtain ⟨store, hstore, hsession⟩ := Option.bind_eq_some_iff.1 hu
      rw [hstore]
      exact hsession
  | signIn c' authResult userName =>
    cases authResult with
    | none =>
      cases hs
      exact h.congr_view (hsilent fun hno => hno)
    | some auth =>
      have heq := (Option.some.inj hs).symm
      by_cases hc : c' = c
      · subst hc
        exact hquiet heq (fun hno => hno) (h.observe _ _ _)
      · exact hother heq hc fun hno => hno
  | setupUser c' auth userName =>
    have heq := (Option.some.inj hs).symm
    by_cases hc : c' = c
    · subst hc
      exact hquiet heq (fun hno => hno) (h.observe _ _ _)
    · exact hother heq hc fun hno => hno
  | signOut c' signedOut =>
    have heq := (Option.some.inj hs).symm
    by_cases hc : c' = c
    swap
    · exact hother heq hc fun hno => hc hno.1
    subst hc
    cases signedOut with
    | false => exact hquiet heq (fun hno => by cases hno.2) h
    | true =>
      refine hself heq ⟨h.current, fun user hu => ?_, fun user hu => ?_⟩
      · cases hu
      · cases hu
  | tap c' op =>
    have heq := (Option.some.inj hs).symm
    by_cases hc : c' = c
    · subst hc
      exact hquiet heq (fun hno => hno) (h.tap ha.1 (hok rfl))
    · exact hother heq hc fun hno => hno
  | token c' i token =>
    obtain ⟨userName, -, heq⟩ := State.step_token.1 hs
    have hk : Client.Tracking { s.clients c with tokens := (s.clients c).tokens.eraseIdx i } s.db v :=
      h.extend rfl rfl [] (by simp) (by simp) fun _ => rfl
    cases token with
    | none =>
      by_cases hc : c' = c
      · subst hc
        exact hquiet heq (fun hno => hno) hk
      · exact hother heq hc fun hno => hno
    | some token =>
      by_cases hc : c' = c
      swap
      · exact hother heq hc fun hno => hno
      subst hc
      refine hquiet heq (fun hno => hno) ?_
      rw [Call.send_bind]
      split
      swap
      · exact Client.Tracking.crash
      rename_i hw
      refine hk.extend (by simp [Client.finish_observers]) (by simp) [.uploadDeviceToken userName token] ?_
        (fun u x hx => ?_) fun _ => rfl
      · simp [Request.call?]
      · obtain rfl := List.mem_singleton.1 hx
        exact ⟨hw, fun half ho => by cases ho⟩
  | apply c' =>
    obtain ⟨call, rest, hq, rfl⟩ := State.step_apply.1 hs
    refine Client.Tracking.congr_view (h.commit ((hshape.clients c').queue call (hq ▸ List.mem_cons_self)) ?_ ?_ ?_)
      (hsilent fun hno => hno)
    · simp only [State.commit, Client.notify, State.setClient_clients]
      by_cases hc : c = c'
      · subst hc
        rw [if_pos rfl]
        exact Or.inr ⟨call, hq, rfl, hok call (by rw [State.queue, hq]; rfl)⟩
      · rw [if_neg hc]
        exact Or.inl rfl
    · simp only [State.commit, Client.notify, State.setClient_clients]
      by_cases hc : c = c' <;> simp [hc]
    · simp only [State.commit, Client.notify, State.setClient_clients]
      by_cases hc : c = c' <;> simp [hc]
  | deliver c' i =>
    obtain ⟨o, snapshot, events, ho, he, heq⟩ := State.step_deliver.1 hs
    by_cases hc : c' = c
    swap
    · exact hother heq hc fun hno => hc hno.1
    subst hc
    have hnotifies : s.Notifies c' (.deliver c' i) ↔ (o.decoded snapshot).isSome := by
      simp [State.Notifies, ho, he]
    by_cases hd : (o.decoded snapshot).isSome
    · obtain ⟨user, hd⟩ := Option.isSome_iff_exists.1 hd
      refine hself heq (h.deliver (hshape.clients c') ho he (fun user' hu' => hreceive ?_) fun hnone => ?_)
      · cases hd.symm.trans hu'
        rw [hv user ?_, if_pos (hnotifies.2 (by rw [hd]; rfl))]
        rw [heq, State.session, State.handle, State.setClient_clients, if_pos rfl, Client.finish_store,
          Observer.completion_some hd]
        rfl
      · rw [hnone] at hd
        cases hd
    · have hnone : o.decoded snapshot = none := by simpa using hd
      refine hquiet heq (fun hno => hd (hnotifies.1 hno)) (h.deliver (hshape.clients c') ho he ?_ fun _ => rfl)
      intro user hu
      rw [hnone] at hu
      cases hu
  | kill c' sent =>
    have heq := (Option.some.inj hs).symm
    by_cases hc : c' = c
    · subst hc
      exact hself heq (Client.Tracking.of_idle rfl rfl)
    · exact hother heq hc fun hno => hno
  | reload c' o snapshot => exact absurd ha id
  | remote w =>
    cases hs
    have hws : ∀ x ∈ w, Stores x := by
      rintro ⟨p, n⟩ hx
      obtain ⟨p, rfl⟩ := List.head?_eq_some_iff.1 (ha _ hx)
      exact .elsewhere p n (by decide)
    exact Client.Tracking.congr_view (h.commit hws (Or.inl rfl) rfl rfl) (hsilent fun hno => hno)

/-- The invariant of a run with the view of device `c`. -/
structure Counting (c : ι) (x : ExploreScreen ι) : Prop where
  shape : x.net.InShape
  tracking : (x.net.clients c).Tracking x.net.db x.view

theorem Counting.step {c : ι} {x x' : ExploreScreen ι} {a : ExploreAction ι} (h : Counting c x) (ha : x.Attentive c a)
    (hs : x.step c a = some x') : Counting c x' := by
  have hreceive : ∀ {v : ExploreView} {session : Option User}, v.onScreen = true → ∀ user ∈ session,
      (v.refresh session).counters = .of user.dict := by
    rintro v session - user ⟨⟩
    rfl
  cases a with
  | net a =>
    obtain ⟨s', hstep, rfl⟩ := Option.map_eq_some_iff.1 hs
    refine ⟨h.shape.step ha.1 hstep, h.tracking.step h.shape ha.1 ha.2 hstep fun user hu => ?_⟩
    rw [ExploreScreen.viewAfter, if_neg (State.not_ends hstep hu), Option.mem_def.1 hu]
  | appear =>
    cases hs
    refine ⟨h.shape, h.tracking.refresh fun hon user hu => ?_⟩
    exact hreceive (v := { x.view with onScreen := true }) rfl user hu
  | disappear =>
    cases hs
    exact ⟨h.shape, h.tracking.refresh fun hon => by cases hon⟩
  | addBlock =>
    cases hs
    by_cases hon : x.view.onScreen = true
    · refine ⟨h.shape, h.tracking.refresh fun _ user hu => ?_⟩
      rw [ExploreView.receive, if_pos hon]
      exact hreceive hon user hu
    · refine ⟨h.shape, h.tracking.refresh fun hon' => ?_⟩
      rw [ExploreView.receive, if_neg hon] at hon'
      exact absurd hon' hon

omit [DecidableEq ι] in
/-- Nothing is under way: an own update that changed the node has come back, and one that did not changed nothing. -/
theorem Counting.counts {c : ι} {x : ExploreScreen ι} (h : Counting c x) (hq : (x.net.clients c).Settled) :
    x.Counts c := by
  intro hon user hu
  by_cases hwatches : (x.net.clients c).Watches user.path
  swap
  · exact h.tracking.unwatched user hu hwatches hon
  obtain ⟨hqueue, hevents⟩ := hq
  obtain ⟨u, hnode, ht⟩ := h.tracking.sessions user hu
  cases ht with
  | fresh before waiting new hnew =>
    rw [hqueue] at hnew
    simp at hnew
  | stored _ hstored =>
    obtain ⟨before, waiting, d, -, hwaiting, hf⟩ := hstored ⟨hnode.path ▸ hwatches, fun o ho _ => hevents o ho⟩
    obtain ⟨-, rfl⟩ := List.append_eq_nil_iff.1 (hwaiting.symm.trans hqueue)
    obtain ⟨cs, cs', hsplit, hcounters⟩ := hf.counted hon
    obtain ⟨rfl, -⟩ := List.append_eq_nil_iff.1 hsplit.symm
    rw [hcounters, hf.session]

/-- **The counters follow the data** in every run in which sizes are changed, while the view is on the screen, only
by processes that watch the node of their session: whenever nothing of the process is under way, they are the sizes
of the session's dictionaries, however the session came about. -/
theorem counters_follow {c : ι} {hist : History (ExploreScreen ι) (ExploreAction ι)} {x : ExploreScreen ι}
    (hr : Reach (ExploreScreen.step c) (fun _ x a => x.Attentive c a) ExploreScreen.start hist x)
    (hq : (x.net.clients c).Settled) : x.Counts c := by
  have h : Counting c x := by
    refine hr.inv (I := fun _ x => Counting c x) ⟨State.inShape_start, Client.Tracking.of_idle rfl rfl⟩ ?_
    exact fun _ _ _ _ _ hi ha hs => hi.step ha hs
  exact h.counts hq

/-- Alice and Bob sign up; Alice starts the app again, which opens her node, and looks at her profile. -/
def aliceRelaunches (c d : ι) : List (ExploreAction ι) :=
  [Action.signUp c (some alice.auth) "alice" "Alice" "Liddell" "A0", .apply c,
    .signUp d (some bob.auth) "bob" "Bob" "Moran" "B0", .apply d,
    .kill c 0, .setupUser c alice.auth "alice", .deliver c 0].map .net ++ [.appear]

/-- She asks Bob: the event of her own update brings the counters up to date. -/
theorem counters_follow_alice :
    ∃ hist x, Reach (ExploreScreen.step (0 : Fin 2)) (fun _ x a => x.Attentive 0 a) ExploreScreen.start hist x ∧
      x.view = ⟨true, ⟨1, 1, 0⟩⟩ ∧ (x.net.session 0).isSome ∧ x.Counts 0 := by
  have hplay : (exec (ExploreScreen.step (0 : Fin 2)) (fun _ x a => x.Attentive 0 a) [] ExploreScreen.start
      (aliceRelaunches 0 1 ++ [.net (.tap 0 (.addPending "bob" "R1")), .net (.apply 0), .net (.deliver 0 0)])).any
      (fun r => decide (r.2.view = ⟨true, ⟨1, 1, 0⟩⟩ ∧ (r.2.net.session 0).isSome ∧ (r.2.net.clients 0).Settled)) = true := by
    decide +kernel
  obtain ⟨hist, x, hr, hview, hs, hq⟩ := exists_reach_of_exec
    (P := fun _ (x : ExploreScreen (Fin 2)) => x.view = ⟨true, ⟨1, 1, 0⟩⟩ ∧ (x.net.session 0).isSome ∧
      (x.net.clients 0).Settled) hplay
  exact ⟨hist, x, hr, hview, hs, counters_follow hr hq⟩

/-- Alice has just signed up and asks Bob: nothing is under way any more, and she counts no request. -/
theorem signUp_counts_nothing :
    ∃ hist x, Reach (ExploreScreen.step (0 : Fin 2)) (fun _ _ a => a.FromApp) ExploreScreen.start hist x ∧
      x.net.Quiescent ∧ ¬ x.Counts 0 := by
  have hplay : (exec (ExploreScreen.step (0 : Fin 2)) (fun _ _ a => a.FromApp) [] ExploreScreen.start
      ([Action.signUp 1 (some bob.auth) "bob" "Bob" "Moran" "B0", .apply 1,
        .signUp 0 (some alice.auth) "alice" "Alice" "Liddell" "A0", .apply 0].map .net ++
        [.appear, .net (.tap 0 (.addPending "bob" "R1")), .net (.apply 0)])).any
      (fun r => decide (r.2.net.Quiescent ∧ ¬ r.2.Counts 0)) = true := by
    decide +kernel
  exact exists_reach_of_exec (P := fun _ (x : ExploreScreen (Fin 2)) => x.net.Quiescent ∧ ¬ x.Counts 0) hplay

end Anissagram
