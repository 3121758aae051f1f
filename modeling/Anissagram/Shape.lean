import Anissagram.Everywhere
import Anissagram.SignUp
/-
# What the app stores where

Everything below `users` is a name, a device token or an entry (`Placed`). Every update the app hands over
keeps it so, and a session that was decoded from a node has nothing but entries in its dictionaries
(`inShape_run`). User names are not restricted: a name is typed at the login, and what it stands for is the
node its path leads to (`NodeName`). Whoever types `alice/` gets the node of `alice`.
-/

namespace Anissagram

open PathTree NSMutableDictionary Runs

/-- The user name `a` stands for the node `users/<u>`. -/
def NodeName (a u : String) : Prop := pathComponents a = [u] ∧ isValidKey u

theorem isValidKey.nodeName {u : String} (h : isValidKey u) : NodeName u u := ⟨h.pathComponents, h⟩

/-- What may stand where. -/
inductive Placed : List String → Scalar → Prop where
  | name {u k : String} (s : String) : isValidKey u → k = "first_name" ∨ k = "last_name" ∨ k = "deviceID" →
      Placed ["users", u, k] (.string s)
  | entry {u n id : String} (f : Field) : isValidKey u → isValidKey n → isValidKey id →
      Placed ["users", u, f.key, n] (.string id)
  | elsewhere {k : String} (p : List String) (v : Scalar) : k ≠ "users" → Placed (k :: p) v

/-- What the app writes: a new user, an entry, a device token, and anything outside `users`. -/
inductive Stores : List String × Node → Prop where
  | user (g : Registration) : g.Valid → Stores (["users", g.userName], g.user.body)
  | entry {u n : String} (f : Field) (value : Option String) : isValidKey u → isValidKey n →
      (∀ id ∈ value, isValidKey id) → Stores (["users", u, f.key, n], entryNode value)
  | deviceID {u : String} (token : String) : isValidKey u → Stores (["users", u, "deviceID"], .string token)
  | elsewhere {k : String} (p : List String) (n : Node) : k ≠ "users" → Stores (k :: p, n)

def Database.InShape (db : Database) : Prop := db.Leaves Placed

/-- A dictionary of ids, under names and with ids that are keys. -/
structure Entries (d : NSMutableDictionary) : Prop where
  root : d.leaf [] = none
  entry : ∀ n, ∃ value, object d n = entryNode value ∧ ∀ id ∈ value, isValidKey n ∧ isValidKey id

structure User.InShape (user : User) : Prop where
  node : ∃ u, NodeName user.userName u
  entries : ∀ f, Entries (user.dict f)

/-- A snapshot of the node of `o`. -/
def Observer.Sees (o : Observer) (n : Node) : Prop := n.Leaves fun q v => Placed (o.path ++ q) v

def Call.InShape (c : Call) : Prop := ∀ w ∈ c.write.getD [], Stores w

structure Client.InShape (k : Client) : Prop where
  session : ∀ user ∈ k.store.session, user.InShape
  observers : ∀ o ∈ k.observers, ∀ n ∈ o.events, o.Sees n
  tokens : ∀ a ∈ k.tokens, ∃ u, NodeName a u
  queue : ∀ call ∈ k.queue, call.InShape

structure State.InShape {ι : Type} (s : State ι) : Prop where
  db : s.db.InShape
  clients : ∀ c, (s.clients c).InShape

/-- An action of the app: ids that are drawn and names that a row displays are keys, and only
`sendNotification` writes besides, below `messages`. -/
def Action.FromApp {ι : Type} : Action ι → Prop
  | .signUp _ _ _ _ _ newUUID => isValidKey newUUID
  | .tap _ op => isValidKey op.name ∧ ∀ newUUID ∈ op.uuid?, isValidKey newUUID
  | .remote w => ∀ x ∈ w, x.1.head? = some "messages"
  | .reload _ _ _ => False
  | _ => True

instance {ι : Type} (a : Action ι) : Decidable a.FromApp :=
  match a with
  | .signUp _ _ _ _ _ newUUID => inferInstanceAs (Decidable (isValidKey newUUID))
  | .tap _ op => inferInstanceAs (Decidable (isValidKey op.name ∧ ∀ newUUID ∈ op.uuid?, isValidKey newUUID))
  | .remote w => inferInstanceAs (Decidable (∀ x ∈ w, x.1.head? = some "messages"))
  | .reload _ _ _ => instDecidableFalse
  | .signIn _ _ _ | .setupUser _ _ _ | .signOut _ _ | .token _ _ _ | .apply _ | .deliver _ _
  | .kill _ _ => instDecidableTrue

/-! ## Entries -/

theorem entries_empty : Entries Tree.empty := ⟨rfl, fun n => ⟨none, Tree.sub_empty _, by simp⟩⟩

theorem Entries.store {d : NSMutableDictionary} (hd : Entries d) {name : String} {v : Option String}
    (hname : isValidKey name) (hv : ∀ id ∈ v, isValidKey id) : Entries (store d name v) := by
  refine ⟨by simp [NSMutableDictionary.store, Tree.leaf_set, hd.root], fun n => ?_⟩
  rw [object_store]
  split
  · rename_i hn
    subst hn
    exact ⟨v, rfl, fun id hid => ⟨hname, hv id hid⟩⟩
  · exact hd.entry n

/-- Only the last of several changes of one entry counts. -/
theorem Entries.store_store {d : NSMutableDictionary} (hd : Entries d) (name : String) (v w : Option String) :
    NSMutableDictionary.store (NSMutableDictionary.store d name v) name w = NSMutableDictionary.store d name w := by
  refine Tree.set_set d _ _ fun q hq hne => ?_
  cases q with
  | nil => exact hd.root
  | cons k q =>
    obtain ⟨rfl, hnil⟩ := List.cons_prefix_cons.1 hq
    exact absurd (by rw [List.prefix_nil.1 hnil]) hne

/-- What is stored under a name is found by `as! String`. -/
theorem Entries.idAt_isSome {user : User} {f : Field} (hd : Entries (user.dict f)) {name : String}
    (h : object (user.dict f) name ≠ Tree.empty) : (LinkOp.idAt user f name).isSome := by
  obtain ⟨value, hv, -⟩ := hd.entry name
  cases value with
  | none => exact absurd hv h
  | some id =>
    rw [LinkOp.idAt, hv]
    rfl

theorem Entries.valid {user : User} {f : Field} (hd : Entries (user.dict f)) {name id : String}
    (h : LinkOp.idAt user f name = some id) : isValidKey name ∧ isValidKey id := by
  obtain ⟨value, hv, hvalid⟩ := hd.entry name
  rw [LinkOp.idAt, hv] at h
  cases value with
  | none => cases h
  | some id' =>
    cases h
    exact hvalid id rfl

/-! ## Databases -/

theorem Stores.leaves {w : List String × Node} (h : Stores w) : w.2.Leaves fun q v => Placed (w.1 ++ q) v := by
  cases h with
  | user g hg =>
    have hself : Tree.Leaves (Node.dictionary [(g.userName, .string g.uuid)])
        fun q v => Placed (["users", g.userName, "relationships"] ++ q) v := by
      refine Tree.Leaves.update _ (Tree.leaves_empty _) ?_
      simp only [List.map_cons, List.map_nil, List.mem_singleton, forall_eq]
      exact Tree.leaves_single (.entry .relationships hg.1 hg.1 hg.2)
    refine Tree.Leaves.update _ (Tree.leaves_empty _) ?_
    simp only [List.map_cons, List.map_nil, List.mem_cons, List.not_mem_nil, or_false]
    rintro w (rfl | rfl | rfl)
    · exact Tree.leaves_single (.name _ hg.1 (Or.inl rfl))
    · exact Tree.leaves_single (.name _ hg.1 (Or.inr (Or.inl rfl)))
    · exact hself
  | entry f value hu hn hid =>
    cases value with
    | none => exact Tree.leaves_empty _
    | some id => exact Tree.leaves_single (.entry f hu hn (hid id rfl))
  | deviceID token hu => exact Tree.leaves_single (.name _ hu (Or.inr (Or.inr rfl)))
  | elsewhere p n hk => exact fun q v _ => .elsewhere (p ++ q) v hk

theorem Database.InShape.update {db : Database} (h : db.InShape) {ws : CompoundWrite} (hws : ∀ w ∈ ws, Stores w) :
    Database.InShape (db.update ws) :=
  Tree.Leaves.update _ h fun w hw => (hws w hw).leaves

/-- A dictionary of a node has nothing but entries. -/
theorem entries_of_leaves {u : String} {f : Field} {d : NSMutableDictionary}
    (h : d.Leaves fun q v => Placed (["users", u, f.key] ++ q) v) : Entries d := by
  have hroot : d.leaf [] = none := by
    cases hd : d.leaf [] with
    | none => rfl
    | some v =>
      have hplaced : Placed ["users", u, f.key] v := h _ v hd
      generalize hp : ["users", u, f.key] = p at hplaced
      cases hplaced with
      | name s _ hk =>
        simp only [List.cons.injEq, and_true, true_and] at hp
        rw [← hp.2] at hk
        exact absurd hk (by cases f <;> decide)
      | entry _ _ _ _ => simp at hp
      | elsewhere _ _ hk => exact absurd (List.cons.inj hp).1.symm hk
  refine ⟨hroot, fun n => ?_⟩
  have hleaf : ∀ q v, d.leaf (n :: q) = some v →
      q = [] ∧ ∃ id, v = .string id ∧ isValidKey n ∧ isValidKey id := by
    intro q v hq
    have hplaced : Placed ("users" :: u :: f.key :: n :: q) v := h _ v hq
    generalize hp : "users" :: u :: f.key :: n :: q = p at hplaced
    cases hplaced with
    | name s hu hk => simp at hp
    | entry g hu hn hid =>
      simp only [List.cons.injEq] at hp
      obtain ⟨-, -, -, rfl, rfl⟩ := hp
      exact ⟨rfl, _, rfl, hn, hid⟩
    | elsewhere p v hk => exact absurd (List.cons.inj hp).1.symm hk
  cases hn : d.leaf [n] with
  | none =>
    refine ⟨none, Tree.ext_leaf fun q => ?_, by simp⟩
    cases hq : d.leaf (n :: q) with
    | none => exact hq
    | some v =>
      obtain ⟨rfl, -⟩ := hleaf q v hq
      rw [hn] at hq
      cases hq
  | some v =>
    obtain ⟨-, id, rfl, hvalid⟩ := hleaf [] v hn
    refine ⟨some id, Tree.eq_single_of_leaf_nil hn, ?_⟩
    rintro _ ⟨⟩
    exact hvalid

/-- An entry of the database. -/
theorem Database.InShape.dict {db : Database} (h : db.InShape) (f : Field) (u : String) : Entries (db.dict f u) :=
  entries_of_leaves (h.sub ["users", u, f.key])

/-! ## Decoded users -/

theorem Observer.decoded_relationships {o : Observer} {snapshot : Node} {user : User}
    (h : o.decoded snapshot = some user) : (object snapshot "relationships").keys ≠ ∅ := by
  unfold decoded SessionStore.retrieved at h
  cases hv : snapshot.asDictionary? with
  | none => simp [hv, SessionStore.decodeUser] at h
  | some value =>
    simp only [hv, SessionStore.decodeUser, Option.bind_eq_bind, Option.bind_some, Option.bind_eq_some_iff] at h
    obtain ⟨_, -, _, -, relationships, hr, -⟩ := h
    obtain rfl := Node.asDictionary?_eq_some hv
    intro hkeys
    simp [Node.asDictionary?, hkeys] at hr

/-- **What a handler decodes is the node of a user**: a path that leads elsewhere has no first name, or no
dictionary of relationships beside it. -/
theorem Observer.decoded_path {o : Observer} {snapshot : Node} {user : User} (hn : o.Sees snapshot)
    (h : o.decoded snapshot = some user) : ∃ u, NodeName o.userName u := by
  obtain ⟨-, -, -, hfirst, -⟩ := o.decoded_spec h
  obtain ⟨s, hs⟩ := Option.isSome_iff_exists.1 hfirst
  have hleaf : snapshot.leaf ["first_name"] = some (.string s) := Tree.eq_single_iff.1 (Node.asString?_eq_some.1 hs)
  obtain ⟨k, hk⟩ := Finset.nonempty_iff_ne_empty.2 (o.decoded_relationships h)
  obtain ⟨p, v, hv⟩ : ∃ p v, snapshot.leaf ("relationships" :: k :: p) = some v := by
    by_contra hno
    refine Tree.mem_keys.1 hk (Tree.ext_leaf fun p => Option.eq_none_iff_forall_ne_some.2 fun v hv => hno ⟨p, v, hv⟩)
  have hfirst := hn _ _ hleaf
  have hrel := hn _ _ hv
  simp only [path, List.cons_append] at hfirst hrel
  generalize hp : pathComponents o.userName = q at hfirst hrel
  generalize hx : "users" :: (q ++ ["first_name"]) = x at hfirst
  cases hfirst with
  | @name u k _ hu _ =>
    obtain ⟨rfl, -⟩ := List.append_inj' (show q ++ ["first_name"] = [u] ++ [k] from (List.cons.inj hx).2) rfl
    exact ⟨u, hp, hu⟩
  | @entry u n _ f hu _ _ =>
    obtain ⟨rfl, -⟩ := List.append_inj' (show q ++ ["first_name"] = [u, f.key] ++ [n] from (List.cons.inj hx).2) rfl
    generalize hy : "users" :: ([u, f.key] ++ "relationships" :: k :: p) = y at hrel
    cases hrel with
    | name _ _ _ => simp at hy
    | entry _ _ _ _ => simp at hy
    | elsewhere _ _ hne => exact absurd (List.cons.inj hy).1.symm hne
  | elsewhere _ _ hne => exact absurd (List.cons.inj hx).1.symm hne

theorem Observer.decoded_inShape {o : Observer} {snapshot : Node} {user : User} (hn : o.Sees snapshot)
    (h : o.decoded snapshot = some user) : user.InShape := by
  obtain ⟨u, hu⟩ := o.decoded_path hn h
  obtain ⟨-, hname, hdict, -⟩ := o.decoded_spec h
  refine ⟨⟨u, hname ▸ hu⟩, fun f => ?_⟩
  rw [hdict f]
  rcases SessionStore.exported_cases f (object snapshot f.key) with heq | heq <;> rw [heq]
  · refine entries_of_leaves (u := u) (f := f) fun q v hq => ?_
    have hplaced := hn _ _ hq
    rw [path, hu.1] at hplaced
    exact hplaced
  · exact entries_empty

/-! ## Calls -/

/-- A link update under names of nodes. -/
theorem Call.inShape_link {c : Call} {h : Half} {u r : String} (hh : c.half? = some h) (hu : NodeName h.owner u)
    (hr : NodeName h.name r) (hid : ∀ id ∈ h.value, isValidKey id) : c.InShape := by
  intro w hw
  cases hws : c.write with
  | none =>
    rw [hws] at hw
    cases hw
  | some ws =>
    obtain ⟨rfl, -⟩ := c.write_under hh hu.1 hr.1 hws
    rw [hws, Option.getD_some] at hw
    rcases List.mem_cons.1 hw with rfl | hw
    · exact .entry h.field h.value hu.2 hr.2 hid
    · rcases List.mem_cons.1 hw with rfl | hw
      · exact .entry h.field.mirror h.value hr.2 hu.2 hid
      · simp only [recordWrite, Option.mem_toList, Option.map_eq_some_iff] at hw
        obtain ⟨record, -, rfl⟩ := hw
        exact .elsewhere _ _ (by decide)

/-- The updates of an operation. -/
theorem LinkOp.calls_inShape {op : LinkOp} {user : User} (hu : user.InShape) (hn : isValidKey op.name)
    (hid : ∀ id ∈ op.uuid?, isValidKey id) : ∀ c ∈ op.calls user, c.InShape := by
  obtain ⟨⟨u, hnode⟩, hentries⟩ := hu
  intro c hc
  have hno : ∀ id ∈ (none : Option String), isValidKey id := by simp
  cases op with
  | addRelationShip name id =>
    obtain rfl := List.mem_singleton.1 hc
    exact Call.inShape_link rfl hnode hn.nodeName hid
  | deleteRelationShip name =>
    simp only [calls, Option.mem_toList, Option.map_eq_some_iff] at hc
    obtain ⟨id, -, rfl⟩ := hc
    exact Call.inShape_link rfl hnode hn.nodeName hno
  | addPending name id =>
    obtain rfl := List.mem_singleton.1 hc
    exact Call.inShape_link rfl hnode hn.nodeName hid
  | deletePending name =>
    obtain rfl := List.mem_singleton.1 hc
    exact Call.inShape_link rfl hnode hn.nodeName hno
  | acceptRequest name =>
    simp only [calls, List.mem_cons, Option.mem_toList, Option.map_eq_some_iff] at hc
    rcases hc with rfl | ⟨id, hat, rfl⟩
    · exact Call.inShape_link rfl hn.nodeName hnode hno
    · refine Call.inShape_link rfl hnode hn.nodeName ?_
      rintro _ ⟨⟩
      exact ((hentries .requests).valid hat).2
  | declineRequest name =>
    obtain rfl := List.mem_singleton.1 hc
    exact Call.inShape_link rfl hn.nodeName hnode hno

theorem User.InShape.mutate {user : User} (hu : user.InShape) {name : String} (hn : isValidKey name) (f : Field)
    (value : Option String) (hv : ∀ id ∈ value, isValidKey id) : (user.mutate f name value).InShape := by
  refine ⟨by rw [mutate_userName]; exact hu.node, fun g => ?_⟩
  rw [dict_mutate]
  split
  · exact (hu.entries f).store hn hv
  · exact hu.entries g

/-- The session after an operation. -/
theorem LinkOp.localEffect_inShape {op : LinkOp} {user : User} (hu : user.InShape) (hn : isValidKey op.name)
    (hid : ∀ id ∈ op.uuid?, isValidKey id) : (op.localEffect user).InShape := by
  cases op with
  | addRelationShip name id => exact hu.mutate hn .relationships (some id) hid
  | deleteRelationShip name => exact hu.mutate hn .relationships none (by simp)
  | addPending name id => exact hu.mutate hn .pending (some id) hid
  | deletePending name => exact hu.mutate hn .pending none (by simp)
  | acceptRequest name =>
    have hadded := hu.mutate hn .relationships (idAt user .requests name)
      fun id hat => ((hu.entries .requests).valid hat).2
    exact hadded.mutate hn .requests none (by simp)
  | declineRequest name => exact hu.mutate hn .requests none (by simp)

/-! ## One step -/

/-- `InShape`, as a property of everything. -/
def Shaped : Property where
  db := Database.InShape
  user := User.InShape
  observer o := ∀ n ∈ o.events, o.Sees n
  name a := ∃ u, NodeName a u
  call := Call.InShape

theorem Observer.sees_notify {o : Observer} {db db' : Database} {n : Node} : (o.notify db db').Sees n ↔ o.Sees n := by
  rw [Sees, Sees, Observer.notify_path]

theorem Shaped.passes : Shaped.Passes where
  apply hdb hcall := hdb.update hcall
  notify := by
    intro o db db' hev hdb n hn
    rw [Observer.sees_notify]
    rw [Observer.notify_events] at hn
    split at hn
    · exact hev n hn
    · rcases List.mem_append.1 hn with hn | hn
      · exact hev n hn
      · rw [List.mem_singleton.1 hn]
        exact hdb.sub _
  handled hev he n hn := hev n (he ▸ List.mem_cons_of_mem _ hn)
  decoded := by
    intro o snapshot events user hev he hd
    have hsees := hev snapshot (he ▸ List.mem_cons_self)
    exact ⟨o.decoded_inShape hsees hd, o.decoded_path hsees hd⟩
  upload := by
    rintro userName token ⟨u, hnode⟩ - w hw
    rcases Call.write_uploadDeviceToken_cases userName token with hwrite | hwrite <;> rw [hwrite] at hw
    · cases hw
    · rw [Option.getD_some, hnode.1, List.mem_singleton] at hw
      subst hw
      exact .deviceID token hnode.2

theorem Shaped.observes {db : Database} (hdb : db.InShape) (entrance : Entrance) (auth : AuthUser) (userName : String) :
    Shaped.Observes db entrance auth userName := by
  intro path hp
  obtain ⟨-, rfl⟩ : isValidPathString userName ∧ "users" :: pathComponents userName = path := by
    simpa [child] using hp
  exact List.forall_mem_singleton.2 (hdb.sub _)

/-- A new user, under a name that `insertUser` takes. -/
theorem Registration.inShape {g : Registration} (hg : g.Valid) :
    g.user.InShape ∧ (Call.insertUser g.user).InShape := by
  refine ⟨⟨⟨g.userName, hg.1.nodeName⟩, fun f => ?_⟩, fun w hw => ?_⟩
  · cases f
    · exact entries_empty.store (v := some g.uuid) hg.1 (by rintro _ ⟨⟩; exact hg.2)
    · exact entries_empty
    · exact entries_empty
  · rw [g.write_insertUser hg, Option.getD_some] at hw
    simp only [List.mem_cons, List.not_mem_nil, or_false] at hw
    rcases hw with rfl | rfl
    · exact .user g hg
    · exact .elsewhere _ _ (by decide)

variable {ι : Type} [DecidableEq ι]

omit [DecidableEq ι] in
theorem State.inShape_iff {s : State ι} : s.InShape ↔ s.Holds Shaped :=
  ⟨fun h => ⟨h.db, fun c => ⟨(h.clients c).session, (h.clients c).observers, (h.clients c).tokens, (h.clients c).queue⟩⟩,
    fun h => ⟨h.db, fun c => ⟨(h.clients c).session, (h.clients c).observers, (h.clients c).tokens, (h.clients c).queue⟩⟩⟩

/-- **One action of the app** keeps everything in shape. -/
theorem State.InShape.step {s s' : State ι} (h : s.InShape) {a : Action ι} (ha : a.FromApp)
    (hs : s.step a = some s') : s'.InShape := by
  refine inShape_iff.2 ((inShape_iff.1 h).step Shaped.passes ?_ hs)
  cases a with
  | signUp c authResult userName firstName lastName newUUID =>
    rintro auth - user rfl hw
    obtain ⟨g, hg, rfl, rfl⟩ : ∃ g : Registration,
        g.user = SessionStore.newUser auth userName firstName lastName newUUID ∧ g.userName = userName ∧
          g.uuid = newUUID :=
      ⟨⟨auth, userName, firstName, lastName, newUUID, none⟩, rfl, rfl, rfl⟩
    rw [← hg] at hw ⊢
    have hvalid : g.Valid := ⟨(Registration.insertUser_isSome_iff ha).1 hw, ha⟩
    obtain ⟨huser, hcall⟩ := Registration.inShape hvalid
    exact ⟨huser, hcall, g.userName, hvalid.1.nodeName⟩
  | signIn c authResult userName => exact fun auth _ => Shaped.observes h.db _ auth userName
  | setupUser c auth userName => exact Shaped.observes h.db _ auth userName
  | tap c op =>
    intro user hu
    have huser := (h.clients c).session user hu
    exact ⟨LinkOp.localEffect_inShape huser ha.1 ha.2, fun call hcall _ =>
      LinkOp.calls_inShape huser ha.1 ha.2 call hcall⟩
  | reload c o snapshot => exact absurd ha id
  | remote w =>
    refine h.db.update fun x hx => ?_
    obtain ⟨p, n⟩ := x
    obtain ⟨p, rfl⟩ := List.head?_eq_some_iff.1 (ha _ hx)
    exact .elsewhere p n (by decide)
  | _ => trivial

omit [DecidableEq ι] in
theorem State.inShape_start : (State.start Tree.empty : State ι).InShape :=
  inShape_iff.2 (State.Holds.start (Tree.leaves_empty _))

/-- **Everything stays in shape**, whatever users type and however their actions interleave. -/
theorem inShape_run {ok : History (State ι) (Action ι) → State ι → Action ι → Prop}
    (hok : ∀ hist s a, ok hist s a → a.FromApp) {hist : History (State ι) (Action ι)} {s : State ι}
    (hr : Reach State.step ok (State.start Tree.empty) hist s) : s.InShape :=
  hr.inv (I := fun _ s => s.InShape) State.inShape_start fun _ _ _ _ _ hi ha hs => hi.step (hok _ _ _ ha) hs

end Anissagram
