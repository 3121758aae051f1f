import Anissagram.Everywhere
/-
# The ids in circulation

Ids travel from the database into snapshots, from there into sessions, and back through waiting
updates. `Sound R` says that every one of them stands in the relation `R` to the two names it is
stored under; `Sound.step` that a step of the app keeps this, if the ids it draws do. With `R`
always true it is the record of well-formed names and handed-over updates alone.
-/

namespace Anissagram

open PathTree NSMutableDictionary

/-- Every id of a dictionary of `userName` is related to its names. -/
def DictIds (R : String → String → String → Prop) (userName : String) (d : NSMutableDictionary) : Prop :=
  ∀ name id, object d name = .string id → R userName name id

/-- The same for a snapshot of `users/<userName>`. -/
def SnapshotIds (R : String → String → String → Prop) (userName : String) (snapshot : Node) : Prop :=
  ∀ f : Field, DictIds R userName (object snapshot f.key)

def User.Ids (R : String → String → String → Prop) (user : User) : Prop :=
  ∀ f, DictIds R user.userName (user.dict f)

/-- The id an update stores, or names in order to delete its record. -/
def Call.id? : Call → Option String
  | .addRelationship _ _ id | .deleteRelationship _ _ id | .addPending _ _ id => some id
  | _ => none

structure Call.Carries (R : String → String → String → Prop) (c : Call) : Prop where
  link : ∀ h ∈ c.half?, ∀ id ∈ c.id?, R h.owner h.name id
  insert : ∀ user, c = .insertUser user → ∀ f, DictIds R user.userName (user.inserted f)

/-- What an operation draws is related to its two names. -/
def LinkOp.Draws (R : String → String → String → Prop) (user : User) (op : LinkOp) : Prop :=
  ∀ id ∈ op.uuid?, R user.userName op.name id

structure Client.Sound (R : String → String → String → Prop) (k : Client) : Prop where
  session : ∀ user ∈ k.store.session, IsComponent user.userName ∧ user.Ids R
  observers : ∀ o ∈ k.observers, IsComponent o.userName ∧ ∀ n ∈ o.events, SnapshotIds R o.userName n
  tokens : ∀ u ∈ k.tokens, IsComponent u
  queue : ∀ call ∈ k.queue, call.Issued ∧ call.Carries R

structure Sound {ι : Type} (R : String → String → String → Prop) (s : State ι) : Prop where
  db : ∀ f a, DictIds R a (s.db.dict f a)
  clients : ∀ c, (s.clients c).Sound R

/-- The names an action brings in are single path components. -/
def Action.NamesOk {ι : Type} : Action ι → Prop
  | .signUp _ _ userName _ _ _ | .signIn _ _ userName | .setupUser _ _ userName => IsComponent userName
  | .tap _ op => IsComponent op.name
  | .reload _ o _ => IsComponent o.userName
  | _ => True

instance {ι : Type} (a : Action ι) : Decidable a.NamesOk :=
  match a with
  | .signUp _ _ userName _ _ _ | .signIn _ _ userName | .setupUser _ _ userName =>
    inferInstanceAs (Decidable (IsComponent userName))
  | .tap _ op => inferInstanceAs (Decidable (IsComponent op.name))
  | .reload _ o _ => inferInstanceAs (Decidable (IsComponent o.userName))
  | .signOut _ _ | .token _ _ _ | .apply _ | .deliver _ _ | .kill _ _ | .remote _ => isTrue trivial

/-- No new user waits to be inserted. -/
def NoInserts {ι : Type} (s : State ι) : Prop := ∀ c, ∀ call ∈ s.queue c, ¬ call.IsInsert

/-- Not an action that writes whole nodes. -/
def Action.KeepsNodes {ι : Type} : Action ι → Prop
  | .signUp _ _ _ _ _ _ | .remote _ => False
  | _ => True

instance {ι : Type} (a : Action ι) : Decidable a.KeepsNodes :=
  match a with
  | .signUp _ _ _ _ _ _ | .remote _ => instDecidableFalse
  | .signIn _ _ _ | .setupUser _ _ _ | .signOut _ _ | .tap _ _ | .token _ _ _ | .apply _
  | .deliver _ _ | .kill _ _ | .reload _ _ _ => instDecidableTrue

variable {ι : Type} [DecidableEq ι] {R : String → String → String → Prop}

/-! ## Dictionaries, calls and operations -/

theorem dictIds_empty (userName : String) : DictIds R userName Tree.empty := by
  intro name id h
  simp only [object, Tree.sub_empty] at h
  exact absurd h.symm (Node.string_ne_empty id)

theorem DictIds.store {userName : String} {d : NSMutableDictionary} (hd : DictIds R userName d)
    {name : String} {value : Option String} (hv : ∀ id ∈ value, R userName name id) :
    DictIds R userName (store d name value) := by
  intro n id h
  rw [object_store] at h
  split at h
  · rename_i hn
    subst hn
    exact hv id (entryNode_inj.1 h)
  · exact hd n id h

theorem dictIds_single {userName name id : String} (h : R userName name id) :
    DictIds R userName (.dictionary [(name, .string id)]) := by
  have hstore : Node.dictionary [(name, .string id)] =
      store (Tree.empty : NSMutableDictionary) name (some id) := rfl
  rw [hstore]
  refine (dictIds_empty userName).store fun id' hid => ?_
  cases hid
  exact h

/-- A snapshot of the database is as sound as the database. -/
theorem snapshotIds_sub {db : Database} (h : ∀ f a, DictIds R a (db.dict f a)) {o : Observer}
    (ho : IsComponent o.userName) : SnapshotIds R o.userName (db.sub o.path) := by
  intro f
  have hsub : object (db.sub o.path) f.key = db.dict f o.userName := by
    simp only [object, Observer.path, ho.pathComponents, Tree.sub_sub]
    rfl
  rw [hsub]
  exact h f o.userName

/-- Whoever is decoded from a sound snapshot is sound. -/
theorem Observer.decoded_ids {o : Observer} {snapshot : Node} {user : User}
    (hs : SnapshotIds R o.userName snapshot) (h : o.decoded snapshot = some user) : user.Ids R := by
  obtain ⟨-, hname, hdict, -⟩ := o.decoded_spec h
  intro f
  rw [hname, hdict f]
  rcases SessionStore.exported_cases f (object snapshot f.key) with heq | heq <;> rw [heq]
  · exact hs f
  · exact dictIds_empty _

theorem User.Ids.mutate {user : User} (h : user.Ids R) (f : Field) {name : String}
    {value : Option String} (hv : ∀ id ∈ value, R user.userName name id) :
    (user.mutate f name value).Ids R := by
  intro g
  rw [User.mutate_userName, User.dict_mutate]
  split
  · exact (h f).store hv
  · exact h g

theorem User.Ids.idAt {user : User} (h : user.Ids R) {f : Field} {name id : String}
    (hid : LinkOp.idAt user f name = some id) : R user.userName name id :=
  h f name id (Node.asString?_eq_some.1 hid)

/-- The session after an operation. -/
theorem LinkOp.localEffect_ids {op : LinkOp} {user : User} (h : user.Ids R) (hd : op.Draws R user) :
    (op.localEffect user).Ids R := by
  cases op with
  | addRelationShip name id => exact h.mutate _ hd
  | addPending name id => exact h.mutate _ hd
  | acceptRequest name =>
    exact (h.mutate .relationships fun id hid => h.idAt hid).mutate .requests (by simp)
  | _ => exact h.mutate _ (by simp)

/-- The updates of an operation. -/
theorem LinkOp.calls_carry {op : LinkOp} {user : User} (h : user.Ids R) (hd : op.Draws R user) :
    ∀ c ∈ op.calls user, c.Carries R := by
  intro c hc
  refine ⟨?_, ?_⟩
  swap
  · rintro user' rfl
    obtain ⟨_, ho, -⟩ := LinkOp.calls_own hc
    cases ho
  cases op with
  | addRelationShip name id =>
    rw [calls, List.mem_singleton] at hc
    subst hc
    simpa [Call.half?, Call.id?, LinkOp.name] using hd id rfl
  | addPending name id =>
    rw [calls, List.mem_singleton] at hc
    subst hc
    simpa [Call.half?, Call.id?, LinkOp.name] using hd id rfl
  | deleteRelationShip name =>
    simp only [calls, Option.mem_toList, Option.map_eq_some_iff] at hc
    obtain ⟨id, hid, rfl⟩ := hc
    simpa [Call.half?, Call.id?] using h.idAt hid
  | acceptRequest name =>
    simp only [calls, List.mem_cons, Option.mem_toList, Option.map_eq_some_iff] at hc
    rcases hc with rfl | ⟨id, hid, rfl⟩
    · simp [Call.id?]
    · simpa [Call.half?, Call.id?] using h.idAt hid
  | deletePending name =>
    rw [calls, List.mem_singleton] at hc
    subst hc
    simp [Call.id?]
  | declineRequest name =>
    rw [calls, List.mem_singleton] at hc
    subst hc
    simp [Call.id?]

/-- The dictionaries after an update: both halves get the id, so `R` must not care whose is whose. -/
theorem Call.Carries.onDict (hsymm : ∀ a b id, R a b id → R b a id) {c : Call} (hc : c.Carries R)
    {f : Field} {u : String} {d : NSMutableDictionary} (hd : DictIds R u d) :
    DictIds R u (c.onDict f u d) := by
  cases hh : c.half? with
  | none => simpa [Call.onDict, Call.edit, hh] using hd
  | some h =>
    have hval : ∀ id ∈ h.value, R h.owner h.name id := by
      intro id hid
      refine hc.link h hh id ?_
      cases c <;> simp only [Call.half?, Option.some.injEq, reduceCtorEq] at hh <;> subst hh <;>
        simp_all [Call.id?]
    simp only [Call.onDict, Call.edit, hh]
    by_cases h1 : f = h.field ∧ u = h.owner
    · rw [if_pos h1]
      exact hd.store (h1.2 ▸ hval)
    · rw [if_neg h1]
      by_cases h2 : f = h.mirror.field ∧ u = h.mirror.owner
      · rw [if_pos h2]
        refine hd.store fun id hid => ?_
        rw [h2.2]
        exact hsymm _ _ _ (hval id hid)
      · rw [if_neg h2]
        exact hd

/-- The database after an update. -/
theorem Call.Carries.apply (hsymm : ∀ a b id, R a b id → R b a id) {c : Call} (hc : c.Carries R)
    (hi : c.Issued) {db : Database} (hdb : ∀ f a, DictIds R a (db.dict f a)) (f : Field) (a : String) :
    DictIds R a ((db.apply c).dict f a) := by
  by_cases hins : c.IsInsert
  · cases c with
    | insertUser user =>
      rw [Database.dict_insertUser hi]
      split
      · rename_i ha
        subst ha
        exact hc.insert user rfl f
      · exact hdb f a
    | _ => exact absurd hins id
  · rw [Database.dict_apply hi hins]
    exact hc.onDict hsymm (hdb f a)

/-! ## One step -/

/-- `Sound R`, as a property of everything. -/
def Circulates (R : String → String → String → Prop) : Property where
  db db := ∀ f a, DictIds R a (db.dict f a)
  user user := IsComponent user.userName ∧ user.Ids R
  observer o := IsComponent o.userName ∧ ∀ n ∈ o.events, SnapshotIds R o.userName n
  name := IsComponent
  call call := call.Issued ∧ call.Carries R

omit [DecidableEq ι] in
theorem sound_iff {s : State ι} : Sound R s ↔ s.Holds (Circulates R) :=
  ⟨fun h => ⟨h.db, fun c => ⟨(h.clients c).session, (h.clients c).observers, (h.clients c).tokens, (h.clients c).queue⟩⟩,
    fun h => ⟨h.db, fun c => ⟨(h.clients c).session, (h.clients c).observers, (h.clients c).tokens, (h.clients c).queue⟩⟩⟩

theorem Circulates.passes (hsymm : ∀ a b id, R a b id → R b a id) : (Circulates R).Passes where
  apply hdb hcall := hcall.2.apply hsymm hcall.1 hdb
  notify := by
    rintro o db db' ⟨hname, hev⟩ hdb
    refine ⟨(o.notify_userName db db').symm ▸ hname, ?_⟩
    rw [Observer.notify_userName, Observer.notify_events]
    split
    · exact hev
    · exact List.forall_mem_append.2 ⟨hev, List.forall_mem_singleton.2 (snapshotIds_sub hdb hname)⟩
  handled ho he := ⟨ho.1, fun n hn => ho.2 n (he ▸ List.mem_cons_of_mem _ hn)⟩
  decoded := by
    rintro o snapshot events user ⟨hname, hev⟩ he hd
    exact ⟨⟨(o.decoded_spec hd).2.1 ▸ hname, o.decoded_ids (hev snapshot (he ▸ List.mem_cons_self)) hd⟩, hname⟩
  upload hname hw := ⟨⟨hname, hw⟩, by simp [Call.half?], fun _ he => by cases he⟩

theorem Circulates.observes {db : Database} (hdb : ∀ f a, DictIds R a (db.dict f a)) {userName : String}
    (hu : IsComponent userName) (entrance : Entrance) (auth : AuthUser) :
    (Circulates R).Observes db entrance auth userName := by
  intro path hp
  have hpath : path = Observer.path ⟨entrance, auth, userName, false, [db.sub path]⟩ := by
    simp [Observer.path, child_eq_some hu hp, hu.pathComponents]
  refine ⟨hu, List.forall_mem_singleton.2 ?_⟩
  rw [hpath]
  exact snapshotIds_sub hdb hu

/-- **One step of the app keeps the ids in order.** -/
theorem Sound.step {s s' : State ι} {a : Action ι} (hs : Sound R s)
    (hsymm : ∀ a b id, R a b id → R b a id) (h : s.step a = some s') (hn : a.NamesOk)
    (hremote : ∀ w, a ≠ .remote w)
    (hsignUp : ∀ c authResult userName firstName lastName newUUID,
      a = .signUp c authResult userName firstName lastName newUUID → R userName userName newUUID)
    (htap : ∀ c op, a = .tap c op → ∀ user ∈ s.session c, op.Draws R user)
    (hreload : ∀ c o snapshot, a = .reload c o snapshot → SnapshotIds R o.userName snapshot) :
    Sound R s' := by
  refine sound_iff.2 ((sound_iff.1 hs).step (Circulates.passes hsymm) ?_ h)
  cases a with
  | signUp c authResult userName firstName lastName newUUID =>
    rintro auth - user rfl hw
    have hself := dictIds_single (hsignUp _ _ _ _ _ _ rfl)
    have hids : ∀ f, DictIds R userName
        ((SessionStore.newUser auth userName firstName lastName newUUID).inserted f) := fun f => by
      cases f <;> first | exact hself | exact dictIds_empty _
    refine ⟨⟨hn, fun f => ?_⟩, ⟨⟨hn, hw⟩, by simp [Call.half?], ?_⟩, hn⟩
    · cases f <;> first | exact hself | exact dictIds_empty _
    · rintro user ⟨rfl⟩
      exact hids
  | signIn c authResult userName => exact fun auth _ => Circulates.observes hs.db hn _ auth
  | setupUser c auth userName => exact Circulates.observes hs.db hn _ auth
  | tap c op =>
    intro user hu
    obtain ⟨hname, hids⟩ := (hs.clients c).session user hu
    have hdraw := htap c op rfl user hu
    refine ⟨⟨by rwa [op.localEffect_userName], LinkOp.localEffect_ids hids hdraw⟩, fun call hcall hw => ?_⟩
    exact ⟨⟨(LinkOp.calls_link hcall hname hn).1, hw⟩, LinkOp.calls_carry hids hdraw call hcall⟩
  | reload c o snapshot =>
    intro user hd
    exact ⟨⟨(o.decoded_spec hd).2.1 ▸ hn, o.decoded_ids (hreload c o snapshot rfl) hd⟩, hn⟩
  | remote w => exact absurd rfl (hremote w)
  | _ => trivial

/-- The only ids of a new database are those of the self entries. -/
theorem registered_dictIds {gs : List Registration} (hg : ValidRegistrations gs)
    (h : ∀ g ∈ gs, R g.userName g.userName g.uuid) (f : Field) (a : String) :
    DictIds R a ((registered gs).dict f a) := by
  intro b id hid
  change (registered gs).entry f a b = .string id at hid
  by_cases hab : a = b
  · subst hab
    rw [registered_entry_self hg] at hid
    cases f with
    | relationships =>
      cases hf : gs.find? fun g => g.userName = a with
      | none =>
        simp only [hf] at hid
        exact absurd hid.symm (Node.string_ne_empty id)
      | some g =>
        simp only [hf, Node.string_inj] at hid
        have hname : g.userName = a := by simpa using List.find?_some hf
        rw [← hid, ← hname]
        exact h g (List.mem_of_find?_eq_some hf)
    | _ => exact absurd hid.symm (Node.string_ne_empty id)
  · rw [registered_entry_ne hg f hab] at hid
    exact absurd hid.symm (Node.string_ne_empty id)

omit [DecidableEq ι] in
/-- Before anything runs only the database matters. -/
theorem sound_start {db : Database} (h : ∀ f a, DictIds R a (db.dict f a)) : Sound R (State.start db : State ι) :=
  sound_iff.2 (State.Holds.start h)

omit [DecidableEq ι] in
/-- A wider relation. -/
theorem Sound.mono {R' : String → String → String → Prop} (h : ∀ a b id, R a b id → R' a b id)
    {s : State ι} (hs : Sound R s) : Sound R' s := by
  refine ⟨fun f a name id hid => h _ _ _ (hs.db f a name id hid), fun c => ?_⟩
  obtain ⟨h1, h2, h3, h4⟩ := hs.clients c
  exact {
    session := fun user hu => ⟨(h1 user hu).1, fun f name id hid => h _ _ _ ((h1 user hu).2 f name id hid)⟩
    observers := fun o ho => ⟨(h2 o ho).1, fun n hmem f name id hid =>
      h _ _ _ ((h2 o ho).2 n hmem f name id hid)⟩
    tokens := h3
    queue := fun call hc => ⟨(h4 call hc).1, fun k hk id hid => h _ _ _ ((h4 call hc).2.link k hk id hid),
      fun user hu f name id hid => h _ _ _ ((h4 call hc).2.insert user hu f name id hid)⟩ }

/-- Without sign-ups nobody is inserted. -/
theorem NoInserts.step {s s' : State ι} {a : Action ι} (h : NoInserts s) (hs : s.step a = some s')
    (hk : a.KeepsNodes) (ha : ¬ a.IsExternal) : NoInserts s' := by
  rcases State.step_queue hs ha with ⟨c, call, rest, -, -, hpop⟩ | ⟨c, -, -, hpush⟩
  · exact fun c' y hy => h c' y (hpop.sub hy)
  intro c' y hy
  rcases hpush.cases hy with hy | ⟨-, hy⟩
  · exact h c' y hy
  rcases State.issues_cases hy with ⟨_, _, _, _, _, _, rfl⟩ | ⟨_, _, rfl⟩ | ⟨_, op, user, -, -, hcall⟩
  · exact absurd hk id
  · exact id
  · obtain ⟨_, ho, -⟩ := LinkOp.calls_own hcall
    intro hins
    cases y <;> first | exact hins | cases ho

/-! ## Two devices -/

/-- Alice signs in on device `c` and Bob on device `d`. -/
def bothSignIn {ι : Type} (c d : ι) : List (Action ι) :=
  [.setupUser c alice.auth "alice", .deliver c 0, .setupUser d bob.auth "bob", .deliver d 0]

end Anissagram
