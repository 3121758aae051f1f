import Anissagram.Registered
/-
# Signing up (`SessionStore.swift:29`)

`signUp` writes to two stores, one after the other: Firebase Auth creates the account, and the
completion sets the session and hands the new user to `insertUser`. Nothing checks the user name in
between: `LoginView.signUp` has a `TODO validate entries` in place of the call of `validEntries`, and
Firebase Auth only knows emails.

* `signUp_all_or_nothing_iff`: a name that is no key of the database stops the process with the
  account created and nobody in the database.
* `signUp_undamaged_iff`: a name with a node of its own loses that node.
-/

namespace Anissagram

open PathTree NSMutableDictionary

/-- What the server gets to see of a request; `token` is the answer to the token request. -/
def Request.answered (token : Option String) : Request → Option Call
  | .call c => some c
  | .token userName => token.map (Call.uploadDeviceToken userName)

/-- Where a `signUp` ends. -/
structure SignedUp where
  /-- The account it created in Firebase Auth. -/
  account : Option AuthUser
  /-- `none` after a trap or an exception. -/
  store : Option SessionStore
  db : Database

namespace Registration

/-- `signUp` with the fields of the form; `created` is whether Firebase Auth creates the account. -/
def signUp (g : Registration) (created : Bool) (s : SessionStore) (db : Database) : SignedUp :=
  let authResult := if created then some g.auth else none
  let completion := s.signUp authResult g.userName g.firstName g.lastName g.uuid
  ⟨authResult, completion.value, db.applyAll (completion.issued.filterMap (Request.answered g.token))⟩

/-- The name is also a key of the dictionary in the body. -/
theorem isValidKey_of_insertUser {g : Registration} (h : (Call.insertUser g.user).write.isSome) :
    isValidKey g.userName := by
  obtain ⟨w, hw⟩ := Option.isSome_iff_exists.1 h
  simp only [Call.write, DatabaseManager.insertUser, Option.bind_eq_bind, Option.bind_eq_some_iff] at hw
  obtain ⟨uuid, -, hw⟩ := hw
  obtain ⟨hacc, -⟩ := updateChildValues_eq_some.1 (Option.bind_eq_some_iff.2 hw)
  have hbody : hasValidKeys g.user.body := (hacc.1 _ List.mem_cons_self).2
  have hself : g.user.body.leaf ["relationships", g.userName] = some (.string g.uuid) := by
    have hrel := congrArg (fun d => Tree.leaf (object d g.userName) []) (g.user.object_body .relationships)
    have hdict := congrArg (fun n => Tree.leaf n []) (object_dictionary_single g.userName (.string g.uuid))
    exact hrel.trans hdict
  exact hasValidKeys_iff.1 hbody _ (by rw [hself]; rfl) _ (by simp)

/-- **When `insertUser` goes through.** -/
theorem insertUser_isSome_iff {g : Registration} (hid : isValidKey g.uuid) :
    (Call.insertUser g.user).write.isSome ↔ isValidKey g.userName := by
  refine ⟨isValidKey_of_insertUser, fun h => ?_⟩
  rw [g.write_insertUser ⟨h, hid⟩]
  rfl

theorem signUp_created {g : Registration} (hg : g.Valid) (s : SessionStore) (db : Database) :
    g.signUp true s db = ⟨some g.auth, some { s with session := some g.user }, db.applyAll g.calls⟩ := by
  have hw := (insertUser_isSome_iff hg.2).2 hg.1
  have hanswered : [Request.call (.insertUser g.user), .token g.userName].filterMap (Request.answered g.token) =
      g.calls := by
    cases ht : g.token <;> simp [Request.answered, calls, ht]
  simp [signUp, SessionStore.signUp, show SessionStore.newUser _ _ _ _ _ = g.user from rfl, hw, hanswered]

theorem signUp_stopped {g : Registration} (hid : isValidKey g.uuid) (hn : ¬ isValidKey g.userName)
    (s : SessionStore) (db : Database) : g.signUp true s db = ⟨some g.auth, none, db⟩ := by
  have hw := mt (insertUser_isSome_iff hid).1 hn
  simp [signUp, SessionStore.signUp, show SessionStore.newUser _ _ _ _ _ = g.user from rfl, hw]

end Registration

/-! ## All or nothing -/

/-- Either there is no account and nothing has changed, or there are the account, the session and a
user who is in a relationship with itself. -/
def AllOrNothing (g : Registration) (s : SessionStore) (db : Database) (o : SignedUp) : Prop :=
  (o.account = none ∧ o.store = some s ∧ o.db = db) ∨
  (o.account.isSome ∧ (∃ s' ∈ o.store, s'.session = some g.user) ∧
    ∃ id, o.db.entry .relationships g.userName g.userName = .string id ∧
      object (o.db.record id) "users" = .array [.string g.userName, .string g.userName])

theorem Registration.object_selfRecord_users (n : String) :
    object (selfRecord n) "users" = .array [.string n, .string n] := by
  simp [selfRecord, object_dictionary]

/-- **`signUp` is all or nothing exactly for names that are keys of the database**, whatever was
typed, stored and loaded before. -/
theorem signUp_all_or_nothing_iff (g : Registration) (hid : isValidKey g.uuid) (created : Bool)
    (s : SessionStore) (db : Database) :
    AllOrNothing g s db (g.signUp created s db) ↔ created = false ∨ isValidKey g.userName := by
  cases created with
  | false => simp [AllOrNothing, Registration.signUp, SessionStore.signUp]
  | true =>
    by_cases hn : isValidKey g.userName
    · have hg : g.Valid := ⟨hn, hid⟩
      have hentry : (db.applyAll g.calls).entry .relationships g.userName g.userName = .string g.uuid := by
        unfold Database.entry
        rw [Registration.dict_calls hg, if_pos rfl]
        exact object_dictionary_single _ _
      have hrecord : (db.applyAll g.calls).record g.uuid = Registration.selfRecord g.userName := by
        rw [Registration.record_calls hg, if_pos rfl]
      rw [Registration.signUp_created hg]
      refine iff_of_true (Or.inr ⟨rfl, ⟨_, rfl, rfl⟩, g.uuid, hentry, ?_⟩) (Or.inr hn)
      rw [hrecord, Registration.object_selfRecord_users]
    · rw [Registration.signUp_stopped hid hn]
      simp [AllOrNothing, hn]

/-- Alice signs up under her name, after Bob. -/
theorem signUp_all_or_nothing_alice :
    AllOrNothing alice .initial (registered [bob]) (alice.signUp true .initial (registered [bob])) :=
  (signUp_all_or_nothing_iff alice (by decide) true .initial (registered [bob])).2 (Or.inr (by decide))

/-- Alice, with a dot in her name. -/
def alDotIce : Registration := { alice with userName := "al.ice" }

/-- The account exists, the process is gone and the database has not changed. -/
theorem signUp_stops_halfway :
    ¬ AllOrNothing alDotIce .initial Tree.empty (alDotIce.signUp true .initial Tree.empty) := by
  have hn : ¬ isValidKey alDotIce.userName := by decide
  rw [Registration.signUp_stopped (by decide) hn]
  simp [AllOrNothing]

/-! ## What was there before -/

/-- Every entry has its counterpart at the other user. -/
def Paired (db : Database) : Prop :=
  ∀ f a b, db.entry f a b ≠ Tree.empty ↔ db.entry f.mirror b a ≠ Tree.empty

theorem Mirrored.paired {db : Database} (h : Mirrored db) : Paired db := by
  intro f a b
  rw [h f a b]

/-- The node `users/<name>`. -/
def Database.node (db : Database) (name : String) : Node := db.sub ["users", name]

/-- Nothing of `db` is lost or changed in `db'`. -/
structure Undamaged (db db' : Database) : Prop where
  nodes : ∀ n, db.node n ≠ Tree.empty → db'.node n = db.node n
  entries : ∀ f a b, db.node a ≠ Tree.empty → db.node b ≠ Tree.empty → db'.entry f a b = db.entry f a b
  records : ∀ id, db.record id ≠ Tree.empty → db'.record id = db.record id
  paired : Paired db → Paired db'

/-- A drawn id: it stands nowhere yet. -/
structure Unused (db : Database) (id : String) : Prop where
  value : ∀ p, db.leaf p ≠ some (.string id)
  record : db.record id = Tree.empty

theorem Database.entry_eq_node (db : Database) (f : Field) (a b : String) :
    db.entry f a b = (db.node a).sub [f.key, b] := by
  simp only [entry, dict, object, node, Tree.sub_sub]
  rfl

/-- Only the node of the new user changes. -/
theorem Registration.node_calls {g : Registration} (hg : g.Valid) (db : Database) {n : String}
    (hn : n ≠ g.userName) : (db.applyAll g.calls).node n = db.node n := by
  have hap : Apart ["users", g.userName] ["users", n] :=
    apart_of_length_eq rfl (by simpa using Ne.symm hn)
  have hinsert : (db.apply (.insertUser g.user)).node n = db.node n := by
    refine Tree.sub_update_apart db ?_
    rw [g.write_insertUser hg]
    simpa using ⟨hap, apart_cons_of_ne [g.uuid] [n] (by decide)⟩
  cases ht : g.token with
  | none => simpa [calls, ht] using hinsert
  | some t =>
    simp only [calls, ht, Option.map_some, Option.toList_some, Database.applyAll_cons, Database.applyAll_nil]
    rw [← hinsert]
    refine Tree.sub_update_apart _ ?_
    rw [Call.write_uploadDeviceToken hg.1]
    simpa using hap.append_left ["deviceID"]

/-- The new user has one entry, for itself. -/
theorem Registration.entry_calls {g : Registration} (hg : g.Valid) (db : Database) (f : Field) (b : String) :
    (db.applyAll g.calls).entry f g.userName b =
      if f = .relationships ∧ b = g.userName then Node.string g.uuid else Tree.empty := by
  unfold Database.entry
  rw [Registration.dict_calls hg, if_pos rfl]
  cases f with
  | relationships =>
    by_cases hb : b = g.userName
    · subst hb
      rw [if_pos ⟨rfl, rfl⟩]
      exact object_dictionary_single _ _
    · simp [hb, User.inserted, Registration.user, SessionStore.newUser, object_dictionary, Ne.symm hb]
  | _ => simp [User.inserted, object]

/-- With no node of that name yet, links stay two-sided. -/
theorem Registration.paired_calls {g : Registration} (hg : g.Valid) {db : Database}
    (hnew : db.node g.userName = Tree.empty) (h : Paired db) : Paired (db.applyAll g.calls) := by
  have hout : ∀ f b, db.entry f g.userName b = Tree.empty := by
    intro f b
    rw [Database.entry_eq_node, hnew, Tree.sub_empty]
  have hin : ∀ f b, db.entry f b g.userName = Tree.empty := by
    intro f b
    have hb := h f b g.userName
    simpa [hout] using hb
  have hother : ∀ f a b, a ≠ g.userName → (db.applyAll g.calls).entry f a b = db.entry f a b := by
    intro f a b ha
    rw [Database.entry_eq_node, g.node_calls hg db ha, ← Database.entry_eq_node]
  intro f a b
  by_cases ha : a = g.userName <;> by_cases hb : b = g.userName
  · subst ha
    rw [hb, g.entry_calls hg, g.entry_calls hg]
    cases f <;> simp [Field.mirror]
  · subst ha
    rw [g.entry_calls hg, hother _ _ _ hb, hin]
    simp [hb]
  · subst hb
    rw [g.entry_calls hg, hother _ _ _ ha, hin]
    simp [ha]
  · rw [hother _ _ _ ha, hother _ _ _ hb]
    exact h f a b

/-- **A registration damages nobody exactly when nothing is stored under its name**: in every
database, for every valid name and every id that was not used before. -/
theorem signUp_undamaged_iff {g : Registration} (hg : g.Valid) (s : SessionStore) (db : Database)
    (hid : Unused db g.uuid) :
    Undamaged db (g.signUp true s db).db ↔ db.node g.userName = Tree.empty := by
  rw [Registration.signUp_created hg]
  constructor
  · intro h
    by_contra hne
    have hsame := h.nodes g.userName hne
    have hself : (db.applyAll g.calls).entry .relationships g.userName g.userName = .string g.uuid := by
      rw [g.entry_calls hg]
      simp
    rw [Database.entry_eq_node, hsame, ← Database.entry_eq_node] at hself
    exact hid.value _ (congrArg (fun n => Tree.leaf n []) hself)
  · intro hnew
    have hnode : ∀ n, db.node n ≠ Tree.empty → (db.applyAll g.calls).node n = db.node n := by
      intro n hn
      refine g.node_calls hg db ?_
      rintro rfl
      exact hn hnew
    refine ⟨hnode, fun f a b ha _ => ?_, fun id hne => ?_, g.paired_calls hg hnew⟩
    · rw [Database.entry_eq_node, hnode a ha, ← Database.entry_eq_node]
    · rw [Registration.record_calls hg, if_neg]
      rintro rfl
      exact hne hid.record

/-- Somebody with an email of their own, under a name that is free. -/
def carol : Registration := ⟨⟨"uid-c", "carol@mail", none⟩, "carol", "Carol", "Kane", "C0", none⟩

/-- Carol signs up after Alice. -/
theorem signUp_undamaged_carol :
    Undamaged (registered [alice]) (carol.signUp true .initial (registered [alice])).db := by
  have halice : alice.Valid := by decide
  have hdb : registered [alice] = Database.applyAll Tree.empty alice.calls := rfl
  have hunused : Unused (registered [alice]) carol.uuid := by
    refine ⟨fun p hp => ?_, ?_⟩
    · have hall : ∀ q ∈ (registered [alice]).support, (registered [alice]).leaf q ≠ some (.string "C0") := by
        decide +kernel
      exact hall p (((registered [alice]).mem_support p).2 (by rw [hp]; rfl)) hp
    · rw [hdb, Registration.record_calls halice, if_neg (by decide)]
      exact Tree.sub_empty _
  refine (signUp_undamaged_iff (g := carol) (by decide) .initial (registered [alice]) hunused).2 ?_
  rw [hdb, alice.node_calls halice _ (by decide)]
  exact Tree.sub_empty _

/-- Alice and Bob, in a relationship. -/
def aliceWithBob : Database :=
  (registered aliceAndBob).applyAll
    [.addPending "bob" "alice" "R1", .removeRequest "alice" "bob", .addRelationship "alice" "bob" "R1"]

/-- Somebody with an email of their own, under Alice's name. -/
def secondAlice : Registration := { carol with userName := "alice" }

/-- The second Alice replaces the node of the first: her entry for Bob is gone, his for her is not. -/
theorem signUp_damages_alice :
    Paired aliceWithBob ∧ ¬ Paired (secondAlice.signUp true .initial aliceWithBob).db ∧
      ¬ Undamaged aliceWithBob (secondAlice.signUp true .initial aliceWithBob).db := by
  have hn : IsComponent "alice" ∧ IsComponent "bob" := by decide
  have hg : secondAlice.Valid := by decide
  have hpaired : Paired aliceWithBob := by
    refine (mirrored_applyAll ?_ (registered_mirrored validRegistrations_aliceAndBob)).paired
    simp [Call.ValidNames, Call.IsInsert, hn]
  have hadded : (Call.addRelationship "alice" "bob" "R1").Issued := ⟨hn, by decide +kernel⟩
  have hbob : aliceWithBob.entry .relationships "bob" "alice" = Node.string "R1" :=
    (Database.entry_apply_half hadded rfl _ _ _ _).trans (if_pos (by decide))
  have hbroken : ¬ Paired (secondAlice.signUp true .initial aliceWithBob).db := by
    rw [Registration.signUp_created hg]
    intro h
    have hkept : (aliceWithBob.applyAll secondAlice.calls).entry .relationships "bob" "alice" ≠ Tree.empty := by
      rw [Database.entry_eq_node, secondAlice.node_calls hg _ (by decide), ← Database.entry_eq_node, hbob]
      exact Node.string_ne_empty _
    exact (h .relationships "bob" "alice").1 hkept
      ((secondAlice.entry_calls hg _ _ _).trans (if_neg (by decide)))
  exact ⟨hpaired, hbroken, fun h => hbroken (h.paired hpaired)⟩

end Anissagram
