import Anissagram.SessionStore
import Mathlib.Data.List.Induction
/-
# The database `insertUser` leaves behind

`registered gs` is the database after `insertUser` (`DatabaseManager.swift:27`) of a list of new
users, each followed by the upload of its device token where the token request succeeded. Its only
entries are the self entries: `users/<name>/relationships/<name>` and the record
`relationships/<uuid>` with users `[name, name]`.
-/

namespace Anissagram

open PathTree NSMutableDictionary

/-- What `signUp` knows when it calls `insertUser`. -/
structure Registration where
  auth : AuthUser
  userName : String
  firstName : String
  lastName : String
  /-- The drawn id of the relationship of the user with itself. -/
  uuid : String
  /-- The device token, if the token request succeeded. -/
  token : Option String

namespace Registration

def user (g : Registration) : User :=
  SessionStore.newUser g.auth g.userName g.firstName g.lastName g.uuid

def calls (g : Registration) : List Call :=
  .insertUser g.user :: (g.token.map (Call.uploadDeviceToken g.userName)).toList

/-- `relationshipBody` (:37). -/
def selfRecord (userName : String) : Node :=
  .dictionary [
    ("users", .array [.string userName, .string userName]),
    ("data", .string "NONE")]

/-- Name and drawn id are keys of the database. -/
def Valid (g : Registration) : Prop := isValidKey g.userName ∧ isValidKey g.uuid

instance (g : Registration) : Decidable g.Valid :=
  inferInstanceAs (Decidable (isValidKey g.userName ∧ isValidKey g.uuid))

end Registration

def registered (gs : List Registration) : Database :=
  Database.applyAll Tree.empty (gs.flatMap Registration.calls)

/-- A finite set of distinct valid user names. -/
structure ValidRegistrations (gs : List Registration) : Prop where
  valid : ∀ g ∈ gs, g.Valid
  names : (gs.map Registration.userName).Nodup

/-! ## One `insertUser` -/

theorem pathComponents_user {a : String} (ha : IsComponent a) :
    pathComponents s!"users/{a}/" = ["users", a] := by
  have hu : isValidKey "users" := by decide
  have h : s!"users/{a}/" = "users" ++ "/" ++ a ++ "/" ++ "" := by
    rw [String.append_empty]
    rfl
  rw [h, pathComponents_append_slash, pathComponents_append_slash, hu.pathComponents, ha.pathComponents]
  rfl

theorem object_dictionary_single (k : String) (n : Node) :
    object (.dictionary [(k, n)]) k = n := by
  simp [object_dictionary]

/-- The dictionary `f` that `insertUser` stores. -/
def User.inserted (user : User) : Field → NSMutableDictionary
  | .relationships => user.relationships
  | _ => Tree.empty

/-- `userBody` (:30). -/
def User.body (user : User) : Node :=
  .dictionary [
    ("first_name", .string user.firstName),
    ("last_name", .string user.lastName),
    ("relationships", user.relationships)]

theorem User.object_body (user : User) (f : Field) : object user.body f.key = user.inserted f := by
  cases f <;> simp [body, object_dictionary, Field.key, inserted]

theorem User.object_body_first_name (user : User) :
    object user.body "first_name" = .string user.firstName := by
  simp [body, object_dictionary]

theorem User.object_body_last_name (user : User) :
    object user.body "last_name" = .string user.lastName := by
  simp [body, object_dictionary]

theorem User.object_body_other (user : User) {k : String} (hfirst : k ≠ "first_name") (hlast : k ≠ "last_name")
    (hrel : k ≠ "relationships") : object user.body k = Tree.empty := by
  simp [body, object_dictionary, hfirst.symm, hlast.symm, hrel.symm]

/-- The node `insertUser` stores, and a record somewhere below `relationships`. -/
theorem Call.Issued.insertUser_write {user : User} (hi : (Call.insertUser user).Issued) :
    ∃ p record, (Call.insertUser user).write =
      some [(["users", user.userName], user.body), ("relationships" :: p, record)] := by
  obtain ⟨w, hw⟩ := Option.isSome_iff_exists.1 hi.write
  have hsome := hw
  simp only [Call.write, DatabaseManager.insertUser, Option.bind_eq_bind, Option.bind_eq_some_iff] at hw
  obtain ⟨uuid, -, hw⟩ := hw
  obtain ⟨-, rfl⟩ := updateChildValues_eq_some.1 (Option.bind_eq_some_iff.2 hw)
  refine ⟨pathComponents uuid, Registration.selfRecord user.userName, ?_⟩
  rw [hsome]
  simp only [writesOf, List.map_cons, List.map_nil, Option.getD_some, pathComponents_record,
    pathComponents_user hi.names]
  rfl

/-- Below the node of a user, `insertUser` replaces everything for its own user and changes nothing
for any other. -/
theorem Call.Issued.insertUser_sub {user : User} (hi : (Call.insertUser user).Issued) (db : Database)
    (a k : String) :
    (db.apply (.insertUser user)).sub ["users", a, k] =
      if a = user.userName then object user.body k else db.sub ["users", a, k] := by
  obtain ⟨p, record, hw⟩ := hi.insertUser_write
  unfold Database.apply
  rw [hw, Option.getD_some, Tree.update_cons, Tree.update_cons, Tree.update_nil,
    Tree.sub_set_apart _ _ (apart_cons_of_ne _ _ (by decide))]
  split
  · rename_i h
    subst h
    rw [show ["users", user.userName, k] = ["users", user.userName] ++ [k] from rfl, ← Tree.sub_sub,
      Tree.sub_set_self]
    rfl
  · rename_i h
    have hap : Apart ["users", user.userName] ["users", a] :=
      apart_of_length_eq (by simp) (by simpa using Ne.symm h)
    exact Tree.sub_set_apart _ _ (hap.symm.append_left [k]).symm

theorem Database.dict_insertUser {user : User} (hi : (Call.insertUser user).Issued) (db : Database)
    (f : Field) (a : String) :
    (db.apply (.insertUser user)).dict f a =
      if a = user.userName then user.inserted f else db.dict f a := by
  rw [← user.object_body f]
  exact hi.insertUser_sub db a f.key

theorem Registration.hasValidKeys_body {g : Registration} (hg : g.Valid) : hasValidKeys g.user.body := by
  have hk : isValidKey "first_name" ∧ isValidKey "last_name" ∧ isValidKey "relationships" := by decide
  have hself : hasValidKeys (.dictionary [(g.userName, .string g.uuid)]) :=
    hasValidKeys_dictionary (by simpa using hg.1)
  exact hasValidKeys_dictionary (by simpa using ⟨hk.1, hk.2.1, hk.2.2, hself⟩)

theorem Registration.hasValidKeys_selfRecord (n : String) : hasValidKeys (selfRecord n) := by
  have hk : isValidKey "users" ∧ isValidKey "data" := by decide
  exact hasValidKeys_dictionary (by simpa using ⟨⟨hk.1, hasValidKeys_users n n⟩, hk.2⟩)

theorem Registration.write_insertUser {g : Registration} (hg : g.Valid) :
    (Call.insertUser g.user).write =
      some [(["users", g.userName], g.user.body), (["relationships", g.uuid], selfRecord g.userName)] := by
  have hid : (object g.user.relationships g.user.userName).asString? = some g.uuid := by
    rw [show g.user.relationships = .dictionary [(g.userName, .string g.uuid)] from rfl,
      show g.user.userName = g.userName from rfl, object_dictionary_single]
    rfl
  have hw : writesOf [(s!"users/{g.userName}/", some g.user.body),
      (s!"relationships/{g.uuid}", some (selfRecord g.userName))] =
      [(["users", g.userName], g.user.body), (["relationships", g.uuid], selfRecord g.userName)] := by
    simp only [writesOf, List.map_cons, List.map_nil, Option.getD_some, pathComponents_record,
      pathComponents_user hg.1.isComponent, hg.2.pathComponents]
  have hacc : Accepted [(s!"users/{g.userName}/", some g.user.body),
      (s!"relationships/{g.uuid}", some (selfRecord g.userName))] := by
    have hk : isValidKey "users" ∧ isValidKey "relationships" := by decide
    unfold Accepted
    rw [hw]
    refine ⟨?_, ?_⟩
    · simpa using ⟨⟨⟨hk.1, hg.1⟩, hasValidKeys_body hg⟩, ⟨hk.2, hg.2⟩, hasValidKeys_selfRecord _⟩
    · simpa using apart_cons_of_ne [g.userName] [g.uuid] (by decide)
  have h := updateChildValues_eq_some.2 ⟨hacc, hw.symm⟩
  simp only [Call.write, DatabaseManager.insertUser, hid, Option.bind_eq_bind, Option.bind_some]
  exact h

theorem Registration.issued_insertUser {g : Registration} (hg : g.Valid) :
    (Call.insertUser g.user).Issued :=
  ⟨hg.1.isComponent, by rw [g.write_insertUser hg]; rfl⟩

theorem Registration.record_insertUser {g : Registration} (hg : g.Valid) (db : Database) (id : String) :
    (db.apply (.insertUser g.user)).record id =
      if id = g.uuid then selfRecord g.userName else db.record id := by
  unfold Database.apply Database.record
  rw [g.write_insertUser hg, Option.getD_some, Tree.update_cons, Tree.update_cons, Tree.update_nil]
  split
  · rename_i h
    rw [h, Tree.sub_set_self]
  · rename_i h
    rw [Tree.sub_set_apart, Tree.sub_set_apart _ _ (apart_cons_of_ne _ _ (by decide))]
    exact apart_of_length_eq (by simp) (by simpa using Ne.symm h)

/-! ## A device token -/

theorem Call.write_uploadDeviceToken {u : String} (hu : isValidKey u) (t : String) :
    (Call.uploadDeviceToken u t).write = some [(["users", u, "deviceID"], .string t)] := by
  have hd : isValidKey "deviceID" := by decide
  simp [Call.write, DatabaseManager.uploadDeviceToken, child_of_isValidKey hu, child_of_isValidKey hd]

/-- Whatever the name is, the token goes below its node, or the SDK throws. -/
theorem Call.write_uploadDeviceToken_cases (u t : String) :
    (Call.uploadDeviceToken u t).write = none ∨
    (Call.uploadDeviceToken u t).write = some [("users" :: pathComponents u ++ ["deviceID"], .string t)] := by
  have hd : isValidKey "deviceID" := by decide
  simp only [Call.write, DatabaseManager.uploadDeviceToken, child]
  split
  · exact Or.inr (by simp [hd.isValidPathString, hd.pathComponents])
  · exact Or.inl rfl

theorem Call.issued_uploadDeviceToken {u : String} (hu : isValidKey u) (t : String) :
    (Call.uploadDeviceToken u t).Issued :=
  ⟨hu.isComponent, by rw [Call.write_uploadDeviceToken hu]; rfl⟩

/-! ## One registration -/

namespace Registration

theorem sub_calls {g : Registration} (hg : g.Valid) (db : Database) (a : String) {k : String}
    (hk : k ≠ "deviceID") :
    (db.applyAll g.calls).sub ["users", a, k] =
      if a = g.userName then object g.user.body k else db.sub ["users", a, k] := by
  have hinsert := (g.issued_insertUser hg).insertUser_sub db a k
  cases ht : g.token with
  | none =>
    simp only [calls, ht, Option.map_none, Option.toList_none, Database.applyAll_cons,
      Database.applyAll_nil]
    exact hinsert
  | some t =>
    simp only [calls, ht, Option.map_some, Option.toList_some, Database.applyAll_cons,
      Database.applyAll_nil]
    rw [← show g.user.userName = g.userName from rfl, ← hinsert]
    exact Tree.sub_update_apart _
      ((Call.issued_uploadDeviceToken hg.1 t).apart_dict (fun h => h) rfl a hk)

theorem dict_calls {g : Registration} (hg : g.Valid) (db : Database) (f : Field) (a : String) :
    (db.applyAll g.calls).dict f a = if a = g.userName then g.user.inserted f else db.dict f a := by
  rw [← g.user.object_body f]
  exact g.sub_calls hg db a (by cases f <;> decide)

theorem record_calls {g : Registration} (hg : g.Valid) (db : Database) (id : String) :
    (db.applyAll g.calls).record id = if id = g.uuid then selfRecord g.userName else db.record id := by
  cases ht : g.token with
  | none => simp [calls, ht, g.record_insertUser hg]
  | some t =>
    have hi := Call.issued_uploadDeviceToken hg.1 t
    simp only [calls, ht, Option.map_some, Option.toList_some, Database.applyAll_cons,
      Database.applyAll_nil]
    rw [Database.record_apply hi (fun h => h) (by simp [Call.record?]), g.record_insertUser hg]
    rfl

end Registration

/-! ## All of them -/

theorem Database.applyAll_append (db : Database) (cs ds : List Call) :
    db.applyAll (cs ++ ds) = (db.applyAll cs).applyAll ds := by
  simp [applyAll, List.foldl_append]

theorem registered_append (gs : List Registration) (g : Registration) :
    registered (gs ++ [g]) = (registered gs).applyAll g.calls := by
  simp [registered, Database.applyAll_append]

theorem ValidRegistrations.init {gs : List Registration} {g : Registration}
    (h : ValidRegistrations (gs ++ [g])) :
    ValidRegistrations gs ∧ g.Valid ∧ ∀ x ∈ gs, x.userName ≠ g.userName := by
  have hn := h.names
  rw [List.map_append, List.nodup_append] at hn
  refine ⟨⟨fun x hx => h.valid x (List.mem_append_left _ hx), hn.1⟩, h.valid g (by simp), ?_⟩
  intro x hx
  exact hn.2.2 _ (List.mem_map_of_mem hx) _ (by simp)

/-- **What the registered users have**: what `insertUser` stored for them, and others have nothing. -/
theorem registered_sub {gs : List Registration} (h : ValidRegistrations gs) {k : String} (hk : k ≠ "deviceID") :
    (∀ g ∈ gs, (registered gs).sub ["users", g.userName, k] = object g.user.body k) ∧
    ∀ a, (∀ g ∈ gs, g.userName ≠ a) → (registered gs).sub ["users", a, k] = Tree.empty := by
  induction gs using List.reverseRecOn with
  | nil => exact ⟨by simp, fun a _ => rfl⟩
  | append_singleton gs g ih =>
    obtain ⟨hgs, hg, hnew⟩ := h.init
    obtain ⟨ih1, ih2⟩ := ih hgs
    rw [registered_append]
    constructor
    · intro x hx
      rw [Registration.sub_calls hg _ _ hk]
      rcases List.mem_append.1 hx with hx | hx
      · rw [if_neg (hnew x hx), ih1 x hx]
      · rw [List.mem_singleton] at hx
        rw [hx, if_pos rfl]
    · intro a ha
      rw [Registration.sub_calls hg _ _ hk, if_neg (Ne.symm (ha g (by simp)))]
      exact ih2 a fun x hx => ha x (List.mem_append_left _ hx)

/-- **The dictionaries of the registered users**: a self entry each, and nothing else. -/
theorem registered_dict {gs : List Registration} (h : ValidRegistrations gs) :
    (∀ g ∈ gs, ∀ f, (registered gs).dict f g.userName = g.user.inserted f) ∧
    ∀ a, (∀ g ∈ gs, g.userName ≠ a) → ∀ f, (registered gs).dict f a = Tree.empty := by
  have hk : ∀ f : Field, f.key ≠ "deviceID" := by decide
  constructor
  · intro g hg f
    rw [← g.user.object_body f]
    exact (registered_sub h (hk f)).1 g hg
  · intro a ha f
    exact (registered_sub h (hk f)).2 a ha

/-- Between different users a new database has no entries. -/
theorem registered_entry_ne {gs : List Registration} (h : ValidRegistrations gs) (f : Field)
    {a b : String} (hab : a ≠ b) : (registered gs).entry f a b = Tree.empty := by
  unfold Database.entry
  by_cases ha : ∃ g ∈ gs, g.userName = a
  · obtain ⟨g, hg, rfl⟩ := ha
    rw [(registered_dict h).1 g hg]
    cases f with
    | relationships =>
      simp [User.inserted, Registration.user, SessionStore.newUser, object_dictionary, hab]
    | _ => rfl
  · push Not at ha
    rw [(registered_dict h).2 a ha]
    rfl

/-- The self entries. -/
theorem registered_entry_self {gs : List Registration} (h : ValidRegistrations gs) (f : Field)
    (a : String) :
    (registered gs).entry f a a =
      match f, gs.find? fun g => g.userName = a with
      | .relationships, some g => .string g.uuid
      | _, _ => Tree.empty := by
  unfold Database.entry
  cases hf : gs.find? fun g => g.userName = a with
  | none =>
    have ha : ∀ g ∈ gs, g.userName ≠ a := by simpa using hf
    rw [(registered_dict h).2 a ha]
    cases f <;> rfl
  | some g =>
    have hg : g.userName = a := by simpa using List.find?_some hf
    subst hg
    rw [(registered_dict h).1 g (List.mem_of_find?_eq_some hf)]
    cases f with
    | relationships => exact object_dictionary_single _ _
    | _ => rfl

/-- The records of a new database are those of the users with themselves. -/
theorem registered_record {gs : List Registration} (h : ValidRegistrations gs) (id : String) :
    (registered gs).record id = Tree.empty ∨
      ∃ g ∈ gs, g.uuid = id ∧ (registered gs).record id = Registration.selfRecord g.userName := by
  induction gs using List.reverseRecOn with
  | nil => exact Or.inl rfl
  | append_singleton gs g ih =>
    obtain ⟨hgs, hg, -⟩ := h.init
    rw [registered_append, Registration.record_calls hg]
    split
    · rename_i hid
      exact Or.inr ⟨g, by simp, hid.symm, rfl⟩
    · rcases ih hgs with ih | ⟨x, hx, hxid, ih⟩
      · exact Or.inl ih
      · exact Or.inr ⟨x, List.mem_append_left _ hx, hxid, ih⟩

/-- With distinct ids every registered user keeps its record. -/
theorem registered_record_uuid {gs : List Registration} (h : ValidRegistrations gs)
    (hu : (gs.map Registration.uuid).Nodup) {g : Registration} (hg : g ∈ gs) :
    (registered gs).record g.uuid = Registration.selfRecord g.userName := by
  induction gs using List.reverseRecOn with
  | nil => simp at hg
  | append_singleton gs x ih =>
    obtain ⟨hgs, hx, -⟩ := h.init
    rw [List.map_append, List.nodup_append] at hu
    rw [registered_append, Registration.record_calls hx]
    rcases List.mem_append.1 hg with hg | hg
    · rw [if_neg (hu.2.2 _ (List.mem_map_of_mem hg) _ (by simp)), ih hgs hu.1 hg]
    · rw [List.mem_singleton] at hg
      rw [hg, if_pos rfl]

/-- A place above entries and records. -/
def IsAbove (q : List String) : Prop :=
  q.length ≤ 1 ∨ (∃ a, q = ["users", a]) ∨ ∃ a f, q = ["users", a, Field.key f]

theorem User.leaf_body (user : User) (hr : user.relationships.leaf [] = none) :
    user.body.leaf [] = none ∧ ∀ f : Field, user.body.leaf [f.key] = none := by
  refine ⟨by simp [body, Node.dictionary, Tree.leaf_set], fun f => ?_⟩
  have h := congrArg (fun t => Tree.leaf t []) (user.object_body f)
  simp only [object, Tree.leaf_sub, List.append_nil] at h
  rw [h]
  cases f with
  | relationships => exact hr
  | _ => rfl

/-- Nothing is stored in the place of a user, a dictionary or one of the two tables. -/
theorem registered_leaf_above {gs : List Registration} (h : ValidRegistrations gs) {q : List String}
    (hq : IsAbove q) : (registered gs).leaf q = none := by
  induction gs using List.reverseRecOn with
  | nil => rfl
  | append_singleton gs g ih =>
    obtain ⟨hgs, hg, -⟩ := h.init
    have hbody := g.user.leaf_body (by
      simp [Registration.user, SessionStore.newUser, Node.dictionary, Tree.leaf_set])
    have hinsert : ((registered gs).apply (.insertUser g.user)).leaf q = none := by
      refine Tree.leaf_update_none (ih hgs) ?_
      rw [g.write_insertUser hg]
      simp only [Option.getD_some, List.mem_cons, List.not_mem_nil, or_false]
      rintro w (rfl | rfl) hw
      · rcases hq with hq | ⟨a, rfl⟩ | ⟨a, f, rfl⟩
        · exact absurd (hw.length_le.trans hq) (by simp)
        · exact hbody.1
        · exact hbody.2 f
      · rcases hq with hq | ⟨a, rfl⟩ | ⟨a, f, rfl⟩
        · exact absurd (hw.length_le.trans hq) (by simp)
        · simp [List.cons_prefix_cons] at hw
        · simp [List.cons_prefix_cons] at hw
    rw [registered_append, Registration.calls, Database.applyAll_cons]
    cases g.token with
    | none => exact hinsert
    | some t =>
      refine Tree.leaf_update_none hinsert ?_
      rw [Call.write_uploadDeviceToken hg.1]
      simp only [Option.getD_some, List.mem_singleton]
      rintro w rfl hw
      rcases hq with hq | ⟨a, rfl⟩ | ⟨a, f, rfl⟩
      · exact absurd (hw.length_le.trans hq) (by simp)
      · simp [List.cons_prefix_cons] at hw
      · cases f <;> simp [List.cons_prefix_cons, Field.key] at hw

/-- A new database is two-sided, entry by entry. -/
theorem registered_mirrored {gs : List Registration} (hg : ValidRegistrations gs) :
    Mirrored (registered gs) := by
  intro f a b
  by_cases hab : a = b
  · subst hab
    cases f with
    | relationships => rfl
    | _ => rw [registered_entry_self hg, registered_entry_self hg]; rfl
  · rw [registered_entry_ne hg f hab, registered_entry_ne hg f.mirror (Ne.symm hab)]

/-- The session of a registered user that has just loaded its node. -/
def Registration.session (g : Registration) (db : Database) : SessionStore :=
  { SessionStore.initial with
    session := some { g.user with
      relationships := db.dict .relationships g.userName
      requests := db.dict .requests g.userName
      pending := db.dict .pending g.userName } }

/-! ## Two users -/

/-- The users of the concrete runs in later modules. -/
def alice : Registration := ⟨⟨"uid-a", "alice@mail", none⟩, "alice", "Alice", "Liddell", "A0", none⟩
def bob : Registration := ⟨⟨"uid-b", "bob@mail", none⟩, "bob", "Bob", "Moran", "B0", none⟩

def aliceAndBob : List Registration := [alice, bob]

theorem validRegistrations_aliceAndBob : ValidRegistrations aliceAndBob :=
  ⟨by decide, by decide⟩

end Anissagram
