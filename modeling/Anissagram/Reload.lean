import Anissagram.Registered
/-
# Storing a user and loading it again

`signIn` (`SessionStore.swift:64`) and `setupUser` (:104) take a user out of a snapshot of its node. A
dictionary whose keys are all integers, the largest below twice their number, comes out of a snapshot
as an array: the forced cast of `relationships` then stops the process, in spite of the comment
`values always are populated`, and the other two dictionaries read as empty.

`reload_iff`: users come back as they were stored exactly when none of their dictionaries is exported
as an array.
-/

namespace Anissagram

open PathTree NSMutableDictionary SessionStore

/-- What the node of a registered user keeps through every link update. -/
structure Stored (g : Registration) (db : Database) : Prop where
  firstName : db.sub ["users", g.userName, "first_name"] = Node.string g.firstName
  lastName : db.sub ["users", g.userName, "last_name"] = Node.string g.lastName
  self : db.entry .relationships g.userName g.userName = Node.string g.uuid
  inner : ∀ f, (db.dict f g.userName).leaf [] = none

theorem stored_calls {g : Registration} (hg : g.Valid) (db : Database) : Stored g (db.applyAll g.calls) where
  firstName := by
    rw [g.sub_calls hg db _ (by decide), if_pos rfl]
    exact g.user.object_body_first_name
  lastName := by
    rw [g.sub_calls hg db _ (by decide), if_pos rfl]
    exact g.user.object_body_last_name
  self := by
    unfold Database.entry
    rw [g.dict_calls hg, if_pos rfl]
    exact object_dictionary_single _ _
  inner f := by
    rw [g.dict_calls hg, if_pos rfl]
    cases f with
    | relationships => simp [User.inserted, Registration.user, newUser, Node.dictionary, Tree.leaf_set]
    | _ => rfl

/-- No update writes the entry of a user for itself: its dictionary literal would have a key twice. -/
theorem Call.Issued.sets_self {c : Call} (hi : c.Issued) (u : String) : c.sets .relationships u u = none := by
  cases hh : c.half? with
  | none => simp [Call.sets, hh]
  | some h =>
    have hne := Half.mirror_elsewhere (hi.link hh).2
    rw [Call.sets, hh]
    refine if_neg ?_
    rintro (⟨hf, ho, hn⟩ | ⟨hf, ho, hn⟩)
    · exact hne ⟨by simp [Half.mirror, ← hf, Field.mirror], by simp [Half.mirror, ← ho, ← hn]⟩
    · have hfield : h.field = .relationships := by
        rw [← h.field.mirror_mirror, show h.field.mirror = .relationships from hf.symm]
        rfl
      exact hne ⟨by simp [Half.mirror, hfield, Field.mirror], hn.symm.trans ho⟩

/-- A call under names that are single components which does not register `u` again. -/
structure Call.Spares (c : Call) (u : String) : Prop where
  names : c.ValidNames
  others : ∀ user, c = .insertUser user → user.userName ≠ u

theorem Stored.apply {g : Registration} {db : Database} (h : Stored g db) {c : Call} (hc : c.Spares g.userName) :
    Stored g (db.apply c) := by
  by_cases hw : c.write.isSome
  · have hi : c.Issued := ⟨hc.names, hw⟩
    by_cases hins : c.IsInsert
    · cases c with
      | insertUser user =>
        have hne := Ne.symm (hc.others user rfl)
        have hsub : ∀ k, (db.apply (.insertUser user)).sub ["users", g.userName, k] = db.sub ["users", g.userName, k] :=
          fun k => by rw [hi.insertUser_sub, if_neg hne]
        have hdict : ∀ f, (db.apply (.insertUser user)).dict f g.userName = db.dict f g.userName := fun f => hsub f.key
        refine ⟨by rw [hsub, h.firstName], by rw [hsub, h.lastName], ?_, fun f => by rw [hdict, h.inner]⟩
        unfold Database.entry
        rw [hdict]
        exact h.self
      | _ => exact absurd hins id
    · constructor
      · rw [Database.sub_apply hi hins _ _ (by decide) (by decide), h.firstName]
      · rw [Database.sub_apply hi hins _ _ (by decide) (by decide), h.lastName]
      · rw [Database.entry_apply hi hins, hi.sets_self, h.self]
      · intro f
        rw [Database.dict_apply hi hins, Call.onDict]
        cases c.edit f g.userName with
        | none => exact h.inner f
        | some e => simp [store, Tree.leaf_set, h.inner f]
  · rw [Option.not_isSome_iff_eq_none] at hw
    simpa [Database.apply, hw] using h

theorem Stored.applyAll {g : Registration} {cs : List Call} (hcs : ∀ c ∈ cs, c.Spares g.userName) {db : Database}
    (h : Stored g db) : Stored g (db.applyAll cs) := by
  induction cs generalizing db with
  | nil => exact h
  | cons c cs ih =>
    rw [Database.applyAll_cons]
    exact ih (fun x hx => hcs x (List.mem_cons_of_mem _ hx)) (h.apply (hcs c List.mem_cons_self))

/-! ## Loading -/

/-- A handler ended with the session of `u`, and its three dictionaries are those of the database. -/
def Reloads (e : Effect Request SessionStore) (db : Database) (u : String) : Prop :=
  ∃ s ∈ e.value, ∃ user ∈ s.session, user.userName = u ∧ ∀ f, user.dict f = db.dict f u

section
variable {g : Registration} {db : Database}

/-- The snapshot of a user's node is a dictionary. -/
theorem Stored.retrieved (h : Stored g db) :
    SessionStore.retrieved (db.sub ["users", g.userName]) = (some (db.sub ["users", g.userName]), false) := by
  have hkey : (db.sub ["users", g.userName]).sub ["first_name"] ≠ Tree.empty := by
    rw [Tree.sub_sub]
    exact fun he => Node.string_ne_empty _ (h.firstName.symm.trans he)
  rw [SessionStore.retrieved, Node.asDictionary?_of_key hkey (by decide +kernel)]

/-- Decoding fails with the cast of `relationships` only. -/
theorem Stored.decodeUser (h : Stored g db) (auth : AuthUser) :
    SessionStore.decodeUser auth g.userName (some (db.sub ["users", g.userName])) =
      (db.dict .relationships g.userName).asDictionary?.map fun relationships =>
        { uid := auth.uid, email := auth.email, displayName := auth.displayName
          userName := g.userName, firstName := g.firstName, lastName := g.lastName
          relationships := relationships
          requests := exported .requests (db.dict .requests g.userName)
          pending := exported .pending (db.dict .pending g.userName) } := by
  have hsub : ∀ k, object (db.sub ["users", g.userName]) k = db.sub ["users", g.userName, k] := fun k => by
    rw [object, Tree.sub_sub]
    rfl
  simp only [SessionStore.decodeUser, hsub, h.firstName, h.lastName, Node.asString?_string, Option.bind_eq_bind,
    Option.bind_some]
  rw [show db.sub ["users", g.userName, "relationships"] = db.dict .relationships g.userName from rfl]
  cases (db.dict .relationships g.userName).asDictionary? with
  | none => rfl
  | some relationships => rfl

/-- The relationships are never empty, so only an array stops the cast. -/
theorem Stored.asDictionary? (h : Stored g db) :
    (db.dict .relationships g.userName).asDictionary? =
      if (db.dict .relationships g.userName).exportsArray then none else some (db.dict .relationships g.userName) := by
  have hkeys : (db.dict .relationships g.userName).keys ≠ ∅ := by
    have hself : g.userName ∈ (db.dict .relationships g.userName).keys := by
      rw [Tree.mem_keys]
      exact fun he => Node.string_ne_empty _ (h.self.symm.trans he)
    exact fun he => by rw [he] at hself; cases hself
  simp [Node.asDictionary?, hkeys]

/-- What both handlers end with, on a user found. -/
theorem Stored.reloads_iff (h : Stored g db) (auth : AuthUser) {e : Effect Request SessionStore} {s : SessionStore}
    (he : e.value = (SessionStore.decodeUser auth g.userName (some (db.sub ["users", g.userName]))).map
      fun user => { s with session := some user }) :
    Reloads e db g.userName ↔ ∀ f, ¬ (db.dict f g.userName).exportsArray := by
  rw [h.decodeUser, h.asDictionary?] at he
  have hrest := fun f => Node.asDictionary?_getD_iff (h.inner f)
  unfold Reloads
  rw [he]
  by_cases harray : (db.dict .relationships g.userName).exportsArray
  · simpa [harray] using ⟨.relationships, harray⟩
  · simp only [harray, if_false, Option.map_some, Option.mem_def, Option.some.injEq, exists_eq_left', true_and]
    constructor
    · intro hd f
      cases f with
      | relationships => exact harray
      | pending => exact (hrest .pending).1 (hd .pending)
      | requests => exact (hrest .requests).1 (hd .requests)
    · intro hno f
      cases f with
      | relationships => rfl
      | pending => exact (hrest .pending).2 (hno .pending)
      | requests => exact (hrest .requests).2 (hno .requests)

theorem Stored.reloads_signIn (h : Stored g db) (auth : AuthUser) (s : SessionStore) :
    let found := SessionStore.retrieved (db.sub ["users", g.userName])
    Reloads (s.signInCompletion auth g.userName found.1 found.2) db g.userName ↔
      ∀ f, ¬ (db.dict f g.userName).exportsArray := by
  refine h.reloads_iff auth (s := s) ?_
  rw [h.retrieved, signInCompletion]
  cases SessionStore.decodeUser auth g.userName (some (db.sub ["users", g.userName])) <;> simp

theorem Stored.reloads_setupUser (h : Stored g db) (auth : AuthUser) (s : SessionStore) :
    let found := SessionStore.retrieved (db.sub ["users", g.userName])
    Reloads (s.setupUserCompletion auth g.userName found.1 found.2) db g.userName ↔
      ∀ f, ¬ (db.dict f g.userName).exportsArray := by
  refine h.reloads_iff auth (s := s) ?_
  rw [h.retrieved, setupUserCompletion]
  cases SessionStore.decodeUser auth g.userName (some (db.sub ["users", g.userName])) <;> simp

/-- Relationships exported as an array stop the handler of `signIn`. -/
theorem Stored.stops (h : Stored g db) (harray : (db.dict .relationships g.userName).exportsArray) (auth : AuthUser)
    (s : SessionStore) :
    let found := SessionStore.retrieved (db.sub ["users", g.userName])
    (s.signInCompletion auth g.userName found.1 found.2).value = none := by
  have hcast := h.decodeUser auth
  rw [h.asDictionary?, if_pos harray] at hcast
  simp [h.retrieved, signInCompletion, hcast]

end

/-- **Loading gives back what was stored exactly when no dictionary is exported as an array**: for every
user registered at some point, whatever was stored before and whatever updates and registrations of
others came after, through `signIn` and through `setupUser`. -/
theorem reload_iff {g : Registration} (hg : g.Valid) (before : Database) {cs : List Call}
    (hcs : ∀ c ∈ cs, c.Spares g.userName) (auth : AuthUser) (s : SessionStore) :
    let db := (before.applyAll g.calls).applyAll cs
    let found := retrieved (db.sub ["users", g.userName])
    (Reloads (s.signInCompletion auth g.userName found.1 found.2) db g.userName ↔
      ∀ f, ¬ (db.dict f g.userName).exportsArray) ∧
    (Reloads (s.setupUserCompletion auth g.userName found.1 found.2) db g.userName ↔
      ∀ f, ¬ (db.dict f g.userName).exportsArray) := by
  have h : Stored g ((before.applyAll g.calls).applyAll cs) := (stored_calls hg before).applyAll hcs
  exact ⟨h.reloads_signIn auth s, h.reloads_setupUser auth s⟩

/-- Bob asks Alice, and she loads her node. -/
theorem reload_alice :
    let db := (Database.applyAll Tree.empty alice.calls).applyAll [.addPending "bob" "alice" "R1"]
    let found := retrieved (db.sub ["users", "alice"])
    Reloads (initial.signInCompletion alice.auth "alice" found.1 found.2) db "alice" := by
  have hn : IsComponent "bob" ∧ IsComponent "alice" := by decide
  have halice : alice.Valid := by decide
  have hasked : (Call.addPending "bob" "alice" "R1").Issued := ⟨hn, by decide +kernel⟩
  refine ((reload_iff halice Tree.empty (by simpa using ⟨hn, by simp⟩) alice.auth initial).1).2 fun f => ?_
  have hdict : ((Database.applyAll Tree.empty alice.calls).applyAll [.addPending "bob" "alice" "R1"]).dict f alice.userName =
      (Call.addPending "bob" "alice" "R1").onDict f "alice" (alice.user.inserted f) := by
    rw [Database.applyAll_cons, Database.applyAll_nil, Database.dict_apply hasked (by simp [Call.IsInsert]),
      alice.dict_calls halice, if_pos rfl]
    rfl
  rw [hdict]
  cases f <;> decide +kernel

/-- Somebody called `0`. -/
def zero : Registration := ⟨⟨"uid-0", "zero@mail", none⟩, "0", "Zero", "Null", "Z0", none⟩

/-- Alice and `0`, who has asked her. -/
def aliceAndZero : Database :=
  ((Database.applyAll Tree.empty alice.calls).applyAll zero.calls).applyAll [.addPending "0" "alice" "R1"]

/-- Loading `0` back stops at the forced cast, and Alice loads no requests. -/
theorem reload_loses :
    let zeroFound := retrieved (aliceAndZero.sub ["users", "0"])
    let aliceFound := retrieved (aliceAndZero.sub ["users", "alice"])
    (initial.signInCompletion zero.auth "0" zeroFound.1 zeroFound.2).value = none ∧
    ¬ Reloads (initial.signInCompletion zero.auth "0" zeroFound.1 zeroFound.2) aliceAndZero "0" ∧
    ¬ Reloads (initial.setupUserCompletion alice.auth "alice" aliceFound.1 aliceFound.2) aliceAndZero "alice" := by
  have hn : IsComponent "0" ∧ IsComponent "alice" := by decide
  have hvalid : alice.Valid ∧ zero.Valid := by decide
  have hasked : (Call.addPending "0" "alice" "R1").Issued := ⟨hn, by decide +kernel⟩
  have hspares : ∀ u, ∀ c ∈ [Call.addPending "0" "alice" "R1"], c.Spares u := fun u => by
    simpa using ⟨hn, by simp⟩
  have hzero : Stored zero aliceAndZero := (stored_calls hvalid.2 _).applyAll (hspares "0")
  have halice : Stored alice aliceAndZero := by
    refine (((stored_calls hvalid.1 Tree.empty).applyAll ?_).applyAll (hspares "alice"))
    rintro c hc
    obtain rfl : c = .insertUser zero.user := by simpa [Registration.calls, zero] using hc
    exact ⟨hn.1, by rintro user ⟨⟩; decide⟩
  have hdict : ∀ f u, aliceAndZero.dict f u = (Call.addPending "0" "alice" "R1").onDict f u
      (if u = "0" then zero.user.inserted f else
        if u = "alice" then alice.user.inserted f else Database.dict Tree.empty f u) := fun f u => by
    rw [aliceAndZero, Database.applyAll_cons, Database.applyAll_nil,
      Database.dict_apply hasked (by simp [Call.IsInsert]), zero.dict_calls hvalid.2, alice.dict_calls hvalid.1]
    rfl
  have harray : (aliceAndZero.dict .relationships zero.userName).exportsArray := by
    rw [hdict]
    decide +kernel
  have hrequests : (aliceAndZero.dict .requests "alice").exportsArray := by
    rw [hdict]
    decide +kernel
  exact ⟨hzero.stops harray zero.auth initial, fun h => (hzero.reloads_signIn zero.auth initial).1 h _ harray,
    fun h => (halice.reloads_setupUser alice.auth initial).1 h .requests hrequests⟩

end Anissagram
