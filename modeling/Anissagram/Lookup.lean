import Anissagram.Reload
/-
# The two handlers of `retrieveUserByUsername`

`signIn` (`SessionStore.swift:64`) and `setupUser` (:104) decode the node of a user with the same casts. The
handler of `setupUser` asks for `error` first and returns; the one of `signIn` forces the casts first and asks
for `error` (:78) behind them, so a lookup that finds nothing stops the process.
-/

namespace Anissagram

open PathTree NSMutableDictionary SessionStore

/-- The handler returns and has done nothing: no update, no token request, the session as it was. -/
def GivesUp (e : Effect Request SessionStore) (s : SessionStore) : Prop := e.issued = [] ∧ e.value = some s

/-- Both handlers set the session to the same user. -/
def SameUser (e e' : Effect Request SessionStore) : Prop :=
  ∃ s ∈ e.value, ∃ s' ∈ e'.value, s.session.isSome ∧ s.session = s'.session

/-- The node of `u` was stored by `insertUser`, and link updates came after, with users whose names are no
integers. -/
def Grown (u : String) (db : Database) : Prop :=
  ∃ (g : Registration) (before : Database) (cs : List Call), g.Valid ∧ g.userName = u ∧
    (∀ c ∈ cs, c.IsLinkUpdate ∧ ∀ h ∈ c.half?, ∀ n ∈ [h.owner, h.name], n ≠ u → Node.integerKey? n = none) ∧
    db = (before.applyAll g.calls).applyAll cs

/-- What the handlers end with on a node that is there: the same, for they force the same casts. -/
theorem completions_found (s : SessionStore) (auth : AuthUser) (userName : String) (userObject : Option Node) :
    (s.signInCompletion auth userName userObject false).value =
      (decodeUser auth userName userObject).map (fun user => { s with session := some user }) ∧
    (s.setupUserCompletion auth userName userObject false).value =
      (decodeUser auth userName userObject).map (fun user => { s with session := some user }) := by
  unfold signInCompletion setupUserCompletion
  cases decodeUser auth userName userObject <;> simp

/-- Nothing can be cast out of a lookup that failed. -/
theorem completions_failed (s : SessionStore) (auth : AuthUser) (userName : String) :
    s.signInCompletion auth userName none true = Effect.trap ∧
    GivesUp (s.setupUserCompletion auth userName none true) s := by
  constructor
  · rfl
  · exact ⟨rfl, rfl⟩

/-- A lookup fails with no object. -/
theorem retrieved_cases (snapshot : Node) :
    (∃ value, retrieved snapshot = (some value, false)) ∨ retrieved snapshot = (none, true) := by
  unfold retrieved
  cases snapshot.asDictionary? with
  | none => exact Or.inr rfl
  | some value => exact Or.inl ⟨value, rfl⟩

theorem Grown.stored {u : String} {db : Database} (h : Grown u db) :
    ∃ g : Registration, g.Valid ∧ g.userName = u ∧ Stored g db := by
  obtain ⟨g, before, cs, hg, hu, hcs, rfl⟩ := h
  refine ⟨g, hg, hu, (stored_calls hg before).applyAll fun c hc => ?_⟩
  obtain ⟨hlink, -⟩ := hcs c hc
  refine ⟨hlink.2, ?_⟩
  rintro user rfl
  exact absurd trivial hlink.not_isInsert

/-- The user both handlers build of a node that has grown, unless the relationships come as an array. -/
theorem Grown.sameUser_iff {u : String} {db : Database} (h : Grown u db) (s : SessionStore) (auth : AuthUser) :
    let found := retrieved (db.sub ("users" :: pathComponents u))
    SameUser (s.signInCompletion auth u found.1 found.2) (s.setupUserCompletion auth u found.1 found.2) ↔
      ¬ (db.dict .relationships u).exportsArray := by
  obtain ⟨g, hg, rfl, hstored⟩ := h.stored
  simp only [hg.1.pathComponents, hstored.retrieved]
  obtain ⟨hsign, hsetup⟩ := completions_found s auth g.userName (some (db.sub ["users", g.userName]))
  rw [SameUser, hsign, hsetup, hstored.decodeUser, hstored.asDictionary?]
  by_cases harray : (db.dict .relationships g.userName).exportsArray
  · simp [harray]
  · simp [harray]

/-- **The two handlers do as they should exactly where the lookup finds the user**: on every session, every
database and every name. A failed lookup always stops `signIn`; a user who is found is the same for both unless
the casts of `relationships` meet an array. -/
theorem lookup_handled_iff (s : SessionStore) (db : Database) (u : String) (auth : AuthUser) :
    let found := retrieved (db.sub ("users" :: pathComponents u))
    let signIn := s.signInCompletion auth u found.1 found.2
    let setupUser := s.setupUserCompletion auth u found.1 found.2
    ((found.2 = true → GivesUp signIn s ∧ GivesUp setupUser s) ∧ (Grown u db → SameUser signIn setupUser)) ↔
      found.2 = false ∧ (Grown u db → ¬ (db.dict .relationships u).exportsArray) := by
  intro found signIn setupUser
  have hgrown : (Grown u db → SameUser signIn setupUser) ↔
      (Grown u db → ¬ (db.dict .relationships u).exportsArray) :=
    forall_congr' fun h => h.sameUser_iff s auth
  rw [hgrown]
  refine and_congr_left fun _ => ?_
  rcases retrieved_cases (db.sub ("users" :: pathComponents u)) with ⟨value, hfound⟩ | hfound
  · have herror : found.2 = false := congrArg Prod.snd hfound
    simp [herror]
  · have herror : found.2 = true := congrArg Prod.snd hfound
    have hobject : found.1 = none := congrArg Prod.fst hfound
    have hsign : signIn = Effect.trap := by
      rw [show signIn = s.signInCompletion auth u found.1 found.2 from rfl, herror, hobject]
      exact (completions_failed s auth u).1
    rw [herror, hsign]
    simp [GivesUp]

/-- Somebody signs in under a name that nobody has registered. -/
theorem lookup_stops_signIn :
    let found := retrieved (Tree.sub Tree.empty ("users" :: pathComponents "alice"))
    found.2 = true ∧
    ¬ GivesUp (initial.signInCompletion alice.auth "alice" found.1 found.2) initial ∧
    GivesUp (initial.setupUserCompletion alice.auth "alice" found.1 found.2) initial := by
  have hfound : retrieved (Tree.sub Tree.empty ("users" :: pathComponents "alice")) = (none, true) := by
    rw [Tree.sub_empty]
    rfl
  rw [hfound]
  obtain ⟨hsign, hsetup⟩ := completions_failed initial alice.auth "alice"
  refine ⟨rfl, ?_, hsetup⟩
  rintro ⟨-, hvalue⟩
  rw [hsign] at hvalue
  cases hvalue

end Anissagram
