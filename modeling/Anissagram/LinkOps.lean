import Anissagram.Registered
/-
# One link operation against the database

An operation of `SessionStore` is written twice: as path updates in `DatabaseManager` and as
in-place changes of the session's dictionaries. `optimistic_agrees` says the two agree for a session
that matches its node, whatever else the database holds. `accept_all_or_nothing_iff` is about the
points between the two updates of `acceptRequest` (`SessionStore.swift:193`, `:196`): the first
one removes both halves of the request, the second one stores the relationship.
-/

namespace Anissagram

open PathTree NSMutableDictionary

/-- The session's dictionaries are those stored under `users/<userName>`; an absent node counts as
empty. -/
def User.Matches (user : User) (db : Database) : Prop :=
  ∀ f, user.dict f = db.dict f user.userName

instance (user : User) (db : Database) : Decidable (user.Matches db) :=
  inferInstanceAs (Decidable (∀ f, user.dict f = db.dict f user.userName))

/-- An operation together with the application of every update it issued; `none` if it traps. -/
def LinkOp.exec (s : SessionStore) (db : Database) (op : LinkOp) : Option (SessionStore × Database) :=
  (op.run s).value.map fun s' => (s', db.applyAll (op.run s).issued)

/-- Operations one after the other, no other client writing. -/
def LinkOp.execAll (s : SessionStore) (db : Database) : List LinkOp → Option (SessionStore × Database)
  | [] => some (s, db)
  | op :: ops => do
    let (s', db') ← op.exec s db
    LinkOp.execAll s' db' ops

/-- The name an operation is given is one path component, as every displayed name is, and not the
caller's own. -/
def LinkOp.NamesOther (op : LinkOp) (user : User) : Prop :=
  IsComponent op.name ∧ op.name ≠ user.userName

/-- The ids an operation uses are keys of the database, as UUID strings are. -/
def LinkOp.IdsOk (op : LinkOp) (user : User) : Prop :=
  ∀ c ∈ op.calls user, ∀ r ∈ c.record?, isValidKey r.1

theorem LinkOp.calls_link {op : LinkOp} {user : User} {c : Call} (hc : c ∈ op.calls user)
    (hu : IsComponent user.userName) (hn : IsComponent op.name) : c.ValidNames ∧ ¬ c.IsInsert := by
  obtain ⟨h, ho, hown, hname⟩ := LinkOp.calls_own hc
  rw [← hown] at hu
  rw [← hname] at hn
  cases c <;> simp only [Call.own?, Option.some.injEq, reduceCtorEq] at ho
  all_goals
    subst ho
    exact ⟨⟨hu, hn⟩, id⟩

/-- The calls an operation issued are in order for the lemmas about calls. -/
theorem LinkOp.issued_link {op : LinkOp} {s : SessionStore} {user : User} {c : Call}
    (hs : s.session = some user) (hu : IsComponent user.userName) (hn : IsComponent op.name)
    (hc : c ∈ (op.run s).issued) : c ∈ op.calls user ∧ c.Issued ∧ ¬ c.IsInsert := by
  obtain ⟨hw, hpre, -⟩ := op.run_spec hs
  have hcalls : c ∈ op.calls user := hpre.mem hc
  obtain ⟨hv, hins⟩ := LinkOp.calls_link hcalls hu hn
  exact ⟨hcalls, ⟨hv, hw c hc⟩, hins⟩

/-- An operation under another user's key, whose cast finds an id, runs to its end. -/
theorem LinkOp.run_other {op : LinkOp} {s : SessionStore} {user : User} (hs : s.session = some user)
    (hu : isValidKey user.userName) (hn : isValidKey op.name) (hne : op.name ≠ user.userName)
    (hc : op.CastOk user) (hid : op.IdsOk user) :
    op.run s = ⟨op.calls user, some { s with session := some (op.localEffect user) }⟩ := by
  refine op.run_completes hs hc fun c hmem => ?_
  have hv := (LinkOp.calls_link hmem hu.isComponent hn.isComponent).1
  obtain ⟨k, ho, hown, hname⟩ := LinkOp.calls_own hmem
  have hids : ∀ r ∈ c.record?, ∀ key ∈ pathComponents r.1, isValidKey key := by
    intro r hr key hkey
    have hrk := hid c hmem r hr
    rw [hrk.pathComponents, List.mem_singleton] at hkey
    exact hkey ▸ hrk
  rw [← hown] at hu hne
  rw [← hname] at hn hne
  cases c <;> simp only [Call.own?, Option.some.injEq, reduceCtorEq] at ho
  all_goals subst ho
  case removeRequest u r => exact Call.write_isSome rfl ⟨hn, hu⟩ (fun hf => by cases hf) hids
  all_goals exact Call.write_isSome rfl ⟨hu, hn⟩ (fun _ => hne.symm) hids

/-! ## The local copy agrees with the server -/

/-- One operation that ran to its end leaves the session matching its node. -/
theorem LinkOp.matches_exec {op : LinkOp} {s s' : SessionStore} {db db' : Database} {user : User}
    (hs : s.session = some user) (hu : IsComponent user.userName) (hn : op.NamesOther user)
    (hm : user.Matches db) (he : op.exec s db = some (s', db')) :
    ∃ user', s'.session = some user' ∧ user'.userName = user.userName ∧ user'.Matches db' := by
  obtain ⟨t, ht, heq⟩ := Option.map_eq_some_iff.1 he
  obtain ⟨hcast, hiss, rfl⟩ := (op.run_spec hs).2.2 t ht
  cases heq
  refine ⟨_, rfl, op.localEffect_userName user, fun f => ?_⟩
  have hissued : ∀ c ∈ (op.run s).issued, c.Issued ∧ ¬ c.IsInsert := fun c hc =>
    (LinkOp.issued_link hs hu hn.1 hc).2
  rw [op.localEffect_userName, Database.dict_applyAll f _ _ _ hissued, hiss,
    op.dict_localEffect user hcast, hm f]
  refine List.foldl_ext _ _ _ fun d c hc => ?_
  obtain ⟨h, ho, hown, hname⟩ := LinkOp.calls_own hc
  rw [← hown, Call.onDict_own ho (by rw [hown, hname]; exact hn.2)]

/-- **Local optimistic updates agree with the server.** Over a database that a session matches,
every operation under another user's name whose id is there runs to its end, and whatever sequence
of operations ran, the session matches the database again. -/
theorem optimistic_agrees {s : SessionStore} {db : Database} {user : User}
    (hs : s.session = some user) (hu : isValidKey user.userName) (hm : user.Matches db) :
    (∀ op : LinkOp, isValidKey op.name → op.name ≠ user.userName → op.CastOk user → op.IdsOk user →
      (op.exec s db).isSome) ∧
    ∀ ops : List LinkOp, (∀ op ∈ ops, op.NamesOther user) →
      ∀ s' db', LinkOp.execAll s db ops = some (s', db') →
        ∃ user', s'.session = some user' ∧ user'.userName = user.userName ∧ user'.Matches db' := by
  constructor
  · intro op hn hne hc hid
    simp [LinkOp.exec, LinkOp.run_other hs hu hn hne hc hid]
  · intro ops
    induction ops generalizing s db user with
    | nil =>
      intro _ s' db' h
      cases h
      exact ⟨user, hs, rfl, hm⟩
    | cons op ops ih =>
      intro hops s' db' h
      simp only [LinkOp.execAll, Option.bind_eq_bind, Option.bind_eq_some_iff] at h
      obtain ⟨⟨s₁, db₁⟩, h₁, h₂⟩ := h
      obtain ⟨user₁, hs₁, hname, hm₁⟩ :=
        LinkOp.matches_exec hs hu.isComponent (hops op List.mem_cons_self) hm h₁
      obtain ⟨user', hs', hname', hm'⟩ := ih hs₁ (hname ▸ hu) hm₁
        (fun op' hop' => by
          have h := hops op' (List.mem_cons_of_mem _ hop')
          rwa [LinkOp.NamesOther, ← hname] at h) s' db' h₂
      exact ⟨user', hs', hname'.trans hname, hm'⟩

/-- Alice has just loaded her node and adds Bob. -/
theorem optimistic_agrees_alice :
    ∃ s' db' user', LinkOp.execAll (alice.session (registered aliceAndBob)) (registered aliceAndBob)
        [.addPending "bob" "R1"] = some (s', db') ∧
      s'.session = some user' ∧ user'.userName = "alice" ∧ user'.Matches db' := by
  obtain ⟨htotal, hrun⟩ := @optimistic_agrees (alice.session (registered aliceAndBob))
    (registered aliceAndBob) _ rfl (by decide) (fun f => by cases f <;> rfl)
  have hn : isValidKey "bob" ∧ "bob" ≠ "alice" := by decide
  obtain ⟨⟨s', db'⟩, he⟩ := Option.isSome_iff_exists.1 <|
    htotal (.addPending "bob" "R1") hn.1 hn.2 trivial (by simp [LinkOp.IdsOk, LinkOp.calls, Call.record?])
  have hall : LinkOp.execAll (alice.session (registered aliceAndBob)) (registered aliceAndBob)
      [.addPending "bob" "R1"] = some (s', db') := by
    simp [LinkOp.execAll, he]
  obtain ⟨user', hs', hname, hm⟩ := hrun _ (by
    simpa [LinkOp.NamesOther, LinkOp.name] using ⟨hn.1.isComponent, hn.2⟩) s' db' hall
  exact ⟨s', db', user', hall, hs', hname, hm⟩

end Anissagram
