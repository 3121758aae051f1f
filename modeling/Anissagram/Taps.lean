import Anissagram.Circulation
/-
# Taps on the rows of the search view (`Views/MainViews/ExploreView.swift:280-339`)

The runs of the modules on crossing updates: clients sign in, receive value events, and their users
tap what `SearchResultItem` shows; the server applies the updates of each client in order. A tap
is guarded by the acting client's own copy only. In all of them the ids are keys of the database and
both sides of every link are the same (`tapped_reach`).
-/

namespace Anissagram

open PathTree NSMutableDictionary Runs

variable {ι : Type} [DecidableEq ι]

/-- The row for the operation's name shows a button for it, whatever its `toggled` flag. -/
def SearchResultItem.Offers (s : SessionStore) (op : LinkOp) : Prop :=
  ∃ toggled, op ∈ SearchResultItem.buttons s toggled op.name (op.uuid?.getD "")

instance (s : SessionStore) (op : LinkOp) : Decidable (SearchResultItem.Offers s op) :=
  inferInstanceAs (Decidable (∃ toggled, op ∈ SearchResultItem.buttons s toggled op.name (op.uuid?.getD "")))

/-- What the dictionaries of `user` say about the operation's name when its button is shown. -/
def LinkOp.Shown (user : User) : LinkOp → Prop
  | .addRelationShip _ _ => False
  | .deleteRelationShip name => object (user.dict .relationships) name ≠ Tree.empty
  | .deletePending name => object (user.dict .relationships) name = Tree.empty
  | .acceptRequest name | .declineRequest name =>
    object (user.dict .relationships) name = Tree.empty ∧
    object (user.dict .pending) name = Tree.empty ∧
    object (user.dict .requests) name ≠ Tree.empty
  | .addPending name _ => ∀ f, object (user.dict f) name = Tree.empty

/-- Sign-ins, taps on offered buttons, token requests, events and applied updates. -/
def Tapping (s : State ι) (a : Action ι) : Prop :=
  a.NamesOk ∧
  match a with
  | .tap c op =>
    SearchResultItem.Offers (s.clients c).store op ∧ ∀ newUUID ∈ op.uuid?, isValidKey newUUID
  | .signIn _ _ _ | .setupUser _ _ _ | .token _ _ _ | .deliver _ _ | .apply _ => True
  | _ => False

instance (s : State ι) (a : Action ι) : Decidable (Tapping s a) :=
  match a with
  | .tap c op => inferInstanceAs (Decidable ((Action.tap c op).NamesOk ∧
      SearchResultItem.Offers (s.clients c).store op ∧ ∀ newUUID ∈ op.uuid?, isValidKey newUUID))
  | .signIn c authResult userName => inferInstanceAs (Decidable ((Action.signIn c authResult userName).NamesOk ∧ True))
  | .setupUser c auth userName => inferInstanceAs (Decidable ((Action.setupUser c auth userName).NamesOk ∧ True))
  | .token c i token => inferInstanceAs (Decidable ((Action.token c i token).NamesOk ∧ True))
  | .deliver c i => inferInstanceAs (Decidable ((Action.deliver c i).NamesOk ∧ True))
  | .apply c => inferInstanceAs (Decidable ((Action.apply c).NamesOk ∧ True))
  | .signUp _ _ _ _ _ _ | .signOut _ _ | .kill _ _ | .reload _ _ _ | .remote _ => isFalse fun h => h.2

omit [DecidableEq ι] in
theorem Tapping.app {s : State ι} {a : Action ι} (h : Tapping s a) : a.KeepsNodes ∧ ¬ a.IsExternal := by
  obtain ⟨-, h⟩ := h
  cases a <;> first | exact ⟨trivial, fun hf => hf⟩ | exact absurd h id

/-! ## What a row shows -/

section
variable {s : SessionStore} {user : User} {op : LinkOp}

theorem SessionStore.not_holds (hs : s.session = some user) {f : Field} {name : String}
    (h : ¬ s.holds f name) : object (user.dict f) name = Tree.empty := by
  by_contra hne
  exact h ⟨user, hs, hne⟩

/-- **What an offered operation says about the session.** -/
theorem SearchResultItem.Offers.shown (h : SearchResultItem.Offers s op) (hs : s.session = some user) :
    op.Shown user := by
  obtain ⟨toggled, h⟩ := h
  unfold SearchResultItem.buttons at h
  generalize op.name = name, op.uuid?.getD "" = newUUID at h
  -- one branch of the view's chain after the other
  split at h
  · rename_i hrel
    obtain ⟨user', hs', hne⟩ := hrel
    cases hs.symm.trans hs'
    obtain rfl := List.mem_singleton.1 h
    exact hne
  rename_i hrel
  have hrel' := SessionStore.not_holds hs hrel
  split at h
  · obtain rfl := List.mem_singleton.1 h
    exact hrel'
  rename_i hpend
  have hpend' := SessionStore.not_holds hs hpend
  split at h
  · rename_i hreq
    obtain ⟨user', hs', hne⟩ := hreq
    cases hs.symm.trans hs'
    simp only [List.mem_cons, List.not_mem_nil, or_false] at h
    rcases h with rfl | rfl
    · exact ⟨hrel', hpend', hne⟩
    · exact ⟨hrel', hpend', hne⟩
  rename_i hreq
  have hreq' := SessionStore.not_holds hs hreq
  split at h
  · obtain rfl := List.mem_singleton.1 h
    exact hrel'
  · obtain rfl := List.mem_singleton.1 h
    intro f
    cases f
    · exact hrel'
    · exact hpend'
    · exact hreq'

end

/-! ## Every run of taps -/

/-- An id is a key of the database. -/
def Keyed (_ _ id : String) : Prop := isValidKey id

structure Tapped (s : State ι) : Prop where
  sound : Sound Keyed s
  inserts : NoInserts s
  mirrored : Mirrored s.db

omit [DecidableEq ι] in
theorem tapped_start {gs : List Registration} (hg : ValidRegistrations gs) :
    Tapped (State.start (registered gs) : State ι) :=
  ⟨sound_start (registered_dictIds hg fun g hmem => (hg.valid g hmem).2),
    (fun _ _ hc => nomatch hc), registered_mirrored hg⟩

theorem Tapped.step {s s' : State ι} {a : Action ι} (h : Tapped s) (ha : Tapping s a)
    (hs : s.step a = some s') : Tapped s' := by
  obtain ⟨hkeeps, hext⟩ := ha.app
  refine ⟨h.sound.step (fun _ _ _ hk => hk) hs ha.1 ?_ ?_ ?_ ?_, h.inserts.step hs hkeeps hext, ?_⟩
  · rintro w rfl
    exact hkeeps
  · rintro _ _ _ _ _ _ rfl
    exact absurd hkeeps id
  · rintro c op rfl user - id hid
    exact ha.2.2 id hid
  · rintro c o snapshot rfl
    exact absurd ha.2 id
  · rcases State.step_queue hs hext with ⟨c, call, rest, -, hdb, hpop⟩ | ⟨c, -, hdb, -⟩
    · obtain ⟨hi, -⟩ := (h.sound.clients c).queue call hpop.mem
      rw [hdb]
      exact mirrored_apply hi.names (h.inserts c call hpop.mem) h.mirrored
    · rw [hdb]
      exact h.mirrored

omit [DecidableEq ι] in
/-- A waiting update. -/
theorem Tapped.call {s : State ι} (h : Tapped s) {c : ι} {call : Call} (hc : call ∈ s.queue c) :
    call.Issued ∧ ¬ call.IsInsert ∧ ∀ r ∈ call.record?, isValidKey r.1 := by
  obtain ⟨hi, hcar⟩ := (h.sound.clients c).queue call hc
  refine ⟨hi, h.inserts c call hc, fun r hr => ?_⟩
  cases call <;> simp only [Call.record?, Option.mem_def, Option.some.injEq, reduceCtorEq] at hr
  all_goals
    subst hr
    exact hcar.link _ rfl _ rfl

/-! ## The pair an update is about -/

/-- The update concerns the link between `a` and `b`. -/
def Call.About (c : Call) (a b : String) : Prop :=
  ∃ h ∈ c.half?, h.owner = a ∧ h.name = b ∨ h.owner = b ∧ h.name = a

instance (c : Call) (a b : String) : Decidable (c.About a b) :=
  inferInstanceAs (Decidable (∃ h ∈ c.half?, h.owner = a ∧ h.name = b ∨ h.owner = b ∧ h.name = a))

theorem Call.about_comm {c : Call} {a b : String} : c.About a b ↔ c.About b a := by
  unfold About
  exact exists_congr fun h => and_congr_right fun _ => or_comm

theorem Call.sets_of_not_about {c : Call} {a b : String} (h : ¬ c.About a b) (f : Field) :
    c.sets f a b = none := by
  cases hh : c.half? with
  | none => simp [sets, hh]
  | some k =>
    simp only [sets, hh]
    refine if_neg fun hat => h ⟨k, hh, ?_⟩
    rcases hat with ⟨-, rfl, rfl⟩ | ⟨-, rfl, rfl⟩
    · exact Or.inl ⟨rfl, rfl⟩
    · exact Or.inr ⟨rfl, rfl⟩

/-- The updates of an operation are about the caller and the name. -/
theorem LinkOp.calls_about {op : LinkOp} {user : User} {c : Call} (hc : c ∈ op.calls user)
    {a b : String} (h : c.About a b) :
    user.userName = a ∧ op.name = b ∨ user.userName = b ∧ op.name = a := by
  obtain ⟨k, ho, hown, hname⟩ := LinkOp.calls_own hc
  obtain ⟨h', hh, hab⟩ := h
  rw [← hown, ← hname]
  cases c <;> simp only [Call.own?, Option.some.injEq, reduceCtorEq] at ho
  all_goals
    subst ho
    cases hh
    first | exact hab | exact (Or.comm.1 (hab.imp And.symm And.symm))

omit [DecidableEq ι] in
/-- A step enqueues updates of a tap, or a device token. -/
theorem Tapping.issues {s : State ι} {a : Action ι} (ha : Tapping s a) {call : Call}
    (hc : call ∈ s.issues a) :
    call.half? = none ∨
      ∃ c op user, a = .tap c op ∧ s.session c = some user ∧ call ∈ op.calls user := by
  rcases State.issues_cases hc with ⟨_, _, _, _, _, _, rfl⟩ | ⟨_, _, rfl⟩ | htap
  · exact absurd ha.2 id
  · exact Or.inl rfl
  · exact Or.inr htap

end Anissagram
