import Anissagram.Taps
/-
# Taps that cross: one link state per pair

A tap is guarded by what the acting client last saw. Two clients that both see no link can both tap
Add, and the database then holds a request in each direction (`crossing_adds`). Nothing in the app
looks at the database before it writes.

`one_link_state` says what the taps have to respect: Add is tapped while the database holds nothing of
the pair, accept while it holds at most the request, and neither while an update that creates a link of
the pair still waits.
The invariant `OneLink` then keeps at most one such update in all the queues together, and behind it
a pair whose entries are gone once the update comes up.
-/

namespace Anissagram

open PathTree NSMutableDictionary Runs Queues

variable {ι : Type} [DecidableEq ι]

/-- At most one of: `a` and `b` have an entry for each other in `relationships`, `a` waits for `b`,
`b` waits for `a`. -/
def OneLinkState (db : Database) (a b : String) : Prop :=
  let related := db.entry .relationships a b ≠ Tree.empty ∧ db.entry .relationships b a ≠ Tree.empty
  let asked := db.entry .pending a b ≠ Tree.empty
  let wasAsked := db.entry .pending b a ≠ Tree.empty
  ¬ (related ∧ asked) ∧ ¬ (related ∧ wasAsked) ∧ ¬ (asked ∧ wasAsked)

instance (db : Database) (a b : String) : Decidable (OneLinkState db a b) :=
  inferInstanceAs (Decidable (¬ (_ ∧ _) ∧ ¬ (_ ∧ _) ∧ ¬ (_ ∧ _)))

/-- The update stores a link between `a` and `b`. -/
def Call.Creates (c : Call) (a b : String) : Prop :=
  c.About a b ∧ ∃ h ∈ c.half?, h.value.isSome

instance (c : Call) (a b : String) : Decidable (c.Creates a b) :=
  inferInstanceAs (Decidable (c.About a b ∧ ∃ h ∈ c.half?, h.value.isSome))

/-- The operation stores a link. -/
def LinkOp.IsCreating : LinkOp → Prop
  | .addRelationShip _ _ | .addPending _ _ | .acceptRequest _ => True
  | _ => False

instance (op : LinkOp) : Decidable op.IsCreating :=
  match op with
  | .addRelationShip _ _ | .addPending _ _ | .acceptRequest _ => instDecidableTrue
  | .deleteRelationShip _ | .deletePending _ | .declineRequest _ => instDecidableFalse

/-- What the database may hold of a pair that an operation creates a link for: accept finds the request. -/
def LinkOp.Finds : LinkOp → Field → Prop
  | .acceptRequest _, .requests => True
  | _, _ => False

instance (op : LinkOp) (f : Field) : Decidable (op.Finds f) :=
  match op, f with
  | .acceptRequest _, .requests => instDecidableTrue
  | .acceptRequest _, .relationships | .acceptRequest _, .pending | .addRelationShip _ _, _ | .addPending _ _, _
  | .deleteRelationShip _, _ | .deletePending _, _ | .declineRequest _, _ => instDecidableFalse

/-- Add and accept meet no other link of the pair, and nothing new of it is under way. -/
def SeesPair (s : State ι) : Action ι → Prop
  | .tap c op => ∀ user ∈ s.session c, op.IsCreating →
    (∀ f, ¬ op.Finds f → s.db.entry f user.userName op.name = Tree.empty) ∧
    NoneWaits (fun call => call.Creates user.userName op.name) s.queue
  | _ => True

instance [Fintype ι] (s : State ι) (a : Action ι) : Decidable (SeesPair s a) :=
  match a with
  | .tap c op => inferInstanceAs (Decidable (∀ user ∈ s.session c, op.IsCreating →
      (∀ f, ¬ op.Finds f → s.db.entry f user.userName op.name = Tree.empty) ∧
      NoneWaits (fun call => call.Creates user.userName op.name) s.queue))
  | .signUp _ _ _ _ _ _ | .signIn _ _ _ | .setupUser _ _ _ | .signOut _ _ | .token _ _ _ | .apply _
  | .deliver _ _ | .kill _ _ | .reload _ _ _ | .remote _ => isTrue trivial

/-! ## One update and the entries of one pair -/

section
variable {c : Call} {a b : String} {f g : Field}

theorem Call.creates_comm : c.Creates a b ↔ c.Creates b a := and_congr_left' Call.about_comm

/-- Between different users an update touches one field on each side. -/
theorem Call.sets_field (hab : a ≠ b) {v w : Option String} (hf : c.sets f a b = some v)
    (hg : c.sets g a b = some w) : f = g := by
  cases hh : c.half? with
  | none => simp [sets, hh] at hf
  | some h =>
    simp only [sets, hh, Option.ite_none_right_eq_some] at hf hg
    rcases hf.1 with ⟨hf, ha, hb⟩ | ⟨hf, ha, hb⟩ <;> rcases hg.1 with ⟨hg, ha', hb'⟩ | ⟨hg, ha', hb'⟩
    · rw [hf, hg]
    · exact absurd (ha.trans hb'.symm) hab
    · exact absurd (ha'.trans hb.symm) hab
    · rw [hf, hg]

/-- An update that creates nothing between `a` and `b` only clears entries of theirs. -/
theorem Call.sets_of_not_creates (hc : ¬ c.Creates a b) {v : Option String}
    (hs : c.sets f a b = some v) : v = none := by
  have habout : c.About a b := by
    by_contra hn
    rw [Call.sets_of_not_about hn] at hs
    cases hs
  cases hh : c.half? with
  | none => simp [sets, hh] at hs
  | some h =>
    simp only [sets, hh, Option.ite_none_right_eq_some, Option.some.injEq] at hs
    rw [← hs.2]
    by_contra hv
    exact hc ⟨habout, h, hh, Option.isSome_iff_ne_none.2 hv⟩

/-- The entry `users/<a>/<f>/<b>` is empty, or an update that waits in front clears it. -/
def FreeAfter (db : Database) (before : List Call) (a b : String) : Prop :=
  ∀ f, db.entry f a b = Tree.empty ∨ ∃ c ∈ before, c.sets f a b = some none

theorem FreeAfter.symm {db : Database} (hm : Mirrored db) {before : List Call}
    (h : FreeAfter db before a b) : FreeAfter db before b a := by
  intro f
  rcases h f.mirror with h | ⟨c, hc, h⟩
  · rw [hm f b a]
    exact Or.inl h
  · rw [← c.sets_mirror] at h
    exact Or.inr ⟨c, hc, h⟩

theorem FreeAfter.mono {db : Database} {before before' : List Call}
    (h : FreeAfter db before a b) (hsub : ∀ c ∈ before, c ∈ before') : FreeAfter db before' a b :=
  fun f => (h f).imp id fun ⟨c, hc, hs⟩ => ⟨c, hsub c hc, hs⟩

/-- At most one field of `a` has an entry for `b`. -/
def OneField (db : Database) (a b : String) : Prop :=
  ∀ f g, db.entry f a b ≠ Tree.empty → db.entry g a b ≠ Tree.empty → f = g

theorem OneField.oneLinkState {db : Database} (hm : Mirrored db) (h : OneField db a b) :
    OneLinkState db a b := by
  have hreq : db.entry .pending b a = db.entry .requests a b := hm .pending b a
  refine ⟨?_, ?_, ?_⟩
  · rintro ⟨⟨hrel, -⟩, hask⟩
    exact absurd (h _ _ hrel hask) (by decide)
  · rintro ⟨⟨hrel, -⟩, hask⟩
    rw [hreq] at hask
    exact absurd (h _ _ hrel hask) (by decide)
  · rintro ⟨hask, hask'⟩
    rw [hreq] at hask'
    exact absurd (h _ _ hask hask') (by decide)

variable {db : Database} (hi : c.Issued) (hins : ¬ c.IsInsert)
include hi hins

/-- An update that creates nothing leaves free what is free. -/
theorem FreeAfter.apply (hc : ¬ c.Creates a b) {before : List Call}
    (h : FreeAfter db (c :: before) a b) : FreeAfter (db.apply c) before a b := by
  intro f
  rw [Database.entry_apply hi hins]
  cases hs : c.sets f a b with
  | some v =>
    rw [Call.sets_of_not_creates hc hs]
    exact Or.inl rfl
  | none =>
    rcases h f with h | ⟨c', hc', hs'⟩
    · exact Or.inl h
    · rcases List.mem_cons.1 hc' with rfl | hc'
      · rw [hs] at hs'
        cases hs'
      · exact Or.inr ⟨c', hc', hs'⟩

theorem OneField.apply (hc : ¬ c.Creates a b) (h : OneField db a b) : OneField (db.apply c) a b := by
  have hold : ∀ f, (db.apply c).entry f a b ≠ Tree.empty → db.entry f a b ≠ Tree.empty := by
    intro f hf
    rw [Database.entry_apply hi hins] at hf
    cases hs : c.sets f a b with
    | some v =>
      rw [hs, Call.sets_of_not_creates hc hs] at hf
      exact absurd rfl hf
    | none =>
      rw [hs] at hf
      exact hf
  exact fun f g hf hg => h f g (hold f hf) (hold g hg)

/-- Where all entries of the pair are gone, an update creates one. -/
theorem oneField_apply_free (hab : a ≠ b) (h : FreeAfter db [] a b) : OneField (db.apply c) a b := by
  have hset : ∀ f, (db.apply c).entry f a b ≠ Tree.empty → ∃ v, c.sets f a b = some v := by
    intro f hf
    rw [Database.entry_apply hi hins] at hf
    cases hs : c.sets f a b with
    | some v => exact ⟨v, rfl⟩
    | none =>
      rw [hs] at hf
      rcases h f with h | ⟨_, hc', -⟩
      · exact absurd h hf
      · cases hc'
  intro f g hf hg
  obtain ⟨v, hv⟩ := hset f hf
  obtain ⟨w, hw⟩ := hset g hg
  exact Call.sets_field hab hv hw

end

/-! ## A tap that creates a link -/

/-- An update that removes its entry creates nothing. -/
theorem Call.not_creates_of_removes {c : Call} {h : Half} (hh : c.half? = some h) (hv : h.value = none) (a b : String) :
    ¬ c.Creates a b := by
  rintro ⟨-, h', hh', hv'⟩
  cases hh.symm.trans hh'
  rw [hv] at hv'
  cases hv'

omit [DecidableEq ι] in
/-- **What a creating tap hands over**: one creating update, last, behind updates that clear what the
pair still has. -/
theorem SeesPair.creating_tap {s : State ι} {c : ι} {op : LinkOp} {user : User}
    (hsees : SeesPair s (.tap c op)) (hs : s.session c = some user)
    (hoff : SearchResultItem.Offers (s.clients c).store op) {call : Call}
    (hc : call ∈ (op.run (s.clients c).store).issued) (hcr : call.Creates user.userName op.name) :
    NoneWaits (fun call => call.Creates user.userName op.name) s.queue ∧
    ∃ xs x, (op.run (s.clients c).store).issued = xs ++ [x] ∧ x.Creates user.userName op.name ∧
      (∀ y ∈ xs, ¬ y.Creates user.userName op.name) ∧ FreeAfter s.db xs user.userName op.name := by
  have hpre := (op.run_spec hs).2.1
  have hshown := hoff.shown hs
  have hsame := hsees user hs
  have hmem := hpre.mem hc
  -- the last of the calls is the only one that stores anything
  have hlast : ∀ xs x, op.calls user = xs ++ [x] → (∀ y ∈ xs, ¬ y.Creates user.userName op.name) →
      (op.run (s.clients c).store).issued = xs ++ [x] ∧ x.Creates user.userName op.name := by
    intro xs x hcalls hxs
    rw [hcalls] at hpre hmem
    rcases List.prefix_concat_iff.1 hpre with heq | hpre
    · refine ⟨heq, ?_⟩
      rcases List.mem_append.1 hmem with hy | hy
      · exact absurd hcr (hxs call hy)
      · rwa [List.mem_singleton.1 hy] at hcr
    · exact absurd hcr (hxs call (hpre.mem hc))
  cases op with
  | addRelationShip name newUUID => exact absurd hshown fun hf => hf
  | addPending name id =>
    obtain ⟨hentries, hnone⟩ := hsame trivial
    obtain ⟨hissued, hx⟩ := hlast [] _ rfl (by simp)
    exact ⟨hnone, [], _, hissued, hx, by simp, fun f => Or.inl (hentries f fun hf => hf)⟩
  | acceptRequest name =>
    obtain ⟨hentries, hnone⟩ := hsame trivial
    have hclear : ¬ (Call.removeRequest user.userName name).Creates user.userName name :=
      Call.not_creates_of_removes rfl rfl _ _
    cases hid : LinkOp.idAt user .requests name with
    | none =>
      have hcall : call = .removeRequest user.userName name := by simpa [LinkOp.calls, hid] using hmem
      rw [hcall] at hcr
      exact absurd hcr hclear
    | some id =>
      obtain ⟨hissued, hx⟩ := hlast [.removeRequest user.userName name]
        (.addRelationship user.userName name id) (by simp [LinkOp.calls, hid])
        (by simpa [LinkOp.name] using hclear)
      refine ⟨hnone, _, _, hissued, hx, by simpa [LinkOp.name] using hclear, fun f => ?_⟩
      cases f with
      | relationships => exact Or.inl (hentries .relationships fun hf => hf)
      | pending => exact Or.inl (hentries .pending fun hf => hf)
      | requests =>
        refine Or.inr ⟨_, List.mem_singleton_self _, ?_⟩
        simp [Call.sets, Call.half?, Half.At, Half.mirror, Field.mirror, LinkOp.name]
  | deleteRelationShip name =>
    simp only [LinkOp.calls, Option.mem_toList, Option.map_eq_some_iff] at hmem
    obtain ⟨id, -, rfl⟩ := hmem
    exact absurd hcr (Call.not_creates_of_removes rfl rfl _ _)
  | deletePending name =>
    obtain rfl := List.mem_singleton.1 hmem
    exact absurd hcr (Call.not_creates_of_removes rfl rfl _ _)
  | declineRequest name =>
    obtain rfl := List.mem_singleton.1 hmem
    exact absurd hcr (Call.not_creates_of_removes rfl rfl _ _)

/-! ## The invariant -/

structure OneLink (a b : String) (s : State ι) : Prop where
  tapped : Tapped s
  one : OneField s.db a b
  lone : Lone (fun call => call.Creates a b) (fun before _ => FreeAfter s.db before a b) s.queue

section
variable {a b : String} {s s' : State ι} {act : Action ι}

omit [DecidableEq ι] in
theorem oneLink_start {gs : List Registration} (hg : ValidRegistrations gs) (hab : a ≠ b) :
    OneLink a b (State.start (registered gs) : State ι) where
  tapped := tapped_start hg
  one := fun f _ hf _ => absurd (registered_entry_ne hg f hab) hf
  lone := Or.inl fun _ _ hc => nomatch hc

/-- Updates are handed over. -/
theorem OneLink.enqueue (h : OneLink a b s) {c : ι} {calls : List Call} (he : s.Enqueues s' c calls)
    (hcalls : (∀ y ∈ calls, ¬ y.Creates a b) ∨
      NoneWaits (fun call => call.Creates a b) s.queue ∧
        ∃ xs x, calls = xs ++ [x] ∧ x.Creates a b ∧ (∀ y ∈ xs, ¬ y.Creates a b) ∧
          FreeAfter s.db xs a b) :
    OneField s'.db a b ∧
    Lone (fun call => call.Creates a b) (fun before _ => FreeAfter s'.db before a b) s'.queue := by
  obtain ⟨hdb, hpush⟩ := he
  rw [hdb]
  refine ⟨h.one, ?_⟩
  rcases hcalls with hnone | ⟨hnone, xs, x, rfl, hx, hxs, hfree⟩
  · exact h.lone.push hpush hnone
  · exact hnone.push_last hpush hxs hx (hfree.mono fun c hc => List.mem_append_right _ hc)

/-- The server applies an update. -/
theorem OneLink.apply (h : OneLink a b s) (hab : a ≠ b) {c : ι} {call : Call} {rest : List Call}
    (he : s.Applies s' c call rest) :
    OneField s'.db a b ∧
    Lone (fun call => call.Creates a b) (fun before _ => FreeAfter s'.db before a b) s'.queue := by
  obtain ⟨hdb, hpop⟩ := he
  obtain ⟨hi, hins, -⟩ := h.tapped.call hpop.mem
  rw [hdb]
  rcases h.lone.pop hpop with ⟨-, hfree, hnone⟩ | ⟨hcr, hlone⟩
  · exact ⟨oneField_apply_free hi hins hab hfree, Or.inl hnone⟩
  · refine ⟨h.one.apply hi hins hcr, hlone ?_ ?_⟩
    · exact fun before _ _ hfree => (hfree.mono fun c hc => List.mem_cons_of_mem _ hc).apply hi hins hcr
    · exact fun before _ _ hfree => hfree.apply hi hins hcr

theorem OneLink.step (h : OneLink a b s) (hab : a ≠ b) (ha : Tapping s act) (hsees : SeesPair s act)
    (hs : s.step act = some s') : OneLink a b s' := by
  have htapped := h.tapped.step ha hs
  suffices hgoal : OneField s'.db a b ∧
      Lone (fun call => call.Creates a b) (fun before _ => FreeAfter s'.db before a b) s'.queue from
    ⟨htapped, hgoal.1, hgoal.2⟩
  rcases State.step_queue hs ha.app.2 with ⟨c, call, rest, -, happ⟩ | ⟨c, -, he⟩
  · exact h.apply hab happ
  · refine h.enqueue he ?_
    by_cases hcr : ∃ call ∈ s.issues act, call.Creates a b
    swap
    · left
      push Not at hcr
      exact hcr
    right
    obtain ⟨call, hmem, hcr⟩ := hcr
    rcases ha.issues hmem with hhalf | ⟨c', op, user, rfl, huser, hcall⟩
    · obtain ⟨-, h, hh, -⟩ := hcr
      rw [hhalf] at hh
      cases hh
    · rcases LinkOp.calls_about hcall hcr.1 with ⟨rfl, rfl⟩ | ⟨rfl, rfl⟩
      · exact hsees.creating_tap huser ha.2.1 hmem hcr
      · -- the pair in the other order
        obtain ⟨hnone, xs, x, hxs, hx, hclear, hfree⟩ :=
          hsees.creating_tap huser ha.2.1 hmem (Call.creates_comm.1 hcr)
        refine ⟨fun i y hy => mt Call.creates_comm.1 (hnone i y hy), xs, x, hxs,
          Call.creates_comm.1 hx, fun y hy => mt Call.creates_comm.1 (hclear y hy),
          hfree.symm h.tapped.mirrored⟩

end

/-- **At most one link state per pair**, in every interleaving of taps, applied updates and events
in which Add and accept meet no other link of the pair in the database and no new one is under way. -/
theorem one_link_state {gs : List Registration} (hg : ValidRegistrations gs)
    {hist : History (State ι) (Action ι)} {s : State ι}
    (hr : Reach State.step (fun _ s a => Tapping s a ∧ SeesPair s a) (State.start (registered gs)) hist s)
    {a b : String} (hab : a ≠ b) : OneLinkState s.db a b := by
  have h : OneLink a b s :=
    hr.inv (I := fun _ s => OneLink a b s) (oneLink_start hg hab)
      fun _ _ _ _ _ hi ha hs => hi.step hab ha.1 ha.2 hs
  exact h.one.oneLinkState h.tapped.mirrored

/-- Bob asks, and Alice accepts when she sees it. -/
theorem one_link_state_bob :
    ∃ hist s, Reach State.step (fun _ s a => Tapping s a ∧ SeesPair s a)
        (State.start (registered aliceAndBob) : State (Fin 2)) hist s ∧
      s.db.entry .relationships "alice" "bob" = .string "R1" ∧ OneLinkState s.db "alice" "bob" := by
  have hplay : (exec State.step (fun _ s a => Tapping s a ∧ SeesPair s a) []
      (State.start (registered aliceAndBob) : State (Fin 2)) (bothSignIn 0 1 ++ [.tap 1 (.addPending "alice" "R1"), .apply 1,
        .deliver 0 0, .tap 0 (.acceptRequest "bob"), .apply 0, .apply 0])).any
      (fun r => decide (r.2.db.entry .relationships "alice" "bob" = .string "R1")) = true := by
    decide +kernel
  obtain ⟨hist, s, hr, hentry⟩ := exists_reach_of_exec
    (P := fun _ (s : State (Fin 2)) => s.db.entry .relationships "alice" "bob" = .string "R1") hplay
  exact ⟨hist, s, hr, hentry, one_link_state validRegistrations_aliceAndBob hr (by decide)⟩

/-- Both add the other before either request arrives. -/
theorem crossing_adds :
    ∃ hist s, Reach State.step (fun _ s a => Tapping s a)
        (State.start (registered aliceAndBob) : State (Fin 2)) hist s ∧
      ¬ OneLinkState s.db "alice" "bob" := by
  have hplay : (exec State.step (fun _ s a => Tapping s a) [] (State.start (registered aliceAndBob) : State (Fin 2))
      (bothSignIn 0 1 ++ [.tap 0 (.addPending "bob" "R1"), .tap 1 (.addPending "alice" "R2"),
        .apply 0, .apply 1])).any (fun r => decide (¬ OneLinkState r.2.db "alice" "bob")) = true := by
    decide +kernel
  exact exists_reach_of_exec (P := fun _ (s : State (Fin 2)) => ¬ OneLinkState s.db "alice" "bob") hplay

end Anissagram
