import Anissagram.Crossing
/-
# Accepting a request that is no longer there

`acceptRequest` (`SessionStore.swift:191`) issues `removeRequest u r`, then `addRelationship u r id`
with the id its session remembers. Neither looks at the database, so an Unsend that reaches the
server first does not stop the relationship (`accept_withdrawn`).

`accept_outstanding` is the rule of use under which the request is there: accept is tapped on the
request the database holds, while no update that sets it waits, and nobody taps what sets a request
whose accept waits on another device. In these runs an `addRelationship` comes from accepting only
(`Tapping.issues_addRelationship`), so the two updates identify it.
-/

namespace Anissagram

open PathTree NSMutableDictionary Runs Queues

variable {ι : Type} [DecidableEq ι]

/-- The request an update sets: whose it is, and from whom. -/
def Call.request? : Call → Option (String × String)
  | .addPending u r _ | .removePending u r => some (r, u)
  | .removeRequest u r => some (u, r)
  | _ => none

theorem Call.request?_of_half {call : Call} (h : call.half? = none) : call.request? = none := by
  cases call <;> simp [Call.half?, Call.request?] at h ⊢

/-- Any other update leaves the request alone. -/
theorem Call.sets_of_request_ne {call : Call} {u r : String} (h : call.request? ≠ some (u, r)) :
    call.sets .requests u r = none := by
  cases call <;> simp [Call.request?, Call.sets, Call.half?, Half.At, Half.mirror, Field.mirror] at h ⊢ <;> tauto

/-- Device `c` has an update that sets the request of `u` from `r` and is not applied yet. -/
def Waits (s : State ι) (c : ι) (u r : String) : Prop := ∃ call ∈ s.queue c, call.request? = some (u, r)

instance (s : State ι) (c : ι) (u r : String) : Decidable (Waits s c u r) :=
  inferInstanceAs (Decidable (∃ call ∈ s.queue c, call.request? = some (u, r)))

/-- The request whose accept comes first in a queue. -/
def firstAccept : List Call → Option (String × String)
  | .removeRequest u r :: .addRelationship u' r' _ :: _ => if u' = u ∧ r' = r then some (u, r) else none
  | _ => none

/-- Device `c` has accepted the request of `u` from `r`, and no update of that is applied yet. -/
def AcceptWaits (s : State ι) (c : ι) (u r : String) : Prop :=
  ∃ calls ∈ (s.queue c).tails, firstAccept calls = some (u, r)

instance (s : State ι) (c : ι) (u r : String) : Decidable (AcceptWaits s c u r) :=
  inferInstanceAs (Decidable (∃ calls ∈ (s.queue c).tails, firstAccept calls = some (u, r)))

/-- Accept sees the request as it is, with nothing under way that sets it; and no tap sets a request
whose accept waits on another device. -/
def SeesRequest (s : State ι) : Action ι → Prop
  | .tap c op => ∀ user ∈ s.session c,
    (op = .acceptRequest op.name →
      object (user.dict .requests) op.name = s.db.entry .requests user.userName op.name ∧
      ∀ d, ¬ Waits s d user.userName op.name) ∧
    ∀ call ∈ op.calls user, ∀ p ∈ call.request?, ∀ d, d ≠ c → ¬ AcceptWaits s d p.1 p.2
  | _ => True

instance [Fintype ι] (s : State ι) (a : Action ι) : Decidable (SeesRequest s a) :=
  match a with
  | .tap c op => inferInstanceAs (Decidable (∀ user ∈ s.session c,
      (op = .acceptRequest op.name →
        object (user.dict .requests) op.name = s.db.entry .requests user.userName op.name ∧
        ∀ d, ¬ Waits s d user.userName op.name) ∧
      ∀ call ∈ op.calls user, ∀ p ∈ call.request?, ∀ d, d ≠ c → ¬ AcceptWaits s d p.1 p.2))
  | .signUp _ _ _ _ _ _ | .signIn _ _ _ | .setupUser _ _ _ | .signOut _ _ | .token _ _ _ | .apply _
  | .deliver _ _ | .kill _ _ | .reload _ _ _ | .remote _ => isTrue trivial

omit [DecidableEq ι] in
/-- Where an `addRelationship` comes from. -/
theorem Tapping.issues_addRelationship {s : State ι} {a : Action ι} (ha : Tapping s a)
    {xs ys : List Call} {u r id : String} (h : s.issues a = xs ++ .addRelationship u r id :: ys) :
    xs = [.removeRequest u r] ∧ ∃ c user, a = .tap c (.acceptRequest r) ∧ s.session c = some user ∧
      user.userName = u ∧ object (user.dict .requests) r = .string id := by
  have hmem : Call.addRelationship u r id ∈ s.issues a := by
    rw [h]
    simp
  rcases ha.issues hmem with hhalf | ⟨c, op, user, rfl, hs, hcall⟩
  · cases hhalf
  have hshown := ha.2.1.shown hs
  obtain ⟨-, hpre, -⟩ := op.run_spec (s := (s.clients c).store) hs
  rw [show (op.run (s.clients c).store).issued = _ from h] at hpre
  cases op with
  | addRelationShip name newUUID => exact absurd hshown fun hf => hf
  | deleteRelationShip name =>
    simp only [LinkOp.calls, Option.mem_toList, Option.map_eq_some_iff] at hcall
    obtain ⟨_, -, hcall⟩ := hcall
    cases hcall
  | addPending name newUUID => cases List.mem_singleton.1 hcall
  | deletePending name => cases List.mem_singleton.1 hcall
  | declineRequest name => cases List.mem_singleton.1 hcall
  | acceptRequest name =>
    simp only [LinkOp.calls, List.mem_cons, reduceCtorEq, Option.mem_toList, Option.map_eq_some_iff,
      false_or] at hcall
    obtain ⟨id', hid, heq⟩ := hcall
    cases heq
    simp only [LinkOp.calls, hid, Option.map_some, Option.toList_some] at hpre
    refine ⟨?_, c, user, rfl, hs, rfl, Node.asString?_eq_some.1 hid⟩
    -- a list of two updates has one place for it
    cases xs with
    | nil => simp [List.cons_prefix_cons] at hpre
    | cons x xs =>
      obtain ⟨rfl, hpre⟩ := List.cons_prefix_cons.1 hpre
      cases xs with
      | nil => rfl
      | cons y xs =>
        obtain ⟨-, hpre⟩ := List.cons_prefix_cons.1 hpre
        simp at hpre

/-- Accepting is under way on device `c`, behind the updates `before`. -/
def Accepting (s : State ι) (c : ι) (before : List Call) (u r id : String) : Prop :=
  ∃ after, s.queue c = before ++ .removeRequest u r :: .addRelationship u r id :: after

omit [DecidableEq ι] in
theorem Accepting.waits {s : State ι} {c : ι} {before : List Call} {u r id : String}
    (h : Accepting s c before u r id) : AcceptWaits s c u r := by
  obtain ⟨after, hq⟩ := h
  refine ⟨.removeRequest u r :: .addRelationship u r id :: after, ?_, if_pos ⟨rfl, rfl⟩⟩
  rw [List.mem_tails, hq]
  exact List.suffix_append _ _

/-- Nothing gets between an accepted request and its `removeRequest`. -/
structure Outstanding (u r : String) (s : State ι) : Prop where
  tapped : Tapped s
  accept : ∀ c before id, Accepting s c before u r id →
    (∀ y ∈ before, y.request? ≠ some (u, r)) ∧ (∀ d, d ≠ c → ¬ Waits s d u r) ∧
    s.db.entry .requests u r = .string id

section
variable {u r : String} {s s' : State ι} {a : Action ι}

omit [DecidableEq ι] in
/-- The updates that accept a request are issued where nothing that sets it waits and the request stands. -/
theorem Tapping.accepts {c : ι} (ha : Tapping s a) (hsees : SeesRequest s a) (hdev : a.device = some c)
    (xs : List Call) {after : List Call} {id : String} (hissues : s.issues a = xs ++ .addRelationship u r id :: after) :
    xs = [.removeRequest u r] ∧ (∀ d, ¬ Waits s d u r) ∧ s.db.entry .requests u r = .string id := by
  obtain ⟨hxs, c₀, user, rfl, hs, hname, hreq⟩ := ha.issues_addRelationship hissues
  cases hdev
  subst hname
  obtain ⟨hsame, hnone⟩ := (hsees user hs).1 rfl
  exact ⟨hxs, hnone, hsame.symm.trans hreq⟩

theorem Outstanding.enqueue (h : Outstanding u r s) (ha : Tapping s a) (hsees : SeesRequest s a)
    {c : ι} (hdev : a.device = some c) (he : s.Enqueues s' c (s.issues a)) {c' : ι}
    {before : List Call} {id : String} (hacc : Accepting s' c' before u r id) :
    (∀ y ∈ before, y.request? ≠ some (u, r)) ∧ (∀ d, d ≠ c' → ¬ Waits s' d u r) ∧
    s'.db.entry .requests u r = .string id := by
  obtain ⟨hdb, hpush⟩ := he
  rw [hdb]
  by_cases hc : c' = c
  swap
  · have hold : Accepting s c' before u r id := by
      obtain ⟨after, hq⟩ := hacc
      exact ⟨after, by rw [← hpush.other hc, hq]⟩
    obtain ⟨hbefore, hothers, hentry⟩ := h.accept c' before id hold
    refine ⟨hbefore, ?_, hentry⟩
    rintro d hd ⟨y, hy, hsets⟩
    rcases hpush.cases hy with hy | ⟨rfl, hy⟩
    · exact hothers d hd ⟨y, hy, hsets⟩
    · -- the new update would be a tap on a request whose accept waits
      rcases ha.issues hy with hhalf | ⟨c₀, op, user, rfl, hs, hcall⟩
      · rw [Call.request?_of_half hhalf] at hsets
        cases hsets
      · cases hdev
        exact (hsees user hs).2 y hcall (u, r) hsets c' hc hold.waits
  subst hc
  have hother : ∀ d, d ≠ c' → (Waits s' d u r ↔ Waits s d u r) := by
    intro d hd
    unfold Waits
    rw [hpush.other hd]
  obtain ⟨after, hq⟩ := hacc
  rw [hpush.same] at hq
  -- how many of the two updates the tap issues
  rcases List.append_eq_append_iff.1 hq with ⟨m, rfl, hm⟩ | ⟨m, hm, hrest⟩
  · obtain ⟨hxs, hnone, hentry⟩ :=
      ha.accepts hsees hdev (m ++ [.removeRequest u r]) (by simpa using hm)
    have hm' : m = [] := by simpa using hxs
    subst hm'
    refine ⟨fun y hy hsets => hnone c' ⟨y, ?_, hsets⟩, fun d hd => mt (hother d hd).1 (hnone d), hentry⟩
    rwa [List.append_nil] at hy
  · cases m with
    | nil =>
      obtain ⟨-, hnone, hentry⟩ :=
        ha.accepts hsees hdev [.removeRequest u r] (by simpa using hrest.symm)
      refine ⟨fun y hy hsets => hnone c' ⟨y, ?_, hsets⟩, fun d hd => mt (hother d hd).1 (hnone d), hentry⟩
      rw [hm, List.append_nil]
      exact hy
    | cons x m =>
      obtain ⟨hx, hnew⟩ := List.cons.inj hrest
      subst hx
      cases m with
      | nil =>
        -- the new updates would start with `addRelationship`
        obtain ⟨hxs, -⟩ := ha.accepts hsees hdev [] hnew.symm
        cases hxs
      | cons y m =>
        obtain ⟨hy, -⟩ := List.cons.inj hnew
        subst hy
        obtain ⟨hbefore, hothers, hentry⟩ := h.accept c' before id ⟨m, hm⟩
        exact ⟨hbefore, fun d hd => mt (hother d hd).1 (hothers d hd), hentry⟩

theorem Outstanding.apply (h : Outstanding u r s) {c : ι} {call : Call} {rest : List Call}
    (he : s.Applies s' c call rest) {c' : ι} {before : List Call} {id : String}
    (hacc : Accepting s' c' before u r id) :
    (∀ y ∈ before, y.request? ≠ some (u, r)) ∧ (∀ d, d ≠ c' → ¬ Waits s' d u r) ∧
    s'.db.entry .requests u r = .string id := by
  obtain ⟨hdb, hpop⟩ := he
  obtain ⟨hi, hins, -⟩ := h.tapped.call hpop.mem
  have hwaits : ∀ d, Waits s' d u r → Waits s d u r :=
    fun d ⟨y, hy, hsets⟩ => ⟨y, hpop.sub hy, hsets⟩
  -- the applied update does not set the request: it waited in front, or on another device
  suffices hold : call.request? ≠ some (u, r) ∧ (∀ y ∈ before, y.request? ≠ some (u, r)) ∧
      (∀ d, d ≠ c' → ¬ Waits s d u r) ∧ s.db.entry .requests u r = .string id by
    obtain ⟨hcall, hbefore, hothers, hentry⟩ := hold
    refine ⟨hbefore, fun d hd => mt (hwaits d) (hothers d hd), ?_⟩
    rw [hdb, Database.entry_apply hi hins, Call.sets_of_request_ne hcall]
    exact hentry
  obtain ⟨after, hq⟩ := hacc
  by_cases hc : c' = c
  · subst hc
    rw [hpop.same] at hq
    obtain ⟨hbefore, hothers, hentry⟩ := h.accept c' (call :: before) id
      ⟨after, by rw [hpop.head, hq, List.cons_append]⟩
    exact ⟨hbefore call List.mem_cons_self, fun y hy => hbefore y (List.mem_cons_of_mem _ hy), hothers,
      hentry⟩
  · rw [hpop.other hc] at hq
    obtain ⟨hbefore, hothers, hentry⟩ := h.accept c' before id ⟨after, hq⟩
    exact ⟨fun hsets => hothers c (Ne.symm hc) ⟨call, hpop.mem, hsets⟩, hbefore, hothers, hentry⟩

theorem Outstanding.step (h : Outstanding u r s) (ha : Tapping s a) (hsees : SeesRequest s a)
    (hs : s.step a = some s') : Outstanding u r s' := by
  refine ⟨h.tapped.step ha hs, fun c' before id hacc => ?_⟩
  rcases State.step_queue hs ha.app.2 with ⟨c, call, rest, -, happ⟩ | ⟨c, hdev, he⟩
  · exact h.apply happ hacc
  · exact h.enqueue ha hsees hdev he hacc

end

/-- **A relationship needs an outstanding request**, in every interleaving in which accept is tapped on
the request the database holds with nothing under way that sets it, and nobody taps what sets a request
whose accept waits on another device: whenever the updates of an accept are next, the request is there
with their id. -/
theorem accept_outstanding {gs : List Registration} (hg : ValidRegistrations gs)
    {hist : History (State ι) (Action ι)} {s : State ι}
    (hr : Reach State.step (fun _ s a => Tapping s a ∧ SeesRequest s a) (State.start (registered gs))
      hist s) :
    ∀ c u r id, Accepting s c [] u r id → s.db.entry .requests u r = .string id := by
  intro c u r id hacc
  have hstart : Outstanding u r (State.start (registered gs) : State ι) := by
    refine ⟨tapped_start hg, fun c before id ⟨after, hq⟩ => ?_⟩
    have hlen := congrArg List.length hq
    simp [State.queue, State.start, Client.idle] at hlen
  have h : Outstanding u r s :=
    hr.inv (I := fun _ s => Outstanding u r s) hstart
      fun _ _ _ _ _ hi ha hs => hi.step ha.1 ha.2 hs
  exact (h.accept c [] id hacc).2.2

/-- Alice, on device `c`, has the updates of an accept next. -/
def AliceAccepts (s : State ι) (c : ι) : Prop :=
  s.queue c = [.removeRequest "alice" "bob", .addRelationship "alice" "bob" "R1"]

instance (s : State ι) (c : ι) : Decidable (AliceAccepts s c) :=
  inferInstanceAs (Decidable (s.queue c = [_, _]))

/-- Bob asks, and Alice accepts when she sees it. -/
theorem accept_outstanding_bob :
    ∃ hist s, Reach State.step (fun _ s a => Tapping s a ∧ SeesRequest s a)
        (State.start (registered aliceAndBob) : State (Fin 2)) hist s ∧
      AliceAccepts s 0 ∧ s.db.entry .requests "alice" "bob" = .string "R1" := by
  have hplay : (exec State.step (fun _ s a => Tapping s a ∧ SeesRequest s a) []
      (State.start (registered aliceAndBob) : State (Fin 2)) (bothSignIn 0 1 ++ [.tap 1 (.addPending "alice" "R1"), .apply 1,
        .deliver 0 0, .tap 0 (.acceptRequest "bob")])).any (fun r => decide (AliceAccepts r.2 0)) =
      true := by
    decide +kernel
  obtain ⟨hist, s, hr, hacc⟩ := exists_reach_of_exec (P := fun _ (s : State (Fin 2)) => AliceAccepts s 0) hplay
  exact ⟨hist, s, hr, hacc,
    accept_outstanding validRegistrations_aliceAndBob hr 0 "alice" "bob" "R1" ⟨[], hacc⟩⟩

/-- Bob's Unsend reaches the server before the accept that Alice has tapped meanwhile. -/
theorem accept_withdrawn :
    ∃ hist s, Reach State.step (fun _ s a => Tapping s a)
        (State.start (registered aliceAndBob) : State (Fin 2)) hist s ∧
      AliceAccepts s 0 ∧ s.db.entry .requests "alice" "bob" = Tree.empty := by
  have hplay : (exec State.step (fun _ s a => Tapping s a) [] (State.start (registered aliceAndBob) : State (Fin 2))
      (bothSignIn 0 1 ++ [.tap 1 (.addPending "alice" "R1"), .apply 1, .deliver 0 0,
        .tap 1 (.deletePending "alice"), .tap 0 (.acceptRequest "bob"), .apply 1])).any
      (fun r => decide (AliceAccepts r.2 0 ∧ r.2.db.entry .requests "alice" "bob" = Tree.empty)) =
      true := by
    decide +kernel
  exact exists_reach_of_exec
    (P := fun _ (s : State (Fin 2)) => AliceAccepts s 0 ∧ s.db.entry .requests "alice" "bob" = Tree.empty) hplay

end Anissagram
