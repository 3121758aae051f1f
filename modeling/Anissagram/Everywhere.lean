import Anissagram.Network
/-
# Properties of everything there is

What a run keeps is often a property of each thing by itself: of the database, of every session, observer, token
request and waiting update. `State.Holds P` says that all of them have it. A step keeps that (`State.Holds.step`) if
whatever is made of things with the property has it (`Property.Passes`) and the action brings in nothing without it
(`Property.Admits`).
-/

namespace Anissagram

structure Property where
  db : Database → Prop
  user : User → Prop
  observer : Observer → Prop
  /-- Of a user name that a token is asked for. -/
  name : String → Prop
  call : Call → Prop

structure Client.Holds (P : Property) (k : Client) : Prop where
  session : ∀ user ∈ k.store.session, P.user user
  observers : ∀ o ∈ k.observers, P.observer o
  tokens : ∀ userName ∈ k.tokens, P.name userName
  queue : ∀ call ∈ k.queue, P.call call

structure State.Holds {ι : Type} (P : Property) (s : State ι) : Prop where
  db : P.db s.db
  clients : ∀ c, (s.clients c).Holds P

namespace Property

/-- What an update, an event, a handler or a token makes of things with the property has it. -/
structure Passes (P : Property) : Prop where
  apply : ∀ {db call}, P.db db → P.call call → P.db (db.apply call)
  notify : ∀ {o db db'}, P.observer o → P.db db' → P.observer (o.notify db db')
  handled : ∀ {o snapshot events}, P.observer o → o.events = snapshot :: events →
    P.observer (o.handled events)
  decoded : ∀ {o snapshot events user}, P.observer o → o.events = snapshot :: events →
    o.decoded snapshot = some user → P.user user ∧ P.name o.userName
  upload : ∀ {userName token}, P.name userName → (Call.uploadDeviceToken userName token).write.isSome →
    P.call (.uploadDeviceToken userName token)

/-- `retrieveUserByUsername` adds an observer with the property. -/
def Observes (P : Property) (db : Database) (entrance : Entrance) (auth : AuthUser) (userName : String) : Prop :=
  ∀ path ∈ child ["users"] userName, P.observer ⟨entrance, auth, userName, false, [db.sub path]⟩

/-- What an action brings in has the property. -/
def Admits {ι : Type} (P : Property) (s : State ι) : Action ι → Prop
  | .signUp _ authResult userName firstName lastName newUUID =>
    ∀ auth ∈ authResult, ∀ user, user = SessionStore.newUser auth userName firstName lastName newUUID →
      (Call.insertUser user).write.isSome → P.user user ∧ P.call (.insertUser user) ∧ P.name userName
  | .signIn _ authResult userName => ∀ auth ∈ authResult, P.Observes s.db .signIn auth userName
  | .setupUser _ auth userName => P.Observes s.db .setupUser auth userName
  | .tap c op => ∀ user ∈ s.session c,
    P.user (op.localEffect user) ∧ ∀ call ∈ op.calls user, call.write.isSome → P.call call
  | .reload _ o snapshot => ∀ user ∈ o.decoded snapshot, P.user user ∧ P.name o.userName
  | .remote w => P.db (s.db.update w)
  | .signOut _ _ | .token _ _ _ | .apply _ | .deliver _ _ | .kill _ _ => True

end Property

variable {P : Property}

/-! ## One process -/

namespace Client.Holds

variable {k : Client}

theorem idle : Client.idle.Holds P :=
  ⟨by simp [Client.idle, SessionStore.initial], by simp [Client.idle], by simp [Client.idle], by simp [Client.idle]⟩

theorem crash (hk : k.Holds P) : k.crash.Holds P := ⟨idle.session, idle.observers, idle.tokens, hk.queue⟩

theorem finish (hk : k.Holds P) {e : Effect Request SessionStore}
    (hs : ∀ store ∈ e.value, ∀ user ∈ store.session, P.user user)
    (hc : ∀ call ∈ e.issued.filterMap Request.call?, P.call call)
    (ht : ∀ userName ∈ e.issued.filterMap Request.token?, P.name userName) : (k.finish e).Holds P where
  session := by
    rw [finish_store]
    cases hv : e.value with
    | none => exact idle.session
    | some store => exact hs store hv
  observers := by
    rw [finish_observers]
    split
    · exact hk.observers
    · exact idle.observers
  tokens := by
    rw [finish_tokens]
    split
    · exact List.forall_mem_append.2 ⟨hk.tokens, ht⟩
    · exact idle.tokens
  queue := by
    rw [finish_queue]
    exact List.forall_mem_append.2 ⟨hk.queue, hc⟩

/-- A method that changes nothing. -/
theorem finish_pure (hk : k.Holds P) : (k.finish (pure k.store)).Holds P := by
  refine hk.finish ?_ (by simp) (by simp)
  rintro store ⟨rfl⟩
  exact hk.session

theorem observe (hk : k.Holds P) {db : Database} {entrance : Entrance} {auth : AuthUser} {userName : String}
    (ho : P.Observes db entrance auth userName) : (k.observe db entrance auth userName).Holds P := by
  rcases k.observe_cases db entrance auth userName with ⟨path, hp, hk'⟩ | hk'
  · rw [hk']
    exact ⟨hk.session, List.forall_mem_append.2 ⟨hk.observers, List.forall_mem_singleton.2 (ho path hp)⟩,
      hk.tokens, hk.queue⟩
  · rw [hk']
    exact hk.crash

theorem notify (hP : P.Passes) (hk : k.Holds P) {db db' : Database} (hdb : P.db db') : (k.notify db db').Holds P :=
  ⟨hk.session, List.forall_mem_map.2 fun o ho => hP.notify (hk.observers o ho) hdb, hk.tokens, hk.queue⟩

theorem receive (hk : k.Holds P) {o : Observer} (ho : P.observer o) (i : Nat) : (k.receive i o).Holds P := by
  refine ⟨hk.session, fun o' ho' => ?_, hk.tokens, hk.queue⟩
  rcases List.mem_or_eq_of_mem_set ho' with ho' | rfl
  · exact hk.observers o' ho'
  · exact ho

theorem completion (hk : k.Holds P) {o : Observer} {snapshot : Node}
    (hd : ∀ user ∈ o.decoded snapshot, P.user user ∧ P.name o.userName) :
    (k.finish (o.completion k.store snapshot)).Holds P := by
  rcases o.completion_cases k.store snapshot with ⟨user, tokens, hdec, -, ht, hc⟩ | ⟨-, hc⟩ | ⟨-, -, hc⟩
  · refine hk.finish ?_ (by rw [o.completion_calls]; simp) fun userName hu => ?_
    · rw [hc]
      rintro store ⟨rfl⟩ user' ⟨rfl⟩
      exact (hd user hdec).1
    · rw [hc] at hu
      obtain ⟨t, hmem, hname⟩ := List.mem_filterMap.1 hu
      rw [ht t hmem] at hname
      cases hname
      exact (hd user hdec).2
  · rw [hc]
    exact hk.finish (by simp) (by simp) (by simp)
  · rw [hc]
    exact hk.finish_pure

theorem signUp (hk : k.Holds P) {authResult : Option AuthUser} {userName firstName lastName newUUID : String}
    (hnew : ∀ auth ∈ authResult, ∀ user, user = SessionStore.newUser auth userName firstName lastName newUUID →
      (Call.insertUser user).write.isSome → P.user user ∧ P.call (.insertUser user) ∧ P.name userName) :
    (k.finish (k.store.signUp authResult userName firstName lastName newUUID)).Holds P := by
  cases authResult with
  | none => exact hk.finish_pure
  | some auth =>
    unfold SessionStore.signUp
    dsimp only
    split
    · obtain ⟨huser, hcall, hname⟩ := hnew auth rfl _ rfl (by assumption)
      refine hk.finish ?_ (List.forall_mem_singleton.2 hcall) (List.forall_mem_singleton.2 hname)
      rintro store ⟨rfl⟩ user ⟨rfl⟩
      exact huser
    · exact hk.finish (by simp) (by simp) (by simp)

theorem tap (hk : k.Holds P) {op : LinkOp}
    (hop : ∀ user ∈ k.store.session,
      P.user (op.localEffect user) ∧ ∀ call ∈ op.calls user, call.write.isSome → P.call call) :
    (k.finish (Effect.mapIssued .call (op.run k.store))).Holds P := by
  cases hs : k.store.session with
  | none =>
    rw [op.run_none hs]
    exact hk.finish_pure
  | some user =>
    obtain ⟨huser, hcalls⟩ := hop user hs
    obtain ⟨hwrite, hpre, hval⟩ := op.run_spec hs
    refine hk.finish ?_ ?_ (by simp [Request.token?])
    · intro store hstore
      obtain ⟨-, -, rfl⟩ := hval store hstore
      rintro user' ⟨rfl⟩
      exact huser
    · rw [Effect.mapIssued_issued, List.filterMap_map, show Request.call? ∘ Request.call = some from rfl,
        List.filterMap_some]
      exact fun call hcall => hcalls call (hpre.mem hcall) (hwrite call hcall)

theorem upload (hP : P.Passes) (hk : k.Holds P) {userName : String} (hname : P.name userName) (token : String) :
    (k.finish (Effect.mapIssued .call do (Call.uploadDeviceToken userName token).send; pure k.store)).Holds P := by
  rw [Call.send_bind]
  split
  · refine hk.finish ?_ (List.forall_mem_singleton.2 (hP.upload hname (by assumption))) (by simp [Request.token?])
    rintro store ⟨rfl⟩
    exact hk.session
  · exact hk.finish (by simp) (by simp) (by simp)

end Client.Holds

/-! ## One step -/

namespace State.Holds

variable {ι : Type} [DecidableEq ι] {s s' : State ι}

omit [DecidableEq ι] in
/-- Before anything runs only the database matters. -/
theorem start {db : Database} (h : P.db db) : (State.start db : State ι).Holds P := ⟨h, fun _ => Client.Holds.idle⟩

theorem setClient (h : s.Holds P) {c : ι} {k : Client} (hk : k.Holds P) : (s.setClient c k).Holds P := by
  refine ⟨h.db, fun c' => ?_⟩
  rw [setClient_clients]
  split
  · exact hk
  · exact h.clients c'

omit [DecidableEq ι] in
theorem commit (hP : P.Passes) (h : s.Holds P) {w : CompoundWrite} (hw : P.db (s.db.update w)) : (s.commit w).Holds P :=
  ⟨hw, fun c => (h.clients c).notify hP hw⟩

/-- **One step** keeps a property of everything, if what the action brings in has it. -/
theorem step (hP : P.Passes) (h : s.Holds P) {a : Action ι} (ha : P.Admits s a) (hs : s.step a = some s') :
    s'.Holds P := by
  cases a with
  | signUp c authResult userName firstName lastName newUUID =>
    cases hs
    exact h.setClient ((h.clients c).signUp ha)
  | signIn c authResult userName =>
    cases authResult with
    | none =>
      cases hs
      exact h
    | some auth =>
      cases hs
      exact h.setClient ((h.clients c).observe (ha auth rfl))
  | setupUser c auth userName =>
    cases hs
    exact h.setClient ((h.clients c).observe ha)
  | signOut c signedOut =>
    cases hs
    obtain ⟨hsession, hobservers, htokens, hqueue⟩ := h.clients c
    refine h.setClient ⟨?_, hobservers, htokens, hqueue⟩
    unfold SessionStore.signOut
    split
    · simp
    · exact hsession
  | tap c op =>
    cases hs
    exact h.setClient ((h.clients c).tap ha)
  | token c i token =>
    obtain ⟨userName, hu, rfl⟩ := step_token.1 hs
    obtain ⟨hsession, hobservers, htokens, hqueue⟩ := h.clients c
    have hk : Client.Holds P { s.clients c with tokens := (s.clients c).tokens.eraseIdx i } :=
      ⟨hsession, hobservers, fun x hx => htokens x (List.mem_of_mem_eraseIdx hx), hqueue⟩
    cases token with
    | none => exact h.setClient hk
    | some token => exact h.setClient (hk.upload hP (htokens userName (List.mem_of_getElem? hu)) token)
  | apply c =>
    obtain ⟨call, queue, hq, rfl⟩ := step_apply.1 hs
    obtain ⟨hsession, hobservers, htokens, hqueue⟩ := h.clients c
    have hs' : (s.setClient c { s.clients c with queue := queue }).Holds P :=
      h.setClient ⟨hsession, hobservers, htokens, fun x hx => hqueue x (hq ▸ List.mem_cons_of_mem _ hx)⟩
    exact hs'.commit hP (hP.apply h.db (hqueue call (hq ▸ List.mem_cons_self)))
  | deliver c i =>
    obtain ⟨o, snapshot, events, ho, he, rfl⟩ := step_deliver.1 hs
    have hobserver := (h.clients c).observers o (List.mem_of_getElem? ho)
    exact h.setClient (((h.clients c).receive (hP.handled hobserver he) i).completion fun user =>
      hP.decoded hobserver he)
  | kill c sent =>
    cases hs
    obtain ⟨hsession, hobservers, htokens, -⟩ := Client.Holds.idle (P := P)
    exact h.setClient ⟨hsession, hobservers, htokens, fun x hx => (h.clients c).queue x (List.mem_of_mem_take hx)⟩
  | reload c o snapshot =>
    cases hs
    exact h.setClient ((h.clients c).completion ha)
  | remote w =>
    cases hs
    exact h.commit hP ha

end State.Holds

end Anissagram
