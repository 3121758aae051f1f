import Anissagram.LinkOps
import Anissagram.Shape
/-
# The rows of the search view (`Views/MainViews/ExploreView.swift:263-344`)

| here | there |
| --- | --- |
| `SearchResultItem.body`  | the branches of `SearchResultItem.body` (:281-339) |
| `Button.label`, `Button.op` | what a button shows and what its action runs; `toggled` is the row's own flag |
| `Button.taps`            | taps on one button before the row is rendered again |
| `State.Displays`         | `downloadUsers` (`DatabaseManager.swift:137`) and `UserDisplays` (:146) |

A button runs its operation on the session as it is when it is tapped, and not as it was when the row was
rendered. `offered_runs_iff`: every offered operation runs to its end but the ones that would relate a user to
itself. `repeated_taps_iff`: a second tap does no harm where the first one leaves nothing to be cast.
-/

namespace Anissagram

open PathTree NSMutableDictionary Runs

variable {ι : Type} [DecidableEq ι]

namespace SearchResultItem

inductive Button where
  | delete
  | unsend
  | accept
  | decline
  /-- The button of the last branch. -/
  | toggle
deriving DecidableEq, Repr

/-- The buttons of a row, as its chain of branches offers them. -/
def body (s : SessionStore) (name : String) : List Button :=
  if s.isInRelationship name then [.delete]
  else if s.isPendingRelationship name then [.unsend]
  else if s.isRequestedRelationship name then [.accept, .decline]
  else [.toggle]

namespace Button

/-- The text of a button, or its image. -/
def label (toggled : Bool) : Button → String
  | delete => "Delete"
  | unsend => "Unsend"
  | accept => "checkmark"
  | decline => "xmark"
  | toggle => if toggled then "Unsend" else "Add"

def op (toggled : Bool) (name newUUID : String) : Button → LinkOp
  | delete => .deleteRelationShip name
  | unsend => .deletePending name
  | accept => .acceptRequest name
  | decline => .declineRequest name
  | toggle => if toggled then .deletePending name else .addPending name newUUID

/-- The flag after a tap. -/
def flip (toggled : Bool) : Button → Bool
  | toggle => !toggled
  | _ => toggled

/-- The operations of several taps, each with the id it would draw. -/
def taps (toggled : Bool) (name : String) (b : Button) : List String → List LinkOp
  | [] => []
  | newUUID :: ids => b.op toggled name newUUID :: taps (b.flip toggled) name b ids

@[simp] theorem op_name (b : Button) (toggled : Bool) (name newUUID : String) :
    (b.op toggled name newUUID).name = name := by
  cases b <;> cases toggled <;> rfl

theorem op_uuid {b : Button} {toggled : Bool} {name newUUID id : String}
    (h : id ∈ (b.op toggled name newUUID).uuid?) : id = newUUID := by
  cases b <;> cases toggled <;> cases h
  rfl

end Button

theorem buttons_eq (s : SessionStore) (toggled : Bool) (name newUUID : String) :
    buttons s toggled name newUUID = (body s name).map (Button.op toggled name newUUID) := by
  unfold buttons body
  split
  · rfl
  split
  · rfl
  split
  · rfl
  · cases toggled <;> rfl

end SearchResultItem

/-! ## Operations on a session in shape -/

/-- An operation that adds or deletes a relationship. -/
def LinkOp.SetsRelationship : LinkOp → Prop
  | addRelationShip _ _ | deleteRelationShip _ | acceptRequest _ => True
  | _ => False

instance (op : LinkOp) : Decidable op.SetsRelationship :=
  match op with
  | .addRelationShip _ _ | .deleteRelationShip _ | .acceptRequest _ => instDecidableTrue
  | .addPending _ _ | .deletePending _ | .declineRequest _ => instDecidableFalse

instance (a u : String) : Decidable (NodeName a u) := inferInstanceAs (Decidable (_ ∧ _))

theorem LinkOp.run_isSome (op : LinkOp) {s : SessionStore} {user : User} (hs : s.session = some user) :
    (op.run s).value.isSome ↔ op.CastOk user ∧ ∀ c ∈ op.calls user, c.write.isSome := by
  obtain ⟨hissued, -, hvalue⟩ := op.run_spec hs
  constructor
  · intro h
    obtain ⟨s', hs'⟩ := Option.isSome_iff_exists.1 h
    obtain ⟨hcast, hcalls, -⟩ := hvalue s' hs'
    exact ⟨hcast, hcalls ▸ hissued⟩
  · rintro ⟨hcast, hcalls⟩
    rw [op.run_completes hs hcast hcalls]
    rfl

theorem LinkOp.idsOk_of_inShape {op : LinkOp} {user : User} (hu : user.InShape)
    (hid : ∀ id ∈ op.uuid?, isValidKey id) : op.IdsOk user := by
  intro c hc r hr
  cases op with
  | addRelationShip name id =>
    obtain rfl := List.mem_singleton.1 hc
    simp only [Call.record?, Option.mem_def, Option.some.injEq] at hr
    exact hr ▸ hid id rfl
  | deleteRelationShip name =>
    simp only [calls, Option.mem_toList, Option.map_eq_some_iff] at hc
    obtain ⟨id, hat, rfl⟩ := hc
    simp only [Call.record?, Option.mem_def, Option.some.injEq] at hr
    exact hr ▸ ((hu.entries .relationships).valid hat).2
  | acceptRequest name =>
    simp only [calls, List.mem_cons, Option.mem_toList, Option.map_eq_some_iff] at hc
    rcases hc with rfl | ⟨id, hat, rfl⟩
    · cases hr
    · simp only [Call.record?, Option.mem_def, Option.some.injEq] at hr
      exact hr ▸ ((hu.entries .requests).valid hat).2
  | _ =>
    obtain rfl := List.mem_singleton.1 hc
    cases hr

/-- The SDK takes an update of the caller unless it relates a node to itself. -/
theorem Call.own_write_iff {c : Call} {h : Half} {u r : String} (ho : c.own? = some h) (hu : NodeName h.owner u)
    (hr : NodeName h.name r) (hid : ∀ r ∈ c.record?, isValidKey r.1) :
    c.write.isSome ↔ (h.field = .relationships → u ≠ r) := by
  have hkeys : ∀ r ∈ c.record?, ∀ k ∈ pathComponents r.1, isValidKey k := by
    intro r hr k hk
    have hvalid := hid r hr
    rw [hvalid.pathComponents, List.mem_singleton] at hk
    exact hk ▸ hvalid
  cases c <;> simp only [Call.own?, Option.some.injEq, reduceCtorEq] at ho
  all_goals subst ho
  case removeRequest a b =>
    rw [Call.write_isSome_iff (h := ⟨.pending, b, a, none⟩) rfl hr.1 hu.1 ⟨hr.2, hu.2⟩ hkeys]
    simp
  all_goals exact Call.write_isSome_iff rfl hu.1 hr.1 ⟨hu.2, hr.2⟩ hkeys

/-- One of the updates of an operation is about a relationship exactly when the operation is. -/
theorem LinkOp.setsRelationship_iff {op : LinkOp} {user : User} (hcast : op.CastOk user) :
    op.SetsRelationship ↔ ∃ c ∈ op.calls user, ∃ h ∈ c.own?, h.field = .relationships := by
  cases op with
  | deleteRelationShip name =>
    obtain ⟨id, hat⟩ := Option.isSome_iff_exists.1 hcast
    simp [SetsRelationship, calls, hat, Call.own?]
  | acceptRequest name =>
    obtain ⟨id, hat⟩ := Option.isSome_iff_exists.1 hcast
    simp [SetsRelationship, calls, hat, Call.own?]
  | _ => simp [SetsRelationship, calls, Call.own?]

/-- **When an operation runs to its end**: its cast finds an id, and it does not relate a node to itself. -/
theorem LinkOp.run_isSome_iff {op : LinkOp} {s : SessionStore} {user : User} (hs : s.session = some user)
    (hu : user.InShape) (hn : isValidKey op.name) (hid : ∀ id ∈ op.uuid?, isValidKey id) :
    (op.run s).value.isSome ↔ op.CastOk user ∧ (op.SetsRelationship → ¬ NodeName user.userName op.name) := by
  rw [op.run_isSome hs]
  refine and_congr_right fun hcast => ?_
  obtain ⟨u, hnode⟩ := hu.node
  have hself : NodeName user.userName op.name ↔ u = op.name := by
    constructor
    · rintro ⟨hpath, -⟩
      exact List.singleton_inj.1 (hnode.1.symm.trans hpath)
    · rintro rfl
      exact hnode
  have hwrite : ∀ c ∈ op.calls user, ∀ h ∈ c.own?, (c.write.isSome ↔ (h.field = .relationships → u ≠ op.name)) := by
    intro c hc h ho
    obtain ⟨h', ho', hown, hname⟩ := LinkOp.calls_own hc
    cases ho.symm.trans ho'
    exact Call.own_write_iff ho (hown ▸ hnode) (hname ▸ hn.nodeName) (LinkOp.idsOk_of_inShape hu hid c hc)
  rw [hself, LinkOp.setsRelationship_iff hcast]
  constructor
  · rintro hall ⟨c, hc, h, ho, hf⟩
    exact (hwrite c hc h ho).1 (hall c hc) hf
  · intro hne c hc
    obtain ⟨h, ho, -⟩ := LinkOp.calls_own hc
    exact (hwrite c hc h ho).2 fun hf => hne ⟨c, hc, h, ho, hf⟩

/-! ## Every offered operation -/

/-- The names that rows are shown for: those of `downloadUsers`, and the keys of the dictionaries. -/
def State.Displays {ι : Type} (s : State ι) (c : ι) (name : String) : Prop :=
  name ∈ (s.db.sub ["users"]).keys ∨ ∃ user ∈ s.session c, ∃ f, name ∈ (user.dict f).keys

omit [DecidableEq ι] in
/-- Such a name is a key of the database. -/
theorem State.InShape.displays {s : State ι} (h : s.InShape) {c : ι} {name : String} (hname : s.Displays c name) :
    isValidKey name := by
  rcases hname with hname | ⟨user, hs, f, hname⟩
  · rw [Tree.mem_keys, Tree.sub_sub] at hname
    obtain ⟨p, v, hv⟩ : ∃ p v, s.db.leaf ("users" :: name :: p) = some v := by
      by_contra hno
      exact hname (Tree.ext_leaf fun p => Option.eq_none_iff_forall_ne_some.2 fun v hv => hno ⟨p, v, hv⟩)
    have hplaced := h.db _ _ hv
    generalize hq : "users" :: name :: p = q at hplaced
    cases hplaced with
    | name _ hu _ => exact (List.cons.inj (List.cons.inj hq).2).1 ▸ hu
    | entry _ hu _ _ => exact (List.cons.inj (List.cons.inj hq).2).1 ▸ hu
    | elsewhere _ _ hk => exact absurd (List.cons.inj hq).1.symm hk
  · obtain ⟨value, hv, hvalid⟩ := (((h.clients c).session user hs).entries f).entry name
    rw [Tree.mem_keys] at hname
    cases value with
    | none => exact absurd hv hname
    | some id => exact (hvalid id rfl).1

/-- A button is offered only where its cast finds an id. -/
theorem SearchResultItem.castOk_of_mem_body {s : SessionStore} {user : User} (hs : s.session = some user)
    (hu : user.InShape) {b : Button} {name : String} (hb : b ∈ body s name) (toggled : Bool) (newUUID : String) :
    (b.op toggled name newUUID).CastOk user := by
  have hholds : ∀ f, s.holds f name → (LinkOp.idAt user f name).isSome := by
    rintro f ⟨user', hs', hne⟩
    cases hs.symm.trans hs'
    exact (hu.entries f).idAt_isSome hne
  unfold body at hb
  split at hb
  · rename_i hrel
    obtain rfl := List.mem_singleton.1 hb
    exact hholds .relationships hrel
  split at hb
  · obtain rfl := List.mem_singleton.1 hb
    exact trivial
  split at hb
  · rename_i hreq
    simp only [List.mem_cons, List.not_mem_nil, or_false] at hb
    rcases hb with rfl | rfl
    · exact hholds .requests hreq
    · exact trivial
  · obtain rfl := List.mem_singleton.1 hb
    cases toggled <;> exact trivial

/-- **What a row offers can be done, except relating a user to itself.** In every state that the app reaches
and for every name a row can be shown for, one tap runs to its end exactly when it is not Delete or accept in the
row of the session's own node. -/
theorem offered_runs_iff {hist : History (State ι) (Action ι)} {s : State ι}
    (hr : Reach State.step (fun _ _ a => a.FromApp) (State.start Tree.empty) hist s) {c : ι} {user : User}
    (hs : s.session c = some user) {name : String} (hname : s.Displays c name) {newUUID : String}
    (hid : isValidKey newUUID) {toggled : Bool} {op : LinkOp}
    (hop : op ∈ SearchResultItem.buttons (s.clients c).store toggled name newUUID) :
    (op.run (s.clients c).store).value.isSome ↔ (op.SetsRelationship → ¬ NodeName user.userName name) := by
  have h := inShape_run (fun _ _ _ ha => ha) hr
  have hu := (h.clients c).session user hs
  have hn := h.displays hname
  rw [SearchResultItem.buttons_eq] at hop
  obtain ⟨b, hb, rfl⟩ := List.mem_map.1 hop
  have hcast := SearchResultItem.castOk_of_mem_body hs hu hb toggled newUUID
  rw [LinkOp.run_isSome_iff hs hu (by rwa [b.op_name]) fun id hmem => SearchResultItem.Button.op_uuid hmem ▸ hid,
    b.op_name]
  exact and_iff_right hcast

/-- Alice and Bob sign up, each on a device of their own. -/
def bothSignUp (c d : ι) : List (Action ι) :=
  [.signUp c (some alice.auth) "alice" "Alice" "Liddell" "A0", .apply c,
    .signUp d (some bob.auth) "bob" "Bob" "Moran" "B0", .apply d]

/-- Alice looks for Bob, whom she can add. -/
theorem offered_runs_iff_bob :
    ∃ hist s, Reach State.step (fun _ _ a => a.FromApp) (State.start Tree.empty : State (Fin 2)) hist s ∧
      (LinkOp.run (s.clients 0).store (.addPending "bob" "R1")).value.isSome := by
  have hplay : (exec State.step (fun _ _ a => a.FromApp) [] (State.start Tree.empty : State (Fin 2))
      (bothSignUp 0 1)).any (fun r => decide ((r.2.session 0).isSome ∧
        "bob" ∈ (r.2.db.sub ["users"]).keys ∧
        LinkOp.addPending "bob" "R1" ∈ SearchResultItem.buttons (r.2.clients 0).store false "bob" "R1")) = true := by
    decide +kernel
  obtain ⟨hist, s, hr, hs, hname, hop⟩ := exists_reach_of_exec
    (P := fun _ (s : State (Fin 2)) => (s.session 0).isSome ∧ "bob" ∈ (s.db.sub ["users"]).keys ∧
      LinkOp.addPending "bob" "R1" ∈ SearchResultItem.buttons (s.clients 0).store false "bob" "R1") hplay
  obtain ⟨user, hs⟩ := Option.isSome_iff_exists.1 hs
  exact ⟨hist, s, hr, (offered_runs_iff hr hs (Or.inl hname) (by decide) hop).2 fun h => absurd h id⟩

/-- Alice taps Delete in her own row. -/
theorem own_row_stops :
    ∃ hist s, Reach State.step (fun _ _ a => a.FromApp) (State.start Tree.empty : State (Fin 2)) hist s ∧
      (∃ user ∈ s.session 0, user.Matches s.db) ∧ "alice" ∈ (s.db.sub ["users"]).keys ∧
      LinkOp.deleteRelationShip "alice" ∈ SearchResultItem.buttons (s.clients 0).store false "alice" "R1" ∧
      (LinkOp.run (s.clients 0).store (.deleteRelationShip "alice")).value.isNone := by
  have hplay : (exec State.step (fun _ _ a => a.FromApp) [] (State.start Tree.empty : State (Fin 2))
      (bothSignUp 0 1)).any (fun r => decide ((∃ user ∈ r.2.session 0, user.Matches r.2.db) ∧
        "alice" ∈ (r.2.db.sub ["users"]).keys ∧
        LinkOp.deleteRelationShip "alice" ∈ SearchResultItem.buttons (r.2.clients 0).store false "alice" "R1" ∧
        (LinkOp.run (r.2.clients 0).store (.deleteRelationShip "alice")).value.isNone)) = true := by
    decide +kernel
  exact exists_reach_of_exec (P := fun _ (s : State (Fin 2)) => (∃ user ∈ s.session 0, user.Matches s.db) ∧
    "alice" ∈ (s.db.sub ["users"]).keys ∧
    LinkOp.deleteRelationShip "alice" ∈ SearchResultItem.buttons (s.clients 0).store false "alice" "R1" ∧
    (LinkOp.run (s.clients 0).store (.deleteRelationShip "alice")).value.isNone) hplay

/-! ## Taps that change one entry -/

/-- The dictionaries of the session and the database when all updates are applied, if nothing traps. -/
def LinkOp.outcome (s : SessionStore) (db : Database) (ops : List LinkOp) :
    Option (Option (Field → NSMutableDictionary) × Database) :=
  (LinkOp.execAll s db ops).map fun x => (x.1.session.map User.dict, x.2)

/-- The entry that an operation without a relationship sets, in the session and the database. -/
def LinkOp.entryOf? : LinkOp → Option (Field × Option String)
  | addPending _ newUUID => some (.pending, some newUUID)
  | deletePending _ => some (.pending, none)
  | declineRequest _ => some (.requests, none)
  | _ => none

/-- The one update of such an operation. -/
theorem LinkOp.entry_calls {op : LinkOp} {f : Field} {v : Option String} (h : op.entryOf? = some (f, v)) (user : User) :
    ∃ c, op.calls user = [c] ∧ c.record? = none ∧
      c.half? = some (if f = .pending then ⟨.pending, user.userName, op.name, v⟩
        else ⟨.pending, op.name, user.userName, v⟩) := by
  cases op <;> simp only [entryOf?, Option.some.injEq, Prod.mk.injEq, reduceCtorEq] at h
  all_goals
    obtain ⟨rfl, rfl⟩ := h
    exact ⟨_, rfl, rfl, rfl⟩

theorem LinkOp.entry_localEffect {op : LinkOp} {f : Field} {v : Option String} (h : op.entryOf? = some (f, v))
    (user : User) : op.localEffect user = user.mutate f op.name v := by
  cases op <;> simp only [entryOf?, Option.some.injEq, Prod.mk.injEq, reduceCtorEq] at h
  all_goals
    obtain ⟨rfl, rfl⟩ := h
    rfl

theorem LinkOp.entry_cast {op : LinkOp} {f : Field} {v : Option String} (h : op.entryOf? = some (f, v)) (user : User) :
    op.CastOk user ∧ ¬ op.SetsRelationship := by
  cases op <;> simp only [entryOf?, reduceCtorEq] at h
  all_goals exact ⟨trivial, id⟩

theorem User.InShape.mutate_mutate {user : User} (hu : user.InShape) (f : Field) (name : String) (v w : Option String) :
    (user.mutate f name v).mutate f name w = user.mutate f name w := by
  have h := (hu.entries f).store_store name v w
  cases f
  all_goals
    simp only [User.dict] at h
    simp only [User.mutate, h]

/-- Nothing is stored above an entry. -/
theorem Database.InShape.above {db : Database} (h : db.InShape) {u n : String} {f : Field} {q : List String}
    (hq : q <+: ["users", u, f.key, n]) (hne : q ≠ ["users", u, f.key, n]) : db.leaf q = none := by
  refine Option.eq_none_iff_forall_ne_some.2 fun v hv => ?_
  have hplaced := h q v hv
  cases hplaced with
  | name _ _ hk =>
    obtain ⟨-, hkey⟩ : _ = u ∧ _ = f.key := by simpa [List.cons_prefix_cons] using hq
    rw [hkey] at hk
    exact absurd hk (by cases f <;> decide)
  | entry _ _ _ _ => exact hne (hq.eq_of_length rfl)
  | elsewhere _ _ hk => exact hk (List.cons_prefix_cons.1 hq).1

/-- The second of two updates of one entry. -/
theorem Database.InShape.overwrite {db : Database} (hdb : db.InShape) {c c' : Call} {h : Half} {v : Option String}
    (hh : c.half? = some h) (hh' : c'.half? = some { h with value := v }) (hrec : c.record? = none)
    (hrec' : c'.record? = none) {u r : String} (hu : NodeName h.owner u) (hr : NodeName h.name r)
    (hw : c.write.isSome) (hw' : c'.write.isSome) : (db.apply c).apply c' = db.apply c' := by
  obtain ⟨ws, hws⟩ := Option.isSome_iff_exists.1 hw
  obtain ⟨ws', hws'⟩ := Option.isSome_iff_exists.1 hw'
  obtain ⟨rfl, hap⟩ := c.write_under hh hu.1 hr.1 hws
  obtain ⟨rfl, -⟩ := c'.write_under (h := { h with value := v }) hh' hu.1 hr.1 hws'
  unfold Database.apply
  rw [hws, hws', Option.getD_some, Option.getD_some]
  refine Tree.update_update db ?_ hap fun w hmem q => ?_
  · simp [Call.recordWrite, hrec, hrec', Half.write, Half.under, Half.mirror]
  · simp only [Call.recordWrite, hrec, Option.map_none, Option.toList_none, List.mem_cons, List.not_mem_nil,
      or_false] at hmem
    rcases hmem with rfl | rfl <;> exact hdb.above

section
variable {s : SessionStore} {user : User} {db : Database} {f : Field}

theorem LinkOp.exec_entry (op : LinkOp) (db : Database) (hs : s.session = some user) (hu : user.InShape) {v : Option String}
    (he : op.entryOf? = some (f, v)) (hn : isValidKey op.name) (hid : ∀ id ∈ op.uuid?, isValidKey id) :
    op.exec s db = some ({ s with session := some (user.mutate f op.name v) }, db.applyAll (op.calls user)) ∧
      ∀ c ∈ op.calls user, c.write.isSome := by
  obtain ⟨hcast, hrel⟩ := LinkOp.entry_cast he user
  have hsome := (LinkOp.run_isSome_iff hs hu hn hid).2 ⟨hcast, fun h => absurd h hrel⟩
  have hwrite := ((op.run_isSome hs).1 hsome).2
  rw [LinkOp.exec, op.run_completes hs hcast hwrite, LinkOp.entry_localEffect he]
  exact ⟨rfl, hwrite⟩

/-- Of two operations on one entry only the second one counts. -/
theorem LinkOp.exec_exec (hs : s.session = some user) (hu : user.InShape) (hdb : db.InShape) {op op' : LinkOp}
    {v v' : Option String} (he : op.entryOf? = some (f, v)) (he' : op'.entryOf? = some (f, v')) (hname : op'.name = op.name)
    (hn : isValidKey op.name) (hid : ∀ id ∈ op.uuid?, isValidKey id) (hid' : ∀ id ∈ op'.uuid?, isValidKey id) :
    ∃ s' db', op.exec s db = some (s', db') ∧ op'.exec s' db' = op'.exec s db := by
  have hn' : isValidKey op'.name := hname ▸ hn
  obtain ⟨hexec, hw⟩ := op.exec_entry db hs hu he hn hid
  obtain ⟨hexec', hw'⟩ := op'.exec_entry db hs hu he' hn' hid'
  have hu' : (user.mutate f op.name v).InShape :=
    LinkOp.entry_localEffect he user ▸ LinkOp.localEffect_inShape hu hn hid
  refine ⟨_, _, hexec, ?_⟩
  obtain ⟨hexec₂, -⟩ := op'.exec_entry (s := { s with session := some (user.mutate f op.name v) })
    (db.applyAll (op.calls user)) rfl hu' he' hn' hid'
  rw [hexec₂, hexec', hname, hu.mutate_mutate]
  obtain ⟨u, hnode⟩ := hu.node
  obtain ⟨c, hc, hrec, hh⟩ := LinkOp.entry_calls he user
  obtain ⟨c', hc', hrec', hh'⟩ := LinkOp.entry_calls he' user
  obtain ⟨c₂, hc₂, -, -⟩ := LinkOp.entry_calls he' (user.mutate f op.name v)
  have hcalls : op'.calls (user.mutate f op.name v) = op'.calls user := by
    cases op' <;> simp only [LinkOp.entryOf?, reduceCtorEq] at he' <;> simp [LinkOp.calls]
  rw [hcalls, hc, hc']
  rw [hc, List.forall_mem_singleton] at hw
  rw [hc', List.forall_mem_singleton] at hw'
  simp only [Database.applyAll_cons, Database.applyAll_nil]
  rw [hname] at hh'
  congr 2
  split at hh
  · rename_i hf
    rw [if_pos hf] at hh'
    exact hdb.overwrite hh hh' hrec hrec' hnode hn.nodeName hw hw'
  · rename_i hf
    rw [if_neg hf] at hh'
    exact hdb.overwrite hh hh' hrec hrec' hn.nodeName hnode hw hw'

/-- Of several operations on one entry only the last one counts. -/
theorem LinkOp.execAll_entries (hs : s.session = some user) (hu : user.InShape) (hdb : db.InShape) {name : String}
    (hn : isValidKey name) {last : LinkOp} :
    ∀ {ops : List LinkOp}, (∀ op ∈ ops ++ [last], (∃ v, op.entryOf? = some (f, v)) ∧ op.name = name ∧
        ∀ id ∈ op.uuid?, isValidKey id) →
      LinkOp.execAll s db (ops ++ [last]) = LinkOp.execAll s db [last]
  | [], _ => rfl
  | op :: ops, h => by
    have hrest : ∀ op ∈ ops ++ [last], (∃ v, op.entryOf? = some (f, v)) ∧ op.name = name ∧
        ∀ id ∈ op.uuid?, isValidKey id := fun x hx => h x (List.mem_cons_of_mem _ hx)
    rw [← LinkOp.execAll_entries hs hu hdb hn hrest]
    obtain ⟨op', ops', hops⟩ := List.exists_cons_of_ne_nil (List.append_ne_nil_of_right_ne_nil ops (List.cons_ne_nil last []))
    obtain ⟨⟨v, he⟩, hname, hid⟩ := h op List.mem_cons_self
    rw [List.cons_append, hops]
    obtain ⟨⟨v', he'⟩, hname', hid'⟩ := hrest op' (hops ▸ List.mem_cons_self)
    obtain ⟨s', db', hexec, hexec'⟩ :=
      LinkOp.exec_exec hs hu hdb he he' (hname'.trans hname.symm) (hname ▸ hn) hid hid'
    simp only [LinkOp.execAll, hexec, hexec', Option.bind_eq_bind, Option.bind_some]

end

/-! ## Repeated taps -/

namespace SearchResultItem.Button

/-- The taps `ids` on a button stop nothing, and unless it is Add they do what the first of them does. -/
structure Harmless (b : Button) (s : SessionStore) (db : Database) (toggled : Bool) (name : String) (ids : List String) :
    Prop where
  runs : (LinkOp.outcome s db (b.taps toggled name ids)).isSome
  once : b.label toggled ≠ "Add" →
    LinkOp.outcome s db (b.taps toggled name ids) = LinkOp.outcome s db (b.taps toggled name (ids.take 1))

/-- When `n` taps on a button are harmless. Delete and accept remove what their cast needs; the last branch does
the opposite at every second tap. -/
def Repeats (b : Button) (user : User) (toggled : Bool) (name : String) (n : Nat) : Prop :=
  match b with
  | delete => n = 1 ∧ object user.relationships name ≠ Tree.empty ∧ ¬ NodeName user.userName name
  | accept => n = 1 ∧ object user.requests name ≠ Tree.empty ∧ ¬ NodeName user.userName name
  | unsend | decline => True
  | toggle => toggled = true → n % 2 = 1

theorem taps_concat (b : Button) (name id : String) :
    ∀ (toggled : Bool) (ids : List String), b.taps toggled name (ids ++ [id]) =
      b.taps toggled name ids ++ [b.op ((fun t => b.flip t)^[ids.length] toggled) name id]
  | _, [] => rfl
  | toggled, id' :: ids => by
    simp only [List.cons_append, taps, taps_concat b name id (b.flip toggled) ids, List.length_cons,
      Function.iterate_succ_apply]

theorem op_mem_taps {b : Button} {name : String} {op : LinkOp} :
    ∀ {toggled : Bool} {ids : List String}, op ∈ b.taps toggled name ids →
      ∃ toggled', ∃ id ∈ ids, op = b.op toggled' name id
  | _, [], h => by cases h
  | toggled, id :: ids, h => by
    rcases List.mem_cons.1 h with rfl | h
    · exact ⟨toggled, id, List.mem_cons_self, rfl⟩
    · obtain ⟨toggled', id', hmem, rfl⟩ := op_mem_taps h
      exact ⟨toggled', id', List.mem_cons_of_mem _ hmem, rfl⟩

section
variable {s : SessionStore} {user : User} {db : Database} {name : String} {toggled : Bool} {ids : List String}

theorem outcome_single_isSome (op : LinkOp) :
    (LinkOp.outcome s db [op]).isSome ↔ (op.run s).value.isSome := by
  cases hv : (op.run s).value <;> simp [LinkOp.outcome, LinkOp.execAll, LinkOp.exec, hv]

/-- Buttons whose operation removes the id that it casts. -/
theorem harmless_cast_iff {b : Button} (hs : s.session = some user) (hu : user.InShape) (hn : isValidKey name)
    (hids : ids ≠ []) (hvalid : ∀ id ∈ ids, isValidKey id) {f : Field}
    (hcast : ∀ user' toggled id, (b.op toggled name id).CastOk user' ↔ (LinkOp.idAt user' f name).isSome)
    (hremoved : ∀ user' toggled id, LinkOp.idAt ((b.op toggled name id).localEffect user') f name = none)
    (hrel : ∀ toggled id, (b.op toggled name id).SetsRelationship) :
    b.Harmless s db toggled name ids ↔
      ids.length = 1 ∧ object (user.dict f) name ≠ Tree.empty ∧ ¬ NodeName user.userName name := by
  obtain ⟨id, ids, rfl⟩ := List.exists_cons_of_ne_nil hids
  have hid : ∀ id' ∈ (b.op toggled name id).uuid?, isValidKey id' := fun id' h =>
    op_uuid h ▸ hvalid id List.mem_cons_self
  have hfirst : (LinkOp.outcome s db (b.taps toggled name [id])).isSome ↔
      object (user.dict f) name ≠ Tree.empty ∧ ¬ NodeName user.userName name := by
    rw [taps, taps, outcome_single_isSome, LinkOp.run_isSome_iff hs hu (by rwa [b.op_name]) hid, hcast, b.op_name]
    refine and_congr ⟨fun h hempty => ?_, (hu.entries f).idAt_isSome⟩ ⟨fun h => h (hrel _ _), fun h _ => h⟩
    rw [LinkOp.idAt, hempty] at h
    cases h
  cases ids with
  | nil =>
    simp only [List.length_singleton, true_and]
    rw [← hfirst]
    exact ⟨fun h => h.runs, fun h => ⟨h, fun _ => rfl⟩⟩
  | cons id' ids =>
    -- after the first tap there is nothing to be cast
    refine iff_of_false (fun h => ?_) (by simp)
    have hruns := h.runs
    simp only [taps, LinkOp.outcome, LinkOp.execAll, Option.isSome_map, Option.bind_eq_bind] at hruns
    obtain ⟨x, hx⟩ := Option.isSome_iff_exists.1 hruns
    obtain ⟨⟨s₁, db₁⟩, h₁, hx⟩ := Option.bind_eq_some_iff.1 hx
    obtain ⟨y, h₂, -⟩ := Option.bind_eq_some_iff.1 hx
    obtain ⟨t, ht, heq⟩ := Option.map_eq_some_iff.1 h₁
    obtain ⟨-, -, rfl⟩ := ((b.op toggled name id).run_spec hs).2.2 t ht
    cases heq
    obtain ⟨t', ht', -⟩ := Option.map_eq_some_iff.1 h₂
    have hcast' := (((b.op (b.flip toggled) name id').run_spec rfl).2.2 t' ht').1
    rw [hcast, hremoved] at hcast'
    cases hcast'

/-- Buttons whose operations set one entry. -/
theorem outcome_entries {b : Button} (toggled : Bool) (hs : s.session = some user) (hu : user.InShape) (hdb : db.InShape)
    (hn : isValidKey name) {f : Field} (hb : ∀ toggled id, ∃ v, (b.op toggled name id).entryOf? = some (f, v))
    {id : String} (hvalid : ∀ id' ∈ ids ++ [id], isValidKey id') :
    LinkOp.outcome s db (b.taps toggled name (ids ++ [id])) =
      LinkOp.outcome s db [b.op ((fun t => b.flip t)^[ids.length] toggled) name id] := by
  rw [taps_concat, LinkOp.outcome, LinkOp.execAll_entries hs hu hdb hn]
  · rfl
  · rw [← taps_concat]
    intro op hop
    obtain ⟨toggled', id', hmem, rfl⟩ := op_mem_taps hop
    exact ⟨hb toggled' id', b.op_name .., fun x hx => op_uuid hx ▸ hvalid id' hmem⟩

theorem outcome_entry_isSome {b : Button} (hs : s.session = some user) (hu : user.InShape) (hn : isValidKey name)
    {f : Field} (hb : ∀ toggled id, ∃ v, (b.op toggled name id).entryOf? = some (f, v)) {id : String} (hid : isValidKey id) :
    (LinkOp.outcome s db [b.op toggled name id]).isSome := by
  obtain ⟨v, he⟩ := hb toggled id
  rw [LinkOp.outcome, LinkOp.execAll,
    ((b.op toggled name id).exec_entry db hs hu he (by rwa [b.op_name]) fun x hx => op_uuid hx ▸ hid).1]
  rfl

/-- A button that sets one entry the same way at every tap. -/
theorem harmless_entry {b : Button} (hs : s.session = some user) (hu : user.InShape) (hdb : db.InShape)
    (hn : isValidKey name) (hids : ids ≠ []) (hvalid : ∀ id ∈ ids, isValidKey id) {f : Field} {v : Option String}
    (hb : ∀ toggled id, (b.op toggled name id).entryOf? = some (f, v))
    (hsame : ∀ toggled id toggled' id', b.op toggled name id = b.op toggled' name id') :
    b.Harmless s db toggled name ids := by
  obtain ⟨init, id, rfl⟩ := (List.eq_nil_or_concat' ids).resolve_left hids
  have hset : ∀ toggled id, ∃ v, (b.op toggled name id).entryOf? = some (f, v) := fun _ _ => ⟨v, hb _ _⟩
  have hlast := outcome_entries toggled hs hu hdb hn hset hvalid
  refine ⟨?_, fun _ => ?_⟩
  · rw [hlast]
    exact outcome_entry_isSome hs hu hn hset (hvalid id (by simp))
  · obtain ⟨id₀, rest, hfirst⟩ := List.exists_cons_of_ne_nil hids
    rw [hlast, hfirst, List.take_succ_cons, List.take_zero, taps, taps, hsame]

theorem flip_iterate (toggled : Bool) (n : Nat) :
    (fun t => toggle.flip t)^[n] toggled = if n % 2 = 0 then toggled else !toggled := by
  induction n with
  | zero => rfl
  | succ n ih =>
    rw [Function.iterate_succ_apply', ih]
    rcases Nat.mod_two_eq_zero_or_one n with h | h
    · rw [if_pos h, if_neg (by omega)]
      rfl
    · rw [if_neg (by omega), if_pos (by omega)]
      exact Bool.not_not toggled

theorem harmless_iff (b : Button) (hs : s.session = some user) (hu : user.InShape) (hdb : db.InShape)
    (hn : isValidKey name) (hids : ids ≠ []) (hvalid : ∀ id ∈ ids, isValidKey id) :
    b.Harmless s db toggled name ids ↔ b.Repeats user toggled name ids.length := by
  obtain ⟨id₀, rest, hfirst⟩ := List.exists_cons_of_ne_nil hids
  have htake : ids.take 1 = [id₀] := by rw [hfirst]; rfl
  obtain ⟨init, id, rfl⟩ := (List.eq_nil_or_concat' ids).resolve_left hids
  have hid : isValidKey id := hvalid id (by simp)
  cases b with
  | delete =>
    refine harmless_cast_iff (f := .relationships) hs hu hn hids hvalid (fun _ _ _ => Iff.rfl) (fun user' _ _ => ?_)
      fun _ _ => trivial
    simp [op, LinkOp.localEffect, LinkOp.idAt, User.dict_mutate, entryNode]
  | accept =>
    refine harmless_cast_iff (f := .requests) hs hu hn hids hvalid (fun _ _ _ => Iff.rfl) (fun user' _ _ => ?_)
      fun _ _ => trivial
    simp [op, LinkOp.localEffect, LinkOp.idAt, User.dict_mutate, entryNode]
  | unsend => exact iff_of_true (harmless_entry hs hu hdb hn hids hvalid (fun _ _ => rfl) fun _ _ _ _ => rfl) trivial
  | decline => exact iff_of_true (harmless_entry hs hu hdb hn hids hvalid (fun _ _ => rfl) fun _ _ _ _ => rfl) trivial
  | toggle =>
    have hb : ∀ toggled id, ∃ v, (toggle.op toggled name id).entryOf? = some (Field.pending, v) := by
      intro toggled id
      cases toggled <;> exact ⟨_, rfl⟩
    have hlast := outcome_entries toggled hs hu hdb hn hb hvalid
    have hruns : (LinkOp.outcome s db (toggle.taps toggled name (init ++ [id]))).isSome := by
      rw [hlast]
      exact outcome_entry_isSome hs hu hn hb hid
    cases toggled with
    | false => exact iff_of_true ⟨hruns, fun h => absurd rfl h⟩ fun h => by cases h
    | true =>
      rw [flip_iterate] at hlast
      have hodd : (init ++ [id]).length % 2 = 1 ↔ init.length % 2 = 0 := by
        rw [List.length_append, List.length_singleton]
        omega
      rw [Repeats, forall_prop_of_true rfl, hodd]
      constructor
      · intro h
        by_contra hne
        -- the last tap was an addition, and the first one a removal
        have hsame := h.once (by decide)
        rw [if_neg hne] at hlast
        rw [hlast, htake] at hsame
        obtain ⟨hadded, -⟩ := LinkOp.exec_entry (.addPending name id) db hs hu rfl hn
          (by rintro _ ⟨⟩; exact hid)
        obtain ⟨hremoved, -⟩ := LinkOp.exec_entry (.deletePending name) db hs hu rfl hn (by simp [LinkOp.uuid?])
        simp only [op, taps, LinkOp.outcome, LinkOp.execAll, Bool.not_true, if_true, Bool.false_eq_true, if_false,
          hadded, hremoved, Option.bind_eq_bind, Option.bind_some, Option.map_some, Option.some.injEq,
          Prod.mk.injEq] at hsame
        have hpending := congrArg (fun d : Field → NSMutableDictionary => object (d .pending) name) hsame.1
        simp [User.dict_mutate, LinkOp.name, entryNode] at hpending
      · intro heven
        refine ⟨hruns, fun _ => ?_⟩
        rw [hlast, htake, if_pos heven]
        rfl

end

end SearchResultItem.Button

/-- **Which buttons may be tapped again.** In every state that the app reaches, for every name a row can be shown
for and whatever database of the app the updates meet: the taps `ids`, before the row is rendered again, are
harmless exactly when the button is Add, decline or the Unsend of a pending request, or one of the others tapped
once where there is something to be cast that is not the user itself, or the Unsend of the last branch tapped an
odd number of times. -/
theorem repeated_taps_iff {hist : History (State ι) (Action ι)} {s : State ι}
    (hr : Reach State.step (fun _ _ a => a.FromApp) (State.start Tree.empty) hist s) {c : ι} {user : User}
    (hs : s.session c = some user) {name : String} (hname : s.Displays c name) {db : Database} (hdb : db.InShape)
    {ids : List String} (hids : ids ≠ []) (hvalid : ∀ id ∈ ids, isValidKey id) (b : SearchResultItem.Button)
    (toggled : Bool) :
    b.Harmless (s.clients c).store db toggled name ids ↔ b.Repeats user toggled name ids.length :=
  have h := inShape_run (fun _ _ _ ha => ha) hr
  b.harmless_iff hs ((h.clients c).session user hs) hdb (h.displays hname) hids hvalid

/-- Alice asks Bob, and Bob, signed in on the other device, has accepted. -/
def bobAccepts (c d : ι) : List (Action ι) :=
  bothSignUp c d ++ [.tap c (.addPending "bob" "R1"), .apply c, .setupUser d bob.auth "bob", .deliver d 0,
    .tap d (.acceptRequest "alice")]

/-- Alice takes her request back twice. -/
theorem repeated_taps_unsend :
    ∃ hist s, Reach State.step (fun _ _ a => a.FromApp) (State.start Tree.empty : State (Fin 2)) hist s ∧
      SearchResultItem.Button.unsend ∈ SearchResultItem.body (s.clients 0).store "bob" ∧
      SearchResultItem.Button.unsend.Harmless (s.clients 0).store s.db false "bob" ["R2", "R3"] := by
  have hplay : (exec State.step (fun _ _ a => a.FromApp) [] (State.start Tree.empty : State (Fin 2))
      (bobAccepts 0 1)).any (fun r => decide ((r.2.session 0).isSome ∧ "bob" ∈ (r.2.db.sub ["users"]).keys ∧
        SearchResultItem.Button.unsend ∈ SearchResultItem.body (r.2.clients 0).store "bob")) = true := by
    decide +kernel
  obtain ⟨hist, s, hr, hs, hname, hb⟩ := exists_reach_of_exec
    (P := fun _ (s : State (Fin 2)) => (s.session 0).isSome ∧ "bob" ∈ (s.db.sub ["users"]).keys ∧
      SearchResultItem.Button.unsend ∈ SearchResultItem.body (s.clients 0).store "bob") hplay
  obtain ⟨user, hs⟩ := Option.isSome_iff_exists.1 hs
  have hdb := (inShape_run (fun _ _ _ ha => ha) hr).db
  exact ⟨hist, s, hr, hb, (repeated_taps_iff hr hs (Or.inl hname) hdb (by simp) (by decide) .unsend false).2 trivial⟩

/-- Bob taps Delete twice in Alice's row: the second tap finds no id. -/
theorem second_delete_stops :
    ∃ hist s, Reach State.step (fun _ _ a => a.FromApp) (State.start Tree.empty : State (Fin 2)) hist s ∧
      (∃ user ∈ s.session 1, user.userName ≠ "alice") ∧
      SearchResultItem.Button.delete ∈ SearchResultItem.body (s.clients 1).store "alice" ∧
      ¬ SearchResultItem.Button.delete.Harmless (s.clients 1).store s.db false "alice" ["R2", "R3"] := by
  have hplay : (exec State.step (fun _ _ a => a.FromApp) [] (State.start Tree.empty : State (Fin 2))
      (bobAccepts 0 1)).any (fun r => decide ((∃ user ∈ r.2.session 1, user.userName ≠ "alice") ∧
        SearchResultItem.Button.delete ∈ SearchResultItem.body (r.2.clients 1).store "alice" ∧
        (LinkOp.outcome (r.2.clients 1).store r.2.db
          (SearchResultItem.Button.delete.taps false "alice" ["R2", "R3"])).isNone)) = true := by
    decide +kernel
  obtain ⟨hist, s, hr, hs, hb, hnone⟩ := exists_reach_of_exec
    (P := fun _ (s : State (Fin 2)) => (∃ user ∈ s.session 1, user.userName ≠ "alice") ∧
      SearchResultItem.Button.delete ∈ SearchResultItem.body (s.clients 1).store "alice" ∧
      (LinkOp.outcome (s.clients 1).store s.db
        (SearchResultItem.Button.delete.taps false "alice" ["R2", "R3"])).isNone) hplay
  refine ⟨hist, s, hr, hs, hb, fun h => ?_⟩
  have hruns := h.runs
  rw [Option.isNone_iff_eq_none.1 hnone] at hruns
  cases hruns

end Anissagram
