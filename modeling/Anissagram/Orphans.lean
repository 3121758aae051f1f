import Anissagram.References
import Anissagram.Withdrawn
/-
# Records without a reference

A record is keyed by its id, the references to it by names. An `addRelationship` that finds another
id under the names leaves the old record behind, and so does a `deleteRelationship` with another id
than the one that is stored (`crossed_accepts`).

`no_orphans` is the rule of use that excludes both: accept is tapped where the database holds no
relationship of the pair and no update of one waits; Delete where it holds the one of the session, or
none any more, and no `addRelationship` of the pair waits. The invariant `Recorded` then keeps an
`addRelationship` alone in the queues, before an empty entry, and every `deleteRelationship` before
the very id or an empty entry.
-/

namespace Anissagram

open PathTree NSMutableDictionary Runs Queues

variable {ι : Type} [DecidableEq ι]

/-- Every record of `a` and `b`, in this order, is the one both refer to. -/
def NoOrphan (db : Database) (a b : String) : Prop :=
  ∀ id, recordUsers (db.record id) = .array [.string a, .string b] →
    db.entry .relationships a b = .string id ∧ db.entry .relationships b a = .string id

/-- The update stores or deletes a relationship between `a` and `b`. -/
def Call.Relates (c : Call) (a b : String) : Prop := c.About a b ∧ c.record?.isSome

instance (c : Call) (a b : String) : Decidable (c.Relates a b) :=
  inferInstanceAs (Decidable (c.About a b ∧ c.record?.isSome))

/-- The update stores a relationship between `a` and `b`. -/
def Call.AddsRelationship (c : Call) (a b : String) : Prop := c.Relates a b ∧ c.Creates a b

instance (c : Call) (a b : String) : Decidable (c.AddsRelationship a b) :=
  inferInstanceAs (Decidable (c.Relates a b ∧ c.Creates a b))

/-- Accept meets no relationship of the pair, stored or under way; Delete meets the one it shows or none,
and none is under way. -/
def SeesRelationship (s : State ι) : Action ι → Prop
  | .tap c (.acceptRequest name) => ∀ user ∈ s.session c,
    s.db.entry .relationships user.userName name = Tree.empty ∧
    NoneWaits (fun call => call.Relates user.userName name) s.queue
  | .tap c (.deleteRelationShip name) => ∀ user ∈ s.session c,
    (s.db.entry .relationships user.userName name = object user.relationships name ∨
      s.db.entry .relationships user.userName name = Tree.empty) ∧
    NoneWaits (fun call => call.AddsRelationship user.userName name) s.queue
  | _ => True

instance [Fintype ι] (s : State ι) (a : Action ι) : Decidable (SeesRelationship s a) :=
  match a with
  | .tap c (.acceptRequest name) => inferInstanceAs (Decidable (∀ user ∈ s.session c,
      s.db.entry .relationships user.userName name = Tree.empty ∧
      NoneWaits (fun call => call.Relates user.userName name) s.queue))
  | .tap c (.deleteRelationShip name) => inferInstanceAs (Decidable (∀ user ∈ s.session c,
      (s.db.entry .relationships user.userName name = object user.relationships name ∨
        s.db.entry .relationships user.userName name = Tree.empty) ∧
      NoneWaits (fun call => call.AddsRelationship user.userName name) s.queue))
  | .tap _ (.addRelationShip _ _) | .tap _ (.addPending _ _) | .tap _ (.deletePending _) | .tap _ (.declineRequest _)
  | .signUp _ _ _ _ _ _ | .signIn _ _ _ | .setupUser _ _ _ | .signOut _ _ | .token _ _ _ | .apply _
  | .deliver _ _ | .kill _ _ | .reload _ _ _ | .remote _ => isTrue trivial

/-- What a waiting relationship update finds in the database. -/
def Finds (db : Database) (a b : String) : Call → Prop
  | .addRelationship _ _ _ => db.entry .relationships a b = Tree.empty
  | .deleteRelationship _ _ id =>
    db.entry .relationships a b = .string id ∨ db.entry .relationships a b = Tree.empty
  | _ => True

/-! ## One update -/

theorem array_pair (x y : Node) : Node.array [x, y] = .dictionary [("0", x), ("1", y)] := by
  have hindex : Nat.repr 0 = "0" ∧ Nat.repr 1 = "1" := by decide
  simp [Node.array, hindex]

theorem object_array_zero (x y : Node) : object (.array [x, y]) "0" = x := by
  rw [array_pair]
  simp [object_dictionary]

theorem object_array_one (x y : Node) : object (.array [x, y]) "1" = y := by
  rw [array_pair]
  simp [object_dictionary]

theorem array_pair_inj {a b u r : String}
    (h : Node.array [.string u, .string r] = .array [.string a, .string b]) : u = a ∧ r = b := by
  have h0 := congrArg (object · "0") h
  have h1 := congrArg (object · "1") h
  simp only [object_array_zero, object_array_one, Node.string_inj] at h0 h1
  exact ⟨h0, h1⟩

theorem recordUsers_empty_ne (a b : String) :
    recordUsers Tree.empty ≠ .array [.string a, .string b] := by
  intro h
  have h0 := congrArg (object · "0") h
  simp only [object_array_zero] at h0
  simp only [recordUsers, object, Tree.sub_empty] at h0
  exact Node.string_ne_empty a h0.symm

section
variable {c : Call} {a b : String}

theorem Call.relates_comm : c.Relates a b ↔ c.Relates b a := and_congr_left' Call.about_comm

theorem Call.addsRelationship_comm : c.AddsRelationship a b ↔ c.AddsRelationship b a :=
  and_congr Call.relates_comm Call.creates_comm

/-- A deleted relationship leaves no entry. -/
theorem Call.sets_of_relates (hr : c.Relates a b) (hc : ¬ c.AddsRelationship a b) :
    c.sets .relationships a b = some none := by
  obtain ⟨⟨h, hh, hpair⟩, hrec⟩ := hr
  have hset : ∃ v, c.sets .relationships a b = some v := by
    cases c <;> simp only [Call.record?, Option.isSome_none, Bool.false_eq_true] at hrec
    all_goals
      cases hh
      rcases hpair with ⟨rfl, rfl⟩ | ⟨rfl, rfl⟩ <;>
        exact ⟨_, if_pos (by simp [Half.At, Half.mirror, Field.mirror])⟩
  obtain ⟨v, hv⟩ := hset
  rw [hv, Call.sets_of_not_creates (fun hcr => hc ⟨⟨⟨h, hh, hpair⟩, hrec⟩, hcr⟩) hv]

/-- Any other update leaves the relationships entry of the pair alone. -/
theorem Call.sets_of_not_relates (hc : ¬ c.Relates a b) : c.sets .relationships a b = none := by
  by_cases habout : c.About a b
  · have hr : ¬ c.record?.isSome := fun hr => hc ⟨habout, hr⟩
    cases c <;> simp_all [Call.record?, Call.sets, Call.half?, Half.At, Half.mirror, Field.mirror]
  · exact Call.sets_of_not_about habout _

theorem Finds.symm {db : Database} (hm : Mirrored db) (h : Finds db a b c) : Finds db b a c := by
  have heq : db.entry .relationships b a = db.entry .relationships a b := hm .relationships b a
  cases c <;> simp_all [Finds]

variable {db : Database} (hi : c.Issued) (hins : ¬ c.IsInsert)
include hi hins

theorem Finds.apply (hc : ¬ c.Relates a b) {call : Call} (h : Finds db a b call) :
    Finds (db.apply c) a b call := by
  have heq : (db.apply c).entry .relationships a b = db.entry .relationships a b := by
    rw [Database.entry_apply hi hins, Call.sets_of_not_relates hc]
  cases call <;> simp_all [Finds]

variable (hid : ∀ r ∈ c.record?, isValidKey r.1)
include hid

/-- An update that is not about a relationship of the pair leaves its records referenced. -/
theorem NoOrphan.apply (hc : ¬ c.Relates a b) (hc' : ¬ c.Relates b a) (h : NoOrphan db a b) :
    NoOrphan (db.apply c) a b := by
  intro id hu
  rw [Database.entry_apply hi hins, Call.sets_of_not_relates hc, Database.entry_apply hi hins,
    Call.sets_of_not_relates hc']
  refine h id ?_
  rw [Database.record_apply hi hins hid] at hu
  cases hr : c.record? with
  | none =>
    rw [hr] at hu
    exact hu
  | some r =>
    simp only [hr] at hu
    split at hu
    · -- the record of another pair, or none
      cases c <;> simp only [Call.record?, Option.some.injEq, reduceCtorEq] at hr
      · subst hr
        rw [recordUsers_relationshipRecord] at hu
        obtain ⟨rfl, rfl⟩ := array_pair_inj hu
        exact absurd ⟨⟨_, rfl, Or.inl ⟨rfl, rfl⟩⟩, rfl⟩ hc
      · subst hr
        exact absurd hu (recordUsers_empty_ne a b)
    · exact hu

/-- A relationship update that finds what it expects. -/
theorem NoOrphan.apply_relates (hm : Mirrored db) (hc : c.Relates a b) (hf : Finds db a b c)
    (h : NoOrphan db a b) : NoOrphan (db.apply c) a b := by
  have hm' : Mirrored (db.apply c) := mirrored_apply hi.names hins hm
  intro id hu
  suffices hab : (db.apply c).entry .relationships a b = .string id from
    ⟨hab, (hm' .relationships b a).trans hab⟩
  rw [Database.record_apply hi hins hid] at hu
  rw [Database.entry_apply hi hins]
  obtain ⟨⟨k, hk, hpair⟩, hrec⟩ := hc
  cases c <;> simp only [Call.record?, Option.isSome_none, Bool.false_eq_true] at hrec
  case addRelationship u r id' =>
    cases hk
    simp only [Call.record?] at hu
    split at hu
    · rename_i heq
      subst heq
      have hsets : (Call.addRelationship u r id).sets .relationships a b = some (some id) := by
        rcases hpair with ⟨rfl, rfl⟩ | ⟨rfl, rfl⟩ <;>
          simp [Call.sets, Call.half?, Half.At, Half.mirror, Field.mirror]
      rw [hsets]
      rfl
    · -- an older record would be referenced, but the entry was empty
      have hold := (h id hu).1
      rw [show db.entry .relationships a b = Tree.empty from hf] at hold
      exact absurd hold.symm (Node.string_ne_empty id)
  case deleteRelationship u r id' =>
    simp only [Call.record?] at hu
    split at hu
    · exact absurd hu (recordUsers_empty_ne a b)
    · rename_i hne
      have hold := (h id hu).1
      rcases (show _ ∨ _ from hf) with hsame | hempty
      · rw [hsame, Node.string_inj] at hold
        exact absurd hold.symm hne
      · rw [hempty] at hold
        exact absurd hold.symm (Node.string_ne_empty id)

end

/-! ## A tap on accept or Delete -/

omit [DecidableEq ι] in
/-- One relationship update, last, that finds what it expects; a deletion may meet other deletions. -/
theorem SeesRelationship.relating_tap {s : State ι} {c : ι} {op : LinkOp} {user : User}
    (hsees : SeesRelationship s (.tap c op)) (hs : s.session c = some user)
    (hoff : SearchResultItem.Offers (s.clients c).store op) {call : Call}
    (hc : call ∈ (op.run (s.clients c).store).issued) (hrel : call.Relates user.userName op.name) :
    ∃ xs x, (op.run (s.clients c).store).issued = xs ++ [x] ∧ x.Relates user.userName op.name ∧
      (∀ y ∈ xs, ¬ y.Relates user.userName op.name) ∧ Finds s.db user.userName op.name x ∧
      (NoneWaits (fun call => call.Relates user.userName op.name) s.queue ∨
        xs = [] ∧ ¬ x.AddsRelationship user.userName op.name ∧
          NoneWaits (fun call => call.AddsRelationship user.userName op.name) s.queue) := by
  have hpre := (op.run_spec hs).2.1
  have hshown := hoff.shown hs
  have hmem := hpre.mem hc
  cases op with
  | addRelationShip name newUUID => exact absurd hshown fun hf => hf
  | deleteRelationShip name =>
    obtain ⟨hentry, hnone⟩ := hsees user hs
    cases hid : LinkOp.idAt user .relationships name with
    | none => simp [LinkOp.calls, hid] at hmem
    | some id =>
      simp only [LinkOp.calls, hid, Option.map_some, Option.toList_some] at hpre hmem
      obtain rfl := List.mem_singleton.1 hmem
      refine ⟨[], _, ?_, hrel, by simp, ?_, Or.inr ⟨rfl, fun hr => ?_, hnone⟩⟩
      · rcases List.prefix_cons_iff.1 hpre with hnil | ⟨t, heq, ht⟩
        · rw [hnil] at hc
          simp at hc
        · rw [heq, List.prefix_nil.1 ht]
          rfl
      · exact hentry.imp_left fun hsame => hsame.trans (Node.asString?_eq_some.1 hid)
      · exact Call.not_creates_of_removes rfl rfl _ _ hr.2
  | acceptRequest name =>
    obtain ⟨hentry, hnone⟩ := hsees user hs
    have hclear : ¬ (Call.removeRequest user.userName name).Relates user.userName name :=
      fun hr => by cases hr.2
    cases hid : LinkOp.idAt user .requests name with
    | none =>
      have hcall : call = .removeRequest user.userName name := by simpa [LinkOp.calls, hid] using hmem
      rw [hcall] at hrel
      exact absurd hrel hclear
    | some id =>
      simp only [LinkOp.calls, hid, Option.map_some, Option.toList_some] at hpre
      have hsplit : ([.removeRequest user.userName name, .addRelationship user.userName name id] : List Call)
          = [.removeRequest user.userName name] ++ [.addRelationship user.userName name id] := rfl
      rw [hsplit] at hpre
      refine ⟨[.removeRequest user.userName name], .addRelationship user.userName name id, ?_,
        ⟨⟨_, rfl, Or.inl ⟨rfl, rfl⟩⟩, rfl⟩, by simpa [LinkOp.name] using hclear, hentry, Or.inl hnone⟩
      rcases List.prefix_concat_iff.1 hpre with heq | hpre
      · exact heq
      · rw [List.mem_singleton.1 (hpre.mem hc)] at hrel
        exact absurd hrel hclear
  | addPending name newUUID =>
    obtain rfl := List.mem_singleton.1 hmem
    cases hrel.2
  | deletePending name =>
    obtain rfl := List.mem_singleton.1 hmem
    cases hrel.2
  | declineRequest name =>
    obtain rfl := List.mem_singleton.1 hmem
    cases hrel.2

/-! ## The invariant -/

/-- Deletions only, each of which finds what it expects. -/
structure Removing (db : Database) (a b : String) (queue : ι → List Call) : Prop where
  none : NoneWaits (fun call => call.AddsRelationship a b) queue
  finds : ∀ c, ∀ call ∈ queue c, call.Relates a b → Finds db a b call

structure Recorded (a b : String) (s : State ι) : Prop where
  tapped : Tapped s
  referenced : NoOrphan s.db a b
  waits : Removing s.db a b s.queue ∨
    Lone (fun call => call.Relates a b) (fun _ call => Finds s.db a b call) s.queue

omit [DecidableEq ι] in
/-- Where no new relationship waits, only deletions do. -/
theorem Recorded.removing {a b : String} {s : State ι} (h : Recorded a b s)
    (hnone : NoneWaits (fun call => call.AddsRelationship a b) s.queue) : Removing s.db a b s.queue := by
  refine ⟨hnone, fun c call hcall hrel => ?_⟩
  rcases h.waits with hremoving | hno | ⟨d, before, x, after, hsole, hf⟩
  · exact hremoving.finds c call hcall hrel
  · exact absurd hrel (hno c call hcall)
  · by_cases hc : c = d
    · rw [hc, hsole.queue] at hcall
      rcases List.mem_append.1 hcall with hcall | hcall
      · exact absurd hrel (hsole.before call hcall)
      · rcases List.mem_cons.1 hcall with rfl | hcall
        · exact hf
        · exact absurd hrel (hsole.after call hcall)
    · exact absurd hrel (hsole.others c hc call hcall)

section
variable {a b : String} {s s' : State ι} {act : Action ι}

omit [DecidableEq ι] in
theorem recorded_start {gs : List Registration} (hg : ValidRegistrations gs) (a b : String) :
    Recorded a b (State.start (registered gs) : State ι) where
  tapped := tapped_start hg
  referenced := by
    intro id hu
    change recordUsers ((registered gs).record id) = _ at hu
    change (registered gs).entry .relationships a b = _ ∧ (registered gs).entry .relationships b a = _
    rcases registered_record hg id with hempty | ⟨g, hmem, rfl, hself⟩
    · rw [hempty] at hu
      exact absurd hu (recordUsers_empty_ne a b)
    · rw [hself, recordUsers_selfRecord] at hu
      obtain ⟨rfl, rfl⟩ := array_pair_inj hu
      have hentry : (registered gs).entry .relationships g.userName g.userName = .string g.uuid := by
        unfold Database.entry
        rw [(registered_dict hg).1 g hmem]
        exact object_dictionary_single _ _
      exact ⟨hentry, hentry⟩
  waits := Or.inr (Or.inl fun _ _ hc => nomatch hc)

theorem Recorded.apply (h : Recorded a b s) {c : ι} {call : Call} {rest : List Call}
    (he : s.Applies s' c call rest) :
    NoOrphan s'.db a b ∧ (Removing s'.db a b s'.queue ∨
      Lone (fun call => call.Relates a b) (fun _ call => Finds s'.db a b call) s'.queue) := by
  obtain ⟨hdb, hpop⟩ := he
  obtain ⟨hi, hins, hid⟩ := h.tapped.call hpop.mem
  rw [hdb]
  rcases h.waits with hremoving | hlone
  · have hnone : NoneWaits (fun call => call.AddsRelationship a b) s'.queue :=
      fun d x hx => hremoving.none d x (hpop.sub hx)
    by_cases hrel : call.Relates a b
    · have hgone : (s.db.apply call).entry .relationships a b = Tree.empty := by
        rw [Database.entry_apply hi hins, Call.sets_of_relates hrel (hremoving.none c call hpop.mem)]
        rfl
      refine ⟨h.referenced.apply_relates hi hins hid h.tapped.mirrored hrel
        (hremoving.finds c call hpop.mem hrel), Or.inl ⟨hnone, fun d x hx hx' => ?_⟩⟩
      cases x with
      | addRelationship u r id => exact hgone
      | deleteRelationship u r id => exact Or.inr hgone
      | _ => trivial
    · exact ⟨h.referenced.apply hi hins hid hrel (mt Call.relates_comm.1 hrel),
        Or.inl ⟨hnone, fun d x hx hx' => (hremoving.finds d x (hpop.sub hx) hx').apply hi hins hrel⟩⟩
  · rcases hlone.pop hpop with ⟨hrel, hf, hnone⟩ | ⟨hrel, hlone⟩
    · exact ⟨h.referenced.apply_relates hi hins hid h.tapped.mirrored hrel hf, Or.inr (Or.inl hnone)⟩
    · exact ⟨h.referenced.apply hi hins hid hrel (mt Call.relates_comm.1 hrel),
        Or.inr (hlone (fun _ _ _ hf => hf.apply hi hins hrel) (fun _ _ _ hf => hf.apply hi hins hrel))⟩

/-- Updates are handed over. -/
theorem Recorded.enqueue (h : Recorded a b s) {c : ι} {calls : List Call} (hpush : Queues.Push s.queue s'.queue c calls)
    (hcalls : (∀ y ∈ calls, ¬ y.Relates a b) ∨
      ∃ xs x, calls = xs ++ [x] ∧ x.Relates a b ∧ (∀ y ∈ xs, ¬ y.Relates a b) ∧ Finds s.db a b x ∧
        (NoneWaits (fun call => call.Relates a b) s.queue ∨
          xs = [] ∧ ¬ x.AddsRelationship a b ∧ NoneWaits (fun call => call.AddsRelationship a b) s.queue)) :
    Removing s.db a b s'.queue ∨
      Lone (fun call => call.Relates a b) (fun _ call => Finds s.db a b call) s'.queue := by
  rcases hcalls with hno | ⟨xs, x, rfl, hx, hxs, hf, hnone | ⟨rfl, hdel, hnone⟩⟩
  · rcases h.waits with hremoving | hlone
    · refine Or.inl ⟨hremoving.none.push hpush fun y hy hr => hno y hy hr.1, fun d y hy hr => ?_⟩
      rcases hpush.cases hy with hy | ⟨-, hy⟩
      · exact hremoving.finds d y hy hr
      · exact absurd hr (hno y hy)
    · exact Or.inr (hlone.push hpush hno)
  · exact Or.inr (hnone.push_last hpush hxs hx hf)
  · have hremoving := h.removing hnone
    refine Or.inl ⟨hnone.push hpush fun y hy => ?_, fun d y hy hr => ?_⟩
    · rwa [List.mem_singleton.1 hy]
    · rcases hpush.cases hy with hy | ⟨-, hy⟩
      · exact hremoving.finds d y hy hr
      · rwa [List.mem_singleton.1 hy]

theorem Recorded.step (h : Recorded a b s) (ha : Tapping s act) (hsees : SeesRelationship s act)
    (hs : s.step act = some s') : Recorded a b s' := by
  have htapped := h.tapped.step ha hs
  rcases State.step_queue hs ha.app.2 with ⟨c, call, rest, -, happ⟩ | ⟨c, -, hdb, hpush⟩
  · exact ⟨htapped, (h.apply happ).1, (h.apply happ).2⟩
  refine ⟨htapped, hdb ▸ h.referenced, ?_⟩
  rw [hdb]
  refine h.enqueue hpush ?_
  by_cases hrel : ∃ call ∈ s.issues act, call.Relates a b
  swap
  · push Not at hrel
    exact Or.inl hrel
  obtain ⟨call, hmem, hrel⟩ := hrel
  rcases ha.issues hmem with hhalf | ⟨c', op, user, rfl, huser, hcall⟩
  · obtain ⟨⟨h, hh, -⟩, -⟩ := hrel
    rw [hhalf] at hh
    cases hh
  · rcases LinkOp.calls_about hcall hrel.1 with ⟨rfl, rfl⟩ | ⟨rfl, rfl⟩
    · exact Or.inr (hsees.relating_tap huser ha.2.1 hmem hrel)
    · -- the pair in the other order
      obtain ⟨xs, x, hxs, hx, hclear, hf, hnone⟩ := hsees.relating_tap huser ha.2.1 hmem (Call.relates_comm.1 hrel)
      refine Or.inr ⟨xs, x, hxs, Call.relates_comm.1 hx, fun y hy => mt Call.relates_comm.1 (hclear y hy),
        hf.symm h.tapped.mirrored, hnone.imp (fun hnone i y hy => mt Call.relates_comm.1 (hnone i y hy)) ?_⟩
      rintro ⟨hnil, hdel, hnone⟩
      exact ⟨hnil, mt Call.addsRelationship_comm.1 hdel, fun i y hy => mt Call.addsRelationship_comm.1 (hnone i y hy)⟩

end

/-- **No orphaned relationship record**, in every interleaving of taps, applied updates and events in
which accept meets no relationship of the pair, stored or under way, and Delete the one it shows or
none, with no new one under way. -/
theorem no_orphans {gs : List Registration} (hg : ValidRegistrations gs)
    {hist : History (State ι) (Action ι)} {s : State ι}
    (hr : Reach State.step (fun _ s a => Tapping s a ∧ SeesRelationship s a)
      (State.start (registered gs)) hist s) :
    ∀ a b, NoOrphan s.db a b := by
  intro a b
  have h : Recorded a b s :=
    hr.inv (I := fun _ s => Recorded a b s) (recorded_start hg a b)
      fun _ _ _ _ _ hi ha hs => hi.step ha.1 ha.2 hs
  exact h.referenced

/-- The record of Alice and Bob is stored, and no update waits. -/
def BobRecorded (s : State (Fin 2)) : Prop :=
  (∀ c, s.queue c = []) ∧
  recordUsers (s.db.record "R1") = .array [.string "alice", .string "bob"]

instance (s : State (Fin 2)) : Decidable (BobRecorded s) := inferInstanceAs (Decidable (_ ∧ _))

/-- Bob asks, and Alice accepts when she sees it. -/
theorem no_orphans_bob :
    ∃ hist s, Reach State.step (fun _ s a => Tapping s a ∧ SeesRelationship s a)
        (State.start (registered aliceAndBob) : State (Fin 2)) hist s ∧
      BobRecorded s ∧ s.db.entry .relationships "bob" "alice" = .string "R1" := by
  have hplay : (exec State.step (fun _ s a => Tapping s a ∧ SeesRelationship s a) []
      (State.start (registered aliceAndBob) : State (Fin 2)) (bothSignIn 0 1 ++ [.tap 1 (.addPending "alice" "R1"), .apply 1,
        .deliver 0 0, .tap 0 (.acceptRequest "bob"), .apply 0, .apply 0])).any
      (fun r => decide (BobRecorded r.2)) = true := by
    decide +kernel
  obtain ⟨hist, s, hr, hrec⟩ := exists_reach_of_exec (P := fun _ s => BobRecorded s) hplay
  exact ⟨hist, s, hr, hrec, (no_orphans validRegistrations_aliceAndBob hr "alice" "bob" "R1" hrec.2).2⟩

/-- Both add the other before either request arrives; then both withdraw their own request and
accept the other's. -/
def crossedAccepts {ι : Type} (c d : ι) : List (Action ι) :=
  [.tap c (.addPending "bob" "R2"), .tap d (.addPending "alice" "R1"), .apply c, .apply d,
    .deliver c 0, .deliver c 0, .deliver d 0, .deliver d 0,
    .tap c (.deletePending "bob"), .tap c (.acceptRequest "bob"),
    .tap d (.deletePending "alice"), .tap d (.acceptRequest "alice"),
    .apply c, .apply c, .apply c, .apply d, .apply d, .apply d]

/-- Two records, and both users refer to the second one. -/
theorem crossed_accepts :
    ∃ hist s, Reach State.step (fun _ s a => Tapping s a)
        (State.start (registered aliceAndBob) : State (Fin 2)) hist s ∧
      BobRecorded s ∧ s.db.entry .relationships "alice" "bob" = .string "R2" := by
  have hplay : (exec State.step (fun _ s a => Tapping s a) [] (State.start (registered aliceAndBob) : State (Fin 2))
      (bothSignIn 0 1 ++ crossedAccepts 0 1)).any (fun r => decide
        (BobRecorded r.2 ∧ r.2.db.entry .relationships "alice" "bob" = .string "R2")) = true := by
    decide +kernel
  exact exists_reach_of_exec
    (P := fun _ s => BobRecorded s ∧ s.db.entry .relationships "alice" "bob" = .string "R2") hplay

end Anissagram
