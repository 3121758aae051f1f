import Anissagram.Circulation
import Mathlib.Data.Sym.Sym2
/-
# Every relationship reference resolves

`users/a/relationships/b = id` names the record `relationships/id`. `deleteRelationship` deletes the
record its caller remembers, `acceptRequest` stores one under the id of a remembered request, and
sessions may be as old as the run. What saves the reference is that an id never leaves the pair it
was drawn for: `drawn` lists the ids with their pairs, `Resolving` is the invariant.
-/

namespace Anissagram

open PathTree NSMutableDictionary Runs

variable {ι : Type} [DecidableEq ι]

/-- The `users` list of a record. -/
def recordUsers (record : Node) : Node := object record "users"

theorem recordUsers_relationshipRecord (u r : String) :
    recordUsers (DatabaseManager.relationshipRecord u r) = .array [.string u, .string r] := by
  simp [recordUsers, DatabaseManager.relationshipRecord, object_dictionary]

theorem recordUsers_selfRecord (u : String) :
    recordUsers (Registration.selfRecord u) = .array [.string u, .string u] := by
  simp [recordUsers, Registration.selfRecord, object_dictionary]

/-- The record `id` exists and its users are `a` and `b`. -/
def ResolvesTo (db : Database) (id a b : String) : Prop :=
  recordUsers (db.record id) = .array [.string a, .string b] ∨
  recordUsers (db.record id) = .array [.string b, .string a]

/-! ## The ids drawn so far -/

/-- The id an action draws, with the pair it is drawn for. -/
def drawnBy (s : State ι) : Action ι → Option (String × Sym2 String)
  | .tap c op => do
    let user ← s.session c
    let newUUID ← op.uuid?
    some (newUUID, s(user.userName, op.name))
  | _ => none

/-- All ids drawn in a run, newest first, behind them those of `insertUser`. -/
def drawn (gs : List Registration) : History (State ι) (Action ι) → List (String × Sym2 String)
  | [] => gs.map fun g => (g.uuid, s(g.userName, g.userName))
  | (s, a) :: hist => (drawnBy s a).toList ++ drawn gs hist

/-- The id was drawn for `a` and `b`. -/
def Owns (gs : List Registration) (hist : History (State ι) (Action ι)) (a b id : String) : Prop :=
  (id, s(a, b)) ∈ drawn gs hist

omit [DecidableEq ι] in
theorem Owns.symm {gs : List Registration} {hist : History (State ι) (Action ι)} {a b id : String}
    (h : Owns gs hist a b id) : Owns gs hist b a id := by
  unfold Owns at h ⊢
  rwa [Sym2.eq_swap]

omit [DecidableEq ι] in
theorem Owns.later {gs : List Registration} {hist : History (State ι) (Action ι)} {a b id : String}
    (h : Owns gs hist a b id) (x : State ι × Action ι) : Owns gs (x :: hist) a b id :=
  List.mem_append_right _ h

omit [DecidableEq ι] in
/-- An id belongs to one pair. -/
theorem Owns.unique {gs : List Registration} {hist : History (State ι) (Action ι)}
    (hn : ((drawn gs hist).map Prod.fst).Nodup) {a b c d id : String}
    (h : Owns gs hist a b id) (h' : Owns gs hist c d id) : a = c ∧ b = d ∨ a = d ∧ b = c := by
  have heq := List.inj_on_of_nodup_map hn h h' rfl
  simpa using heq

/-! ## The runs -/

/-- What a handler is given is the node as it once was. -/
def Action.FromPast (hist : History (State ι) (Action ι)) (s : State ι) : Action ι → Prop
  | .reload _ o snapshot => ∃ db ∈ s.db :: hist.map (fun x => x.1.db), snapshot = db.sub o.path
  | _ => True

instance (hist : History (State ι) (Action ι)) (s : State ι) (a : Action ι) : Decidable (a.FromPast hist s) :=
  match a with
  | .reload _ o snapshot => inferInstanceAs
      (Decidable (∃ db ∈ s.db :: hist.map (fun x => x.1.db), snapshot = db.sub o.path))
  | .signUp _ _ _ _ _ _ | .signIn _ _ _ | .setupUser _ _ _ | .signOut _ _ | .tap _ _ | .token _ _ _
  | .apply _ | .deliver _ _ | .kill _ _ | .remote _ => isTrue trivial

/-- Any number of clients signing in, loading current or old snapshots and running any link
operation, with a new UUID for each id drawn. -/
def Interleaving (gs : List Registration) (hist : History (State ι) (Action ι)) (s : State ι) (a : Action ι) :
    Prop :=
  a.NamesOk ∧ a.KeepsNodes ∧ ¬ a.IsExternal ∧ a.FromPast hist s ∧
    ∀ d ∈ drawnBy s a, isValidKey d.1 ∧ d.1 ∉ (drawn gs hist).map Prod.fst

instance (gs : List Registration) (hist : History (State ι) (Action ι)) (s : State ι) (a : Action ι) :
    Decidable (Interleaving gs hist s a) :=
  inferInstanceAs (Decidable (_ ∧ _ ∧ _ ∧ _ ∧ _))

/-- The invariant of these runs. -/
structure Resolving (gs : List Registration) (hist : History (State ι) (Action ι)) (s : State ι) : Prop where
  distinct : ((drawn gs hist).map Prod.fst).Nodup
  keys : ∀ d ∈ drawn gs hist, isValidKey d.1
  sound : Sound (Owns gs hist) s
  inserts : NoInserts s
  past : ∀ x ∈ hist, ∀ f a, DictIds (Owns gs hist) a (x.1.db.dict f a)
  resolves : ∀ a b id, s.db.entry .relationships a b = .string id → ResolvesTo s.db id a b

section
variable {gs : List Registration} {hist : History (State ι) (Action ι)} {s s' : State ι} {a : Action ι}

omit [DecidableEq ι] in
theorem registered_owns (hg : ValidRegistrations gs) (f : Field) (a : String) :
    DictIds (Owns gs ([] : History (State ι) (Action ι))) a ((registered gs).dict f a) :=
  registered_dictIds hg (fun g hmem => List.mem_map.2 ⟨g, hmem, rfl⟩) f a

omit [DecidableEq ι] in
theorem resolving_start (hg : ValidRegistrations gs) (hu : (gs.map Registration.uuid).Nodup) :
    Resolving gs [] (State.start (registered gs) : State ι) where
  distinct := by simpa [drawn, Function.comp_def] using hu
  keys := by
    intro d hd
    obtain ⟨g, hmem, rfl⟩ := List.mem_map.1 hd
    exact (hg.valid g hmem).2
  sound := sound_start (registered_owns hg)
  inserts := by simp [NoInserts, State.queue, State.start, Client.idle]
  past := by simp
  resolves := by
    intro a b id h
    have hown := registered_owns (ι := ι) hg .relationships a b id h
    obtain ⟨g, hmem, heq⟩ := List.mem_map.1 hown
    simp only [Prod.mk.injEq, Sym2.eq_iff] at heq
    obtain ⟨rfl, ⟨rfl, rfl⟩ | ⟨rfl, rfl⟩⟩ := heq <;>
    · left
      change recordUsers ((registered gs).record g.uuid) = _
      rw [registered_record_uuid hg hu hmem, recordUsers_selfRecord]

omit [DecidableEq ι] in
/-- The id of an update is a key of the database. -/
theorem Resolving.record_key (h : Resolving gs hist s) {c : ι} {call : Call}
    (hc : call ∈ s.queue c) : ∀ r ∈ call.record?, isValidKey r.1 := by
  intro r hr
  obtain ⟨-, hcar⟩ := (h.sound.clients c).queue call hc
  cases call <;> simp only [Call.record?, Option.mem_def, Option.some.injEq, reduceCtorEq] at hr
  all_goals
    subst hr
    exact h.keys _ (hcar.link _ rfl _ rfl)

omit [DecidableEq ι] in
/-- What a waiting update does to the references of the database. -/
theorem Resolving.apply (h : Resolving gs hist s) {c : ι} {call : Call} (hc : call ∈ s.queue c)
    {a b id : String} (hentry : (s.db.apply call).entry .relationships a b = .string id) :
    ResolvesTo (s.db.apply call) id a b := by
  obtain ⟨hi, hcar⟩ := (h.sound.clients c).queue call hc
  have hins := h.inserts c call hc
  have hrec := Database.record_apply hi hins (h.record_key hc) s.db id
  rw [Database.entry_apply hi hins] at hentry
  unfold ResolvesTo
  rw [hrec]
  -- either the entry was written just now, or both the entry and its record are as before
  cases hsets : call.sets .relationships a b with
  | some v =>
    rw [hsets] at hentry
    obtain rfl : v = some id := entryNode_inj.1 hentry
    cases call <;>
      simp only [Call.sets, Call.half?, Half.At, Half.mirror, Field.mirror, reduceCtorEq, false_and,
        or_self, if_false, true_and, Option.ite_none_right_eq_some, Option.some.injEq] at hsets
    case addRelationship u r id' =>
      obtain ⟨hab, rfl⟩ := hsets
      simp only [Call.record?, if_true, recordUsers_relationshipRecord]
      rcases hab with ⟨rfl, rfl⟩ | ⟨rfl, rfl⟩
      · exact Or.inl rfl
      · exact Or.inr rfl
    case deleteRelationship u r id' => simp at hsets
  | none =>
    rw [hsets] at hentry
    have hold := h.resolves a b id hentry
    have hown : Owns gs hist a b id := h.sound.db .relationships a b id hentry
    have hother : ∀ r ∈ call.record?, id ≠ r.1 := by
      intro r hr heq
      subst heq
      cases call <;> simp only [Call.record?, Option.mem_def, Option.some.injEq, reduceCtorEq] at hr
      all_goals
        subst hr
        have hpair := hown.unique h.distinct (hcar.link _ rfl _ rfl)
        rcases hpair with ⟨rfl, rfl⟩ | ⟨rfl, rfl⟩ <;>
          simp [Call.sets, Call.half?, Half.At, Half.mirror, Field.mirror] at hsets
    cases hr : call.record? with
    | none => exact hold
    | some r =>
      simp only [if_neg (hother r hr)]
      exact hold

/-- One step of a run. -/
theorem Resolving.step (h : Resolving gs hist s) (ha : Interleaving gs hist s a)
    (hs : s.step a = some s') : Resolving gs ((s, a) :: hist) s' := by
  obtain ⟨hn, hk, hext, hpast, hdrawn⟩ := ha
  have hlater : ∀ x y id, Owns gs hist x y id → Owns gs ((s, a) :: hist) x y id :=
    fun _ _ _ ho => ho.later (s, a)
  have hsound : Sound (Owns gs ((s, a) :: hist)) s := h.sound.mono hlater
  have hpast' : ∀ x ∈ (s, a) :: hist, ∀ f u, DictIds (Owns gs ((s, a) :: hist)) u (x.1.db.dict f u) := by
    intro x hx f u
    rcases List.mem_cons.1 hx with rfl | hx
    · exact hsound.db f u
    · exact fun name id hid => hlater _ _ _ (h.past x hx f u name id hid)
  refine ⟨?_, ?_, ?_, h.inserts.step hs hk hext, hpast', ?_⟩
  · cases hd : drawnBy s a with
    | none => simpa [drawn, hd] using h.distinct
    | some d =>
      simp only [drawn, hd, Option.toList_some, List.singleton_append, List.map_cons, List.nodup_cons]
      exact ⟨(hdrawn d hd).2, h.distinct⟩
  · intro d hd
    rcases List.mem_append.1 hd with hd | hd
    · exact (hdrawn d (Option.mem_toList.1 hd)).1
    · exact h.keys d hd
  · refine hsound.step (fun _ _ _ ho => ho.symm) hs hn (by rintro w rfl; exact hk)
      (by rintro _ _ _ _ _ _ rfl; exact absurd hk id) ?_ ?_
    · rintro c op rfl user huser id hid
      refine List.mem_append_left _ ?_
      rw [Option.mem_def] at huser hid
      simp [drawnBy, huser, hid]
    · rintro c o snapshot rfl
      obtain ⟨db, hdb, rfl⟩ := hpast
      have hmem : ∃ x ∈ (s, Action.reload c o (db.sub o.path)) :: hist, x.1.db = db := by
        simpa [eq_comm] using hdb
      obtain ⟨x, hx, rfl⟩ := hmem
      exact snapshotIds_sub (hpast' x hx) hn
  · intro x y id hentry
    rcases State.step_queue hs hext with ⟨c, call, rest, -, hdb, hpop⟩ | ⟨c, -, hdb, -⟩
    · rw [hdb] at hentry ⊢
      exact h.apply hpop.mem hentry
    · rw [hdb] at hentry ⊢
      exact h.resolves x y id hentry

end

/-- **Every relationship reference resolves**, in every run of any number of clients with
arbitrarily old sessions: the record exists and its users are the two ends of the reference. -/
theorem references_resolve {gs : List Registration} (hg : ValidRegistrations gs)
    (hu : (gs.map Registration.uuid).Nodup) {hist : History (State ι) (Action ι)} {s : State ι}
    (hr : Reach State.step (Interleaving gs) (State.start (registered gs)) hist s) :
    ∀ a b id, s.db.entry .relationships a b = .string id → ResolvesTo s.db id a b := by
  have h : Resolving gs hist s :=
    hr.inv (resolving_start hg hu) fun _ _ _ _ _ hi ha hs => hi.step ha hs
  exact h.resolves

/-- Bob asks from a session loaded at the very beginning, Alice accepts on device `c`. -/
def aliceAccepts {ι : Type} (c d : ι) : List (Action ι) :=
  [.setupUser c alice.auth "alice",
    .reload d ⟨.signIn, bob.auth, "bob", false, []⟩ ((registered aliceAndBob).sub ["users", "bob"]),
    .tap d (.addPending "alice" "R1"), .apply d, .deliver c 0, .deliver c 0,
    .tap c (.acceptRequest "bob"), .apply c, .apply c]

theorem references_resolve_bob :
    ∃ hist s, Reach State.step (Interleaving aliceAndBob)
        (State.start (registered aliceAndBob) : State (Fin 2)) hist s ∧
      s.db.entry .relationships "alice" "bob" = .string "R1" ∧ ResolvesTo s.db "R1" "alice" "bob" := by
  have hplay : (exec State.step (Interleaving aliceAndBob) [] (State.start (registered aliceAndBob) : State (Fin 2))
      (aliceAccepts 0 1)).any (fun r => decide (r.2.db.entry .relationships "alice" "bob" = .string "R1")) =
      true := by
    decide +kernel
  obtain ⟨hist, s, hr, hentry⟩ := exists_reach_of_exec
    (P := fun _ (s : State (Fin 2)) => s.db.entry .relationships "alice" "bob" = .string "R1") hplay
  exact ⟨hist, s, hr, hentry,
    references_resolve validRegistrations_aliceAndBob (by decide) hr _ _ _ hentry⟩

end Anissagram
