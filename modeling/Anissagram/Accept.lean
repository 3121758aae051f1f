import Anissagram.LinkOps
/-
# The stopping points of `acceptRequest` (`SessionStore.swift:191-199`)

Accepting issues two updates: `removeRequest` takes both halves of the request away, then
`addRelationship` stores the relationship. The client may be killed or disconnected after any
number of them reached the server. `accept_all_or_nothing_iff`: the database shows the complete old
or the complete new state exactly when not just the first update got through.
-/

namespace Anissagram

open PathTree NSMutableDictionary

/-- Both halves of the request `r → u` are there, and no relationship. -/
def RequestOnly (db : Database) (u r id : String) : Prop :=
  db.entry .requests u r = .string id ∧ db.entry .pending r u = .string id ∧
  db.entry .relationships u r = Tree.empty ∧ db.entry .relationships r u = Tree.empty

/-- Both halves of the relationship and its record are there. -/
def RelationshipStored (db : Database) (u r id : String) : Prop :=
  db.entry .relationships u r = .string id ∧ db.entry .relationships r u = .string id ∧
  db.record id = DatabaseManager.relationshipRecord u r

/-- The relationship `u, r` is there, and nothing of the request. -/
def RelationshipOnly (db : Database) (u r id : String) : Prop :=
  RelationshipStored db u r id ∧
  db.entry .requests u r = Tree.empty ∧ db.entry .pending r u = Tree.empty

/-- The database when the first `k` updates of `acceptRequest(from: r)` reached the server. -/
def stoppedAccept (s : SessionStore) (db : Database) (r : String) (k : Nat) : Database :=
  db.applyAll ((s.acceptRequest r).issued.take k)

/-- A request that `u` has received from `r`, as the database and the session of `u` show it. -/
structure Requested (s : SessionStore) (db : Database) (u r id : String) : Prop where
  session : ∃ user, s.session = some user ∧ user.userName = u ∧ object user.requests r = .string id
  keys : isValidKey u ∧ isValidKey r ∧ isValidKey id
  ne : u ≠ r
  request : db.entry .requests u r = .string id
  pending : db.entry .pending r u = .string id

section
variable {s : SessionStore} {db : Database} {u r id : String}

/-- The two updates, in this order. -/
theorem Requested.issued (h : Requested s db u r id) :
    (s.acceptRequest r).issued = [.removeRequest u r, .addRelationship u r id] := by
  obtain ⟨user, hs, rfl, hreq⟩ := h.session
  have hid : LinkOp.idAt user .requests r = some id := Node.asString?_eq_some.2 hreq
  have hcalls : LinkOp.calls user (.acceptRequest r) =
      [.removeRequest user.userName r, .addRelationship user.userName r id] := by
    simp [LinkOp.calls, hid]
  have hrun : (LinkOp.acceptRequest r).run s = _ :=
    LinkOp.run_other hs h.keys.1 h.keys.2.1 h.ne.symm (by simp [LinkOp.CastOk, hid]) (by
      intro c hc x hx
      rw [hcalls] at hc
      simp only [List.mem_cons, List.not_mem_nil, or_false] at hc
      rcases hc with rfl | rfl <;> simp [Call.record?] at hx
      subst hx
      exact h.keys.2.2)
  rw [show s.acceptRequest r = (LinkOp.acceptRequest r).run s from rfl, hrun, hcalls]

theorem Requested.calls_issued (h : Requested s db u r id) :
    (Call.removeRequest u r).Issued ∧ (Call.addRelationship u r id).Issued := by
  obtain ⟨hu, hr, hid⟩ := h.keys
  have hn : IsComponent u ∧ IsComponent r := ⟨hu.isComponent, hr.isComponent⟩
  refine ⟨⟨hn, ?_⟩, ⟨hn, ?_⟩⟩
  · exact Call.write_isSome rfl ⟨hr, hu⟩ (fun hf => by cases hf) (by simp [Call.record?])
  · refine Call.write_isSome rfl ⟨hu, hr⟩ (fun _ => h.ne) ?_
    simpa [Call.record?, hid.pathComponents] using hid

/-- After the first update the request is gone on both sides; relationships are as before. -/
theorem Requested.after_remove (h : Requested s db u r id) :
    (stoppedAccept s db r 1).entry .requests u r = Tree.empty ∧
    (stoppedAccept s db r 1).entry .pending r u = Tree.empty ∧
    (RelationshipStored (stoppedAccept s db r 1) u r id ↔ RelationshipStored db u r id) := by
  have hi := h.calls_issued.1
  have hins : ¬ (Call.removeRequest u r).IsInsert := fun h => h
  simp only [stoppedAccept, h.issued, List.take, Database.applyAll_cons, Database.applyAll_nil,
    RelationshipStored, Database.entry_apply hi hins]
  rw [Database.record_apply hi hins (by simp [Call.record?])]
  simp [Call.sets, Call.half?, Call.record?, Half.At, Half.mirror, Field.mirror, entryNode]

/-- After both updates the relationship is complete. -/
theorem Requested.after_both (h : Requested s db u r id) {k : Nat} (hk : 2 ≤ k) :
    RelationshipOnly (stoppedAccept s db r k) u r id := by
  obtain ⟨hi1, hi2⟩ := h.calls_issued
  have hins1 : ¬ (Call.removeRequest u r).IsInsert := fun h => h
  have hins2 : ¬ (Call.addRelationship u r id).IsInsert := fun h => h
  have htake : (s.acceptRequest r).issued.take k = [.removeRequest u r, .addRelationship u r id] := by
    rw [h.issued, List.take_of_length_le (by simpa using hk)]
  simp only [stoppedAccept, htake, Database.applyAll_cons, Database.applyAll_nil, RelationshipOnly,
    RelationshipStored, Database.entry_apply hi1 hins1, Database.entry_apply hi2 hins2]
  rw [Database.record_apply hi2 hins2 (by simpa [Call.record?] using h.keys.2.2)]
  simp [Call.sets, Call.half?, Call.record?, Half.At, Half.mirror, Field.mirror, entryNode]

end

/-- **Accepting is all-or-nothing unless it stops between its two updates.** With nothing sent the
old state is complete if the two had no relationship yet; with only the request removed, the new one
is complete only where the very same relationship was stored before. -/
theorem accept_all_or_nothing_iff {s : SessionStore} {db : Database} {u r id : String}
    (h : Requested s db u r id) (k : Nat) :
    RequestOnly (stoppedAccept s db r k) u r id ∨ RelationshipOnly (stoppedAccept s db r k) u r id ↔
      (k = 0 ∧ db.entry .relationships u r = Tree.empty ∧ db.entry .relationships r u = Tree.empty) ∨
      (k = 1 ∧ RelationshipStored db u r id) ∨ 2 ≤ k := by
  match k with
  | 0 =>
    simp [stoppedAccept, RequestOnly, RelationshipOnly, h.request, h.pending]
  | 1 =>
    obtain ⟨h1, h2, h3⟩ := h.after_remove
    have hne : Tree.empty ≠ Node.string id := Ne.symm (Node.string_ne_empty id)
    simp [RequestOnly, RelationshipOnly, h1, h2, h3, hne]
  | k + 2 =>
    have hk := h.after_both (Nat.le_add_left 2 k)
    simp [hk]

/-- Alice and Bob are registered and Bob has asked Alice. -/
def bobAsked : Database := (registered aliceAndBob).apply (.addPending "bob" "alice" "R1")

theorem bobAsked_entry (f : Field) (a b : String) :
    bobAsked.entry f a b =
      if f = .pending ∧ a = "bob" ∧ b = "alice" ∨ f = .requests ∧ a = "alice" ∧ b = "bob" then
        .string "R1"
      else (registered aliceAndBob).entry f a b := by
  have hn : IsComponent "bob" ∧ IsComponent "alice" := by decide
  have hi : (Call.addPending "bob" "alice" "R1").Issued :=
    ⟨hn, Call.write_isSome rfl (by decide) (fun hf => by cases hf) (by simp [Call.record?])⟩
  rw [bobAsked, Database.entry_apply_half hi rfl]
  exact if_congr Iff.rfl rfl rfl

theorem requested_bobAsked : Requested (alice.session bobAsked) bobAsked "alice" "bob" "R1" where
  session := ⟨_, rfl, rfl, bobAsked_entry .requests "alice" "bob"⟩
  keys := by decide
  ne := by decide
  request := bobAsked_entry .requests "alice" "bob"
  pending := bobAsked_entry .pending "bob" "alice"

/-- The equivalence for Bob's request when nothing was stopped. -/
theorem accept_all_or_nothing_bob :
    RequestOnly (stoppedAccept (alice.session bobAsked) bobAsked "bob" 2) "alice" "bob" "R1" ∨
      RelationshipOnly (stoppedAccept (alice.session bobAsked) bobAsked "bob" 2) "alice" "bob" "R1" ↔
      (2 = 0 ∧ bobAsked.entry .relationships "alice" "bob" = Tree.empty ∧
        bobAsked.entry .relationships "bob" "alice" = Tree.empty) ∨
      (2 = 1 ∧ RelationshipStored bobAsked "alice" "bob" "R1") ∨ 2 ≤ 2 :=
  accept_all_or_nothing_iff requested_bobAsked 2

/-- Alice accepts and is stopped after the first update: neither a request nor a relationship. -/
theorem accept_stopped_between :
    Requested (alice.session bobAsked) bobAsked "alice" "bob" "R1" ∧
    ¬ ∀ k, RequestOnly (stoppedAccept (alice.session bobAsked) bobAsked "bob" k) "alice" "bob" "R1" ∨
      RelationshipOnly (stoppedAccept (alice.session bobAsked) bobAsked "bob" k) "alice" "bob" "R1" := by
  refine ⟨requested_bobAsked, fun h => ?_⟩
  obtain ⟨hreq, -, hrel⟩ := requested_bobAsked.after_remove
  rcases h 1 with hold | hnew
  · exact Node.string_ne_empty "R1" (hold.1.symm.trans hreq)
  · have hstored := (hrel.1 hnew.1).1
    rw [bobAsked_entry, if_neg (by decide),
      registered_entry_ne validRegistrations_aliceAndBob _ (by decide)] at hstored
    exact Node.string_ne_empty "R1" hstored.symm

end Anissagram
