import Anissagram.DatabaseManager
/-
# Link entries and what the five link updates do to them

A link between two users is stored twice: `users/a/relationships/b` and `users/b/relationships/a`
hold the same id, and so do `users/a/pending/b` and `users/b/requests/a`. Every link update of
`DatabaseManager` writes one `Half` and its mirror image (`Call.half?`), plus, for relationships,
the record under the id. Its effect is stated once, per dictionary (`dict_apply`), per entry
(`entry_apply`) and per record (`record_apply`); later modules use these and never the paths.

Main result: `links_two_sided_run`.
-/

namespace Anissagram

open PathTree NSMutableDictionary

/-! ## Views of the database -/

namespace Database

/-- `users/<user>/<field>`. -/
def dict (db : Database) (f : Field) (user : String) : NSMutableDictionary :=
  db.sub ["users", user, f.key]

/-- `users/<a>/<field>/<b>`. -/
def entry (db : Database) (f : Field) (a b : String) : Node := (db.dict f a).object b

/-- `relationships/<id>`. -/
def record (db : Database) (id : String) : Node := db.sub ["relationships", id]

end Database

/-- One side of a link: `users/<owner>/<field>/<name>` and the id to store, `none` to delete. -/
structure Half where
  field : Field
  owner : String
  name : String
  value : Option String
deriving DecidableEq, Repr

namespace Half

def mirror (h : Half) : Half := ⟨h.field.mirror, h.name, h.owner, h.value⟩

/-- The entry this half is about. -/
def At (h : Half) (f : Field) (a b : String) : Prop := f = h.field ∧ a = h.owner ∧ b = h.name

instance (h : Half) (f : Field) (a b : String) : Decidable (h.At f a b) :=
  inferInstanceAs (Decidable (_ ∧ _ ∧ _))

theorem at_mirror {h : Half} {f : Field} {a b : String} : h.mirror.At f a b ↔ h.At f.mirror b a := by
  obtain ⟨g, u, r, v⟩ := h
  cases f <;> cases g <;> simp [At, mirror, Field.mirror, and_comm]

/-- The write of one half. -/
def write (h : Half) : List String × Node :=
  (["users", h.owner, h.field.key, h.name], entryNode h.value)

end Half

/-- The half whose path comes first in the update; the second path is its mirror image. -/
def Call.half? : Call → Option Half
  | .addRelationship u r id => some ⟨.relationships, u, r, some id⟩
  | .deleteRelationship u r _ => some ⟨.relationships, u, r, none⟩
  | .addPending u r id => some ⟨.pending, u, r, some id⟩
  | .removePending u r => some ⟨.pending, u, r, none⟩
  | .removeRequest u r => some ⟨.pending, r, u, none⟩
  | _ => none

/-- The record a relationship update stores or deletes. -/
def Call.record? : Call → Option (String × Node)
  | .addRelationship u r id => some (id, DatabaseManager.relationshipRecord u r)
  | .deleteRelationship _ _ id => some (id, Tree.empty)
  | _ => none

/-- The names a call writes under are single path components, as every key of the database is. -/
def Call.ValidNames : Call → Prop
  | .addRelationship u r _ | .deleteRelationship u r _ | .addPending u r _
  | .removePending u r | .removeRequest u r => IsComponent u ∧ IsComponent r
  | .uploadDeviceToken u _ => IsComponent u
  | .insertUser user => IsComponent user.userName
  | .sendNotification _ _ _ _ => True

/-! ## From path strings to halves -/

section
variable {a b u r : String} (ha : pathComponents a = [u]) (hb : pathComponents b = [r])
include ha hb

theorem pathComponents_users (field sep : String) (hf : isValidKey field)
    (hsep : sep = "/" ++ field ++ "/") :
    pathComponents ("users/" ++ a ++ sep ++ b) = ["users", u, field, r] := by
  have h : "users/" ++ a ++ sep ++ b = "users" ++ "/" ++ a ++ "/" ++ field ++ "/" ++ b := by
    rw [hsep, show "users/" = "users" ++ "/" from rfl]
    simp only [String.append_assoc]
  have hu : isValidKey "users" := by decide
  rw [h, pathComponents_append_slash, pathComponents_append_slash, pathComponents_append_slash,
    hu.pathComponents, ha, hf.pathComponents, hb]
  rfl

theorem pathComponents_relationships :
    pathComponents s!"users/{a}/relationships/{b}" = ["users", u, "relationships", r] :=
  pathComponents_users ha hb "relationships" "/relationships/" (by decide) rfl

theorem pathComponents_pending :
    pathComponents s!"users/{a}/pending/{b}" = ["users", u, "pending", r] :=
  pathComponents_users ha hb "pending" "/pending/" (by decide) rfl

theorem pathComponents_requests :
    pathComponents s!"users/{a}/requests/{b}" = ["users", u, "requests", r] :=
  pathComponents_users ha hb "requests" "/requests/" (by decide) rfl

end

theorem pathComponents_record (id : String) :
    pathComponents s!"relationships/{id}" = "relationships" :: pathComponents id := by
  have hr : isValidKey "relationships" := by decide
  have h : s!"relationships/{id}" = "relationships" ++ "/" ++ id := rfl
  rw [h, pathComponents_append_slash, hr.pathComponents]
  rfl

/-- What a link update stores besides its two halves. -/
def Call.recordWrite (c : Call) : CompoundWrite :=
  (c.record?.map fun r => ("relationships" :: pathComponents r.1, r.2)).toList

/-- The same half under the names of two nodes. -/
def Half.under (h : Half) (u r : String) : Half := { h with owner := u, name := r }

/-- The five link updates in one shape: a half, its mirror image and the record, at the nodes that the names
stand for. -/
theorem Call.write_link_under {c : Call} {h : Half} {u r : String} (hh : c.half? = some h)
    (hu : pathComponents h.owner = [u]) (hr : pathComponents h.name = [r]) :
    ∃ entries, c.write = (dictionaryLiteral entries >>= compoundWriteFromDictionary) ∧
      writesOf entries = (h.under u r).write :: (h.under u r).mirror.write :: c.recordWrite := by
  cases c <;> simp only [Call.half?, Option.some.injEq, reduceCtorEq] at hh
  all_goals
    subst hh
    refine ⟨_, rfl, ?_⟩
    simp only [writesOf, List.map_cons, List.map_nil, Half.under, Half.write, Half.mirror, Field.mirror, Field.key,
      entryNode, Call.recordWrite, Call.record?, Option.map_some, Option.map_none, Option.toList_some,
      Option.toList_none, Option.getD_some, Option.getD_none, pathComponents_record,
      pathComponents_relationships hu hr, pathComponents_relationships hr hu,
      pathComponents_pending hu hr, pathComponents_requests hr hu]

/-- What an accepted link update writes: places that lie apart. -/
theorem Call.write_under {c : Call} {h : Half} {u r : String} (hh : c.half? = some h)
    (hu : pathComponents h.owner = [u]) (hr : pathComponents h.name = [r]) {ws : CompoundWrite}
    (hws : c.write = some ws) :
    ws = (h.under u r).write :: (h.under u r).mirror.write :: c.recordWrite ∧
      ws.Pairwise fun w w' => Apart w.1 w'.1 := by
  obtain ⟨entries, hwrite, hwrites⟩ := c.write_link_under hh hu hr
  obtain ⟨hacc, rfl⟩ := updateChildValues_eq_some.1 (hwrite.symm.trans hws)
  exact ⟨hwrites, hacc.2⟩

theorem Call.ValidNames.half {c : Call} {h : Half} (hn : c.ValidNames) (hh : c.half? = some h) :
    IsComponent h.owner ∧ IsComponent h.name := by
  cases c <;> simp only [Call.half?, Option.some.injEq, reduceCtorEq] at hh
  all_goals
    subst hh
    first | exact hn | exact hn.symm

/-! ## What a call changes -/

/-- A call that was handed over to the SDK, under names that are single components. -/
structure Call.Issued (c : Call) : Prop where
  names : c.ValidNames
  write : c.write.isSome

theorem Call.Issued.link {c : Call} {h : Half} (hi : c.Issued) (hh : c.half? = some h) :
    c.write = some (h.write :: h.mirror.write :: c.recordWrite) ∧
      Apart h.write.1 h.mirror.write.1 := by
  obtain ⟨ws, hws⟩ := Option.isSome_iff_exists.1 hi.write
  have hnames := hi.names.half hh
  obtain ⟨rfl, hap⟩ := c.write_under hh hnames.1.pathComponents hnames.2.pathComponents hws
  exact ⟨hws, (List.pairwise_cons.1 hap).1 _ List.mem_cons_self⟩

/-- The entry a call changes in the dictionary `f` of a user: the key and its new value. -/
def Call.edit (c : Call) (f : Field) (user : String) : Option (String × Option String) :=
  match c.half? with
  | some h =>
    if f = h.field ∧ user = h.owner then some (h.name, h.value)
    else if f = h.mirror.field ∧ user = h.mirror.owner then some (h.mirror.name, h.value)
    else none
  | none => none

/-- What a call does to the dictionary `f` of a user. -/
def Call.onDict (c : Call) (f : Field) (user : String) (d : NSMutableDictionary) :
    NSMutableDictionary :=
  match c.edit f user with
  | some (n, v) => store d n v
  | none => d

/-- The value a call gives the entry `users/<a>/<f>/<b>`, if it writes it. -/
def Call.sets (c : Call) (f : Field) (a b : String) : Option (Option String) :=
  match c.half? with
  | some h => if h.At f a b ∨ h.mirror.At f a b then some h.value else none
  | none => none

/-- `insertUser` replaces a whole node; every other call changes single entries. -/
def Call.IsInsert : Call → Prop
  | .insertUser _ => True
  | _ => False

theorem Call.edit_of_half_none {c : Call} (h : c.half? = none) (f : Field) (u : String) :
    c.edit f u = none := by
  simp [Call.edit, h]

/-- Where a call without halves writes: next to the device token, at most. -/
theorem Call.Issued.apart_dict {c : Call} (hi : c.Issued) (hins : ¬ c.IsInsert)
    (hh : c.half? = none) (u : String) {k : String} (hk : k ≠ "deviceID") :
    ∀ w ∈ c.write.getD [], Apart w.1 ["users", u, k] := by
  have hm : isValidKey "messages" := by decide
  cases c with
  | sendNotification uuid sendTo sendFrom n =>
    obtain ⟨w, hw⟩ := Option.isSome_iff_exists.1 hi.write
    rw [hw]
    simp only [Call.write, DatabaseManager.sendNotification, child, Option.bind_eq_bind,
      Option.bind_eq_some_iff, Option.ite_none_right_eq_some, Option.some.injEq] at hw
    obtain ⟨_, ⟨-, rfl⟩, rfl⟩ := hw
    intro x hx
    simp only [Option.getD_some, List.mem_singleton] at hx
    subst hx
    exact apart_cons_of_ne _ _ (by decide)
  | uploadDeviceToken user token =>
    have hd : IsComponent "deviceID" := by decide
    obtain ⟨w, hw⟩ := Option.isSome_iff_exists.1 hi.write
    rw [hw]
    simp only [Call.write, DatabaseManager.uploadDeviceToken, Option.bind_eq_bind,
      Option.bind_eq_some_iff, Option.some.injEq] at hw
    obtain ⟨p, hp, q, hq, rfl⟩ := hw
    rw [child_eq_some hd hq, child_eq_some hi.names hp]
    simp only [Option.getD_some, List.mem_singleton, forall_eq]
    refine apart_of_length_eq rfl fun h => ?_
    simp only [List.cons_append, List.nil_append, List.cons.injEq, and_true] at h
    exact hk h.2.2.symm
  | insertUser user => exact absurd trivial hins
  | _ => simp [Call.half?] at hh

theorem Call.Issued.apart_record {c : Call} (hi : c.Issued) (hins : ¬ c.IsInsert)
    (hh : c.half? = none) (id : String) :
    ∀ w ∈ c.write.getD [], Apart w.1 ["relationships", id] := by
  obtain ⟨w, hw⟩ := Option.isSome_iff_exists.1 hi.write
  rw [hw]
  cases c with
  | sendNotification uuid sendTo sendFrom n =>
    simp only [Call.write, DatabaseManager.sendNotification, child, Option.bind_eq_bind,
      Option.bind_eq_some_iff, Option.ite_none_right_eq_some, Option.some.injEq] at hw
    obtain ⟨_, ⟨-, rfl⟩, rfl⟩ := hw
    simp only [Option.getD_some, List.mem_singleton, forall_eq]
    exact apart_cons_of_ne _ _ (by decide)
  | uploadDeviceToken user token =>
    simp only [Call.write, DatabaseManager.uploadDeviceToken, child, Option.bind_eq_bind,
      Option.bind_eq_some_iff, Option.ite_none_right_eq_some, Option.some.injEq] at hw
    obtain ⟨_, ⟨-, rfl⟩, _, ⟨-, rfl⟩, rfl⟩ := hw
    simp only [Option.getD_some, List.mem_singleton, forall_eq]
    exact apart_cons_of_ne _ _ (by decide)
  | insertUser user => exact absurd trivial hins
  | _ => simp [Call.half?] at hh

theorem Call.recordWrite_apart (c : Call) (u k : String) :
    ∀ w ∈ c.recordWrite, Apart w.1 ["users", u, k] := by
  intro w hw
  unfold Call.recordWrite at hw
  cases hr : c.record? with
  | none => simp [hr] at hw
  | some r =>
    simp only [hr, Option.map_some, Option.toList_some, List.mem_singleton] at hw
    subst hw
    exact apart_cons_of_ne _ _ (by decide)

/-- A half is a write into its dictionary and lies apart from every other one. -/
theorem Half.dict_write (h : Half) (db : Database) (f : Field) (u : String) :
    Database.dict (db.set h.write.1 h.write.2) f u =
      if f = h.field ∧ u = h.owner then store (db.dict f u) h.name h.value else db.dict f u := by
  split
  · rename_i hk
    obtain ⟨rfl, rfl⟩ := hk
    exact Tree.sub_set_append db (entryNode h.value) ["users", h.owner, h.field.key] [h.name]
  · rename_i hk
    have hne : ["users", h.owner, h.field.key] ≠ ["users", u, f.key] := by
      intro heq
      simp only [List.cons.injEq, and_true, true_and, Field.key_inj] at heq
      exact hk ⟨heq.2.symm, heq.1.symm⟩
    have hap : Apart ["users", h.owner, h.field.key] ["users", u, f.key] :=
      apart_of_length_eq (by simp) hne
    exact Tree.sub_set_apart db _ (hap.append_left [h.name])

/-- An issued half and its mirror image are in different dictionaries. -/
theorem Half.mirror_elsewhere {h : Half} (hap : Apart h.write.1 h.mirror.write.1) :
    ¬ (h.field = h.mirror.field ∧ h.owner = h.mirror.owner) := by
  rintro ⟨hf, ho⟩
  have hsame : h.mirror.write.1 = h.write.1 := by
    simp only [Half.mirror] at hf ho
    simp only [Half.write, Half.mirror]
    rw [← hf, ← ho]
  rw [hsame] at hap
  exact not_apart_self _ hap

namespace Database

/-- **Dictionaries after a call.** -/
theorem dict_apply {c : Call} (hi : c.Issued) (hins : ¬ c.IsInsert) (db : Database) (f : Field)
    (u : String) : (db.apply c).dict f u = c.onDict f u (db.dict f u) := by
  cases hh : c.half? with
  | none =>
    rw [Call.onDict, Call.edit_of_half_none hh]
    exact Tree.sub_update_apart db (hi.apart_dict hins hh u (by cases f <;> decide))
  | some h =>
    obtain ⟨hw, hap⟩ := hi.link hh
    have hne := Half.mirror_elsewhere hap
    have happ : (db.apply c).dict f u =
        Database.dict ((db.set h.write.1 h.write.2).set h.mirror.write.1 h.mirror.write.2) f u := by
      unfold apply dict
      rw [hw, Option.getD_some, Tree.update_cons, Tree.update_cons,
        Tree.sub_update_apart _ (c.recordWrite_apart u f.key)]
    rw [happ, Half.dict_write, Half.dict_write]
    simp only [Call.onDict, Call.edit, hh]
    by_cases h1 : f = h.field ∧ u = h.owner
    · obtain ⟨rfl, rfl⟩ := h1
      simp [hne]
    · simp only [h1, if_false]
      by_cases h2 : f = h.mirror.field ∧ u = h.mirror.owner
      · simp only [h2, and_self, if_true]
        rfl
      · simp only [h2, if_false]

/-- **Entries after a call.** -/
theorem entry_apply {c : Call} (hi : c.Issued) (hins : ¬ c.IsInsert) (db : Database) (f : Field)
    (a b : String) :
    (db.apply c).entry f a b =
      match c.sets f a b with
      | some v => entryNode v
      | none => db.entry f a b := by
  unfold entry
  rw [dict_apply hi hins]
  cases hh : c.half? with
  | none => simp [Call.onDict, Call.edit, Call.sets, hh]
  | some h =>
    have hne := Half.mirror_elsewhere (hi.link hh).2
    simp only [Call.onDict, Call.edit, Call.sets, hh, Half.At]
    by_cases h1 : f = h.field ∧ a = h.owner
    · obtain ⟨rfl, rfl⟩ := h1
      simp only [hne, true_and, and_self, if_true, object_store, ← and_assoc, false_and, or_false]
      split <;> rfl
    · simp only [h1, if_false, ← and_assoc, false_and, false_or]
      by_cases h2 : f = h.mirror.field ∧ a = h.mirror.owner
      · simp only [h2, and_self, if_true, true_and, object_store]
        split <;> rfl
      · simp only [h2, if_false, false_and]

/-- Below `users/<u>`, only the three dictionaries and the device token change. -/
theorem sub_apply {c : Call} (hi : c.Issued) (hins : ¬ c.IsInsert) (db : Database) (u : String)
    {k : String} (hk : k ≠ "deviceID") (hf : ∀ f : Field, f.key ≠ k) :
    (db.apply c).sub ["users", u, k] = db.sub ["users", u, k] := by
  refine Tree.sub_update_apart db ?_
  cases hh : c.half? with
  | none => exact hi.apart_dict hins hh u hk
  | some h =>
    have hhalf : ∀ h' : Half, Apart h'.write.1 ["users", u, k] := by
      intro h'
      have hne : ["users", h'.owner, h'.field.key] ≠ ["users", u, k] := by
        intro heq
        simp only [List.cons.injEq, and_true, true_and] at heq
        exact hf _ heq.2
      have hap : Apart ["users", h'.owner, h'.field.key] ["users", u, k] :=
        apart_of_length_eq (by simp) hne
      exact hap.append_left [h'.name]
    intro w hw
    rw [(hi.link hh).1, Option.getD_some] at hw
    rcases List.mem_cons.1 hw with rfl | hw
    · exact hhalf h
    · rcases List.mem_cons.1 hw with rfl | hw
      · exact hhalf h.mirror
      · exact c.recordWrite_apart u k w hw

/-- Updates that do not write an entry leave it as it is. -/
theorem entry_applyAll_of_sets {f : Field} {a b : String} :
    ∀ {cs : List Call} (db : Database), (∀ c ∈ cs, c.Issued ∧ ¬ c.IsInsert ∧ c.sets f a b = none) →
      (db.applyAll cs).entry f a b = db.entry f a b
  | [], _, _ => rfl
  | c :: cs, db, h => by
    obtain ⟨hi, hins, hsets⟩ := h c List.mem_cons_self
    rw [applyAll_cons, entry_applyAll_of_sets _ fun x hx => h x (List.mem_cons_of_mem _ hx),
      entry_apply hi hins, hsets]

theorem entry_apply_half {c : Call} (hi : c.Issued) {h : Half} (hh : c.half? = some h)
    (db : Database) (f : Field) (a b : String) :
    (db.apply c).entry f a b =
      if h.At f a b ∨ h.mirror.At f a b then entryNode h.value else db.entry f a b := by
  have hins : ¬ c.IsInsert := by cases c <;> simp_all [Call.half?, Call.IsInsert]
  rw [entry_apply hi hins, Call.sets, hh]
  split <;> rename_i hs <;> split at hs <;> simp_all

theorem dict_applyAll (f : Field) (u : String) :
    ∀ (cs : List Call) (db : Database), (∀ c ∈ cs, c.Issued ∧ ¬ c.IsInsert) →
      (db.applyAll cs).dict f u = cs.foldl (fun d c => c.onDict f u d) (db.dict f u)
  | [], _, _ => rfl
  | c :: cs, db, h => by
    have hc := h c List.mem_cons_self
    rw [applyAll_cons, dict_applyAll f u cs _ fun x hx => h x (List.mem_cons_of_mem _ hx),
      dict_apply hc.1 hc.2, List.foldl_cons]

/-- **Records after a call** whose id is a key of the database. -/
theorem record_apply {c : Call} (hi : c.Issued) (hins : ¬ c.IsInsert)
    (hid : ∀ r ∈ c.record?, isValidKey r.1) (db : Database) (id : String) :
    (db.apply c).record id =
      match c.record? with
      | some r => if id = r.1 then r.2 else db.record id
      | none => db.record id := by
  have hhalf : ∀ h : Half, Apart h.write.1 ["relationships", id] := fun h =>
    apart_cons_of_ne _ _ (by decide)
  cases hh : c.half? with
  | none =>
    have hr : c.record? = none := by cases c <;> simp_all [Call.half?, Call.record?]
    rw [hr]
    exact Tree.sub_update_apart db (hi.apart_record hins hh id)
  | some h =>
    obtain ⟨hw, -⟩ := hi.link hh
    have happ : (db.apply c).record id =
        Tree.sub (Tree.update ((db.set h.write.1 h.write.2).set h.mirror.write.1 h.mirror.write.2)
          c.recordWrite) ["relationships", id] := by
      unfold apply record
      rw [hw, Option.getD_some, Tree.update_cons, Tree.update_cons]
    have hold : Tree.sub ((db.set h.write.1 h.write.2).set h.mirror.write.1 h.mirror.write.2)
        ["relationships", id] = db.record id := by
      rw [Tree.sub_set_apart _ _ (hhalf _), Tree.sub_set_apart _ _ (hhalf _)]
      rfl
    rw [happ, Call.recordWrite]
    cases hr : c.record? with
    | none => simpa using hold
    | some r =>
      have hk : pathComponents r.1 = [r.1] := (hid r hr).pathComponents
      simp only [Option.map_some, Option.toList_some, Tree.update_cons, Tree.update_nil, hk]
      split
      · rename_i heq
        rw [heq, Tree.sub_set_self]
      · rename_i hne
        rw [Tree.sub_set_apart, hold]
        exact apart_of_length_eq (by simp) (by simpa using Ne.symm hne)

end Database

/-! ## The half in the caller's own node -/

/-- The half a caller also changes in its session. -/
def Call.own? : Call → Option Half
  | .addRelationship u r id => some ⟨.relationships, u, r, some id⟩
  | .deleteRelationship u r _ => some ⟨.relationships, u, r, none⟩
  | .addPending u r id => some ⟨.pending, u, r, some id⟩
  | .removePending u r => some ⟨.pending, u, r, none⟩
  | .removeRequest u r => some ⟨.requests, u, r, none⟩
  | _ => none

/-- The change of the caller's own dictionary `f`. -/
def Call.onOwn (c : Call) (f : Field) (d : NSMutableDictionary) : NSMutableDictionary :=
  match c.own? with
  | some h => if f = h.field then store d h.name h.value else d
  | none => d

theorem Call.edit_own {c : Call} {h : Half} (ho : c.own? = some h) :
    c.edit h.field h.owner = some (h.name, h.value) := by
  cases c <;> simp only [Call.own?, Option.some.injEq, reduceCtorEq] at ho
  all_goals subst ho; simp [Call.edit, Call.half?, Half.mirror, Field.mirror]

/-- Between different users the own half is all that a call changes in the caller's node. -/
theorem Call.onDict_own {c : Call} {h : Half} (ho : c.own? = some h) (hne : h.name ≠ h.owner)
    (f : Field) (d : NSMutableDictionary) : c.onDict f h.owner d = c.onOwn f d := by
  cases c <;> simp only [Call.own?, Option.some.injEq, reduceCtorEq] at ho
  all_goals
    subst ho
    cases f <;>
      simp [Call.onDict, Call.onOwn, Call.edit, Call.half?, Call.own?, Half.mirror, Field.mirror, hne.symm]

/-! ## When a link update goes through -/

theorem hasValidKeys_users (u r : String) : hasValidKeys (Node.array [.string u, .string r]) := by
  have h0 : isValidKey "0" := by decide
  have h1 : isValidKey "1" := by decide
  exact hasValidKeys_dictionary (by simpa using ⟨h0, h1⟩)

theorem hasValidKeys_relationshipRecord (u r : String) :
    hasValidKeys (DatabaseManager.relationshipRecord u r) := by
  have hk : isValidKey "users" ∧ isValidKey "data" ∧ isValidKey "text-post" ∧ isValidKey "0" := by
    decide
  obtain ⟨h1, h2, h3, h4⟩ := hk
  have hdata : hasValidKeys (Node.array [.dictionary [("text-post",
      .dictionary [("data", .string (DatabaseManager.welcome u r))])]]) :=
    hasValidKeys_dictionary (by simpa using
      ⟨h4, hasValidKeys_dictionary (by simpa using ⟨h3, hasValidKeys_dictionary (by simpa using h2)⟩)⟩)
  exact hasValidKeys_dictionary (by simpa using ⟨⟨h1, hasValidKeys_users u r⟩, h2, hdata⟩)

/-- A link update at valid keys goes through exactly when it is no relationship of a node with itself (the
literal has a key twice, or two keys that are the same path), if its id is a path. -/
theorem Call.write_isSome_iff {c : Call} {h : Half} {u r : String} (hh : c.half? = some h)
    (hu : pathComponents h.owner = [u]) (hr : pathComponents h.name = [r]) (hnames : isValidKey u ∧ isValidKey r)
    (hid : ∀ r ∈ c.record?, ∀ k ∈ pathComponents r.1, isValidKey k) :
    c.write.isSome ↔ (h.field = .relationships → u ≠ r) := by
  obtain ⟨entries, hw, hwr⟩ := c.write_link_under hh hu hr
  have hval : ∀ v, hasValidKeys (entryNode v) := fun v => by cases v <;> simp [entryNode]
  have husers : isValidKey "users" := by decide
  have hrelations : isValidKey "relationships" := by decide
  have hrec : ∀ w ∈ c.recordWrite, (∀ k ∈ w.1, isValidKey k) ∧ hasValidKeys w.2 ∧
      w.1.head? = some "relationships" := by
    intro w hw
    simp only [Call.recordWrite, Option.mem_toList, Option.map_eq_some_iff] at hw
    obtain ⟨r, hr, rfl⟩ := hw
    refine ⟨?_, ?_, rfl⟩
    · simpa using ⟨hrelations, hid r hr⟩
    · cases c <;> simp only [Call.record?, Option.some.injEq, reduceCtorEq] at hr
      · subst hr; exact hasValidKeys_relationshipRecord _ _
      · subst hr; exact hasValidKeys_empty
  have hapart : ∀ k : Half, ∀ w ∈ c.recordWrite, Apart k.write.1 w.1 := by
    intro k w hw
    obtain ⟨-, -, hhead⟩ := hrec w hw
    obtain ⟨x, hx⟩ := List.head?_eq_some_iff.1 hhead
    rw [hx]
    exact apart_cons_of_ne _ _ (by decide)
  -- the two halves are the same entry exactly when they are a relationship of one node
  have hhalves : Apart (h.under u r).write.1 (h.under u r).mirror.write.1 ↔ (h.field = .relationships → u ≠ r) := by
    constructor
    · rintro hap hf rfl
      simp only [Half.write, Half.under, Half.mirror, hf] at hap
      exact not_apart_self _ hap
    · intro hne
      refine apart_of_length_eq (by simp [Half.write]) fun heq => ?_
      simp only [Half.write, Half.under, Half.mirror, List.cons.injEq, and_true, true_and, Field.key_inj] at heq
      have hf : h.field = .relationships := by
        revert heq
        cases h.field <;> simp [Field.mirror]
      exact hne hf heq.1
  rw [← hhalves]
  constructor
  · intro hsome
    obtain ⟨w, hsome⟩ := Option.isSome_iff_exists.1 hsome
    have hp := (updateChildValues_eq_some.1 (hw.symm.trans hsome)).1.2
    rw [hwr] at hp
    exact (List.pairwise_cons.1 hp).1 _ List.mem_cons_self
  · intro hne
    suffices hacc : Accepted entries by
      rw [hw, updateChildValues_eq_some.2 ⟨hacc, rfl⟩]
      rfl
    refine ⟨?_, ?_⟩ <;> rw [hwr]
    · intro w hw
      rcases List.mem_cons.1 hw with rfl | hw
      · exact ⟨by simpa [Half.write] using ⟨husers, hnames.1, h.field.isValidKey_key, hnames.2⟩, hval _⟩
      · rcases List.mem_cons.1 hw with rfl | hw
        · exact ⟨by simpa [Half.write, Half.mirror] using
            ⟨husers, hnames.2, h.field.mirror.isValidKey_key, hnames.1⟩, hval _⟩
        · exact ⟨(hrec w hw).1, (hrec w hw).2.1⟩
    · refine List.pairwise_cons.2 ⟨fun w hw => ?_, List.pairwise_cons.2 ⟨hapart _, ?_⟩⟩
      · rcases List.mem_cons.1 hw with rfl | hw
        · exact hne
        · exact hapart _ w hw
      · cases hr : c.record? <;> simp [Call.recordWrite, hr]

theorem Call.write_isSome {c : Call} {h : Half} (hh : c.half? = some h)
    (hnames : isValidKey h.owner ∧ isValidKey h.name) (hne : h.field = .relationships → h.owner ≠ h.name)
    (hid : ∀ r ∈ c.record?, ∀ k ∈ pathComponents r.1, isValidKey k) : c.write.isSome :=
  (c.write_isSome_iff hh hnames.1.pathComponents hnames.2.pathComponents hnames hid).2 hne

/-! ## Both sides of a link -/

/-- A call treats an entry and its mirror image alike. -/
theorem Call.sets_mirror (c : Call) (f : Field) (a b : String) : c.sets f a b = c.sets f.mirror b a := by
  cases hh : c.half? with
  | none => simp [Call.sets, hh]
  | some h =>
    simp only [Call.sets, hh, Half.at_mirror, Field.mirror_mirror]
    exact if_congr or_comm rfl rfl

/-- The two sides of every link hold the same ids. -/
def TwoSided (db : Database) : Prop :=
  ∀ a b id,
    (db.entry .relationships a b = .string id ↔ db.entry .relationships b a = .string id) ∧
    (db.entry .pending a b = .string id ↔ db.entry .requests b a = .string id)

theorem twoSided_iff {db : Database} :
    TwoSided db ↔
      ∀ f a b id, db.entry f a b = .string id ↔ db.entry f.mirror b a = .string id := by
  constructor
  · intro h f a b id
    cases f with
    | relationships => exact (h a b id).1
    | pending => exact (h a b id).2
    | requests => exact (h b a id).2.symm
  · intro h a b id
    exact ⟨h .relationships a b id, h .pending a b id⟩

/-- A call keeps both sides of every link alike, in whatever sense they were alike before. -/
theorem mirror_apply {R : Node → Node → Prop} (hrefl : ∀ n, R n n) {c : Call} (hn : c.ValidNames)
    (hins : ¬ c.IsInsert) {db : Database} (h : ∀ f a b, R (db.entry f a b) (db.entry f.mirror b a)) :
    ∀ f a b, R ((db.apply c).entry f a b) ((db.apply c).entry f.mirror b a) := by
  by_cases hw : c.write.isSome
  · have hi : c.Issued := ⟨hn, hw⟩
    intro f a b
    rw [Database.entry_apply hi hins, Database.entry_apply hi hins, ← c.sets_mirror]
    cases c.sets f a b with
    | none => exact h f a b
    | some v => exact hrefl _
  · rw [Option.not_isSome_iff_eq_none] at hw
    simpa [Database.apply, hw] using h

theorem twoSided_apply {c : Call} (hn : c.ValidNames) (hins : ¬ c.IsInsert) {db : Database}
    (h : TwoSided db) : TwoSided (db.apply c) := by
  rw [twoSided_iff] at h ⊢
  exact mirror_apply (R := fun n m => ∀ id, n = .string id ↔ m = .string id) (fun _ _ => Iff.rfl)
    hn hins h

/-- The two sides of every link are the same node. -/
def Mirrored (db : Database) : Prop := ∀ f a b, db.entry f a b = db.entry f.mirror b a

theorem mirrored_apply {c : Call} (hn : c.ValidNames) (hins : ¬ c.IsInsert) {db : Database}
    (h : Mirrored db) : Mirrored (db.apply c) :=
  mirror_apply (R := Eq) (fun _ => rfl) hn hins h

theorem mirrored_applyAll :
    ∀ {cs : List Call} {db : Database}, (∀ c ∈ cs, c.ValidNames ∧ ¬ c.IsInsert) → Mirrored db →
      Mirrored (db.applyAll cs)
  | [], _, _, h => h
  | c :: cs, db, hcs, h => by
    obtain ⟨hn, hins⟩ := hcs c List.mem_cons_self
    rw [Database.applyAll_cons]
    exact mirrored_applyAll (fun x hx => hcs x (List.mem_cons_of_mem _ hx)) (mirrored_apply hn hins h)

/-- One of the five link updates, under names that are single path components. -/
def Call.IsLinkUpdate (c : Call) : Prop := c.half?.isSome ∧ c.ValidNames

theorem Call.IsLinkUpdate.not_isInsert {c : Call} (h : c.IsLinkUpdate) : ¬ c.IsInsert := by
  cases c <;> simp_all [Call.IsLinkUpdate, Call.half?, Call.IsInsert]

/-- **Two-sided links survive every sequence of link updates**, whatever ids they carry: the ids
come from sessions that may be arbitrarily stale, and an update that traps or is rejected by the
SDK never reaches the server. -/
theorem links_two_sided_run (db : Database) (h : TwoSided db) :
    ∀ cs : List Call, (∀ c ∈ cs, c.IsLinkUpdate) → TwoSided (db.applyAll cs) := by
  intro cs
  induction cs generalizing db with
  | nil => intro _; exact h
  | cons c cs ih =>
    intro hcs
    have hc := hcs c List.mem_cons_self
    exact ih _ (twoSided_apply hc.2 hc.not_isInsert h) fun c' hc' => hcs c' (List.mem_cons_of_mem _ hc')

/-- Bob asks twice, Alice accepts the first request, and Bob withdraws the second one. -/
theorem links_two_sided_run_bob :
    TwoSided Tree.empty ∧
    TwoSided (Database.applyAll Tree.empty [.addPending "bob" "alice" "R1",
      .addPending "bob" "alice" "R2", .removeRequest "alice" "bob",
      .addRelationship "alice" "bob" "R1", .removePending "bob" "alice"]) := by
  have hempty : TwoSided Tree.empty := by
    intro a b id
    simp [Database.entry, Database.dict, object]
  have hn : IsComponent "alice" ∧ IsComponent "bob" := by decide
  refine ⟨hempty, links_two_sided_run _ hempty _ ?_⟩
  simp [Call.IsLinkUpdate, Call.half?, Call.ValidNames, hn]

end Anissagram
