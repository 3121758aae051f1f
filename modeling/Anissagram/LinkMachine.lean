import Anissagram.Lib.Handshake
import Anissagram.Taps
/-
# The store refines one link machine per pair

Operations one after the other, each by a client whose session matches its node, each applied before
the next one starts. The database is then at every moment the encoding of an abstract state
(`Handshake.Links`): a request is its two halves, a relationship its two halves and the record under
the same id, and nothing else is stored besides what `insertUser` left. The row of a name offers
exactly the moves of the machine (`Encodes.mem_buttons`), and the operation behind a button makes
the move (`Encodes.step`).
-/

namespace Anissagram

open PathTree NSMutableDictionary Runs Handshake

/-! ## Encoding -/

/-- What `users/<a>/<f>/<b>` holds under a link of `a` and `b`. -/
def linkEntry (f : Field) (a : String) : Link String String → Option String
  | .none => none
  | .requested who id =>
    match f with
    | .relationships => none
    | .pending => if who = a then some id else none
    | .requests => if who = a then none else some id
  | .related id =>
    match f with
    | .relationships => some id
    | _ => none

/-- The database is exactly the encoding of `links` over the users `gs`. -/
structure Encodes (gs : List Registration) (links : Links String String) (db : Database) : Prop where
  entry : ∀ f a b, a ≠ b → db.entry f a b = entryNode (linkEntry f a (links.link s(a, b)))
  self : ∀ f a, db.entry f a a = (registered gs).entry f a a
  record : ∀ id,
    (∃ a b, links.link s(a, b) = .related id ∧ db.record id = DatabaseManager.relationshipRecord a b) ∨
    (∀ p, links.link p ≠ .related id) ∧ db.record id = (registered gs).record id
  /-- Every other leaf is as `insertUser` left it. -/
  rest : ∀ p, (∀ f a b, ¬ ["users", a, Field.key f, b] <+: p) → (∀ id, ¬ ["relationships", id] <+: p) →
    db.leaf p = (registered gs).leaf p

/-! ## Turns -/

/-- One operation of a client with the session store `store`. -/
structure Turn where
  store : SessionStore
  op : LinkOp

namespace Turn

/-- Every update of the operation is applied. -/
def step (db : Database) (t : Turn) : Option Database := some (db.applyAll (t.op.run t.store).issued)

/-- The ids drawn so far, those of `insertUser` included. -/
def drawn (gs : List Registration) (hist : History Database Turn) : List String :=
  hist.filterMap (fun x => x.2.op.uuid?) ++ gs.map Registration.uuid

/-- The session matches its node, and the untoggled row of another registered user offers the
operation; a drawn id is new. -/
def Sequential (gs : List Registration) (hist : History Database Turn) (db : Database) (t : Turn) : Prop :=
  ∃ user ∈ t.store.session,
    user.Matches db ∧ user.userName ∈ gs.map Registration.userName ∧
    t.op.name ∈ gs.map Registration.userName ∧ t.op.name ≠ user.userName ∧
    t.op ∈ SearchResultItem.buttons t.store false t.op.name (t.op.uuid?.getD "") ∧
    ∀ newUUID ∈ t.op.uuid?, isValidKey newUUID ∧ newUUID ∉ drawn gs hist

instance (gs : List Registration) (hist : History Database Turn) (db : Database) (t : Turn) :
    Decidable (Sequential gs hist db t) :=
  inferInstanceAs (Decidable (∃ user ∈ t.store.session, _ ∧ _ ∧ _ ∧ _ ∧ _ ∧ _))

end Turn

/-- The move a button makes; no button calls `addRelationShip`. -/
def LinkOp.move? : LinkOp → Option (Move String)
  | .addRelationShip _ _ => none
  | .deleteRelationShip _ => some .delete
  | .addPending _ newUUID => some (.add newUUID)
  | .deletePending _ => some .unsend
  | .acceptRequest _ => some .accept
  | .declineRequest _ => some .decline

/-- The abstract action of a turn. -/
def Turn.action? (t : Turn) : Option (Handshake.Action String String) := do
  let user ← t.store.session
  let move ← t.op.move?
  some ⟨user.userName, t.op.name, move⟩

/-- The ids a run may draw. -/
def supply (gs : List Registration) : Set String :=
  fun id => isValidKey id ∧ id ∉ gs.map Registration.uuid

/-! ## What an encoding shows -/

theorem isAbove_of_prefix_entry {p : List String} {a b : String} {f : Field}
    (hp : p <+: ["users", a, f.key, b]) (hne : ¬ ["users", a, f.key, b] <+: p) : IsAbove p := by
  rcases p with _ | ⟨x, _ | ⟨y, _ | ⟨z, _ | ⟨w, p⟩⟩⟩⟩ <;>
    simp only [List.cons_prefix_cons, List.nil_prefix, and_true] at hp
  · exact Or.inl (by simp)
  · exact Or.inl (by simp)
  · obtain ⟨rfl, rfl⟩ := hp
    exact Or.inr (Or.inl ⟨_, rfl⟩)
  · obtain ⟨rfl, rfl, rfl⟩ := hp
    exact Or.inr (Or.inr ⟨_, _, rfl⟩)
  · obtain ⟨rfl, rfl, rfl, rfl, -⟩ := hp
    simp [List.cons_prefix_cons] at hne

theorem isAbove_of_prefix_record {p : List String} {id : String} (hp : p <+: ["relationships", id])
    (hne : ¬ ["relationships", id] <+: p) : IsAbove p := by
  left
  by_contra hlen
  have heq := hp.eq_of_length_le (by simp; omega)
  rw [heq] at hne
  exact hne (List.prefix_refl _)

theorem asString?_entryNode (v : Option String) : (entryNode v).asString? = v := by
  cases v <;> rfl

theorem entryNode_ne_empty {v : Option String} : entryNode v ≠ Tree.empty ↔ v.isSome := by
  cases v <;> simp [entryNode]

/-- The other user keeps the same link in the mirror field. -/
theorem linkEntry_mirror {l : Link String String} {a b : String} (hab : a ≠ b)
    (ha : ∀ who id, l = .requested who id → who = a ∨ who = b) (f : Field) :
    linkEntry f.mirror b l = linkEntry f a l := by
  cases l with
  | none => rfl
  | related id => cases f <;> rfl
  | requested who id =>
    rcases ha who id rfl with rfl | rfl
    · cases f <;> simp [linkEntry, Field.mirror, hab]
    · cases f <;> simp [linkEntry, Field.mirror, Ne.symm hab]

section
variable {gs : List Registration} {hist : History Database Turn} {links links' : Links String String} {db db' : Database}
  {s : SessionStore} {user : User} {op : LinkOp}

theorem Encodes.mirrored (he : Encodes gs links db) (hg : ValidRegistrations gs) : Mirrored db := by
  intro f a b
  by_cases hab : a = b
  · subst hab
    rw [he.self, he.self]
    exact registered_mirrored hg f a a
  · rw [he.entry f a b hab, he.entry f.mirror b a (Ne.symm hab), Sym2.eq_swap,
      linkEntry_mirror hab fun who id h => (links.asked_pair h).symm]

/-- What a matching session holds for another name. -/
theorem Encodes.object_dict (he : Encodes gs links db) (hm : user.Matches db) {name : String}
    (hne : name ≠ user.userName) (f : Field) :
    object (user.dict f) name = entryNode (linkEntry f user.userName (links.link s(user.userName, name))) := by
  rw [hm f, ← he.entry f user.userName name hne.symm]
  rfl

theorem Encodes.holds_iff (he : Encodes gs links db) (hs : s.session = some user) (hm : user.Matches db)
    {name : String} (hne : name ≠ user.userName) (f : Field) :
    s.holds f name ↔ (linkEntry f user.userName (links.link s(user.userName, name))).isSome := by
  rw [← entryNode_ne_empty, ← he.object_dict hm hne]
  simp [SessionStore.holds, hs]

theorem Encodes.idAt_eq (he : Encodes gs links db) (hm : user.Matches db) {name : String}
    (hne : name ≠ user.userName) (f : Field) :
    LinkOp.idAt user f name = linkEntry f user.userName (links.link s(user.userName, name)) := by
  rw [LinkOp.idAt, he.object_dict hm hne, asString?_entryNode]

/-- **The row of a name offers the moves of the machine**, and no others. -/
theorem Encodes.mem_buttons (he : Encodes gs links db) (hs : s.session = some user) (hm : user.Matches db)
    (hne : op.name ≠ user.userName) :
    op ∈ SearchResultItem.buttons s false op.name (op.uuid?.getD "") ↔
      ∃ move ∈ op.move?, ((links.link s(user.userName, op.name)).step user.userName op.name move).isSome := by
  have hasked : ∀ {who id}, links.link s(user.userName, op.name) = .requested who id →
      who = user.userName ∨ who = op.name := links.asked_pair
  simp only [SearchResultItem.buttons, SessionStore.isInRelationship, SessionStore.isPendingRelationship,
    SessionStore.isRequestedRelationship, he.holds_iff hs hm hne]
  generalize links.link s(user.userName, op.name) = l at *
  cases l with
  | none => cases op <;> simp [linkEntry, LinkOp.move?, LinkOp.uuid?, LinkOp.name, Link.step]
  | related id => cases op <;> simp [linkEntry, LinkOp.move?, LinkOp.name, Link.step]
  | requested who id =>
    rcases hasked rfl with rfl | hwho
    · have hne' := Ne.symm hne
      cases op <;> simp_all [linkEntry, LinkOp.move?, LinkOp.name, Link.step]
    · subst hwho
      cases op <;> simp_all [linkEntry, LinkOp.move?, LinkOp.name, Link.step]

/-! ## A move -/

section
variable {move : Move String} {l' : Link String String} (he : Encodes gs links db)
  (hm : user.Matches db) (hne : op.name ≠ user.userName) (hmove : op.move? = some move)
  (hl : (links.link s(user.userName, op.name)).step user.userName op.name move = some l')
include he hm hne hmove hl

/-- The cast of the operation finds an id, and its updates store or delete the record of the link. -/
theorem Encodes.castOk : op.CastOk user ∧
    ∀ c ∈ op.calls user, ∀ r ∈ c.record?, (links.link s(user.userName, op.name)).id? = some r.1 := by
  have hid := he.idAt_eq hm hne
  rcases Link.step_cases hl with ⟨id, rfl, hlink, -⟩ | ⟨id, rfl, hlink, -⟩ | ⟨id, rfl, hlink, -⟩ |
      ⟨id, rfl, hlink, -⟩ | ⟨id, rfl, hlink, -⟩ <;>
    cases op <;> simp only [LinkOp.move?, Option.some.injEq, reduceCtorEq] at hmove
  all_goals
    simp only [LinkOp.name] at hlink hid hne
    simp [hlink, linkEntry, hid, hne, LinkOp.CastOk, LinkOp.calls, LinkOp.name, Call.record?, Link.id?]

/-- The in-place changes leave the entries of the new link. -/
theorem Encodes.localEffect (f : Field) :
    object ((op.localEffect user).dict f) op.name = entryNode (linkEntry f user.userName l') := by
  have hid := he.idAt_eq hm hne
  have hobj := he.object_dict hm hne
  rcases Link.step_cases hl with ⟨id, rfl, hlink, rfl⟩ | ⟨id, rfl, hlink, rfl⟩ | ⟨id, rfl, hlink, rfl⟩ |
      ⟨id, rfl, hlink, rfl⟩ | ⟨id, rfl, hlink, rfl⟩ <;>
    cases op <;> simp only [LinkOp.move?, Option.some.injEq, Move.add.injEq, reduceCtorEq] at hmove
  all_goals
    simp only [LinkOp.name] at hlink hid hne hobj ⊢
    simp only [hlink] at hid hobj
    cases f <;> simp [LinkOp.localEffect, User.dict_mutate, hid, hobj, linkEntry, hne, hmove]

/-- A new relationship stores its record, a deleted one deletes it. -/
theorem Encodes.record_applyAll (hcalls : ∀ c ∈ op.calls user, c.Issued ∧ ¬ c.IsInsert)
    (hids : ∀ c ∈ op.calls user, ∀ r ∈ c.record?, isValidKey r.1) (id : String) :
    (db.applyAll (op.calls user)).record id =
      if l' = .related id then DatabaseManager.relationshipRecord user.userName op.name
      else if links.link s(user.userName, op.name) = .related id then Tree.empty
      else db.record id := by
  have hid := he.idAt_eq hm hne
  have happ : ∀ c ∈ op.calls user, ∀ db : Database,
      (c.record? = none → (db.apply c).record id = db.record id) ∧
      ∀ r, c.record? = some r → (db.apply c).record id = if id = r.1 then r.2 else db.record id := by
    intro c hc db
    rw [Database.record_apply (hcalls c hc).1 (hcalls c hc).2 (hids c hc)]
    exact ⟨fun h => by rw [h], fun r h => by rw [h]⟩
  rcases Link.step_cases hl with ⟨id', rfl, hlink, rfl⟩ | ⟨id', rfl, hlink, rfl⟩ | ⟨id', rfl, hlink, rfl⟩ |
      ⟨id', rfl, hlink, rfl⟩ | ⟨id', rfl, hlink, rfl⟩ <;>
    cases op <;> simp only [LinkOp.move?, Option.some.injEq, reduceCtorEq] at hmove
  all_goals
    simp only [LinkOp.name] at hlink hid hne ⊢
    simp [LinkOp.calls, hid, hlink, linkEntry, hne, Call.record?] at happ ⊢
    simp [happ, eq_comm]

end

/-! ## One turn -/

/-- Below entries and records lies everything a link update can write. -/
theorem Call.Issued.leaf_apply {c : Call} (hi : c.Issued) {h : Half} (hh : c.half? = some h)
    (hid : ∀ r ∈ c.record?, isValidKey r.1) {p : List String}
    (hentry : ∀ f a b, ¬ ["users", a, Field.key f, b] <+: p) (hrecord : ∀ id, ¬ ["relationships", id] <+: p)
    (habove : IsAbove p → db.leaf p = none) : (db.apply c).leaf p = db.leaf p := by
  unfold Database.apply
  rw [(hi.link hh).1, Option.getD_some]
  have hrec : ∀ w ∈ c.recordWrite, ∃ id, w.1 = ["relationships", id] := by
    intro w hw
    simp only [Call.recordWrite, Option.mem_toList, Option.map_eq_some_iff] at hw
    obtain ⟨r, hr, rfl⟩ := hw
    exact ⟨r.1, by rw [(hid r hr).pathComponents]⟩
  have hshape : ∀ w ∈ h.write :: h.mirror.write :: c.recordWrite,
      (∃ f a b, w.1 = ["users", a, Field.key f, b]) ∨ ∃ id, w.1 = ["relationships", id] := by
    intro w hw
    rcases List.mem_cons.1 hw with rfl | hw
    · exact Or.inl ⟨_, _, _, rfl⟩
    · rcases List.mem_cons.1 hw with rfl | hw
      · exact Or.inl ⟨_, _, _, rfl⟩
      · exact Or.inr (hrec w hw)
  refine Tree.leaf_update_of_not_covered db (fun w hw => ?_) ?_
  · rcases hshape w hw with ⟨f, a, b, hwp⟩ | ⟨id, hwp⟩
    · exact hwp ▸ hentry f a b
    · exact hwp ▸ hrecord id
  · rintro ⟨w, hw, hp⟩
    apply habove
    rcases hshape w hw with ⟨f, a, b, hwp⟩ | ⟨id, hwp⟩
    · exact isAbove_of_prefix_entry (hwp ▸ hp) (hentry f a b)
    · exact isAbove_of_prefix_record (hwp ▸ hp) (hrecord id)

theorem leaf_applyAll {p : List String}
    (hentry : ∀ f a b, ¬ ["users", a, Field.key f, b] <+: p) (hrecord : ∀ id, ¬ ["relationships", id] <+: p) :
    ∀ {cs : List Call} {db : Database},
      (∀ c ∈ cs, c.Issued ∧ c.half?.isSome ∧ ∀ r ∈ c.record?, isValidKey r.1) →
      (IsAbove p → db.leaf p = none) → (db.applyAll cs).leaf p = db.leaf p
  | [], _, _, _ => rfl
  | c :: cs, db, hcs, habove => by
    obtain ⟨hi, hh, hid⟩ := hcs c List.mem_cons_self
    obtain ⟨h, hh⟩ := Option.isSome_iff_exists.1 hh
    have hone := hi.leaf_apply hh hid hentry hrecord habove
    rw [Database.applyAll_cons, leaf_applyAll hentry hrecord
      (fun x hx => hcs x (List.mem_cons_of_mem _ hx)) (by rwa [hone]), hone]

/-- The entries after a move: those of the pair show the new link, all others stay. -/
theorem Encodes.entry_move (he : Encodes gs links db) (hg : ValidRegistrations gs)
    (hne : op.name ≠ user.userName) {l' : Link String String}
    (hlink : links'.link = Function.update links.link s(user.userName, op.name) l')
    (hcalls : ∀ c ∈ op.calls user, c.Issued ∧ ¬ c.IsInsert)
    (hown : ∀ f, (db.applyAll (op.calls user)).entry f user.userName op.name =
      entryNode (linkEntry f user.userName l')) (f : Field) {a b : String} :
    (db.applyAll (op.calls user)).entry f a b =
      if s(a, b) = s(user.userName, op.name) then entryNode (linkEntry f a l') else db.entry f a b := by
  have hmirrored : Mirrored (db.applyAll (op.calls user)) :=
    mirrored_applyAll (fun c hc => ⟨(hcalls c hc).1.names, (hcalls c hc).2⟩) (he.mirrored hg)
  split
  · rename_i hpair
    rcases Sym2.eq_iff.1 hpair with ⟨rfl, rfl⟩ | ⟨rfl, rfl⟩
    · exact hown f
    · have hasked : ∀ who id, l' = .requested who id → who = user.userName ∨ who = op.name := by
        intro who id h
        have hself : links'.link s(user.userName, op.name) = .requested who id := by
          rw [hlink, Function.update_self, h]
        exact links'.asked_pair hself
      rw [hmirrored, hown, ← linkEntry_mirror (Ne.symm hne) hasked, Field.mirror_mirror]
  · rename_i hpair
    refine Database.entry_applyAll_of_sets db (fun c hc => ⟨(hcalls c hc).1, (hcalls c hc).2, ?_⟩)
    refine Call.sets_of_not_about (fun habout => hpair ?_) f
    rw [Sym2.eq_iff]
    exact (LinkOp.calls_about hc habout).imp (fun h => ⟨h.1.symm, h.2.symm⟩) fun h => ⟨h.2.symm, h.1.symm⟩

/-- The records after a move. -/
theorem Encodes.record_move (he : Encodes gs links db) (hg : ValidRegistrations gs)
    {u r : String} {l' : Link String String} (hlink : links'.link = Function.update links.link s(u, r) l')
    (hids : ∀ p id, (links.link p).id? = some id → id ∈ supply gs) (hone : links.OneOwner)
    (hrecord : ∀ id, db'.record id =
      if l' = .related id then DatabaseManager.relationshipRecord u r
      else if links.link s(u, r) = .related id then Tree.empty
      else db.record id) (id : String) :
    (∃ a b, links'.link s(a, b) = .related id ∧ db'.record id = DatabaseManager.relationshipRecord a b) ∨
    (∀ p, links'.link p ≠ .related id) ∧ db'.record id = (registered gs).record id := by
  rw [hrecord id]
  have hother : ∀ {p}, p ≠ s(u, r) → links'.link p = links.link p := fun hp => by
    rw [hlink, Function.update_of_ne hp]
  have hself : links'.link s(u, r) = l' := by rw [hlink, Function.update_self]
  by_cases hnew : l' = .related id
  · rw [if_pos hnew]
    exact Or.inl ⟨u, r, hself.trans hnew, rfl⟩
  rw [if_neg hnew]
  by_cases hold : links.link s(u, r) = .related id
  · rw [if_pos hold]
    -- the id was the pair's own, and no record was under it before
    refine Or.inr ⟨fun p hp => ?_, ?_⟩
    · by_cases hpair : p = s(u, r)
      · rw [hpair, hself] at hp
        exact hnew hp
      · rw [hother hpair] at hp
        exact hpair (hone p _ id (by rw [hp]; rfl) (by rw [hold]; rfl))
    · have hfresh := (hids _ id (by rw [hold]; rfl)).2
      rcases registered_record hg id with hrec | ⟨g, hmem, hid, -⟩
      · exact hrec.symm
      · exact absurd (List.mem_map.2 ⟨g, hmem, hid⟩) hfresh
  · rw [if_neg hold]
    rcases he.record id with ⟨a, b, hab, hrec⟩ | ⟨hno, hrec⟩
    · refine Or.inl ⟨a, b, ?_, hrec⟩
      rw [hother, hab]
      intro hpair
      rw [hpair] at hab
      exact hold hab
    · refine Or.inr ⟨fun p hp => ?_, hrec⟩
      by_cases hpair : p = s(u, r)
      · rw [hpair, hself] at hp
        exact hnew hp
      · rw [hother hpair] at hp
        exact hno p hp

/-- **One turn is one move.** -/
theorem Encodes.step (hg : ValidRegistrations gs) (he : Encodes gs links db)
    (hids : ∀ p id, (links.link p).id? = some id → id ∈ supply gs) (hone : links.OneOwner)
    {t : Turn} (ht : t.Sequential gs hist db) :
    ∃ x links', t.action? = some x ∧ links.step x = some links' ∧
      Encodes gs links' (db.applyAll (t.op.run t.store).issued) := by
  obtain ⟨user, hs, hm, hu, hn, hne, hbutton, -⟩ := ht
  have hkey : ∀ {n}, n ∈ gs.map Registration.userName → isValidKey n := by
    intro n hn
    obtain ⟨g, hmem, rfl⟩ := List.mem_map.1 hn
    exact (hg.valid g hmem).1
  obtain ⟨move, hmove, hsome⟩ := (he.mem_buttons hs hm hne).1 hbutton
  obtain ⟨l', hl⟩ := Option.isSome_iff_exists.1 hsome
  obtain ⟨links', hstep, hlink⟩ := Links.exists_step (x := ⟨user.userName, t.op.name, move⟩) hne.symm hl
  -- the operation runs to its end
  obtain ⟨hcast, hrecid⟩ := he.castOk hm hne hmove hl
  have hkeys : ∀ c ∈ t.op.calls user, ∀ r ∈ c.record?, isValidKey r.1 := fun c hc r hr =>
    (hids _ _ (hrecid c hc r hr)).1
  have hrun := LinkOp.run_other hs (hkey hu) (hkey hn) hne hcast hkeys
  have hcalls : ∀ c ∈ t.op.calls user, c.Issued ∧ ¬ c.IsInsert := fun c hc =>
    (LinkOp.issued_link hs (hkey hu).isComponent (hkey hn).isComponent (by rw [hrun]; exact hc)).2
  have hown : ∀ f, (db.applyAll (t.op.calls user)).entry f user.userName t.op.name =
      entryNode (linkEntry f user.userName l') := by
    intro f
    have hexec : t.op.exec t.store db = some
        ({ t.store with session := some (t.op.localEffect user) }, db.applyAll (t.op.calls user)) := by
      rw [LinkOp.exec, hrun]
      rfl
    obtain ⟨user', hs', hname, hm'⟩ := LinkOp.matches_exec hs (hkey hu).isComponent
      ⟨(hkey hn).isComponent, hne⟩ hm hexec
    cases hs'
    rw [← he.localEffect hm hne hmove hl f, hm' f, hname]
    rfl
  refine ⟨_, links', by simp [Turn.action?, Option.mem_def.1 hs, Option.mem_def.1 hmove], hstep, ?_⟩
  rw [hrun]
  have hentry := he.entry_move hg hne hlink hcalls hown
  refine ⟨fun f a b hab => ?_, fun f a => ?_, ?_, fun p hp hp' => ?_⟩
  · rw [hentry f, hlink]
    by_cases hpair : s(a, b) = s(user.userName, t.op.name)
    · rw [if_pos hpair, hpair, Function.update_self]
    · rw [if_neg hpair, Function.update_of_ne hpair, he.entry f a b hab]
  · rw [hentry f, if_neg, he.self]
    intro hpair
    rcases Sym2.eq_iff.1 hpair with ⟨h1, h2⟩ | ⟨h1, h2⟩
    · exact hne (h2.symm.trans h1)
    · exact hne (h1.symm.trans h2)
  · exact he.record_move hg hlink hids hone (he.record_applyAll hm hne hmove hl hcalls hkeys)
  · rw [← he.rest p hp hp']
    refine leaf_applyAll hp hp' (fun c hc => ⟨(hcalls c hc).1, ?_, hkeys c hc⟩) fun habove => ?_
    · obtain ⟨h, ho, -⟩ := LinkOp.calls_own hc
      cases c <;> first | rfl | cases ho
    · rw [he.rest p hp hp']
      exact registered_leaf_above hg habove

/-! ## Every run -/

theorem encodes_registered (hg : ValidRegistrations gs) : Encodes gs Links.empty (registered gs) where
  entry f _ _ hab := registered_entry_ne hg f hab
  self _ _ := rfl
  record _ := Or.inr ⟨(fun _ h => nomatch h), rfl⟩
  rest _ _ _ := rfl

theorem Turn.action?_id {t : Turn} {x : Handshake.Action String String} (h : t.action? = some x) :
    x.move.id? = t.op.uuid? := by
  simp only [action?, Option.bind_eq_bind, Option.bind_eq_some_iff, Option.some.injEq] at h
  obtain ⟨user, -, move, hmove, rfl⟩ := h
  cases hop : t.op <;> simp only [hop, LinkOp.move?, Option.some.injEq, reduceCtorEq] at hmove <;>
  · subst hmove
    rfl

/-- The abstract run draws what the turns draw. -/
theorem Turn.drawn_eq {moves : History (Links String String) (Handshake.Action String String)} :
    ∀ {hist : History Database Turn},
      hist.map (fun x => x.2.action?) = moves.map (fun x => some x.2) →
      drawn gs hist = Links.drawn moves ++ gs.map Registration.uuid := by
  induction moves with
  | nil =>
    intro hist h
    obtain rfl := List.map_eq_nil_iff.1 h
    rfl
  | cons x moves ih =>
    intro hist h
    cases hist with
    | nil => cases h
    | cons y hist =>
      obtain ⟨hx, htail⟩ := List.cons.inj h
      have hrest := ih htail
      rw [drawn] at hrest ⊢
      rw [Links.drawn_cons, List.append_assoc, ← hrest, Turn.action?_id hx]
      cases hid : y.2.op.uuid? <;> simp [hid]

/-- **The store refines the link machine.** In every run of turns, the moves behind the buttons are
a run of the machine with fresh ids, and the database is exactly the encoding of the state this run
ends in. -/
theorem store_refines_handshakes (hg : ValidRegistrations gs)
    (hr : Reach Turn.step (Turn.Sequential gs) (registered gs) hist db) :
    ∃ moves links, Reach Links.step (Links.Fresh (supply gs)) Links.empty moves links ∧
      hist.map (fun x => x.2.action?) = moves.map (fun x => some x.2) ∧ Encodes gs links db := by
  induction hr with
  | start => exact ⟨[], Links.empty, .start, rfl, encodes_registered hg⟩
  | step _ ht hs ih =>
    obtain ⟨moves, links, hmoves, hsame, he⟩ := ih
    have howned := Links.owned_of_reach hmoves
    obtain ⟨x, links', hx, hstep, he'⟩ := he.step hg (fun p id h => (howned.drawn p id h).1) howned.one ht
    cases hs
    refine ⟨(links, x) :: moves, links', hmoves.step (fun id hid => ?_) hstep, ?_, he'⟩
    · rw [Turn.action?_id hx] at hid
      obtain ⟨_, -, -, -, -, -, -, hnew⟩ := ht
      obtain ⟨hkey, hdrawn⟩ := hnew id hid
      rw [Turn.drawn_eq hsame, List.mem_append, not_or] at hdrawn
      exact ⟨⟨hkey, hdrawn.2⟩, hdrawn.1⟩
    · rw [List.map_cons, List.map_cons, hx, hsame]

end

def Turn.bobAsks : Turn := ⟨bob.session (registered aliceAndBob), .addPending "alice" "R1"⟩

def Turn.asked : Database := (registered aliceAndBob).applyAll (Turn.bobAsks.op.run Turn.bobAsks.store).issued

def Turn.aliceAccepts : Turn := ⟨alice.session Turn.asked, .acceptRequest "bob"⟩

/-- Bob asks Alice, and Alice accepts. -/
theorem store_refines_handshakes_alice :
    ∃ hist db moves links,
      Reach Turn.step (Turn.Sequential aliceAndBob) (registered aliceAndBob) hist db ∧
      db.entry .relationships "bob" "alice" = .string "R1" ∧
      Reach Links.step (Links.Fresh (supply aliceAndBob)) Links.empty moves links ∧
      hist.map (fun x => x.2.action?) = moves.map (fun x => some x.2) ∧ Encodes aliceAndBob links db := by
  have hplay : (exec Turn.step (Turn.Sequential aliceAndBob) [] (registered aliceAndBob)
      [Turn.bobAsks, Turn.aliceAccepts]).any
      (fun r => decide (r.2.entry .relationships "bob" "alice" = .string "R1")) = true := by
    decide +kernel
  obtain ⟨hist, db, hr, hentry⟩ := exists_reach_of_exec
    (P := fun _ (db : Database) => db.entry .relationships "bob" "alice" = .string "R1") hplay
  obtain ⟨moves, links, hmoves, hsame, he⟩ := store_refines_handshakes validRegistrations_aliceAndBob hr
  exact ⟨hist, db, moves, links, hr, hentry, hmoves, hsame, he⟩

end Anissagram
