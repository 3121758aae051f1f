import Anissagram.Links
import Mathlib.Data.Sym.Sym2
/-
# Updates of different pairs

A link update of two users writes two entries and at most one record, under paths built from strings.
Two updates of different pairs write at paths that are apart, so the server may apply them in either
order (`independent_updates`); names such as `pending` or `users` make no difference, as a name is
always one component behind a fixed key.
-/

namespace Anissagram

open PathTree NSMutableDictionary

/-- A link update of two different users: their names and the id, if it has one, are keys of the
database. -/
structure Call.UpdateOf (c : Call) (p : Sym2 String) (h : Half) : Prop where
  half : c.half? = some h
  pair : p = s(h.owner, h.name)
  owner : isValidKey h.owner
  name : isValidKey h.name
  different : h.owner ≠ h.name
  ids : ∀ r ∈ c.record?, isValidKey r.1

section
variable {c d : Call} {p q : Sym2 String} {h k : Half}

theorem Call.UpdateOf.issued (hc : c.UpdateOf p h) : c.Issued ∧ ¬ c.IsInsert := by
  have hn : c.ValidNames := by
    have ho := hc.owner.isComponent
    have hm := hc.name.isComponent
    have hh := hc.half
    cases c <;> simp only [Call.half?, Option.some.injEq, reduceCtorEq] at hh
    case removeRequest =>
      subst hh
      exact ⟨hm, ho⟩
    all_goals
      subst hh
      exact ⟨ho, hm⟩
  have hids : ∀ r ∈ c.record?, ∀ key ∈ pathComponents r.1, isValidKey key := by
    intro r hr key hkey
    rw [(hc.ids r hr).pathComponents, List.mem_singleton] at hkey
    exact hkey ▸ hc.ids r hr
  refine ⟨⟨hn, Call.write_isSome hc.half ⟨hc.owner, hc.name⟩ (fun _ => hc.different) hids⟩, ?_⟩
  intro hins
  have hh := hc.half
  cases c <;> first | exact hins | cases hh

/-- Where an update writes: an entry of the pair, or the record under its id. -/
theorem Call.UpdateOf.mem_write (hc : c.UpdateOf p h) {w : List String × Node} (hw : w ∈ c.write.getD []) :
    (∃ f a b, s(a, b) = p ∧ w.1 = ["users", a, Field.key f, b]) ∨
    ∃ r ∈ c.record?, w.1 = ["relationships", r.1] := by
  rw [(hc.issued.1.link hc.half).1, Option.getD_some] at hw
  rcases List.mem_cons.1 hw with rfl | hw
  · exact Or.inl ⟨_, _, _, hc.pair.symm, rfl⟩
  rcases List.mem_cons.1 hw with rfl | hw
  · exact Or.inl ⟨_, _, _, Sym2.eq_swap.trans hc.pair.symm, rfl⟩
  · simp only [Call.recordWrite, Option.mem_toList, Option.map_eq_some_iff] at hw
    obtain ⟨r, hr, rfl⟩ := hw
    exact Or.inr ⟨r, hr, by rw [(hc.ids r hr).pathComponents]⟩

/-- Updates of different pairs under different ids write at paths that are apart. -/
theorem Call.UpdateOf.apart (hc : c.UpdateOf p h) (hd : d.UpdateOf q k) (hpq : p ≠ q)
    (hid : ∀ r ∈ c.record?, ∀ r' ∈ d.record?, r.1 ≠ r'.1) :
    ∀ w ∈ c.write.getD [], ∀ v ∈ d.write.getD [], Apart w.1 v.1 := by
  intro w hw v hv
  rcases hc.mem_write hw with ⟨f, a, b, hab, hwp⟩ | ⟨r, hr, hwp⟩ <;>
    rcases hd.mem_write hv with ⟨g, a', b', hab', hvp⟩ | ⟨r', hr', hvp⟩ <;> rw [hwp, hvp]
  · refine apart_of_length_eq rfl fun heq => hpq ?_
    simp only [List.cons.injEq, and_true, true_and] at heq
    rw [← hab, ← hab', heq.1, heq.2.2]
  · exact apart_cons_of_ne _ _ (by decide)
  · exact apart_cons_of_ne _ _ (by decide)
  · refine apart_of_length_eq rfl fun heq => hid r hr r' hr' ?_
    simpa using heq

/-- An entry of any other pair is not written. -/
theorem Call.UpdateOf.sets_other (hc : c.UpdateOf p h) {a b : String} (hab : s(a, b) ≠ p) (f : Field) :
    c.sets f a b = none := by
  rw [Call.sets, hc.half]
  refine if_neg ?_
  rintro (⟨-, rfl, rfl⟩ | ⟨-, rfl, rfl⟩)
  · exact hab hc.pair.symm
  · exact hab (Sym2.eq_swap.trans hc.pair.symm)

/-- **Updates of different pairs are independent**: they commute, and neither touches an entry of any
other pair, a name or a device token, or a record under another id. -/
theorem independent_updates (hc : c.UpdateOf p h) (hd : d.UpdateOf q k) (hpq : p ≠ q)
    (hid : ∀ r ∈ c.record?, ∀ r' ∈ d.record?, r.1 ≠ r'.1) (db : Database) :
    (db.apply c).apply d = (db.apply d).apply c ∧
    (∀ f a b, s(a, b) ≠ p → (db.apply c).entry f a b = db.entry f a b) ∧
    (∀ u, ∀ key ∈ ["first_name", "last_name", "deviceID"],
      (db.apply c).sub ["users", u, key] = db.sub ["users", u, key]) ∧
    ∀ id, (∀ r ∈ c.record?, id ≠ r.1) → (db.apply c).record id = db.record id := by
  obtain ⟨hi, hins⟩ := hc.issued
  refine ⟨?_, fun f a b hab => ?_, fun u key hkey => ?_, fun id hne => ?_⟩
  · exact Tree.update_comm db fun w hw v hv => (hc.apart hd hpq hid v hv w hw).symm
  · rw [Database.entry_apply hi hins, hc.sets_other hab]
  · refine Tree.sub_update_apart db fun w hw => ?_
    rcases hc.mem_write hw with ⟨f, a, b, -, hwp⟩ | ⟨r, -, hwp⟩ <;> rw [hwp]
    · have hne : f.key ≠ key := by
        rintro rfl
        revert hkey
        cases f <;> decide
      have hap : Apart ["users", a, f.key] ["users", u, key] :=
        apart_of_length_eq rfl (by simp [hne])
      exact hap.append_left [b]
    · exact apart_cons_of_ne _ _ (by decide)
  · rw [Database.record_apply hi hins hc.ids]
    split
    · rename_i r hr
      exact if_neg (hne r hr)
    · rfl

end

/-- Bob asks a user named `pending` while Alice and Bob become related. -/
theorem independent_updates_pending :
    Database.applyAll Tree.empty [.addPending "bob" "pending" "R1", .addRelationship "bob" "alice" "R2"] =
      Database.applyAll Tree.empty [.addRelationship "bob" "alice" "R2", .addPending "bob" "pending" "R1"] := by
  have hk : isValidKey "bob" ∧ isValidKey "pending" ∧ isValidKey "alice" ∧ isValidKey "R2" := by decide
  obtain ⟨hbob, hpending, halice, hid⟩ := hk
  exact (independent_updates (c := .addPending "bob" "pending" "R1") (d := .addRelationship "bob" "alice" "R2")
    ⟨rfl, rfl, hbob, hpending, by decide, by simp [Call.record?]⟩
    ⟨rfl, rfl, hbob, halice, by decide, by simpa [Call.record?] using hid⟩ (by decide)
    (by simp [Call.record?]) Tree.empty).1

end Anissagram
