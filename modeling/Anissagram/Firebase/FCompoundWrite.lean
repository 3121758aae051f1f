import Anissagram.Firebase
import Anissagram.Firebase.FImmutableTree
import Anissagram.Lib.Overlay
import Mathlib.Data.Finset.Sort
import Mathlib.Data.String.Basic
/-
# `FCompoundWrite` (`Snapshot/FCompoundWrite.m`)

The writes waiting for the server, merged into one tree. An `FCompoundWrite` carries that its tree is in order and that
"a write there is always a leaf" (:210): no write is stored below another one.

What matters of it is what it says about each place (`view`): the leaf it writes, where a write is stored at the place
or above it. Merging a sequence of writes one by one says what the sequence shows (`shows_layer`), two compound writes
that say the same are the same (`ext_view`), and applying one to a node lays it over the node (`leaf_applyToNode`).

Priorities are left out, as everywhere (`Anissagram.Firebase`).
-/

namespace Anissagram

open PathTree

namespace Node

/-- `hasChild:` (`FChildrenNode.m`). -/
def hasChild (n : Node) (childKey : String) : Bool := decide (¬ (n.sub [childKey]).isEmpty)

/-- `enumerateChildrenUsingBlock:`. -/
def enumerateChildren (n : Node) : List (String × Node) := (n.keys.sort (· ≤ ·)).map fun key => (key, n.sub [key])

end Node

structure FCompoundWrite where
  writeTree : FImmutableTree String Node
  sound : writeTree.Sound
  leaf : ∀ p q, (writeTree.valueAtPath p).isSome → (writeTree.valueAtPath q).isSome → p <+: q → p = q

namespace FCompoundWrite

/-- `emptyWrite` (:62). -/
def emptyWrite : FCompoundWrite where
  writeTree := .empty
  sound := FImmutableTree.sound_empty
  leaf p q hp := by simp at hp

/-- `completeNodeAtPath:` (:145). -/
def completeNodeAtPath (w : FCompoundWrite) (path : List String) : Option Node :=
  (w.writeTree.findRootMostValueAndPath path).map fun rootMost => rootMost.2.sub (path.drop rootMost.1.length)

def hasCompleteWriteAtPath (w : FCompoundWrite) (path : List String) : Bool := (w.completeNodeAtPath path).isSome

def isEmpty (w : FCompoundWrite) : Bool := w.writeTree.isEmpty

def rootWrite (w : FCompoundWrite) : Option Node := w.writeTree.value

/-- `enumerateWrites:` (:244). -/
def enumerateWrites (w : FCompoundWrite) : List (List String × Node) := w.writeTree.forEach

/-- What the writes say about the leaf at `q`. -/
def view (w : FCompoundWrite) (q : List String) : Option (Option Scalar) :=
  (w.completeNodeAtPath q).map fun n => n.leaf []

variable {w w' : FCompoundWrite} {n v : Node} {p q r : List String} {ws : List (List String × Node)}

theorem unique (hp : w.writeTree.valueAtPath p = some v) (hr : w.writeTree.valueAtPath r = some n) (hpq : p <+: q)
    (hrq : r <+: q) : p = r := by
  have hps : (w.writeTree.valueAtPath p).isSome := by rw [hp]; rfl
  have hrs : (w.writeTree.valueAtPath r).isSome := by rw [hr]; rfl
  rcases List.prefix_or_prefix_of_prefix hpq hrq with h | h
  · exact w.leaf p r hps hrs h
  · exact (w.leaf r p hrs hps h).symm

/-- The write that covers the path, cut to it. -/
theorem completeNodeAtPath_of (hr : w.writeTree.valueAtPath r = some v) (hrq : r <+: q) :
    w.completeNodeAtPath q = some (v.sub (q.drop r.length)) := by
  rw [completeNodeAtPath]
  cases hf : w.writeTree.findRootMostValueAndPath q with
  | none => rw [FImmutableTree.of_findRootMostValueAndPath_none hf r hrq] at hr; cases hr
  | some rootMost =>
    obtain ⟨hpre, hval⟩ := FImmutableTree.of_findRootMostValueAndPath_some hf
    obtain rfl := unique hval hr hpre hrq
    rw [hr] at hval
    obtain rfl := Option.some.inj hval
    rfl

theorem completeNodeAtPath_eq_none : w.completeNodeAtPath q = none ↔ ∀ r, r <+: q → w.writeTree.valueAtPath r = none := by
  constructor
  · intro h
    exact FImmutableTree.of_findRootMostValueAndPath_none (Option.map_eq_none_iff.1 h)
  · intro h
    rw [completeNodeAtPath, Option.map_eq_none_iff]
    cases hf : w.writeTree.findRootMostValueAndPath q with
    | none => rfl
    | some rootMost =>
      obtain ⟨hpre, hval⟩ := FImmutableTree.of_findRootMostValueAndPath_some hf
      rw [h _ hpre] at hval
      cases hval

theorem view_of (hr : w.writeTree.valueAtPath r = some v) (hrq : r <+: q) :
    w.view q = some (v.leaf (q.drop r.length)) := by
  rw [view, completeNodeAtPath_of hr hrq]
  simp

theorem view_eq_none : w.view q = none ↔ ∀ r, r <+: q → w.writeTree.valueAtPath r = none := by
  rw [view, Option.map_eq_none_iff, completeNodeAtPath_eq_none]

/-- A place is covered by one write, or by none. -/
theorem covered_or (w : FCompoundWrite) (q : List String) :
    (∃ r v, r <+: q ∧ w.writeTree.valueAtPath r = some v) ∨ ∀ r, r <+: q → w.writeTree.valueAtPath r = none := by
  by_cases h : ∀ r, r <+: q → w.writeTree.valueAtPath r = none
  · exact Or.inr h
  · obtain ⟨r, hr⟩ := not_forall.1 h
    obtain ⟨hrq, hne⟩ := Classical.not_imp.1 hr
    obtain ⟨v, hv⟩ := Option.ne_none_iff_exists'.1 hne
    exact Or.inl ⟨r, v, hrq, hv⟩

/-- What is said about a place is said about every place below. -/
theorem view_append_ne_none (h : w.view p ≠ none) (q : List String) : w.view (p ++ q) ≠ none := by
  rw [ne_eq, view_eq_none] at h ⊢
  exact fun hall => h fun r hr => hall r (hr.trans (List.prefix_append p q))

/-- Where a complete node is, the compound write says what is in it. -/
theorem view_append_of_completeNodeAtPath (h : w.completeNodeAtPath p = some n) (q : List String) :
    w.view (p ++ q) = some (n.leaf q) := by
  rcases w.covered_or p with ⟨r, v, hrp, hr⟩ | hnone
  · rw [completeNodeAtPath_of hr hrp] at h
    obtain rfl := Option.some.inj h
    obtain ⟨s, rfl⟩ := hrp
    rw [view_of hr ((List.prefix_append r s).trans (List.prefix_append _ q)), List.append_assoc, List.drop_left,
      List.drop_left, Tree.leaf_sub]
  · rw [completeNodeAtPath_eq_none.2 hnone] at h
    cases h

theorem completeNodeAtPath_isSome_iff : (w.completeNodeAtPath p).isSome ↔ w.view p ≠ none := by
  rw [view, ne_eq, Option.map_eq_none_iff, ← ne_eq, Option.isSome_iff_ne_none]

/-! ## Compound writes that say the same -/

/-- The writes are stored where the compound write starts to speak. -/
theorem valueAtPath_isSome_iff :
    (w.writeTree.valueAtPath p).isSome ↔ w.view p ≠ none ∧ ∀ r, r <+: p → r ≠ p → w.view r = none := by
  constructor
  · intro hp
    obtain ⟨v, hv⟩ := Option.isSome_iff_exists.1 hp
    refine ⟨by rw [view_of hv (List.prefix_refl p)]; simp, fun r hr hne => view_eq_none.2 fun s hs => ?_⟩
    by_contra hs'
    obtain ⟨x, hx⟩ := Option.ne_none_iff_exists'.1 hs'
    obtain rfl := unique hx hv (hs.trans hr) (List.prefix_refl p)
    exact hne (hr.eq_of_length_le hs.length_le)
  · rintro ⟨hp, hr⟩
    rcases w.covered_or p with ⟨r, v, hrp, hv⟩ | hnone
    · have hne : r = p := by
        by_contra hne
        have := hr r hrp hne
        rw [view_of hv (List.prefix_refl r)] at this
        cases this
      rw [← hne, hv]
      rfl
    · exact absurd (view_eq_none.2 hnone) hp

theorem ext_view (h : ∀ q, w.view q = w'.view q) : w = w' := by
  have hsome : ∀ p, (w.writeTree.valueAtPath p).isSome ↔ (w'.writeTree.valueAtPath p).isSome := by
    intro p
    simp only [valueAtPath_isSome_iff, h]
  have htree : w.writeTree = w'.writeTree := by
    refine w.sound.ext w'.sound fun p => ?_
    cases hp : w.writeTree.valueAtPath p with
    | none =>
      have := (hsome p).not.1 (by rw [hp]; simp)
      exact (Option.not_isSome_iff_eq_none.1 this).symm
    | some v =>
      obtain ⟨v', hv'⟩ := Option.isSome_iff_exists.1 ((hsome p).1 (by rw [hp]; rfl))
      rw [hv']
      refine congrArg some (Tree.ext_leaf fun q => ?_)
      have hq := h (p ++ q)
      rw [view_of hp (List.prefix_append p q), view_of hv' (List.prefix_append p q), List.drop_left] at hq
      exact Option.some.inj hq
  cases w
  cases w'
  obtain rfl := htree
  rfl

theorem isEmpty_iff : w.isEmpty = true ↔ ∀ q, w.view q = none := by
  constructor
  · intro h q
    refine view_eq_none.2 fun r _ => ?_
    rw [FImmutableTree.isEmpty_eq_true h, FImmutableTree.valueAtPath_empty]
  · intro h
    by_contra hne
    obtain ⟨p, hp⟩ := w.sound.exists_value (Bool.not_eq_true _ ▸ hne)
    exact (valueAtPath_isSome_iff.1 hp).1 (h p)

@[simp] theorem view_emptyWrite (q : List String) : emptyWrite.view q = none :=
  view_eq_none.2 fun _ _ => FImmutableTree.valueAtPath_empty _

/-! ## One more write -/

/-- The tree of `addWrite:atPath:` (:72). -/
def addWriteToTree (writeTree : FImmutableTree String Node) (node : Node) (path : List String) :
    FImmutableTree String Node :=
  if path = [] then .withValue node
  else
    match writeTree.findRootMostValueAndPath path with
    | some (rootMostPath, rootMostValue) =>
      let value := rootMostValue.set (path.drop rootMostPath.length) node
      writeTree.setValue value rootMostPath
    | none => FImmutableTree.setTree (.withValue node) writeTree path

/-- A write goes into the write that covers its path, or it takes the place of the writes below. -/
theorem valueAtPath_addWriteToTree (w : FCompoundWrite) (n : Node) (p : List String) :
    (∃ r v, r <+: p ∧ w.writeTree.valueAtPath r = some v ∧ ∀ q, (addWriteToTree w.writeTree n p).valueAtPath q =
        if q = r then some (v.set (p.drop r.length) n) else w.writeTree.valueAtPath q) ∨
      (∀ r, r <+: p → w.writeTree.valueAtPath r = none) ∧ ∀ q, (addWriteToTree w.writeTree n p).valueAtPath q =
        if p <+: q then if q = p then some n else none else w.writeTree.valueAtPath q := by
  by_cases hp : p = []
  · subst hp
    have hadd : ∀ q, (addWriteToTree w.writeTree n []).valueAtPath q = if q = [] then some n else none := by
      intro q
      rw [addWriteToTree, if_pos rfl, FImmutableTree.valueAtPath_withValue]
    cases hroot : w.writeTree.valueAtPath [] with
    | none =>
      refine Or.inr ⟨fun r hr => ?_, fun q => ?_⟩
      · obtain rfl := List.prefix_nil.1 hr
        exact hroot
      · rw [hadd, if_pos List.nil_prefix]
    | some v =>
      refine Or.inl ⟨[], v, List.prefix_refl _, hroot, fun q => ?_⟩
      rw [hadd]
      split
      · refine congrArg some (Tree.ext_leaf fun x => ?_)
        rw [Tree.leaf_set]
        simp
      · rename_i hq
        cases hv : w.writeTree.valueAtPath q with
        | none => rfl
        | some x => exact absurd (unique hroot hv List.nil_prefix (List.prefix_refl q)).symm hq
  · rw [addWriteToTree, if_neg hp]
    cases hf : w.writeTree.findRootMostValueAndPath p with
    | none =>
      refine Or.inr ⟨FImmutableTree.of_findRootMostValueAndPath_none hf, fun q => ?_⟩
      rw [FImmutableTree.valueAtPath_setTree _ w.sound]
      split
      · rename_i hq
        obtain ⟨s, rfl⟩ := hq
        rw [List.drop_left, FImmutableTree.valueAtPath_withValue]
        simp
      · rfl
    | some rootMost =>
      obtain ⟨hpre, hval⟩ := FImmutableTree.of_findRootMostValueAndPath_some hf
      exact Or.inl ⟨rootMost.1, rootMost.2, hpre, hval, fun q => FImmutableTree.valueAtPath_setValue _ _ _ _⟩

/-- `addWrite:atPath:` (:72). -/
def addWrite (w : FCompoundWrite) (node : Node) (path : List String) : FCompoundWrite where
  writeTree := addWriteToTree w.writeTree node path
  sound := by
    unfold addWriteToTree
    split
    · exact FImmutableTree.sound_withValue node
    · split
      · exact w.sound.setValue _ _
      · exact (FImmutableTree.sound_withValue node).setTree w.sound _
  leaf p q hp hq hpq := by
    rcases valueAtPath_addWriteToTree w node path with ⟨r, v, hr, hv, hadd⟩ | ⟨hnone, hadd⟩
    · -- the same places as before
      have hold : ∀ x, ((addWriteToTree w.writeTree node path).valueAtPath x).isSome →
          (w.writeTree.valueAtPath x).isSome := by
        intro x hx
        rw [hadd] at hx
        split at hx
        · rename_i hxr
          rw [hxr, hv]
          rfl
        · exact hx
      exact w.leaf p q (hold p hp) (hold q hq) hpq
    · rw [hadd] at hp hq
      by_cases hpp : path <+: p
      · have hqq : path <+: q := hpp.trans hpq
        rw [if_pos hpp] at hp
        rw [if_pos hqq] at hq
        by_cases hp' : p = path
        · by_cases hq' : q = path
          · rw [hp', hq']
          · simp [hq'] at hq
        · simp [hp'] at hp
      · rw [if_neg hpp] at hp
        by_cases hqq : path <+: q
        · rw [if_pos hqq] at hq
          by_cases hq' : q = path
          · rw [hq'] at hpq
            rw [hnone p hpq] at hp
            cases hp
          · simp [hq'] at hq
        · rw [if_neg hqq] at hq
          exact w.leaf p q hp hq hpq

theorem view_addWrite (w : FCompoundWrite) (n : Node) (p q : List String) :
    (w.addWrite n p).view q =
      if p <+: q then some (n.leaf (q.drop p.length))
      else (w.view q).map fun x => if q <+: p ∧ ¬ n.isEmpty then none else x := by
  rcases valueAtPath_addWriteToTree w n p with ⟨r, v, ⟨s, rfl⟩, hv, hadd⟩ | ⟨hnone, hadd⟩
  · have hr : (w.addWrite n (r ++ s)).writeTree.valueAtPath r = some (v.set s n) := by
      rw [addWrite, hadd, if_pos rfl, List.drop_left]
    by_cases hrq : r <+: q
    · -- the write that covers the path covers the place
      obtain ⟨x, rfl⟩ := hrq
      rw [view_of hr (List.prefix_append r x), List.drop_left, Tree.leaf_set, view_of hv (List.prefix_append r x),
        List.drop_left, Option.map_some]
      simp only [List.prefix_append_right_inj, List.length_append, ← List.drop_drop, List.drop_left]
      split <;> rfl
    · have hpq : ¬ r ++ s <+: q := fun h => hrq ((List.prefix_append r s).trans h)
      rw [if_neg hpq]
      rcases w.covered_or q with ⟨t, u, htq, hu⟩ | hno
      · have htr : t ≠ r := fun h => hrq (h ▸ htq)
        have ht : (w.addWrite n (r ++ s)).writeTree.valueAtPath t = some u := by
          rw [addWrite, hadd, if_neg htr, hu]
        have hqp : ¬ q <+: r ++ s := fun h => htr (unique hu hv (htq.trans h) (List.prefix_append r s))
        rw [view_of ht htq, view_of hu htq, Option.map_some, if_neg fun h => hqp h.1]
      · rw [view_eq_none.2 hno, Option.map_none, view_eq_none]
        intro t ht
        have htr : t ≠ r := fun h => hrq (h ▸ ht)
        rw [addWrite, hadd, if_neg htr, hno t ht]
  · have hp : (w.addWrite n p).writeTree.valueAtPath p = some n := by
      rw [addWrite, hadd, if_pos (List.prefix_refl p), if_pos rfl]
    by_cases hpq : p <+: q
    · rw [if_pos hpq, view_of hp hpq]
    · rw [if_neg hpq]
      have hsame : ∀ t, t <+: q → (w.addWrite n p).writeTree.valueAtPath t = w.writeTree.valueAtPath t := by
        intro t ht
        rw [addWrite, hadd, if_neg fun h => hpq (h.trans ht)]
      rcases w.covered_or q with ⟨t, u, htq, hu⟩ | hno
      · have hqp : ¬ q <+: p := fun h => by
          rw [hnone t (htq.trans h)] at hu
          cases hu
        rw [view_of ((hsame t htq).trans hu) htq, view_of hu htq, Option.map_some, if_neg fun h => hqp h.1]
      · rw [view_eq_none.2 hno, Option.map_none, view_eq_none]
        exact fun t ht => (hsame t ht).trans (hno t ht)

/-! ## Sequences of writes -/

/-- The compound write says what the sequence shows. -/
def Shows (w : FCompoundWrite) (ws : List (List String × Node)) : Prop := ∀ q, w.view q = shown ws q

theorem shows_emptyWrite : emptyWrite.Shows [] := fun q => by rw [view_emptyWrite, shown_nil]

theorem Shows.eq (h : w.Shows ws) (h' : w'.Shows ws) : w = w' := ext_view fun q => (h q).trans (h' q).symm

theorem Shows.addWrite (h : w.Shows ws) (n : Node) (p : List String) : (w.addWrite n p).Shows (ws ++ [(p, n)]) :=
  fun q => by rw [view_addWrite, shown_snoc, h q]

/-- Several writes, one after the other. -/
def addWrites (w : FCompoundWrite) (ws : List (List String × Node)) : FCompoundWrite :=
  ws.foldl (fun newWrite write => newWrite.addWrite write.2 write.1) w

theorem Shows.addWrites (h : w.Shows ws) (ws' : List (List String × Node)) : (w.addWrites ws').Shows (ws ++ ws') := by
  induction ws' generalizing w ws with
  | nil => rwa [List.append_nil]
  | cons x ws' ih =>
    have := ih (h.addWrite x.2 x.1)
    rwa [List.append_assoc, List.singleton_append] at this

/-- `addCompoundWrite:atPath:` (:101). -/
def addCompoundWrite (w compoundWrite : FCompoundWrite) (path : List String) : FCompoundWrite :=
  w.addWrites (compoundWrite.enumerateWrites.map fun write => (path ++ write.1, write.2))

theorem Shows.addCompoundWrite (h : w.Shows ws) (c : FCompoundWrite) (p : List String) :
    (w.addCompoundWrite c p).Shows (ws ++ c.enumerateWrites.map fun write => (p ++ write.1, write.2)) :=
  h.addWrites _

theorem mem_enumerateWrites : (p, n) ∈ w.enumerateWrites ↔ w.writeTree.valueAtPath p = some n := w.sound.mem_forEach

/-- The writes of a compound write lie apart. -/
theorem eq_or_apart_of_mem_enumerateWrites {x y : List String × Node} (hx : x ∈ w.enumerateWrites)
    (hy : y ∈ w.enumerateWrites) : x = y ∨ Apart x.1 y.1 := by
  have hxv := mem_enumerateWrites.1 hx
  have hyv := mem_enumerateWrites.1 hy
  by_cases hne : x.1 = y.1
  · rw [hne, hyv] at hxv
    exact Or.inl (Prod.ext hne (Option.some.inj hxv).symm)
  · exact Or.inr ⟨fun h => hne (unique hxv hyv h (List.prefix_refl _)),
      fun h => hne (unique hyv hxv h (List.prefix_refl _)).symm⟩

/-- A compound write says what its own writes show. -/
theorem shows_enumerateWrites (w : FCompoundWrite) : w.Shows w.enumerateWrites := by
  intro q
  rcases w.covered_or q with ⟨r, v, hrq, hv⟩ | hno
  · rw [view_of hv hrq]
    exact (shown_of_mem (fun _ hx _ hy => eq_or_apart_of_mem_enumerateWrites hx hy) (mem_enumerateWrites.2 hv)
      hrq).symm
  · rw [view_eq_none.2 hno, shown_of_not_covered]
    rintro ⟨x, hx, hxq⟩
    have hxv : w.writeTree.valueAtPath x.1 = some x.2 := mem_enumerateWrites.1 hx
    rw [hno x.1 hxq] at hxv
    cases hxv

/-- Writes that lie apart are stored as they are. -/
theorem Shows.valueAtPath (h : w.Shows ws) (hap : ∀ x ∈ ws, ∀ y ∈ ws, x = y ∨ Apart x.1 y.1) :
    w.writeTree.valueAtPath p = some n ↔ (p, n) ∈ ws := by
  have hmem : ∀ {p : List String} {n : Node}, w.writeTree.valueAtPath p = some n → (p, n) ∈ ws := by
    intro p n hn
    have hcov : Covered ws p := shown_ne_none.1 (by rw [← h p, view_of hn (List.prefix_refl p)]; simp)
    obtain ⟨x, hx, hxp⟩ := hcov
    have hxv : w.view x.1 ≠ none := by
      rw [h x.1]
      exact shown_ne_none.2 ⟨x, hx, List.prefix_refl _⟩
    have heq : x.1 = p := by
      by_contra hne
      have habove := (valueAtPath_isSome_iff.1 (by rw [hn]; rfl)).2 x.1 hxp hne
      exact hxv habove
    have hval : x.2 = n := Tree.ext_leaf fun q => by
      have hview := h (p ++ q)
      rw [view_of hn (List.prefix_append p q), shown_of_mem hap hx (heq ▸ List.prefix_append p q), heq,
        List.drop_left] at hview
      exact (Option.some.inj hview).symm
    rw [← heq, ← hval]
    exact hx
  constructor
  · exact hmem
  · intro hx
    have hview : w.view p ≠ none := by
      rw [h p]
      exact shown_ne_none.2 ⟨_, hx, List.prefix_refl _⟩
    rcases w.covered_or p with ⟨r, v, hr, hv⟩ | hno
    · rcases hap _ (hmem hv) _ hx with heq | hapart
      · obtain ⟨rfl, rfl⟩ := Prod.mk.inj heq
        exact hv
      · exact absurd hr hapart.1
    · exact absurd (view_eq_none.2 hno) hview

theorem shows_layer (ws : List (List String × Node)) : (emptyWrite.addWrites ws).Shows ws := shows_emptyWrite.addWrites ws

/-! ## Taking writes out -/

/-- `removeWriteAtPath:` (:118). -/
def removeWriteAtPath (w : FCompoundWrite) (path : List String) : FCompoundWrite where
  writeTree := if path = [] then .empty else FImmutableTree.setTree .empty w.writeTree path
  sound := by
    split
    · exact FImmutableTree.sound_empty
    · exact FImmutableTree.sound_empty.setTree w.sound path
  leaf p q hp hq hpq := by
    split at hp
    · simp at hp
    · rename_i hne
      rw [if_neg hne] at hq
      rw [FImmutableTree.valueAtPath_setTree _ w.sound] at hp hq
      split at hp
      · simp at hp
      · split at hq
        · simp at hq
        · exact w.leaf p q hp hq hpq

theorem valueAtPath_removeWriteAtPath (w : FCompoundWrite) (p q : List String) :
    (w.removeWriteAtPath p).writeTree.valueAtPath q = if p <+: q then none else w.writeTree.valueAtPath q := by
  rw [removeWriteAtPath]
  split
  · rename_i hp
    subst hp
    simp
  · rw [FImmutableTree.valueAtPath_setTree _ w.sound, FImmutableTree.valueAtPath_empty]

/-- Nothing is said above the path. -/
def NothingAbove (w : FCompoundWrite) (p : List String) : Prop := ∀ r, r <+: p → r ≠ p → w.view r = none

/-- "This will not modify a write at a higher location" (:109): there nothing is removed, otherwise everything said at
the path and below. -/
theorem view_removeWriteAtPath (w : FCompoundWrite) (p q : List String) [Decidable (p <+: q ∧ w.NothingAbove p)] :
    (w.removeWriteAtPath p).view q = if p <+: q ∧ w.NothingAbove p then none else w.view q := by
  by_cases hpq : p <+: q
  · by_cases hab : w.NothingAbove p
    · rw [if_pos ⟨hpq, hab⟩, view_eq_none]
      intro r hr
      rw [valueAtPath_removeWriteAtPath]
      split
      · rfl
      · rename_i hpr
        have hrp : r <+: p := (List.prefix_or_prefix_of_prefix hr hpq).resolve_right hpr
        exact view_eq_none.1 (hab r hrp fun heq => hpr (heq ▸ List.prefix_refl _)) r (List.prefix_refl r)
    · -- a write above the path covers the place, before and after
      rw [if_neg fun h => hab h.2]
      simp only [NothingAbove, not_forall] at hab
      obtain ⟨r, hrp, hne, hr⟩ := hab
      rcases w.covered_or r with ⟨s, v, hsr, hs⟩ | hno
      · have hps : ¬ p <+: s := fun h => hne (hrp.eq_of_length_le (h.trans hsr).length_le)
        have hs' : (w.removeWriteAtPath p).writeTree.valueAtPath s = some v := by
          rw [valueAtPath_removeWriteAtPath, if_neg hps, hs]
        have hsq : s <+: q := hsr.trans (hrp.trans hpq)
        rw [view_of hs' hsq, view_of hs hsq]
      · exact absurd (view_eq_none.2 hno) hr
  · rw [if_neg fun h => hpq h.1]
    have hsame : ∀ r, r <+: q → (w.removeWriteAtPath p).writeTree.valueAtPath r = w.writeTree.valueAtPath r := by
      intro r hr
      rw [valueAtPath_removeWriteAtPath, if_neg fun hpr => hpq (hpr.trans hr)]
    rcases w.covered_or q with ⟨r, v, hrq, hv⟩ | hno
    · rw [view_of ((hsame r hrq).trans hv) hrq, view_of hv hrq]
    · rw [view_eq_none.2 hno, view_eq_none]
      exact fun r hr => (hsame r hr).trans (hno r hr)

/-- Several writes are taken out, none of them below another one. -/
theorem view_removeWrites {ps : List (List String)} (hps : ∀ p ∈ ps, ∀ p' ∈ ps, p <+: p' → p = p') (q : List String) :
    (∃ p ∈ ps, p <+: q ∧ w.NothingAbove p) ∧ (ps.foldl removeWriteAtPath w).view q = none ∨
      (¬ ∃ p ∈ ps, p <+: q ∧ w.NothingAbove p) ∧ (ps.foldl removeWriteAtPath w).view q = w.view q := by
  classical
  induction ps generalizing w with
  | nil => exact Or.inr ⟨by simp, rfl⟩
  | cons p ps ih =>
    have hview := fun x => view_removeWriteAtPath w p x
    have hsame : ∀ p' ∈ ps, (w.removeWriteAtPath p).NothingAbove p' ↔ w.NothingAbove p' := by
      intro p' hp'
      refine forall_congr' fun r => forall_congr' fun hr => forall_congr' fun hne => ?_
      rw [hview, if_neg]
      rintro ⟨hpr, -⟩
      obtain rfl := hps p List.mem_cons_self p' (List.mem_cons_of_mem _ hp') (hpr.trans hr)
      exact hne (hr.eq_of_length_le hpr.length_le)
    have hex : (∃ p' ∈ ps, p' <+: q ∧ (w.removeWriteAtPath p).NothingAbove p') ↔
        ∃ p' ∈ ps, p' <+: q ∧ w.NothingAbove p' := by
      refine exists_congr fun p' => and_congr_right fun hp' => and_congr_right fun _ => hsame p' hp'
    rw [List.foldl_cons]
    rcases ih (w := w.removeWriteAtPath p) fun x hx y hy => hps x (List.mem_cons_of_mem _ hx) y
      (List.mem_cons_of_mem _ hy) with ⟨h, hnone⟩ | ⟨h, heq⟩
    · obtain ⟨p', hp', hq⟩ := hex.1 h
      exact Or.inl ⟨⟨p', List.mem_cons_of_mem _ hp', hq⟩, hnone⟩
    · rw [heq, hview]
      by_cases hp : p <+: q ∧ w.NothingAbove p
      · exact Or.inl ⟨⟨p, List.mem_cons_self, hp⟩, if_pos hp⟩
      · refine Or.inr ⟨?_, if_neg hp⟩
        rintro ⟨p', hp', hq⟩
        rcases List.mem_cons.1 hp' with rfl | hp'
        · exact hp hq
        · exact h (hex.2 ⟨p', hp', hq⟩)

/-! ## At a path -/

/-- `childCompoundWriteAtPath:` (:190). -/
def childCompoundWriteAtPath (w : FCompoundWrite) (path : List String) : FCompoundWrite :=
  match h : w.completeNodeAtPath path with
  | some shadowingNode =>
    { writeTree := .withValue shadowingNode
      sound := FImmutableTree.sound_withValue shadowingNode
      leaf := by
        intro p q hp hq _
        rw [FImmutableTree.valueAtPath_withValue] at hp hq
        split at hp <;> split at hq <;> simp_all }
  | none =>
    { writeTree := w.writeTree.subtreeAtPath path
      sound := w.sound.subtreeAtPath path
      leaf := by
        intro p q hp hq hpq
        rw [FImmutableTree.valueAtPath_subtreeAtPath] at hp hq
        exact List.append_cancel_left (w.leaf _ _ hp hq ((List.prefix_append_right_inj path).2 hpq)) }

theorem view_childCompoundWriteAtPath (w : FCompoundWrite) (p q : List String) :
    (w.childCompoundWriteAtPath p).view q = w.view (p ++ q) := by
  rw [childCompoundWriteAtPath]
  split
  · rename_i n h
    have hroot : (FImmutableTree.withValue n : FImmutableTree String Node).valueAtPath [] = some n := rfl
    rw [view_append_of_completeNodeAtPath h, view_of hroot List.nil_prefix]
    simp
  · rename_i h
    rw [completeNodeAtPath_eq_none] at h
    rcases w.covered_or (p ++ q) with ⟨r, v, hrq, hv⟩ | hno
    · have hpr : p <+: r := by
        rcases List.prefix_or_prefix_of_prefix (List.prefix_append p q) hrq with h' | h'
        · exact h'
        · rw [h r h'] at hv
          cases hv
      obtain ⟨s, rfl⟩ := hpr
      have hs : (w.writeTree.subtreeAtPath p).valueAtPath s = some v := by
        rw [FImmutableTree.valueAtPath_subtreeAtPath, hv]
      rw [view_of hv hrq, view_of hs ((List.prefix_append_right_inj p).1 hrq), List.length_append, ← List.drop_drop,
        List.drop_left]
    · rw [view_eq_none.2 hno, view_eq_none]
      intro r hr
      rw [FImmutableTree.valueAtPath_subtreeAtPath]
      exact hno _ ((List.prefix_append_right_inj p).2 hr)

/-- `completeChildren` (:156). -/
def completeChildren (w : FCompoundWrite) : List (String × Node) :=
  match w.writeTree.value with
  | some node => node.enumerateChildren
  | none => w.writeTree.children.filterMap fun child => child.2.value.map fun value => (child.1, value)

/-- `childCompoundWrites` (:180). -/
def childCompoundWrites (w : FCompoundWrite) : List (String × FCompoundWrite) :=
  w.writeTree.children.attach.map fun child => (child.1.1,
    { writeTree := child.1.2
      sound := w.sound.children child.1 child.2
      leaf := by
        intro p q hp hq hpq
        have hchild : ∀ z, (child.1.2.valueAtPath z).isSome → (w.writeTree.valueAtPath (child.1.1 :: z)).isSome := by
          intro z hz
          have hget : w.writeTree.get child.1.1 = some child.1.2 := SortedDict.get_of_mem w.sound.sorted child.2
          rw [FImmutableTree.valueAtPath_cons, hget]
          exact hz
        exact (List.cons.inj (w.leaf _ _ (hchild p hp) (hchild q hq) (List.cons_prefix_cons.2 ⟨rfl, hpq⟩))).2 })

/-! ## Applying to a node -/

mutual

/-- `applySubtreeWrite:atPath:toNode:` (:206). -/
def applySubtreeWrite : FImmutableTree String Node → List String → Node → Node
  | .node value children, relativePath, node =>
    match value with
    | some value => node.set relativePath value
    | none => applyChildWrites children relativePath node

def applyChildWrites : List (String × FImmutableTree String Node) → List String → Node → Node
  | [], _, blockNode => blockNode
  | (childKey, childTree) :: children, relativePath, blockNode =>
    applyChildWrites children relativePath (applySubtreeWrite childTree (relativePath ++ [childKey]) blockNode)

end

/-- `applyToNode:` (:260). -/
def applyToNode (w : FCompoundWrite) (node : Node) : Node := applySubtreeWrite w.writeTree [] node

theorem applyChildWrites_eq {cs : List (String × FImmutableTree String Node)} {p : List String}
    (h : ∀ c ∈ cs, ∀ n, applySubtreeWrite c.2 (p ++ [c.1]) n = n.update (c.2.forEachPathSoFar (p ++ [c.1])))
    (n : Node) : applyChildWrites cs p n = n.update (FImmutableTree.forEachChildSoFar cs p) := by
  induction cs generalizing n with
  | nil => rfl
  | cons c cs ih =>
    rw [applyChildWrites, FImmutableTree.forEachChildSoFar, h c List.mem_cons_self,
      ih fun x hx => h x (List.mem_cons_of_mem _ hx), Tree.update_append]

/-- The writes are applied in the order of `forEach:`. -/
theorem applySubtreeWrite_eq {t : FImmutableTree String Node} (ht : t.Sound)
    (hleaf : ∀ p q, (t.valueAtPath p).isSome → (t.valueAtPath q).isSome → p <+: q → p = q) (p : List String)
    (n : Node) : applySubtreeWrite t p n = n.update (t.forEachPathSoFar p) := by
  induction ht generalizing p n with
  | @node value children sorted nonempty sound ih =>
    rw [FImmutableTree.forEachPathSoFar]
    have hget : ∀ c ∈ children, (FImmutableTree.node value children).get c.1 = some c.2 :=
      fun c hc => SortedDict.get_of_mem sorted hc
    cases value with
    | some v =>
      -- a child would hold a write below this one
      have hno : children = [] := by
        by_contra hne
        obtain ⟨c, hc⟩ := List.exists_mem_of_ne_nil _ hne
        obtain ⟨q, hq⟩ := (sound c hc).exists_value (nonempty c hc)
        have hcq : ((FImmutableTree.node (some v) children).valueAtPath (c.1 :: q)).isSome := by
          rw [FImmutableTree.valueAtPath_cons, hget c hc]
          exact hq
        cases hleaf [] (c.1 :: q) rfl hcq List.nil_prefix
      subst hno
      rfl
    | none =>
      rw [applySubtreeWrite, Option.toList_none, List.map_nil, List.append_nil]
      refine applyChildWrites_eq (fun c hc m => ih c hc (fun x y hx hy hxy => ?_) _ m) n
      have hchild : ∀ z, (c.2.valueAtPath z).isSome →
          ((FImmutableTree.node none children).valueAtPath (c.1 :: z)).isSome := by
        intro z hz
        rw [FImmutableTree.valueAtPath_cons, hget c hc]
        exact hz
      exact (List.cons.inj (hleaf _ _ (hchild x hx) (hchild y hy) (List.cons_prefix_cons.2 ⟨rfl, hxy⟩))).2

theorem applyToNode_eq (w : FCompoundWrite) (n : Node) : w.applyToNode n = n.update w.enumerateWrites :=
  applySubtreeWrite_eq w.sound w.leaf [] n

/-- **Overlay**: over a node without a leaf above what is written, the writes say what they say, and the node shows
through elsewhere. -/
theorem leaf_applyToNode (h : NoLeafAbove n w.view) (q : List String) :
    (w.applyToNode n).leaf q = (w.view q).getD (n.leaf q) := by
  have hview : w.view = shown w.enumerateWrites := funext w.shows_enumerateWrites
  rw [applyToNode_eq, hview]
  exact leaf_update_shown (hview ▸ h) q

theorem applyToNode_of_isEmpty (h : w.isEmpty = true) (n : Node) : w.applyToNode n = n := by
  rw [applyToNode_eq, enumerateWrites, FImmutableTree.isEmpty_eq_true h]
  rfl

theorem childCompoundWriteAtPath_nil (w : FCompoundWrite) : w.childCompoundWriteAtPath [] = w :=
  ext_view fun q => by rw [view_childCompoundWriteAtPath, List.nil_append]

theorem childCompoundWriteAtPath_append (w : FCompoundWrite) (p q : List String) :
    w.childCompoundWriteAtPath (p ++ q) = (w.childCompoundWriteAtPath p).childCompoundWriteAtPath q :=
  ext_view fun r => by simp only [view_childCompoundWriteAtPath, List.append_assoc]

theorem completeNodeAtPath_isSome_child (w : FCompoundWrite) (p q : List String) :
    (w.completeNodeAtPath (p ++ q)).isSome ↔ (w.childCompoundWriteAtPath p).view q ≠ none := by
  rw [completeNodeAtPath_isSome_iff, view_childCompoundWriteAtPath]

/-! ## A node under the writes -/

/-- `e` is what `s` becomes under the writes. -/
def Overlaid (w : FCompoundWrite) (s e : Node) : Prop := ∀ q, e.leaf q = (w.view q).getD (s.leaf q)

theorem Overlaid.eq {s e e' : Node} (h : w.Overlaid s e) (h' : w.Overlaid s e') : e = e' :=
  Tree.ext_leaf fun q => (h q).trans (h' q).symm

theorem overlaid_applyToNode {s : Node} (h : NoLeafAbove s w.view) : w.Overlaid s (w.applyToNode s) :=
  leaf_applyToNode h

/-- A write at the path or above it hides the node. -/
theorem overlaid_of_completeNodeAtPath (h : w.completeNodeAtPath p = some n) (s : Node) :
    (w.childCompoundWriteAtPath p).Overlaid s n :=
  fun q => by rw [view_childCompoundWriteAtPath, view_append_of_completeNodeAtPath h, Option.getD_some]

theorem noLeafAbove_sub {s : Node} (h : NoLeafAbove s w.view) (p : List String) :
    NoLeafAbove (s.sub p) (w.childCompoundWriteAtPath p).view := by
  rw [funext (w.view_childCompoundWriteAtPath p)]
  exact h.sub p

/-! ## Places without a leaf -/

section
variable {inner : List String → Prop} {s : Node}

/-- Every place above a write, where nothing is written, is `inner`: no node has a leaf there. -/
def Grounded (w : FCompoundWrite) (inner : List String → Prop) : Prop :=
  ∀ q y, q <+: y → w.view q = none → w.view y ≠ none → inner q

theorem grounded_emptyWrite (inner : List String → Prop) : emptyWrite.Grounded inner :=
  fun _ y _ _ hy => absurd (view_emptyWrite y) hy

theorem Grounded.noLeafAbove (h : w.Grounded inner) (hs : s.Leaves fun q _ => ¬ inner q) : NoLeafAbove s w.view := by
  intro q y hqy hq hy
  by_contra hne
  obtain ⟨v, hv⟩ := Option.ne_none_iff_exists'.1 hne
  exact hs q v hv (h q y hqy hq hy)

theorem Grounded.addWrite (h : w.Grounded inner) (hp : ∀ q, q <+: p → q ≠ p → inner q) (n : Node) :
    (w.addWrite n p).Grounded inner := by
  intro q y hqy hq hy
  rw [view_addWrite] at hq hy
  by_cases hpq : p <+: q
  · rw [if_pos hpq] at hq
    cases hq
  · rw [if_neg hpq, Option.map_eq_none_iff] at hq
    by_cases hpy : p <+: y
    · have hqp : q <+: p := (List.prefix_or_prefix_of_prefix hqy hpy).resolve_right hpq
      exact hp q hqp fun heq => hpq (heq ▸ List.prefix_refl q)
    · rw [if_neg hpy, ne_eq, Option.map_eq_none_iff] at hy
      exact h q y hqy hq hy

end

/-! ## The order of writes that lie apart -/

theorem addWrite_comm (w : FCompoundWrite) (n v : Node) (h : Apart p q) :
    (w.addWrite n p).addWrite v q = (w.addWrite v q).addWrite n p :=
  ext_view fun x => by
    simp only [view_addWrite]
    by_cases hp : p <+: x
    · have hq : ¬ q <+: x := h.elim_right hp
      have hxq : ¬ x <+: q := fun hx => h.1 (hp.trans hx)
      simp [hp, hq, hxq]
    · by_cases hq : q <+: x
      · have hxp : ¬ x <+: p := fun hx => h.2 (hq.trans hx)
        simp [hp, hq, hxp]
      · simp only [if_neg hp, if_neg hq, Option.map_map]
        congr 1
        funext y
        simp only [Function.comp_apply]
        split <;> split <;> rfl

theorem addWrites_perm {ws ws' : List (List String × Node)} (h : ws.Perm ws')
    (hap : ∀ x ∈ ws, ∀ y ∈ ws, x = y ∨ Apart x.1 y.1) (w : FCompoundWrite) : w.addWrites ws = w.addWrites ws' := by
  refine h.foldl_eq' (fun x hx y hy z => ?_) w
  rcases hap x hx y hy with rfl | hxy
  · rfl
  · exact addWrite_comm z x.2 y.2 hxy

/-! ## Children -/

theorem valueAtPath_of_mem_childCompoundWrites {x : String × FCompoundWrite} (hx : x ∈ w.childCompoundWrites)
    (q : List String) : x.2.writeTree.valueAtPath q = w.writeTree.valueAtPath (x.1 :: q) := by
  obtain ⟨⟨c, hc⟩, -, rfl⟩ := List.mem_map.1 hx
  have hget : w.writeTree.get c.1 = some c.2 := SortedDict.get_of_mem w.sound.sorted hc
  rw [FImmutableTree.valueAtPath_cons, hget]
  rfl

theorem exists_mem_childCompoundWrites {k : String} (h : (w.writeTree.valueAtPath (k :: q)).isSome) :
    ∃ x ∈ w.childCompoundWrites, x.1 = k := by
  rw [FImmutableTree.valueAtPath_cons] at h
  cases hget : w.writeTree.get k with
  | none =>
    rw [hget] at h
    cases h
  | some t =>
    have hmem : (k, t) ∈ w.writeTree.children := SortedDict.mem_of_get hget
    exact ⟨_, List.mem_map.2 ⟨⟨(k, t), hmem⟩, List.mem_attach _ _, rfl⟩, rfl⟩

/-- Compound writes whose writes store what is there already. -/
theorem Shows.agrees {t : Node} (h : w.Shows ws) (ha : Agrees t ws) (hn : w.writeTree.valueAtPath p = some n) :
    n = t.sub p := by
  refine Tree.ext_leaf fun q => ?_
  have hview : w.view (p ++ q) = some (n.leaf q) := by
    rw [view_of hn (List.prefix_append p q), List.drop_left]
  have hcov : Covered ws (p ++ q) := shown_ne_none.1 (by rw [← h, hview]; simp)
  rw [h, ha.shown hcov] at hview
  exact (Option.some.inj hview).symm

end FCompoundWrite

end Anissagram
