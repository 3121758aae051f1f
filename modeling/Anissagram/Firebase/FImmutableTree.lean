import Anissagram.Lib.SortedDict
import Mathlib.Data.List.Infix
import Mathlib.Tactic.Tauto
/-
# `FImmutableTree` (`Core/Utilities/FImmutableTree.m`)

A tree with optional values at its nodes and keys on its edges. The SDK keeps pending writes and observers in such
trees. The children of a node are an `FImmutableSortedDictionary`, here a list sorted by `compare`; paths (`FPath`) are
lists of keys.

Every operation is described by what `valueAtPath` says afterwards, and a tree in order (`Sound`: sorted children, none
of them empty) is determined by that (`Sound.ext`).
-/

namespace Anissagram

inductive FImmutableTree (K V : Type) where
  | node (value : Option V) (children : List (K × FImmutableTree K V))

namespace FImmutableTree

variable {K V : Type}

def value : FImmutableTree K V → Option V
  | node value _ => value

def children : FImmutableTree K V → List (K × FImmutableTree K V)
  | node _ children => children

def empty : FImmutableTree K V := node none []

/-- `initWithValue:` (:34). -/
def withValue (v : V) : FImmutableTree K V := node (some v) []

def isEmpty (t : FImmutableTree K V) : Bool := t.value.isNone && t.children.isEmpty

theorem isEmpty_eq_true {t : FImmutableTree K V} (h : t.isEmpty = true) : t = empty := by
  cases t with
  | node value children =>
    simp only [isEmpty, FImmutableTree.value, FImmutableTree.children, Bool.and_eq_true, Option.isNone_iff_eq_none,
      List.isEmpty_iff] at h
    obtain ⟨rfl, rfl⟩ := h
    rfl

/-! `forEach:` (:425), the calls of its block in order. -/

mutual

def forEachPathSoFar : FImmutableTree K V → List K → List (List K × V)
  | node value children, pathSoFar =>
    forEachChildSoFar children pathSoFar ++ value.toList.map fun v => (pathSoFar, v)

def forEachChildSoFar : List (K × FImmutableTree K V) → List K → List (List K × V)
  | [], _ => []
  | (childKey, childTree) :: children, pathSoFar =>
    childTree.forEachPathSoFar (pathSoFar ++ [childKey]) ++ forEachChildSoFar children pathSoFar

end

def forEach (t : FImmutableTree K V) : List (List K × V) := t.forEachPathSoFar []

theorem forEachChildSoFar_eq (cs : List (K × FImmutableTree K V)) (p : List K) :
    forEachChildSoFar cs p = cs.flatMap fun c => c.2.forEachPathSoFar (p ++ [c.1]) := by
  induction cs with
  | nil => rfl
  | cons c cs ih => rw [forEachChildSoFar, ih, List.flatMap_cons]

/-! `foldWithBlock:` (:304). -/

section
variable {A : Type} (block : List K → Option V → List (K × A) → A)

mutual

def foldWithPathSoFar : FImmutableTree K V → List K → A
  | node value children, pathSoFar => block pathSoFar value (foldChildren children pathSoFar)

def foldChildren : List (K × FImmutableTree K V) → List K → List (K × A)
  | [], _ => []
  | (childKey, childTree) :: children, pathSoFar =>
    (childKey, foldWithPathSoFar childTree (pathSoFar ++ [childKey])) :: foldChildren children pathSoFar

end

def foldWithBlock (t : FImmutableTree K V) : A := foldWithPathSoFar block t []

theorem foldChildren_eq (cs : List (K × FImmutableTree K V)) (p : List K) :
    foldChildren block cs p = cs.map fun c => (c.1, foldWithPathSoFar block c.2 (p ++ [c.1])) := by
  induction cs with
  | nil => rfl
  | cons c cs ih => rw [foldChildren, ih, List.map_cons]

end

section
variable [Ord K]

/-- `[self.children get:key]`. -/
def get (t : FImmutableTree K V) (key : K) : Option (FImmutableTree K V) := SortedDict.get compare t.children key

/-- `findRootMostValueAndPath:` (:118). -/
def findRootMostValueAndPath : FImmutableTree K V → List K → Option (List K × V)
  | t, [] => t.value.map fun v => ([], v)
  | t, front :: rest =>
    match t.value with
    | some v => some ([], v)
    | none =>
      match t.get front with
      | some child => (child.findRootMostValueAndPath rest).map fun pv => (front :: pv.1, pv.2)
      | none => none

/-- `subtreeAtPath:` (:184). -/
def subtreeAtPath : FImmutableTree K V → List K → FImmutableTree K V
  | t, [] => t
  | t, front :: rest =>
    match t.get front with
    | some childTree => childTree.subtreeAtPath rest
    | none => empty

/-- `valueAtPath:` (:259). -/
def valueAtPath : FImmutableTree K V → List K → Option V
  | t, [] => t.value
  | t, front :: rest =>
    match t.get front with
    | some child => child.valueAtPath rest
    | none => none

/-- `setValue:atPath:` (:201). -/
def setValue (newValue : V) : FImmutableTree K V → List K → FImmutableTree K V
  | t, [] => node (some newValue) t.children
  | t, front :: rest =>
    let newChild := setValue newValue ((t.get front).getD empty) rest
    node t.value (SortedDict.insert compare t.children front newChild)

/-- `setTree:atPath:` (:276). -/
def setTree (newTree : FImmutableTree K V) : FImmutableTree K V → List K → FImmutableTree K V
  | _, [] => newTree
  | t, front :: rest =>
    let newChild := setTree newTree ((t.get front).getD empty) rest
    node t.value (if newChild.isEmpty then SortedDict.remove compare t.children front
      else SortedDict.insert compare t.children front newChild)

/-- `removeValueAtPath:` (:223). -/
def removeValueAtPath : FImmutableTree K V → List K → FImmutableTree K V
  | t, [] => node none t.children
  | t, front :: rest =>
    match t.get front with
    | some child =>
      let newChild := child.removeValueAtPath rest
      node t.value (if newChild.isEmpty then SortedDict.remove compare t.children front
        else SortedDict.insert compare t.children front newChild)
    | none => t

/-- `findOnPath:andApplyBlock:` (:330). -/
def findOnPath {A : Type} (block : List K → V → Option A) (t : FImmutableTree K V) (pathToFollow : List K)
    (pathSoFar : List K) : Option A :=
  match t.value.bind (block pathSoFar) with
  | some result => some result
  | none =>
    match pathToFollow with
    | [] => none
    | front :: rest =>
      match t.get front with
      | some nextChild => findOnPath block nextChild rest (pathSoFar ++ [front])
      | none => none

/-- `forEachOnPath:whileBlock:` (:362), for a block that keeps a variable `s` of its caller and says whether to go
on. -/
def forEachOnPath {S : Type} (block : List K → V → S → S × Bool) (t : FImmutableTree K V) (pathToFollow : List K)
    (pathSoFar : List K) (s : S) : S :=
  let (s, shouldContinue) :=
    match t.value with
    | some value => block pathSoFar value s
    | none => (s, true)
  match pathToFollow with
  | [] => s
  | front :: rest =>
    if shouldContinue then
      match t.get front with
      | some nextChild => forEachOnPath block nextChild rest (pathSoFar ++ [front]) s
      | none => s
    else s

/-- `forEachChild:` (:442), the calls of its block. -/
def forEachChild (t : FImmutableTree K V) : List (K × V) :=
  t.children.filterMap fun child => child.2.value.map fun value => (child.1, value)

/-! ## Trees in order -/

/-- The children are sorted, and none of them is empty. -/
inductive Sound : FImmutableTree K V → Prop where
  | node {value : Option V} {children : List (K × FImmutableTree K V)} (sorted : SortedDict.Sorted compare children)
      (nonempty : ∀ c ∈ children, c.2.isEmpty = false) (sound : ∀ c ∈ children, Sound c.2) :
      Sound (FImmutableTree.node value children)

theorem sound_empty : (empty : FImmutableTree K V).Sound := .node List.Pairwise.nil (by simp) (by simp)

theorem sound_withValue (v : V) : (withValue v : FImmutableTree K V).Sound :=
  .node List.Pairwise.nil (by simp) (by simp)

variable {t t' : FImmutableTree K V} {p q r : List K} {v : V}

theorem Sound.sorted (h : t.Sound) : SortedDict.Sorted compare t.children := by
  cases h
  assumption

theorem Sound.nonempty (h : t.Sound) : ∀ c ∈ t.children, c.2.isEmpty = false := by
  cases h
  assumption

theorem Sound.children (h : t.Sound) : ∀ c ∈ t.children, c.2.Sound := by
  cases h
  assumption

@[simp] theorem valueAtPath_nil (t : FImmutableTree K V) : t.valueAtPath [] = t.value := rfl

theorem valueAtPath_cons (t : FImmutableTree K V) (k : K) (p : List K) :
    t.valueAtPath (k :: p) = (t.get k).bind fun c => c.valueAtPath p := by
  rw [valueAtPath]
  cases t.get k <;> rfl

@[simp] theorem get_empty (k : K) : (empty : FImmutableTree K V).get k = none := rfl

@[simp] theorem valueAtPath_empty (p : List K) : (empty : FImmutableTree K V).valueAtPath p = none := by
  cases p <;> rfl

theorem valueAtPath_withValue (v : V) (p : List K) :
    (withValue v : FImmutableTree K V).valueAtPath p = if p = [] then some v else none := by
  cases p <;> rfl

/-- `[self.children get:key]`, or an empty tree. -/
theorem valueAtPath_getD (t : FImmutableTree K V) (k : K) (p : List K) :
    ((t.get k).getD empty).valueAtPath p = t.valueAtPath (k :: p) := by
  rw [valueAtPath_cons]
  cases t.get k <;> simp

theorem Sound.get [Std.LawfulEqOrd K] (h : t.Sound) {k : K} {c : FImmutableTree K V} (hc : t.get k = some c) :
    c.Sound ∧ c.isEmpty = false :=
  have hm := SortedDict.mem_of_get hc
  ⟨h.children _ hm, h.nonempty _ hm⟩

theorem Sound.getD [Std.LawfulEqOrd K] (h : t.Sound) (k : K) : ((t.get k).getD empty).Sound := by
  cases hc : t.get k with
  | none => exact sound_empty
  | some c => exact (h.get hc).1

/-! ## What the operations do -/

theorem valueAtPath_subtreeAtPath : ∀ (t : FImmutableTree K V) (p q : List K),
    (t.subtreeAtPath p).valueAtPath q = t.valueAtPath (p ++ q)
  | t, [], q => rfl
  | t, k :: p, q => by
    rw [List.cons_append, valueAtPath_cons, subtreeAtPath]
    cases t.get k with
    | none => simp
    | some c => exact valueAtPath_subtreeAtPath c p q

theorem Sound.subtreeAtPath [Std.LawfulEqOrd K] : ∀ {t : FImmutableTree K V} (_ : t.Sound) (p : List K),
    (t.subtreeAtPath p).Sound
  | _, h, [] => h
  | t, h, k :: p => by
    rw [FImmutableTree.subtreeAtPath]
    cases hc : t.get k with
    | none => exact sound_empty
    | some c => exact (h.get hc).1.subtreeAtPath p

/-- A prefix of the path and its value. -/
theorem of_findRootMostValueAndPath_some : ∀ {t : FImmutableTree K V} {p r : List K} {v : V},
    t.findRootMostValueAndPath p = some (r, v) → r <+: p ∧ t.valueAtPath r = some v
  | t, [], r, v, h => by
    obtain ⟨w, hw, heq⟩ := Option.map_eq_some_iff.1 h
    obtain ⟨rfl, rfl⟩ := Prod.mk.inj heq
    exact ⟨List.prefix_refl _, hw⟩
  | t, k :: p, r, v, h => by
    rw [findRootMostValueAndPath] at h
    cases hval : t.value with
    | some w =>
      rw [hval] at h
      obtain ⟨rfl, rfl⟩ := Prod.mk.inj (Option.some.inj h)
      exact ⟨List.nil_prefix, hval⟩
    | none =>
      rw [hval] at h
      cases hc : t.get k with
      | none =>
        rw [hc] at h
        cases h
      | some c =>
        rw [hc] at h
        obtain ⟨⟨s, w⟩, hs, heq⟩ := Option.map_eq_some_iff.1 h
        obtain ⟨rfl, rfl⟩ := Prod.mk.inj heq
        obtain ⟨hsp, hv⟩ := of_findRootMostValueAndPath_some hs
        refine ⟨List.cons_prefix_cons.2 ⟨rfl, hsp⟩, ?_⟩
        rw [valueAtPath_cons, hc]
        exact hv

/-- No prefix of the path has a value. -/
theorem of_findRootMostValueAndPath_none : ∀ {t : FImmutableTree K V} {p : List K},
    t.findRootMostValueAndPath p = none → ∀ q, q <+: p → t.valueAtPath q = none
  | t, [], h, q, hq => by
    obtain rfl := List.prefix_nil.1 hq
    exact Option.map_eq_none_iff.1 h
  | t, k :: p, h, q, hq => by
    rw [findRootMostValueAndPath] at h
    cases hval : t.value with
    | some w =>
      rw [hval] at h
      cases h
    | none =>
      rw [hval] at h
      cases q with
      | nil => exact hval
      | cons j q =>
        obtain ⟨rfl, hqp⟩ := List.cons_prefix_cons.1 hq
        rw [valueAtPath_cons]
        cases hc : t.get j with
        | none => rfl
        | some c =>
          rw [hc] at h
          exact of_findRootMostValueAndPath_none (Option.map_eq_none_iff.1 h) q hqp

/-- The first value on the path that the block takes. -/
theorem of_findOnPath_some {A : Type} {block : List K → V → Option A} {a : A} :
    ∀ {t : FImmutableTree K V} {path pathSoFar : List K}, t.findOnPath block path pathSoFar = some a →
      ∃ r v, r <+: path ∧ t.valueAtPath r = some v ∧ block (pathSoFar ++ r) v = some a
  | t, [], pathSoFar, h => by
    rw [findOnPath] at h
    split at h
    · rename_i result hresult
      obtain ⟨v, hv, hb⟩ := Option.bind_eq_some_iff.1 hresult
      exact ⟨[], v, List.prefix_refl _, hv, by rw [List.append_nil, hb, Option.some.inj h]⟩
    · cases h
  | t, k :: path, pathSoFar, h => by
    rw [findOnPath] at h
    split at h
    · rename_i result hresult
      obtain ⟨v, hv, hb⟩ := Option.bind_eq_some_iff.1 hresult
      exact ⟨[], v, List.nil_prefix, hv, by rw [List.append_nil, hb, Option.some.inj h]⟩
    · cases hc : t.get k with
      | none =>
        rw [hc] at h
        cases h
      | some c =>
        rw [hc] at h
        obtain ⟨r, v, hr, hv, hb⟩ := of_findOnPath_some h
        refine ⟨k :: r, v, List.cons_prefix_cons.2 ⟨rfl, hr⟩, ?_, by simpa using hb⟩
        rw [valueAtPath_cons, hc]
        exact hv

/-- The block takes no value on the path. -/
theorem of_findOnPath_none {A : Type} {block : List K → V → Option A} :
    ∀ {t : FImmutableTree K V} {path pathSoFar : List K}, t.findOnPath block path pathSoFar = none →
      ∀ r v, r <+: path → t.valueAtPath r = some v → block (pathSoFar ++ r) v = none
  | t, path, pathSoFar, h, [], v, _, hv => by
    unfold findOnPath at h
    split at h
    · cases h
    · rename_i hnone
      have hvalue : t.value = some v := hv
      rw [hvalue] at hnone
      rw [List.append_nil]
      exact hnone
  | t, path, pathSoFar, h, k :: r, v, hr, hv => by
    obtain ⟨path, rfl⟩ : ∃ rest, path = k :: rest := by
      obtain ⟨s, rfl⟩ := hr
      exact ⟨r ++ s, rfl⟩
    rw [findOnPath] at h
    split at h
    · cases h
    · rw [valueAtPath_cons] at hv
      obtain ⟨c, hc, hcv⟩ := Option.bind_eq_some_iff.1 hv
      rw [hc] at h
      have hrest := of_findOnPath_none h r v (List.cons_prefix_cons.1 hr).2 hcv
      simpa using hrest

/-- A block that stops where it finds something finds what `findOnPath:andApplyBlock:` finds. -/
theorem forEachOnPath_find {A : Type} (block : List K → V → Option A) :
    ∀ (t : FImmutableTree K V) (path pathSoFar : List K),
      t.forEachOnPath (fun p v (_ : Option A) => (block p v, (block p v).isNone)) path pathSoFar none =
        t.findOnPath block path pathSoFar
  | t, [], pathSoFar => by
    rw [forEachOnPath, findOnPath]
    cases t.value with
    | none => rfl
    | some v =>
      dsimp only [Option.bind_some]
      cases block pathSoFar v <;> rfl
  | t, k :: path, pathSoFar => by
    rw [forEachOnPath, findOnPath]
    cases t.value with
    | none =>
      dsimp only [Option.bind_none]
      cases t.get k with
      | none => rfl
      | some c => exact forEachOnPath_find block c path _
    | some v =>
      dsimp only [Option.bind_some]
      cases block pathSoFar v with
      | some a => rfl
      | none =>
        cases t.get k with
        | none => rfl
        | some c => exact forEachOnPath_find block c path _

theorem isEmpty_setValue (v : V) (t : FImmutableTree K V) (p : List K) : (t.setValue v p).isEmpty = false := by
  cases p with
  | nil => rfl
  | cons k p =>
    have hne := SortedDict.insert_ne_nil compare t.children k (setValue v ((t.get k).getD empty) p)
    rw [setValue, isEmpty, Bool.and_eq_false_iff, List.isEmpty_eq_false_iff]
    exact Or.inr hne

section
variable [Std.TransOrd K]

/-- Replace a child by a tree that is in order and not empty. -/
theorem Sound.insert (h : t.Sound) {c : FImmutableTree K V} (hc : c.Sound) (hne : c.isEmpty = false) (value : Option V)
    (key : K) : (FImmutableTree.node value (SortedDict.insert compare t.children key c)).Sound := by
  refine .node (h.sorted.insert key c) (fun x hx => ?_) fun x hx => ?_
  · rcases SortedDict.mem_of_mem_insert hx with rfl | hx
    · exact hne
    · exact h.nonempty x hx
  · rcases SortedDict.mem_of_mem_insert hx with rfl | hx
    · exact hc
    · exact h.children x hx

/-- A tree in order that is not empty has a value. -/
theorem Sound.exists_value (h : t.Sound) (hne : t.isEmpty = false) : ∃ p, (t.valueAtPath p).isSome := by
  induction h with
  | @node value children sorted nonempty sound ih =>
    cases value with
    | some v => exact ⟨[], rfl⟩
    | none =>
      cases children with
      | nil => cases hne
      | cons c cs =>
        obtain ⟨p, hp⟩ := ih c List.mem_cons_self (nonempty c List.mem_cons_self)
        refine ⟨c.1 :: p, ?_⟩
        have hget : (FImmutableTree.node none (c :: cs) : FImmutableTree K V).get c.1 = some c.2 :=
          SortedDict.get_of_mem sorted List.mem_cons_self
        rw [valueAtPath_cons, hget]
        exact hp

variable [Std.LawfulEqOrd K]

theorem Sound.setValue (v : V) : ∀ {t : FImmutableTree K V} (_ : t.Sound) (p : List K), (t.setValue v p).Sound
  | _, h, [] => .node h.sorted h.nonempty h.children
  | _, h, k :: p => h.insert ((h.getD k).setValue v p) (isEmpty_setValue v _ p) _ k

theorem Sound.setTree {s : FImmutableTree K V} (hs : s.Sound) : ∀ {t : FImmutableTree K V} (_ : t.Sound)
    (p : List K), (FImmutableTree.setTree s t p).Sound
  | _, _, [] => hs
  | t, h, k :: p => by
    have hchild := hs.setTree (h.getD k) p
    rw [FImmutableTree.setTree]
    split
    · have hsub := SortedDict.remove_sublist compare k t.children
      exact .node (h.sorted.remove k) (fun c hc => h.nonempty c (hsub.subset hc))
        fun c hc => h.children c (hsub.subset hc)
    · rename_i hne
      exact h.insert hchild (by simpa using hne) _ k

theorem Sound.removeValueAtPath : ∀ {t : FImmutableTree K V} (_ : t.Sound) (p : List K), (t.removeValueAtPath p).Sound
  | _, h, [] => .node h.sorted h.nonempty h.children
  | t, h, k :: p => by
    rw [FImmutableTree.removeValueAtPath]
    cases hc : t.get k with
    | none => exact h
    | some c =>
      have hchild := (h.get hc).1.removeValueAtPath p
      dsimp only
      split
      · have hsub := SortedDict.remove_sublist compare k t.children
        exact .node (h.sorted.remove k) (fun c hc => h.nonempty c (hsub.subset hc))
          fun c hc => h.children c (hsub.subset hc)
      · rename_i hne
        exact h.insert hchild (by simpa using hne) _ k

theorem Sound.mem_forEachChild (h : t.Sound) {k : K} : (k, v) ∈ t.forEachChild ↔ t.valueAtPath [k] = some v := by
  rw [forEachChild, List.mem_filterMap, valueAtPath_cons]
  constructor
  · rintro ⟨c, hc, heq⟩
    obtain ⟨w, hw, heq⟩ := Option.map_eq_some_iff.1 heq
    obtain ⟨rfl, rfl⟩ := Prod.mk.inj heq
    have hget : t.get c.1 = some c.2 := SortedDict.get_of_mem h.sorted hc
    rw [hget]
    exact hw
  · intro hv
    obtain ⟨c, hc, hcv⟩ := Option.bind_eq_some_iff.1 hv
    have hcv : c.value = some v := hcv
    exact ⟨(k, c), SortedDict.mem_of_get hc, by rw [hcv]; rfl⟩

/-- A tree in order is determined by its values. -/
theorem Sound.ext (h : t.Sound) (h' : t'.Sound) (heq : ∀ p, t.valueAtPath p = t'.valueAtPath p) : t = t' := by
  induction h generalizing t' with
  | @node value children sorted nonempty sound ih =>
    have hval : value = t'.value := heq []
    have hcs : children = t'.children := by
      refine SortedDict.ext sorted h'.sorted fun k => ?_
      have hk : ∀ p, ((FImmutableTree.node value children).get k).bind (fun c => c.valueAtPath p) =
          (t'.get k).bind fun c => c.valueAtPath p := by
        intro p
        rw [← valueAtPath_cons, ← valueAtPath_cons]
        exact heq (k :: p)
      change (FImmutableTree.node value children).get k = t'.get k
      have hsound : (FImmutableTree.node value children).Sound := .node sorted nonempty sound
      cases hc : (FImmutableTree.node value children).get k with
      | none =>
        cases hc' : t'.get k with
        | none => rfl
        | some c' =>
          obtain ⟨p, hp⟩ := (h'.get hc').1.exists_value (h'.get hc').2
          have hnone := hk p
          rw [hc, hc', Option.bind_none, Option.bind_some] at hnone
          rw [← hnone] at hp
          cases hp
      | some c =>
        cases hc' : t'.get k with
        | none =>
          obtain ⟨p, hp⟩ := (hsound.get hc).1.exists_value (hsound.get hc).2
          have hnone := hk p
          rw [hc, hc', Option.bind_none, Option.bind_some] at hnone
          rw [hnone] at hp
          cases hp
        | some c' =>
          have hmem : (k, c) ∈ children := SortedDict.mem_of_get hc
          refine congrArg some (ih (k, c) hmem (h'.get hc').1 fun p => ?_)
          have hp := hk p
          rwa [hc, hc', Option.bind_some, Option.bind_some] at hp
    cases t'
    rw [hval, hcs]
    rfl

/-- `forEach:` visits the values with their paths. -/
theorem Sound.mem_forEachPathSoFar (h : t.Sound) : ∀ {pathSoFar p : List K} {v : V},
    (p, v) ∈ t.forEachPathSoFar pathSoFar ↔ ∃ q, p = pathSoFar ++ q ∧ t.valueAtPath q = some v := by
  induction h with
  | @node value children sorted nonempty sound ih =>
    intro pathSoFar p v
    rw [forEachPathSoFar, forEachChildSoFar_eq, List.mem_append, List.mem_flatMap, List.mem_map]
    constructor
    · rintro (⟨c, hc, hp⟩ | ⟨w, hw, heq⟩)
      · obtain ⟨q, rfl, hq⟩ := (ih c hc).1 hp
        refine ⟨c.1 :: q, by simp, ?_⟩
        have hget : (FImmutableTree.node value children).get c.1 = some c.2 := SortedDict.get_of_mem sorted hc
        rw [valueAtPath_cons, hget]
        exact hq
      · obtain ⟨rfl, rfl⟩ := Prod.mk.inj heq
        exact ⟨[], by simp, Option.mem_toList.1 hw⟩
    · rintro ⟨q, rfl, hq⟩
      cases q with
      | nil => exact Or.inr ⟨v, Option.mem_toList.2 hq, by simp⟩
      | cons k q =>
        rw [valueAtPath_cons] at hq
        obtain ⟨c, hc, hcv⟩ := Option.bind_eq_some_iff.1 hq
        have hmem : (k, c) ∈ children := SortedDict.mem_of_get hc
        exact Or.inl ⟨(k, c), hmem, (ih (k, c) hmem).2 ⟨q, by simp, hcv⟩⟩

theorem Sound.mem_forEach (h : t.Sound) : (p, v) ∈ t.forEach ↔ t.valueAtPath p = some v := by
  rw [forEach, h.mem_forEachPathSoFar]
  simp

variable [DecidableEq K]

theorem get_node_insert (value : Option V) (cs : List (K × FImmutableTree K V)) (key : K) (c : FImmutableTree K V)
    (k : K) : (node value (SortedDict.insert compare cs key c)).get k =
      if k = key then some c else SortedDict.get compare cs k := by
  rw [get, children, SortedDict.get_insert]
  simp only [Std.LawfulEqCmp.compare_eq_iff_eq]

theorem get_node_remove {cs : List (K × FImmutableTree K V)} (h : SortedDict.Sorted compare cs) (value : Option V)
    (key k : K) : (node value (SortedDict.remove compare cs key)).get k =
      if k = key then none else SortedDict.get compare cs k := by
  rw [get, children, SortedDict.get_remove h]
  simp only [Std.LawfulEqCmp.compare_eq_iff_eq]

theorem valueAtPath_setValue (v : V) : ∀ (t : FImmutableTree K V) (p q : List K),
    (t.setValue v p).valueAtPath q = if q = p then some v else t.valueAtPath q
  | t, [], q => by
    cases q with
    | nil => rfl
    | cons k q => rfl
  | t, k :: p, q => by
    rw [setValue]
    cases q with
    | nil => rfl
    | cons j q =>
      rw [valueAtPath_cons, get_node_insert]
      by_cases hj : j = k
      · subst hj
        rw [if_pos rfl, Option.bind_some, valueAtPath_setValue v _ p q, valueAtPath_getD]
        simp
      · rw [if_neg hj, if_neg fun h => hj (List.cons.inj h).1, valueAtPath_cons]
        rfl

theorem valueAtPath_removeValueAtPath : ∀ {t : FImmutableTree K V} (_ : t.Sound) (p q : List K),
    (t.removeValueAtPath p).valueAtPath q = if q = p then none else t.valueAtPath q
  | t, _, [], q => by cases q <;> rfl
  | t, h, k :: p, q => by
    rw [removeValueAtPath]
    cases hc : t.get k with
    | none =>
      by_cases hq : q = k :: p
      · rw [if_pos hq, hq]
        exact (valueAtPath_cons t k p).trans (by rw [hc]; rfl)
      · rw [if_neg hq]
    | some c =>
      have hchild := valueAtPath_removeValueAtPath (h.get hc).1 p
      dsimp only
      cases q with
      | nil => simp [value]
      | cons j q =>
        rw [valueAtPath_cons, valueAtPath_cons]
        by_cases hj : j = k
        · subst hj
          rw [hc, Option.bind_some]
          simp only [List.cons.injEq, true_and]
          rw [← hchild q]
          split
          · rename_i hempty
            rw [get_node_remove h.sorted, if_pos rfl, isEmpty_eq_true hempty]
            simp
          · rw [get_node_insert, if_pos rfl]
            rfl
        · rw [if_neg fun hp => hj (List.cons.inj hp).1]
          split
          · rw [get_node_remove h.sorted, if_neg hj]
            rfl
          · rw [get_node_insert, if_neg hj]
            rfl

theorem valueAtPath_setTree (s : FImmutableTree K V) : ∀ {t : FImmutableTree K V} (_ : t.Sound) (p q : List K),
    (setTree s t p).valueAtPath q = if p <+: q then s.valueAtPath (q.drop p.length) else t.valueAtPath q
  | t, _, [], q => by simp [setTree]
  | t, h, k :: p, q => by
    rw [setTree]
    cases q with
    | nil => simp [value]
    | cons j q =>
      have hchild := valueAtPath_setTree s (h.getD k) p q
      by_cases hj : j = k
      · subst hj
        have hpre : (j :: p <+: j :: q) ↔ p <+: q := by simp [List.cons_prefix_cons]
        simp only [hpre, List.length_cons, List.drop_succ_cons]
        rw [valueAtPath_getD] at hchild
        rw [← hchild, valueAtPath_cons]
        split
        · rename_i hempty
          rw [get_node_remove h.sorted, if_pos rfl, isEmpty_eq_true hempty]
          simp
        · rw [get_node_insert, if_pos rfl]
          rfl
      · rw [if_neg fun hp => hj (List.cons_prefix_cons.1 hp).1.symm, valueAtPath_cons, valueAtPath_cons]
        split
        · rw [get_node_remove h.sorted, if_neg hj]
          rfl
        · rw [get_node_insert, if_neg hj]
          rfl

end

end

end FImmutableTree

end Anissagram
