import Anissagram.Lib.PathTree
import Mathlib.Data.List.Nodup
/-
# The Firebase SDK as the app uses it

| here | there (`Pods/FirebaseDatabase/FirebaseDatabase/Sources`) |
| --- | --- |
| `Node`                        | `id<FNode>`, and the Foundation values it is built from and exported to: an `FChildrenNode` without children is `FEmptyNode`, so a node is its leaves |
| `pathComponents`              | `-[FPath initWith:]` (`Core/Utilities/FPath.m:55`) |
| `isValidKey`, `isValidPathString` | `FValidation.m:66`, `:115` |
| `child`                       | `-[FIRDatabaseReference child:]` (`FIRDatabaseReference.m:100`) |
| `compoundWriteFromDictionary` | `FSnapshotUtilities.m:227`; `none` where it throws |
| `asDictionary?`               | `snapshot.value as? NSDictionary` over `-[FChildrenNode valForExport:]` (`Snapshot/FChildrenNode.m:164`) |

`-[FLeafNode updateChild:withNewChild:]` keeps a leaf when something below it is deleted and
replaces it when something below it is stored, which is what `PathTree.Tree.set` does. Priorities
(`.priority`), server values (`.sv`) and the size limits are not modelled: a key with a dot is an
invalid key here. Swift's `==` and the SDK's `compare:` take canonically equivalent spellings for one
string, `=` here does not: names and keys stand in one normal form, in all modules.
-/

namespace Anissagram

open PathTree

/-- `NSString` and `NSNumber`, the values a leaf holds. -/
inductive Scalar where
  | string (s : String)
  | number (n : Int)
deriving DecidableEq, Repr

abbrev Node := Tree String Scalar

abbrev Database := Node

namespace Node

def string (s : String) : Node := Tree.single (.string s)

def number (n : Int) : Node := Tree.single (.number n)

def dictionary (entries : List (String × Node)) : Node :=
  Tree.empty.update (entries.map fun e => ([e.1], e.2))

/-- An array is stored under its indices (`FSnapshotUtilities.m:177`). -/
def array (elements : List Node) : Node :=
  dictionary (elements.zipIdx.map fun e => (toString e.2, e.1))

/-- `as? String`. -/
def asString? (n : Node) : Option String :=
  match n.leaf [] with
  | some (.string s) => some s
  | _ => none

theorem asString?_eq_some {n : Node} {s : String} : n.asString? = some s ↔ n = string s := by
  rw [string, Tree.eq_single_iff, asString?]
  split
  · rename_i t ht
    rw [ht]
    simp
  · rename_i h
    constructor
    · simp
    · intro hs; exact absurd hs (h s)

@[simp] theorem asString?_string (s : String) : (string s).asString? = some s := rfl
@[simp] theorem asString?_empty : asString? (Tree.empty : Node) = none := rfl

theorem string_inj {s t : String} : string s = string t ↔ s = t := by
  simp [string, Tree.single_inj]

@[simp] theorem string_ne_empty (s : String) : string s ≠ Tree.empty := Tree.single_ne_empty _

@[simp] theorem not_isEmpty_string (s : String) : ¬ (string s).isEmpty := Tree.not_isEmpty_single _

/-! ## Export -/

/-- A key `valForExport:` counts as an integer: digits, without a leading zero unless it is `0`. -/
def integerKey? (key : String) : Option Nat :=
  if key.toList.head? = some '0' ∧ 1 < key.toList.length then none
  else if key ≠ "" ∧ key.toList.all Char.isDigit then
    some (key.toList.foldl (fun n c => 10 * n + (c.toNat - 48)) 0)
  else none

/-- All keys are integers and the largest is below twice their number: the node is exported as an
`NSArray`. -/
def exportsArray (n : Node) : Prop :=
  n.keys ≠ ∅ ∧ ∀ k ∈ n.keys, ∃ i ∈ integerKey? k, i < 2 * n.keys.card

instance (n : Node) : Decidable n.exportsArray :=
  inferInstanceAs (Decidable (n.keys ≠ ∅ ∧ ∀ k ∈ n.keys, ∃ i ∈ integerKey? k, i < 2 * n.keys.card))

/-- `as? NSDictionary`: neither a scalar nor `NSNull` nor an array. -/
def asDictionary? (n : Node) : Option Node :=
  if n.keys = ∅ ∨ n.exportsArray then none else some n

theorem asDictionary?_eq_some {n d : Node} (h : n.asDictionary? = some d) : d = n := by
  unfold asDictionary? at h
  split at h
  · simp at h
  · simpa using h.symm

/-- One key that is no integer is enough for a dictionary. -/
theorem asDictionary?_of_key {n : Node} {k : String} (hk : n.sub [k] ≠ Tree.empty) (hint : integerKey? k = none) :
    n.asDictionary? = some n := by
  have hmem : k ∈ n.keys := Tree.mem_keys.2 hk
  unfold asDictionary?
  rw [if_neg]
  rintro (hno | ⟨-, hall⟩)
  · rw [hno] at hmem
    cases hmem
  · obtain ⟨i, hi, -⟩ := hall k hmem
    rw [hint] at hi
    cases hi

/-- `as? NSDictionary ?? [:]` keeps the entries of a dictionary unless they are exported as an array. -/
theorem asDictionary?_getD_iff {n : Node} (h0 : n.leaf [] = none) :
    n.asDictionary?.getD Tree.empty = n ↔ ¬ n.exportsArray := by
  unfold asDictionary?
  by_cases hk : n.keys = ∅
  · rw [if_pos (Or.inl hk)]
    exact iff_of_true (Tree.eq_empty_of_keys hk h0).symm fun h => h.1 hk
  · by_cases harray : n.exportsArray
    · rw [if_pos (Or.inr harray)]
      refine iff_of_false (fun h => hk ?_) (not_not.2 harray)
      rw [← h]
      rfl
    · rw [if_neg (not_or.2 ⟨hk, harray⟩)]
      exact iff_of_true rfl harray

end Node

/-! ## Paths and keys -/

def pathComponents (path : String) : List String :=
  ((path.toList.splitOn '/').filter (· ≠ [])).map String.ofList

def kInvalidPathCharacters : List Char := ['[', ']', '.', '#', '$']
def kInvalidKeyCharacters : List Char := ['[', ']', '.', '#', '$', '/']

def isValidPathString (pathString : String) : Prop :=
  pathString ≠ "" ∧ ∀ c ∈ pathString.toList, c ∉ kInvalidPathCharacters

instance (s : String) : Decidable (isValidPathString s) :=
  have := List.decidableBAll (fun c => c ∉ kInvalidPathCharacters) s.toList
  inferInstanceAs (Decidable (s ≠ "" ∧ ∀ c ∈ s.toList, c ∉ kInvalidPathCharacters))

def isValidKey (key : String) : Prop :=
  key ≠ "" ∧ ∀ c ∈ key.toList, c ∉ kInvalidKeyCharacters

instance (s : String) : Decidable (isValidKey s) :=
  have := List.decidableBAll (fun c => c ∉ kInvalidKeyCharacters) s.toList
  inferInstanceAs (Decidable (s ≠ "" ∧ ∀ c ∈ s.toList, c ∉ kInvalidKeyCharacters))

theorem isValidKey.slash {key : String} (h : isValidKey key) : '/' ∉ key.toList :=
  fun hc => h.2 _ hc (by decide)

theorem isValidKey.isValidPathString {key : String} (h : isValidKey key) : isValidPathString key := by
  refine ⟨h.1, fun c hc hbad => h.2 c hc ?_⟩
  simp only [kInvalidPathCharacters, kInvalidKeyCharacters, List.mem_cons, List.not_mem_nil] at hbad ⊢
  tauto

/-- A slash separates components. -/
theorem pathComponents_append_slash (s t : String) :
    pathComponents (s ++ "/" ++ t) = pathComponents s ++ pathComponents t := by
  have h : (s ++ "/" ++ t).toList = s.toList ++ '/' :: t.toList := by simp
  simp only [pathComponents, h, List.splitOn_append_cons_self, List.filter_append, List.map_append]

/-- A non-empty string without a slash is one component. -/
theorem pathComponents_single {s : String} (hne : s ≠ "") (h : '/' ∉ s.toList) :
    pathComponents s = [s] := by
  have hl : s.toList ≠ [] := by simpa using hne
  simp [pathComponents, List.splitOn_eq_singleton h, hl]

/-- A string that is one component of a path. Not every such string is a valid key, but a path with
an invalid key is rejected. -/
def IsComponent (s : String) : Prop := s ≠ "" ∧ '/' ∉ s.toList

instance (s : String) : Decidable (IsComponent s) :=
  inferInstanceAs (Decidable (s ≠ "" ∧ '/' ∉ s.toList))

theorem IsComponent.pathComponents {s : String} (h : IsComponent s) : pathComponents s = [s] :=
  pathComponents_single h.1 h.2

theorem isValidKey.isComponent {key : String} (h : isValidKey key) : IsComponent key :=
  ⟨h.1, h.slash⟩

theorem isValidKey.pathComponents {key : String} (h : isValidKey key) : pathComponents key = [key] :=
  h.isComponent.pathComponents

/-- `reference.child(pathString)`; throws on an invalid path string. -/
def child (path : List String) (pathString : String) : Option (List String) :=
  if isValidPathString pathString then some (path ++ pathComponents pathString) else none

theorem child_of_isValidKey {path : List String} {key : String} (h : isValidKey key) :
    child path key = some (path ++ [key]) := by
  simp [child, h.isValidPathString, h.pathComponents]

theorem child_eq_some {path p : List String} {key : String} (hk : IsComponent key)
    (h : child path key = some p) : p = path ++ [key] := by
  unfold child at h
  split at h
  · simpa [hk.pathComponents] using h.symm
  · simp at h

/-! ## Writes -/

/-- `FCompoundWrite`: the nodes to store and their paths. -/
abbrev CompoundWrite := List (List String × Node)

/-- `internalNodeFrom:` throws on an invalid key in a dictionary (`FSnapshotUtilities.m:147`). -/
def hasValidKeys (n : Node) : Prop := ∀ p ∈ n.support, ∀ k ∈ p, isValidKey k

instance (n : Node) : Decidable (hasValidKeys n) :=
  inferInstanceAs (Decidable (∀ p ∈ n.support, ∀ k ∈ p, isValidKey k))

/-- A dictionary handed to `updateChildValues`; a `nil` value deletes. -/
abbrev Updates := List (String × Option Node)

/-- A Swift dictionary literal: duplicate keys trap. -/
def dictionaryLiteral (entries : Updates) : Option Updates :=
  if (entries.map Prod.fst).Nodup then some entries else none

/-- The writes an updates dictionary stands for. -/
def writesOf (values : Updates) : CompoundWrite :=
  values.map fun e => (pathComponents e.1, e.2.getD Tree.empty)

/-- The updates the SDK takes: keys are valid, and no path is an ancestor of (or equal to) another
one (`FValidation.m:287`, `FSnapshotUtilities.m:247`). -/
def Accepted (values : Updates) : Prop :=
  (∀ w ∈ writesOf values, (∀ k ∈ w.1, isValidKey k) ∧ hasValidKeys w.2) ∧
    (writesOf values).Pairwise fun w w' => Apart w.1 w'.1

instance (values : Updates) : Decidable (Accepted values) :=
  inferInstanceAs (Decidable (_ ∧ _))

/-- `updateChildValues` up to the hand-over of the write. -/
def compoundWriteFromDictionary (values : Updates) : Option CompoundWrite :=
  if Accepted values then some (writesOf values) else none

/-- Accepted paths differ, so the keys do. -/
theorem Accepted.nodup {entries : Updates} (h : Accepted entries) : (entries.map Prod.fst).Nodup := by
  refine List.pairwise_map.2 ((List.pairwise_map.1 h.2).imp fun {e e'} hap heq => ?_)
  rw [heq] at hap
  exact not_apart_self _ hap

/-- When `updateChildValues` of a dictionary literal goes through, without a trap or an exception. -/
theorem updateChildValues_eq_some {entries : Updates} {w : CompoundWrite} :
    (dictionaryLiteral entries >>= compoundWriteFromDictionary) = some w ↔
      Accepted entries ∧ w = writesOf entries := by
  unfold dictionaryLiteral compoundWriteFromDictionary
  by_cases ha : Accepted entries
  · simp [ha.nodup, ha, eq_comm]
  · by_cases hn : (entries.map Prod.fst).Nodup <;> simp [hn, ha]

/-! ## Valid keys of built values -/

theorem hasValidKeys_iff {n : Node} :
    hasValidKeys n ↔ ∀ p, (n.leaf p).isSome → ∀ k ∈ p, isValidKey k := by
  simp only [hasValidKeys, Tree.mem_support]

@[simp] theorem hasValidKeys_empty : hasValidKeys (Tree.empty : Node) := by
  simp [hasValidKeys_iff]

@[simp] theorem hasValidKeys_string (s : String) : hasValidKeys (Node.string s) := by
  rw [hasValidKeys_iff]
  intro p hp k hk
  cases p with
  | nil => simp at hk
  | cons j p => simp [Node.string] at hp

theorem hasValidKeys_set {t s : Node} {p : List String} (ht : hasValidKeys t)
    (hp : ∀ k ∈ p, isValidKey k) (hs : hasValidKeys s) : hasValidKeys (t.set p s) := by
  rw [hasValidKeys_iff] at *
  intro q hq k hk
  rw [Tree.leaf_set] at hq
  split at hq
  · rename_i hpq
    obtain ⟨r, rfl⟩ := hpq
    rw [List.drop_left] at hq
    rcases List.mem_append.1 hk with hk | hk
    · exact hp k hk
    · exact hs r hq k hk
  · split at hq
    · simp at hq
    · exact ht q hq k hk

theorem hasValidKeys_update :
    ∀ {ws : CompoundWrite} {t : Node}, hasValidKeys t →
      (∀ w ∈ ws, (∀ k ∈ w.1, isValidKey k) ∧ hasValidKeys w.2) → hasValidKeys (t.update ws)
  | [], _, ht, _ => ht
  | w :: ws, t, ht, h => by
    have hw := h w List.mem_cons_self
    rw [Tree.update_cons]
    exact hasValidKeys_update (hasValidKeys_set ht hw.1 hw.2) fun x hx => h x (List.mem_cons_of_mem _ hx)

theorem hasValidKeys_dictionary {entries : List (String × Node)}
    (h : ∀ e ∈ entries, isValidKey e.1 ∧ hasValidKeys e.2) :
    hasValidKeys (Node.dictionary entries) := by
  refine hasValidKeys_update hasValidKeys_empty fun w hw => ?_
  obtain ⟨e, he, rfl⟩ := List.mem_map.1 hw
  simpa using h e he

end Anissagram
