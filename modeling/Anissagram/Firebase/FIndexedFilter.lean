import Anissagram.Firebase.FCompoundWrite
/-
# Changing a view's node (`Core/View/Filter/FIndexedFilter.m`)

The filter of the default query stores the new child or the new node, and tells the accumulator
(`Core/View/FChildChangeAccumulator.m`) which children it changed. The accumulator joins what it is told about one
child, so that in the end it holds the difference to where the operation began (`Tracks`).

What the filter is told to store it stores (`updateChildIn_fst`), although it leaves the node alone where the old and
the new child agree at the affected path; a check in debug builds (:64) says that they are the same then.
-/

namespace Anissagram

open PathTree

inductive FChange where
  | childAdded (childKey : String) (node : Node)
  | childChanged (childKey : String) (node oldNode : Node)
  | childRemoved (childKey : String) (node : Node)

namespace FChange

def childKey : FChange → String
  | childAdded childKey _ => childKey
  | childChanged childKey _ _ => childKey
  | childRemoved childKey _ => childKey

end FChange

namespace FChildChangeAccumulator

/-- `trackChildChange:` (:35); `none` is the exception (:85). -/
def trackChildChange (changeMap : List (String × FChange)) (change : FChange) : Option (List (String × FChange)) :=
  match SortedDict.get compare changeMap change.childKey with
  | some oldChange =>
    match change, oldChange with
    | .childAdded childKey node, .childRemoved _ oldNode =>
      some (SortedDict.insert compare changeMap childKey (.childChanged childKey node oldNode))
    | .childRemoved childKey _, .childAdded _ _ => some (SortedDict.remove compare changeMap childKey)
    | .childRemoved childKey _, .childChanged _ _ oldNode =>
      some (SortedDict.insert compare changeMap childKey (.childRemoved childKey oldNode))
    | .childChanged childKey node _, .childAdded _ _ =>
      some (SortedDict.insert compare changeMap childKey (.childAdded childKey node))
    | .childChanged childKey node _, .childChanged _ _ oldNode =>
      some (SortedDict.insert compare changeMap childKey (.childChanged childKey node oldNode))
    | _, _ => none
  | none => some (SortedDict.insert compare changeMap change.childKey change)

/-- The accumulator after all that it was told. -/
def trackChildChanges (changes : List FChange) : Option (List (String × FChange)) := changes.foldlM trackChildChange []

end FChildChangeAccumulator

namespace FIndexedFilter

/-- What `updateChildIn:…` tells the accumulator (:69). -/
def childChange (node : Node) (childKey : String) (newChildSnap : Node) : List FChange :=
  if newChildSnap.isEmpty then
    if node.hasChild childKey then [.childRemoved childKey (node.sub [childKey])] else []
  else if (node.sub [childKey]).isEmpty then [.childAdded childKey newChildSnap]
  else [.childChanged childKey newChildSnap (node.sub [childKey])]

/-- `updateChildIn:forChildKey:newChild:affectedPath:fromSource:accumulator:` (:40). -/
def updateChildIn (node : Node) (childKey : String) (newChildSnap : Node) (affectedPath : List String) :
    Node × List FChange :=
  if (node.sub [childKey]).sub affectedPath = newChildSnap.sub affectedPath ∧
      ((node.sub [childKey]).isEmpty ↔ newChildSnap.isEmpty) then (node, [])
  else if (node.leaf []).isSome ∧ newChildSnap.isEmpty then (node, childChange node childKey newChildSnap)
  else (node.set [childKey] newChildSnap, childChange node childKey newChildSnap)

/-- `updateFullNode:withNewNode:accumulator:` (:104). -/
def updateFullNode (oldSnap newSnap : Node) : Node × List FChange :=
  let removed := oldSnap.enumerateChildren.flatMap fun (childKey, childNode) =>
    if newSnap.hasChild childKey then [] else [FChange.childRemoved childKey childNode]
  let added := newSnap.enumerateChildren.flatMap fun (childKey, childNode) =>
    if oldSnap.hasChild childKey then
      let oldChildSnap := oldSnap.sub [childKey]
      if oldChildSnap = childNode then [] else [FChange.childChanged childKey childNode oldChildSnap]
    else [FChange.childAdded childKey childNode]
  (newSnap, removed ++ added)

theorem updateChildIn_fst {node newChildSnap : Node} {childKey : String} {affectedPath : List String}
    (h : (node.sub [childKey]).sub affectedPath = newChildSnap.sub affectedPath →
      node.sub [childKey] = newChildSnap) :
    (updateChildIn node childKey newChildSnap affectedPath).1 = node.set [childKey] newChildSnap := by
  unfold updateChildIn
  split
  · rename_i hsame
    rw [← h hsame.1, Tree.set_sub]
  · split
    · rename_i hleaf
      -- below a leaf there is nothing to delete
      obtain ⟨v, hv⟩ := Option.isSome_iff_exists.1 hleaf.1
      have hempty : node.sub [childKey] = newChildSnap := by
        rw [Tree.eq_single_of_leaf_nil hv, Tree.isEmpty_iff.1 hleaf.2]
        rfl
      rw [← hempty, Tree.set_sub]
    · rfl

/-- Where the new child is the old one with something stored at the affected path. -/
theorem updateChildIn_set (node : Node) (childKey : String) (affectedPath : List String) (snap : Node) :
    (updateChildIn node childKey ((node.sub [childKey]).set affectedPath snap) affectedPath).1 =
      node.set (childKey :: affectedPath) snap := by
  rw [updateChildIn_fst, Tree.set_set_sub]
  · rfl
  · intro h
    rw [Tree.sub_set_self] at h
    rw [← h, Tree.set_sub]

end FIndexedFilter

/-! ## What the accumulator knows -/

/-- An entry of the accumulator says how a child changed. -/
def FChange.Describes (old new : Node) (key : String) : Option FChange → Prop
  | none => old = new
  | some (.childAdded childKey node) => childKey = key ∧ old.isEmpty ∧ ¬ new.isEmpty ∧ node = new
  | some (.childChanged childKey node oldNode) =>
    childKey = key ∧ ¬ old.isEmpty ∧ ¬ new.isEmpty ∧ node = new ∧ oldNode = old
  | some (.childRemoved childKey node) => childKey = key ∧ ¬ old.isEmpty ∧ new.isEmpty ∧ node = old

namespace FChildChangeAccumulator

open FChange

/-- Told the changes, the accumulator did not throw and holds how the children differ from the old ones. -/
def Tracks (old new : String → Node) (changes : List FChange) : Prop :=
  ∃ changeMap, trackChildChanges changes = some changeMap ∧ SortedDict.Sorted compare changeMap ∧
    ∀ key, Describes (old key) (new key) key (SortedDict.get compare changeMap key)

variable {old new : String → Node} {changes : List FChange} {key : String} {child : Node} {change : FChange}

theorem tracks_nil (old : String → Node) : Tracks old old [] := ⟨[], rfl, List.Pairwise.nil, fun _ => rfl⟩

theorem Describes.childKey (h : Describes (new key) child key (some change)) : change.childKey = key := by
  cases change <;> exact h.1

/-- The accumulator is told of one more change, and joins it to what it knows of the child. -/
theorem trackChildChange_spec {changeMap : List (String × FChange)} (hs : SortedDict.Sorted compare changeMap)
    (hold : Describes (old key) (new key) key (SortedDict.get compare changeMap key))
    (h : Describes (new key) child key (some change)) :
    ∃ changeMap' entry, trackChildChange changeMap change = some changeMap' ∧ SortedDict.Sorted compare changeMap' ∧
      (∀ k, SortedDict.get compare changeMap' k = if k = key then entry else SortedDict.get compare changeMap k) ∧
      Describes (old key) child key entry := by
  have hinsert : ∀ entry k, SortedDict.get compare (SortedDict.insert compare changeMap key entry) k =
      if k = key then some entry else SortedDict.get compare changeMap k := by
    intro entry k
    rw [SortedDict.get_insert]
    simp only [Std.LawfulEqCmp.compare_eq_iff_eq]
  have hremove : ∀ k, SortedDict.get compare (SortedDict.remove compare changeMap key) k =
      if k = key then none else SortedDict.get compare changeMap k := by
    intro k
    rw [SortedDict.get_remove hs]
    simp only [Std.LawfulEqCmp.compare_eq_iff_eq]
  unfold trackChildChange
  rw [Describes.childKey h]
  cases hget : SortedDict.get compare changeMap key with
  | none =>
    rw [hget] at hold
    have hold' : old key = new key := hold
    exact ⟨_, _, rfl, hs.insert _ _, hinsert change, hold' ▸ h⟩
  | some oldChange =>
    rw [hget] at hold
    cases change with
    | childAdded childKey node =>
      obtain ⟨rfl, hnew, hchild, rfl⟩ := h
      cases oldChange with
      | childAdded _ _ => exact absurd hnew hold.2.2.1
      | childChanged _ _ _ => exact absurd hnew hold.2.2.1
      | childRemoved _ oldNode => exact ⟨_, _, rfl, hs.insert _ _, hinsert _, rfl, hold.2.1, hchild, rfl, hold.2.2.2⟩
    | childChanged childKey node oldNode =>
      obtain ⟨rfl, hnew, hchild, rfl, -⟩ := h
      cases oldChange with
      | childAdded _ _ => exact ⟨_, _, rfl, hs.insert _ _, hinsert _, rfl, hold.2.1, hchild, rfl⟩
      | childChanged _ _ _ => exact ⟨_, _, rfl, hs.insert _ _, hinsert _, rfl, hold.2.1, hchild, rfl, hold.2.2.2.2⟩
      | childRemoved _ _ => exact absurd hold.2.2.1 hnew
    | childRemoved childKey node =>
      obtain ⟨rfl, hnew, hchild, -⟩ := h
      cases oldChange with
      | childAdded _ _ =>
        refine ⟨_, none, rfl, hs.remove _, hremove, ?_⟩
        exact (Tree.isEmpty_iff.1 hold.2.1).trans (Tree.isEmpty_iff.1 hchild).symm
      | childChanged _ _ _ => exact ⟨_, _, rfl, hs.insert _ _, hinsert _, rfl, hold.2.1, hchild, hold.2.2.2.2⟩
      | childRemoved _ _ => exact absurd hold.2.2.1 hnew

theorem Tracks.snoc (h : Tracks old new changes) (hc : Describes (new key) child key (some change)) :
    Tracks old (Function.update new key child) (changes ++ [change]) := by
  obtain ⟨changeMap, htrack, hs, hdesc⟩ := h
  obtain ⟨changeMap', entry, htrack', hs', hget, hentry⟩ := trackChildChange_spec hs (hdesc key) hc
  refine ⟨changeMap', ?_, hs', fun k => ?_⟩
  · rw [trackChildChanges, List.foldlM_append]
    rw [trackChildChanges] at htrack
    rw [htrack]
    simpa using htrack'
  · rw [hget]
    by_cases hk : k = key
    · subst hk
      rw [if_pos rfl, Function.update_self]
      exact hentry
    · rw [if_neg hk, Function.update_of_ne hk]
      exact hdesc k

/-- The accumulator is told of the changes of several children. -/
theorem Tracks.flatMap (h : Tracks old new changes) {g : String → Node} {f : String → List FChange}
    {keys : List String} (hnd : keys.Nodup)
    (hf : ∀ k ∈ keys, f k = [] ∧ new k = g k ∨
      ∃ change, f k = [change] ∧ Describes (new k) (g k) k (some change)) :
    Tracks old (fun k => if k ∈ keys then g k else new k) (changes ++ keys.flatMap f) := by
  induction keys generalizing new changes with
  | nil =>
    simpa using h
  | cons k keys ih =>
    obtain ⟨hk, hnd⟩ := List.nodup_cons.1 hnd
    have hupdate : Tracks old (Function.update new k (g k)) (changes ++ f k) := by
      rcases hf k List.mem_cons_self with ⟨hnil, heq⟩ | ⟨change, hone, hdesc⟩
      · rw [hnil, List.append_nil, ← heq, Function.update_eq_self]
        exact h
      · rw [hone]
        exact h.snoc hdesc
    have hrest := ih hupdate hnd fun j hj => by
      have hjk : j ≠ k := fun heq => hk (heq ▸ hj)
      rw [Function.update_of_ne hjk]
      exact hf j (List.mem_cons_of_mem _ hj)
    rw [List.flatMap_cons, ← List.append_assoc]
    convert hrest using 1
    funext j
    by_cases hjk : j = k
    · subst hjk
      simp [hk]
    · simp [hjk]

end FChildChangeAccumulator

namespace FIndexedFilter

open FChange FChildChangeAccumulator

variable {old : String → Node} {changes : List FChange}

theorem hasChild_iff {n : Node} {key : String} : n.hasChild key = true ↔ ¬ (n.sub [key]).isEmpty := by
  simp [Node.hasChild]

theorem tracks_updateChildIn {node : Node} (h : Tracks old (fun k => node.sub [k]) changes) (childKey : String)
    (newChildSnap : Node) (affectedPath : List String) :
    Tracks old (fun k => (updateChildIn node childKey newChildSnap affectedPath).1.sub [k])
      (changes ++ (updateChildIn node childKey newChildSnap affectedPath).2) := by
  have hset : (fun k => (node.set [childKey] newChildSnap).sub [k]) =
      Function.update (fun k => node.sub [k]) childKey newChildSnap := by
    funext k
    by_cases hk : k = childKey
    · subst hk
      rw [Function.update_self, Tree.sub_set_self]
    · have hapart : Apart [childKey] [k] := by
        constructor <;> simp [List.cons_prefix_cons, hk, Ne.symm hk]
      rw [Function.update_of_ne hk, Tree.sub_set_apart _ _ hapart]
  unfold updateChildIn
  split
  · rwa [List.append_nil]
  · rename_i hdiffer
    split
    · rename_i hleaf
      -- below a leaf there is nothing to delete, so nothing differs
      obtain ⟨v, hv⟩ := Option.isSome_iff_exists.1 hleaf.1
      refine absurd ⟨?_, ?_⟩ hdiffer
      · rw [Tree.eq_single_of_leaf_nil hv, Tree.isEmpty_iff.1 hleaf.2]
        rfl
      · rw [Tree.eq_single_of_leaf_nil hv]
        exact iff_of_true rfl hleaf.2
    · rw [hset, childChange]
      by_cases hnew : newChildSnap.isEmpty
      · rw [if_pos hnew]
        by_cases hchild : (node.sub [childKey]).isEmpty
        · refine absurd ⟨?_, iff_of_true hchild hnew⟩ hdiffer
          rw [Tree.isEmpty_iff.1 hchild, Tree.isEmpty_iff.1 hnew]
        · rw [if_pos (hasChild_iff.2 hchild)]
          exact h.snoc ⟨rfl, hchild, hnew, rfl⟩
      · rw [if_neg hnew]
        by_cases hchild : (node.sub [childKey]).isEmpty
        · rw [if_pos hchild]
          exact h.snoc ⟨rfl, hchild, hnew, rfl⟩
        · rw [if_neg hchild]
          exact h.snoc ⟨rfl, hchild, hnew, rfl, rfl⟩

theorem tracks_updateFullNode {oldSnap : Node} (h : Tracks old (fun k => oldSnap.sub [k]) changes) (newSnap : Node) :
    Tracks old (fun k => newSnap.sub [k]) (changes ++ (updateFullNode oldSnap newSnap).2) := by
  have hmem : ∀ {n : Node} {k : String}, k ∈ n.keys.sort (· ≤ ·) ↔ ¬ (n.sub [k]).isEmpty := by
    intro n k
    rw [Finset.mem_sort, Tree.mem_keys, ne_eq, Tree.isEmpty_iff]
  have hremoved := h.flatMap (g := fun k => if newSnap.hasChild k then oldSnap.sub [k] else Tree.empty)
    (f := fun k => if newSnap.hasChild k then [] else [FChange.childRemoved k (oldSnap.sub [k])])
    (oldSnap.keys.sort_nodup (· ≤ ·)) fun k hk => by
      by_cases hn : newSnap.hasChild k = true
      · exact Or.inl ⟨if_pos hn, (if_pos hn).symm⟩
      · refine Or.inr ⟨_, if_neg hn, rfl, hmem.1 hk, ?_, rfl⟩
        rw [if_neg hn]
        rfl
  have hadded := hremoved.flatMap (g := fun k => newSnap.sub [k])
    (f := fun k => if oldSnap.hasChild k then
      if oldSnap.sub [k] = newSnap.sub [k] then [] else [FChange.childChanged k (newSnap.sub [k]) (oldSnap.sub [k])]
      else [FChange.childAdded k (newSnap.sub [k])])
    (newSnap.keys.sort_nodup (· ≤ ·)) fun k hk => by
      have hn : newSnap.hasChild k = true := hasChild_iff.2 (hmem.1 hk)
      rw [if_pos hn, ite_self]
      by_cases ho : oldSnap.hasChild k = true
      · by_cases heq : oldSnap.sub [k] = newSnap.sub [k]
        · exact Or.inl ⟨by rw [if_pos ho, if_pos heq], heq⟩
        · refine Or.inr ⟨.childChanged k (newSnap.sub [k]) (oldSnap.sub [k]), ?_, ?_⟩
          · rw [if_pos ho, if_neg heq]
          · exact ⟨rfl, hasChild_iff.1 ho, hmem.1 hk, rfl, rfl⟩
      · refine Or.inr ⟨_, if_neg ho, rfl, ?_, hmem.1 hk, rfl⟩
        exact not_not.1 (mt hasChild_iff.2 ho)
  rw [List.append_assoc] at hadded
  convert hadded using 1
  · funext k
    by_cases hk : k ∈ newSnap.keys.sort (· ≤ ·)
    · rw [if_pos hk]
    · have hempty : (newSnap.sub [k]).isEmpty := not_not.1 (mt hmem.2 hk)
      have hn : ¬ newSnap.hasChild k = true := fun hc => hasChild_iff.1 hc hempty
      rw [if_neg hk, if_neg hn, Tree.isEmpty_iff.1 hempty]
      split
      · rfl
      · rename_i hk'
        exact (Tree.isEmpty_iff.1 (not_not.1 (mt hmem.2 hk'))).symm
  · simp only [updateFullNode, Node.enumerateChildren, List.flatMap_map]

end FIndexedFilter

end Anissagram
