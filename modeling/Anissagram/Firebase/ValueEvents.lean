import Anissagram.Firebase.UpToDate
/-
# Observers hear of every change

What an operation tells the accumulator is the difference between the children before and after (`Noted`), over all
the small steps of a merge. So the accumulator never throws, and where the event node of a complete view changes there
is a value event, with the new node (`maybeAddValue_of_ne`).
-/

namespace Anissagram

open PathTree FChildChangeAccumulator

def FViewCache.children (c : FViewCache) (k : String) : Node := c.cachedEventSnap.node.sub [k]

/-- The changes are what happened to the children of the event node. -/
def Noted (c : FViewCache) (result : FViewCache × List FChange) : Prop :=
  ∀ old changes, Tracks old c.children changes → Tracks old result.1.children (changes ++ result.2)

variable {c : FViewCache} {result : FViewCache × List FChange} {ref : FWriteTreeRef}

theorem noted_of_eq {c' : FViewCache} (h : c'.cachedEventSnap.node = c.cachedEventSnap.node) : Noted c (c', []) := by
  intro old changes htracks
  have hsame : c'.children = c.children := by
    funext k
    rw [FViewCache.children, h, FViewCache.children]
  rw [List.append_nil, hsame]
  exact htracks

theorem Noted.of_node_eq {c' : FViewCache} (h : Noted c' result)
    (heq : c'.cachedEventSnap.node = c.cachedEventSnap.node) : Noted c result := by
  intro old changes htracks
  refine h old changes ?_
  have hsame : c'.children = c.children := by
    funext k
    rw [FViewCache.children, heq, FViewCache.children]
  rw [hsame]
  exact htracks

theorem noted_updateChildIn (c : FViewCache) (childKey : String) (newChild : Node) (affectedPath : List String)
    (complete : Bool) :
    Noted c (c.updateEventSnap (FIndexedFilter.updateChildIn c.cachedEventSnap.node childKey newChild affectedPath).1
      complete, (FIndexedFilter.updateChildIn c.cachedEventSnap.node childKey newChild affectedPath).2) :=
  fun _ _ htracks => FIndexedFilter.tracks_updateChildIn htracks childKey newChild affectedPath

theorem noted_updateFullNode (c : FViewCache) (newNode : Node) (complete : Bool) :
    Noted c (c.updateEventSnap (FIndexedFilter.updateFullNode c.cachedEventSnap.node newNode).1 complete,
      (FIndexedFilter.updateFullNode c.cachedEventSnap.node newNode).2) :=
  fun _ _ htracks => FIndexedFilter.tracks_updateFullNode htracks newNode

namespace FViewProcessor

/-! ## The operations -/

theorem noted_generate (c : FViewCache) (p : List String) (ref : FWriteTreeRef) :
    Noted c (generateEventCacheAfterServerEvent c p ref) := by
  unfold generateEventCacheAfterServerEvent
  split
  · exact noted_of_eq rfl
  · cases p with
    | nil => exact noted_updateFullNode c _ _
    | cons k p =>
      simp only
      split
      · exact noted_updateChildIn c k _ p _
      · exact noted_of_eq rfl

theorem noted_applyServerOverwriteTo (c : FViewCache) (p : List String) (snap : Node) (ref : FWriteTreeRef) :
    Noted c (applyServerOverwriteTo c p snap ref) := by
  cases p with
  | nil => exact (noted_generate _ [] ref).of_node_eq rfl
  | cons k p =>
    rw [applyServerOverwriteTo]
    split
    · exact noted_of_eq rfl
    · exact (noted_generate _ (k :: p) ref).of_node_eq rfl

theorem noted_applyUserOverwriteTo (c : FViewCache) (p : List String) (snap : Node) (ref : FWriteTreeRef)
    (o : Option Node) : Noted c (applyUserOverwriteTo c p snap ref o) := by
  cases p with
  | nil => exact noted_updateFullNode c snap true
  | cons k p =>
    simp only [applyUserOverwriteTo]
    split
    · exact noted_of_eq rfl
    · exact noted_updateChildIn c k _ p _

theorem noted_foldl {α : Type} {f : FViewCache → α → FViewCache × List FChange} (hf : ∀ c x, Noted c (f c x))
    (xs : List α) (h : Noted c result) :
    Noted c (xs.foldl (fun applied x => thenApply applied fun c => f c x) result) := by
  induction xs generalizing result with
  | nil => exact h
  | cons x xs ih =>
    refine ih fun old changes htracks => ?_
    have hx := hf result.1 x old _ (h old changes htracks)
    rwa [List.append_assoc] at hx

theorem noted_applyUserMergeTo (c : FViewCache) (p : List String) (children : FCompoundWrite) (ref : FWriteTreeRef)
    (o : Option Node) : Noted c (applyUserMergeTo c p children ref o) :=
  noted_foldl (f := fun c (write : List String × Node) => applyUserOverwriteTo c write.1 write.2 ref o)
    (fun c write => noted_applyUserOverwriteTo c write.1 write.2 ref o) _ (noted_of_eq rfl)

theorem noted_applyServerMergeTo (c : FViewCache) (p : List String) (children : FCompoundWrite)
    (ref : FWriteTreeRef) : Noted c (applyServerMergeTo c p children ref) := by
  rcases applyServerMergeTo_eq c p children ref with ⟨heq, -⟩ | heq
  · rw [heq]
    exact noted_of_eq rfl
  · rw [heq]
    exact noted_foldl (f := fun c (child : String × Node) => applyServerOverwriteTo c [child.1] child.2 ref)
      (fun c child => noted_applyServerOverwriteTo c [child.1] child.2 ref) _ (noted_of_eq rfl)

theorem noted_ackUserWriteOn (c : FViewCache) (p : List String) (affectedTree : FImmutableTree String Unit)
    (ref : FWriteTreeRef) : Noted c (ackUserWriteOn c p affectedTree ref) := by
  unfold ackUserWriteOn
  dsimp only
  split
  · exact noted_of_eq rfl
  · split
    · split
      · exact noted_applyServerOverwriteTo c p _ ref
      · split
        · exact noted_applyServerMergeTo c p _ ref
        · exact noted_of_eq rfl
    · exact noted_applyServerMergeTo c p _ ref

theorem tracks_revertChild {old : String → Node} {changes : List FChange} (h : Tracks old c.children changes)
    (k : String) (p : List String) (ref : FWriteTreeRef) :
    Tracks old (fun j => (revertChild c k p ref).1.sub [j]) (changes ++ (revertChild c k p ref).2) := by
  unfold revertChild
  dsimp only
  split
  · exact FIndexedFilter.tracks_updateChildIn h k _ p
  · split
    · exact FIndexedFilter.tracks_updateChildIn h k _ p
    · split
      · exact FIndexedFilter.tracks_updateChildIn h k _ p
      · rw [List.append_nil]
        exact h

theorem noted_revertUserWriteOn (c : FViewCache) (p : List String) (ref : FWriteTreeRef) :
    Noted c (revertUserWriteOn c p ref) := by
  unfold revertUserWriteOn
  split
  · exact noted_of_eq rfl
  · cases p with
    | nil => exact noted_updateFullNode c _ _
    | cons k p =>
      intro old changes htracks
      have hchild := tracks_revertChild htracks k p ref
      dsimp only
      split
      · have hmore := FIndexedFilter.tracks_updateFullNode hchild
          ((ref.calculateCompleteEventCache c.completeServerSnap).getD Tree.empty)
        rw [List.append_assoc] at hmore
        exact hmore
      · exact hchild

theorem noted_applyOperationOn (c : FViewCache) (op : FOperation) (ref : FWriteTreeRef) (o : Option Node) :
    Noted c (applyOperationOn c op ref o) := by
  cases op with
  | overwrite fromUser path snap =>
    cases fromUser with
    | true => exact noted_applyUserOverwriteTo c path snap ref o
    | false => exact noted_applyServerOverwriteTo c path snap ref
  | merge fromUser path children =>
    cases fromUser with
    | true => exact noted_applyUserMergeTo c path children ref o
    | false => exact noted_applyServerMergeTo c path children ref
  | ackUserWrite path affectedTree revert =>
    cases revert with
    | true => exact noted_revertUserWriteOn c path ref
    | false => exact noted_ackUserWriteOn c path affectedTree ref
  | listenComplete path => exact (noted_generate _ path ref).of_node_eq rfl

/-- The accumulator takes all that an operation tells it. -/
theorem trackChildChanges_applyOperationOn (c : FViewCache) (op : FOperation) (ref : FWriteTreeRef)
    (o : Option Node) : ∃ changeMap, trackChildChanges (applyOperationOn c op ref o).2 = some changeMap ∧
      ∀ k, FChange.Describes (c.children k) ((applyOperationOn c op ref o).1.children k) k
        (SortedDict.get compare changeMap k) := by
  obtain ⟨changeMap, htrack, -, hdesc⟩ := noted_applyOperationOn c op ref o _ [] (tracks_nil c.children)
  exact ⟨changeMap, htrack, hdesc⟩

/-- **A change of a complete view is a value event.** -/
theorem maybeAddValue_of_ne {c' : FViewCache} {changeMap : List (String × FChange)}
    (hdesc : ∀ k, FChange.Describes (c.children k) (c'.children k) k (SortedDict.get compare changeMap k))
    (hc : c'.cachedEventSnap.isFullyInitialized = true)
    (hne : c.cachedEventSnap.isFullyInitialized = true → c.cachedEventSnap.node ≠ c'.cachedEventSnap.node) :
    maybeAddValue c c' changeMap = some c'.cachedEventSnap.node := by
  simp only [maybeAddValue, hc, if_true]
  rw [if_pos]
  cases hold : c.cachedEventSnap.isFullyInitialized with
  | false => simp
  | true =>
    have hnode := hne hold
    have hcomplete : c.completeEventSnap = some c.cachedEventSnap.node := if_pos hold
    by_cases hleaf : (c'.cachedEventSnap.node.leaf []).isSome = true ∨ c'.cachedEventSnap.node.isEmpty
    · have hdiffer : (c.completeEventSnap != some c'.cachedEventSnap.node) = true := by
        rw [hcomplete, bne_iff_ne]
        exact fun h => hnode (Option.some.inj h)
      rcases hleaf with h | h <;> simp [h, hdiffer]
    · -- without a change of a child, the nodes would be the same
      obtain ⟨hleaf', hne'⟩ := not_or.1 hleaf
      have hmap : changeMap ≠ [] := by
        rintro rfl
        have hsame : ∀ k, c.cachedEventSnap.node.sub [k] = c'.cachedEventSnap.node.sub [k] := fun k => hdesc k
        cases hroot : c.cachedEventSnap.node.leaf [] with
        | some v =>
          refine hne' (Tree.isEmpty_iff.2 (Tree.ext_leaf fun q => ?_))
          cases q with
          | nil => exact Option.not_isSome_iff_eq_none.1 hleaf'
          | cons k q =>
            have hk := congrArg (fun t => Tree.leaf t q) (hsame k)
            rw [Tree.eq_single_of_leaf_nil hroot] at hk
            exact hk.symm
        | none =>
          refine hnode (Tree.ext_leaf fun q => ?_)
          cases q with
          | nil => rw [hroot, Option.not_isSome_iff_eq_none.1 hleaf']
          | cons k q => exact congrArg (fun t => Tree.leaf t q) (hsame k)
      simp [hmap]

theorem maybeAddValue_eq_some {c' : FViewCache} {changeMap : List (String × FChange)} {n : Node}
    (h : maybeAddValue c c' changeMap = some n) :
    c'.cachedEventSnap.isFullyInitialized = true ∧ n = c'.cachedEventSnap.node := by
  unfold maybeAddValue at h
  simp only at h
  split at h
  · rename_i hc
    split at h
    · exact ⟨hc, (Option.some.inj h).symm⟩
    · cases h
  · cases h

end FViewProcessor

end Anissagram
