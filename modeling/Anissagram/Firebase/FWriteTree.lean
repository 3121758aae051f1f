import Anissagram.Firebase.FCompoundWrite
/-
# `FWriteTree` (`Core/FWriteTree.m`)

The writes of this device that the server has not answered yet, each as a record (`FWriteRecord.m`), and
`visibleWrites`, their merge, from which the views compute what they show. `removeWriteId` takes a record out when the
server answers, and saves itself the merging anew where it can: where the removed write was shadowed, and where it
overlaps with no other one. `visibleWrites` stays the merge of the records that are left (`removeWriteId_oldest`) as
long as answers come in the order of the writes and no later merge reaches from above below the removed write
(`Orderly`). For what it looks at are the paths of the records, and a merge writes below its path.

The filters of transactions (`excludeWriteIds:`, `includeHiddenWrites:`) are modelled, the transactions are not; the
app has none.
-/

namespace Anissagram

open PathTree

inductive FWriteRecord.Kind where
  | overwrite (node : Node)
  | merge (compoundWrite : FCompoundWrite)

structure FWriteRecord where
  path : List String
  kind : FWriteRecord.Kind
  writeId : Int
  visible : Bool

namespace FWriteRecord

/-- The writes a record stands for. -/
def writes (record : FWriteRecord) : List (List String × Node) :=
  match record.kind with
  | .overwrite node => [(record.path, node)]
  | .merge compoundWrite => compoundWrite.enumerateWrites.map fun write => (record.path ++ write.1, write.2)

/-- `record:containsPath:` (:462). -/
def containsPath (record : FWriteRecord) (path : List String) : Bool :=
  match record.kind with
  | .overwrite _ => decide (record.path <+: path)
  | .merge compoundWrite => compoundWrite.enumerateWrites.any fun write => decide (record.path ++ write.1 <+: path)

theorem containsPath_iff {record : FWriteRecord} {path : List String} :
    record.containsPath path = true ↔ Covered record.writes path := by
  unfold containsPath writes Covered
  split
  · simp
  · simp only [List.any_eq_true, decide_eq_true_eq, List.mem_map]
    constructor
    · rintro ⟨x, hx, hp⟩
      exact ⟨_, ⟨x, hx, rfl⟩, hp⟩
    · rintro ⟨_, ⟨x, hx, rfl⟩, hp⟩
      exact ⟨x, hx, hp⟩

theorem prefix_of_mem_writes {record : FWriteRecord} {w : List String × Node} (h : w ∈ record.writes) :
    record.path <+: w.1 := by
  unfold writes at h
  split at h
  · rw [List.mem_singleton.1 h]
  · obtain ⟨x, -, rfl⟩ := List.mem_map.1 h
    exact List.prefix_append _ _

/-- No write of a record lies below another one of it. -/
theorem antichain {record : FWriteRecord} {x y : List String × Node} (hx : x ∈ record.writes) (hy : y ∈ record.writes)
    (h : x.1 <+: y.1) : x.1 = y.1 := by
  unfold writes at hx hy
  cases hm : record.kind with
  | overwrite node =>
    rw [hm] at hx hy
    rw [List.mem_singleton.1 hx, List.mem_singleton.1 hy]
  | merge merge =>
    rw [hm] at hx hy
    obtain ⟨x', hx', rfl⟩ := List.mem_map.1 hx
    obtain ⟨y', hy', rfl⟩ := List.mem_map.1 hy
    have hxs : (merge.writeTree.valueAtPath x'.1).isSome := by
      rw [FCompoundWrite.mem_enumerateWrites.1 hx']
      rfl
    have hys : (merge.writeTree.valueAtPath y'.1).isSome := by
      rw [FCompoundWrite.mem_enumerateWrites.1 hy']
      rfl
    exact congrArg (record.path ++ ·) (merge.leaf x'.1 y'.1 hxs hys ((List.prefix_append_right_inj _).1 h))

end FWriteRecord

/-- `FCacheNode` (`Core/View/FCacheNode.m`). -/
structure FCacheNode where
  node : Node
  isFullyInitialized : Bool
  isFiltered : Bool

namespace FCacheNode

def isCompleteForChild (c : FCacheNode) (childKey : String) : Bool :=
  (c.isFullyInitialized && !c.isFiltered) || c.node.hasChild childKey

def isCompleteForPath (c : FCacheNode) (path : List String) : Bool :=
  match path with
  | [] => c.isFullyInitialized && !c.isFiltered
  | childKey :: _ => c.isCompleteForChild childKey

theorem isCompleteForPath_of_complete {c : FCacheNode} (h : c.isFullyInitialized = true) (hf : c.isFiltered = false)
    (path : List String) : c.isCompleteForPath path = true := by
  cases path <;> simp [isCompleteForPath, isCompleteForChild, h, hf]

end FCacheNode

structure FWriteTree where
  visibleWrites : FCompoundWrite
  allWrites : List FWriteRecord
  lastWriteId : Int

namespace FWriteTree

/-- `init` (:58). -/
def init : FWriteTree where
  visibleWrites := .emptyWrite
  allWrites := []
  lastWriteId := -1

/-- `addOverwriteAtPath:newData:writeId:isVisible:` (:81). -/
def addOverwriteAtPath (t : FWriteTree) (path : List String) (newData : Node) (writeId : Int) (visible : Bool) :
    FWriteTree where
  visibleWrites := if visible then t.visibleWrites.addWrite newData path else t.visibleWrites
  allWrites := t.allWrites ++ [⟨path, .overwrite newData, writeId, visible⟩]
  lastWriteId := writeId

/-- `addMergeAtPath:changedChildren:writeId:` (:104). -/
def addMergeAtPath (t : FWriteTree) (path : List String) (changedChildren : FCompoundWrite) (writeId : Int) :
    FWriteTree where
  visibleWrites := t.visibleWrites.addCompoundWrite changedChildren path
  allWrites := t.allWrites ++ [⟨path, .merge changedChildren, writeId, true⟩]
  lastWriteId := writeId

/-- `writeForId:` (:119). -/
def writeForId (t : FWriteTree) (writeId : Int) : Option FWriteRecord :=
  t.allWrites.find? fun write => write.writeId = writeId

/-- One record of `layerTreeFromWrites:filter:treeRoot:` (:513). -/
def layerRecord (treeRoot : List String) (compoundWrite : FCompoundWrite) (record : FWriteRecord) : FCompoundWrite :=
  let writePath := record.path
  match record.kind with
  | .overwrite overwrite =>
    if treeRoot <+: writePath then compoundWrite.addWrite overwrite (writePath.drop treeRoot.length)
    else if writePath <+: treeRoot then compoundWrite.addWrite (overwrite.sub (treeRoot.drop writePath.length)) []
    else compoundWrite
  | .merge merge =>
    if treeRoot <+: writePath then compoundWrite.addCompoundWrite merge (writePath.drop treeRoot.length)
    else if writePath <+: treeRoot then
      let relativePath := treeRoot.drop writePath.length
      if relativePath = [] then compoundWrite.addCompoundWrite merge []
      else
        match merge.completeNodeAtPath relativePath with
        | some child =>
          let deepNode := child.sub relativePath.tail
          compoundWrite.addWrite deepNode []
        | none => compoundWrite
    else compoundWrite

/-- `layerTreeFromWrites:filter:treeRoot:` (:513). -/
def layerTreeFromWrites (writes : List FWriteRecord) (filter : FWriteRecord → Bool) (treeRoot : List String) :
    FCompoundWrite :=
  writes.foldl (fun compoundWrite record => if filter record then layerRecord treeRoot compoundWrite record
    else compoundWrite) .emptyWrite

/-- `defaultFilter` (:497). -/
def defaultFilter (_ : FWriteRecord) : Bool := true

/-- `resetTree` (:480). -/
def resetTree (t : FWriteTree) : FWriteTree where
  visibleWrites := layerTreeFromWrites t.allWrites defaultFilter []
  allWrites := t.allWrites
  lastWriteId := (t.allWrites.getLast?.map FWriteRecord.writeId).getD (-1)

/-- The loop of `removeWriteId:` (:154), over the records that are left and their places, from the last one down. The
flags are `removedWriteWasVisible` and `removedWriteOverlapsWithOtherWrites`. -/
def overlaps (writeToRemove : FWriteRecord) (index : Nat) : List (FWriteRecord × Nat) → Bool × Bool → Bool × Bool
  | [], flags => flags
  | (currentWrite, i) :: rest, (removedWriteWasVisible, removedWriteOverlapsWithOtherWrites) =>
    if removedWriteWasVisible then
      if currentWrite.visible then
        if index ≤ i ∧ currentWrite.containsPath writeToRemove.path then
          overlaps writeToRemove index rest (false, removedWriteOverlapsWithOtherWrites)
        else if writeToRemove.path <+: currentWrite.path then
          overlaps writeToRemove index rest (removedWriteWasVisible, true)
        else overlaps writeToRemove index rest (removedWriteWasVisible, removedWriteOverlapsWithOtherWrites)
      else overlaps writeToRemove index rest (removedWriteWasVisible, removedWriteOverlapsWithOtherWrites)
    else (removedWriteWasVisible, removedWriteOverlapsWithOtherWrites)

/-- `removeWriteId:` (:137) once the record is out of `allWrites`. -/
def afterRemoval (t : FWriteTree) (writeToRemove : FWriteRecord) (index : Nat) : FWriteTree × Bool :=
  let (removedWriteWasVisible, removedWriteOverlapsWithOtherWrites) :=
    overlaps writeToRemove index t.allWrites.zipIdx.reverse (writeToRemove.visible, false)
  if !removedWriteWasVisible then (t, false)
  else if removedWriteOverlapsWithOtherWrites then (t.resetTree, true)
  else
    match writeToRemove.kind with
    | .overwrite _ => ({ t with visibleWrites := t.visibleWrites.removeWriteAtPath writeToRemove.path }, true)
    | .merge merge =>
      let visibleWrites := merge.enumerateWrites.foldl
        (fun visibleWrites write => visibleWrites.removeWriteAtPath (writeToRemove.path ++ write.1)) t.visibleWrites
      ({ t with visibleWrites := visibleWrites }, true)

/-- `removeWriteId:` (:137); an unknown id traps (:147). The flag says whether views have to look again. -/
def removeWriteId (t : FWriteTree) (writeId : Int) : Option (FWriteTree × Bool) := do
  let index ← t.allWrites.findIdx? fun record => record.writeId = writeId
  let writeToRemove ← t.allWrites[index]?
  some ({ t with allWrites := t.allWrites.eraseIdx index }.afterRemoval writeToRemove index)

/-- `removeAllWrites` (:197). -/
def removeAllWrites (t : FWriteTree) : FWriteTree × List FWriteRecord :=
  ({ t with visibleWrites := .emptyWrite, allWrites := [] }, t.allWrites)

/-- `shadowingWriteAtPath:` (:407). -/
def shadowingWriteAtPath (t : FWriteTree) (path : List String) : Option Node :=
  t.visibleWrites.completeNodeAtPath path

/-- `calculateCompleteEventCacheAtPath:completeServerCache:excludeWriteIds:includeHiddenWrites:` (:219). -/
def calculateCompleteEventCacheAtPath (t : FWriteTree) (treePath : List String) (completeServerCache : Option Node)
    (writeIdsToExclude : Option (List Int)) (includeHiddenWrites : Bool) : Option Node :=
  if writeIdsToExclude = none ∧ includeHiddenWrites = false then
    match t.visibleWrites.completeNodeAtPath treePath with
    | some shadowingNode => some shadowingNode
    | none =>
      let subMerge := t.visibleWrites.childCompoundWriteAtPath treePath
      if subMerge.isEmpty then completeServerCache
      else if completeServerCache = none ∧ subMerge.hasCompleteWriteAtPath [] = false then none
      else some (subMerge.applyToNode (completeServerCache.getD Tree.empty))
  else
    let merge := t.visibleWrites.childCompoundWriteAtPath treePath
    if !includeHiddenWrites && merge.isEmpty then completeServerCache
    else if includeHiddenWrites = false ∧ completeServerCache = none ∧ merge.hasCompleteWriteAtPath [] = false then none
    else
      let filter (record : FWriteRecord) : Bool :=
        (record.visible || includeHiddenWrites) &&
          (!(writeIdsToExclude.getD []).contains record.writeId &&
            (decide (record.path <+: treePath) || decide (treePath <+: record.path)))
      let mergeAtPath := layerTreeFromWrites t.allWrites filter treePath
      some (mergeAtPath.applyToNode (completeServerCache.getD Tree.empty))

/-- `calculateCompleteEventChildrenAtPath:completeServerChildren:` (:286). -/
def calculateCompleteEventChildrenAtPath (t : FWriteTree) (treePath : List String) (completeServerChildren : Node) :
    Node :=
  match t.visibleWrites.completeNodeAtPath treePath with
  | some topLevelSet => if (topLevelSet.leaf []).isSome then Tree.empty else topLevelSet
  | none =>
    let merge := t.visibleWrites.childCompoundWriteAtPath treePath
    let completeChildren := completeServerChildren.enumerateChildren.foldl
      (fun completeChildren child =>
        completeChildren.set [child.1] ((merge.childCompoundWriteAtPath [child.1]).applyToNode child.2)) Tree.empty
    merge.completeChildren.foldl (fun completeChildren node => completeChildren.set [node.1] node.2) completeChildren

/-- `calculateEventCacheAfterServerOverwriteAtPath:childPath:existingEventSnap:existingServerSnap:` (:342); `none`
where a write shadows the change. -/
def calculateEventCacheAfterServerOverwriteAtPath (t : FWriteTree) (treePath childPath : List String)
    (existingServerSnap : Node) : Option Node :=
  let path := treePath ++ childPath
  if t.visibleWrites.hasCompleteWriteAtPath path then none
  else
    let childMerge := t.visibleWrites.childCompoundWriteAtPath path
    if childMerge.isEmpty then some (existingServerSnap.sub childPath)
    else some (childMerge.applyToNode (existingServerSnap.sub childPath))

/-- `calculateCompleteChildAtPath:childKey:cache:` (:382). -/
def calculateCompleteChildAtPath (t : FWriteTree) (treePath : List String) (childKey : String)
    (existingServerCache : FCacheNode) : Option Node :=
  let path := treePath ++ [childKey]
  match t.visibleWrites.completeNodeAtPath path with
  | some shadowingNode => some shadowingNode
  | none =>
    if existingServerCache.isCompleteForChild childKey then
      let childMerge := t.visibleWrites.childCompoundWriteAtPath path
      some (childMerge.applyToNode (existingServerCache.node.sub [childKey]))
    else none

/-! ## The merge of the records -/

/-- The writes of the records, the oldest first. -/
def writes (t : FWriteTree) : List (List String × Node) := t.allWrites.flatMap FWriteRecord.writes

/-- `visibleWrites` is the merge of the records, one by one. -/
def Layered (t : FWriteTree) : Prop := t.visibleWrites.Shows t.writes

variable {t t' : FWriteTree}

theorem layered_init : init.Layered := FCompoundWrite.shows_emptyWrite

theorem Layered.addOverwriteAtPath (h : t.Layered) (path : List String) (newData : Node) (writeId : Int) :
    (t.addOverwriteAtPath path newData writeId true).Layered := by
  unfold Layered writes FWriteTree.addOverwriteAtPath
  rw [if_pos rfl, List.flatMap_append]
  exact FCompoundWrite.Shows.addWrite h newData path

theorem Layered.addMergeAtPath (h : t.Layered) (path : List String) (changedChildren : FCompoundWrite)
    (writeId : Int) : (t.addMergeAtPath path changedChildren writeId).Layered := by
  unfold Layered writes FWriteTree.addMergeAtPath
  rw [List.flatMap_append, List.flatMap_singleton]
  exact FCompoundWrite.Shows.addCompoundWrite h changedChildren path

theorem shows_layerRecord {w : FCompoundWrite} {ws : List (List String × Node)} (h : w.Shows ws)
    (record : FWriteRecord) : (layerRecord [] w record).Shows (ws ++ record.writes) := by
  unfold layerRecord FWriteRecord.writes
  split
  · rw [if_pos List.nil_prefix]
    exact h.addWrite _ _
  · rw [if_pos List.nil_prefix]
    exact h.addCompoundWrite _ _

theorem layered_resetTree (t : FWriteTree) : t.resetTree.Layered := by
  have hall : ∀ (records : List FWriteRecord) (w : FCompoundWrite) (ws : List (List String × Node)), w.Shows ws →
      (records.foldl (fun w record => if defaultFilter record then layerRecord [] w record else w) w).Shows
        (ws ++ records.flatMap FWriteRecord.writes) := by
    intro records
    induction records with
    | nil =>
      intro w ws h
      rwa [List.flatMap_nil, List.append_nil]
    | cons record records ih =>
      intro w ws h
      rw [List.foldl_cons, List.flatMap_cons, ← List.append_assoc]
      exact ih _ _ (shows_layerRecord h record)
  exact hall t.allWrites .emptyWrite [] FCompoundWrite.shows_emptyWrite

/-! ### The shortcut of `removeWriteId:` -/

section
variable {r c : FWriteRecord} {index : Nat}

/-- A record that shadows the removed write was met, or none did and the paths were compared. -/
theorem overlaps_cases (r : FWriteRecord) (index : Nat) (l : List (FWriteRecord × Nat))
    (hv : ∀ x ∈ l, x.1.visible = true) (b : Bool) :
    ((overlaps r index l (true, b)).1 = false ∧ ∃ x ∈ l, index ≤ x.2 ∧ x.1.containsPath r.path = true) ∨
      (∀ x ∈ l, ¬ (index ≤ x.2 ∧ x.1.containsPath r.path = true)) ∧
        overlaps r index l (true, b) = (true, b || l.any fun x => decide (r.path <+: x.1.path)) := by
  induction l generalizing b with
  | nil => exact Or.inr ⟨by simp, by simp [overlaps]⟩
  | cons x l ih =>
    obtain ⟨currentWrite, i⟩ := x
    have hcur : currentWrite.visible = true := hv _ List.mem_cons_self
    have hl : ∀ x ∈ l, x.1.visible = true := fun x hx => hv x (List.mem_cons_of_mem _ hx)
    by_cases hc : index ≤ i ∧ currentWrite.containsPath r.path = true
    · left
      have hstop : overlaps r index l (false, b) = (false, b) := by cases l <;> simp [overlaps]
      exact ⟨by simp [overlaps, hcur, hc, hstop], _, List.mem_cons_self, hc⟩
    · have hstep : overlaps r index ((currentWrite, i) :: l) (true, b) =
          overlaps r index l (true, b || decide (r.path <+: currentWrite.path)) := by
        rw [overlaps, if_pos rfl, if_pos hcur, if_neg hc]
        by_cases hp : r.path <+: currentWrite.path <;> simp [hp]
      rw [hstep]
      rcases ih hl (b || decide (r.path <+: currentWrite.path)) with ⟨h1, y, hy, hyc⟩ | ⟨h1, h2⟩
      · exact Or.inl ⟨h1, y, List.mem_cons_of_mem _ hy, hyc⟩
      · refine Or.inr ⟨fun y hy => ?_, ?_⟩
        · rcases List.mem_cons.1 hy with rfl | hy
          · exact hc
          · exact h1 y hy
        · rw [h2, List.any_cons, Bool.or_assoc]

/-- The removed write is shadowed, or a later record is below it, or no later write is at or below one of its writes
unless it lies below another later write. -/
def Orderly (r : FWriteRecord) (later : List FWriteRecord) : Prop :=
  (∃ c ∈ later, c.containsPath r.path = true) ∨ (∃ c ∈ later, r.path <+: c.path) ∨
    ∀ x ∈ r.writes, ∀ w ∈ later.flatMap FWriteRecord.writes, x.1 <+: w.1 →
      ∃ w' ∈ later.flatMap FWriteRecord.writes, w'.1 <+: x.1 ∧ w'.1 ≠ x.1

/-- Taking the writes of the oldest record out of the merge leaves the merge of the others just when the later writes
keep clear of them. -/
theorem shows_removeWrites_iff {v : FCompoundWrite} {rs ls : List (List String × Node)} (hv : v.Shows (rs ++ ls))
    (hrs : ∀ x ∈ rs, ∀ y ∈ rs, x.1 <+: y.1 → x.1 = y.1) :
    ((rs.map Prod.fst).foldl FCompoundWrite.removeWriteAtPath v).Shows ls ↔
      ∀ x ∈ rs, ∀ w ∈ ls, x.1 <+: w.1 → ∃ w' ∈ ls, w'.1 <+: x.1 ∧ w'.1 ≠ x.1 := by
  have hview : ∀ y, v.view y ≠ none ↔ Covered rs y ∨ Covered ls y := by
    intro y
    rw [hv y, shown_ne_none, covered_append]
  -- what lies above a removed write are later writes
  have habove : ∀ x ∈ rs, v.NothingAbove x.1 ↔ ¬ ∃ w ∈ ls, w.1 <+: x.1 ∧ w.1 ≠ x.1 := by
    intro x hx
    constructor
    · rintro hno ⟨w, hw, hwx, hne⟩
      exact (hview w.1).2 (Or.inr ⟨w, hw, List.prefix_refl _⟩) (hno w.1 hwx hne)
    · intro hno y hy hne
      by_contra hc
      rcases (hview y).1 hc with ⟨z, hz, hzy⟩ | ⟨w, hw, hwy⟩
      · have hzx := hrs z hz x hx (hzy.trans hy)
        exact hne (hy.eq_of_length_le (hzx ▸ hzy).length_le)
      · refine hno ⟨w, hw, hwy.trans hy, fun hwx => ?_⟩
        exact hne (hy.eq_of_length_le (hwx ▸ hwy).length_le)
  have hps : ∀ p ∈ rs.map Prod.fst, ∀ p' ∈ rs.map Prod.fst, p <+: p' → p = p' := by
    rintro _ hp _ hp'
    obtain ⟨x, hx, rfl⟩ := List.mem_map.1 hp
    obtain ⟨y, hy, rfl⟩ := List.mem_map.1 hp'
    exact hrs x hx y hy
  have hremove := FCompoundWrite.view_removeWrites (w := v) hps
  constructor
  · intro hshows x hx w hw hxw
    by_contra hno
    have hcovered : shown ls w.1 ≠ none := shown_ne_none.2 ⟨w, hw, List.prefix_refl _⟩
    rcases hremove w.1 with ⟨-, hnone⟩ | ⟨hkept, -⟩
    · exact hcovered ((hshows w.1).symm.trans hnone)
    · exact hkept ⟨x.1, List.mem_map_of_mem hx, hxw, (habove x hx).2 hno⟩
  · intro hclear q
    rcases hremove q with ⟨⟨p, hp, hpq, hab⟩, hnone⟩ | ⟨hkept, heq⟩
    · obtain ⟨x, hx, rfl⟩ := List.mem_map.1 hp
      have hno := (habove x hx).1 hab
      rw [hnone, shown_of_not_covered]
      rintro ⟨w, hw, hwq⟩
      rcases List.prefix_or_prefix_of_prefix hwq hpq with hwx | hxw
      · by_cases hne : w.1 = x.1
        · exact hno (hclear x hx w hw (hne ▸ List.prefix_refl _))
        · exact hno ⟨w, hw, hwx, hne⟩
      · exact hno (hclear x hx w hw hxw)
    · rw [heq, hv q]
      by_cases hl : Covered ls q
      · exact shown_append_of_covered hl
      · refine shown_append_of_not_covered fun ⟨x, hx, hxq⟩ => hkept ⟨x.1, List.mem_map_of_mem hx, hxq, ?_⟩
        refine (habove x hx).2 fun ⟨w, hw, hwx, _⟩ => hl ⟨w, hw, hwx.trans hxq⟩

/-- The direct way out of `removeWriteId:`. -/
theorem afterRemoval_of_overlaps (h : overlaps r index t.allWrites.zipIdx.reverse (r.visible, false) = (true, false)) :
    t.afterRemoval r index =
      ({ t with visibleWrites := (r.writes.map Prod.fst).foldl .removeWriteAtPath t.visibleWrites }, true) := by
  rw [afterRemoval, h]
  unfold FWriteRecord.writes
  cases r.kind with
  | overwrite node => rfl
  | merge merge => simp [List.foldl_map]

/-- **The oldest record is removed**: the others stay, and `visibleWrites` is their merge if and only if they are
`Orderly`. -/
theorem removeWriteId_oldest (h : t.Layered) {later : List FWriteRecord} (hall : t.allWrites = r :: later)
    (hv : ∀ c ∈ t.allWrites, c.visible = true) :
    ∃ t' changed, t.removeWriteId r.writeId = some (t', changed) ∧ t'.allWrites = later ∧
      (changed = false → t'.visibleWrites = t.visibleWrites) ∧ (t'.Layered ↔ Orderly r later) := by
  have hr : r.visible = true := hv r (by rw [hall]; exact List.mem_cons_self)
  have hlater : ∀ x ∈ later.zipIdx.reverse, x.1 ∈ later := by
    intro x hx
    exact List.fst_mem_of_mem_zipIdx (List.mem_reverse.1 hx)
  have hvlater : ∀ x ∈ later.zipIdx.reverse, x.1.visible = true := by
    intro x hx
    refine hv x.1 ?_
    rw [hall]
    exact List.mem_cons_of_mem _ (hlater x hx)
  have hmem : ∀ c ∈ later, ∃ x ∈ later.zipIdx.reverse, x.1 = c := by
    intro c hc
    obtain ⟨i, hi, rfl⟩ := List.mem_iff_getElem.1 hc
    exact ⟨(later[i], i), List.mem_reverse.2 (List.mem_zipIdx_iff_getElem?.2 (by simp [hi])), rfl⟩
  have hshows : t.visibleWrites.Shows (r.writes ++ later.flatMap FWriteRecord.writes) := by
    have hw : t.writes = r.writes ++ later.flatMap FWriteRecord.writes := by rw [writes, hall, List.flatMap_cons]
    exact hw ▸ h
  have hremove : t.removeWriteId r.writeId = some ({ t with allWrites := later }.afterRemoval r 0) := by
    simp [removeWriteId, hall, List.findIdx?_cons]
  rw [hremove]
  rcases overlaps_cases r 0 later.zipIdx.reverse hvlater false with
    ⟨hstop, x, hx, -, hcontains⟩ | ⟨hno, heq⟩
  · -- shadowed by a later write
    refine ⟨{ t with allWrites := later }, false, ?_, rfl, fun _ => rfl, ?_⟩
    · rw [afterRemoval, hr, show overlaps r 0 later.zipIdx.reverse (true, false) =
        (false, (overlaps r 0 later.zipIdx.reverse (true, false)).2) from Prod.ext hstop rfl]
      rfl
    · have hcovered : Covered (later.flatMap FWriteRecord.writes) r.path := by
        obtain ⟨w, hw, hwr⟩ := FWriteRecord.containsPath_iff.1 hcontains
        exact ⟨w, List.mem_flatMap.2 ⟨x.1, hlater x hx, hw⟩, hwr⟩
      have hbelow : ∀ w ∈ r.writes, r.path <+: w.1 := fun w hw => FWriteRecord.prefix_of_mem_writes hw
      exact iff_of_true (fun q => (hshows q).trans (shown_of_later_cover hbelow hcovered q))
        (Or.inl ⟨x.1, hlater x hx, hcontains⟩)
  · rw [Bool.false_or] at heq
    cases hover : later.zipIdx.reverse.any fun x => decide (r.path <+: x.1.path) with
    | true =>
      -- merged anew
      refine ⟨{ t with allWrites := later }.resetTree, true, ?_, rfl, fun hc => absurd hc (by decide), ?_⟩
      · rw [afterRemoval, hr, heq, hover]
        rfl
      · obtain ⟨x, hx, hpath⟩ := List.any_eq_true.1 hover
        exact iff_of_true (layered_resetTree _) (Or.inr (Or.inl ⟨x.1, hlater x hx, of_decide_eq_true hpath⟩))
    | false =>
      have hdirect := afterRemoval_of_overlaps (t := { t with allWrites := later }) (r := r) (by rw [hr, heq, hover])
      refine ⟨_, true, congrArg some hdirect, rfl, fun hc => absurd hc (by decide), ?_⟩
      have hiff := shows_removeWrites_iff hshows (fun x hx y hy => FWriteRecord.antichain hx hy)
      refine hiff.trans ⟨fun hclear => Or.inr (Or.inr hclear), ?_⟩
      rintro (⟨c, hc, hcontains⟩ | ⟨c, hc, hpath⟩ | hclear)
      · obtain ⟨x, hx, rfl⟩ := hmem c hc
        exact absurd ⟨Nat.zero_le _, hcontains⟩ (hno x hx)
      · obtain ⟨x, hx, rfl⟩ := hmem c hc
        exact absurd (decide_eq_true hpath) (by simpa using List.any_eq_false.1 hover x hx)
      · exact hclear

/-- **The shortcut of `removeWriteId:` is exact**: the oldest write is taken out of the merge as if the others were
merged anew, if and only if they are `Orderly`. -/
theorem removeWriteId_eq_reset_iff (h : t.Layered) {later : List FWriteRecord} (hall : t.allWrites = r :: later)
    (hv : ∀ c ∈ t.allWrites, c.visible = true) :
    ((t.removeWriteId r.writeId).map fun x => x.1.visibleWrites) =
      some (layerTreeFromWrites later defaultFilter []) ↔ Orderly r later := by
  obtain ⟨t', changed, hremove, hlater, -, hiff⟩ := removeWriteId_oldest h hall hv
  have hreset : FCompoundWrite.Shows (layerTreeFromWrites later defaultFilter []) t'.writes := by
    have hlayer := layered_resetTree t'
    unfold Layered writes at hlayer
    rw [writes, hlater]
    simpa [resetTree, hlater] using hlayer
  rw [hremove, ← hiff, Option.map_some, Option.some_inj]
  constructor
  · intro heq
    dsimp only at heq
    rw [Layered, heq]
    exact hreset
  · intro hlayered
    exact FCompoundWrite.Shows.eq hlayered hreset

/-- A merge at the root that waits below the removed write is taken out with it. -/
theorem removeWriteId_loses_merge :
    (((init.addOverwriteAtPath ["a"] Tree.empty 0 true).addMergeAtPath []
      (FCompoundWrite.emptyWrite.addWrite (Tree.single (.string "x")) ["a", "b"]) 1).removeWriteId 0).map
        (fun x => x.1.visibleWrites) ≠ some (layerTreeFromWrites
          [⟨[], .merge (FCompoundWrite.emptyWrite.addWrite (Tree.single (.string "x")) ["a", "b"]), 1, true⟩]
          defaultFilter []) := by
  have hlayered := (layered_init.addOverwriteAtPath ["a"] Tree.empty 0).addMergeAtPath []
    (FCompoundWrite.emptyWrite.addWrite (Tree.single (.string "x")) ["a", "b"]) 1
  refine (removeWriteId_eq_reset_iff (r := ⟨["a"], .overwrite Tree.empty, 0, true⟩) hlayered rfl ?_).not.2 ?_
  · intro c hc
    rcases List.mem_cons.1 hc with rfl | hc
    · rfl
    · rw [List.mem_singleton.1 hc]
  · have hwrites : FWriteRecord.writes ⟨[], .merge (FCompoundWrite.emptyWrite.addWrite (Tree.single (.string "x"))
        ["a", "b"]), 1, true⟩ = [(["a", "b"], Tree.single (.string "x"))] := rfl
    rintro (⟨c, hc, hcontains⟩ | ⟨c, hc, hpath⟩ | hclear)
    · rw [List.mem_singleton.1 hc] at hcontains
      exact absurd hcontains (by decide)
    · rw [List.mem_singleton.1 hc] at hpath
      exact absurd hpath (by decide)
    · obtain ⟨w, hw, hwx, -⟩ := hclear (["a"], Tree.empty) (List.mem_singleton.2 rfl) (["a", "b"], Tree.single (.string "x"))
        (List.mem_flatMap.2 ⟨_, List.mem_singleton.2 rfl, List.mem_singleton.2 rfl⟩) (by decide)
      obtain ⟨c, hc, hw⟩ := List.mem_flatMap.1 hw
      rw [List.mem_singleton.1 hc, hwrites] at hw
      rw [List.mem_singleton.1 hw] at hwx
      exact absurd hwx (by decide)

/-- **Merged writes are the writes one after the other**: the records merged into one tree make of a node what their
writes make of it in their order. -/
theorem applyToNode_layerTreeFromWrites {s : Node} (records : List FWriteRecord)
    (h : NoLeafAbove s (shown (records.flatMap FWriteRecord.writes))) :
    (layerTreeFromWrites records defaultFilter []).applyToNode s = s.update (records.flatMap FWriteRecord.writes) := by
  have hshows : FCompoundWrite.Shows (layerTreeFromWrites records defaultFilter [])
      (records.flatMap FWriteRecord.writes) := layered_resetTree ⟨.emptyWrite, records, 0⟩
  have hview : (layerTreeFromWrites records defaultFilter []).view = shown (records.flatMap FWriteRecord.writes) :=
    funext hshows
  refine Tree.ext_leaf fun q => ?_
  rw [FCompoundWrite.leaf_applyToNode (hview ▸ h), leaf_update_shown h, hview]

/-- A value, and then a child of it. -/
theorem applyToNode_value_child :
    (layerTreeFromWrites [⟨["a"], .overwrite (Tree.single (.string "x")), 0, true⟩,
      ⟨["a", "b"], .overwrite (Tree.single (.string "y")), 1, true⟩] defaultFilter []).applyToNode Tree.empty =
        Tree.empty.update [(["a"], Tree.single (.string "x")), (["a", "b"], Tree.single (.string "y"))] :=
  applyToNode_layerTreeFromWrites [⟨["a"], .overwrite (Tree.single (.string "x")), 0, true⟩,
    ⟨["a", "b"], .overwrite (Tree.single (.string "y")), 1, true⟩] fun _ _ _ _ _ => rfl

end

end FWriteTree

/-- `FWriteTreeRef` (`Core/FWriteTreeRef.m`): the writes as a view at `path` asks for them. -/
structure FWriteTreeRef where
  path : List String
  writeTree : FWriteTree

namespace FWriteTreeRef

/-- `calculateCompleteEventCacheWithCompleteServerCache:` (:63). -/
def calculateCompleteEventCache (ref : FWriteTreeRef) (completeServerCache : Option Node) : Option Node :=
  ref.writeTree.calculateCompleteEventCacheAtPath ref.path completeServerCache none false

/-- `calculateCompleteEventChildrenWithCompleteServerChildren:` (:76). -/
def calculateCompleteEventChildren (ref : FWriteTreeRef) (completeServerChildren : Node) : Node :=
  ref.writeTree.calculateCompleteEventChildrenAtPath ref.path completeServerChildren

/-- `calculateEventCacheAfterServerOverwriteWithChildPath:existingEventSnap:existingServerSnap:` (:100). -/
def calculateEventCacheAfterServerOverwrite (ref : FWriteTreeRef) (childPath : List String)
    (existingServerSnap : Node) : Option Node :=
  ref.writeTree.calculateEventCacheAfterServerOverwriteAtPath ref.path childPath existingServerSnap

/-- `shadowingWriteAtPath:` (:119). -/
def shadowingWriteAtPath (ref : FWriteTreeRef) (path : List String) : Option Node :=
  ref.writeTree.shadowingWriteAtPath (ref.path ++ path)

/-- `calculateCompleteChild:cache:` (:143). -/
def calculateCompleteChild (ref : FWriteTreeRef) (childKey : String) (existingServerCache : FCacheNode) :
    Option Node :=
  ref.writeTree.calculateCompleteChildAtPath ref.path childKey existingServerCache

/-- `childWriteTreeRef:` (:153). -/
def childWriteTreeRef (ref : FWriteTreeRef) (childKey : String) : FWriteTreeRef :=
  { ref with path := ref.path ++ [childKey] }

/-! ## What the calculations give -/

/-- The waiting writes at the view's path and below. -/
def writes (ref : FWriteTreeRef) : FCompoundWrite :=
  ref.writeTree.visibleWrites.childCompoundWriteAtPath ref.path

variable {ref : FWriteTreeRef} {path : List String} {s : Node}

theorem shadowingWriteAtPath_isSome_iff : (ref.shadowingWriteAtPath path).isSome ↔ ref.writes.view path ≠ none :=
  FCompoundWrite.completeNodeAtPath_isSome_child _ _ _

theorem calculateCompleteEventCache_some (h : NoLeafAbove s ref.writes.view) :
    ∃ e, ref.calculateCompleteEventCache (some s) = some e ∧ ref.writes.Overlaid s e := by
  rw [calculateCompleteEventCache, FWriteTree.calculateCompleteEventCacheAtPath, if_pos ⟨rfl, rfl⟩]
  cases hn : ref.writeTree.visibleWrites.completeNodeAtPath ref.path with
  | some n => exact ⟨n, rfl, FCompoundWrite.overlaid_of_completeNodeAtPath hn s⟩
  | none =>
    have happly : ref.writes.Overlaid s (ref.writes.applyToNode s) := FCompoundWrite.overlaid_applyToNode h
    change ∃ e, (if ref.writes.isEmpty = true then _ else _) = some e ∧ _
    by_cases hempty : ref.writes.isEmpty = true
    · rw [FCompoundWrite.applyToNode_of_isEmpty hempty] at happly
      exact ⟨s, if_pos hempty, happly⟩
    · refine ⟨_, ?_, happly⟩
      rw [if_neg hempty, if_neg (by simp)]
      rfl

/-- Without a node of the server, a view that a write covers is complete. -/
theorem calculateCompleteEventCache_of_shadowed (h : ref.writes.view [] ≠ none) (o : Option Node) (s : Node) :
    ∃ e, ref.calculateCompleteEventCache o = some e ∧ ref.writes.Overlaid s e := by
  have hs := (FCompoundWrite.completeNodeAtPath_isSome_child _ ref.path []).2 h
  rw [List.append_nil] at hs
  obtain ⟨n, hn⟩ := Option.isSome_iff_exists.1 hs
  refine ⟨n, ?_, FCompoundWrite.overlaid_of_completeNodeAtPath hn s⟩
  rw [calculateCompleteEventCache, FWriteTree.calculateCompleteEventCacheAtPath, if_pos ⟨rfl, rfl⟩, hn]

theorem calculateEventCacheAfterServerOverwrite_some (hsh : ref.writes.view path = none)
    (h : NoLeafAbove s ref.writes.view) :
    ∃ e, ref.calculateEventCacheAfterServerOverwrite path s = some e ∧
      (ref.writes.childCompoundWriteAtPath path).Overlaid (s.sub path) e := by
  have hno : ¬ ref.writeTree.visibleWrites.hasCompleteWriteAtPath (ref.path ++ path) = true :=
    fun hs => (FCompoundWrite.completeNodeAtPath_isSome_child _ _ _).1 hs hsh
  have happly := FCompoundWrite.overlaid_applyToNode (FCompoundWrite.noLeafAbove_sub h path)
  rw [calculateEventCacheAfterServerOverwrite, FWriteTree.calculateEventCacheAfterServerOverwriteAtPath, if_neg hno,
    FCompoundWrite.childCompoundWriteAtPath_append]
  change ∃ e, (if (ref.writes.childCompoundWriteAtPath path).isEmpty = true then _ else _) = some e ∧ _
  by_cases hempty : (ref.writes.childCompoundWriteAtPath path).isEmpty = true
  · rw [FCompoundWrite.applyToNode_of_isEmpty hempty] at happly
    exact ⟨_, if_pos hempty, happly⟩
  · exact ⟨_, if_neg hempty, happly⟩

theorem calculateCompleteChild_some {childKey : String} {cache : FCacheNode}
    (hc : cache.isCompleteForChild childKey = true) (h : NoLeafAbove cache.node ref.writes.view) :
    ∃ e, ref.calculateCompleteChild childKey cache = some e ∧
      (ref.writes.childCompoundWriteAtPath [childKey]).Overlaid (cache.node.sub [childKey]) e := by
  rw [writes, ← FCompoundWrite.childCompoundWriteAtPath_append, calculateCompleteChild,
    FWriteTree.calculateCompleteChildAtPath]
  cases hn : ref.writeTree.visibleWrites.completeNodeAtPath (ref.path ++ [childKey]) with
  | some n => exact ⟨n, rfl, FCompoundWrite.overlaid_of_completeNodeAtPath hn _⟩
  | none =>
    have hsub := FCompoundWrite.noLeafAbove_sub h [childKey]
    rw [writes, ← FCompoundWrite.childCompoundWriteAtPath_append] at hsub
    exact ⟨_, if_pos hc, FCompoundWrite.overlaid_applyToNode hsub⟩

end FWriteTreeRef

end Anissagram
