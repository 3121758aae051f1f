import Anissagram.Firebase.FIndexedFilter
import Anissagram.Firebase.FWriteTree
/-
# `FViewProcessor` (`FViewProcessor.m`)

A view keeps what the server sent (`cachedServerSnap`) and what it shows (`cachedEventSnap`). Every operation changes
both in place, where it can only at the place the operation is about, and notes which children it changed; from the
notes the view decides whether its observers get a new value.

| here | there |
| --- | --- |
| `FViewCache` | `Core/View/FViewCache.m` |
| `FOperation` | `FOverwrite`, `FMerge`, `FAckUserWrite`, `FListenComplete` |
| `FViewProcessor.*` | the methods of `FViewProcessor.m` |

Only the default query is modelled, which the app's observers all have: its filter is `FIndexedFilter`, for which
`filtersNodes` is `NO`, no operation is tagged, and `childByIndex:` is not used. What the methods tell the accumulator
they return as a list.
-/

namespace Anissagram

open PathTree

structure FViewCache where
  cachedEventSnap : FCacheNode
  cachedServerSnap : FCacheNode

namespace FViewCache

/-- `updateEventSnap:isComplete:isFiltered:` (:39). -/
def updateEventSnap (c : FViewCache) (eventSnap : Node) (complete : Bool) : FViewCache :=
  { c with cachedEventSnap := ⟨eventSnap, complete, false⟩ }

/-- `updateServerSnap:isComplete:isFiltered:` (:50). -/
def updateServerSnap (c : FViewCache) (serverSnap : Node) (complete : Bool) : FViewCache :=
  { c with cachedServerSnap := ⟨serverSnap, complete, false⟩ }

def completeEventSnap (c : FViewCache) : Option Node :=
  if c.cachedEventSnap.isFullyInitialized then some c.cachedEventSnap.node else none

def completeServerSnap (c : FViewCache) : Option Node :=
  if c.cachedServerSnap.isFullyInitialized then some c.cachedServerSnap.node else none

theorem of_completeEventSnap {c : FViewCache} {n : Node} (h : c.completeEventSnap = some n) :
    c.cachedEventSnap.isFullyInitialized = true ∧ n = c.cachedEventSnap.node := by
  unfold completeEventSnap at h
  split at h
  · exact ⟨‹_›, (Option.some.inj h).symm⟩
  · cases h

theorem of_completeServerSnap {c : FViewCache} {n : Node} (h : c.completeServerSnap = some n) :
    c.cachedServerSnap.isFullyInitialized = true ∧ n = c.cachedServerSnap.node := by
  unfold completeServerSnap at h
  split at h
  · exact ⟨‹_›, (Option.some.inj h).symm⟩
  · cases h

end FViewCache

/-- The operations; `fromUser` tells a user's overwrite or merge from the server's. -/
inductive FOperation where
  | overwrite (fromUser : Bool) (path : List String) (snap : Node)
  | merge (fromUser : Bool) (path : List String) (children : FCompoundWrite)
  | ackUserWrite (path : List String) (affectedTree : FImmutableTree String Unit) (revert : Bool)
  | listenComplete (path : List String)

namespace FViewProcessor

open FIndexedFilter

/-- `completeChild:` of `FWriteTreeCompleteChildSource` (:92). -/
def completeChild (writes : FWriteTreeRef) (viewCache : FViewCache) (optCompleteServerCache : Option Node)
    (childKey : String) : Option Node :=
  let node := viewCache.cachedEventSnap
  if node.isCompleteForChild childKey then some (node.node.sub [childKey])
  else
    let serverNode :=
      match optCompleteServerCache with
      | some completeServerCache => ⟨completeServerCache, true, false⟩
      | none => viewCache.cachedServerSnap
    writes.calculateCompleteChild childKey serverNode

/-- `generateEventCacheAfterServerEvent:path:writesCache:source:accumulator:` (:262). With an empty path the server's
node is complete (:274). -/
def generateEventCacheAfterServerEvent (viewCache : FViewCache) (changePath : List String)
    (writesCache : FWriteTreeRef) : FViewCache × List FChange :=
  let oldEventSnap := viewCache.cachedEventSnap
  if (writesCache.shadowingWriteAtPath changePath).isSome then (viewCache, [])
  else
    let (newEventCache, changes) :=
      match changePath with
      | [] =>
        let nodeWithLocalWrites :=
          if viewCache.cachedServerSnap.isFiltered then
            writesCache.calculateCompleteEventChildren (viewCache.completeServerSnap.getD Tree.empty)
          else (writesCache.calculateCompleteEventCache viewCache.completeServerSnap).getD Tree.empty
        updateFullNode oldEventSnap.node nodeWithLocalWrites
      | childKey :: childChangePath =>
        let newEventChild :=
          if oldEventSnap.isCompleteForChild childKey then
            match writesCache.calculateEventCacheAfterServerOverwrite changePath viewCache.cachedServerSnap.node with
            | some eventChildUpdate => some ((oldEventSnap.node.sub [childKey]).set childChangePath eventChildUpdate)
            | none => some (oldEventSnap.node.sub [childKey])
          else writesCache.calculateCompleteChild childKey viewCache.cachedServerSnap
        match newEventChild with
        | some newEventChild => updateChildIn oldEventSnap.node childKey newEventChild childChangePath
        | none => (oldEventSnap.node, [])
    (viewCache.updateEventSnap newEventCache (oldEventSnap.isFullyInitialized || changePath.isEmpty), changes)

/-- `applyServerOverwriteTo:…` (:377). -/
def applyServerOverwriteTo (oldViewCache : FViewCache) (changePath : List String) (changedSnap : Node)
    (writesCache : FWriteTreeRef) : FViewCache × List FChange :=
  let oldServerSnap := oldViewCache.cachedServerSnap
  match changePath with
  | [] =>
    let newServerCache := (updateFullNode oldServerSnap.node changedSnap).1
    generateEventCacheAfterServerEvent (oldViewCache.updateServerSnap newServerCache true) [] writesCache
  | childKey :: childChangePath =>
    -- an incomplete node is not updated with what is meant for other listeners
    if oldServerSnap.isCompleteForPath changePath = false ∧ 1 < changePath.length then (oldViewCache, [])
    else
      let newChildNode := (oldServerSnap.node.sub [childKey]).set childChangePath changedSnap
      let newServerCache := (updateChildIn oldServerSnap.node childKey newChildNode childChangePath).1
      generateEventCacheAfterServerEvent
        (oldViewCache.updateServerSnap newServerCache oldServerSnap.isFullyInitialized) changePath writesCache

/-- The new child in `applyUserOverwriteTo:…` (:491). -/
def newUserChild (oldViewCache : FViewCache) (childKey : String) (childChangePath : List String) (changedSnap : Node)
    (writesCache : FWriteTreeRef) (optCompleteCache : Option Node) : Node :=
  if childChangePath = [] then changedSnap
  else
    match completeChild writesCache oldViewCache optCompleteCache childKey with
    | some childNode => childNode.set childChangePath changedSnap
    | none => Tree.empty

/-- `applyUserOverwriteTo:…` (:454). -/
def applyUserOverwriteTo (oldViewCache : FViewCache) (changePath : List String) (changedSnap : Node)
    (writesCache : FWriteTreeRef) (optCompleteCache : Option Node) : FViewCache × List FChange :=
  let oldEventSnap := oldViewCache.cachedEventSnap
  match changePath with
  | [] =>
    let (newEventCache, changes) := updateFullNode oldEventSnap.node changedSnap
    (oldViewCache.updateEventSnap newEventCache true, changes)
  | childKey :: childChangePath =>
    let oldChild := oldEventSnap.node.sub [childKey]
    let newChild :=
      newUserChild oldViewCache childKey childChangePath changedSnap writesCache optCompleteCache
    if oldChild = newChild then (oldViewCache, [])
    else
      let (newEventSnap, changes) := updateChildIn oldEventSnap.node childKey newChild childChangePath
      (oldViewCache.updateEventSnap newEventSnap oldEventSnap.isFullyInitialized, changes)

/-- `cache:hasChild:` (:532), of the front of a path. -/
def cacheHasChild (viewCache : FViewCache) (path : List String) : Bool :=
  viewCache.cachedEventSnap.isCompleteForPath path

/-- One operation after the other, with one accumulator. -/
def thenApply (applied : FViewCache × List FChange) (apply : FViewCache → FViewCache × List FChange) :
    FViewCache × List FChange :=
  let (viewCache, changes) := apply applied.1
  (viewCache, applied.2 ++ changes)

/-- `applyUserMergeTo:…` (:540): first the writes to children that are in view. -/
def applyUserMergeTo (viewCache : FViewCache) (path : List String) (changedChildren : FCompoundWrite)
    (writesCache : FWriteTreeRef) (serverCache : Option Node) : FViewCache × List FChange :=
  let writes := changedChildren.enumerateWrites.map fun write => (path ++ write.1, write.2)
  let inView := writes.filter fun write => cacheHasChild viewCache write.1
  let others := writes.filter fun write => !cacheHasChild viewCache write.1
  (inView ++ others).foldl
    (fun applied write => thenApply applied fun c => applyUserOverwriteTo c write.1 write.2 writesCache serverCache)
    (viewCache, [])

/-- The merge `applyServerMergeTo:…` works with (:605). -/
def actualMerge (path : List String) (changedChildren : FCompoundWrite) : FCompoundWrite :=
  if path = [] then changedChildren else FCompoundWrite.emptyWrite.addCompoundWrite changedChildren path

/-- `applyServerMergeTo:…` (:584). -/
def applyServerMergeTo (viewCache : FViewCache) (path : List String) (changedChildren : FCompoundWrite)
    (writesCache : FWriteTreeRef) : FViewCache × List FChange :=
  if viewCache.cachedServerSnap.node.isEmpty ∧ viewCache.cachedServerSnap.isFullyInitialized = false then
    (viewCache, [])
  else
    let serverNode := viewCache.cachedServerSnap.node
    let childCompoundWrites := (actualMerge path changedChildren).childCompoundWrites
    let known := childCompoundWrites.filter fun child => serverNode.hasChild child.1
    let others := childCompoundWrites.filter fun child =>
      let isUnknownDeepMerge :=
        !viewCache.cachedServerSnap.isCompleteForChild child.1 && child.2.rootWrite.isNone
      !serverNode.hasChild child.1 && !isUnknownDeepMerge
    (known ++ others).foldl
      (fun applied child => thenApply applied fun c =>
        applyServerOverwriteTo c [child.1] (child.2.applyToNode (serverNode.sub [child.1])) writesCache)
      (viewCache, [])

/-- `ackUserWriteOn:…` (:660). -/
def ackUserWriteOn (viewCache : FViewCache) (ackPath : List String) (affectedTree : FImmutableTree String Unit)
    (writesCache : FWriteTreeRef) : FViewCache × List FChange :=
  if (writesCache.shadowingWriteAtPath ackPath).isSome then (viewCache, [])
  else
    let serverCache := viewCache.cachedServerSnap
    if affectedTree.value.isSome then
      if (ackPath = [] ∧ serverCache.isFullyInitialized = true) ∨ serverCache.isCompleteForPath ackPath = true then
        applyServerOverwriteTo viewCache ackPath (serverCache.node.sub ackPath) writesCache
      else if ackPath = [] then
        let changedChildren := serverCache.node.enumerateChildren.foldl
          (fun changedChildren child => changedChildren.addWrite child.2 [child.1]) FCompoundWrite.emptyWrite
        applyServerMergeTo viewCache ackPath changedChildren writesCache
      else (viewCache, [])
    else
      let changedChildren := affectedTree.forEach.foldl
        (fun changedChildren (mergePath, _) =>
          let serverCachePath := ackPath ++ mergePath
          if serverCache.isCompleteForPath serverCachePath then
            changedChildren.addWrite (serverCache.node.sub serverCachePath) mergePath
          else changedChildren) FCompoundWrite.emptyWrite
      applyServerMergeTo viewCache ackPath changedChildren writesCache

/-- The child that `revertUserWriteOn:…` (:764) computes anew, stored in the event node. -/
def revertChild (viewCache : FViewCache) (childKey : String) (childPath : List String) (writesCache : FWriteTreeRef) :
    Node × List FChange :=
  let oldEventCache := viewCache.cachedEventSnap.node
  match writesCache.calculateCompleteChild childKey viewCache.cachedServerSnap with
  | some newChild => updateChildIn oldEventCache childKey newChild childPath
  | none =>
    if viewCache.cachedServerSnap.isCompleteForChild childKey then
      updateChildIn oldEventCache childKey (oldEventCache.sub [childKey]) childPath
    else if oldEventCache.hasChild childKey then updateChildIn oldEventCache childKey Tree.empty childPath
    else (oldEventCache, [])

/-- `revertUserWriteOn:…` (:729). -/
def revertUserWriteOn (viewCache : FViewCache) (path : List String) (writesCache : FWriteTreeRef) :
    FViewCache × List FChange :=
  if (writesCache.shadowingWriteAtPath path).isSome then (viewCache, [])
  else
    let oldEventCache := viewCache.cachedEventSnap.node
    let (newEventCache, changes) :=
      match path with
      | [] =>
        let newNode :=
          if viewCache.cachedServerSnap.isFullyInitialized then
            (writesCache.calculateCompleteEventCache viewCache.completeServerSnap).getD Tree.empty
          else writesCache.calculateCompleteEventChildren viewCache.cachedServerSnap.node
        updateFullNode oldEventCache newNode
      | childKey :: childPath =>
        let (newEventCache, changes) := revertChild viewCache childKey childPath writesCache
        -- the old node may have been a leaf
        let complete := (writesCache.calculateCompleteEventCache viewCache.completeServerSnap).getD Tree.empty
        if newEventCache.isEmpty ∧ viewCache.cachedServerSnap.isFullyInitialized = true ∧
            (complete.leaf []).isSome then
          let (newEventCache, more) := updateFullNode newEventCache complete
          (newEventCache, changes ++ more)
        else (newEventCache, changes)
    let complete := viewCache.cachedServerSnap.isFullyInitialized || (writesCache.shadowingWriteAtPath []).isSome
    (viewCache.updateEventSnap newEventCache complete, changes)

/-- `listenCompleteOldCache:…` (:813). -/
def listenCompleteOldCache (viewCache : FViewCache) (path : List String) (writesCache : FWriteTreeRef) :
    FViewCache × List FChange :=
  let oldServerNode := viewCache.cachedServerSnap
  let newViewCache :=
    viewCache.updateServerSnap oldServerNode.node (oldServerNode.isFullyInitialized || path.isEmpty)
  generateEventCacheAfterServerEvent newViewCache path writesCache

/-- `applyOperationOn:operation:writesCache:completeCache:` (:142), up to the changes. -/
def applyOperationOn (oldViewCache : FViewCache) (operation : FOperation) (writesCache : FWriteTreeRef)
    (optCompleteCache : Option Node) : FViewCache × List FChange :=
  match operation with
  | .overwrite true path snap => applyUserOverwriteTo oldViewCache path snap writesCache optCompleteCache
  | .overwrite false path snap => applyServerOverwriteTo oldViewCache path snap writesCache
  | .merge true path children => applyUserMergeTo oldViewCache path children writesCache optCompleteCache
  | .merge false path children => applyServerMergeTo oldViewCache path children writesCache
  | .ackUserWrite path affectedTree false => ackUserWriteOn oldViewCache path affectedTree writesCache
  | .ackUserWrite path _ true => revertUserWriteOn oldViewCache path writesCache
  | .listenComplete path => listenCompleteOldCache oldViewCache path writesCache

/-- `maybeAddValueFromOldViewCache:newViewCache:changes:` (:237): the value event, if there is one. -/
def maybeAddValue (oldViewCache newViewCache : FViewCache) (changes : List (String × FChange)) : Option Node :=
  let eventSnap := newViewCache.cachedEventSnap
  if eventSnap.isFullyInitialized then
    let isLeafOrEmpty : Bool := (eventSnap.node.leaf []).isSome || decide eventSnap.node.isEmpty
    if !changes.isEmpty || !oldViewCache.cachedEventSnap.isFullyInitialized ||
        (isLeafOrEmpty && oldViewCache.completeEventSnap != some eventSnap.node) then
      some eventSnap.node
    else none
  else none

end FViewProcessor

end Anissagram
