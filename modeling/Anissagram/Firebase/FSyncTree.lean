import Anissagram.Firebase.ValueEvents
/-
# `FSyncTree` (`Core/FSyncTree.m`)

The views of this device, in a tree of their locations, and the writes the server has not answered. What the user
writes, and what the server sends, reaches each view as an operation relative to its location; the events of all views
together go to the observers. It also decides for which locations the server is asked (`FListenRequest`): only for
those without a view above.

| here | there |
| --- | --- |
| `FView` | `Core/View/FView.m`, with its `FSyncPoint` |
| `FOperation.operationForChild` | the methods of that name |
| `FSyncTree.*` | the methods of `FSyncTree.m` |

Every observer of the app is for values, of a default query: so a sync point has one view, which loads all data, there
are no tags, and an event is a node for an observer (a `handle`). Persistence is off (`persistenceManager` is `nil`).
-/

namespace Anissagram

open PathTree

/-- A value event: what the observer of this handle is handed. -/
structure FEvent where
  handle : Nat
  snapshot : Node

/-- What the sync tree asks its `FListenProvider`. -/
inductive FListenRequest where
  | startListening (query : List String)
  | stopListening (query : List String)

/-- A view with the path of its query and its observers. -/
structure FView where
  query : List String
  viewCache : FViewCache
  eventRegistrations : List Nat

namespace FView

/-- `initWithQuery:initialViewCache:` (:79). -/
def initWithQuery (query : List String) (initialViewCache : FViewCache) : FView where
  query := query
  viewCache :=
    let initialServerCache := initialViewCache.cachedServerSnap
    let initialEventCache := initialViewCache.cachedEventSnap
    { cachedEventSnap :=
        ⟨(FIndexedFilter.updateFullNode Tree.empty initialEventCache.node).1, initialEventCache.isFullyInitialized, false⟩
      cachedServerSnap :=
        ⟨(FIndexedFilter.updateFullNode Tree.empty initialServerCache.node).1, initialServerCache.isFullyInitialized,
          false⟩ }
  eventRegistrations := []

/-- `completeServerCacheFor:` (:133). -/
def completeServerCacheFor (view : FView) (path : List String) : Option Node :=
  view.viewCache.completeServerSnap.map fun cache => cache.sub path

def isEmpty (view : FView) : Bool := view.eventRegistrations.isEmpty

/-- `removeEventRegistration:cancelError:` (:162); without a registration all are removed. -/
def removeEventRegistration (view : FView) (eventRegistration : Option Nat) : FView :=
  match eventRegistration with
  | some handle => { view with eventRegistrations := view.eventRegistrations.filter (· ≠ handle) }
  | none => { view with eventRegistrations := [] }

/-- `applyOperation:writesCache:serverCache:` (:198). The accumulator takes all changes
(`trackChildChanges_applyOperationOn`). -/
def applyOperation (view : FView) (operation : FOperation) (writesCache : FWriteTreeRef)
    (optCompleteServerCache : Option Node) : FView × List FEvent :=
  let (viewCache, changes) :=
    FViewProcessor.applyOperationOn view.viewCache operation writesCache optCompleteServerCache
  let changeMap := (FChildChangeAccumulator.trackChildChanges changes).getD []
  let value := FViewProcessor.maybeAddValue view.viewCache viewCache changeMap
  ({ view with viewCache },
    value.toList.flatMap fun snapshot => view.eventRegistrations.map fun handle => ⟨handle, snapshot⟩)

/-- `initialEvents:` (:228). -/
def initialEvents (view : FView) (registration : Nat) : List FEvent :=
  view.viewCache.completeEventSnap.toList.map fun snapshot => ⟨registration, snapshot⟩

end FView

namespace FSyncPoint

/-- `addEventRegistration:forNonExistingViewForQuery:writesCache:serverCache:` (:135), up to the registration. -/
def viewForNonExistingQuery (query : List String) (writesCache : FWriteTreeRef) (serverCache : FCacheNode) : FView :=
  let eventCache :=
    writesCache.calculateCompleteEventCache (if serverCache.isFullyInitialized then some serverCache.node else none)
  let eventCacheNode : FCacheNode :=
    match eventCache with
    | some eventCache => ⟨eventCache, true, false⟩
    | none => ⟨writesCache.calculateCompleteEventChildren serverCache.node, false, false⟩
  FView.initWithQuery query ⟨eventCacheNode, serverCache⟩

/-- `addEventRegistration:forExistingViewForQuery:` (:181). -/
def addEventRegistration (view : FView) (eventRegistration : Nat) : FView × List FEvent :=
  let view := { view with eventRegistrations := view.eventRegistrations ++ [eventRegistration] }
  (view, view.initialEvents eventRegistration)

/-- `hasCompleteView` (:284): a default query loads all data. -/
def hasCompleteView (_ : FView) : Bool := true

end FSyncPoint

namespace FOperation

def path : FOperation → List String
  | .overwrite _ path _ => path
  | .merge _ path _ => path
  | .ackUserWrite path _ _ => path
  | .listenComplete path => path

/-- `operationForChild:`. -/
def operationForChild (operation : FOperation) (childKey : String) : Option FOperation :=
  match operation with
  | .overwrite fromUser [] snap => some (.overwrite fromUser [] (snap.sub [childKey]))
  | .overwrite fromUser (_ :: rest) snap => some (.overwrite fromUser rest snap)
  | .merge fromUser [] children =>
    let childTree := children.childCompoundWriteAtPath [childKey]
    if childTree.isEmpty then none
    else
      match childTree.rootWrite with
      | some rootWrite => some (.overwrite fromUser [] rootWrite)
      | none => some (.merge fromUser [] childTree)
  | .merge fromUser (_ :: rest) children => some (.merge fromUser rest children)
  | .ackUserWrite [] affectedTree revert =>
    if affectedTree.value.isSome then some (.ackUserWrite [] affectedTree revert)
    else some (.ackUserWrite [] (affectedTree.subtreeAtPath [childKey]) revert)
  | .ackUserWrite (_ :: rest) affectedTree revert => some (.ackUserWrite rest affectedTree revert)
  | .listenComplete [] => some (.listenComplete [])
  | .listenComplete (_ :: rest) => some (.listenComplete rest)

end FOperation

structure FSyncTree where
  syncPointTree : FImmutableTree String FView
  pendingWriteTree : FWriteTree

namespace FSyncTree

def init : FSyncTree where
  syncPointTree := .empty
  pendingWriteTree := .init

/-! ## Operations -/

/-- The sync point's own part: `applyOperation:writesCache:serverCache:` of `FSyncPoint` (:106), where there is one. -/
def applyOperationHere (syncPoint : Option FView) (operation : FOperation) (writesCache : FWriteTreeRef)
    (serverCache : Option Node) : Option FView × List FEvent :=
  match syncPoint with
  | some view =>
    let (view, events) := view.applyOperation operation writesCache serverCache
    (some view, events)
  | none => (none, [])

/-- The server's node the sync point knows, where the caller knows none (:962). -/
def resolveServerCache (serverCache : Option Node) (syncPoint : Option FView) : Option Node :=
  match serverCache with
  | some serverCache => some serverCache
  | none => syncPoint.bind fun view => view.completeServerCacheFor []

mutual

/-- `applyOperationDescendantsHelper:…` (:996). -/
def applyOperationDescendantsHelper (operation : FOperation) :
    FImmutableTree String FView → Option Node → FWriteTreeRef → FImmutableTree String FView × List FEvent
  | .node syncPoint children, serverCache, writesCache =>
    let resolvedServerCache := resolveServerCache serverCache syncPoint
    let (children, events) := applyOperationChildren operation children resolvedServerCache writesCache
    let (syncPoint, eventsHere) := applyOperationHere syncPoint operation writesCache resolvedServerCache
    (.node syncPoint children, events ++ eventsHere)

/-- The block over the children (:1013). -/
def applyOperationChildren (operation : FOperation) :
    List (String × FImmutableTree String FView) → Option Node → FWriteTreeRef →
      List (String × FImmutableTree String FView) × List FEvent
  | [], _, _ => ([], [])
  | (childKey, childTree) :: children, resolvedServerCache, writesCache =>
    let childServerCache := resolvedServerCache.map fun node => node.sub [childKey]
    let childWritesCache := writesCache.childWriteTreeRef childKey
    let (childTree, childEvents) :=
      match operation.operationForChild childKey with
      | some childOperation =>
        applyOperationDescendantsHelper childOperation childTree childServerCache childWritesCache
      | none => (childTree, [])
    let (children, events) := applyOperationChildren operation children resolvedServerCache writesCache
    ((childKey, childTree) :: children, childEvents ++ events)

end

/-- `applyOperationHelper:…` (:948), along the operation's path. -/
def applyOperationHelper (operation : FOperation) (path : List String) (syncPointTree : FImmutableTree String FView)
    (serverCache : Option Node) (writesCache : FWriteTreeRef) : FImmutableTree String FView × List FEvent :=
  match path with
  | [] => applyOperationDescendantsHelper operation syncPointTree serverCache writesCache
  | childKey :: rest =>
    let syncPoint := syncPointTree.value
    let serverCache := resolveServerCache serverCache syncPoint
    let (children, events) :=
      match operation.operationForChild childKey, syncPointTree.get childKey with
      | some childOperation, some childTree =>
        let childServerCache := serverCache.map fun node => node.sub [childKey]
        let childWritesCache := writesCache.childWriteTreeRef childKey
        let (childTree, events) := applyOperationHelper childOperation rest childTree childServerCache childWritesCache
        (SortedDict.insert compare syncPointTree.children childKey childTree, events)
      | _, _ => (syncPointTree.children, [])
    let (syncPoint, eventsHere) := applyOperationHere syncPoint operation writesCache serverCache
    (.node syncPoint children, events ++ eventsHere)

/-- `applyOperationToSyncPoints:` (:937). -/
def applyOperationToSyncPoints (t : FSyncTree) (operation : FOperation) : FSyncTree × List FEvent :=
  let (syncPointTree, events) :=
    applyOperationHelper operation operation.path t.syncPointTree none ⟨[], t.pendingWriteTree⟩
  ({ t with syncPointTree }, events)

/-- `applyUserOverwriteAtPath:newData:writeId:isVisible:` (:175). -/
def applyUserOverwriteAtPath (t : FSyncTree) (path : List String) (newData : Node) (writeId : Int) (visible : Bool) :
    FSyncTree × List FEvent :=
  let t := { t with pendingWriteTree := t.pendingWriteTree.addOverwriteAtPath path newData writeId visible }
  if visible then t.applyOperationToSyncPoints (.overwrite true path newData) else (t, [])

/-- `applyUserMergeAtPath:changedChildren:writeId:` (:199). -/
def applyUserMergeAtPath (t : FSyncTree) (path : List String) (changedChildren : FCompoundWrite) (writeId : Int) :
    FSyncTree × List FEvent :=
  let t := { t with pendingWriteTree := t.pendingWriteTree.addMergeAtPath path changedChildren writeId }
  t.applyOperationToSyncPoints (.merge true path changedChildren)

/-- The `affectedTree` of `ackUserWriteWithWriteId:…` (:256). -/
def affectedTree (write : FWriteRecord) : FImmutableTree String Unit :=
  match write.kind with
  | .overwrite _ => FImmutableTree.empty.setValue () []
  | .merge compoundWrite =>
    compoundWrite.enumerateWrites.foldl (fun affectedTree write => affectedTree.setValue () write.1) .empty

/-- `ackUserWriteWithWriteId:revert:persist:clock:` (:221). A write that does not wait trips the assertion of
`removeWriteId:`. -/
def ackUserWriteWithWriteId (t : FSyncTree) (writeId : Int) (revert : Bool) : Option (FSyncTree × List FEvent) := do
  let write ← t.pendingWriteTree.writeForId writeId
  let (pendingWriteTree, needToReevaluate) ← t.pendingWriteTree.removeWriteId writeId
  let t := { t with pendingWriteTree }
  if needToReevaluate then return t.applyOperationToSyncPoints (.ackUserWrite write.path (affectedTree write) revert)
  else return (t, [])

/-- `removeAllWrites` (:712). -/
def removeAllWrites (t : FSyncTree) : FSyncTree × List FEvent :=
  let (pendingWriteTree, removedWrites) := t.pendingWriteTree.removeAllWrites
  let t := { t with pendingWriteTree }
  if removedWrites.isEmpty then (t, [])
  else t.applyOperationToSyncPoints (.ackUserWrite [] (FImmutableTree.empty.setValue () []) true)

/-- `applyServerOverwriteAtPath:newData:` (:277). -/
def applyServerOverwriteAtPath (t : FSyncTree) (path : List String) (newData : Node) : FSyncTree × List FEvent :=
  t.applyOperationToSyncPoints (.overwrite false path newData)

/-- `applyServerMergeAtPath:changedChildren:` (:293). -/
def applyServerMergeAtPath (t : FSyncTree) (path : List String) (changedChildren : FCompoundWrite) :
    FSyncTree × List FEvent :=
  t.applyOperationToSyncPoints (.merge false path changedChildren)

/-- `applyListenCompleteAtPath:` (:333). -/
def applyListenCompleteAtPath (t : FSyncTree) (path : List String) : FSyncTree × List FEvent :=
  t.applyOperationToSyncPoints (.listenComplete path)

/-! ## Observers -/

/-- The block of `collectDistinctViewsForSubTree:` (:767). -/
def collectBlock (_ : List String) (maybeChildSyncPoint : Option FView) (childMap : List (String × List FView)) :
    List FView :=
  match maybeChildSyncPoint with
  | some view => [view]
  | none => childMap.flatMap fun child => child.2

/-- `collectDistinctViewsForSubTree:` (:766). -/
def collectDistinctViewsForSubTree (subtree : FImmutableTree String FView) : List FView :=
  subtree.foldWithBlock collectBlock

/-- The block of `setupListenerOnQuery:view:` (:838). -/
def stopBlock (relativePath : List String) (maybeChildSyncPoint : Option FView)
    (childMap : List (String × List (List String))) : List (List String) :=
  match relativePath, maybeChildSyncPoint with
  | _ :: _, some view => [view.query]
  | _, _ => childMap.flatMap fun child => child.2

/-- The queries `setupListenerOnQuery:view:` stops: those at the topmost views below. -/
def queriesToStop (subtree : FImmutableTree String FView) : List (List String) := subtree.foldWithBlock stopBlock

/-- `setupListenerOnQuery:view:` (:817). -/
def setupListenerOnQuery (t : FSyncTree) (path : List String) : List FListenRequest :=
  .startListening path :: (queriesToStop (t.syncPointTree.subtreeAtPath path)).map .stopListening

/-- `serverCacheForQuery:` (:515). -/
def serverCacheForQuery (t : FSyncTree) (path : List String) : FCacheNode :=
  let serverCacheNode : Option Node :=
    t.syncPointTree.forEachOnPath
      (fun pathToSyncPoint view _ =>
        let serverCacheNode := view.completeServerCacheFor (path.drop pathToSyncPoint.length)
        (serverCacheNode, serverCacheNode.isNone)) path [] none
  match serverCacheNode with
  | some serverCacheNode => ⟨serverCacheNode, true, false⟩
  | none =>
    let subtree := t.syncPointTree.subtreeAtPath path
    let serverCacheNode := subtree.forEachChild.foldl
      (fun (serverCacheNode : Node) child =>
        match child.2.completeServerCacheFor [] with
        | some completeCache => serverCacheNode.set [child.1] completeCache
        | none => serverCacheNode) Tree.empty
    ⟨serverCacheNode, false, false⟩

/-- The block of `addEventRegistration:forQuery:` (:462), which looks for a view on the way. -/
def foundBlock (_ : List String) (view : FView) (found : Bool) : Bool × Bool :=
  let found := found || FSyncPoint.hasCompleteView view
  (found, !found)

/-- `addEventRegistration:forQuery:` (:455). -/
def addEventRegistration (t : FSyncTree) (eventRegistration : Nat) (path : List String) :
    FSyncTree × List FEvent × List FListenRequest :=
  let foundAncestorDefaultView := t.syncPointTree.forEachOnPath foundBlock path [] false
  match t.syncPointTree.valueAtPath path with
  | some view =>
    let (view, events) := FSyncPoint.addEventRegistration view eventRegistration
    ({ t with syncPointTree := t.syncPointTree.setValue view path }, events, [])
  | none =>
    let writesCache : FWriteTreeRef := ⟨path, t.pendingWriteTree⟩
    let serverCache := t.serverCacheForQuery path
    let (view, events) := FSyncPoint.addEventRegistration
      (FSyncPoint.viewForNonExistingQuery path writesCache serverCache) eventRegistration
    let t := { t with syncPointTree := t.syncPointTree.setValue view path }
    (t, events, if foundAncestorDefaultView then [] else t.setupListenerOnQuery path)

/-- The view of a query without one, with its first observer. -/
def newView (t : FSyncTree) (eventRegistration : Nat) (path : List String) : FView × List FEvent :=
  FSyncPoint.addEventRegistration
    (FSyncPoint.viewForNonExistingQuery path ⟨path, t.pendingWriteTree⟩ (t.serverCacheForQuery path)) eventRegistration

theorem addEventRegistration_of_some (t : FSyncTree) (handle : Nat) {path : List String} {view : FView}
    (h : t.syncPointTree.valueAtPath path = some view) : t.addEventRegistration handle path =
      ({ t with syncPointTree := t.syncPointTree.setValue (FSyncPoint.addEventRegistration view handle).1 path },
        (FSyncPoint.addEventRegistration view handle).2, []) := by
  simp only [addEventRegistration, h]

theorem addEventRegistration_of_none (t : FSyncTree) (handle : Nat) {path : List String}
    (h : t.syncPointTree.valueAtPath path = none) : t.addEventRegistration handle path =
      ({ t with syncPointTree := t.syncPointTree.setValue (t.newView handle path).1 path }, (t.newView handle path).2,
        if t.syncPointTree.forEachOnPath foundBlock path [] false then []
        else setupListenerOnQuery
          { t with syncPointTree := t.syncPointTree.setValue (t.newView handle path).1 path } path) := by
  simp only [addEventRegistration, h]
  rfl

/-- `removeEventRegistration:forQuery:cancelError:` (:589). After an error the provider listens no more (:669). -/
def removeEventRegistration (t : FSyncTree) (eventRegistration : Option Nat) (path : List String)
    (cancelError : Bool) : FSyncTree × List FListenRequest :=
  match t.syncPointTree.valueAtPath path with
  | none => (t, [])
  | some view =>
    let view := view.removeEventRegistration eventRegistration
    if view.isEmpty then
      let t := { t with syncPointTree := t.syncPointTree.removeValueAtPath path }
      let covered := t.syncPointTree.findOnPath (fun _ view => some (FSyncPoint.hasCompleteView view)) path []
      if covered.getD false then (t, [])
      else
        let newViews := collectDistinctViewsForSubTree (t.syncPointTree.subtreeAtPath path)
        (t, (newViews.map fun view => .startListening view.query) ++
          if cancelError then [] else [.stopListening path])
    else ({ t with syncPointTree := t.syncPointTree.setValue view path }, [])

end FSyncTree

/-! ## What reaches a view -/

/-- The operation as it reaches the path, step by step. -/
def FOperation.operationAt (operation : FOperation) : List String → Option FOperation
  | [] => some operation
  | childKey :: rest =>
    if operation.path = [] ∨ operation.path.head? = some childKey then
      (operation.operationForChild childKey).bind fun childOperation => childOperation.operationAt rest
    else none

/-- A view that an operation may reach. -/
def FView.receive (view : FView) (operation : Option FOperation) (writesCache : FWriteTreeRef)
    (serverCache : Option Node) : FView × List FEvent :=
  match operation with
  | some operation => view.applyOperation operation writesCache serverCache
  | none => (view, [])

namespace FSyncTree

/-- The server's node as the views on the way to a path know it. -/
def serverCacheAt (t : FImmutableTree String FView) (serverCache : Option Node) : List String → Option Node
  | [] => resolveServerCache serverCache t.value
  | childKey :: rest =>
    match t.get childKey with
    | some childTree =>
      serverCacheAt childTree ((resolveServerCache serverCache t.value).map fun node => node.sub [childKey]) rest
    | none => none

variable {t : FImmutableTree String FView} {op : FOperation} {ref : FWriteTreeRef} {cache : Option Node}

/-- The child of a sync point after an operation. -/
def childAfter (op : FOperation) (cache : Option Node) (ref : FWriteTreeRef) (childKey : String)
    (childTree : FImmutableTree String FView) : FImmutableTree String FView × List FEvent :=
  match op.operationForChild childKey with
  | some childOperation =>
    applyOperationDescendantsHelper childOperation childTree (cache.map fun node => node.sub [childKey])
      (ref.childWriteTreeRef childKey)
  | none => (childTree, [])

theorem applyOperationChildren_eq (op : FOperation) (cs : List (String × FImmutableTree String FView))
    (cache : Option Node) (ref : FWriteTreeRef) :
    applyOperationChildren op cs cache ref =
      (cs.map fun c => (c.1, (childAfter op cache ref c.1 c.2).1),
        cs.flatMap fun c => (childAfter op cache ref c.1 c.2).2) := by
  induction cs with
  | nil => rfl
  | cons c cs ih => rw [applyOperationChildren, ih]; rfl

/-- What a view makes of an operation on its tree, and the events. -/
def received (op : FOperation) (t : FImmutableTree String FView) (cache : Option Node) (ref : FWriteTreeRef)
    (p : List String) (view : FView) : FView × List FEvent :=
  view.receive (op.operationAt p) ⟨ref.path ++ p, ref.writeTree⟩ (serverCacheAt t cache p)

/-- A tree of views after something has gone through it: each view is what became of it, and the events are those of
all views. -/
structure Served (became : List String → FView → FView × List FEvent) (t : FImmutableTree String FView)
    (result : FImmutableTree String FView × List FEvent) : Prop where
  views : ∀ p, result.1.valueAtPath p = (t.valueAtPath p).map fun view => (became p view).1
  events : ∀ e, e ∈ result.2 ↔ ∃ p view, t.valueAtPath p = some view ∧ e ∈ (became p view).2
  sound : result.1.Sound
  isEmpty : result.1.isEmpty = t.isEmpty

theorem served_untouched {became : List String → FView → FView × List FEvent} (ht : t.Sound)
    (h : ∀ p view, became p view = (view, [])) : Served became t (t, []) where
  views p := by simp [h]
  events e := by simp [h]
  sound := ht
  isEmpty := rfl

/-- The sync point itself after its children. -/
theorem served_node {became : List String → FView → FView × List FEvent} {syncPoint syncPoint' : Option FView}
    {children cs : List (String × FImmutableTree String FView)} {events eventsHere : List FEvent}
    {g : String → FImmutableTree String FView → FImmutableTree String FView × List FEvent}
    (ht : (FImmutableTree.node syncPoint children).Sound)
    (hserved : ∀ c ∈ children, Served (fun p => became (c.1 :: p)) c.2 (g c.1 c.2))
    (hget : ∀ k, SortedDict.get compare cs k = (SortedDict.get compare children k).map fun c => (g k c).1)
    (hsorted : SortedDict.Sorted compare cs) (hempty : cs.isEmpty = children.isEmpty)
    (hevents : ∀ e, e ∈ events ↔ ∃ c ∈ children, e ∈ (g c.1 c.2).2)
    (hhere : syncPoint' = syncPoint.map fun view => (became [] view).1)
    (heventsHere : ∀ e, e ∈ eventsHere ↔ ∃ view, syncPoint = some view ∧ e ∈ (became [] view).2) :
    Served became (.node syncPoint children) (.node syncPoint' cs, events ++ eventsHere) := by
  have hmem : ∀ k c, SortedDict.get compare children k = some c ↔ (k, c) ∈ children :=
    fun k c => SortedDict.get_eq_some_iff ht.sorted
  refine ⟨fun p => ?_, fun e => ?_, ?_, ?_⟩
  · cases p with
    | nil => exact hhere
    | cons k p =>
      rw [FImmutableTree.valueAtPath_cons, FImmutableTree.valueAtPath_cons, FImmutableTree.get, FImmutableTree.get,
        FImmutableTree.children, FImmutableTree.children, hget]
      cases hc : SortedDict.get compare children k with
      | none => rfl
      | some c => exact (hserved (k, c) ((hmem k c).1 hc)).views p
  · rw [List.mem_append, hevents, heventsHere]
    constructor
    · rintro (⟨c, hc, he⟩ | ⟨view, hview, he⟩)
      · obtain ⟨p, view, hview, he⟩ := ((hserved c hc).events e).1 he
        refine ⟨c.1 :: p, view, ?_, he⟩
        rw [FImmutableTree.valueAtPath_cons, FImmutableTree.get, FImmutableTree.children, (hmem c.1 c.2).2 hc]
        exact hview
      · exact ⟨[], view, hview, he⟩
    · rintro ⟨p, view, hview, he⟩
      cases p with
      | nil => exact Or.inr ⟨view, hview, he⟩
      | cons k p =>
        rw [FImmutableTree.valueAtPath_cons] at hview
        obtain ⟨c, hc, hview⟩ := Option.bind_eq_some_iff.1 hview
        have hc := (hmem k c).1 hc
        exact Or.inl ⟨(k, c), hc, ((hserved (k, c) hc).events e).2 ⟨p, view, hview, he⟩⟩
  · have hcs : ∀ x ∈ cs, ∃ c ∈ children, x.2 = (g c.1 c.2).1 := by
      intro x hx
      have hx := SortedDict.get_of_mem hsorted hx
      rw [hget] at hx
      obtain ⟨c, hc, heq⟩ := Option.map_eq_some_iff.1 hx
      exact ⟨(x.1, c), (hmem x.1 c).1 hc, heq.symm⟩
    refine .node hsorted (fun x hx => ?_) fun x hx => ?_
    · obtain ⟨c, hc, heq⟩ := hcs x hx
      rw [heq, (hserved c hc).isEmpty]
      exact ht.nonempty c hc
    · obtain ⟨c, hc, heq⟩ := hcs x hx
      rw [heq]
      exact (hserved c hc).sound
  · simp [FImmutableTree.isEmpty, FImmutableTree.value, FImmutableTree.children, hempty, hhere]

theorem received_nil (op : FOperation) (t : FImmutableTree String FView) (cache : Option Node) (ref : FWriteTreeRef)
    (view : FView) : received op t cache ref [] view = view.applyOperation op ref (resolveServerCache cache t.value) := by
  rw [received, List.append_nil]
  rfl

theorem operationAt_singleton (op : FOperation) (k : String) : op.operationAt [k] =
    if op.path = [] ∨ op.path.head? = some k then op.operationForChild k else none := by
  rw [FOperation.operationAt]
  split
  · cases op.operationForChild k <;> rfl
  · rfl

theorem operationAt_cons (op : FOperation) (k : String) (p : List String) :
    op.operationAt (k :: p) = (op.operationAt [k]).bind fun child => child.operationAt p := by
  rw [operationAt_singleton, FOperation.operationAt]
  split <;> rfl

/-- The operation does not reach the child. -/
theorem received_of_not_reached {k : String} (h : op.operationAt [k] = none) (p : List String) (view : FView) :
    received op t cache ref (k :: p) view = (view, []) := by
  rw [received, operationAt_cons, h]
  rfl

/-- The child gets the operation for it. -/
theorem received_child {k : String} {child : FOperation} {c : FImmutableTree String FView}
    (h : op.operationAt [k] = some child) (hc : t.get k = some c) (p : List String) (view : FView) :
    received op t cache ref (k :: p) view =
      received child c ((resolveServerCache cache t.value).map fun node => node.sub [k]) (ref.childWriteTreeRef k) p
        view := by
  rw [received, received, operationAt_cons, h, serverCacheAt, hc]
  simp [FWriteTreeRef.childWriteTreeRef]


/-! The sync point's own part. -/

section
variable {syncPoint : Option FView} {children : List (String × FImmutableTree String FView)}

theorem applyOperationHere_received :
    (applyOperationHere syncPoint op ref (resolveServerCache cache syncPoint)).1 =
      syncPoint.map fun view => (received op (.node syncPoint children) cache ref [] view).1 := by
  simp only [received_nil]
  cases syncPoint <;> rfl

theorem mem_applyOperationHere {e : FEvent} :
    e ∈ (applyOperationHere syncPoint op ref (resolveServerCache cache syncPoint)).2 ↔
      ∃ view, syncPoint = some view ∧ e ∈ (received op (.node syncPoint children) cache ref [] view).2 := by
  simp only [received_nil]
  cases syncPoint with
  | none => simp [applyOperationHere]
  | some view => simp [applyOperationHere, FImmutableTree.value]

end

theorem operationForChild_path {childKey : String} {child : FOperation} (h : op.operationForChild childKey = some child) :
    child.path = op.path.tail := by
  cases op with
  | overwrite fromUser path snap => cases path <;> cases h <;> rfl
  | merge fromUser path children =>
    cases path with
    | nil =>
      simp only [FOperation.operationForChild] at h
      split at h
      · cases h
      · split at h <;> cases h <;> rfl
    | cons j path => cases h; rfl
  | ackUserWrite path affectedTree revert =>
    cases path with
    | nil =>
      simp only [FOperation.operationForChild] at h
      split at h <;> cases h <;> rfl
    | cons j path => cases h; rfl
  | listenComplete path => cases path <;> cases h <;> rfl

theorem served_descendants (ht : t.Sound) : ∀ {op : FOperation} {cache : Option Node} {ref : FWriteTreeRef},
    op.path = [] → Served (received op t cache ref) t (applyOperationDescendantsHelper op t cache ref) := by
  induction ht with
  | @node syncPoint children sorted nonempty sound ih =>
    intro op cache ref hop
    have ht : (FImmutableTree.node syncPoint children).Sound := .node sorted nonempty sound
    rw [applyOperationDescendantsHelper, applyOperationChildren_eq]
    refine served_node (g := childAfter op (resolveServerCache cache syncPoint) ref) ht (fun c hc => ?_) (fun k => ?_)
      (sorted.map fun k c => (childAfter op (resolveServerCache cache syncPoint) ref k c).1) (by simp) (by simp) ?_
      fun e => ?_
    · have hat : op.operationAt [c.1] = op.operationForChild c.1 := by
        rw [operationAt_singleton, if_pos (Or.inl hop)]
      have hget : (FImmutableTree.node syncPoint children).get c.1 = some c.2 := SortedDict.get_of_mem sorted hc
      unfold childAfter
      cases hchild : op.operationForChild c.1 with
      | none => exact served_untouched (sound c hc) fun p view => received_of_not_reached (hat.trans hchild) p view
      | some child =>
        have hpath : child.path = [] := by rw [operationForChild_path hchild, hop]; rfl
        have heq : (fun p => received op (.node syncPoint children) cache ref (c.1 :: p)) = received child c.2
            ((resolveServerCache cache syncPoint).map fun node => node.sub [c.1]) (ref.childWriteTreeRef c.1) := by
          funext p view
          exact received_child (hat.trans hchild) hget p view
        rw [heq]
        exact ih c hc hpath
    · exact SortedDict.get_map children (fun k c => (childAfter op (resolveServerCache cache syncPoint) ref k c).1) k
    · exact applyOperationHere_received
    · exact mem_applyOperationHere

theorem served_helper (ht : t.Sound) {p : List String} : ∀ {op : FOperation} {cache : Option Node} {ref : FWriteTreeRef},
    op.path = p → Served (received op t cache ref) t (applyOperationHelper op p t cache ref) := by
  induction p generalizing t with
  | nil => exact fun hop => served_descendants ht hop
  | cons k p ih =>
    intro op cache ref hop
    have hat : op.operationAt [k] = op.operationForChild k := by
      rw [operationAt_singleton, if_pos (Or.inr (by rw [hop]; rfl))]
    have hother : ∀ j, j ≠ k → op.operationAt [j] = none := by
      intro j hj
      rw [operationAt_singleton, if_neg]
      rw [hop]
      simp [hj.symm]
    obtain ⟨syncPoint, children⟩ := t
    have hstay : ∀ c ∈ children, op.operationAt [c.1] = none →
        Served (fun p => received op (.node syncPoint children) cache ref (c.1 :: p)) c.2 (c.2, []) := fun c hc hnone =>
      served_untouched (ht.children c hc) fun p view => received_of_not_reached hnone p view
    rw [applyOperationHelper]
    dsimp only [FImmutableTree.value, FImmutableTree.children]
    split
    · rename_i child c hchild hc
      have hmem : (k, c) ∈ children := SortedDict.mem_of_get hc
      have hpath : child.path = p := by rw [operationForChild_path hchild, hop]; rfl
      refine served_node ht (g := fun j c => if j = k then applyOperationHelper child p c
        ((resolveServerCache cache syncPoint).map fun node => node.sub [k]) (ref.childWriteTreeRef k) else (c, []))
        (fun x hx => ?_) (fun j => ?_) (ht.sorted.insert k _) ?_ (fun e => ?_) applyOperationHere_received
        fun e => mem_applyOperationHere
      · by_cases hx' : x.1 = k
        · have hxc : x = (k, c) := by
            have hget := SortedDict.get_of_mem ht.sorted hx
            rw [hx'] at hget
            exact Prod.ext hx' (Option.some.inj (hget.symm.trans hc))
          subst hxc
          have heq : (fun p => received op (.node syncPoint children) cache ref (k :: p)) = received child c
              ((resolveServerCache cache syncPoint).map fun node => node.sub [k]) (ref.childWriteTreeRef k) := by
            funext p view
            exact received_child (hat.trans hchild) hc p view
          dsimp only
          rw [heq, if_pos rfl]
          exact ih (ht.children _ hx) hpath
        · rw [if_neg hx']
          exact hstay x hx (hother x.1 hx')
      · rw [SortedDict.get_insert]
        simp only [Std.LawfulEqCmp.compare_eq_iff_eq]
        split
        · rename_i hj
          have hc : SortedDict.get compare children k = some c := hc
          rw [hj, hc]
          rfl
        · simp
      · have hne := SortedDict.insert_ne_nil compare children k (applyOperationHelper child p c
          ((resolveServerCache cache syncPoint).map fun node => node.sub [k]) (ref.childWriteTreeRef k)).1
        rw [List.isEmpty_eq_false_iff.2 hne, List.isEmpty_eq_false_iff.2 (List.ne_nil_of_mem hmem)]
      · constructor
        · intro he
          refine ⟨(k, c), hmem, ?_⟩
          dsimp only
          rw [if_pos rfl]
          exact he
        · rintro ⟨x, hx, he⟩
          split at he
          · rename_i hx'
            have hget := SortedDict.get_of_mem ht.sorted hx
            rw [hx'] at hget
            rw [Option.some.inj (hget.symm.trans hc)] at he
            exact he
          · cases he
    · rename_i hnone
      refine served_node ht (g := fun _ c => (c, [])) (fun x hx => ?_) (fun j => by simp) ht.sorted rfl (by simp) applyOperationHere_received
        fun e => mem_applyOperationHere
      refine hstay x hx ?_
      by_cases hx' : x.1 = k
      · rw [hx', hat]
        by_contra hsome
        obtain ⟨child, hchild⟩ := Option.ne_none_iff_exists'.1 hsome
        have hget := SortedDict.get_of_mem ht.sorted hx
        rw [hx'] at hget
        exact hnone child x.2 hchild hget
      · exact hother x.1 hx'

/-- **Every view gets the operation for its place.** -/
theorem served_applyOperationToSyncPoints (t : FSyncTree) (ht : t.syncPointTree.Sound) (op : FOperation) :
    Served (received op t.syncPointTree none ⟨[], t.pendingWriteTree⟩) t.syncPointTree
      ((t.applyOperationToSyncPoints op).1.syncPointTree, (t.applyOperationToSyncPoints op).2) :=
  served_helper ht rfl

end FSyncTree

end Anissagram
