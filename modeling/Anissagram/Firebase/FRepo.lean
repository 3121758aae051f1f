import Anissagram.Firebase.Relative
import Anissagram.Lib.Runs
/-
# `FRepo` (`Core/FRepo.m`) and the observers of a device

| here | there |
| --- | --- |
| `FRepo.*` | the methods of `FRepo.m` |
| `FRepo.listen`, `unlisten`, `onListenResponse`, `onListenRevoked` | `FPersistentConnection.m`, its table of listens |
| `Device.step` | one call of the app, or one message of the server |
| `Device.told` | what each observer was handed last |

The queries the device listens to are those of `FPersistentConnection.listens`. Server values, transactions and the
`.info` tree are left out; the app has none. Range merges (`onRangeMerge:forPath:tagId:`), with which the server may
answer a listen that was sent with a compound hash, are left out too. An observer is called for each of its events, in
their order.
-/

namespace Anissagram

open PathTree

structure FRepo where
  writeIdCounter : Int
  serverSyncTree : FSyncTree
  listens : Finset (List String)

namespace FRepo

def init : FRepo where
  writeIdCounter := 0
  serverSyncTree := .init
  listens := ∅

/-! ## Listens -/

/-- `listen:tagId:hash:onComplete:` (:184); to be called twice trips its assertion. -/
def listen (listens : Finset (List String)) (query : List String) : Option (Finset (List String)) :=
  if query ∈ listens then none else some (insert query listens)

/-- `unlisten:tagId:` (:279). -/
def unlisten (listens : Finset (List String)) (query : List String) : Finset (List String) := listens.erase query

/-- The sync tree's requests, in their order. -/
def answerRequests (listens : Finset (List String)) : List FListenRequest → Option (Finset (List String))
  | [] => some listens
  | .startListening query :: requests => do answerRequests (← listen listens query) requests
  | .stopListening query :: requests => answerRequests (unlisten listens query) requests

/-! ## Writes -/

/-- `set:withNode:withCallback:` (:311). -/
def set (r : FRepo) (path : List String) (node : Node) : FRepo × List FEvent :=
  let writeId := r.writeIdCounter
  let (serverSyncTree, events) := r.serverSyncTree.applyUserOverwriteAtPath path node writeId true
  ({ r with writeIdCounter := writeId + 1, serverSyncTree }, events)

/-- `update:withNodes:withCallback:` (:360). -/
def update (r : FRepo) (path : List String) (nodes : FCompoundWrite) : FRepo × List FEvent :=
  if nodes.isEmpty then (r, [])
  else
    let writeId := r.writeIdCounter
    let (serverSyncTree, events) := r.serverSyncTree.applyUserMergeAtPath path nodes writeId
    ({ r with writeIdCounter := writeId + 1, serverSyncTree }, events)

/-- `ackWrite:rerunTransactionsAtPath:status:` (:593). -/
def ackWrite (r : FRepo) (writeId : Int) (status : String) : Option (FRepo × List FEvent) :=
  if status = "write_canceled" then some (r, [])
  else do
    let success : Bool := status = "ok"
    let (serverSyncTree, clearEvents) ← r.serverSyncTree.ackUserWriteWithWriteId writeId !success
    return ({ r with serverSyncTree }, clearEvents)

/-- `purgeOutstandingWrites` (:506); the puts are cancelled, which `ackWrite:` ignores. -/
def purgeOutstandingWrites (r : FRepo) : FRepo × List FEvent :=
  let (serverSyncTree, events) := r.serverSyncTree.removeAllWrites
  ({ r with serverSyncTree }, events)

/-! ## The server's messages -/

/-- `onDataUpdate:forPath:message:isMerge:tagId:` (:624), with the data as a node or as a merge. -/
def onDataUpdate (r : FRepo) (path : List String) (data : Node ⊕ FCompoundWrite) : FRepo × List FEvent :=
  let (serverSyncTree, events) :=
    match data with
    | .inl snap => r.serverSyncTree.applyServerOverwriteAtPath path snap
    | .inr changedChildren => r.serverSyncTree.applyServerMergeAtPath path changedChildren
  ({ r with serverSyncTree }, events)

/-- A listen has failed: it is no longer one, and its `onComplete` (`FSyncTree.m` :869) removes the observers. -/
def onListenFailed (r : FRepo) (query : List String) : Option FRepo := do
  let listens := r.listens.erase query
  let (serverSyncTree, requests) := r.serverSyncTree.removeEventRegistration none query true
  return { r with serverSyncTree, listens := ← answerRequests listens requests }

/-- The answer to a listen (:795); without the listen nothing happens. -/
def onListenResponse (r : FRepo) (query : List String) (ok : Bool) : Option (FRepo × List FEvent) :=
  if query ∈ r.listens then
    if ok then
      let (serverSyncTree, events) := r.serverSyncTree.applyListenCompleteAtPath query
      some ({ r with serverSyncTree }, events)
    else do return (← r.onListenFailed query, [])
  else some (r, [])

/-- `onListenRevoked:` (:639). -/
def onListenRevoked (r : FRepo) (path : List String) : Option (FRepo × List FEvent) :=
  if path ∈ r.listens then do return (← r.onListenFailed path, []) else some (r, [])

/-! ## Observers -/

/-- `addEventRegistration:forQuery:` (:516). -/
def addEventRegistration (r : FRepo) (eventRegistration : Nat) (path : List String) : Option (FRepo × List FEvent) := do
  let (serverSyncTree, events, requests) := r.serverSyncTree.addEventRegistration eventRegistration path
  return ({ r with serverSyncTree, listens := ← answerRequests r.listens requests }, events)

/-- `removeEventRegistration:forQuery:` (:529). -/
def removeEventRegistration (r : FRepo) (eventRegistration : Option Nat) (path : List String) : Option FRepo := do
  let (serverSyncTree, requests) := r.serverSyncTree.removeEventRegistration eventRegistration path false
  return { r with serverSyncTree, listens := ← answerRequests r.listens requests }

end FRepo

/-! ## The device -/

/-- The repository, the handles given out so far, and what each observer was handed last. -/
structure Device where
  repo : FRepo
  localUid : Nat
  told : Nat → Option Node

namespace Device

def init : Device where
  repo := .init
  localUid := 1
  told _ := none

inductive Call where
  | set (path : List String) (node : Node)
  | update (path : List String) (nodes : FCompoundWrite)
  | purgeOutstandingWrites
  | observe (path : List String)
  | removeObserver (handle : Option Nat) (path : List String)
  | ackWrite (writeId : Int) (status : String)
  | onDataUpdate (path : List String) (data : Node ⊕ FCompoundWrite)
  | onListenResponse (query : List String) (ok : Bool)
  | onListenRevoked (path : List String)

/-- The observers after the events, which reach them in their order. -/
def tell (told : Nat → Option Node) (events : List FEvent) : Nat → Option Node :=
  events.foldl (fun told event => Function.update told event.handle (some event.snapshot)) told

def raiseEvents (c : Device) (repo : FRepo) (events : List FEvent) : Device :=
  { c with repo, told := tell c.told events }

/-- `none` where a query is listened to twice (`FPersistentConnection.m` :190) or `removeWriteId:` is called for a write
that does not wait (`FWriteTree.m` :147). The other assertions on these paths are not modelled. -/
def step (c : Device) : Call → Option Device
  | .set path node => some (c.raiseEvents (c.repo.set path node).1 (c.repo.set path node).2)
  | .update path nodes => some (c.raiseEvents (c.repo.update path nodes).1 (c.repo.update path nodes).2)
  | .purgeOutstandingWrites => some (c.raiseEvents c.repo.purgeOutstandingWrites.1 c.repo.purgeOutstandingWrites.2)
  | .observe path => do
    let handle := c.localUid
    let (repo, events) ← c.repo.addEventRegistration handle path
    return { c with localUid := handle + 1 }.raiseEvents repo events
  | .removeObserver handle path => do return c.raiseEvents (← c.repo.removeEventRegistration handle path) []
  | .ackWrite writeId status => do
    let (repo, events) ← c.repo.ackWrite writeId status
    return c.raiseEvents repo events
  | .onDataUpdate path data => some (c.raiseEvents (c.repo.onDataUpdate path data).1 (c.repo.onDataUpdate path data).2)
  | .onListenResponse query ok => do
    let (repo, events) ← c.repo.onListenResponse query ok
    return c.raiseEvents repo events
  | .onListenRevoked path => do
    let (repo, events) ← c.repo.onListenRevoked path
    return c.raiseEvents repo events

end Device

end Anissagram
