import Anissagram.Firebase.FRepo
import Anissagram.Firebase.Heard
/-
# What the observers of a device see

Each operation of the sync tree leaves every view with the server's node under the waiting writes (`FView.Right`), and
each of its observers with what it shows then (`Told`); `Follows` says so of an operation with all its events. What is
asked of the waiting writes is `FWriteRecord.Kept`: then the oldest can always be removed without a trace.
-/

namespace Anissagram

open PathTree Runs

/-! ## One view -/

namespace FView

variable {view : FView} {op : FOperation} {ref : FWriteTreeRef} {o : Option Node}

theorem applyOperation_snd (view : FView) (op : FOperation) (ref : FWriteTreeRef) (o : Option Node) :
    (view.applyOperation op ref o).2 =
      (FViewProcessor.maybeAddValue view.viewCache (FViewProcessor.applyOperationOn view.viewCache op ref o).1
        ((FChildChangeAccumulator.trackChildChanges
          (FViewProcessor.applyOperationOn view.viewCache op ref o).2).getD [])).toList.flatMap
        fun snapshot => view.eventRegistrations.map fun handle => ⟨handle, snapshot⟩ := rfl

theorem mem_applyOperation {e : FEvent} (he : e ∈ (view.applyOperation op ref o).2) :
    e.handle ∈ view.eventRegistrations ∧
      (view.applyOperation op ref o).1.viewCache.completeEventSnap = some e.snapshot := by
  obtain ⟨n, hn, hmem⟩ := List.mem_flatMap.1 he
  obtain ⟨handle, hhandle, rfl⟩ := List.mem_map.1 hmem
  obtain ⟨hc, rfl⟩ := FViewProcessor.maybeAddValue_eq_some (Option.mem_toList.1 hn)
  exact ⟨hhandle, if_pos hc⟩

/-- A view that shows something else than before has one event for each observer. -/
theorem applyOperation_snd_of_ne {n : Node}
    (hnew : (view.applyOperation op ref o).1.viewCache.completeEventSnap = some n)
    (hold : view.viewCache.completeEventSnap ≠ some n) :
    (view.applyOperation op ref o).2 = view.eventRegistrations.map fun handle => ⟨handle, n⟩ := by
  obtain ⟨changeMap, htrack, hdesc⟩ := FViewProcessor.trackChildChanges_applyOperationOn view.viewCache op ref o
  change (FViewProcessor.applyOperationOn view.viewCache op ref o).1.completeEventSnap = some n at hnew
  obtain ⟨hc, rfl⟩ := FViewCache.of_completeEventSnap hnew
  have hvalue := FViewProcessor.maybeAddValue_of_ne hdesc hc fun hcold hsame => hold <| by
    rw [FViewCache.completeEventSnap, if_pos hcold, hsame]
  rw [applyOperation_snd, htrack, Option.getD_some, hvalue]
  simp

/-- A view that shows something else than before tells all its observers. -/
theorem told_applyOperation {n : Node}
    (hnew : (view.applyOperation op ref o).1.viewCache.completeEventSnap = some n)
    (hold : view.viewCache.completeEventSnap ≠ some n) {handle : Nat} (hh : handle ∈ view.eventRegistrations) :
    ⟨handle, n⟩ ∈ (view.applyOperation op ref o).2 := by
  rw [applyOperation_snd_of_ne hnew hold]
  exact List.mem_map_of_mem hh

/-- **The events of an operation**: none, or one for each observer with what the view shows then; and where the view
shows something else than before, there are events. The accumulator of the changes does not throw. -/
theorem events_applyOperation (view : FView) (op : FOperation) (ref : FWriteTreeRef) (o : Option Node) :
    (FChildChangeAccumulator.trackChildChanges
        (FViewProcessor.applyOperationOn view.viewCache op ref o).2).isSome ∧
      ((view.applyOperation op ref o).2 = [] ∨ ∃ n,
        (view.applyOperation op ref o).1.viewCache.completeEventSnap = some n ∧
          (view.applyOperation op ref o).2 = view.eventRegistrations.map fun handle => ⟨handle, n⟩) ∧
      ∀ n, (view.applyOperation op ref o).1.viewCache.completeEventSnap = some n →
        view.viewCache.completeEventSnap ≠ some n →
          (view.applyOperation op ref o).2 = view.eventRegistrations.map fun handle => ⟨handle, n⟩ := by
  obtain ⟨changeMap, htrack, hdesc⟩ := FViewProcessor.trackChildChanges_applyOperationOn view.viewCache op ref o
  have hevents : ∀ n, (view.applyOperation op ref o).2 = ((some n).toList.flatMap
      fun snapshot => view.eventRegistrations.map fun handle => ⟨handle, snapshot⟩) →
        (view.applyOperation op ref o).2 = view.eventRegistrations.map fun handle => ⟨handle, n⟩ := by
    intro n h
    simpa using h
  refine ⟨by rw [htrack]; rfl, ?_, fun n hnew hold => ?_⟩
  · cases hvalue : FViewProcessor.maybeAddValue view.viewCache
        (FViewProcessor.applyOperationOn view.viewCache op ref o).1 changeMap with
    | none =>
      left
      rw [applyOperation_snd, htrack, Option.getD_some, hvalue]
      rfl
    | some n =>
      right
      obtain ⟨hc, rfl⟩ := FViewProcessor.maybeAddValue_eq_some hvalue
      refine ⟨_, if_pos hc, hevents _ ?_⟩
      rw [applyOperation_snd, htrack, Option.getD_some, hvalue]
      rfl
  · exact applyOperation_snd_of_ne hnew hold

variable {inner : List String → Prop} {w₀ w : FCompoundWrite} {p : List String}

/-- The view at the path shows the server's node under the writes that wait, and its nodes keep to the inner places. -/
structure Right (view : FView) (inner : List String → Prop) (w : FCompoundWrite) (p : List String) : Prop where
  query : view.query = p
  upToDate : view.viewCache.UpToDate (w.childCompoundWriteAtPath p)
  leaves : view.viewCache.cachedServerSnap.node.Leaves fun q _ => ¬ inner (p ++ q)

end FView

namespace FSyncTree

variable {inner : List String → Prop} {w₀ w : FCompoundWrite} {p : List String} {t t' : FImmutableTree String FView}
  {op : FOperation} {cache : Option Node} {writeTree : FWriteTree} {view : FView} {told : Nat → Option Node}
  {events : List FEvent}

theorem received_same (op : FOperation) (t : FImmutableTree String FView) (cache : Option Node) (ref : FWriteTreeRef)
    (p : List String) (view : FView) :
    (received op t cache ref p view).1.query = view.query ∧
      (received op t cache ref p view).1.eventRegistrations = view.eventRegistrations := by
  unfold received FView.receive
  split <;> exact ⟨rfl, rfl⟩

/-- **An operation keeps a view right.** -/
theorem right_received (h : view.Right inner w₀ p) (hfits : op.Fits inner w₀ w) (hw : writeTree.visibleWrites = w)
    (hg₀ : w₀.Grounded inner) (hg : w.Grounded inner) :
    (received op t cache ⟨[], writeTree⟩ p view).1.Right inner w p := by
  have hview : (received op t cache ⟨[], writeTree⟩ p view).1.viewCache.UpToDate (w.childCompoundWriteAtPath p) ∧
      (received op t cache ⟨[], writeTree⟩ p view).1.viewCache.cachedServerSnap.node.Leaves
        fun q _ => ¬ inner (p ++ q) := by
    have harrived := hfits.operationAt p
    unfold received FView.receive
    cases hop : op.operationAt p with
    | none =>
      rw [hop] at harrived
      exact ⟨harrived ▸ h.upToDate, h.leaves⟩
    | some arrived =>
      rw [hop] at harrived
      have hwrites : FWriteTreeRef.writes ⟨[] ++ p, writeTree⟩ = w.childCompoundWriteAtPath p := by
        rw [FWriteTreeRef.writes, hw, List.nil_append]
      exact FViewProcessor.upToDate_applyOperationOn h.upToDate harrived hwrites (hg₀.child p) (hg.child p) h.leaves
        (serverCacheAt t cache p)
  exact ⟨(received_same ..).1.trans h.query, hview.1, hview.2⟩

/-! ## All views -/

/-- All views are right. -/
def AllRight (t : FImmutableTree String FView) (inner : List String → Prop) (w : FCompoundWrite) : Prop :=
  ∀ p view, t.valueAtPath p = some view → view.Right inner w p

/-- Each observer is known to one view, and was handed what the view shows. -/
structure Told (t : FImmutableTree String FView) (told : Nat → Option Node) : Prop where
  unique : ∀ {p p' view view' handle}, t.valueAtPath p = some view → t.valueAtPath p' = some view' →
    handle ∈ view.eventRegistrations → handle ∈ view'.eventRegistrations → p = p'
  told : ∀ {p view handle n}, t.valueAtPath p = some view → handle ∈ view.eventRegistrations →
    view.viewCache.completeEventSnap = some n → told handle = some n

theorem received_events (op : FOperation) (t : FImmutableTree String FView) (cache : Option Node)
    (ref : FWriteTreeRef) (p : List String) (view : FView) :
    (∀ e ∈ (received op t cache ref p view).2, e.handle ∈ view.eventRegistrations ∧
        (received op t cache ref p view).1.viewCache.completeEventSnap = some e.snapshot) ∧
      ∀ n, (received op t cache ref p view).1.viewCache.completeEventSnap = some n →
        view.viewCache.completeEventSnap ≠ some n →
          ∀ handle ∈ view.eventRegistrations, ⟨handle, n⟩ ∈ (received op t cache ref p view).2 := by
  unfold received FView.receive
  split
  · exact ⟨fun e he => FView.mem_applyOperation he, fun n hnew hold handle hh =>
      FView.told_applyOperation hnew hold hh⟩
  · exact ⟨fun e he => absurd he List.not_mem_nil, fun n hnew hold => absurd hnew hold⟩

theorem allRight_served {result : FImmutableTree String FView × List FEvent} (h : AllRight t inner w₀)
    (hserved : Served (received op t cache ⟨[], writeTree⟩) t result) (hfits : op.Fits inner w₀ w)
    (hw : writeTree.visibleWrites = w) (hg₀ : w₀.Grounded inner) (hg : w.Grounded inner) :
    AllRight result.1 inner w := by
  intro p view' hview'
  rw [hserved.views p] at hview'
  obtain ⟨view, hview, rfl⟩ := Option.map_eq_some_iff.1 hview'
  exact right_received (h p view hview) hfits hw hg₀ hg

/-- What the last of the events for an observer says, if they all say the same. -/
theorem tell_eq {handle : Nat} {n : Node} (hall : ∀ e ∈ events, e.handle = handle → e.snapshot = n)
    (hex : (∃ e ∈ events, e.handle = handle) ∨ told handle = some n) :
    Device.tell told events handle = some n := by
  induction events generalizing told with
  | nil =>
    rcases hex with ⟨e, he, -⟩ | h
    · cases he
    · exact h
  | cons e events ih =>
    refine ih (fun x hx => hall x (List.mem_cons_of_mem _ hx)) ?_
    by_cases he : e.handle = handle
    · refine Or.inr ?_
      dsimp only
      rw [he, Function.update_self, hall e List.mem_cons_self he]
    · rcases hex with ⟨x, hx, hxh⟩ | h
      · rcases List.mem_cons.1 hx with rfl | hx
        · exact absurd hxh he
        · exact Or.inl ⟨x, hx, hxh⟩
      · exact Or.inr ((Function.update_of_ne (Ne.symm he) _ _).trans h)

/-- **An operation's events tell every observer what its view shows then.** -/
theorem told_served {ref : FWriteTreeRef} {result : FImmutableTree String FView × List FEvent} (h : Told t told)
    (hserved : Served (received op t cache ref) t result) :
    Told result.1 (Device.tell told result.2) := by
  have hview : ∀ {p view'}, result.1.valueAtPath p = some view' → ∃ view, t.valueAtPath p = some view ∧
      view' = (received op t cache ref p view).1 ∧ view'.eventRegistrations = view.eventRegistrations := by
    intro p view' hview'
    rw [hserved.views p] at hview'
    obtain ⟨view, hview, rfl⟩ := Option.map_eq_some_iff.1 hview'
    exact ⟨view, hview, rfl, (received_same ..).2⟩
  refine ⟨fun hv hv' hh hh' => ?_, fun {p view' handle n} hv hh hn => ?_⟩
  · obtain ⟨view, hview₁, -, hregs⟩ := hview hv
    obtain ⟨view', hview₂, -, hregs'⟩ := hview hv'
    exact h.unique hview₁ hview₂ (hregs ▸ hh) (hregs' ▸ hh')
  · obtain ⟨view, hviewAt, rfl, hregs⟩ := hview hv
    rw [hregs] at hh
    obtain ⟨hof, hto⟩ := received_events op t cache ref p view
    refine tell_eq (fun e he hhandle => ?_) ?_
    · -- the event is one of this view
      obtain ⟨p', view₂, hv₂, he⟩ := (hserved.events e).1 he
      have hin := (received_events op t cache ref p' view₂).1 e he
      obtain rfl := h.unique hviewAt hv₂ hh (hhandle ▸ hin.1)
      obtain rfl : view = view₂ := Option.some.inj (hviewAt.symm.trans hv₂)
      exact Option.some.inj (hin.2.symm.trans hn)
    · by_cases hold : view.viewCache.completeEventSnap = some n
      · exact Or.inr (h.told hviewAt hh hold)
      · exact Or.inl ⟨⟨handle, n⟩, (hserved.events _).2 ⟨p, view, hviewAt, hto n hn hold handle hh⟩, rfl⟩

end FSyncTree

/-! ## The waiting writes -/

/-- What is asked of the writes: an overwrite is at a place no write is below, a merge at the root; above the places
written to, the places are inner. -/
def FWriteRecord.Kept (inner : List String → Prop) (record : FWriteRecord) : Prop :=
  (match record.kind with
    | .overwrite _ => ¬ inner record.path
    | .merge _ => record.path = []) ∧
  ∀ x ∈ record.writes, ∀ q, q <+: x.1 → q ≠ x.1 → inner q

/-- Records like that are removed from the merge without a trace. -/
theorem FWriteRecord.Kept.orderly {inner : List String → Prop} {r : FWriteRecord} {later : List FWriteRecord}
    (hr : r.Kept inner) (hlater : ∀ c ∈ later, c.Kept inner) : FWriteTree.Orderly r later := by
  have hkind := hr.1
  cases hm : r.kind with
  | merge merge =>
    rw [hm] at hkind
    have hkind : r.path = [] := hkind
    cases later with
    | nil => exact Or.inr (Or.inr (by simp))
    | cons c later => exact Or.inr (Or.inl ⟨c, List.mem_cons_self, by rw [hkind]; exact List.nil_prefix⟩)
  | overwrite node =>
    rw [hm] at hkind
    have hkind : ¬ inner r.path := hkind
    by_cases hcontains : ∃ c ∈ later, c.containsPath r.path = true
    · exact Or.inl hcontains
    · refine Or.inr (Or.inr fun x hx w hw hxw => ?_)
      rw [FWriteRecord.writes, hm] at hx
      obtain rfl := List.mem_singleton.1 hx
      obtain ⟨c, hc, hwc⟩ := List.mem_flatMap.1 hw
      -- a write below would make the place inner, a write at it would shadow the record
      have hne : r.path ≠ w.1 := fun heq =>
        hcontains ⟨c, hc, FWriteRecord.containsPath_iff.2 ⟨w, hwc, heq ▸ List.prefix_refl _⟩⟩
      exact absurd ((hlater c hc).2 w hwc r.path hxw hne) hkind

/-- The writes that wait, and their merge. -/
structure FWriteTree.Pending (inner : List String → Prop) (t : FWriteTree) : Prop where
  layered : t.Layered
  visible : ∀ record ∈ t.allWrites, record.visible = true
  kept : ∀ record ∈ t.allWrites, record.Kept inner

namespace FWriteTree.Pending

variable {inner : List String → Prop} {t : FWriteTree}

theorem init : FWriteTree.init.Pending inner :=
  ⟨layered_init, fun _ h => absurd h List.not_mem_nil, fun _ h => absurd h List.not_mem_nil⟩

theorem grounded (h : t.Pending inner) : t.visibleWrites.Grounded inner := by
  intro q y hqy hq hy
  rw [h.layered] at hq hy
  obtain ⟨x, hx, hxy⟩ := shown_ne_none.1 hy
  have hxq : ¬ x.1 <+: q := fun hxq => shown_ne_none.2 ⟨x, hx, hxq⟩ hq
  obtain ⟨record, hrecord, hx⟩ := List.mem_flatMap.1 hx
  exact (h.kept record hrecord).2 x hx q ((List.prefix_or_prefix_of_prefix hqy hxy).resolve_right hxq)
    fun heq => hxq (heq ▸ List.prefix_refl q)

/-- One more write waits. -/
theorem append (h : t.Pending inner) {t' : FWriteTree} {record : FWriteRecord} (hlayered : t'.Layered)
    (hall : t'.allWrites = t.allWrites ++ [record]) (hvisible : record.visible = true) (hkept : record.Kept inner) :
    t'.Pending inner := by
  refine ⟨hlayered, fun x hx => ?_, fun x hx => ?_⟩
  · rcases List.mem_append.1 (hall ▸ hx) with hx | hx
    · exact h.visible x hx
    · rw [List.mem_singleton.1 hx]
      exact hvisible
  · rcases List.mem_append.1 (hall ▸ hx) with hx | hx
    · exact h.kept x hx
    · rw [List.mem_singleton.1 hx]
      exact hkept

theorem addOverwriteAtPath (h : t.Pending inner) {path : List String} (newData : Node) (writeId : Int)
    (hkept : FWriteRecord.Kept inner ⟨path, .overwrite newData, writeId, true⟩) :
    (t.addOverwriteAtPath path newData writeId true).Pending inner :=
  h.append (h.layered.addOverwriteAtPath path newData writeId) rfl rfl hkept

theorem addMergeAtPath (h : t.Pending inner) {path : List String} (changedChildren : FCompoundWrite) (writeId : Int)
    (hkept : FWriteRecord.Kept inner ⟨path, .merge changedChildren, writeId, true⟩) :
    (t.addMergeAtPath path changedChildren writeId).Pending inner :=
  h.append (h.layered.addMergeAtPath path changedChildren writeId) rfl rfl hkept

theorem removeAllWrites (t : FWriteTree) : t.removeAllWrites.1.Pending inner :=
  ⟨FCompoundWrite.shows_emptyWrite, fun _ h => absurd h List.not_mem_nil, fun _ h => absurd h List.not_mem_nil⟩

/-- The oldest write is answered. -/
theorem removeWriteId (h : t.Pending inner) {r : FWriteRecord} {later : List FWriteRecord}
    (hall : t.allWrites = r :: later) :
    ∃ t' changed, t.removeWriteId r.writeId = some (t', changed) ∧ t'.allWrites = later ∧
      (changed = false → t'.visibleWrites = t.visibleWrites) ∧ t'.Pending inner := by
  obtain ⟨t', changed, hremove, hlater, hsame, hiff⟩ := removeWriteId_oldest h.layered hall h.visible
  have hmem : ∀ c ∈ later, c ∈ t.allWrites := fun c hc => hall ▸ List.mem_cons_of_mem r hc
  have horderly := (h.kept r (hall ▸ List.mem_cons_self)).orderly fun c hc => h.kept c (hmem c hc)
  refine ⟨t', changed, hremove, hlater, hsame, hiff.2 horderly, fun c hc => ?_, fun c hc => ?_⟩
  · exact h.visible c (hmem c (hlater ▸ hc))
  · exact h.kept c (hmem c (hlater ▸ hc))

end FWriteTree.Pending

/-! ## The operations of the sync tree -/

namespace FSyncTree

variable {inner : List String → Prop} {t : FSyncTree} {tree : FImmutableTree String FView} {w₀ : FCompoundWrite}
  {op : FOperation} {result : FSyncTree × List FEvent} {srv srv' : Node}

structure Good (inner : List String → Prop) (t : FSyncTree) : Prop where
  sound : t.syncPointTree.Sound
  pending : t.pendingWriteTree.Pending inner
  right : AllRight t.syncPointTree inner t.pendingWriteTree.visibleWrites

/-- The same observers at the same places. -/
def SameObservers (tree tree' : FImmutableTree String FView) : Prop :=
  ∀ p, (tree'.valueAtPath p).map FView.eventRegistrations = (tree.valueAtPath p).map FView.eventRegistrations

/-- What an operation leaves and says, where the views were `tree` and the server's node was `srv` before, and is
`srv'` now. -/
structure Follows (inner : List String → Prop) (tree : FImmutableTree String FView) (srv srv' : Node)
    (result : FSyncTree × List FEvent) : Prop where
  good : result.1.Good inner
  told : ∀ {told}, Told tree told → Told result.1.syncPointTree (Device.tell told result.2)
  same : SameObservers tree result.1.syncPointTree
  heard : AllHeard tree srv → AllHeard result.1.syncPointTree srv'

theorem follows_applyOperationToSyncPoints {writeTree : FWriteTree} (hsound : tree.Sound)
    (hright : AllRight tree inner w₀) (hg₀ : w₀.Grounded inner) (hpending : writeTree.Pending inner)
    (hfits : op.Fits inner w₀ writeTree.visibleWrites) (htells : op.Tells srv srv')
    (hanswer : ∀ path, op = .listenComplete path → HasData tree srv path) :
    Follows inner tree srv srv' (applyOperationToSyncPoints ⟨tree, writeTree⟩ op) := by
  have hserved := served_applyOperationToSyncPoints ⟨tree, writeTree⟩ hsound op
  refine ⟨⟨hserved.sound, hpending, ?_⟩, fun htold => told_served htold hserved, fun p => ?_, fun hheard => ?_⟩
  · exact allRight_served hright hserved hfits rfl hg₀ hpending.grounded
  · rw [hserved.views p, Option.map_map]
    congr 1
    funext view
    exact (received_same ..).2
  · exact allHeard_served hheard hserved (fun p view hview => (hright p view hview).upToDate.unfiltered) htells hanswer

theorem follows_applyUserOverwriteAtPath (h : t.Good inner) {path : List String} (newData : Node) (writeId : Int)
    (hkept : FWriteRecord.Kept inner ⟨path, .overwrite newData, writeId, true⟩) :
    Follows inner t.syncPointTree srv srv (t.applyUserOverwriteAtPath path newData writeId true) := by
  have hfits : FOperation.Fits inner t.pendingWriteTree.visibleWrites (t.pendingWriteTree.visibleWrites.addWrite newData
      path) (.overwrite true path newData) := ⟨rfl, hkept.2 _ List.mem_cons_self⟩
  exact follows_applyOperationToSyncPoints h.sound h.right h.pending.grounded
    (h.pending.addOverwriteAtPath newData writeId hkept) hfits rfl fun _ heq => by cases heq

theorem follows_applyUserMergeAtPath (h : t.Good inner) {path : List String} (changedChildren : FCompoundWrite)
    (writeId : Int) (hkept : FWriteRecord.Kept inner ⟨path, .merge changedChildren, writeId, true⟩) :
    Follows inner t.syncPointTree srv srv (t.applyUserMergeAtPath path changedChildren writeId) := by
  have hfits : FOperation.Fits inner t.pendingWriteTree.visibleWrites
      (t.pendingWriteTree.visibleWrites.addCompoundWrite changedChildren path) (.merge true path changedChildren) :=
    ⟨rfl, fun x hx => hkept.2 _ (List.mem_map.2 ⟨x, hx, rfl⟩)⟩
  exact follows_applyOperationToSyncPoints h.sound h.right h.pending.grounded
    (h.pending.addMergeAtPath changedChildren writeId hkept) hfits rfl fun _ heq => by cases heq

theorem follows_applyServerOverwriteAtPath (h : t.Good inner) {path : List String} {newData : Node}
    (hdata : newData.Leaves fun q _ => ¬ inner (path ++ q)) :
    Follows inner t.syncPointTree srv (srv.set path newData) (t.applyServerOverwriteAtPath path newData) := by
  have hfits : FOperation.Fits inner t.pendingWriteTree.visibleWrites t.pendingWriteTree.visibleWrites
      (.overwrite false path newData) := ⟨rfl, hdata⟩
  exact follows_applyOperationToSyncPoints h.sound h.right h.pending.grounded h.pending hfits rfl
    fun _ heq => by cases heq

theorem follows_applyServerMergeAtPath (h : t.Good inner) {path : List String} {changedChildren : FCompoundWrite}
    (hdata : ∀ x ∈ changedChildren.enumerateWrites, x.2.Leaves fun q _ => ¬ inner (path ++ x.1 ++ q))
    (hroot : changedChildren.rootWrite = none) :
    Follows inner t.syncPointTree srv (srv.set path (changedChildren.applyToNode (srv.sub path)))
      (t.applyServerMergeAtPath path changedChildren) := by
  have hfits : FOperation.Fits inner t.pendingWriteTree.visibleWrites t.pendingWriteTree.visibleWrites
      (.merge false path changedChildren) := ⟨rfl, hdata⟩
  exact follows_applyOperationToSyncPoints h.sound h.right h.pending.grounded h.pending hfits ⟨hroot, rfl⟩
    fun _ heq => by cases heq

theorem follows_applyListenCompleteAtPath (h : t.Good inner) {path : List String}
    (hdata : HasData t.syncPointTree srv path) :
    Follows inner t.syncPointTree srv srv (t.applyListenCompleteAtPath path) := by
  have hfits : FOperation.Fits inner t.pendingWriteTree.visibleWrites t.pendingWriteTree.visibleWrites
      (.listenComplete path) := rfl
  refine follows_applyOperationToSyncPoints h.sound h.right h.pending.grounded h.pending hfits rfl fun path' heq => ?_
  cases heq
  exact hdata

theorem follows_removeAllWrites (h : t.Good inner) : Follows inner t.syncPointTree srv srv t.removeAllWrites := by
  have hpending : t.pendingWriteTree.removeAllWrites.1.Pending inner := .removeAllWrites t.pendingWriteTree
  have hempty : ∀ q, t.pendingWriteTree.removeAllWrites.1.visibleWrites.view q = none :=
    FCompoundWrite.view_emptyWrite
  unfold removeAllWrites
  dsimp only
  split
  · rename_i hno
    refine ⟨⟨h.sound, hpending, ?_⟩, fun htold => htold, fun _ => rfl, fun hheard => hheard⟩
    have hnone : t.pendingWriteTree.allWrites = [] := List.isEmpty_iff.1 hno
    have hsame : t.pendingWriteTree.removeAllWrites.1.visibleWrites = t.pendingWriteTree.visibleWrites := by
      refine FCompoundWrite.ext_view fun q => ?_
      rw [hempty, h.pending.layered q, FWriteTree.writes, hnone, List.flatMap_nil, shown_nil]
    exact hsame ▸ h.right
  · have hfits : FOperation.Fits inner t.pendingWriteTree.visibleWrites FCompoundWrite.emptyWrite
        (.ackUserWrite [] (FImmutableTree.empty.setValue () []) true) :=
      ⟨FImmutableTree.sound_empty.setValue () [], fun q hq => absurd List.nil_prefix (hq [] rfl),
        fun q hq => absurd (hempty q) hq⟩
    exact follows_applyOperationToSyncPoints h.sound h.right h.pending.grounded hpending hfits rfl
      fun _ heq => by cases heq

/-- The affected places are those of the write. -/
theorem affectedTree_spec (write : FWriteRecord) : (affectedTree write).Sound ∧
    ∀ m, ((affectedTree write).valueAtPath m).isSome ↔ ∃ x ∈ write.writes, x.1 = write.path ++ m := by
  unfold affectedTree FWriteRecord.writes
  cases write.kind with
  | overwrite node =>
    refine ⟨FImmutableTree.sound_empty.setValue () [], fun m => ?_⟩
    dsimp only
    rw [FImmutableTree.valueAtPath_setValue]
    simp
  | merge compoundWrite =>
    have hall : ∀ (ws : List (List String × Node)) (tree : FImmutableTree String Unit), tree.Sound →
        (ws.foldl (fun tree write => tree.setValue () write.1) tree).Sound ∧
          ∀ m, ((ws.foldl (fun tree write => tree.setValue () write.1) tree).valueAtPath m).isSome ↔
            (tree.valueAtPath m).isSome ∨ ∃ x ∈ ws, x.1 = m := by
      intro ws
      induction ws with
      | nil => exact fun tree htree => ⟨htree, fun m => by simp⟩
      | cons x ws ih =>
        intro tree htree
        obtain ⟨hsound, hmem⟩ := ih (tree.setValue () x.1) (htree.setValue () x.1)
        refine ⟨hsound, fun m => (hmem m).trans ?_⟩
        rw [FImmutableTree.valueAtPath_setValue]
        by_cases hm : m = x.1
        · simp [hm]
        · simp [hm, Ne.symm hm]
    obtain ⟨hsound, hmem⟩ := hall compoundWrite.enumerateWrites .empty FImmutableTree.sound_empty
    refine ⟨hsound, fun m => (hmem m).trans ?_⟩
    simp

/-- The oldest write is answered. -/
theorem follows_ackUserWriteWithWriteId (h : t.Good inner) {r : FWriteRecord} {later : List FWriteRecord}
    (hall : t.pendingWriteTree.allWrites = r :: later) (revert : Bool) :
    ∃ result, t.ackUserWriteWithWriteId r.writeId revert = some result ∧
      Follows inner t.syncPointTree srv srv result := by
  obtain ⟨t', changed, hremove, hlater, hsame, hpending⟩ := h.pending.removeWriteId hall
  have hfind : t.pendingWriteTree.writeForId r.writeId = some r := by simp [FWriteTree.writeForId, hall]
  have hack : t.ackUserWriteWithWriteId r.writeId revert =
      if changed then some (FSyncTree.applyOperationToSyncPoints { t with pendingWriteTree := t' }
        (.ackUserWrite r.path (affectedTree r) revert)) else some ({ t with pendingWriteTree := t' }, []) := by
    simp only [ackUserWriteWithWriteId, hfind, hremove, Option.bind_eq_bind, Option.bind_some]
    rfl
  rw [hack]
  cases changed with
  | false =>
    exact ⟨_, rfl, ⟨h.sound, hpending, by rw [hsame rfl]; exact h.right⟩, fun htold => htold, fun _ => rfl,
      fun hheard => hheard⟩
  | true =>
    have hbefore : t.pendingWriteTree.visibleWrites.Shows (r.writes ++ later.flatMap FWriteRecord.writes) := by
      have hwrites : t.pendingWriteTree.writes = r.writes ++ later.flatMap FWriteRecord.writes := by
        rw [FWriteTree.writes, hall, List.flatMap_cons]
      exact hwrites ▸ h.pending.layered
    have hafter : t'.visibleWrites.Shows (later.flatMap FWriteRecord.writes) := by
      have hwrites : t'.writes = later.flatMap FWriteRecord.writes := by rw [FWriteTree.writes, hlater]
      exact hwrites ▸ hpending.layered
    obtain ⟨hsound, haffected⟩ := affectedTree_spec r
    have hfits : FOperation.Fits inner t.pendingWriteTree.visibleWrites t'.visibleWrites
        (.ackUserWrite r.path (affectedTree r) revert) := by
      refine ⟨hsound, fun q hq => ?_, fun q hq => ?_⟩
      · -- off the places of the write, the others say what they said
        rw [hbefore q, hafter q]
        refine shown_append_of_not_covered ?_
        rintro ⟨x, hx, hxq⟩
        obtain ⟨m, hm⟩ := FWriteRecord.prefix_of_mem_writes hx
        exact hq m ((haffected m).2 ⟨x, hx, hm.symm⟩) (hm ▸ hxq)
      · rw [hafter q] at hq
        rw [hbefore q, hafter q]
        exact shown_append_of_covered (shown_ne_none.1 hq)
    exact ⟨_, rfl, follows_applyOperationToSyncPoints h.sound h.right h.pending.grounded hpending hfits rfl
      fun _ heq => by cases heq⟩

/-- An operation does not reach what lies apart from its path. -/
theorem operationAt_of_apart {op : FOperation} {p : List String} (h : Apart op.path p) : op.operationAt p = none := by
  induction p generalizing op with
  | nil => exact absurd List.nil_prefix h.2
  | cons k p ih =>
    rw [operationAt_cons, operationAt_singleton]
    split
    · rename_i hfront
      cases hchild : op.operationForChild k with
      | none => rfl
      | some child =>
        have hpath := operationForChild_path hchild
        rcases hfront with hnil | hhead
        · exact absurd (hnil ▸ List.nil_prefix) h.1
        · obtain ⟨rest, hrest⟩ := List.head?_eq_some_iff.1 hhead
          rw [hrest] at h hpath
          exact ih (by rw [hpath]; exact apart_cons.1 h)
    · rfl

/-- **Views apart from an operation do not notice it**: they stay as they are, and each event is one of another view,
for an observer of it and with what it shows afterwards. -/
theorem apart_applyOperationToSyncPoints (ht : t.syncPointTree.Sound) (op : FOperation) :
    (∀ p, Apart op.path p →
        (t.applyOperationToSyncPoints op).1.syncPointTree.valueAtPath p = t.syncPointTree.valueAtPath p) ∧
      ∀ e ∈ (t.applyOperationToSyncPoints op).2, ∃ p view view', ¬ Apart op.path p ∧
        t.syncPointTree.valueAtPath p = some view ∧ e.handle ∈ view.eventRegistrations ∧
          (t.applyOperationToSyncPoints op).1.syncPointTree.valueAtPath p = some view' ∧
            view'.viewCache.completeEventSnap = some e.snapshot := by
  have hserved := served_applyOperationToSyncPoints t ht op
  refine ⟨fun p hp => ?_, fun e he => ?_⟩
  · refine (hserved.views p).trans ?_
    have hsame : ∀ view, (received op t.syncPointTree none ⟨[], t.pendingWriteTree⟩ p view).1 = view := by
      intro view
      rw [received, operationAt_of_apart hp]
      rfl
    simp only [hsame, Option.map_id']
  · obtain ⟨p, view, hview, he⟩ := (hserved.events e).1 he
    obtain ⟨hhandle, hsnapshot⟩ := (received_events ..).1 e he
    refine ⟨p, view, _, fun hp => ?_, hview, hhandle, ?_, hsnapshot⟩
    · rw [received, operationAt_of_apart hp] at he
      cases he
    · rw [hserved.views p, hview, Option.map_some]

/-- A write to one user, with an observer of another one. -/
theorem apart_users :
    ((FSyncTree.init.addEventRegistration 1 ["users", "alice"]).1.applyOperationToSyncPoints
      (.overwrite true ["users", "bob"] Tree.empty)).1.syncPointTree.valueAtPath ["users", "alice"] =
        (FSyncTree.init.addEventRegistration 1 ["users", "alice"]).1.syncPointTree.valueAtPath ["users", "alice"] :=
  (apart_applyOperationToSyncPoints (t := (FSyncTree.init.addEventRegistration 1 ["users", "alice"]).1)
    (FImmutableTree.sound_empty.setValue _ _) (.overwrite true ["users", "bob"] Tree.empty)).1
    ["users", "alice"] ⟨by decide, by decide⟩

end FSyncTree

end Anissagram
