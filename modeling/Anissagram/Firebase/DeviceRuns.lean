import Anissagram.Firebase.Listens
import Anissagram.Firebase.Observers
/-
# Runs of a device

What holds in every run of the calls of the app and the messages of the server, in any order, and with observers that
come and go. Whatever the calls (`Device.Ready`): the server is asked for each view through just one listen
(`listens_of_reach`), no query is listened to twice and each write has a higher id than those before it, which
`FPersistentConnection` (:190) and `FWriteTree` (:85, :107) assert, and `removeWriteId:` fails its assertion (:147) only
where the server answers a write that does not wait (`step_eq_none_iff`). These are the assertions that are modelled.

In the runs of `Device.Allowed` (`Device.Inv`) each observer of a view that has heard from the server, or that a waiting
write covers, was last handed the server's node under the waiting writes (`told_of_reach`). There the writes are
answered in their order; the app's merges are at the root, and it sets no value at a place above others; no node of the
server has a leaf at such an `inner` place; and a listen is answered once the device has the data.
-/

namespace Anissagram

open PathTree Runs

namespace FSyncTree

variable {inner : List String → Prop} {t : FSyncTree} {tree tree' : FImmutableTree String FView} {srv : Node}
  {path : List String} {view : FView} {told : Nat → Option Node} {handle : Nat}

/-! ## A new view -/

/-- What the server has said of a query, as far as the views on the way to it, or its children, know. -/
theorem serverCacheForQuery_spec (h : t.Good inner) (hheard : AllHeard t.syncPointTree srv) (path : List String) :
    ((t.serverCacheForQuery path).node.Leaves fun q _ => ¬ inner (path ++ q)) ∧
      ((t.serverCacheForQuery path).isFullyInitialized = true →
        (t.serverCacheForQuery path).node = srv.sub path) := by
  unfold serverCacheForQuery
  dsimp only
  rw [FImmutableTree.forEachOnPath_find]
  split
  · rename_i n hfind
    obtain ⟨r, view, ⟨rest, rfl⟩, hview, hblock⟩ := FImmutableTree.of_findOnPath_some hfind
    rw [List.nil_append, List.drop_left] at hblock
    obtain ⟨snap, hsnap, rfl⟩ := Option.map_eq_some_iff.1 hblock
    obtain ⟨hc, rfl⟩ := FViewCache.of_completeServerSnap hsnap
    refine ⟨fun q v hq => ?_, fun _ => ?_⟩
    · have hleaf : ¬ inner (r ++ (rest ++ q)) := (h.right r view hview).leaves (rest ++ q) v hq
      rwa [← List.append_assoc] at hleaf
    · dsimp only
      rw [hheard r view hview hc, Tree.sub_sub]
  · refine ⟨?_, fun hc => by cases hc⟩
    -- one child at a time: what is stored has no leaf at an inner place
    have hall : ∀ (f : Node → String × FView → Node),
        (∀ n c, f n c = n ∨ ∃ snap, c.2.completeServerCacheFor [] = some snap ∧ f n c = n.set [c.1] snap) →
        ∀ (cs : List (String × FView)) (n : Node),
          (∀ c ∈ cs, t.syncPointTree.valueAtPath (path ++ [c.1]) = some c.2) →
          (n.Leaves fun q _ => ¬ inner (path ++ q)) → (cs.foldl f n).Leaves fun q _ => ¬ inner (path ++ q) := by
      intro f hf cs
      induction cs with
      | nil => exact fun n _ hn => hn
      | cons c cs ih =>
        intro n hcs hn
        refine ih (f n c) (fun x hx => hcs x (List.mem_cons_of_mem _ hx)) ?_
        obtain hsame | ⟨completeCache, hcache, hset⟩ := hf n c
        · rw [hsame]
          exact hn
        · obtain ⟨snap, hsnap, rfl⟩ := Option.map_eq_some_iff.1 hcache
          have hright := h.right _ c.2 (hcs c List.mem_cons_self)
          obtain ⟨-, rfl⟩ := FViewCache.of_completeServerSnap hsnap
          rw [hset]
          refine hn.set fun q v hq => ?_
          have hleaf : ¬ inner (path ++ [c.1] ++ q) := hright.leaves q v hq
          rwa [List.append_assoc] at hleaf
    refine hall _ (fun n c => ?_) _ Tree.empty (fun c hc => ?_) (Tree.leaves_empty _)
    · cases c.2.completeServerCacheFor [] with
      | none => exact .inl rfl
      | some completeCache => exact .inr ⟨completeCache, rfl, rfl⟩
    rw [← FImmutableTree.valueAtPath_subtreeAtPath]
    exact (h.sound.subtreeAtPath path).mem_forEachChild.1 hc

/-- **A new view is right**, and has what the server said. -/
theorem right_newView (h : t.Good inner) (hheard : AllHeard t.syncPointTree srv) (handle : Nat) (path : List String) :
    (t.newView handle path).1.Right inner t.pendingWriteTree.visibleWrites path ∧
      (t.newView handle path).1.viewCache.Heard (srv.sub path) := by
  obtain ⟨hleaves, hsrv⟩ := serverCacheForQuery_spec h hheard path
  have hserver : (t.newView handle path).1.viewCache.cachedServerSnap =
      ⟨(t.serverCacheForQuery path).node, (t.serverCacheForQuery path).isFullyInitialized, false⟩ := rfl
  have habove : NoLeafAbove (t.serverCacheForQuery path).node (FWriteTreeRef.writes ⟨path, t.pendingWriteTree⟩).view :=
    (h.pending.grounded.child path).noLeafAbove hleaves
  refine ⟨⟨rfl, ⟨⟨rfl, rfl⟩, fun hknown => ?_⟩, hleaves⟩, hsrv⟩
  rw [hserver] at hknown ⊢
  have hevent : ∃ e, FWriteTreeRef.calculateCompleteEventCache ⟨path, t.pendingWriteTree⟩
      (if (t.serverCacheForQuery path).isFullyInitialized then some (t.serverCacheForQuery path).node else none) =
        some e ∧ (FWriteTreeRef.writes ⟨path, t.pendingWriteTree⟩).Overlaid (t.serverCacheForQuery path).node e := by
    by_cases hsh : (FWriteTreeRef.writes ⟨path, t.pendingWriteTree⟩).view [] = none
    · rw [if_pos (hknown.resolve_right (not_not.2 hsh))]
      exact FWriteTreeRef.calculateCompleteEventCache_some habove
    · exact FWriteTreeRef.calculateCompleteEventCache_of_shadowed hsh _ _
  obtain ⟨e, he, hover⟩ := hevent
  have hview : (t.newView handle path).1.viewCache.cachedEventSnap = ⟨e, true, false⟩ := by
    simp only [newView, FSyncPoint.addEventRegistration, FSyncPoint.viewForNonExistingQuery, FView.initWithQuery, he]
    rfl
  rw [hview]
  exact ⟨rfl, hover⟩

/-! ## Observers come -/

theorem mem_initialEvents {e : FEvent} : e ∈ (FSyncPoint.addEventRegistration view handle).2 ↔
    e.handle = handle ∧ view.viewCache.completeEventSnap = some e.snapshot := by
  unfold FSyncPoint.addEventRegistration FView.initialEvents
  rw [List.mem_map]
  constructor
  · rintro ⟨n, hn, rfl⟩
    exact ⟨rfl, Option.mem_toList.1 hn⟩
  · rintro ⟨rfl, hn⟩
    exact ⟨e.snapshot, Option.mem_toList.2 hn, rfl⟩

/-- A new observer is handed what the view shows. -/
theorem told_addEventRegistration (h : Told tree told)
    (hfresh : ∀ p view, tree.valueAtPath p = some view → handle ∉ view.eventRegistrations)
    (hold : ∀ x ∈ view.eventRegistrations, tree.valueAtPath path = some view) :
    Told (tree.setValue (FSyncPoint.addEventRegistration view handle).1 path)
      (Device.tell told (FSyncPoint.addEventRegistration view handle).2) := by
  -- an observer is the new one or was there before, at the same view
  have hmem : ∀ {p view₁ x}, (tree.setValue (FSyncPoint.addEventRegistration view handle).1 path).valueAtPath p =
      some view₁ → x ∈ view₁.eventRegistrations → x = handle ∧ p = path ∧ view₁.viewCache = view.viewCache ∨
        x ≠ handle ∧ ∃ view₀, tree.valueAtPath p = some view₀ ∧ x ∈ view₀.eventRegistrations ∧
          view₁.viewCache = view₀.viewCache := by
    intro p view₁ x hview₁ hx
    rw [FImmutableTree.valueAtPath_setValue] at hview₁
    split at hview₁
    · rename_i hp
      obtain rfl := Option.some.inj hview₁
      rcases List.mem_append.1 hx with hx | hx
      · have hview := hold x hx
        exact Or.inr ⟨fun heq => hfresh path view hview (heq ▸ hx), view, hp ▸ hview, hx, rfl⟩
      · exact Or.inl ⟨List.mem_singleton.1 hx, hp, rfl⟩
    · exact Or.inr ⟨fun heq => hfresh p view₁ hview₁ (heq ▸ hx), view₁, hview₁, hx, rfl⟩
  refine ⟨fun hv hv' hx hx' => ?_, fun {p view₁ x n} hv hx hn => ?_⟩
  · rcases hmem hv hx with ⟨hx, hp, -⟩ | ⟨hne, view₀, hv₀, hx₀, -⟩
    · rcases hmem hv' hx' with ⟨-, hp', -⟩ | ⟨hne, -⟩
      · rw [hp, hp']
      · exact absurd hx hne
    · rcases hmem hv' hx' with ⟨heq, -⟩ | ⟨-, view₀', hv₀', hx₀', -⟩
      · exact absurd heq hne
      · exact h.unique hv₀ hv₀' hx₀ hx₀'
  · rcases hmem hv hx with ⟨rfl, -, hsame⟩ | ⟨hne, view₀, hv₀, hx₀, hsame⟩
    · rw [hsame] at hn
      refine tell_eq (fun e he _ => ?_) (Or.inl ⟨⟨x, n⟩, mem_initialEvents.2 ⟨rfl, hn⟩, rfl⟩)
      exact Option.some.inj ((mem_initialEvents.1 he).2.symm.trans hn)
    · rw [hsame] at hn
      refine tell_eq (fun e he heq => ?_) (Or.inr (h.told hv₀ hx₀ hn))
      exact absurd (heq.symm.trans (mem_initialEvents.1 he).1) hne

theorem good_setValue (h : t.Good inner) (hview : view.Right inner t.pendingWriteTree.visibleWrites path) :
    FSyncTree.Good inner ⟨t.syncPointTree.setValue view path, t.pendingWriteTree⟩ := by
  refine ⟨h.sound.setValue view path, h.pending, fun p view₁ hview₁ => ?_⟩
  rw [FImmutableTree.valueAtPath_setValue] at hview₁
  split at hview₁
  · rename_i hp
    rw [hp, ← Option.some.inj hview₁]
    exact hview
  · exact h.right p view₁ hview₁

theorem allHeard_setValue (h : AllHeard tree srv) (hview : view.viewCache.Heard (srv.sub path)) :
    AllHeard (tree.setValue view path) srv := by
  intro p view₁ hview₁
  rw [FImmutableTree.valueAtPath_setValue] at hview₁
  split at hview₁
  · rename_i hp
    rw [hp, ← Option.some.inj hview₁]
    exact hview
  · exact h p view₁ hview₁

/-! ## Observers go -/

/-- Views are left as they were, with fewer observers, or removed. -/
def Thinned (tree tree' : FImmutableTree String FView) : Prop :=
  ∀ p view', tree'.valueAtPath p = some view' → ∃ view, tree.valueAtPath p = some view ∧ view'.query = view.query ∧
    view'.viewCache = view.viewCache ∧ ∀ x ∈ view'.eventRegistrations, x ∈ view.eventRegistrations

theorem Thinned.allTold (hthin : Thinned tree tree') (h : Told tree told) : Told tree' told := by
  refine ⟨fun hv hv' hx hx' => ?_, fun hv hx hn => ?_⟩
  · obtain ⟨view, hview, -, -, hregs⟩ := hthin _ _ hv
    obtain ⟨view', hview', -, -, hregs'⟩ := hthin _ _ hv'
    exact h.unique hview hview' (hregs _ hx) (hregs' _ hx')
  · obtain ⟨view, hview, -, hcache, hregs⟩ := hthin _ _ hv
    exact h.told hview (hregs _ hx) (hcache ▸ hn)

theorem Thinned.allHeard (hthin : Thinned tree tree') (h : AllHeard tree srv) : AllHeard tree' srv := by
  intro p view' hview'
  obtain ⟨view, hview, -, hcache, -⟩ := hthin p view' hview'
  rw [hcache]
  exact h p view hview

theorem Thinned.allRight {w : FCompoundWrite} (hthin : Thinned tree tree') (h : AllRight tree inner w) :
    AllRight tree' inner w := by
  intro p view' hview'
  obtain ⟨view, hview, hquery, hcache, -⟩ := hthin p view' hview'
  have hright := h p view hview
  exact ⟨hquery.trans hright.query, hcache.symm ▸ hright.upToDate, hcache.symm ▸ hright.leaves⟩

theorem removeEventRegistration_spec (hsound : t.syncPointTree.Sound) (handle : Option Nat) (path : List String)
    (cancelError : Bool) :
    (t.removeEventRegistration handle path cancelError).1.pendingWriteTree = t.pendingWriteTree ∧
      (t.removeEventRegistration handle path cancelError).1.syncPointTree.Sound ∧
      Thinned t.syncPointTree (t.removeEventRegistration handle path cancelError).1.syncPointTree := by
  have hrefl : Thinned t.syncPointTree t.syncPointTree := fun p view hview => ⟨view, hview, rfl, rfl, fun _ hx => hx⟩
  have hremoved : Thinned t.syncPointTree (t.syncPointTree.removeValueAtPath path) := by
    intro p view hview
    rw [FImmutableTree.valueAtPath_removeValueAtPath hsound] at hview
    split at hview
    · cases hview
    · exact ⟨view, hview, rfl, rfl, fun _ hx => hx⟩
  unfold removeEventRegistration
  split
  · exact ⟨rfl, hsound, hrefl⟩
  · rename_i view hview
    dsimp only
    split
    · split
      · exact ⟨rfl, hsound.removeValueAtPath path, hremoved⟩
      · exact ⟨rfl, hsound.removeValueAtPath path, hremoved⟩
    · refine ⟨rfl, hsound.setValue _ path, fun p view' hview' => ?_⟩
      dsimp only at hview'
      rw [FImmutableTree.valueAtPath_setValue] at hview'
      split at hview'
      · rename_i hp
        obtain rfl := Option.some.inj hview'
        refine ⟨view, hp ▸ hview, ?_⟩
        cases handle with
        | none => exact ⟨rfl, rfl, fun x hx => absurd hx List.not_mem_nil⟩
        | some handle => exact ⟨rfl, rfl, fun x hx => (List.mem_filter.1 hx).1⟩
      · exact hrefl p view' hview'

/-! ## The same views -/

/-- Views are left where they were. -/
structure SamePlaces (tree tree' : FImmutableTree String FView) : Prop where
  sound : tree'.Sound
  query : ∀ p, (tree'.valueAtPath p).map FView.query = (tree.valueAtPath p).map FView.query

theorem SamePlaces.hasView (h : SamePlaces tree tree') : HasView tree' = HasView tree := by
  funext p
  have hsame := congrArg Option.isSome (h.query p)
  rw [Option.isSome_map, Option.isSome_map] at hsame
  rw [HasView, HasView, hsame]

theorem SamePlaces.queried (h : SamePlaces tree tree') (hquery : Queried tree) : Queried tree' := by
  intro p view' hview'
  have hsame := h.query p
  rw [hview', Option.map_some] at hsame
  obtain ⟨view, hview, hq⟩ := Option.map_eq_some_iff.1 hsame.symm
  rw [← hq]
  exact hquery p view hview

/-- An operation changes what views hold. -/
theorem samePlaces_applyOperationToSyncPoints (t : FSyncTree) (hsound : t.syncPointTree.Sound) (op : FOperation) :
    SamePlaces t.syncPointTree (t.applyOperationToSyncPoints op).1.syncPointTree := by
  have hserved := served_applyOperationToSyncPoints t hsound op
  refine ⟨hserved.sound, fun p => ?_⟩
  rw [hserved.views p, Option.map_map]
  congr 1
  funext view
  exact (received_same ..).1

theorem Thinned.queried (hthin : Thinned tree tree') (hquery : Queried tree) : Queried tree' := by
  intro p view' hview'
  obtain ⟨view, hview, hq, -⟩ := hthin p view' hview'
  exact hq.trans (hquery p view hview)

theorem queried_setValue (hquery : Queried tree) (hview : view.query = path) : Queried (tree.setValue view path) := by
  intro p view' hview'
  rw [FImmutableTree.valueAtPath_setValue] at hview'
  split at hview'
  · rename_i hp
    rw [← Option.some.inj hview', hview, hp]
  · exact hquery p view' hview'

/-- There is a view where an observer has come. -/
theorem addEventRegistration_spec (hquery : Queried t.syncPointTree) (handle : Nat) (path : List String) :
    ∃ view : FView, view.query = path ∧ (t.addEventRegistration handle path).1 =
      ⟨t.syncPointTree.setValue view path, t.pendingWriteTree⟩ := by
  cases hv : t.syncPointTree.valueAtPath path with
  | some view =>
    refine ⟨(FSyncPoint.addEventRegistration view handle).1, hquery path view hv, ?_⟩
    rw [addEventRegistration_of_some _ _ hv]
  | none =>
    refine ⟨(t.newView handle path).1, rfl, ?_⟩
    rw [addEventRegistration_of_none _ _ hv]

end FSyncTree

/-! ## Write ids -/

namespace FWriteTree

variable {t : FWriteTree} {n writeId : Int}

/-- The next id is higher than those that are waiting and than the one before. -/
structure Below (t : FWriteTree) (n : Int) : Prop where
  nonneg : 0 ≤ n
  last : t.lastWriteId < n
  all : ∀ record ∈ t.allWrites, record.writeId < n

theorem Below.append (h : t.Below n) {t' : FWriteTree} {record : FWriteRecord} (hid : record.writeId = n)
    (hall : t'.allWrites = t.allWrites ++ [record]) (hlast : t'.lastWriteId = n) : t'.Below (n + 1) := by
  refine ⟨Int.le_add_one h.nonneg, hlast ▸ Int.lt_succ n, fun x hx => ?_⟩
  rw [hall] at hx
  rcases List.mem_append.1 hx with hx | hx
  · exact (h.all x hx).trans (Int.lt_succ n)
  · rw [List.mem_singleton.1 hx, hid]
    exact Int.lt_succ n

/-- Rebuilt, the tree goes back to the id of the last write that waits. -/
theorem Below.resetTree (h : t.Below n) : t.resetTree.Below n := by
  refine ⟨h.nonneg, ?_, h.all⟩
  change ((t.allWrites.getLast?.map FWriteRecord.writeId).getD (-1)) < n
  cases hl : t.allWrites.getLast? with
  | none =>
    have hn := h.nonneg
    simp only [Option.map_none, Option.getD_none]
    omega
  | some record => exact h.all record (List.mem_of_getLast? hl)

theorem Below.afterRemoval (h : t.Below n) (writeToRemove : FWriteRecord) (index : Nat) :
    (t.afterRemoval writeToRemove index).1.Below n := by
  unfold FWriteTree.afterRemoval
  dsimp only
  split
  · exact h
  · split
    · exact h.resetTree
    · split
      · exact ⟨h.nonneg, h.last, h.all⟩
      · exact ⟨h.nonneg, h.last, h.all⟩

/-- `removeWriteId:` finds the write, or there is none. -/
theorem Below.removeWriteId (h : t.Below n) (writeId : Int) :
    (∃ r, t.removeWriteId writeId = some r ∧ r.1.Below n ∧ ∃ record ∈ t.allWrites, record.writeId = writeId) ∨
      t.removeWriteId writeId = none ∧ ∀ record ∈ t.allWrites, record.writeId ≠ writeId := by
  cases hindex : t.allWrites.findIdx? fun record => record.writeId = writeId with
  | none =>
    refine Or.inr ⟨?_, by simpa using hindex⟩
    simp only [FWriteTree.removeWriteId, hindex]
    rfl
  | some index =>
    obtain ⟨hlt, hid, -⟩ := List.findIdx?_eq_some_iff_getElem.1 hindex
    have hrest : FWriteTree.Below { t with allWrites := t.allWrites.eraseIdx index } n :=
      ⟨h.nonneg, h.last, fun x hx => h.all x (List.mem_of_mem_eraseIdx hx)⟩
    refine Or.inl ⟨_, ?_, hrest.afterRemoval t.allWrites[index] index, t.allWrites[index], List.getElem_mem hlt, by
      simpa using hid⟩
    have hget : t.allWrites[index]? = some t.allWrites[index] := List.getElem?_eq_getElem hlt
    simp only [FWriteTree.removeWriteId, hindex, Option.bind_eq_bind, Option.bind_some, hget]

end FWriteTree

/-! ## Whatever is called -/

namespace Device

variable {inner : List String → Prop} {c c' : Device} {srv srv' : Node} {hist : History Device Call} {call : Call}

open FSyncTree

/-- The listens and the ids are in order. -/
structure Ready (c : Device) : Prop where
  sound : c.repo.serverSyncTree.syncPointTree.Sound
  queried : Queried c.repo.serverSyncTree.syncPointTree
  listens : ∀ q, q ∈ c.repo.listens ↔ Topmost (HasView c.repo.serverSyncTree.syncPointTree) q
  ids : c.repo.serverSyncTree.pendingWriteTree.Below c.repo.writeIdCounter

theorem ready_init : Ready init := by
  have hnone : ∀ p, init.repo.serverSyncTree.syncPointTree.valueAtPath p = none := FImmutableTree.valueAtPath_empty
  refine ⟨FImmutableTree.sound_empty, fun p view hview => ?_, fun q => ?_, ⟨le_rfl, by decide, fun x hx => nomatch hx⟩⟩
  · rw [hnone] at hview
    cases hview
  · refine iff_of_false (Finset.notMem_empty q) fun htop => ?_
    have hhas := htop.1
    rw [HasView, hnone] at hhas
    cases hhas

/-- The server answers a write that does not wait. -/
def Stray (c : Device) (call : Call) : Prop :=
  ∃ writeId status, call = .ackWrite writeId status ∧ status ≠ "write_canceled" ∧
    ∀ record ∈ c.repo.serverSyncTree.pendingWriteTree.allWrites, record.writeId ≠ writeId

/-- Views stay where they are. -/
theorem Ready.samePlaces (h : Ready c) {t : FSyncTree}
    (hplaces : SamePlaces c.repo.serverSyncTree.syncPointTree t.syncPointTree) {writeIdCounter : Int}
    (hids : t.pendingWriteTree.Below writeIdCounter) (events : List FEvent) :
    Ready (c.raiseEvents ⟨writeIdCounter, t, c.repo.listens⟩ events) := by
  refine ⟨hplaces.sound, hplaces.queried h.queried, fun q => ?_, hids⟩
  change q ∈ c.repo.listens ↔ Topmost (HasView t.syncPointTree) q
  rw [hplaces.hasView]
  exact h.listens q

/-- An operation goes through the views. -/
theorem Ready.operation (h : Ready c) {writeTree : FWriteTree} {writeIdCounter : Int}
    (hids : writeTree.Below writeIdCounter) (op : FOperation) :
    Ready (c.raiseEvents ⟨writeIdCounter,
      (applyOperationToSyncPoints ⟨c.repo.serverSyncTree.syncPointTree, writeTree⟩ op).1, c.repo.listens⟩
      (applyOperationToSyncPoints ⟨c.repo.serverSyncTree.syncPointTree, writeTree⟩ op).2) :=
  h.samePlaces (samePlaces_applyOperationToSyncPoints ⟨_, writeTree⟩ h.sound op) hids _

/-- Observers go, or a listen fails. -/
theorem Ready.removeEventRegistration (h : Ready c) {handle : Option Nat} {path : List String} {cancelError : Bool}
    {listens' : Finset (List String)} (hlistens : ∀ q, q ∈ listens' ↔
      Topmost (HasView (c.repo.serverSyncTree.removeEventRegistration handle path cancelError).1.syncPointTree) q) :
    Ready (c.raiseEvents
      ⟨c.repo.writeIdCounter, (c.repo.serverSyncTree.removeEventRegistration handle path cancelError).1, listens'⟩ []) := by
  obtain ⟨hwrites, hsound, hthin⟩ := removeEventRegistration_spec h.sound handle path cancelError
  refine ⟨hsound, hthin.queried h.queried, hlistens, ?_⟩
  change FWriteTree.Below (FSyncTree.removeEventRegistration _ _ _ _).1.pendingWriteTree _
  rw [hwrites]
  exact h.ids

/-- The listen has failed. -/
theorem Ready.onListenFailed (h : Ready c) {query : List String} (hquery : query ∈ c.repo.listens) :
    ∃ repo, c.repo.onListenFailed query = some repo ∧ Ready (c.raiseEvents repo []) := by
  have htop := (h.listens query).1 hquery
  have hleft : ∀ q, q ∈ c.repo.listens.erase query ↔
      Topmost (HasView c.repo.serverSyncTree.syncPointTree) q ∧ (true = true → q ≠ query) := fun q => by
    rw [Finset.mem_erase, h.listens, and_comm]
    simp
  obtain ⟨listens', hanswer, hlistens⟩ := listens_removeEventRegistration h.sound h.queried none query true hleft
    fun _ => ⟨rfl, htop⟩
  refine ⟨_, ?_, h.removeEventRegistration hlistens⟩
  simp only [FRepo.onListenFailed, hanswer]
  rfl

/-- An observer comes. -/
theorem Ready.observe (h : Ready c) (path : List String) : ∃ c', c.step (.observe path) = some c' ∧ Ready c' := by
  obtain ⟨listens', hanswer, hlistens⟩ := listens_addEventRegistration h.sound h.queried h.listens c.localUid path
  obtain ⟨view, hview, htree⟩ := addEventRegistration_spec h.queried c.localUid path
  refine ⟨{ c with localUid := c.localUid + 1 }.raiseEvents ⟨c.repo.writeIdCounter,
    (c.repo.serverSyncTree.addEventRegistration c.localUid path).1, listens'⟩
    (c.repo.serverSyncTree.addEventRegistration c.localUid path).2.1, ?_, ?_⟩
  · simp only [step, FRepo.addEventRegistration, hanswer]
    rfl
  · rw [htree] at hlistens ⊢
    exact ⟨h.sound.setValue _ path, queried_setValue h.queried hview, hlistens, h.ids⟩

/-- The server answers a write. -/
theorem Ready.ackWrite (h : Ready c) {writeId : Int} {status : String} (hstatus : status ≠ "write_canceled") :
    (∃ c', c.step (.ackWrite writeId status) = some c' ∧ Ready c' ∧ ¬ c.Stray (.ackWrite writeId status)) ∨
      c.step (.ackWrite writeId status) = none ∧ c.Stray (.ackWrite writeId status) := by
  rcases h.ids.removeWriteId writeId with ⟨⟨writeTree, changed⟩, hremove, hids, record, hrecord, hid⟩ | ⟨hnone, hall⟩
  · obtain ⟨write, hfind⟩ : ∃ write, c.repo.serverSyncTree.pendingWriteTree.writeForId writeId = some write :=
      Option.isSome_iff_exists.1 (List.find?_isSome.2 ⟨record, hrecord, by simpa using hid⟩)
    have hwaits : ¬ c.Stray (.ackWrite writeId status) := by
      rintro ⟨_, _, heq, -, hall⟩
      cases heq
      exact hall record hrecord hid
    left
    cases changed with
    | false =>
      refine ⟨c.raiseEvents ⟨c.repo.writeIdCounter, ⟨c.repo.serverSyncTree.syncPointTree, writeTree⟩, c.repo.listens⟩ [],
        ?_, ⟨h.sound, h.queried, h.listens, hids⟩, hwaits⟩
      simp only [Device.step, FRepo.ackWrite, if_neg hstatus, ackUserWriteWithWriteId, hfind, hremove]
      rfl
    | true =>
      refine ⟨_, ?_, h.operation hids (.ackUserWrite write.path (affectedTree write) !(decide (status = "ok"))), hwaits⟩
      simp only [Device.step, FRepo.ackWrite, if_neg hstatus, ackUserWriteWithWriteId, hfind, hremove]
      rfl
  · refine Or.inr ⟨?_, writeId, status, rfl, hstatus, hall⟩
    cases hfind : c.repo.serverSyncTree.pendingWriteTree.writeForId writeId with
    | none =>
      simp only [Device.step, FRepo.ackWrite, if_neg hstatus, ackUserWriteWithWriteId, hfind]
      rfl
    | some write =>
      simp only [Device.step, FRepo.ackWrite, if_neg hstatus, ackUserWriteWithWriteId, hfind, hnone]
      rfl

/-- **Whatever is called** goes through and keeps the listens and the ids in order, unless the server answers a write
that does not wait. -/
theorem Ready.step (h : Ready c) (call : Call) :
    (∃ c', c.step call = some c' ∧ Ready c' ∧ ¬ c.Stray call) ∨ c.step call = none ∧ c.Stray call := by
  have hwaits : (∀ writeId status, call ≠ .ackWrite writeId status) → ¬ c.Stray call := by
    rintro hne ⟨writeId, status, heq, -⟩
    exact hne writeId status heq
  cases call with
  | set path node =>
    have hids : (c.repo.serverSyncTree.pendingWriteTree.addOverwriteAtPath path node c.repo.writeIdCounter true).Below
        (c.repo.writeIdCounter + 1) := h.ids.append rfl rfl rfl
    exact Or.inl ⟨_, rfl, h.operation hids (.overwrite true path node), hwaits nofun⟩
  | update path nodes =>
    refine Or.inl ⟨_, rfl, ?_, hwaits nofun⟩
    have hids : (c.repo.serverSyncTree.pendingWriteTree.addMergeAtPath path nodes c.repo.writeIdCounter).Below
        (c.repo.writeIdCounter + 1) := h.ids.append rfl rfl rfl
    unfold FRepo.update
    split
    · exact h
    · exact h.operation hids (.merge true path nodes)
  | purgeOutstandingWrites =>
    refine Or.inl ⟨_, rfl, ?_, hwaits nofun⟩
    have hids : c.repo.serverSyncTree.pendingWriteTree.removeAllWrites.1.Below c.repo.writeIdCounter :=
      ⟨h.ids.nonneg, h.ids.last, fun x hx => nomatch hx⟩
    unfold FRepo.purgeOutstandingWrites FSyncTree.removeAllWrites
    dsimp only
    split
    · exact ⟨h.sound, h.queried, h.listens, hids⟩
    · exact h.operation hids (.ackUserWrite [] (FImmutableTree.empty.setValue () []) true)
  | observe path =>
    obtain ⟨c', hstep, hready⟩ := h.observe path
    exact Or.inl ⟨c', hstep, hready, hwaits nofun⟩
  | removeObserver handle path =>
    obtain ⟨listens', hanswer, hlistens⟩ := listens_removeEventRegistration h.sound h.queried handle path false
      (fun q => (h.listens q).trans ⟨fun htop => ⟨htop, fun hc => by cases hc⟩, And.left⟩) fun hc => by cases hc
    refine Or.inl ⟨_, ?_, h.removeEventRegistration hlistens, hwaits nofun⟩
    simp only [Device.step, FRepo.removeEventRegistration, hanswer]
    rfl
  | ackWrite writeId status =>
    by_cases hstatus : status = "write_canceled"
    · refine Or.inl ⟨c.raiseEvents c.repo [], ?_, h, ?_⟩
      · simp only [Device.step, FRepo.ackWrite, if_pos hstatus]
        rfl
      · rintro ⟨_, _, heq, hne, -⟩
        cases heq
        exact hne hstatus
    · exact h.ackWrite hstatus
  | onDataUpdate path data =>
    cases data with
    | inl snap => exact Or.inl ⟨_, rfl, h.operation h.ids (.overwrite false path snap), hwaits nofun⟩
    | inr changedChildren => exact Or.inl ⟨_, rfl, h.operation h.ids (.merge false path changedChildren), hwaits nofun⟩
  | onListenResponse query ok =>
    refine Or.inl ?_
    by_cases hquery : query ∈ c.repo.listens
    · cases ok with
      | true =>
        refine ⟨_, ?_, h.operation h.ids (.listenComplete query), hwaits nofun⟩
        simp only [Device.step, FRepo.onListenResponse, if_pos hquery]
        rfl
      | false =>
        obtain ⟨repo, hfailed, hready⟩ := h.onListenFailed hquery
        refine ⟨_, ?_, hready, hwaits nofun⟩
        simp only [Device.step, FRepo.onListenResponse, if_pos hquery, hfailed]
        rfl
    · refine ⟨c.raiseEvents c.repo [], ?_, h, hwaits nofun⟩
      simp only [Device.step, FRepo.onListenResponse, if_neg hquery]
      rfl
  | onListenRevoked path =>
    refine Or.inl ?_
    by_cases hquery : path ∈ c.repo.listens
    · obtain ⟨repo, hfailed, hready⟩ := h.onListenFailed hquery
      refine ⟨_, ?_, hready, hwaits nofun⟩
      simp only [Device.step, FRepo.onListenRevoked, if_pos hquery, hfailed]
      rfl
    · refine ⟨c.raiseEvents c.repo [], ?_, h, hwaits nofun⟩
      simp only [Device.step, FRepo.onListenRevoked, if_neg hquery]
      rfl

theorem ready_of_reach {ok : History Device Call → Device → Call → Prop} (hr : Reach Device.step ok init hist c) :
    Ready c := by
  refine hr.inv (I := fun _ c => Ready c) ready_init fun _ c call c' _ h _ hstep => ?_
  rcases h.step call with ⟨c'', hstep', hready, -⟩ | ⟨hnone, -⟩
  · obtain rfl : c'' = c' := Option.some.inj (hstep'.symm.trans hstep)
    exact hready
  · rw [hstep] at hnone
    cases hnone

/-- One more call of a run. -/
theorem reach_call {ok : History Device Call → Device → Call → Prop} (hr : Reach Device.step ok init hist c)
    (call : Call) (hok : ok hist c call) (hstep : (c.step call).isSome) :
    Reach Device.step ok init ((c, call) :: hist) ((c.step call).get hstep) :=
  hr.step hok (Option.some_get hstep).symm

/-- **One listen for each view**, whatever is called: the device listens at views only, and through just one listen
above each of them. -/
theorem listens_of_reach {ok : History Device Call → Device → Call → Prop} (hr : Reach Device.step ok init hist c) :
    (∀ q ∈ c.repo.listens, HasView c.repo.serverSyncTree.syncPointTree q) ∧
      ∀ p, HasView c.repo.serverSyncTree.syncPointTree p → ∃! q, q ∈ c.repo.listens ∧ q <+: p := by
  have h := ready_of_reach hr
  refine ⟨fun q hq => ((h.listens q).1 hq).1, fun p hp => ?_⟩
  obtain ⟨q, hq, htop⟩ := exists_topmost hp
  refine ⟨q, ⟨(h.listens q).2 htop, hq⟩, ?_⟩
  rintro q' ⟨hmem, hq'⟩
  exact ((h.listens q').1 hmem).eq htop hq' hq

/-- A view above another one takes over its listen. -/
theorem one_listen : ∃ hist c, Reach Device.step (fun _ _ _ => True) init hist c ∧ c.repo.listens = {["a"]} ∧
    ∃! q, q ∈ c.repo.listens ∧ q <+: ["a", "b"] := by
  have hstart : Reach Device.step (fun _ _ _ => True) init [] init := .start
  have hbelow := reach_call hstart (.observe ["a", "b"]) trivial rfl
  have habove := reach_call hbelow (.observe ["a"]) trivial rfl
  exact ⟨_, _, habove, by decide, (listens_of_reach habove).2 ["a", "b"] rfl⟩

/-- **Which assertions fail**, whatever is called: that of `removeWriteId:`, just where the server answers a write that
does not wait. No query is listened to twice, and the next write has a higher id than the one before. -/
theorem step_eq_none_iff {ok : History Device Call → Device → Call → Prop} (hr : Reach Device.step ok init hist c)
    (call : Call) :
    (c.step call = none ↔ c.Stray call) ∧
      c.repo.serverSyncTree.pendingWriteTree.lastWriteId < c.repo.writeIdCounter := by
  have h := ready_of_reach hr
  refine ⟨?_, h.ids.last⟩
  rcases h.step call with ⟨c', hstep, -, hwaits⟩ | ⟨hnone, hstray⟩
  · exact iff_of_false (by simp [hstep]) hwaits
  · exact iff_of_true hnone hstray

/-- Two views, one above the other, and a write: the upper observer may go, and the write may be refused, but no other
write may be answered. -/
theorem listens_and_acks : ∃ hist c, Reach Device.step (fun _ _ _ => True) init hist c ∧ c.repo.listens = {["a"]} ∧
    c.step (.removeObserver none ["a"]) ≠ none ∧ c.step (.ackWrite 0 "permission_denied") ≠ none ∧
      c.step (.ackWrite 1 "ok") = none := by
  have hstart : Reach Device.step (fun _ _ _ => True) init [] init := .start
  have hbelow := reach_call hstart (.observe ["a", "b"]) trivial rfl
  have habove := reach_call hbelow (.observe ["a"]) trivial rfl
  have hset := reach_call habove (.set ["a", "c"] (Tree.single (.string "x"))) trivial rfl
  refine ⟨_, _, hset, by decide, fun hnone => ?_, fun hnone => ?_, (step_eq_none_iff hset _).1.2 ?_⟩
  · obtain ⟨_, _, heq, -⟩ := (step_eq_none_iff hset _).1.1 hnone
    cases heq
  · obtain ⟨writeId, status, heq, -, hall⟩ := (step_eq_none_iff hset _).1.1 hnone
    cases heq
    exact hall ⟨["a", "c"], .overwrite (Tree.single (.string "x")), 0, true⟩ List.mem_cons_self rfl
  · refine ⟨1, "ok", rfl, by decide, fun record hrecord => ?_⟩
    obtain rfl := List.mem_singleton.1 hrecord
    decide

/-! ## The runs in which the observers see the writes -/

/-- What a call tells of the server's node. -/
def Call.tells (srv : Node) : Call → Node
  | .onDataUpdate path (.inl snap) => srv.set path snap
  | .onDataUpdate path (.inr changedChildren) => srv.set path (changedChildren.applyToNode (srv.sub path))
  | _ => srv

/-- The server's node, as far as it was sent. -/
def heard : History Device Call → Node
  | [] => Tree.empty
  | (_, call) :: hist => call.tells (heard hist)

/-- What is asked of the next call. -/
def Allowed (inner : List String → Prop) (hist : History Device Call) (c : Device) : Call → Prop
  | .set path _ => ¬ inner path ∧ ∀ q, q <+: path → q ≠ path → inner q
  | .update path nodes => path = [] ∧ ∀ x ∈ nodes.enumerateWrites, ∀ q, q <+: x.1 → q ≠ x.1 → inner q
  | .ackWrite writeId status => status = "write_canceled" ∨
    ∃ record later, c.repo.serverSyncTree.pendingWriteTree.allWrites = record :: later ∧ record.writeId = writeId
  | .onDataUpdate path (.inl snap) => snap.Leaves fun q _ => ¬ inner (path ++ q)
  | .onDataUpdate path (.inr changedChildren) => changedChildren.rootWrite = none ∧
    ∀ x ∈ changedChildren.enumerateWrites, x.2.Leaves fun q _ => ¬ inner (path ++ x.1 ++ q)
  | .onListenResponse query ok => ok = true → query ∈ c.repo.listens →
    FSyncTree.HasData c.repo.serverSyncTree.syncPointTree (heard hist) query
  | _ => True

/-- The invariant of the runs. -/
structure Inv (inner : List String → Prop) (srv : Node) (c : Device) : Prop where
  good : c.repo.serverSyncTree.Good inner
  told : Told c.repo.serverSyncTree.syncPointTree c.told
  heard : AllHeard c.repo.serverSyncTree.syncPointTree srv
  fresh : ∀ p view, c.repo.serverSyncTree.syncPointTree.valueAtPath p = some view →
    ∀ handle ∈ view.eventRegistrations, handle < c.localUid

theorem inv_init (inner : List String → Prop) : Inv inner Tree.empty init := by
  have hnone : ∀ {p view}, init.repo.serverSyncTree.syncPointTree.valueAtPath p ≠ some view := by
    intro p view hview
    change FImmutableTree.empty.valueAtPath p = some view at hview
    rw [FImmutableTree.valueAtPath_empty] at hview
    cases hview
  have hright : AllRight init.repo.serverSyncTree.syncPointTree inner
      init.repo.serverSyncTree.pendingWriteTree.visibleWrites := fun p view hview => absurd hview hnone
  exact ⟨⟨FImmutableTree.sound_empty, FWriteTree.Pending.init, hright⟩,
    ⟨fun hv _ _ _ => absurd hv hnone, fun hv _ _ => absurd hv hnone⟩, fun p view hview => absurd hview hnone,
    fun p view hview => absurd hview hnone⟩

/-- An operation went through the views. -/
theorem Inv.follows (h : Inv inner srv c) {result : FSyncTree × List FEvent}
    (hresult : Follows inner c.repo.serverSyncTree.syncPointTree srv srv' result) (writeIdCounter : Int) :
    Inv inner srv' (c.raiseEvents ⟨writeIdCounter, result.1, c.repo.listens⟩ result.2) where
  good := hresult.good
  told := hresult.told h.told
  heard := hresult.heard h.heard
  fresh p view hview handle hh := by
    have hsame := hresult.same p
    dsimp only [raiseEvents] at hview
    rw [hview, Option.map_some] at hsame
    obtain ⟨view₀, hview₀, hregs⟩ := Option.map_eq_some_iff.1 hsame.symm
    exact h.fresh p view₀ hview₀ handle (hregs ▸ hh)

/-- Observers go, or a listen fails. -/
theorem Inv.removeEventRegistration (h : Inv inner srv c) {handle : Option Nat} {path : List String} {cancelError : Bool}
    (listens' : Finset (List String)) : Inv inner srv (c.raiseEvents
      ⟨c.repo.writeIdCounter, (c.repo.serverSyncTree.removeEventRegistration handle path cancelError).1, listens'⟩ []) := by
  obtain ⟨hwrites, hsound, hthin⟩ := removeEventRegistration_spec h.good.sound handle path cancelError
  refine ⟨⟨hsound, ?_, ?_⟩, hthin.allTold h.told, hthin.allHeard h.heard, fun p view hview x hx => ?_⟩
  · change FWriteTree.Pending inner (FSyncTree.removeEventRegistration _ _ _ _).1.pendingWriteTree
    rw [hwrites]
    exact h.good.pending
  · change AllRight _ inner (FSyncTree.removeEventRegistration _ _ _ _).1.pendingWriteTree.visibleWrites
    rw [hwrites]
    exact hthin.allRight h.good.right
  · obtain ⟨view₀, hview₀, -, -, hregs⟩ := hthin p view hview
    exact h.fresh p view₀ hview₀ x (hregs x hx)

/-- The listen has failed. -/
theorem Inv.onListenFailed (h : Inv inner srv c) {query : List String} {repo : FRepo}
    (hfailed : c.repo.onListenFailed query = some repo) : Inv inner srv (c.raiseEvents repo []) := by
  obtain ⟨listens', -, heq⟩ := Option.bind_eq_some_iff.1 hfailed
  cases heq
  exact h.removeEventRegistration listens'

/-- An observer comes. -/
theorem Inv.observe (h : Inv inner srv c) {path : List String} (hstep : c.step (.observe path) = some c') :
    Inv inner srv c' := by
  have hnew : ∀ p view, c.repo.serverSyncTree.syncPointTree.valueAtPath p = some view →
      c.localUid ∉ view.eventRegistrations := fun p view hview hmem => lt_irrefl _ (h.fresh p view hview _ hmem)
  -- the view is there, or is made for the query
  have hadd : ∃ view : FView,
      (c.repo.serverSyncTree.addEventRegistration c.localUid path).1 =
        ⟨c.repo.serverSyncTree.syncPointTree.setValue (FSyncPoint.addEventRegistration view c.localUid).1 path,
          c.repo.serverSyncTree.pendingWriteTree⟩ ∧
      (c.repo.serverSyncTree.addEventRegistration c.localUid path).2.1 =
        (FSyncPoint.addEventRegistration view c.localUid).2 ∧
      (FSyncPoint.addEventRegistration view c.localUid).1.Right inner
        c.repo.serverSyncTree.pendingWriteTree.visibleWrites path ∧
      (FSyncPoint.addEventRegistration view c.localUid).1.viewCache.Heard (srv.sub path) ∧
      ∀ x ∈ view.eventRegistrations, c.repo.serverSyncTree.syncPointTree.valueAtPath path = some view := by
    cases hv : c.repo.serverSyncTree.syncPointTree.valueAtPath path with
    | some view =>
      have hright := h.good.right path view hv
      rw [addEventRegistration_of_some _ _ hv]
      exact ⟨view, rfl, rfl, ⟨hright.query, hright.upToDate, hright.leaves⟩, h.heard path view hv, fun _ _ => rfl⟩
    | none =>
      obtain ⟨hright, hheard⟩ := right_newView h.good h.heard c.localUid path
      rw [addEventRegistration_of_none _ _ hv]
      exact ⟨_, rfl, rfl, hright, hheard, fun x hx => absurd hx List.not_mem_nil⟩
  obtain ⟨view, htree, hevents, hright, hheard, hold⟩ := hadd
  obtain ⟨listens', rfl⟩ : ∃ listens', c' = { c with localUid := c.localUid + 1 }.raiseEvents ⟨c.repo.writeIdCounter,
      (c.repo.serverSyncTree.addEventRegistration c.localUid path).1, listens'⟩
      (c.repo.serverSyncTree.addEventRegistration c.localUid path).2.1 := by
    obtain ⟨⟨repo, events⟩, hrepo, heq⟩ := Option.bind_eq_some_iff.1 hstep
    obtain ⟨listens', -, hrepo⟩ := Option.bind_eq_some_iff.1 hrepo
    cases hrepo
    exact ⟨listens', (Option.some.inj heq).symm⟩
  rw [htree, hevents]
  refine ⟨good_setValue h.good hright, told_addEventRegistration h.told hnew hold,
    allHeard_setValue h.heard hheard, fun p view₁ hview₁ x hx => ?_⟩
  change (c.repo.serverSyncTree.syncPointTree.setValue _ path).valueAtPath p = some view₁ at hview₁
  change x < c.localUid + 1
  rw [FImmutableTree.valueAtPath_setValue] at hview₁
  split at hview₁
  · obtain rfl := Option.some.inj hview₁
    rcases List.mem_append.1 hx with hx | hx
    · exact Nat.lt_succ_of_lt (h.fresh path view (hold x hx) x hx)
    · exact (List.mem_singleton.1 hx) ▸ Nat.lt_succ_self _
  · exact Nat.lt_succ_of_lt (h.fresh p view₁ hview₁ x hx)

/-- **Every call that is allowed keeps the invariant.** -/
theorem Inv.step (h : Inv inner (Device.heard hist) c) (hallowed : Allowed inner hist c call)
    (hstep : c.step call = some c') : Inv inner (call.tells (Device.heard hist)) c' := by
  cases call with
  | set path node =>
    obtain ⟨hpath, habove⟩ := hallowed
    have hkept : FWriteRecord.Kept inner ⟨path, .overwrite node, c.repo.writeIdCounter, true⟩ := by
      refine ⟨hpath, fun x hx => ?_⟩
      obtain rfl := List.mem_singleton.1 hx
      exact habove
    cases hstep
    exact h.follows (follows_applyUserOverwriteAtPath h.good node c.repo.writeIdCounter hkept) _
  | update path nodes =>
    obtain ⟨rfl, habove⟩ := hallowed
    cases hstep
    unfold FRepo.update
    split
    · exact h
    · have hkept : FWriteRecord.Kept inner ⟨[], .merge nodes, c.repo.writeIdCounter, true⟩ := by
        refine ⟨rfl, fun x hx => ?_⟩
        obtain ⟨y, hy, rfl⟩ := List.mem_map.1 hx
        exact habove y hy
      exact h.follows (follows_applyUserMergeAtPath h.good nodes c.repo.writeIdCounter hkept) _
  | purgeOutstandingWrites =>
    cases hstep
    exact h.follows (follows_removeAllWrites h.good) _
  | observe path => exact h.observe hstep
  | removeObserver handle path =>
    obtain ⟨repo, hrepo, heq⟩ := Option.bind_eq_some_iff.1 hstep
    obtain ⟨listens', -, hrepo⟩ := Option.bind_eq_some_iff.1 hrepo
    cases heq
    cases hrepo
    exact h.removeEventRegistration listens'
  | ackWrite writeId status =>
    by_cases hstatus : status = "write_canceled"
    · simp only [Device.step, FRepo.ackWrite, if_pos hstatus] at hstep
      cases hstep
      exact h
    · obtain ⟨record, later, hall, rfl⟩ := hallowed.resolve_left hstatus
      obtain ⟨result, hack, hresult⟩ : ∃ result, _ = some result ∧ Follows inner
          c.repo.serverSyncTree.syncPointTree (Device.heard hist) (Device.heard hist) result :=
        follows_ackUserWriteWithWriteId h.good hall !(decide (status = "ok"))
      simp only [Device.step, FRepo.ackWrite, if_neg hstatus, hack] at hstep
      cases hstep
      exact h.follows hresult c.repo.writeIdCounter
  | onDataUpdate path data =>
    cases hstep
    cases data with
    | inl snap => exact h.follows (follows_applyServerOverwriteAtPath h.good hallowed) _
    | inr changedChildren => exact h.follows (follows_applyServerMergeAtPath h.good hallowed.2 hallowed.1) _
  | onListenResponse query ok =>
    by_cases hquery : query ∈ c.repo.listens
    · cases ok with
      | true =>
        simp only [Device.step, FRepo.onListenResponse, if_pos hquery] at hstep
        cases hstep
        exact h.follows (follows_applyListenCompleteAtPath h.good (hallowed rfl hquery)) c.repo.writeIdCounter
      | false =>
        simp only [Device.step, FRepo.onListenResponse, if_pos hquery] at hstep
        obtain ⟨⟨repo, events⟩, hrepo, heq⟩ := Option.bind_eq_some_iff.1 hstep
        obtain ⟨repo', hfailed, hrepo⟩ := Option.bind_eq_some_iff.1 hrepo
        cases heq
        cases hrepo
        exact h.onListenFailed hfailed
    · simp only [Device.step, FRepo.onListenResponse, if_neg hquery] at hstep
      cases hstep
      exact h
  | onListenRevoked path =>
    by_cases hquery : path ∈ c.repo.listens
    · simp only [Device.step, FRepo.onListenRevoked, if_pos hquery] at hstep
      obtain ⟨⟨repo, events⟩, hrepo, heq⟩ := Option.bind_eq_some_iff.1 hstep
      obtain ⟨repo', hfailed, hrepo⟩ := Option.bind_eq_some_iff.1 hrepo
      cases heq
      cases hrepo
      exact h.onListenFailed hfailed
    · simp only [Device.step, FRepo.onListenRevoked, if_neg hquery] at hstep
      cases hstep
      exact h

theorem inv_of_reach (hr : Reach Device.step (Allowed inner) init hist c) : Inv inner (heard hist) c :=
  hr.inv (I := fun hist c => Inv inner (heard hist) c) (inv_init inner) fun _ _ _ _ _ h hallowed hstep =>
    h.step hallowed hstep

/-- **Observers see the server's node under the waiting writes**: where a view has heard from the server, or a waiting
write covers it, each of its observers was last handed that. -/
theorem told_of_reach (hr : Reach Device.step (Allowed inner) init hist c) {p : List String} {view : FView}
    (hview : c.repo.serverSyncTree.syncPointTree.valueAtPath p = some view) {handle : Nat}
    (hhandle : handle ∈ view.eventRegistrations)
    (hknown : view.viewCache.cachedServerSnap.isFullyInitialized = true ∨
      Covered c.repo.serverSyncTree.pendingWriteTree.writes p) :
    ∃ n, c.told handle = some n ∧ ∀ q, n.leaf q =
      (shown c.repo.serverSyncTree.pendingWriteTree.writes (p ++ q)).getD ((heard hist).leaf (p ++ q)) := by
  have h := inv_of_reach hr
  have hright := h.good.right p view hview
  have hshows : ∀ q, (c.repo.serverSyncTree.pendingWriteTree.visibleWrites.childCompoundWriteAtPath p).view q =
      shown c.repo.serverSyncTree.pendingWriteTree.writes (p ++ q) := fun q => by
    rw [FCompoundWrite.view_childCompoundWriteAtPath]
    exact h.good.pending.layered (p ++ q)
  have hcovered : Covered c.repo.serverSyncTree.pendingWriteTree.writes p ↔
      (c.repo.serverSyncTree.pendingWriteTree.visibleWrites.childCompoundWriteAtPath p).view [] ≠ none := by
    rw [hshows, List.append_nil, shown_ne_none]
  obtain ⟨hcomplete, hover⟩ := hright.upToDate.shown (hknown.imp_right hcovered.1)
  refine ⟨view.viewCache.cachedEventSnap.node, h.told.told hview hhandle (if_pos hcomplete), fun q => ?_⟩
  rw [hover q, hshows q]
  rcases hknown with hserver | hcov
  · rw [h.heard p view hview hserver, Tree.leaf_sub]
  · obtain ⟨x, hx⟩ := Option.ne_none_iff_exists'.1 (shown_ne_none.2 (hcov.mono (List.prefix_append p q)))
    rw [hx, Option.getD_some, Option.getD_some]

/-- The server has sent one child, the app writes another. -/
theorem told_after_set : ∃ hist c n, Reach Device.step (Allowed fun q => q.length < 2) init hist c ∧
    c.told 1 = some n ∧ n.leaf ["b"] = some (.string "x") ∧ n.leaf ["c"] = some (.string "y") := by
  have hdata : (Tree.empty.set ["c"] (Tree.single (.string "y")) : Node).Leaves
      fun q _ => ¬ (["a"] ++ q).length < 2 := (Tree.leaves_empty _).set (Tree.leaves_single (by simp))
  have habove : ¬ ["a", "b"].length < 2 ∧ ∀ q, q <+: ["a", "b"] → q ≠ ["a", "b"] → q.length < 2 :=
    ⟨by simp, fun q hq hne => lt_of_le_of_ne hq.length_le fun hlen => hne (hq.eq_of_length hlen)⟩
  have hstart : Reach Device.step (Allowed fun q => q.length < 2) init [] init := .start
  have hobserved := reach_call hstart (.observe ["a"]) trivial rfl
  have hsent := reach_call hobserved (.onDataUpdate ["a"] (.inl (Tree.empty.set ["c"] (Tree.single (.string "y")))))
    hdata rfl
  have hset := reach_call hsent (.set ["a", "b"] (Tree.single (.string "x"))) habove rfl
  obtain ⟨n, hn, hleaf⟩ := told_of_reach hset (p := ["a"]) (Option.some_get (by rfl)).symm
    (show 1 ∈ _ by decide) (Or.inl rfl)
  exact ⟨_, _, n, hset, hn, (hleaf ["b"]).trans (by decide), (hleaf ["c"]).trans (by decide)⟩

end Device

end Anissagram
