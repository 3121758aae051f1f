import Anissagram.Firebase.FViewProcessor
/-
# A view shows the server's node under the waiting writes

The operations of `FViewProcessor` change a view's event node in place, where they can only at the place they are
about. `UpToDate` says that it comes to the same as computing the node anew: a view that has heard from the server, or
that a waiting write covers, shows what the server's node is under the writes that wait. Each operation keeps it, with
the writes as they are after the operation.

`inner` are places that never hold a leaf: no write of the device and no node of the server puts one above a place that
somebody writes. Without them a write below a leaf, and then its removal, would have to bring the leaf back.
-/

namespace Anissagram

open PathTree

/-! ## Views that are up to date -/

def FViewCache.Unfiltered (c : FViewCache) : Prop :=
  c.cachedEventSnap.isFiltered = false ∧ c.cachedServerSnap.isFiltered = false

/-- A view that has heard from the server, or that a waiting write covers, is complete and shows the server's node under
the waiting writes. -/
structure FViewCache.UpToDate (c : FViewCache) (w : FCompoundWrite) : Prop where
  unfiltered : c.Unfiltered
  shown : c.cachedServerSnap.isFullyInitialized = true ∨ w.view [] ≠ none →
    c.cachedEventSnap.isFullyInitialized = true ∧ w.Overlaid c.cachedServerSnap.node c.cachedEventSnap.node

variable {w w' : FCompoundWrite} {ref : FWriteTreeRef} {c : FViewCache} {p q : List String} {k : String}
  {s e u snap : Node}

theorem FCompoundWrite.view_nil_of_view (hp : w.view p = none) : w.view [] = none := by
  by_contra h
  exact FCompoundWrite.view_append_ne_none h p hp

/-- **Only the place itself is computed anew**: where the event node is right for the server's node, it is right after
a change of the server's node at `p` once the change is made in it too, under the waiting writes. -/
theorem FCompoundWrite.leaf_set_recomputed (hp : w.view p = none) (hu : (w.childCompoundWriteAtPath p).Overlaid snap u)
    (hs : NoLeafAbove s w.view) (hq : p <+: q ∨ e.leaf q = (w.view q).getD (s.leaf q)) :
    (e.set p u).leaf q = (w.view q).getD ((s.set p snap).leaf q) := by
  by_cases hpq : p <+: q
  · obtain ⟨r, rfl⟩ := hpq
    rw [Tree.leaf_set_append, Tree.leaf_set_append, hu r, FCompoundWrite.view_childCompoundWriteAtPath]
  · have he := hq.resolve_left hpq
    rw [Tree.leaf_set, Tree.leaf_set, if_neg hpq, if_neg hpq]
    by_cases hqp : q <+: p
    · have hvq : w.view q = none := by
        obtain ⟨r, rfl⟩ := hqp
        by_contra h
        exact FCompoundWrite.view_append_ne_none h r hp
      rw [he, hvq, Option.getD_none, Option.getD_none]
      by_cases hus : u = snap
      · rw [hus]
      · -- a write below `p` makes the difference, so above it the server has no leaf
        have hbelow : ∃ r, w.view (p ++ r) ≠ none := by
          by_contra hno
          refine hus (Tree.ext_leaf fun r => ?_)
          have hr : w.view (p ++ r) = none := not_not.1 fun h => hno ⟨r, h⟩
          rw [hu r, FCompoundWrite.view_childCompoundWriteAtPath, hr, Option.getD_none]
        obtain ⟨r, hr⟩ := hbelow
        rw [hs q (p ++ r) (hqp.trans (List.prefix_append p r)) hvq hr, ite_self, ite_self]
    · rw [if_neg fun h => hqp h.1, if_neg fun h => hqp h.1, he]

namespace FViewProcessor

open FIndexedFilter

/-! ### After a change of the server's node -/

theorem generate_shadowed (h : ref.writes.view p ≠ none) : generateEventCacheAfterServerEvent c p ref = (c, []) :=
  if_pos (FWriteTreeRef.shadowingWriteAtPath_isSome_iff.2 h)

theorem generate_server (c : FViewCache) (p : List String) (ref : FWriteTreeRef) :
    (generateEventCacheAfterServerEvent c p ref).1.cachedServerSnap = c.cachedServerSnap := by
  unfold generateEventCacheAfterServerEvent
  split <;> rfl

theorem generate_unfiltered (h : c.Unfiltered) (p : List String) (ref : FWriteTreeRef) :
    (generateEventCacheAfterServerEvent c p ref).1.Unfiltered := by
  refine ⟨?_, (generate_server c p ref).symm ▸ h.2⟩
  unfold generateEventCacheAfterServerEvent
  split
  · exact h.1
  · rfl

theorem generate_nil (hsh : ref.writes.view [] = none) (hc : c.cachedServerSnap.isFullyInitialized = true)
    (hf : c.cachedServerSnap.isFiltered = false) (hs : NoLeafAbove c.cachedServerSnap.node ref.writes.view) :
    ∃ e, ref.writes.Overlaid c.cachedServerSnap.node e ∧
      (generateEventCacheAfterServerEvent c [] ref).1 = c.updateEventSnap e true := by
  obtain ⟨e, he, hover⟩ := FWriteTreeRef.calculateCompleteEventCache_some hs
  refine ⟨e, hover, ?_⟩
  have hno : ¬ (ref.shadowingWriteAtPath []).isSome = true :=
    fun h => FWriteTreeRef.shadowingWriteAtPath_isSome_iff.1 h hsh
  have hcomplete : c.completeServerSnap = some c.cachedServerSnap.node := if_pos hc
  simp [generateEventCacheAfterServerEvent, hno, hf, hcomplete, he, updateFullNode]

theorem generate_cons (hsh : ref.writes.view (k :: p) = none) (hc : c.cachedEventSnap.isFullyInitialized = true)
    (hf : c.cachedEventSnap.isFiltered = false) (hs : NoLeafAbove c.cachedServerSnap.node ref.writes.view) :
    ∃ u, (ref.writes.childCompoundWriteAtPath (k :: p)).Overlaid (c.cachedServerSnap.node.sub (k :: p)) u ∧
      (generateEventCacheAfterServerEvent c (k :: p) ref).1 =
        c.updateEventSnap (c.cachedEventSnap.node.set (k :: p) u) true := by
  obtain ⟨u, hu, hover⟩ := FWriteTreeRef.calculateEventCacheAfterServerOverwrite_some hsh hs
  refine ⟨u, hover, ?_⟩
  have hno : ¬ (ref.shadowingWriteAtPath (k :: p)).isSome = true :=
    fun h => FWriteTreeRef.shadowingWriteAtPath_isSome_iff.1 h hsh
  have hchild : c.cachedEventSnap.isCompleteForChild k = true := by simp [FCacheNode.isCompleteForChild, hc, hf]
  simp [generateEventCacheAfterServerEvent, hno, hchild, hu, hc, updateChildIn_set]

/-- The server's node has changed to `s.set p snap`; the event node was right before, except at a place that is computed
anew. -/
theorem upToDate_generate (hw : ref.writes = w) (hserver : c.cachedServerSnap.node = s.set p snap)
    (hf : c.Unfiltered) (hp : p = [] → c.cachedServerSnap.isFullyInitialized = true)
    (hs : p ≠ [] → NoLeafAbove s w.view) (hs' : NoLeafAbove (s.set p snap) w.view)
    (hshown : (p ≠ [] ∧ c.cachedServerSnap.isFullyInitialized = true) ∨ w.view [] ≠ none →
      c.cachedEventSnap.isFullyInitialized = true ∧
        ∀ q, (p <+: q → w.view p ≠ none) → c.cachedEventSnap.node.leaf q = (w.view q).getD (s.leaf q)) :
    (generateEventCacheAfterServerEvent c p ref).1.UpToDate w := by
  subst hw
  refine ⟨generate_unfiltered hf p ref, ?_⟩
  rw [generate_server, hserver]
  intro hknown
  by_cases hsh : ref.writes.view p = none
  · have hnil := FCompoundWrite.view_nil_of_view hsh
    cases p with
    | nil =>
      obtain ⟨e, hover, heq⟩ := generate_nil hsh (hp rfl) hf.2 (hserver ▸ hs')
      rw [heq, ← hserver]
      exact ⟨rfl, hover⟩
    | cons k p =>
      have hc := hknown.resolve_right (not_not.2 hnil)
      obtain ⟨hec, hright⟩ := hshown (Or.inl ⟨List.cons_ne_nil k p, hc⟩)
      obtain ⟨u, hu, heq⟩ := generate_cons hsh hec hf.1 (hserver ▸ hs')
      rw [hserver, Tree.sub_set_self] at hu
      rw [heq]
      refine ⟨rfl, fun q => FCompoundWrite.leaf_set_recomputed hsh hu (hs (List.cons_ne_nil k p)) ?_⟩
      by_cases hq : k :: p <+: q
      · exact Or.inl hq
      · exact Or.inr (hright q fun h => absurd h hq)
  · -- a write hides the place
    rw [generate_shadowed hsh]
    have hc : (p ≠ [] ∧ c.cachedServerSnap.isFullyInitialized = true) ∨ ref.writes.view [] ≠ none := by
      cases p with
      | nil => exact Or.inr hsh
      | cons k p => exact hknown.imp_left fun h => ⟨List.cons_ne_nil k p, h⟩
    obtain ⟨hec, hright⟩ := hshown hc
    refine ⟨hec, fun q => (hright q fun _ => hsh).trans ?_⟩
    cases hq : ref.writes.view q with
    | some x => rfl
    | none =>
      have hpq : ¬ p <+: q := by
        rintro ⟨r, rfl⟩
        exact FCompoundWrite.view_append_ne_none hsh r hq
      have hne : p ≠ [] := fun h => hpq (h ▸ List.nil_prefix)
      rw [Option.getD_none, Option.getD_none, Tree.leaf_set, if_neg hpq]
      split
      · rename_i hqp
        exact hs hne q p hqp.1 hq hsh
      · rfl

/-! ### The server's overwrites -/

/-- What an overwrite of the server makes of a view; one meant for another listener leaves an incomplete view alone. -/
theorem applyServerOverwriteTo_fst (hf : c.Unfiltered) (p : List String) (snap : Node) (ref : FWriteTreeRef) :
    (applyServerOverwriteTo c p snap ref).1 = c ∧ c.cachedServerSnap.isFullyInitialized = false ∧ 1 < p.length ∨
      (applyServerOverwriteTo c p snap ref).1 = (generateEventCacheAfterServerEvent
        (c.updateServerSnap (c.cachedServerSnap.node.set p snap)
          (c.cachedServerSnap.isFullyInitialized || p.isEmpty)) p ref).1 := by
  cases p with
  | nil =>
    right
    have hset : c.cachedServerSnap.node.set [] snap = snap := Tree.ext_leaf fun q => by simp [Tree.leaf_set]
    simp [applyServerOverwriteTo, updateFullNode, hset]
  | cons k p =>
    rw [applyServerOverwriteTo]
    split
    · rename_i hearly
      refine Or.inl ⟨rfl, ?_, hearly.2⟩
      by_contra hc
      have hcomplete := FCacheNode.isCompleteForPath_of_complete (by simpa using hc) hf.2 (k :: p)
      rw [hcomplete] at hearly
      exact absurd hearly.1 (by decide)
    · right
      simp only [updateChildIn_set, List.isEmpty_cons, Bool.or_false]

theorem unfiltered_applyServerOverwriteTo (hf : c.Unfiltered) (p : List String) (snap : Node) (ref : FWriteTreeRef) :
    (applyServerOverwriteTo c p snap ref).1.Unfiltered := by
  rcases applyServerOverwriteTo_fst hf p snap ref with ⟨heq, -, -⟩ | heq
  · rw [heq]
    exact hf
  · rw [heq]
    refine generate_unfiltered ?_ p ref
    exact ⟨hf.1, rfl⟩

theorem complete_applyServerOverwriteTo (hf : c.Unfiltered) (hp : p ≠ []) (snap : Node) (ref : FWriteTreeRef) :
    (applyServerOverwriteTo c p snap ref).1.cachedServerSnap.isFullyInitialized =
      c.cachedServerSnap.isFullyInitialized := by
  rcases applyServerOverwriteTo_fst hf p snap ref with ⟨heq, -, -⟩ | heq
  · rw [heq]
  · rw [heq, generate_server]
    cases p with
    | nil => exact absurd rfl hp
    | cons k p => simp [FViewCache.updateServerSnap]

/-- An overwrite of the server. -/
theorem upToDate_applyServerOverwriteTo (h : c.UpToDate w) (hw : ref.writes = w) (p : List String) (snap : Node)
    (hs : NoLeafAbove c.cachedServerSnap.node w.view) (hs' : NoLeafAbove (c.cachedServerSnap.node.set p snap) w.view) :
    (applyServerOverwriteTo c p snap ref).1.UpToDate w := by
  rcases applyServerOverwriteTo_fst h.unfiltered p snap ref with ⟨heq, -, -⟩ | heq
  · rw [heq]
    exact h
  · rw [heq]
    refine upToDate_generate hw rfl ⟨h.unfiltered.1, rfl⟩ (fun hp => by simp [hp, FViewCache.updateServerSnap])
      (fun _ => hs) hs' fun hknown => ?_
    have hold : c.cachedServerSnap.isFullyInitialized = true ∨ w.view [] ≠ none := by
      refine hknown.imp_left ?_
      rintro ⟨hne, hc⟩
      cases p with
      | nil => exact absurd rfl hne
      | cons k p => simpa [FViewCache.updateServerSnap] using hc
    exact ⟨(h.shown hold).1, fun q _ => (h.shown hold).2 q⟩

/-! ### The user's writes -/

theorem server_applyUserOverwriteTo (c : FViewCache) (p : List String) (snap : Node) (ref : FWriteTreeRef)
    (o : Option Node) : (applyUserOverwriteTo c p snap ref o).1.cachedServerSnap = c.cachedServerSnap := by
  cases p with
  | nil => rfl
  | cons k p =>
    simp only [applyUserOverwriteTo]
    split <;> rfl

/-- An overwrite of the user. -/
theorem upToDate_applyUserOverwriteTo (h : c.UpToDate w) (p : List String) (snap : Node) (ref : FWriteTreeRef)
    (o : Option Node) (hs : NoLeafAbove c.cachedServerSnap.node (w.addWrite snap p).view) :
    (applyUserOverwriteTo c p snap ref o).1.UpToDate (w.addWrite snap p) := by
  cases p with
  | nil =>
    refine ⟨⟨rfl, h.unfiltered.2⟩, fun _ => ⟨rfl, fun q => ?_⟩⟩
    rw [FCompoundWrite.view_addWrite, if_pos List.nil_prefix]
    simp [applyUserOverwriteTo, updateFullNode, FViewCache.updateEventSnap]
  | cons k p =>
    have hnil : (w.addWrite snap (k :: p)).view [] ≠ none ↔ w.view [] ≠ none := by
      rw [FCompoundWrite.view_addWrite, if_neg (by simp), ne_eq, Option.map_eq_none_iff]
    -- the event node of a complete view has the write stored in it
    have hstep : c.cachedEventSnap.isFullyInitialized = true →
        (applyUserOverwriteTo c (k :: p) snap ref o).1 =
          c.updateEventSnap (c.cachedEventSnap.node.set (k :: p) snap) true := by
      intro hc
      have hchild : c.cachedEventSnap.isCompleteForChild k = true := by
        simp [FCacheNode.isCompleteForChild, hc, h.unfiltered.1]
      have hnew : newUserChild c k p snap ref o = (c.cachedEventSnap.node.sub [k]).set p snap := by
        have hcomplete : completeChild ref c o k = some (c.cachedEventSnap.node.sub [k]) := if_pos hchild
        rw [newUserChild, hcomplete]
        split
        · rename_i hp
          rw [hp]
          exact Tree.ext_leaf fun q => by simp [Tree.leaf_set]
        · rfl
      simp only [applyUserOverwriteTo, hnew]
      split
      · rename_i hsame
        have hset : c.cachedEventSnap.node.set (k :: p) snap = c.cachedEventSnap.node := by
          have hsub := Tree.set_set_sub c.cachedEventSnap.node [k] p snap
          rw [← hsame, Tree.set_sub] at hsub
          exact hsub.symm
        rw [hset, FViewCache.updateEventSnap, ← hc, ← h.unfiltered.1]
      · rw [updateChildIn_set, hc]
    have hf : (applyUserOverwriteTo c (k :: p) snap ref o).1.Unfiltered := by
      simp only [applyUserOverwriteTo]
      split
      · exact h.unfiltered
      · exact ⟨rfl, h.unfiltered.2⟩
    refine ⟨hf, ?_⟩
    rw [server_applyUserOverwriteTo, hnil]
    intro hknown
    obtain ⟨hc, hover⟩ := h.shown hknown
    rw [hstep hc]
    refine ⟨rfl, fun q => ?_⟩
    change (c.cachedEventSnap.node.set (k :: p) snap).leaf q = _
    rw [Tree.leaf_set, FCompoundWrite.view_addWrite]
    by_cases hpq : k :: p <+: q
    · rw [if_pos hpq, if_pos hpq, Option.getD_some]
    · rw [if_neg hpq, if_neg hpq]
      by_cases hqp : q <+: k :: p ∧ ¬ snap.isEmpty
      · rw [if_pos hqp]
        cases hq : w.view q with
        | some x => simp [hqp]
        | none =>
          -- above the write the server has no leaf
          have hwrite : (w.addWrite snap (k :: p)).view (k :: p) ≠ none := by
            rw [FCompoundWrite.view_addWrite, if_pos (List.prefix_refl _)]
            simp
          have habove : (w.addWrite snap (k :: p)).view q = none := by
            rw [FCompoundWrite.view_addWrite, if_neg hpq, hq, Option.map_none]
          exact (hs q _ hqp.1 habove hwrite).symm
      · rw [if_neg hqp, hover q]
        cases w.view q <;> simp [hqp]

section
variable {inner : List String → Prop}

/-- The user's writes one after the other, as `applyUserMergeTo:…` applies them. -/
theorem upToDate_foldl_applyUserOverwriteTo (ref : FWriteTreeRef) (o : Option Node) (ws : List (List String × Node)) :
    ∀ {w : FCompoundWrite} {a : FViewCache × List FChange}, a.1.UpToDate w → w.Grounded inner →
      (∀ x ∈ ws, ∀ q, q <+: x.1 → q ≠ x.1 → inner q) →
      a.1.cachedServerSnap.node.Leaves (fun q _ => ¬ inner q) →
      (ws.foldl (fun a x => thenApply a fun c => applyUserOverwriteTo c x.1 x.2 ref o) a).1.UpToDate
        (w.addWrites ws) := by
  induction ws with
  | nil => exact fun h _ _ _ => h
  | cons x ws ih =>
    intro w a h hg hin hs
    have hgx := hg.addWrite (hin x List.mem_cons_self) x.2
    refine ih (w := w.addWrite x.2 x.1) ?_ hgx (fun y hy => hin y (List.mem_cons_of_mem _ hy)) ?_
    · exact upToDate_applyUserOverwriteTo h x.1 x.2 ref o (hgx.noLeafAbove hs)
    · change (applyUserOverwriteTo a.1 x.1 x.2 ref o).1.cachedServerSnap.node.Leaves _
      rwa [server_applyUserOverwriteTo]

theorem server_foldl_applyUserOverwriteTo (ref : FWriteTreeRef) (o : Option Node) (ws : List (List String × Node))
    (applied : FViewCache × List FChange) :
    (ws.foldl (fun applied x => thenApply applied fun c => applyUserOverwriteTo c x.1 x.2 ref o)
      applied).1.cachedServerSnap = applied.1.cachedServerSnap := by
  induction ws generalizing applied with
  | nil => rfl
  | cons x ws ih => rw [List.foldl_cons, ih, thenApply, server_applyUserOverwriteTo]

/-- A merge of the user. -/
theorem upToDate_applyUserMergeTo (h : c.UpToDate w) (p : List String) (children : FCompoundWrite)
    (ref : FWriteTreeRef) (o : Option Node) (hg : w.Grounded inner)
    (hin : ∀ x ∈ children.enumerateWrites, ∀ q, q <+: p ++ x.1 → q ≠ p ++ x.1 → inner q)
    (hs : c.cachedServerSnap.node.Leaves fun q _ => ¬ inner q) :
    (applyUserMergeTo c p children ref o).1.UpToDate (w.addCompoundWrite children p) := by
  have hperm := List.filter_append_perm (fun x : List String × Node => cacheHasChild c x.1)
    (children.enumerateWrites.map fun x => (p ++ x.1, x.2))
  have hmem : ∀ x ∈ children.enumerateWrites.map fun x => (p ++ x.1, x.2), ∃ y ∈ children.enumerateWrites,
      (p ++ y.1, y.2) = x := fun x hx => List.mem_map.1 hx
  have hsame : w.addCompoundWrite children p = w.addWrites _ :=
    FCompoundWrite.addWrites_perm hperm.symm (fun x hx y hy => by
      obtain ⟨x', hx', rfl⟩ := hmem x hx
      obtain ⟨y', hy', rfl⟩ := hmem y hy
      rcases FCompoundWrite.eq_or_apart_of_mem_enumerateWrites hx' hy' with rfl | hap
      · exact Or.inl rfl
      · exact Or.inr ⟨fun hxy => hap.1 ((List.prefix_append_right_inj p).1 hxy),
          fun hyx => hap.2 ((List.prefix_append_right_inj p).1 hyx)⟩) w
  rw [hsame]
  refine upToDate_foldl_applyUserOverwriteTo ref o _ (a := (c, [])) h hg (fun x hx => ?_) hs
  obtain ⟨y, hy, rfl⟩ := hmem x (hperm.subset hx)
  exact hin y hy

end

/-! ### Child by child -/

theorem leaf_set_child {j : String} (t n : Node) (hj : [j] <+: q) (hk : ¬ [k] <+: q) :
    (t.set [k] n).leaf q = t.leaf q := by
  refine Tree.leaf_set_apart t n ⟨hk, fun hq => hk ?_⟩
  have hlen : q.length = [k].length := le_antisymm hq.length_le (by simpa using hj.length_le)
  exact (hq.eq_of_length hlen) ▸ List.prefix_refl _

/-- The event node is right, except in the children still to come, where it is as it was under other writes. -/
def RightBut (w₀ w : FCompoundWrite) (s e : Node) (keys : List String) : Prop :=
  ∀ q, e.leaf q = (w.view q).getD (s.leaf q) ∨
    (∃ k ∈ keys, [k] <+: q) ∧ e.leaf q = (w₀.view q).getD (s.leaf q)

section
variable {inner : List String → Prop} {w₀ : FCompoundWrite} {keys : List String}

/-- The server's overwrite of a child always goes through. -/
theorem server_applyServerOverwriteTo (hf : c.Unfiltered) (k : String) (n : Node) (ref : FWriteTreeRef) :
    (applyServerOverwriteTo c [k] n ref).1.cachedServerSnap =
      ⟨c.cachedServerSnap.node.set [k] n, c.cachedServerSnap.isFullyInitialized, false⟩ := by
  rcases applyServerOverwriteTo_fst hf [k] n ref with ⟨-, -, hlen⟩ | heq
  · exact absurd hlen (by simp)
  · rw [heq, generate_server]
    simp [FViewCache.updateServerSnap]

theorem server_foldl_applyServerOverwriteTo (ref : FWriteTreeRef) (children : List (String × Node)) :
    ∀ {a : FViewCache × List FChange}, a.1.Unfiltered → ∀ c',
      (children.foldl (fun a x => thenApply a fun c => applyServerOverwriteTo c [x.1] x.2 ref)
          a).1 = c' →
        c'.Unfiltered ∧
          c'.cachedServerSnap.node = a.1.cachedServerSnap.node.update (children.map fun x => ([x.1], x.2)) ∧
          c'.cachedServerSnap.isFullyInitialized = a.1.cachedServerSnap.isFullyInitialized := by
  induction children with
  | nil =>
    rintro a hf c' rfl
    exact ⟨hf, rfl, rfl⟩
  | cons x children ih =>
    rintro a hf c' rfl
    have hserver := server_applyServerOverwriteTo hf x.1 x.2 ref
    obtain ⟨h1, h2, h3⟩ := ih (a := thenApply a fun c => applyServerOverwriteTo c [x.1] x.2 ref)
      (show (applyServerOverwriteTo a.1 [x.1] x.2 ref).1.Unfiltered from
        unfiltered_applyServerOverwriteTo hf _ _ _) _ rfl
    change _ = (applyServerOverwriteTo a.1 [x.1] x.2 ref).1.cachedServerSnap.node.update _ at h2
    change _ = (applyServerOverwriteTo a.1 [x.1] x.2 ref).1.cachedServerSnap.isFullyInitialized at h3
    rw [hserver] at h2 h3
    exact ⟨h1, h2, h3⟩

/-- One of the children. -/
theorem rightBut_applyServerOverwriteTo {n : Node} (hf : c.Unfiltered) (hw : ref.writes = w) (hg : w.Grounded inner)
    (hcover : ∀ q, w.view q ≠ none → w₀.view q = w.view q)
    (hs : c.cachedServerSnap.node.Leaves fun q _ => ¬ inner q) (hn : n.Leaves fun q _ => ¬ inner (k :: q))
    (hknown : c.cachedServerSnap.isFullyInitialized = true ∨ w.view [] ≠ none)
    (hec : c.cachedEventSnap.isFullyInitialized = true)
    (hr : RightBut w₀ w c.cachedServerSnap.node c.cachedEventSnap.node (k :: keys)) :
    (applyServerOverwriteTo c [k] n ref).1.cachedEventSnap.isFullyInitialized = true ∧
      RightBut w₀ w (c.cachedServerSnap.node.set [k] n) (applyServerOverwriteTo c [k] n ref).1.cachedEventSnap.node
        keys := by
  subst hw
  have habove := hg.noLeafAbove hs
  have hs' : (c.cachedServerSnap.node.set [k] n).Leaves fun q _ => ¬ inner q := hs.set hn
  rcases applyServerOverwriteTo_fst hf [k] n ref with ⟨-, -, hlen⟩ | heq
  · exact absurd hlen (by simp)
  rw [heq]
  by_cases hsh : ref.writes.view [k] = none
  · -- computed anew
    obtain ⟨u, hu, hgen⟩ := generate_cons (c := c.updateServerSnap (c.cachedServerSnap.node.set [k] n)
      (c.cachedServerSnap.isFullyInitialized || [k].isEmpty)) hsh hec hf.1 (hg.noLeafAbove hs')
    rw [hgen]
    refine ⟨rfl, fun q => ?_⟩
    have hu' : (ref.writes.childCompoundWriteAtPath [k]).Overlaid n u := by
      have hsub : (c.cachedServerSnap.node.set [k] n).sub [k] = n := Tree.sub_set_self _ _ _
      exact hsub ▸ hu
    by_cases hkq : [k] <+: q
    · exact Or.inl (FCompoundWrite.leaf_set_recomputed hsh hu' habove (Or.inl hkq))
    · rcases hr q with hright | ⟨⟨j, hj, hjq⟩, hold⟩
      · exact Or.inl (FCompoundWrite.leaf_set_recomputed hsh hu' habove (Or.inr hright))
      · have hjk : j ≠ k := fun h => hkq (h ▸ hjq)
        refine Or.inr ⟨⟨j, (List.mem_cons.1 hj).resolve_left hjk, hjq⟩, ?_⟩
        change (c.cachedEventSnap.node.set [k] u).leaf q = _
        rw [leaf_set_child _ u hjq hkq, leaf_set_child _ n hjq hkq]
        exact hold
  · -- hidden by a write
    rw [generate_shadowed hsh]
    refine ⟨hec, fun q => ?_⟩
    change c.cachedEventSnap.node.leaf q = _ ∨ _ ∧ c.cachedEventSnap.node.leaf q = _
    by_cases hkq : [k] <+: q
    · have hq : ref.writes.view q ≠ none := by
        obtain ⟨r, rfl⟩ := hkq
        exact FCompoundWrite.view_append_ne_none hsh r
      obtain ⟨x, hx⟩ := Option.ne_none_iff_exists'.1 hq
      have hold := hr q
      rw [hcover q hq, hx] at hold
      rw [hx]
      exact Or.inl (hold.elim id And.right)
    · rcases hr q with hright | ⟨⟨j, hj, hjq⟩, hold⟩
      · refine Or.inl (hright.trans ?_)
        cases hq : ref.writes.view q with
        | some x => rfl
        | none =>
          rw [Option.getD_none, Option.getD_none, Tree.leaf_set, if_neg hkq]
          split
          · rename_i hqk
            exact habove q [k] hqk.1 hq hsh
          · rfl
      · have hjk : j ≠ k := fun h => hkq (h ▸ hjq)
        refine Or.inr ⟨⟨j, (List.mem_cons.1 hj).resolve_left hjk, hjq⟩, ?_⟩
        rw [leaf_set_child _ n hjq hkq]
        exact hold

/-- All of the children. -/
theorem rightBut_foldl (hw : ref.writes = w) (hg : w.Grounded inner)
    (hcover : ∀ q, w.view q ≠ none → w₀.view q = w.view q) (children : List (String × Node)) :
    ∀ {a : FViewCache × List FChange}, a.1.Unfiltered →
      a.1.cachedServerSnap.node.Leaves (fun q _ => ¬ inner q) →
      (∀ x ∈ children, x.2.Leaves fun q _ => ¬ inner (x.1 :: q)) →
      a.1.cachedServerSnap.isFullyInitialized = true ∨ w.view [] ≠ none →
      a.1.cachedEventSnap.isFullyInitialized = true →
      RightBut w₀ w a.1.cachedServerSnap.node a.1.cachedEventSnap.node (children.map Prod.fst) →
      ∀ c', (children.foldl (fun a x => thenApply a fun c => applyServerOverwriteTo c [x.1] x.2 ref)
          a).1 = c' →
        c'.cachedEventSnap.isFullyInitialized = true ∧
          w.Overlaid c'.cachedServerSnap.node c'.cachedEventSnap.node := by
  induction children with
  | nil =>
    rintro a - - - - hec hr c' rfl
    refine ⟨hec, fun q => ?_⟩
    rcases hr q with hright | ⟨⟨k, hk, -⟩, -⟩
    · exact hright
    · cases hk
  | cons x children ih =>
    rintro a hf hs hn hknown hec hr c' rfl
    obtain ⟨hec', hr'⟩ := rightBut_applyServerOverwriteTo hf hw hg hcover hs (hn x List.mem_cons_self) hknown hec hr
    have hserver := server_applyServerOverwriteTo hf x.1 x.2 ref
    refine ih (a := thenApply a fun c => applyServerOverwriteTo c [x.1] x.2 ref)
      ?_ ?_ (fun y hy => hn y (List.mem_cons_of_mem _ hy)) ?_ hec' ?_ _ rfl
    · exact unfiltered_applyServerOverwriteTo hf [x.1] x.2 ref
    · change (applyServerOverwriteTo a.1 [x.1] x.2 ref).1.cachedServerSnap.node.Leaves _
      rw [hserver]
      exact hs.set (hn x List.mem_cons_self)
    · change (applyServerOverwriteTo a.1 [x.1] x.2 ref).1.cachedServerSnap.isFullyInitialized = true ∨ _
      rw [hserver]
      exact hknown
    · change RightBut w₀ w (applyServerOverwriteTo a.1 [x.1] x.2 ref).1.cachedServerSnap.node
        (applyServerOverwriteTo a.1 [x.1] x.2 ref).1.cachedEventSnap.node _
      rw [hserver]
      exact hr'

/-! ### The server's merges -/

/-- The children in the order `applyServerMergeTo:…` takes them, each with its new node. -/
def mergedChildren (c : FViewCache) (merge : FCompoundWrite) : List (String × Node) :=
  let serverNode := c.cachedServerSnap.node
  ((merge.childCompoundWrites.filter fun child => serverNode.hasChild child.1) ++
    (merge.childCompoundWrites.filter fun child => !serverNode.hasChild child.1 &&
      !(!c.cachedServerSnap.isCompleteForChild child.1 && child.2.rootWrite.isNone))).map
    fun child => (child.1, child.2.applyToNode (serverNode.sub [child.1]))

theorem applyServerMergeTo_eq (c : FViewCache) (p : List String) (children : FCompoundWrite) (ref : FWriteTreeRef) :
    applyServerMergeTo c p children ref = (c, []) ∧ c.cachedServerSnap.isFullyInitialized = false ∨
      applyServerMergeTo c p children ref = (mergedChildren c (actualMerge p children)).foldl
        (fun applied x => thenApply applied fun c => applyServerOverwriteTo c [x.1] x.2 ref) (c, []) := by
  unfold applyServerMergeTo
  split
  · rename_i hearly
    exact Or.inl ⟨rfl, hearly.2⟩
  · right
    rw [mergedChildren, List.foldl_map]

/-- A merge, of the server or of what it sent before: afterwards the view is up to date, if before it was right outside
the children merged. -/
theorem upToDate_applyServerMergeTo_of {children : FCompoundWrite} (hf : c.Unfiltered) (hw : ref.writes = w)
    (hg : w.Grounded inner) (hcover : ∀ q, w.view q ≠ none → w₀.view q = w.view q)
    (hs : c.cachedServerSnap.node.Leaves fun q _ => ¬ inner q)
    (hn : ∀ x ∈ mergedChildren c (actualMerge p children), x.2.Leaves fun q _ => ¬ inner (x.1 :: q))
    (hshown : c.cachedServerSnap.isFullyInitialized = true ∨ w.view [] ≠ none →
      c.cachedEventSnap.isFullyInitialized = true ∧ RightBut w₀ w c.cachedServerSnap.node c.cachedEventSnap.node
        ((mergedChildren c (actualMerge p children)).map Prod.fst)) :
    (applyServerMergeTo c p children ref).1.UpToDate w := by
  rcases applyServerMergeTo_eq c p children ref with ⟨heq, hincomplete⟩ | heq
  · rw [heq]
    refine ⟨hf, fun hknown => ?_⟩
    have hcovered : w.view [] ≠ none := hknown.resolve_left (by rw [hincomplete]; decide)
    obtain ⟨hec, hr⟩ := hshown hknown
    refine ⟨hec, fun q => ?_⟩
    have hq : w.view q ≠ none := FCompoundWrite.view_append_ne_none hcovered q
    have hright := hr q
    rw [hcover q hq] at hright
    exact hright.elim id And.right
  · rw [heq]
    obtain ⟨hf', -, hcomplete⟩ := server_foldl_applyServerOverwriteTo ref (mergedChildren c (actualMerge p children))
      (a := (c, [])) hf _ rfl
    refine ⟨hf', fun hknown => ?_⟩
    rw [hcomplete] at hknown
    obtain ⟨hec, hr⟩ := hshown hknown
    exact rightBut_foldl hw hg hcover _ (a := (c, [])) hf hs hn hknown hec hr _ rfl

theorem mem_mergedChildren {merge : FCompoundWrite} {x : String × Node} (hx : x ∈ mergedChildren c merge) :
    ∃ child ∈ merge.childCompoundWrites,
      (child.1, child.2.applyToNode (c.cachedServerSnap.node.sub [child.1])) = x := by
  obtain ⟨child, hchild, rfl⟩ := List.mem_map.1 hx
  rcases List.mem_append.1 hchild with h | h
  · exact ⟨child, (List.mem_filter.1 h).1, rfl⟩
  · exact ⟨child, (List.mem_filter.1 h).1, rfl⟩

/-- A complete view takes all children. -/
theorem mem_keys_mergedChildren {merge : FCompoundWrite} (hf : c.Unfiltered)
    (hc : c.cachedServerSnap.isFullyInitialized = true) {child : String × FCompoundWrite}
    (hchild : child ∈ merge.childCompoundWrites) : child.1 ∈ (mergedChildren c merge).map Prod.fst := by
  have hcomplete : c.cachedServerSnap.isCompleteForChild child.1 = true := by
    simp [FCacheNode.isCompleteForChild, hc, hf.2]
  refine List.mem_map.2 ⟨_, List.mem_map.2 ⟨child, List.mem_append.2 ?_, rfl⟩, rfl⟩
  by_cases hhas : c.cachedServerSnap.node.hasChild child.1 = true
  · exact Or.inl (List.mem_filter.2 ⟨hchild, hhas⟩)
  · exact Or.inr (List.mem_filter.2 ⟨hchild, by simp [hhas, hcomplete]⟩)

/-- The merge holds the children's writes, below the path. -/
theorem valueAtPath_actualMerge {children : FCompoundWrite} {n : Node} :
    (actualMerge p children).writeTree.valueAtPath q = some n ↔
      ∃ r, q = p ++ r ∧ children.writeTree.valueAtPath r = some n := by
  have hshows : (actualMerge p children).Shows (children.enumerateWrites.map fun x => (p ++ x.1, x.2)) := by
    unfold actualMerge
    split
    · rename_i hp
      subst hp
      simpa using children.shows_enumerateWrites
    · exact FCompoundWrite.shows_emptyWrite.addCompoundWrite children p
  rw [hshows.valueAtPath]
  · constructor
    · intro h
      obtain ⟨x, hx, heq⟩ := List.mem_map.1 h
      obtain ⟨rfl, rfl⟩ := Prod.mk.inj heq
      exact ⟨x.1, rfl, FCompoundWrite.mem_enumerateWrites.1 hx⟩
    · rintro ⟨r, rfl, hr⟩
      exact List.mem_map.2 ⟨(r, n), FCompoundWrite.mem_enumerateWrites.2 hr, rfl⟩
  · intro x hx y hy
    obtain ⟨x', hx', rfl⟩ := List.mem_map.1 hx
    obtain ⟨y', hy', rfl⟩ := List.mem_map.1 hy
    rcases FCompoundWrite.eq_or_apart_of_mem_enumerateWrites hx' hy' with rfl | hap
    · exact Or.inl rfl
    · exact Or.inr ⟨fun hxy => hap.1 ((List.prefix_append_right_inj p).1 hxy),
        fun hyx => hap.2 ((List.prefix_append_right_inj p).1 hyx)⟩

/-- The new nodes of the children hold no leaf at an inner place. -/
theorem leaves_mergedChildren {merge : FCompoundWrite} (hs : c.cachedServerSnap.node.Leaves fun q _ => ¬ inner q)
    (hm : ∀ q n, merge.writeTree.valueAtPath q = some n → n.Leaves fun r _ => ¬ inner (q ++ r)) :
    ∀ x ∈ mergedChildren c merge, x.2.Leaves fun q _ => ¬ inner (x.1 :: q) := by
  intro x hx
  obtain ⟨child, hchild, rfl⟩ := mem_mergedChildren hx
  rw [FCompoundWrite.applyToNode_eq]
  refine Tree.Leaves.update (fun q _ => ¬ inner (child.1 :: q)) (hs.sub [child.1]) fun y hy => ?_
  have hval := FCompoundWrite.mem_enumerateWrites.1 hy
  rw [FCompoundWrite.valueAtPath_of_mem_childCompoundWrites hchild] at hval
  exact hm _ _ hval

/-- A merge of the server. -/
theorem upToDate_applyServerMergeTo (h : c.UpToDate w) (hw : ref.writes = w) (p : List String)
    (children : FCompoundWrite) (hg : w.Grounded inner) (hs : c.cachedServerSnap.node.Leaves fun q _ => ¬ inner q)
    (hm : ∀ x ∈ children.enumerateWrites, x.2.Leaves fun q _ => ¬ inner (p ++ x.1 ++ q)) :
    (applyServerMergeTo c p children ref).1.UpToDate w := by
  have hsame : ∀ q, w.view q ≠ none → w.view q = w.view q := fun _ _ => rfl
  refine upToDate_applyServerMergeTo_of h.unfiltered hw hg hsame hs ?_ fun hknown => ?_
  · refine leaves_mergedChildren hs fun q n hn => ?_
    obtain ⟨r, rfl, hr⟩ := valueAtPath_actualMerge.1 hn
    exact hm (r, n) (FCompoundWrite.mem_enumerateWrites.2 hr)
  · exact ⟨(h.shown hknown).1, fun q => Or.inl ((h.shown hknown).2 q)⟩

/-! ### Inner places stay without a leaf -/

theorem leaves_applyServerOverwriteTo (hf : c.Unfiltered) (p : List String)
    (hs : c.cachedServerSnap.node.Leaves fun q _ => ¬ inner q) (hn : snap.Leaves fun q _ => ¬ inner (p ++ q)) :
    (applyServerOverwriteTo c p snap ref).1.cachedServerSnap.node.Leaves fun q _ => ¬ inner q := by
  rcases applyServerOverwriteTo_fst hf p snap ref with ⟨heq, -, -⟩ | heq
  · rw [heq]
    exact hs
  · rw [heq, generate_server]
    exact hs.set hn

theorem leaves_applyServerMergeTo (hf : c.Unfiltered) (p : List String) (children : FCompoundWrite)
    (hs : c.cachedServerSnap.node.Leaves fun q _ => ¬ inner q)
    (hn : ∀ x ∈ mergedChildren c (actualMerge p children), x.2.Leaves fun q _ => ¬ inner (x.1 :: q)) :
    (applyServerMergeTo c p children ref).1.cachedServerSnap.node.Leaves fun q _ => ¬ inner q := by
  rcases applyServerMergeTo_eq c p children ref with ⟨heq, -⟩ | heq
  · rw [heq]
    exact hs
  · rw [heq, (server_foldl_applyServerOverwriteTo ref _ (a := (c, [])) hf _ rfl).2.1]
    refine Tree.Leaves.update (fun q _ => ¬ inner q) hs fun x hx => ?_
    obtain ⟨y, hy, rfl⟩ := List.mem_map.1 hx
    exact hn y hy

/-! ### The server's answers -/

/-- The writes that are left after an answer: they say the same as before off the places of the answered write, and
wherever they say something. -/
structure Answered (w₀ w : FCompoundWrite) (ackPath : List String) (affected : List String → Prop) : Prop where
  off : ∀ q, (∀ m, affected m → ¬ ackPath ++ m <+: q) → w₀.view q = w.view q
  left : ∀ q, w.view q ≠ none → w₀.view q = w.view q

/-- Where a write that is left covers the answered place, nothing changes. -/
theorem Answered.eq_of_shadowed {affected : List String → Prop} (h : Answered w₀ w p affected)
    (hsh : w.view p ≠ none) : w₀ = w := by
  refine FCompoundWrite.ext_view fun q => ?_
  by_cases hq : p <+: q
  · obtain ⟨r, rfl⟩ := hq
    exact h.left _ (FCompoundWrite.view_append_ne_none hsh r)
  · exact h.off q fun m _ hm => hq ((List.prefix_append p m).trans hm)

/-- What is merged again is what the server's node has there. -/
theorem applyToNode_mergedChildren {children : FCompoundWrite} {ws : List (List String × Node)}
    (hshows : children.Shows ws) (ha : Agrees (c.cachedServerSnap.node.sub p) ws) :
    ∀ x ∈ mergedChildren c (actualMerge p children), x.2 = c.cachedServerSnap.node.sub [x.1] := by
  intro x hx
  obtain ⟨child, hchild, rfl⟩ := mem_mergedChildren hx
  rw [FCompoundWrite.applyToNode_eq]
  refine Agrees.update fun y hy => ?_
  have hval := FCompoundWrite.mem_enumerateWrites.1 hy
  rw [FCompoundWrite.valueAtPath_of_mem_childCompoundWrites hchild] at hval
  obtain ⟨r, hr, hrval⟩ := valueAtPath_actualMerge.1 hval
  rw [hshows.agrees ha hrval, Tree.sub_sub, ← hr, Tree.sub_sub]
  rfl

/-- Without a node of the server, and without a write that covers it, a view shows nothing. -/
theorem upToDate_of_unknown (hf : c.Unfiltered) (hc : c.cachedServerSnap.isFullyInitialized = false)
    (hnil : w.view [] = none) : c.UpToDate w := by
  refine ⟨hf, fun hknown => ?_⟩
  rcases hknown with hcomplete | hcovered
  · rw [hc] at hcomplete
    cases hcomplete
  · exact absurd hnil hcovered

/-- The place of an answered overwrite is computed anew. -/
theorem upToDate_overwrite_again {affected : List String → Prop} (h : c.UpToDate w₀) (hw : ref.writes = w)
    (hg : w.Grounded inner) (hans : Answered w₀ w p affected) (hsh : w.view p = none)
    (hs : c.cachedServerSnap.node.Leaves fun q _ => ¬ inner q) :
    (applyServerOverwriteTo c p (c.cachedServerSnap.node.sub p) ref).1.UpToDate w ∧
      (applyServerOverwriteTo c p (c.cachedServerSnap.node.sub p) ref).1.cachedServerSnap.node.Leaves
        fun q _ => ¬ inner q := by
  refine ⟨?_, leaves_applyServerOverwriteTo h.unfiltered p hs (hs.sub p)⟩
  have hnil := FCompoundWrite.view_nil_of_view hsh
  have habove := hg.noLeafAbove hs
  have hsame := Tree.set_sub c.cachedServerSnap.node p
  rcases applyServerOverwriteTo_fst h.unfiltered p (c.cachedServerSnap.node.sub p) ref with ⟨heq, hc, -⟩ | heq
  · rw [heq]
    exact upToDate_of_unknown h.unfiltered hc hnil
  · rw [heq]
    refine upToDate_generate hw rfl ⟨h.unfiltered.1, rfl⟩ (fun hp => by simp [hp, FViewCache.updateServerSnap])
      (fun _ => habove) (hsame.symm ▸ habove) fun hknown => ?_
    obtain ⟨hne, hc⟩ := hknown.resolve_right (not_not.2 hnil)
    have hc' : c.cachedServerSnap.isFullyInitialized = true := by
      cases p with
      | nil => exact absurd rfl hne
      | cons k p => simpa [FViewCache.updateServerSnap] using hc
    obtain ⟨hec, hover⟩ := h.shown (Or.inl hc')
    refine ⟨hec, fun q hq => (hover q).trans ?_⟩
    rw [hans.off q fun m _ hm => hq ((List.prefix_append p m).trans hm) hsh]

/-- What the server's node has at the places of an answered merge is merged again. -/
theorem upToDate_merge_again {affected : List String → Prop} {children : FCompoundWrite}
    {ws : List (List String × Node)} (h : c.UpToDate w₀) (hw : ref.writes = w) (hg : w.Grounded inner)
    (hans : Answered w₀ w p affected) (hnil : w.view [] = none)
    (hs : c.cachedServerSnap.node.Leaves fun q _ => ¬ inner q) (hshows : children.Shows ws)
    (ha : Agrees (c.cachedServerSnap.node.sub p) ws)
    (hcov : c.cachedServerSnap.isFullyInitialized = true → ∀ m, affected m → Covered ws m)
    (hroot : c.cachedServerSnap.isFullyInitialized = true → ∀ x ∈ ws, p ++ x.1 ≠ []) :
    (applyServerMergeTo c p children ref).1.UpToDate w ∧
      (applyServerMergeTo c p children ref).1.cachedServerSnap.node.Leaves fun q _ => ¬ inner q := by
  have hagain : ∀ x ∈ mergedChildren c (actualMerge p children), x.2.Leaves fun q _ => ¬ inner (x.1 :: q) := by
    intro x hx
    rw [applyToNode_mergedChildren hshows ha x hx]
    exact hs.sub [x.1]
  refine ⟨?_, leaves_applyServerMergeTo h.unfiltered p children hs hagain⟩
  refine upToDate_applyServerMergeTo_of h.unfiltered hw hg hans.left hs hagain fun hknown => ?_
  have hc := hknown.resolve_right (not_not.2 hnil)
  obtain ⟨hec, hover⟩ := h.shown (Or.inl hc)
  refine ⟨hec, fun q => ?_⟩
  by_cases hq : ∀ m, affected m → ¬ p ++ m <+: q
  · exact Or.inl ((hover q).trans (by rw [hans.off q hq]))
  · -- the place lies in a child that is merged again
    obtain ⟨m, hm⟩ := not_forall.1 hq
    obtain ⟨hma, hmq⟩ := Classical.not_imp.1 hm
    have hmq := not_not.1 hmq
    refine Or.inr ⟨?_, hover q⟩
    have hview : children.view m ≠ none := by
      rw [hshows m]
      exact shown_ne_none.2 (hcov hc m hma)
    rcases children.covered_or m with ⟨r, n, hrm, hr⟩ | hno
    · have hpr : p ++ r <+: q := ((List.prefix_append_right_inj p).2 hrm).trans hmq
      have hval := valueAtPath_actualMerge (p := p).2 ⟨r, rfl, hr⟩
      have hne : p ++ r ≠ [] := by
        intro hnil'
        have hcr : Covered ws r := shown_ne_none.1 (by rw [← hshows, FCompoundWrite.view_of hr (List.prefix_refl r)]; simp)
        obtain ⟨x, hx, hxr⟩ := hcr
        have hx1 : x.1 = [] := List.prefix_nil.1 ((List.append_eq_nil_iff.1 hnil').2 ▸ hxr)
        exact hroot hc x hx (by rw [hx1, (List.append_eq_nil_iff.1 hnil').1]; rfl)
      obtain ⟨k, r', hkr⟩ := List.exists_cons_of_ne_nil hne
      rw [hkr] at hval hpr
      obtain ⟨child, hchild, hkey⟩ := FCompoundWrite.exists_mem_childCompoundWrites (by rw [hval]; rfl)
      refine ⟨k, hkey ▸ mem_keys_mergedChildren h.unfiltered hc hchild, List.IsPrefix.trans ?_ hpr⟩
      simp [List.cons_prefix_cons]
    · exact absurd (FCompoundWrite.view_eq_none.2 hno) hview

/-- The answer "ok". -/
theorem upToDate_ackUserWriteOn {affectedTree : FImmutableTree String Unit} (h : c.UpToDate w₀)
    (hw : ref.writes = w) (hg : w.Grounded inner) (hsound : affectedTree.Sound)
    (hans : Answered w₀ w p fun m => (affectedTree.valueAtPath m).isSome)
    (hs : c.cachedServerSnap.node.Leaves fun q _ => ¬ inner q) :
    (ackUserWriteOn c p affectedTree ref).1.UpToDate w ∧
      (ackUserWriteOn c p affectedTree ref).1.cachedServerSnap.node.Leaves fun q _ => ¬ inner q := by
  unfold ackUserWriteOn
  by_cases hsh : w.view p = none
  · have hnil := FCompoundWrite.view_nil_of_view hsh
    rw [if_neg fun hc => FWriteTreeRef.shadowingWriteAtPath_isSome_iff.1 hc (hw ▸ hsh)]
    have hcomplete : c.cachedServerSnap.isFullyInitialized = true → ∀ q, c.cachedServerSnap.isCompleteForPath q = true :=
      fun hc q => FCacheNode.isCompleteForPath_of_complete hc h.unfiltered.2 q
    dsimp only
    split
    · split
      · exact upToDate_overwrite_again h hw hg hans hsh hs
      · rename_i hnot
        have hc : c.cachedServerSnap.isFullyInitialized = false := by
          by_contra hc
          exact hnot (Or.inr (hcomplete (by simpa using hc) p))
        split
        · rename_i hp
          have hshows := FCompoundWrite.shows_layer
            (c.cachedServerSnap.node.enumerateChildren.map fun child => ([child.1], child.2))
          rw [FCompoundWrite.addWrites, List.foldl_map] at hshows
          refine upToDate_merge_again h hw hg hans hnil hs hshows ?_ (fun hc' => ?_) fun hc' => ?_
          · intro x hx
            obtain ⟨child, hchild, rfl⟩ := List.mem_map.1 hx
            obtain ⟨k, -, rfl⟩ := List.mem_map.1 hchild
            rw [hp, Tree.sub_nil]
          · rw [hc] at hc'
            cases hc'
          · rw [hc] at hc'
            cases hc'
        · exact ⟨upToDate_of_unknown h.unfiltered hc hnil, hs⟩
    · rename_i hvalue
      have hshows := FCompoundWrite.shows_layer ((affectedTree.forEach.filter fun x =>
        c.cachedServerSnap.isCompleteForPath (p ++ x.1)).map fun x => (x.1, c.cachedServerSnap.node.sub (p ++ x.1)))
      rw [FCompoundWrite.addWrites, List.foldl_map, List.foldl_filter] at hshows
      refine upToDate_merge_again h hw hg hans hnil hs hshows ?_ (fun hc m hm => ?_) fun hc x hx => ?_
      · intro x hx
        obtain ⟨y, -, rfl⟩ := List.mem_map.1 hx
        rw [Tree.sub_sub]
      · obtain ⟨u, hu⟩ := Option.isSome_iff_exists.1 hm
        have hmem : (m, u) ∈ affectedTree.forEach := hsound.mem_forEach.2 hu
        exact ⟨_, List.mem_map.2 ⟨(m, u), List.mem_filter.2 ⟨hmem, hcomplete hc _⟩, rfl⟩, List.prefix_refl _⟩
      · obtain ⟨y, hy, rfl⟩ := List.mem_map.1 hx
        intro hnil'
        have hval := hsound.mem_forEach.1 (List.mem_filter.1 hy).1
        rw [(List.append_eq_nil_iff.1 hnil').2] at hval
        exact hvalue (by rw [← FImmutableTree.valueAtPath_nil, hval]; rfl)
  · rw [if_pos (FWriteTreeRef.shadowingWriteAtPath_isSome_iff.2 (hw ▸ hsh)), ← hans.eq_of_shadowed hsh]
    exact ⟨h, hs⟩

theorem server_revertUserWriteOn (c : FViewCache) (p : List String) (ref : FWriteTreeRef) :
    (revertUserWriteOn c p ref).1.cachedServerSnap = c.cachedServerSnap := by
  unfold revertUserWriteOn
  split <;> rfl

theorem unfiltered_revertUserWriteOn (hf : c.Unfiltered) (p : List String) (ref : FWriteTreeRef) :
    (revertUserWriteOn c p ref).1.Unfiltered := by
  refine ⟨?_, (server_revertUserWriteOn c p ref).symm ▸ hf.2⟩
  unfold revertUserWriteOn
  split
  · exact hf.1
  · rfl

/-- The answer that the write was refused. -/
theorem upToDate_revertUserWriteOn {affected : List String → Prop} (h : c.UpToDate w₀) (hw : ref.writes = w)
    (hg : w.Grounded inner) (hans : Answered w₀ w p affected)
    (hs : c.cachedServerSnap.node.Leaves fun q _ => ¬ inner q) : (revertUserWriteOn c p ref).1.UpToDate w := by
  have hf := unfiltered_revertUserWriteOn h.unfiltered p ref
  by_cases hsh : w.view p = none
  · have hnil := FCompoundWrite.view_nil_of_view hsh
    cases hc : c.cachedServerSnap.isFullyInitialized with
    | false => exact upToDate_of_unknown hf (by rw [server_revertUserWriteOn, hc]) hnil
    | true =>
      subst hw
      have habove := hg.noLeafAbove hs
      have hno : ¬ (ref.shadowingWriteAtPath p).isSome = true :=
        fun hc => FWriteTreeRef.shadowingWriteAtPath_isSome_iff.1 hc hsh
      obtain ⟨e, he, hover'⟩ := FWriteTreeRef.calculateCompleteEventCache_some habove
      have hserver : c.completeServerSnap = some c.cachedServerSnap.node := if_pos hc
      -- the event node becomes what it is under the writes that are left
      suffices heq : (revertUserWriteOn c p ref).1 = c.updateEventSnap e true by
        refine ⟨hf, fun _ => ?_⟩
        rw [heq]
        exact ⟨rfl, hover'⟩
      cases p with
      | nil => simp [revertUserWriteOn, hno, hc, hserver, he, updateFullNode]
      | cons k p =>
        obtain ⟨hec, hover⟩ := h.shown (Or.inl hc)
        have hchild : c.cachedServerSnap.isCompleteForChild k = true := by
          simp [FCacheNode.isCompleteForChild, hc, h.unfiltered.2]
        obtain ⟨child, hcalc, hu⟩ := FWriteTreeRef.calculateCompleteChild_some hchild habove
        have hk : ref.writes.view [k] = none := by
          by_contra hk
          exact FCompoundWrite.view_append_ne_none hk p hsh
        have hoff : ∀ q, ¬ k :: p <+: q → c.cachedEventSnap.node.leaf q =
            (ref.writes.view q).getD (c.cachedServerSnap.node.leaf q) := fun q hq =>
          (hover q).trans (by rw [hans.off q fun m _ hm => hq ((List.prefix_append (k :: p) m).trans hm)])
        have hset : c.cachedEventSnap.node.set [k] child = e := by
          refine FCompoundWrite.Overlaid.eq (w := ref.writes) (s := c.cachedServerSnap.node) (fun q => ?_) hover'
          have hright := FCompoundWrite.leaf_set_recomputed (q := q) (e := c.cachedEventSnap.node) hk hu habove
          rw [Tree.set_sub] at hright
          refine hright ?_
          by_cases hkq : [k] <+: q
          · exact Or.inl hkq
          · exact Or.inr (hoff q fun hq => hkq (List.IsPrefix.trans (by simp [List.cons_prefix_cons]) hq))
        have hupdate : (updateChildIn c.cachedEventSnap.node k child p).1 = e := by
          rw [updateChildIn_fst, hset]
          intro hagree
          refine Tree.ext_leaf fun r => ?_
          by_cases hr : p <+: r
          · obtain ⟨r', rfl⟩ := hr
            exact congrArg (fun t => Tree.leaf t r') hagree
          · have hkr : ¬ k :: p <+: k :: r := fun hq => hr (List.cons_prefix_cons.1 hq).2
            rw [hu r, FCompoundWrite.view_childCompoundWriteAtPath]
            exact hoff (k :: r) hkr
        have hchild : (revertChild c k p ref).1 = e := by
          rw [revertChild, hcalc]
          exact hupdate
        simp only [revertUserWriteOn, if_neg hno, hserver, he, Option.getD_some, hchild, hc, Bool.true_or]
        split <;> rfl
  · have heq : (revertUserWriteOn c p ref).1 = c := by
      rw [revertUserWriteOn, if_pos (FWriteTreeRef.shadowingWriteAtPath_isSome_iff.2 (hw ▸ hsh))]
    rw [heq, ← hans.eq_of_shadowed hsh]
    exact h

/-- The server has answered a listen. -/
theorem upToDate_listenCompleteOldCache (h : c.UpToDate w) (hw : ref.writes = w) (p : List String)
    (hg : w.Grounded inner) (hs : c.cachedServerSnap.node.Leaves fun q _ => ¬ inner q) :
    (listenCompleteOldCache c p ref).1.UpToDate w := by
  have habove := hg.noLeafAbove hs
  have hsame := Tree.set_sub c.cachedServerSnap.node p
  refine upToDate_generate (s := c.cachedServerSnap.node) hw hsame.symm
    ⟨h.unfiltered.1, rfl⟩ (fun hp => by simp [hp, FViewCache.updateServerSnap]) (fun _ => habove)
    (hsame.symm ▸ habove) fun hknown => ?_
  have hold : c.cachedServerSnap.isFullyInitialized = true ∨ w.view [] ≠ none := by
    refine hknown.imp_left ?_
    rintro ⟨hne, hc⟩
    cases p with
    | nil => exact absurd rfl hne
    | cons k p => simpa [FViewCache.updateServerSnap] using hc
  exact ⟨(h.shown hold).1, fun q _ => (h.shown hold).2 q⟩

end

end FViewProcessor

/-! ## All operations -/

/-- The operation is what changed the waiting writes from `w₀` to `w`, and what it stores keeps to the inner places. -/
def FOperation.Fits (inner : List String → Prop) (w₀ w : FCompoundWrite) : FOperation → Prop
  | .overwrite true p snap => w = w₀.addWrite snap p ∧ ∀ q, q <+: p → q ≠ p → inner q
  | .overwrite false p snap => w = w₀ ∧ snap.Leaves fun q _ => ¬ inner (p ++ q)
  | .merge true p children => w = w₀.addCompoundWrite children p ∧
    ∀ x ∈ children.enumerateWrites, ∀ q, q <+: p ++ x.1 → q ≠ p ++ x.1 → inner q
  | .merge false p children => w = w₀ ∧
    ∀ x ∈ children.enumerateWrites, x.2.Leaves fun q _ => ¬ inner (p ++ x.1 ++ q)
  | .ackUserWrite p affectedTree _ => affectedTree.Sound ∧
    FViewProcessor.Answered w₀ w p fun m => (affectedTree.valueAtPath m).isSome
  | .listenComplete _ => w = w₀

/-- **Every operation keeps a view up to date.** -/
theorem FViewProcessor.upToDate_applyOperationOn {inner : List String → Prop} {w₀ : FCompoundWrite} {op : FOperation}
    (h : c.UpToDate w₀) (hfits : op.Fits inner w₀ w) (hw : ref.writes = w) (hg₀ : w₀.Grounded inner)
    (hg : w.Grounded inner) (hs : c.cachedServerSnap.node.Leaves fun q _ => ¬ inner q) (o : Option Node) :
    (applyOperationOn c op ref o).1.UpToDate w ∧
      (applyOperationOn c op ref o).1.cachedServerSnap.node.Leaves fun q _ => ¬ inner q := by
  cases op with
  | overwrite fromUser p snap =>
    cases fromUser with
    | true =>
      obtain ⟨rfl, -⟩ := hfits
      refine ⟨upToDate_applyUserOverwriteTo h p snap ref o (hg.noLeafAbove hs), ?_⟩
      change (applyUserOverwriteTo c p snap ref o).1.cachedServerSnap.node.Leaves _
      rw [server_applyUserOverwriteTo]
      exact hs
    | false =>
      obtain ⟨rfl, hsnap⟩ := hfits
      exact ⟨upToDate_applyServerOverwriteTo h hw p snap (hg.noLeafAbove hs) (hg.noLeafAbove (hs.set hsnap)),
        leaves_applyServerOverwriteTo h.unfiltered p hs hsnap⟩
  | merge fromUser p children =>
    cases fromUser with
    | true =>
      obtain ⟨rfl, hin⟩ := hfits
      refine ⟨upToDate_applyUserMergeTo h p children ref o hg₀ hin hs, ?_⟩
      change (applyUserMergeTo c p children ref o).1.cachedServerSnap.node.Leaves _
      rw [applyUserMergeTo, server_foldl_applyUserOverwriteTo]
      exact hs
    | false =>
      obtain ⟨rfl, hchildren⟩ := hfits
      refine ⟨upToDate_applyServerMergeTo h hw p children hg hs hchildren,
        leaves_applyServerMergeTo h.unfiltered p children hs (leaves_mergedChildren hs fun q n hn => ?_)⟩
      obtain ⟨r, rfl, hr⟩ := valueAtPath_actualMerge.1 hn
      exact hchildren (r, n) (FCompoundWrite.mem_enumerateWrites.2 hr)
  | ackUserWrite p affectedTree revert =>
    obtain ⟨hsound, hans⟩ := hfits
    cases revert with
    | true =>
      refine ⟨upToDate_revertUserWriteOn h hw hg hans hs, ?_⟩
      change (revertUserWriteOn c p ref).1.cachedServerSnap.node.Leaves _
      rw [server_revertUserWriteOn]
      exact hs
    | false => exact upToDate_ackUserWriteOn h hw hg hsound hans hs
  | listenComplete p =>
    obtain rfl := hfits
    refine ⟨upToDate_listenCompleteOldCache h hw p hg hs, ?_⟩
    change (listenCompleteOldCache c p ref).1.cachedServerSnap.node.Leaves _
    rw [listenCompleteOldCache, generate_server]
    exact hs

namespace FViewProcessor

variable {w₀ : FCompoundWrite} {op : FOperation} {inner : List String → Prop}

/-- **In place or anew**: what an operation leaves in a complete view is what the node of the server and the waiting
writes give when it is computed anew. -/
theorem applyOperationOn_eq_recomputed (h : c.UpToDate w₀) (hfits : op.Fits inner w₀ ref.writes)
    (hg₀ : w₀.Grounded inner) (hg : ref.writes.Grounded inner)
    (hs : c.cachedServerSnap.node.Leaves fun q _ => ¬ inner q) (o : Option Node)
    (hcomplete : (applyOperationOn c op ref o).1.cachedServerSnap.isFullyInitialized = true) :
    (applyOperationOn c op ref o).1.completeEventSnap =
      ref.calculateCompleteEventCache (applyOperationOn c op ref o).1.completeServerSnap := by
  obtain ⟨hup, hleaves⟩ := upToDate_applyOperationOn h hfits rfl hg₀ hg hs o
  obtain ⟨hc, hover⟩ := hup.shown (Or.inl hcomplete)
  have hserver : (applyOperationOn c op ref o).1.completeServerSnap =
      some (applyOperationOn c op ref o).1.cachedServerSnap.node := if_pos hcomplete
  have hevent : (applyOperationOn c op ref o).1.completeEventSnap =
      some (applyOperationOn c op ref o).1.cachedEventSnap.node := if_pos hc
  obtain ⟨e, he, hover'⟩ := FWriteTreeRef.calculateCompleteEventCache_some (hg.noLeafAbove hleaves)
  rw [hserver, hevent, he, hover.eq hover']

/-- One write waits, and a second one beside it. -/
def earlierWrite : FWriteTree := FWriteTree.init.addOverwriteAtPath ["a", "b"] (Tree.single (.string "x")) 0 true

def laterWrite : FWriteTree := earlierWrite.addOverwriteAtPath ["a", "d"] (Tree.single (.string "y")) 1 true

def storedNode : Node := Tree.empty.set ["a", "b"] (Tree.single (.string "z"))

/-- The second write, in a view that shows the first one over the node of the server. -/
theorem recomputed_overwrite :
    (applyOperationOn ⟨⟨earlierWrite.visibleWrites.applyToNode storedNode, true, false⟩, ⟨storedNode, true, false⟩⟩
        (.overwrite true ["a", "d"] (Tree.single (.string "y"))) ⟨[], laterWrite⟩ none).1.completeEventSnap =
      FWriteTreeRef.calculateCompleteEventCache ⟨[], laterWrite⟩ (some storedNode) := by
  have habove : ∀ {k : String} {q : List String}, q <+: ["a", k] → q ≠ ["a", k] → q.length < 2 := fun hq hne =>
    lt_of_le_of_ne hq.length_le fun hlen => hne (hq.eq_of_length hlen)
  have hleaves : storedNode.Leaves fun q _ => ¬ q.length < 2 :=
    (Tree.leaves_empty _).set (Tree.leaves_single (by decide))
  have hground : earlierWrite.visibleWrites.Grounded fun q => q.length < 2 :=
    (FCompoundWrite.grounded_emptyWrite _).addWrite (fun q => habove) (Tree.single (.string "x"))
  have hshown : FViewCache.UpToDate ⟨⟨earlierWrite.visibleWrites.applyToNode storedNode, true, false⟩,
      ⟨storedNode, true, false⟩⟩ earlierWrite.visibleWrites :=
    ⟨⟨rfl, rfl⟩, fun _ => ⟨rfl, FCompoundWrite.overlaid_applyToNode (hground.noLeafAbove hleaves)⟩⟩
  have hfits : FOperation.Fits (fun q => q.length < 2) earlierWrite.visibleWrites
      (FWriteTreeRef.writes ⟨[], laterWrite⟩) (.overwrite true ["a", "d"] (Tree.single (.string "y"))) :=
    ⟨rfl, fun q => habove⟩
  have hlater : (FWriteTreeRef.writes ⟨[], laterWrite⟩).Grounded fun q => q.length < 2 :=
    FCompoundWrite.Grounded.addWrite (p := ["a", "d"]) hground (fun q => habove) (Tree.single (.string "y"))
  exact applyOperationOn_eq_recomputed hshown hfits hground hlater hleaves none rfl

end FViewProcessor

end Anissagram
