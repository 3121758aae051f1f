import Anissagram.Firebase.Relative
/-
# What a view has heard

What the server sends makes one node (`FOperation.Tells`): an overwrite stores at its path, a merge is applied there. A
view that is complete has the part of it at its path (`FViewCache.Heard`), although it is sent only the operations that
reach it, takes a merge child by child, and stores its own data again where a write is answered. An answered listen
makes a view complete with what it has; the server answers after it has sent the data, or when the view has it.
-/

namespace Anissagram

open PathTree

/-! ## Merges -/

namespace FCompoundWrite

variable {w c : FCompoundWrite} {p q : List String} {s : Node} {k : String}

theorem view_of_mem_childCompoundWrites (hroot : w.rootWrite = none) {x : String × FCompoundWrite}
    (hx : x ∈ w.childCompoundWrites) (q : List String) : x.2.view q = w.view (x.1 :: q) := by
  have hval := valueAtPath_of_mem_childCompoundWrites hx
  rcases x.2.covered_or q with ⟨r, m, hr, hm⟩ | hno
  · rw [view_of hm hr, view_of ((hval r).symm.trans hm) (List.cons_prefix_cons.2 ⟨rfl, hr⟩)]
    simp
  · rw [view_eq_none.2 hno, eq_comm, view_eq_none]
    intro r hr
    cases r with
    | nil => exact hroot
    | cons j r =>
      obtain ⟨rfl, hrest⟩ := List.cons_prefix_cons.1 hr
      rw [← hval]
      exact hno r hrest

/-- Below a path a merge does what its part there does. -/
theorem sub_applyToNode (c : FCompoundWrite) (s : Node) (p : List String) :
    (c.applyToNode s).sub p = (c.childCompoundWriteAtPath p).applyToNode (s.sub p) := by
  classical
  refine Tree.ext_leaf fun q => ?_
  have hbelow : (c.childCompoundWriteAtPath p).StoresBelow q ↔ c.StoresBelow (p ++ q) := by
    simp only [StoresBelow, view_childCompoundWriteAtPath, List.append_assoc]
  rw [Tree.leaf_sub, leaf_applyToNode_storesBelow, leaf_applyToNode_storesBelow, view_childCompoundWriteAtPath,
    Tree.leaf_sub]
  simp only [hbelow]

/-- A merge into nothing. -/
theorem isEmpty_applyToNode_empty : (c.applyToNode Tree.empty).isEmpty ↔ ¬ c.StoresBelow [] := by
  classical
  have hleaf : ∀ r, (c.applyToNode Tree.empty).leaf r = (c.view r).getD none := fun r => by
    rw [leaf_applyToNode_storesBelow, Tree.leaf_empty, ite_self]
  constructor
  · rintro hempty ⟨r, v, hv⟩
    have hr := hleaf r
    rw [Tree.isEmpty_iff.1 hempty, ← List.nil_append r, hv] at hr
    cases hr
  · intro hno
    refine Tree.isEmpty_iff.2 (Tree.ext_leaf fun r => ?_)
    rw [hleaf, Tree.leaf_empty]
    cases hr : c.view r with
    | none => rfl
    | some x =>
      cases x with
      | none => rfl
      | some v => exact absurd ⟨r, v, hr⟩ hno

theorem applyToNode_of_rootWrite {n : Node} (h : c.rootWrite = some n) (s : Node) : c.applyToNode s = n := by
  classical
  refine Tree.ext_leaf fun q => ?_
  have hview : c.view q = some (n.leaf q) := view_of (r := []) h List.nil_prefix
  rw [leaf_applyToNode_storesBelow, hview, Option.getD_some]

/-- A merge child by child, in any order. -/
theorem update_children (hroot : c.rootWrite = none) {cs : List (String × Node)}
    (hcs : ∀ x ∈ cs, x.2 = (c.applyToNode s).sub [x.1])
    (hkeys : ∀ k r, c.view (k :: r) ≠ none → ∃ x ∈ cs, x.1 = k) :
    s.update (cs.map fun x => ([x.1], x.2)) = c.applyToNode s := by
  classical
  refine Tree.ext_leaf fun q => ?_
  rw [leaf_update]
  cases q with
  | nil =>
    have hno : ¬ Covered (cs.map fun x => ([x.1], x.2)) ([] : List String) := by
      rintro ⟨x, hx, hnil⟩
      obtain ⟨y, -, rfl⟩ := List.mem_map.1 hx
      simp at hnil
    have hview : c.view [] = none := by
      refine view_eq_none.2 fun r hr => ?_
      rw [List.prefix_nil.1 hr]
      exact hroot
    rw [lastTouch_below hno, leaf_applyToNode_storesBelow, hview, Option.getD_none]
    cases hs : s.leaf [] with
    | none => split <;> simp
    | some v =>
      -- a leaf has no children, so those it gets are stored by the merge
      have hnode : ∀ x ∈ cs, x.2 = (c.childCompoundWriteAtPath [x.1]).applyToNode Tree.empty := fun x hx => by
        rw [hcs x hx, sub_applyToNode, Tree.eq_single_of_leaf_nil hs, Tree.sub_single_cons]
      have hiff : (∃ w ∈ cs.map fun x => ([x.1], x.2), [] <+: w.1 ∧ ¬ w.2.isEmpty) ↔ c.StoresBelow [] := by
        constructor
        · rintro ⟨_, hmem, -, hne⟩
          obtain ⟨x, hx, rfl⟩ := List.mem_map.1 hmem
          dsimp only at hne
          rw [hnode x hx, isEmpty_applyToNode_empty, not_not] at hne
          obtain ⟨r, u, hu⟩ := hne
          rw [view_childCompoundWriteAtPath] at hu
          exact ⟨[x.1] ++ r, u, hu⟩
        · rintro ⟨r, u, hu⟩
          cases r with
          | nil =>
            rw [List.append_nil, hview] at hu
            cases hu
          | cons k r =>
            rw [List.nil_append] at hu
            obtain ⟨x, hx, rfl⟩ := hkeys k r (by rw [hu]; simp)
            refine ⟨_, List.mem_map.2 ⟨x, hx, rfl⟩, List.nil_prefix, ?_⟩
            dsimp only
            rw [hnode x hx, isEmpty_applyToNode_empty, not_not]
            exact ⟨r, u, (view_childCompoundWriteAtPath ..).trans hu⟩
      simp only [hiff]
      split <;> rfl
  | cons k q =>
    by_cases hk : ∃ x ∈ cs, x.1 = k
    · have htouch : ∀ x ∈ cs, x.1 = k → touch ([x.1], x.2) (k :: q) = some ((c.applyToNode s).leaf (k :: q)) := by
        rintro x hx rfl
        rw [touch_of_cover (by simp [List.cons_prefix_cons]), hcs x hx]
        rfl
      obtain ⟨x, hx, hxk⟩ := hk
      rw [lastTouch_of_forall (x := (c.applyToNode s).leaf (k :: q))]
      · rfl
      · exact ⟨_, List.mem_map.2 ⟨x, hx, rfl⟩, htouch x hx hxk⟩
      · intro w hw y hy
        obtain ⟨z, hz, rfl⟩ := List.mem_map.1 hw
        by_cases hzk : z.1 = k
        · exact (Option.some.inj ((htouch z hz hzk).symm.trans hy)).symm
        · rw [touch_of_apart (p := [k]) (apart_cons_of_ne _ _ (Ne.symm hzk)) (by simp [List.cons_prefix_cons])] at hy
          cases hy
    · have hnone : ∀ r, c.view (k :: r) = none := fun r => not_not.1 fun h => hk (hkeys k r h)
      have hno : ¬ c.StoresBelow (k :: q) := by
        rintro ⟨r, v, hv⟩
        rw [List.cons_append, hnone] at hv
        cases hv
      have htouch : ∀ w ∈ cs.map fun x => ([x.1], x.2), touch w (k :: q) = none := by
        intro w hw
        obtain ⟨z, hz, rfl⟩ := List.mem_map.1 hw
        exact touch_of_apart (p := [k]) (apart_cons_of_ne _ _ fun h => hk ⟨z, hz, h.symm⟩)
          (by simp [List.cons_prefix_cons])
      rw [lastTouch_eq_none htouch, leaf_applyToNode_storesBelow, hnone, if_neg hno]

end FCompoundWrite

/-! ## A view -/

/-- The server's node in a complete view. -/
def FViewCache.Heard (c : FViewCache) (srv : Node) : Prop :=
  c.cachedServerSnap.isFullyInitialized = true → c.cachedServerSnap.node = srv

/-- What the operation says of the server's node: that it was `srv` before and is `srv'` now. -/
def FOperation.Tells (srv srv' : Node) : FOperation → Prop
  | .overwrite false p snap => srv' = srv.set p snap
  | .merge false p children => children.rootWrite = none ∧ srv' = srv.set p (children.applyToNode (srv.sub p))
  | _ => srv' = srv

namespace FViewProcessor

variable {c : FViewCache} {srv srv' : Node} {p : List String} {ref : FWriteTreeRef} {snap : Node}

theorem heard_applyServerOverwriteTo (h : c.Heard srv) (hf : c.Unfiltered) (p : List String) (snap : Node)
    (ref : FWriteTreeRef) : (applyServerOverwriteTo c p snap ref).1.Heard (srv.set p snap) := by
  intro hcomplete
  rcases applyServerOverwriteTo_fst hf p snap ref with ⟨heq, hc, -⟩ | heq
  · rw [heq, hc] at hcomplete
    cases hcomplete
  · rw [heq, generate_server] at hcomplete ⊢
    change c.cachedServerSnap.node.set p snap = srv.set p snap
    cases p with
    | nil => exact Tree.ext_leaf fun q => by simp [Tree.leaf_set]
    | cons k p => rw [h (by simpa [FViewCache.updateServerSnap] using hcomplete)]

/-- A merge at a path. -/
theorem applyToNode_actualMerge (children : FCompoundWrite) (s : Node) :
    (actualMerge p children).applyToNode s = s.set p (children.applyToNode (s.sub p)) := by
  classical
  have hview : ∀ r, (actualMerge p children).view (p ++ r) = children.view r := by
    intro r
    rcases children.covered_or r with ⟨q, n, ⟨t, rfl⟩, hn⟩ | hno
    · have hval := valueAtPath_actualMerge (p := p).2 ⟨q, rfl, hn⟩
      rw [FCompoundWrite.view_of hn (List.prefix_append q t), ← List.append_assoc,
        FCompoundWrite.view_of hval (List.prefix_append (p ++ q) t), List.drop_left, List.drop_left]
    · rw [FCompoundWrite.view_eq_none.2 hno, FCompoundWrite.view_eq_none]
      intro q hq
      refine Option.eq_none_iff_forall_not_mem.2 fun n hn => ?_
      obtain ⟨t, rfl, ht⟩ := valueAtPath_actualMerge.1 hn
      rw [hno t ((List.prefix_append_right_inj p).1 hq)] at ht
      cases ht
  have hoff : ∀ q, ¬ p <+: q → (actualMerge p children).view q = none := by
    refine fun q hq => FCompoundWrite.view_eq_none.2 fun r hr => Option.eq_none_iff_forall_not_mem.2 fun n hn => ?_
    obtain ⟨t, rfl, -⟩ := valueAtPath_actualMerge.1 hn
    exact hq ((List.prefix_append p t).trans hr)
  refine Tree.ext_leaf fun q => ?_
  rw [FCompoundWrite.leaf_applyToNode_storesBelow, Tree.leaf_set]
  by_cases hpq : p <+: q
  · obtain ⟨r, rfl⟩ := hpq
    have hbelow : (actualMerge p children).StoresBelow (p ++ r) ↔ children.StoresBelow r := by
      simp only [FCompoundWrite.StoresBelow, List.append_assoc, hview]
    rw [if_pos (List.prefix_append p r), List.drop_left, hview, FCompoundWrite.leaf_applyToNode_storesBelow,
      Tree.leaf_sub]
    simp only [hbelow]
  · rw [if_neg hpq, hoff q hpq, Option.getD_none]
    cases hs : s.leaf q with
    | none => rw [ite_self, ite_self]
    | some v =>
      have hbelow : (actualMerge p children).StoresBelow q ↔
          q <+: p ∧ ¬ (children.applyToNode (s.sub p)).isEmpty := by
        constructor
        · rintro ⟨r, u, hu⟩
          have hpr : p <+: q ++ r := by
            by_contra hno
            rw [hoff _ hno] at hu
            cases hu
          obtain ⟨t, ht⟩ := hpr
          have hqp : q <+: p := (List.prefix_or_prefix_of_prefix ⟨r, rfl⟩ ⟨t, ht⟩).resolve_right hpq
          refine ⟨hqp, ?_⟩
          rw [Tree.sub_of_leaf_above hs hqp fun h => hpq (h ▸ List.prefix_refl p),
            FCompoundWrite.isEmpty_applyToNode_empty, not_not]
          exact ⟨t, u, by rw [List.nil_append, ← hview, ht, hu]⟩
        · rintro ⟨hqp, hne⟩
          rw [Tree.sub_of_leaf_above hs hqp fun h => hpq (h ▸ List.prefix_refl p),
            FCompoundWrite.isEmpty_applyToNode_empty, not_not] at hne
          obtain ⟨t, u, hu⟩ := hne
          obtain ⟨r, rfl⟩ := hqp
          exact ⟨r ++ t, u, by rw [← List.append_assoc, hview]; exact hu⟩
      simp only [hbelow]

/-- A complete view takes the children of a merge one by one. -/
theorem update_mergedChildren (hf : c.Unfiltered) (hc : c.cachedServerSnap.isFullyInitialized = true)
    {merge : FCompoundWrite} (hroot : merge.rootWrite = none) :
    c.cachedServerSnap.node.update ((mergedChildren c merge).map fun x => ([x.1], x.2)) =
      merge.applyToNode c.cachedServerSnap.node := by
  refine FCompoundWrite.update_children hroot (fun x hx => ?_) fun k r hk => ?_
  · obtain ⟨child, hchild, rfl⟩ := mem_mergedChildren hx
    have hsame : child.2 = merge.childCompoundWriteAtPath [child.1] := FCompoundWrite.ext_view fun q => by
      rw [FCompoundWrite.view_of_mem_childCompoundWrites hroot hchild, FCompoundWrite.view_childCompoundWriteAtPath,
        List.singleton_append]
    rw [FCompoundWrite.sub_applyToNode, hsame]
  · rcases merge.covered_or (k :: r) with ⟨q, n, hq, hn⟩ | hno
    · cases q with
      | nil =>
        have hnone : merge.writeTree.valueAtPath [] = none := hroot
        rw [hnone] at hn
        cases hn
      | cons j q =>
        obtain ⟨rfl, -⟩ := List.cons_prefix_cons.1 hq
        obtain ⟨child, hchild, hkey⟩ := FCompoundWrite.exists_mem_childCompoundWrites (by rw [hn]; rfl)
        have hmem := mem_keys_mergedChildren hf hc hchild
        rw [hkey] at hmem
        obtain ⟨x, hx, hxk⟩ := List.mem_map.1 hmem
        exact ⟨x, hx, hxk⟩
    · exact absurd (FCompoundWrite.view_eq_none.2 hno) hk

theorem heard_applyServerMergeTo (h : c.Heard srv) (hf : c.Unfiltered) (p : List String) {children : FCompoundWrite}
    (hroot : children.rootWrite = none) (ref : FWriteTreeRef) :
    (applyServerMergeTo c p children ref).1.Heard (srv.set p (children.applyToNode (srv.sub p))) := by
  intro hcomplete
  rcases applyServerMergeTo_eq c p children ref with ⟨heq, hc⟩ | heq
  · rw [heq, hc] at hcomplete
    cases hcomplete
  · obtain ⟨-, hnode, hsame⟩ := server_foldl_applyServerOverwriteTo ref (mergedChildren c (actualMerge p children))
      (a := (c, [])) hf _ rfl
    rw [heq] at hcomplete ⊢
    have hc : c.cachedServerSnap.isFullyInitialized = true := hsame.symm.trans hcomplete
    have hroot' : (actualMerge p children).rootWrite = none := by
      refine Option.eq_none_iff_forall_not_mem.2 fun n hn => ?_
      obtain ⟨r, hr, hval⟩ := valueAtPath_actualMerge (q := []).1 hn
      rw [(List.append_eq_nil_iff.1 hr.symm).2] at hval
      cases hroot.symm.trans hval
    rw [hnode, ← h hc, ← applyToNode_actualMerge]
    exact update_mergedChildren hf hc hroot'

/-- What is merged again changes nothing. -/
theorem heard_merge_again (h : c.Heard srv) (hf : c.Unfiltered) {children : FCompoundWrite}
    {ws : List (List String × Node)} (hshows : children.Shows ws) (ha : Agrees (c.cachedServerSnap.node.sub p) ws) :
    (applyServerMergeTo c p children ref).1.Heard srv := by
  intro hcomplete
  rcases applyServerMergeTo_eq c p children ref with ⟨heq, hc⟩ | heq
  · rw [heq, hc] at hcomplete
    cases hcomplete
  · obtain ⟨-, hnode, hsame⟩ := server_foldl_applyServerOverwriteTo ref (mergedChildren c (actualMerge p children))
      (a := (c, [])) hf _ rfl
    have hagree : Agrees c.cachedServerSnap.node
        ((mergedChildren c (actualMerge p children)).map fun x => ([x.1], x.2)) := by
      intro x hx
      obtain ⟨y, hy, rfl⟩ := List.mem_map.1 hx
      exact applyToNode_mergedChildren hshows ha y hy
    rw [heq] at hcomplete ⊢
    rw [hnode, hagree.update]
    exact h (hsame.symm.trans hcomplete)

/-- An answer of a write leaves the server's node alone. -/
theorem heard_ackUserWriteOn (h : c.Heard srv) (hf : c.Unfiltered) (p : List String)
    (affectedTree : FImmutableTree String Unit) (ref : FWriteTreeRef) :
    (ackUserWriteOn c p affectedTree ref).1.Heard srv := by
  unfold ackUserWriteOn
  split
  · exact h
  · dsimp only
    split
    · split
      · rename_i hcond
        intro hcomplete
        have hc : c.cachedServerSnap.isFullyInitialized = true := by
          cases p with
          | nil =>
            rcases hcond with ⟨-, hc⟩ | hc
            · exact hc
            · simpa [FCacheNode.isCompleteForPath, hf.2] using hc
          | cons k p => rwa [complete_applyServerOverwriteTo hf (List.cons_ne_nil k p)] at hcomplete
        rw [heard_applyServerOverwriteTo h hf p _ ref hcomplete, h hc, Tree.set_sub]
      · split
        · rename_i hp
          have hshows := FCompoundWrite.shows_layer
            (c.cachedServerSnap.node.enumerateChildren.map fun child => ([child.1], child.2))
          rw [FCompoundWrite.addWrites, List.foldl_map] at hshows
          refine heard_merge_again h hf hshows fun x hx => ?_
          obtain ⟨child, hchild, rfl⟩ := List.mem_map.1 hx
          obtain ⟨k, -, rfl⟩ := List.mem_map.1 hchild
          rw [hp, Tree.sub_nil]
        · exact h
    · have hshows := FCompoundWrite.shows_layer ((affectedTree.forEach.filter fun x =>
        c.cachedServerSnap.isCompleteForPath (p ++ x.1)).map fun x => (x.1, c.cachedServerSnap.node.sub (p ++ x.1)))
      rw [FCompoundWrite.addWrites, List.foldl_map, List.foldl_filter] at hshows
      refine heard_merge_again h hf hshows fun x hx => ?_
      obtain ⟨y, -, rfl⟩ := List.mem_map.1 hx
      rw [Tree.sub_sub]

/-- **A complete view has what the server said.** -/
theorem heard_applyOperationOn {op : FOperation} (h : c.Heard srv) (hf : c.Unfiltered) (htells : op.Tells srv srv')
    (hanswer : op = .listenComplete [] → c.cachedServerSnap.node = srv) (ref : FWriteTreeRef) (o : Option Node) :
    (applyOperationOn c op ref o).1.Heard srv' := by
  cases op with
  | overwrite fromUser p snap =>
    cases fromUser with
    | true =>
      obtain rfl := htells
      change (applyUserOverwriteTo c p snap ref o).1.Heard _
      rw [FViewCache.Heard, server_applyUserOverwriteTo]
      exact h
    | false =>
      obtain rfl := htells
      exact heard_applyServerOverwriteTo h hf p snap ref
  | merge fromUser p children =>
    cases fromUser with
    | true =>
      obtain rfl := htells
      change (applyUserMergeTo c p children ref o).1.Heard _
      rw [FViewCache.Heard, applyUserMergeTo, server_foldl_applyUserOverwriteTo]
      exact h
    | false =>
      obtain ⟨hroot, rfl⟩ := htells
      exact heard_applyServerMergeTo h hf p hroot ref
  | ackUserWrite p affectedTree revert =>
    obtain rfl := htells
    cases revert with
    | true =>
      change (revertUserWriteOn c p ref).1.Heard _
      rw [FViewCache.Heard, server_revertUserWriteOn]
      exact h
    | false => exact heard_ackUserWriteOn h hf p affectedTree ref
  | listenComplete p =>
    obtain rfl := htells
    change (listenCompleteOldCache c p ref).1.Heard _
    rw [FViewCache.Heard, listenCompleteOldCache, generate_server]
    intro hcomplete
    cases p with
    | nil => exact hanswer rfl
    | cons k p => exact h (by simpa [FViewCache.updateServerSnap] using hcomplete)

end FViewProcessor

/-! ## Relative to a path -/

namespace FOperation

variable {srv srv' : Node} {op : FOperation} {k : String}

/-- What the server sends, and not an answer. -/
def fromServer : FOperation → Bool
  | .overwrite fromUser _ _ => !fromUser
  | .merge fromUser _ _ => !fromUser
  | _ => false

theorem tells_of_not_fromServer (h : op.fromServer = false) : op.Tells srv srv' ↔ srv' = srv := by
  cases op with
  | overwrite fromUser path snap =>
    cases fromUser with
    | true => exact Iff.rfl
    | false => cases h
  | merge fromUser path children =>
    cases fromUser with
    | true => exact Iff.rfl
    | false => cases h
  | ackUserWrite path affectedTree revert => exact Iff.rfl
  | listenComplete path => exact Iff.rfl

theorem fromServer_operationForChild {child : FOperation} (h : op.operationForChild k = some child) :
    child.fromServer = op.fromServer := by
  cases op with
  | overwrite fromUser path snap => cases path <;> cases h <;> rfl
  | merge fromUser path children =>
    cases path with
    | nil =>
      simp only [operationForChild] at h
      split at h
      · cases h
      · split at h <;> cases h <;> rfl
    | cons j path => cases h; rfl
  | ackUserWrite path affectedTree revert =>
    cases path with
    | nil =>
      simp only [operationForChild] at h
      split at h <;> cases h <;> rfl
    | cons j path => cases h; rfl
  | listenComplete path => cases path <;> cases h <;> rfl

theorem operationForChild_of_operationAt {child : FOperation} (h : op.operationAt [k] = some child) :
    op.operationForChild k = some child := by
  rw [FSyncTree.operationAt_singleton] at h
  split at h
  · exact h
  · cases h

theorem Tells.child (h : op.Tells srv srv') (k : String) :
    match op.operationAt [k] with
    | some child => child.Tells (srv.sub [k]) (srv'.sub [k])
    | none => srv'.sub [k] = srv.sub [k] := by
  have hset : ∀ s : Node, ∀ n, s.set [] n = n := fun s n => Tree.ext_leaf fun q => by simp [Tree.leaf_set]
  have hbelow : ∀ (p : List String) (n : Node), (srv.set (k :: p) n).sub [k] = (srv.sub [k]).set p n := by
    intro p n
    have hsub := Tree.set_set_sub srv [k] p n
    rw [List.singleton_append] at hsub
    rw [← hsub, Tree.sub_set_self]
  have hother : ∀ {j : String} (p : List String) (n : Node), j ≠ k → (srv.set (j :: p) n).sub [k] = srv.sub [k] :=
    fun p n hj => Tree.sub_set_apart srv n (apart_cons_of_ne p [] hj)
  by_cases hquiet : op.fromServer = false
  · obtain rfl := (tells_of_not_fromServer hquiet).1 h
    cases hk : op.operationAt [k] with
    | none => rfl
    | some child =>
      have hchild := fromServer_operationForChild (operationForChild_of_operationAt hk)
      exact (tells_of_not_fromServer (hchild.trans hquiet)).2 rfl
  cases op with
  | overwrite fromUser path snap =>
    obtain rfl : fromUser = false := by simpa [fromServer] using hquiet
    have h : srv' = srv.set path snap := h
    rw [h]
    cases path with
    | nil =>
      rw [operationAt_nil rfl]
      change (srv.set [] snap).sub [k] = (srv.sub [k]).set [] (snap.sub [k])
      rw [hset, hset]
    | cons j p =>
      by_cases hj : j = k
      · subst hj
        rw [operationAt_front rfl]
        exact hbelow p snap
      · rw [operationAt_other rfl hj]
        exact hother p snap hj
  | merge fromUser path children =>
    obtain rfl : fromUser = false := by simpa [fromServer] using hquiet
    obtain ⟨hroot, h⟩ : children.rootWrite = none ∧ srv' = srv.set path (children.applyToNode (srv.sub path)) := h
    cases path with
    | nil =>
      rw [hset, Tree.sub_nil] at h
      have hsub : srv'.sub [k] = (children.childCompoundWriteAtPath [k]).applyToNode (srv.sub [k]) := by
        rw [h, FCompoundWrite.sub_applyToNode]
      rw [operationAt_nil rfl, operationForChild]
      split_ifs with hempty
      · rw [FCompoundWrite.applyToNode_of_isEmpty hempty] at hsub
        exact hsub
      · cases hroot' : (children.childCompoundWriteAtPath [k]).rootWrite with
        | some n =>
          change srv'.sub [k] = (srv.sub [k]).set [] n
          rw [hset, hsub, FCompoundWrite.applyToNode_of_rootWrite hroot']
        | none =>
          refine ⟨hroot', ?_⟩
          rw [hset, Tree.sub_nil, hsub]
    | cons j p =>
      by_cases hj : j = k
      · subst hj
        rw [operationAt_front rfl]
        refine ⟨hroot, ?_⟩
        rw [h, hbelow, Tree.sub_sub, List.singleton_append]
      · rw [operationAt_other rfl hj, h]
        exact hother p _ hj
  | ackUserWrite path affectedTree revert => exact absurd rfl hquiet
  | listenComplete path => exact absurd rfl hquiet

/-- What arrives at a path says the same there. -/
theorem Tells.operationAt (h : op.Tells srv srv') (p : List String) :
    match op.operationAt p with
    | some arrived => arrived.Tells (srv.sub p) (srv'.sub p)
    | none => srv'.sub p = srv.sub p := by
  induction p generalizing op srv srv' with
  | nil =>
    rw [Tree.sub_nil, Tree.sub_nil]
    exact h
  | cons k p ih =>
    have hchild := h.child k
    have hsplit : ∀ s : Node, s.sub (k :: p) = (s.sub [k]).sub p := fun s => (Tree.sub_sub s [k] p).symm
    rw [FSyncTree.operationAt_cons, hsplit, hsplit]
    cases hk : op.operationAt [k] with
    | none =>
      rw [hk] at hchild
      exact congrArg (fun s => Tree.sub s p) hchild
    | some child =>
      rw [hk] at hchild
      exact ih hchild

/-- The answer of a listen reaches the views at its path and below. -/
theorem of_operationAt_listenComplete {p : List String} (h : op.operationAt p = some (.listenComplete [])) :
    ∃ path, op = .listenComplete path ∧ path <+: p := by
  induction p generalizing op with
  | nil => exact ⟨[], Option.some.inj h, List.prefix_refl _⟩
  | cons k p ih =>
    rw [FSyncTree.operationAt_cons] at h
    obtain ⟨child, hchild, hrest⟩ := Option.bind_eq_some_iff.1 h
    obtain ⟨path, rfl, hpath⟩ := ih hrest
    have hfor := operationForChild_of_operationAt hchild
    cases op with
    | overwrite fromUser q snap => cases q <;> cases hfor
    | merge fromUser q children =>
      cases q with
      | nil =>
        simp only [operationForChild] at hfor
        split at hfor
        · cases hfor
        · split at hfor <;> cases hfor
      | cons j q => cases hfor
    | ackUserWrite q affectedTree revert =>
      cases q with
      | nil =>
        simp only [operationForChild] at hfor
        split at hfor <;> cases hfor
      | cons j q => cases hfor
    | listenComplete q =>
      cases q with
      | nil => exact ⟨[], rfl, List.nil_prefix⟩
      | cons j q =>
        have hj : j = k := by
          by_contra hj
          rw [operationAt_other rfl hj] at hchild
          cases hchild
        cases hfor
        exact ⟨_, rfl, List.cons_prefix_cons.2 ⟨hj, hpath⟩⟩

end FOperation

/-! ## All views -/

namespace FSyncTree

variable {t : FImmutableTree String FView} {srv srv' : Node} {op : FOperation} {cache : Option Node}
  {ref : FWriteTreeRef}

/-- Each complete view has the server's node at its path. -/
def AllHeard (t : FImmutableTree String FView) (srv : Node) : Prop :=
  ∀ p view, t.valueAtPath p = some view → view.viewCache.Heard (srv.sub p)

/-- The views that an answer makes complete have the data. -/
def HasData (t : FImmutableTree String FView) (srv : Node) (path : List String) : Prop :=
  ∀ p view, t.valueAtPath p = some view → path <+: p → view.viewCache.cachedServerSnap.node = srv.sub p

theorem allHeard_served {result : FImmutableTree String FView × List FEvent} (h : AllHeard t srv)
    (hserved : Served (received op t cache ref) t result)
    (hf : ∀ p view, t.valueAtPath p = some view → view.viewCache.Unfiltered) (htells : op.Tells srv srv')
    (hanswer : ∀ path, op = .listenComplete path → HasData t srv path) : AllHeard result.1 srv' := by
  intro p view' hview'
  rw [hserved.views p] at hview'
  obtain ⟨view, hview, rfl⟩ := Option.map_eq_some_iff.1 hview'
  have harrived := htells.operationAt p
  unfold received FView.receive
  cases hop : op.operationAt p with
  | none =>
    rw [hop] at harrived
    exact harrived ▸ h p view hview
  | some arrived =>
    rw [hop] at harrived
    refine FViewProcessor.heard_applyOperationOn (h p view hview) (hf p view hview) harrived (fun heq => ?_) _ _
    obtain ⟨path, hpath, hprefix⟩ := FOperation.of_operationAt_listenComplete (hop.trans (congrArg some heq))
    exact hanswer path hpath p view hview hprefix

end FSyncTree

end Anissagram
