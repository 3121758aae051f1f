import Anissagram.Firebase.FSyncTree
/-
# Operations as a child sees them

An operation reaches the views below its path through `operationForChild:`, step by step. What it becomes on the way is
right for the view where it arrives (`FOperation.Fits.operationAt`): if the operation is what changed the waiting writes
of the tree, then what arrives is what changed the waiting writes below that view.
-/

namespace Anissagram

open PathTree

namespace FCompoundWrite
variable {w c : FCompoundWrite} {p q : List String} {n : Node} {k : String}

/-! ## Compound writes -/

section
variable (w)

theorem child_addWrite_nil (n : Node) (k : String) :
    (w.addWrite n []).childCompoundWriteAtPath [k] = (w.childCompoundWriteAtPath [k]).addWrite (n.sub [k]) [] :=
  ext_view fun q => by simp [view_childCompoundWriteAtPath, view_addWrite]

theorem child_addWrite_cons (n : Node) (k : String) (p : List String) :
    (w.addWrite n (k :: p)).childCompoundWriteAtPath [k] = (w.childCompoundWriteAtPath [k]).addWrite n p :=
  ext_view fun q => by simp [view_childCompoundWriteAtPath, view_addWrite, List.cons_prefix_cons]

theorem child_addWrite_other (n : Node) {j k : String} (h : j ≠ k) (p : List String) :
    (w.addWrite n (j :: p)).childCompoundWriteAtPath [k] = w.childCompoundWriteAtPath [k] :=
  ext_view fun q => by simp [view_childCompoundWriteAtPath, view_addWrite, List.cons_prefix_cons, h, h.symm]

theorem child_addCompoundWrite_cons (c : FCompoundWrite) (k : String) (p : List String) :
    (w.addCompoundWrite c (k :: p)).childCompoundWriteAtPath [k] =
      (w.childCompoundWriteAtPath [k]).addCompoundWrite c p := by
  have hall : ∀ (ws : List (List String × Node)) (w : FCompoundWrite),
      (w.addWrites (ws.map fun x => (k :: p ++ x.1, x.2))).childCompoundWriteAtPath [k] =
        (w.childCompoundWriteAtPath [k]).addWrites (ws.map fun x => (p ++ x.1, x.2)) := by
    intro ws
    induction ws with
    | nil => exact fun _ => rfl
    | cons x ws ih =>
      intro w
      have hx := ih (w.addWrite x.2 (k :: p ++ x.1))
      rw [List.cons_append, child_addWrite_cons] at hx
      exact hx
  exact hall _ w

theorem child_addCompoundWrite_other (c : FCompoundWrite) {j k : String} (h : j ≠ k) (p : List String) :
    (w.addCompoundWrite c (j :: p)).childCompoundWriteAtPath [k] = w.childCompoundWriteAtPath [k] := by
  have hall : ∀ (ws : List (List String × Node)) (w : FCompoundWrite),
      (w.addWrites (ws.map fun x => (j :: p ++ x.1, x.2))).childCompoundWriteAtPath [k] =
        w.childCompoundWriteAtPath [k] := by
    intro ws
    induction ws with
    | nil => exact fun _ => rfl
    | cons x ws ih =>
      intro w
      have hx := ih (w.addWrite x.2 (j :: p ++ x.1))
      rw [List.cons_append, child_addWrite_other w x.2 h] at hx
      exact hx
  exact hall _ w

/-- Where none of the writes covers the place, one that stores something below takes the leaf away. -/
theorem view_addWrites_of_not_covered {ws : List (List String × Node)} (h : ¬ Covered ws q) :
    (w.addWrites ws).view q =
      (w.view q).map fun x => if ∃ y ∈ ws, q <+: y.1 ∧ ¬ y.2.isEmpty then none else x := by
  induction ws generalizing w with
  | nil =>
    rw [addWrites, List.foldl_nil]
    cases w.view q <;> simp
  | cons x ws ih =>
    have hx : ¬ x.1 <+: q := fun hx => h ⟨x, List.mem_cons_self, hx⟩
    have hws : ¬ Covered ws q := by
      rintro ⟨y, hy, hyq⟩
      exact h ⟨y, List.mem_cons_of_mem _ hy, hyq⟩
    rw [addWrites, List.foldl_cons]
    refine (ih (w.addWrite x.2 x.1) hws).trans ?_
    rw [view_addWrite, if_neg hx, Option.map_map]
    congr 1
    funext y
    by_cases hq : q <+: x.1 ∧ ¬ x.2.isEmpty
    · simp [hq]
    · simp only [Function.comp_apply, List.exists_mem_cons_iff, hq, false_or, if_false]

end

/-- Something is stored at the place or below it. -/
def StoresBelow (c : FCompoundWrite) (q : List String) : Prop := ∃ r v, c.view (q ++ r) = some (some v)

theorem storesBelow_iff (hq : ¬ Covered c.enumerateWrites q) :
    c.StoresBelow q ↔ ∃ x ∈ c.enumerateWrites, q <+: x.1 ∧ ¬ x.2.isEmpty := by
  constructor
  · rintro ⟨r, v, hv⟩
    rcases c.covered_or (q ++ r) with ⟨s, m, hs, hm⟩ | hno
    · refine ⟨(s, m), mem_enumerateWrites.2 hm, ?_, ?_⟩
      · rcases List.prefix_or_prefix_of_prefix hs (List.prefix_append q r) with hsq | hqs
        · exact absurd ⟨(s, m), mem_enumerateWrites.2 hm, hsq⟩ hq
        · exact hqs
      · rintro hempty
        have hm' : m = Tree.empty := Tree.isEmpty_iff.1 hempty
        rw [view_of hm hs, hm'] at hv
        cases hv
    · rw [view_eq_none.2 hno] at hv
      cases hv
  · rintro ⟨y, hy, ⟨s, hs⟩, hne⟩
    obtain ⟨r, v, hv⟩ := Tree.exists_leaf_of_not_isEmpty hne
    refine ⟨s ++ r, v, ?_⟩
    rw [← List.append_assoc, hs, view_of (mem_enumerateWrites.1 hy) (List.prefix_append _ _), List.drop_left, hv]

open Classical in
theorem view_addCompoundWrite_nil (w c : FCompoundWrite) (q : List String) :
    (w.addCompoundWrite c []).view q =
      (c.view q).or ((w.view q).map fun x => if c.StoresBelow q then none else x) := by
  have hsame : (c.enumerateWrites.map fun x => (([] : List String) ++ x.1, x.2)) = c.enumerateWrites := by simp
  have hc := c.shows_enumerateWrites
  rw [addCompoundWrite, hsame]
  by_cases hq : Covered c.enumerateWrites q
  · have hview := ((shows_enumerateWrites w).addWrites c.enumerateWrites) q
    rw [hview, shown_append_of_covered hq, ← hc]
    obtain ⟨x, hx⟩ := Option.ne_none_iff_exists'.1 ((hc q).symm ▸ shown_ne_none.2 hq : c.view q ≠ none)
    rw [hx, Option.some_or]
  · have hnone : c.view q = none := (hc q).trans (shown_of_not_covered hq)
    rw [view_addWrites_of_not_covered w hq, hnone, Option.none_or]
    simp only [← storesBelow_iff hq]

open Classical in
/-- A merge takes the leaves above what it stores, too. -/
theorem leaf_applyToNode_storesBelow (c : FCompoundWrite) (s : Node) (q : List String) :
    (c.applyToNode s).leaf q = (c.view q).getD (if c.StoresBelow q then none else s.leaf q) := by
  rw [applyToNode_eq, leaf_update, c.shows_enumerateWrites q]
  by_cases hq : Covered c.enumerateWrites q
  · obtain ⟨x, hx⟩ := Option.isSome_iff_exists.1 hq.isSome
    rw [shown_of_covered hq, hx]
    rfl
  · rw [shown_of_not_covered hq, lastTouch_below hq]
    simp only [← storesBelow_iff hq]
    split <;> rfl

theorem child_addCompoundWrite_nil (w c : FCompoundWrite) (k : String) :
    (w.addCompoundWrite c []).childCompoundWriteAtPath [k] =
      (w.childCompoundWriteAtPath [k]).addCompoundWrite (c.childCompoundWriteAtPath [k]) [] := by
  classical
  refine ext_view fun q => ?_
  have hbelow : (c.childCompoundWriteAtPath [k]).StoresBelow q ↔ c.StoresBelow (k :: q) := by
    simp only [StoresBelow, view_childCompoundWriteAtPath]
    rfl
  simp only [view_childCompoundWriteAtPath, view_addCompoundWrite_nil, hbelow]
  rfl

/-- A compound write of one write. -/
theorem addCompoundWrite_of_rootWrite (w : FCompoundWrite) (h : c.rootWrite = some n) :
    w.addCompoundWrite c [] = w.addWrite n [] := by
  refine ext_view fun q => ?_
  have hview : c.view q = some (n.leaf q) := view_of (r := []) h List.nil_prefix
  rw [view_addCompoundWrite_nil, hview, view_addWrite, if_pos List.nil_prefix]
  rfl

theorem addCompoundWrite_of_isEmpty (w : FCompoundWrite) (h : c.isEmpty = true) : w.addCompoundWrite c [] = w := by
  have hview := isEmpty_iff.1 h
  refine ext_view fun q => ?_
  have hno : ¬ c.StoresBelow q := by
    rintro ⟨r, v, hv⟩
    rw [hview] at hv
    cases hv
  rw [view_addCompoundWrite_nil, hview, Option.none_or]
  simp only [if_neg hno, Option.map_id']

/-- What the writes store, place by place. -/
theorem leaves_enumerateWrites {P : List String → Prop} :
    (∀ x ∈ c.enumerateWrites, x.2.Leaves fun q _ => P (x.1 ++ q)) ↔ ∀ q v, c.view q = some (some v) → P q := by
  constructor
  · intro h q v hv
    rcases c.covered_or q with ⟨r, m, ⟨s, rfl⟩, hm⟩ | hno
    · rw [view_of hm (List.prefix_append r s), List.drop_left] at hv
      exact h (r, m) (mem_enumerateWrites.2 hm) s v (Option.some.inj hv)
    · rw [view_eq_none.2 hno] at hv
      cases hv
  · intro h x hx q v hv
    refine h (x.1 ++ q) v ?_
    rw [view_of (mem_enumerateWrites.1 hx) (List.prefix_append _ _), List.drop_left, hv]

theorem mem_enumerateWrites_child (h : (c.childCompoundWriteAtPath [k]).rootWrite = none) {x : List String × Node}
    (hx : x ∈ (c.childCompoundWriteAtPath [k]).enumerateWrites) : (k :: x.1, x.2) ∈ c.enumerateWrites := by
  have hval := mem_enumerateWrites.1 hx
  rw [mem_enumerateWrites]
  rw [childCompoundWriteAtPath] at hval h
  split at hval
  · rename_i n hn
    split at h
    · cases h
    · rename_i hno
      rw [hn] at hno
      cases hno
  · rw [FImmutableTree.valueAtPath_subtreeAtPath] at hval
    exact hval

theorem view_childCompoundWrite_root (h : (c.childCompoundWriteAtPath p).rootWrite = some n) (q : List String) :
    c.view (p ++ q) = some (n.leaf q) := by
  rw [← view_childCompoundWriteAtPath]
  exact view_of (r := []) h List.nil_prefix

theorem Grounded.child {inner : List String → Prop} (h : w.Grounded inner) (p : List String) :
    (w.childCompoundWriteAtPath p).Grounded fun q => inner (p ++ q) := by
  intro q y hqy hq hy
  rw [view_childCompoundWriteAtPath] at hq hy
  exact h _ _ ((List.prefix_append_right_inj p).2 hqy) hq hy

end FCompoundWrite

/-! ## Operations -/

namespace FOperation

open FViewProcessor

variable {inner : List String → Prop} {w₀ w : FCompoundWrite} {op : FOperation} {k : String}

theorem operationAt_nil (h : op.path = []) (k : String) : op.operationAt [k] = op.operationForChild k := by
  rw [FSyncTree.operationAt_singleton, if_pos (Or.inl h)]

theorem operationAt_front {p : List String} (h : op.path = k :: p) : op.operationAt [k] = op.operationForChild k := by
  rw [FSyncTree.operationAt_singleton, if_pos (Or.inr (by rw [h]; rfl))]

theorem operationAt_other {j : String} {p : List String} (h : op.path = j :: p) (hj : j ≠ k) :
    op.operationAt [k] = none := by
  rw [FSyncTree.operationAt_singleton, if_neg (by simp [h, hj])]

/-- An answer, where its path and the places of its write are taken relative to a child. -/
theorem Answered.child {p : List String} {affected affected' : List String → Prop} {p' : List String}
    (h : Answered w₀ w p affected) (hoff : ∀ q, (∀ m, affected' m → ¬ p' ++ m <+: q) → ∀ m, affected m →
      ¬ p ++ m <+: k :: q) : Answered (w₀.childCompoundWriteAtPath [k]) (w.childCompoundWriteAtPath [k]) p' affected' where
  off q hq := by
    rw [FCompoundWrite.view_childCompoundWriteAtPath, FCompoundWrite.view_childCompoundWriteAtPath]
    exact h.off (k :: q) (hoff q hq)
  left q hq := by
    rw [FCompoundWrite.view_childCompoundWriteAtPath] at hq
    rw [FCompoundWrite.view_childCompoundWriteAtPath, FCompoundWrite.view_childCompoundWriteAtPath]
    exact h.left (k :: q) hq

theorem Answered.other {j : String} {p : List String} {affected : List String → Prop}
    (h : Answered w₀ w (j :: p) affected) (hj : j ≠ k) :
    w₀.childCompoundWriteAtPath [k] = w.childCompoundWriteAtPath [k] :=
  FCompoundWrite.ext_view fun q => by
    rw [FCompoundWrite.view_childCompoundWriteAtPath, FCompoundWrite.view_childCompoundWriteAtPath]
    exact h.off (k :: q) fun m _ hm => hj (List.cons_prefix_cons.1 hm).1

/-- The operation for a child is what changed the waiting writes there; a child it does not reach keeps its writes. -/
theorem Fits.child (h : op.Fits inner w₀ w) (k : String) :
    match op.operationAt [k] with
    | some child => child.Fits (fun q => inner (k :: q)) (w₀.childCompoundWriteAtPath [k])
        (w.childCompoundWriteAtPath [k])
    | none => w₀.childCompoundWriteAtPath [k] = w.childCompoundWriteAtPath [k] := by
  cases op with
  | overwrite fromUser path snap =>
    cases path with
    | nil =>
      rw [operationAt_nil rfl]
      cases fromUser with
      | true =>
        obtain ⟨rfl, -⟩ := h
        refine ⟨FCompoundWrite.child_addWrite_nil w₀ snap k, fun q hq hne => absurd (List.prefix_nil.1 hq) hne⟩
      | false =>
        obtain ⟨rfl, hsnap⟩ := h
        exact ⟨rfl, hsnap.sub [k]⟩
    | cons j p =>
      by_cases hj : j = k
      · subst hj
        rw [operationAt_front rfl]
        cases fromUser with
        | true =>
          obtain ⟨rfl, hin⟩ := h
          refine ⟨FCompoundWrite.child_addWrite_cons w₀ snap j p, fun q hq hne => ?_⟩
          exact hin (j :: q) (List.cons_prefix_cons.2 ⟨rfl, hq⟩) fun heq => hne (List.cons.inj heq).2
        | false => exact ⟨congrArg (fun w => FCompoundWrite.childCompoundWriteAtPath w [j]) h.1, h.2⟩
      · rw [operationAt_other rfl hj]
        cases fromUser with
        | true =>
          obtain ⟨rfl, -⟩ := h
          exact (FCompoundWrite.child_addWrite_other w₀ snap hj p).symm
        | false =>
          obtain ⟨rfl, -⟩ := h
          rfl
  | merge fromUser path children =>
    cases path with
    | nil =>
      rw [operationAt_nil rfl, operationForChild]
      split_ifs with hempty
      · cases fromUser with
        | true =>
          obtain ⟨rfl, -⟩ := h
          dsimp only
          rw [FCompoundWrite.child_addCompoundWrite_nil, FCompoundWrite.addCompoundWrite_of_isEmpty _ hempty]
        | false =>
          obtain ⟨rfl, -⟩ := h
          rfl
      · cases hroot : (children.childCompoundWriteAtPath [k]).rootWrite with
        | some n =>
          cases fromUser with
          | true =>
            obtain ⟨rfl, -⟩ := h
            dsimp only
            refine ⟨?_, fun q hq hne => absurd (List.prefix_nil.1 hq) hne⟩
            rw [FCompoundWrite.child_addCompoundWrite_nil, FCompoundWrite.addCompoundWrite_of_rootWrite _ hroot]
          | false =>
            obtain ⟨rfl, hleaves⟩ := h
            refine ⟨rfl, fun q v hv => ?_⟩
            have hview := FCompoundWrite.view_childCompoundWrite_root hroot q
            rw [hv] at hview
            exact FCompoundWrite.leaves_enumerateWrites (P := fun q => ¬ inner q) |>.1 hleaves _ v hview
        | none =>
          cases fromUser with
          | true =>
            obtain ⟨rfl, hin⟩ := h
            refine ⟨FCompoundWrite.child_addCompoundWrite_nil w₀ children k, fun x hx q hq hne => ?_⟩
            exact hin _ (FCompoundWrite.mem_enumerateWrites_child hroot hx) (k :: q)
              (List.cons_prefix_cons.2 ⟨rfl, hq⟩) fun heq => hne (List.cons.inj heq).2
          | false =>
            obtain ⟨rfl, hleaves⟩ := h
            exact ⟨rfl, fun x hx => hleaves _ (FCompoundWrite.mem_enumerateWrites_child hroot hx)⟩
    | cons j p =>
      by_cases hj : j = k
      · subst hj
        rw [operationAt_front rfl]
        cases fromUser with
        | true =>
          obtain ⟨rfl, hin⟩ := h
          refine ⟨FCompoundWrite.child_addCompoundWrite_cons w₀ children j p, fun x hx q hq hne => ?_⟩
          exact hin x hx (j :: q) (List.cons_prefix_cons.2 ⟨rfl, hq⟩) fun heq => hne (List.cons.inj heq).2
        | false => exact ⟨congrArg (fun w => FCompoundWrite.childCompoundWriteAtPath w [j]) h.1, h.2⟩
      · rw [operationAt_other rfl hj]
        cases fromUser with
        | true =>
          obtain ⟨rfl, -⟩ := h
          exact (FCompoundWrite.child_addCompoundWrite_other w₀ children hj p).symm
        | false =>
          obtain ⟨rfl, -⟩ := h
          rfl
  | ackUserWrite path affectedTree revert =>
    obtain ⟨hsound, hans⟩ := h
    cases path with
    | nil =>
      rw [operationAt_nil rfl, operationForChild]
      split_ifs with hvalue
      · refine ⟨hsound, Answered.child hans fun q hq => ?_⟩
        exact absurd List.nil_prefix (hq [] (by simpa using hvalue))
      · refine ⟨hsound.subtreeAtPath [k], Answered.child hans fun q hq m hm hmq => ?_⟩
        cases m with
        | nil => exact hvalue (by simpa using hm)
        | cons j m =>
          obtain ⟨rfl, hrest⟩ : j = k ∧ m <+: q := List.cons_prefix_cons.1 hmq
          exact hq m (by rw [FImmutableTree.valueAtPath_subtreeAtPath]; exact hm) hrest
    | cons j p =>
      by_cases hj : j = k
      · subst hj
        rw [operationAt_front rfl]
        exact ⟨hsound, Answered.child hans fun q hq m hm hmq => hq m hm (List.cons_prefix_cons.1 hmq).2⟩
      · rw [operationAt_other rfl hj]
        exact Answered.other hans hj
  | listenComplete path =>
    obtain rfl : w = w₀ := h
    cases path with
    | nil => rfl
    | cons j p =>
      by_cases hj : j = k
      · subst hj
        rw [operationAt_front rfl]
        rfl
      · rw [operationAt_other rfl hj]

/-- **What arrives at a path** is what changed the waiting writes there. -/
theorem Fits.operationAt (h : op.Fits inner w₀ w) (p : List String) :
    match op.operationAt p with
    | some arrived => arrived.Fits (fun q => inner (p ++ q)) (w₀.childCompoundWriteAtPath p)
        (w.childCompoundWriteAtPath p)
    | none => w₀.childCompoundWriteAtPath p = w.childCompoundWriteAtPath p := by
  induction p generalizing op inner w₀ w with
  | nil =>
    rw [FCompoundWrite.childCompoundWriteAtPath_nil, FCompoundWrite.childCompoundWriteAtPath_nil]
    exact h
  | cons k p ih =>
    have hchild := h.child k
    have hsplit : ∀ w : FCompoundWrite, w.childCompoundWriteAtPath (k :: p) =
        (w.childCompoundWriteAtPath [k]).childCompoundWriteAtPath p := fun w =>
      w.childCompoundWriteAtPath_append [k] p
    rw [FSyncTree.operationAt_cons, hsplit, hsplit]
    cases hk : op.operationAt [k] with
    | none =>
      rw [hk] at hchild
      exact congrArg (fun w => w.childCompoundWriteAtPath p) hchild
    | some child =>
      rw [hk] at hchild
      exact ih hchild

end FOperation

end Anissagram
