import Anissagram.Lib.PathTree

/-!
# Sequences of writes, place by place

Seen from one place, a write of `Lib.PathTree` either settles the leaf there, because it covers the place or stores
something below it, or leaves it alone (`touch`). So of a sequence only the last write that touches a place counts
(`leaf_update`).

`shown ws q` is what the writes alone say about a place: the leaf at `q`, where one of them covers `q`. A tree with no
leaf above a covered place (`NoLeafAbove`) shows after the writes what they show, and elsewhere what it showed before
(`leaf_update_shown`). A later write that covers a place makes what came before it not count (`shown_of_later_cover`).
-/

namespace PathTree

universe u v

variable {K : Type u} {V : Type v} [DecidableEq K]

theorem Tree.update_append (t : Tree K V) (ws ws' : List (List K × Tree K V)) :
    t.update (ws ++ ws') = (t.update ws).update ws' := List.foldl_append

omit [DecidableEq K] in
theorem Tree.exists_leaf_of_not_isEmpty {t : Tree K V} (h : ¬ t.isEmpty) : ∃ r v, t.leaf r = some v := by
  by_contra hno
  refine h (Tree.isEmpty_iff.2 (Tree.ext_leaf fun r => ?_))
  exact Option.eq_none_iff_forall_not_mem.2 fun v hv => hno ⟨r, v, hv⟩

theorem Tree.sub_single_cons (v : V) (k : K) (p : List K) : (Tree.single v).sub (k :: p) = Tree.empty :=
  Tree.ext_leaf fun _ => rfl

/-- Nothing is stored below a leaf. -/
theorem Tree.sub_of_leaf_above {t : Tree K V} {p q : List K} {v : V} (h : t.leaf q = some v) (hqp : q <+: p)
    (hne : q ≠ p) : t.sub p = Tree.empty := by
  obtain ⟨r, rfl⟩ := hqp
  obtain ⟨k, r, rfl⟩ := List.exists_cons_of_ne_nil fun hr : r = [] => hne (by rw [hr, List.append_nil])
  have hq : t.sub q = Tree.single v := Tree.eq_single_of_leaf_nil (by rw [Tree.leaf_sub, List.append_nil, h])
  rw [← Tree.sub_sub, hq, Tree.sub_single_cons]

/-- A write into the tree found at `p`, put back at `p`. -/
theorem Tree.set_set_sub (t : Tree K V) (p q : List K) (s : Tree K V) :
    t.set p ((t.sub p).set q s) = t.set (p ++ q) s :=
  Tree.ext_leaf fun x => by
    by_cases hp : p <+: x
    · obtain ⟨y, rfl⟩ := hp
      simp only [Tree.leaf_set, List.prefix_append, if_true, List.drop_left, List.prefix_append_right_inj,
        List.length_append, ← List.drop_drop, Tree.leaf_sub]
    · have hpq : ¬ p ++ q <+: x := fun h => hp ((List.prefix_append p q).trans h)
      rw [Tree.leaf_set t _ p, Tree.leaf_set t s (p ++ q), if_neg hp, if_neg hpq]
      by_cases hx : x <+: p
      · have hxq : x <+: p ++ q := hx.trans (List.prefix_append p q)
        by_cases hs : s.isEmpty
        · have hright : ¬ (x <+: p ++ q ∧ ¬ s.isEmpty) := fun h => h.2 hs
          rw [if_neg hright]
          split
          · -- what is left at `p` was there before, and nothing is above it
            rename_i hne
            by_contra hleaf
            refine hne.2 (Tree.isEmpty_iff.2 (Tree.ext_leaf fun y => ?_))
            have hsub : (t.sub p).leaf y = none := by
              by_contra hy
              have hxy := t.antichain x (p ++ y) (Option.isSome_iff_ne_none.2 fun h => hleaf h.symm)
                (Option.isSome_iff_ne_none.2 hy) (hx.trans (List.prefix_append p y))
              exact hp (hxy ▸ List.prefix_append p y)
            rw [Tree.leaf_set, hsub, Tree.isEmpty_iff.1 hs]
            simp
          · rfl
        · have hinner : ¬ ((t.sub p).set q s).isEmpty := by
            intro h
            have hsub := congrArg (fun u => Tree.sub u q) (Tree.isEmpty_iff.1 h)
            simp only [Tree.sub_set_self, Tree.sub_empty] at hsub
            exact hs (Tree.isEmpty_iff.2 hsub)
          rw [if_pos ⟨hx, hinner⟩, if_pos ⟨hxq, hs⟩]
      · have hxq : ¬ x <+: p ++ q := fun h =>
          (List.prefix_or_prefix_of_prefix h (List.prefix_append p q)).elim hx hp
        rw [if_neg fun h => hx h.1, if_neg fun h => hxq h.1]

/-- What a write makes of the leaf at `q`, if it touches it. -/
def touch (w : List K × Tree K V) (q : List K) : Option (Option V) :=
  if w.1 <+: q then some (w.2.leaf (q.drop w.1.length))
  else if q <+: w.1 ∧ ¬ w.2.isEmpty then some none
  else none

theorem leaf_set_touch (t : Tree K V) (w : List K × Tree K V) (q : List K) :
    (t.set w.1 w.2).leaf q = (touch w q).getD (t.leaf q) := by
  rw [Tree.leaf_set, touch]
  split
  · rfl
  · split <;> rfl

theorem touch_of_cover {w : List K × Tree K V} {q : List K} (h : w.1 <+: q) :
    touch w q = some (w.2.leaf (q.drop w.1.length)) := if_pos h

/-- A write that does not cover a place leaves no leaf there, or leaves it alone. -/
theorem touch_of_not_cover {w : List K × Tree K V} {q : List K} {x : Option V} (h : ¬ w.1 <+: q)
    (hx : touch w q = some x) : x = none ∧ q <+: w.1 := by
  rw [touch, if_neg h] at hx
  split at hx
  · rename_i hq
    exact ⟨(Option.some.inj hx).symm, hq.1⟩
  · cases hx

theorem touch_of_apart {w : List K × Tree K V} {p q : List K} (h : Apart p w.1) (hpq : p <+: q) :
    touch w q = none := by
  have hw : ¬ w.1 <+: q := h.elim_right hpq
  have hq : ¬ q <+: w.1 := fun hq => h.1 (hpq.trans hq)
  rw [touch, if_neg hw, if_neg fun hc => hq hc.1]

/-! ## The last touch -/

/-- What the last write that touches the leaf at `q` makes of it. -/
def lastTouch (ws : List (List K × Tree K V)) (q : List K) : Option (Option V) :=
  ws.foldl (fun a w => (touch w q).or a) none

@[simp] theorem lastTouch_nil (q : List K) : lastTouch ([] : List (List K × Tree K V)) q = none := rfl

theorem lastTouch_snoc (ws : List (List K × Tree K V)) (w : List K × Tree K V) (q : List K) :
    lastTouch (ws ++ [w]) q = (touch w q).or (lastTouch ws q) := by
  simp [lastTouch]

theorem lastTouch_append (ws ws' : List (List K × Tree K V)) (q : List K) :
    lastTouch (ws ++ ws') q = (lastTouch ws' q).or (lastTouch ws q) := by
  induction ws' using List.reverseRecOn with
  | nil => simp
  | append_singleton ws' w ih => rw [← List.append_assoc, lastTouch_snoc, ih, lastTouch_snoc, Option.or_assoc]

theorem lastTouch_cons (w : List K × Tree K V) (ws : List (List K × Tree K V)) (q : List K) :
    lastTouch (w :: ws) q = (lastTouch ws q).or (touch w q) := by
  rw [← List.singleton_append, lastTouch_append]
  simp [lastTouch]

/-- **The last touch decides.** -/
theorem leaf_update (t : Tree K V) (ws : List (List K × Tree K V)) (q : List K) :
    (t.update ws).leaf q = (lastTouch ws q).getD (t.leaf q) := by
  induction ws generalizing t with
  | nil => rfl
  | cons w ws ih =>
    rw [Tree.update_cons, ih, leaf_set_touch, lastTouch_cons]
    cases lastTouch ws q <;> rfl

theorem lastTouch_eq_none {ws : List (List K × Tree K V)} {q : List K} (h : ∀ w ∈ ws, touch w q = none) :
    lastTouch ws q = none := by
  induction ws with
  | nil => rfl
  | cons w ws ih =>
    rw [lastTouch_cons, ih fun x hx => h x (List.mem_cons_of_mem _ hx), h w List.mem_cons_self]
    rfl

/-- All writes that touch the place make the same of it. -/
theorem lastTouch_of_forall {ws : List (List K × Tree K V)} {q : List K} {x : Option V}
    (hex : ∃ w ∈ ws, touch w q = some x) (hall : ∀ w ∈ ws, ∀ y, touch w q = some y → y = x) :
    lastTouch ws q = some x := by
  induction ws with
  | nil =>
    obtain ⟨w, hw, -⟩ := hex
    cases hw
  | cons w ws ih =>
    rw [lastTouch_cons]
    by_cases hws : ∃ y ∈ ws, touch y q = some x
    · rw [ih hws fun y hy => hall y (List.mem_cons_of_mem _ hy), Option.some_or]
    · have hno : lastTouch ws q = none := by
        refine lastTouch_eq_none fun y hy => Option.eq_none_iff_forall_not_mem.2 fun z hz => hws ⟨y, hy, ?_⟩
        rw [hz, hall y (List.mem_cons_of_mem _ hy) z hz]
      obtain ⟨y, hy, hx⟩ := hex
      rcases List.mem_cons.1 hy with rfl | hy
      · rw [hno, hx, Option.none_or]
      · exact absurd ⟨y, hy, hx⟩ hws

/-! ## What writes show -/

/-- One of the writes is at `q` or above it. -/
def Covered (ws : List (List K × Tree K V)) (q : List K) : Prop := ∃ w ∈ ws, w.1 <+: q

instance (ws : List (List K × Tree K V)) (q : List K) : Decidable (Covered ws q) :=
  inferInstanceAs (Decidable (∃ w ∈ ws, w.1 <+: q))

omit [DecidableEq K] in
theorem covered_append {ws ws' : List (List K × Tree K V)} {q : List K} :
    Covered (ws ++ ws') q ↔ Covered ws q ∨ Covered ws' q := by
  simp [Covered, or_and_right, exists_or]

omit [DecidableEq K] in
theorem Covered.mono {ws : List (List K × Tree K V)} {p q : List K} (h : Covered ws p) (hq : p <+: q) :
    Covered ws q := by
  obtain ⟨w, hw, hp⟩ := h
  exact ⟨w, hw, hp.trans hq⟩

/-- A covered place is touched. -/
theorem Covered.isSome {ws : List (List K × Tree K V)} {q : List K} (h : Covered ws q) : (lastTouch ws q).isSome := by
  obtain ⟨w, hw, hq⟩ := h
  obtain ⟨l, l', rfl⟩ := List.append_of_mem hw
  rw [lastTouch_append, lastTouch_cons, touch_of_cover hq]
  cases lastTouch l' q <;> rfl

/-- Writes that do not cover a place leave no leaf there, if they touch it. -/
theorem lastTouch_of_not_covered {q : List K} {x : Option V} :
    ∀ {ws : List (List K × Tree K V)}, ¬ Covered ws q → lastTouch ws q = some x → x = none ∧ ∃ w ∈ ws, q <+: w.1
  | [], _, hx => by cases hx
  | w :: ws, hq, hx => by
    have hw : ¬ w.1 <+: q := fun hw => hq ⟨w, List.mem_cons_self, hw⟩
    have hws : ¬ Covered ws q := fun ⟨y, hy, hyq⟩ => hq ⟨y, List.mem_cons_of_mem _ hy, hyq⟩
    rw [lastTouch_cons] at hx
    cases hl : lastTouch ws q with
    | none =>
      rw [hl, Option.none_or] at hx
      exact ⟨(touch_of_not_cover hw hx).1, w, List.mem_cons_self, (touch_of_not_cover hw hx).2⟩
    | some y =>
      rw [hl, Option.some_or] at hx
      obtain ⟨hy, v, hv, hvq⟩ := lastTouch_of_not_covered hws (hl.trans hx)
      exact ⟨hy, v, List.mem_cons_of_mem _ hv, hvq⟩

/-- Writes that do not cover a place take its leaf away where one of them stores something below. -/
theorem lastTouch_below {ws : List (List K × Tree K V)} {q : List K} (hq : ¬ Covered ws q) :
    lastTouch ws q = if ∃ w ∈ ws, q <+: w.1 ∧ ¬ w.2.isEmpty then some none else none := by
  have hno : ∀ w ∈ ws, ¬ w.1 <+: q := fun w hw hwq => hq ⟨w, hw, hwq⟩
  split
  · rename_i hex
    obtain ⟨w, hw, hqw⟩ := hex
    have htouch : touch w q = some none := by rw [touch, if_neg (hno w hw), if_pos hqw]
    exact lastTouch_of_forall ⟨w, hw, htouch⟩ fun x hx y hy => (touch_of_not_cover (hno x hx) hy).1
  · rename_i hex
    refine lastTouch_eq_none fun w hw => ?_
    rw [touch, if_neg (hno w hw), if_neg fun hqw => hex ⟨w, hw, hqw⟩]

/-- The leaf the writes show at a place that they cover. -/
def shown (ws : List (List K × Tree K V)) (q : List K) : Option (Option V) :=
  if Covered ws q then lastTouch ws q else none

theorem shown_of_covered {ws : List (List K × Tree K V)} {q : List K} (h : Covered ws q) :
    shown ws q = lastTouch ws q := if_pos h

theorem shown_of_not_covered {ws : List (List K × Tree K V)} {q : List K} (h : ¬ Covered ws q) :
    shown ws q = none := if_neg h

theorem shown_ne_none {ws : List (List K × Tree K V)} {q : List K} : shown ws q ≠ none ↔ Covered ws q := by
  constructor
  · intro h
    by_contra hc
    exact h (shown_of_not_covered hc)
  · intro h hn
    rw [shown_of_covered h] at hn
    have := h.isSome
    rw [hn] at this
    cases this

@[simp] theorem shown_nil (q : List K) : shown ([] : List (List K × Tree K V)) q = none := by
  simp [shown]

/-- One more write. -/
theorem shown_snoc (ws : List (List K × Tree K V)) (w : List K × Tree K V) (q : List K) :
    shown (ws ++ [w]) q =
      if w.1 <+: q then some (w.2.leaf (q.drop w.1.length))
      else (shown ws q).map fun x => if q <+: w.1 ∧ ¬ w.2.isEmpty then none else x := by
  by_cases hw : w.1 <+: q
  · have hc : Covered (ws ++ [w]) q := ⟨w, by simp, hw⟩
    rw [shown_of_covered hc, if_pos hw, lastTouch_snoc, touch_of_cover hw, Option.some_or]
  · have hc : Covered (ws ++ [w]) q ↔ Covered ws q := by simp [Covered, hw]
    rw [if_neg hw]
    by_cases hq : Covered ws q
    · rw [shown_of_covered (hc.2 hq), shown_of_covered hq, lastTouch_snoc, touch, if_neg hw]
      obtain ⟨x, hx⟩ := Option.isSome_iff_exists.1 hq.isSome
      rw [hx]
      split <;> rfl
    · rw [shown_of_not_covered (mt hc.1 hq), shown_of_not_covered hq]
      rfl

theorem shown_append_of_covered {ws ws' : List (List K × Tree K V)} {q : List K} (h : Covered ws' q) :
    shown (ws ++ ws') q = shown ws' q := by
  obtain ⟨x, hx⟩ := Option.isSome_iff_exists.1 h.isSome
  rw [shown_of_covered h, shown_of_covered (covered_append.2 (Or.inr h)), lastTouch_append, hx, Option.some_or]

/-- Earlier writes that do not cover a place do not count there. -/
theorem shown_append_of_not_covered {ws ws' : List (List K × Tree K V)} {q : List K} (h : ¬ Covered ws q) :
    shown (ws ++ ws') q = shown ws' q := by
  by_cases hq : Covered ws' q
  · exact shown_append_of_covered hq
  · rw [shown_of_not_covered hq, shown_of_not_covered]
    rw [covered_append]
    exact not_or.2 ⟨h, hq⟩

/-- **Shadowing**: writes below `p` do not count where a later write covers `p`. -/
theorem shown_of_later_cover {ws ws' : List (List K × Tree K V)} {p : List K} (h : ∀ w ∈ ws, p <+: w.1)
    (hc : Covered ws' p) (q : List K) : shown (ws ++ ws') q = shown ws' q := by
  by_cases hq : Covered ws' q
  · exact shown_append_of_covered hq
  · refine shown_append_of_not_covered ?_
    rintro ⟨w, hw, hwq⟩
    exact hq (hc.mono ((h w hw).trans hwq))

/-- Of writes that lie apart, the one that covers a place is what is shown there. -/
theorem shown_of_mem {ws : List (List K × Tree K V)} (hap : ∀ w ∈ ws, ∀ w' ∈ ws, w = w' ∨ Apart w.1 w'.1)
    {w : List K × Tree K V} (hw : w ∈ ws) {q : List K} (hq : w.1 <+: q) :
    shown ws q = some (w.2.leaf (q.drop w.1.length)) := by
  rw [shown_of_covered ⟨w, hw, hq⟩]
  refine lastTouch_of_forall ⟨w, hw, touch_of_cover hq⟩ fun x hx y hy => ?_
  rcases hap x hx w hw with rfl | hxw
  · rw [touch_of_cover hq] at hy
    exact (Option.some.inj hy).symm
  · rw [touch_of_apart hxw.symm hq] at hy
    cases hy

/-! ### Writes of what is there -/

/-- Every write stores what the tree has at its path. -/
def Agrees (t : Tree K V) (ws : List (List K × Tree K V)) : Prop := ∀ w ∈ ws, w.2 = t.sub w.1

theorem Agrees.update {t : Tree K V} {ws : List (List K × Tree K V)} (h : Agrees t ws) : t.update ws = t := by
  induction ws with
  | nil => rfl
  | cons w ws ih =>
    rw [Tree.update_cons, h w List.mem_cons_self, Tree.set_sub]
    exact ih fun x hx => h x (List.mem_cons_of_mem _ hx)

theorem Agrees.touch {t : Tree K V} {ws : List (List K × Tree K V)} (h : Agrees t ws) {w : List K × Tree K V}
    (hw : w ∈ ws) {q : List K} {x : Option V} (hx : touch w q = some x) : x = t.leaf q := by
  have hset := leaf_set_touch t w q
  rw [hx, h w hw, Tree.set_sub] at hset
  exact hset.symm

theorem Agrees.shown {t : Tree K V} {ws : List (List K × Tree K V)} (h : Agrees t ws) {q : List K}
    (hq : Covered ws q) : shown ws q = some (t.leaf q) := by
  rw [shown_of_covered hq]
  obtain ⟨w, hw, hwq⟩ := hq
  have hcover := touch_of_cover (w := w) hwq
  exact lastTouch_of_forall ⟨w, hw, hcover.trans (congrArg some (h.touch hw hcover))⟩
    fun x hx y hy => h.touch hx hy

/-! ## Over a tree -/

/-- No leaf lies above a place that is shown, unless it is shown itself. -/
def NoLeafAbove (t : Tree K V) (v : List K → Option (Option V)) : Prop :=
  ∀ q y, q <+: y → v q = none → v y ≠ none → t.leaf q = none

theorem NoLeafAbove.sub {t : Tree K V} {v : List K → Option (Option V)} (h : NoLeafAbove t v) (p : List K) :
    NoLeafAbove (t.sub p) fun q => v (p ++ q) :=
  fun q y hqy hq hy => h (p ++ q) (p ++ y) ((List.prefix_append_right_inj p).2 hqy) hq hy

/-- **Overlay**: the writes show what they show, and the tree shows through elsewhere. -/
theorem leaf_update_shown {t : Tree K V} {ws : List (List K × Tree K V)} (h : NoLeafAbove t (shown ws)) (q : List K) :
    (t.update ws).leaf q = (shown ws q).getD (t.leaf q) := by
  rw [leaf_update]
  by_cases hq : Covered ws q
  · rw [shown_of_covered hq]
  · rw [shown_of_not_covered hq, Option.getD_none]
    cases hx : lastTouch ws q with
    | none => rfl
    | some x =>
      obtain ⟨rfl, w, hw, hqw⟩ := lastTouch_of_not_covered hq hx
      have hshown : shown ws w.1 ≠ none := shown_ne_none.2 ⟨w, hw, List.prefix_refl _⟩
      rw [h q w.1 hqw (shown_of_not_covered hq) hshown]
      rfl

end PathTree
