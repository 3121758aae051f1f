import Mathlib.Data.Finset.Image
import Mathlib.Data.Finset.Option
import Mathlib.Data.List.Infix
import Mathlib.Tactic.Tauto

/-!
# Trees addressed by paths

A tree with values at its leaves and keys on its edges, where an inner node without children does
not exist, is determined by the finite map from the paths of its leaves to their values. No leaf
lies above another one. `Tree` is that map; both facts are fields, so that equality of trees is
equality of the leaves (`Tree.ext_leaf`).

`Tree.set p s` puts the tree `s` in the place of everything at and below `p` (`s` empty deletes);
`Tree.sub p` is the tree at `p`. Two paths are `Apart` when neither is a prefix of the other, and
then writes at them commute (`set_comm`) and do not see each other (`sub_set_apart`).
-/

namespace PathTree

universe u v

variable {K : Type u} {V : Type v}

/-- Neither path lies at or below the other. -/
def Apart (p q : List K) : Prop := ¬ p <+: q ∧ ¬ q <+: p

instance [DecidableEq K] (p q : List K) : Decidable (Apart p q) :=
  inferInstanceAs (Decidable (¬ p <+: q ∧ ¬ q <+: p))

theorem Apart.symm {p q : List K} (h : Apart p q) : Apart q p := ⟨h.2, h.1⟩

/-- Paths that part ways at their first key. -/
theorem apart_cons_of_ne {a b : K} (p q : List K) (h : a ≠ b) : Apart (a :: p) (b :: q) := by
  constructor <;> simp [List.cons_prefix_cons, h, Ne.symm h]

theorem apart_cons {a : K} {p q : List K} : Apart (a :: p) (a :: q) ↔ Apart p q := by
  simp [Apart, List.cons_prefix_cons]

theorem not_apart_self (p : List K) : ¬ Apart p p := fun h => h.1 (List.prefix_refl p)

/-- Different paths of one length are apart. -/
theorem apart_of_length_eq {p q : List K} (hl : p.length = q.length) (h : p ≠ q) : Apart p q :=
  ⟨fun hpq => h (hpq.eq_of_length hl), fun hqp => h (hqp.eq_of_length hl.symm).symm⟩

/-- Two prefixes of one path are never apart. -/
theorem Apart.elim_right {p q x : List K} (h : Apart p q) (hp : p <+: x) : ¬ q <+: x := by
  intro hq
  rcases List.prefix_or_prefix_of_prefix hp hq with hpq | hqp
  · exact h.1 hpq
  · exact h.2 hqp

/-- Extending one of two paths keeps them apart. -/
theorem Apart.append_left {p q : List K} (h : Apart p q) (r : List K) : Apart (p ++ r) q := by
  refine ⟨fun hpq => h.1 ((List.prefix_append p r).trans hpq), fun hq => ?_⟩
  rcases List.prefix_or_prefix_of_prefix hq (List.prefix_append p r) with h' | h'
  · exact h.2 h'
  · exact h.1 h'

structure Tree (K : Type u) (V : Type v) where
  /-- The value at a leaf; `none` at an inner node and where nothing is stored. -/
  leaf : List K → Option V
  support : Finset (List K)
  mem_support : ∀ p, p ∈ support ↔ (leaf p).isSome
  antichain : ∀ p q, (leaf p).isSome → (leaf q).isSome → p <+: q → p = q

namespace Tree

theorem ext_leaf {t s : Tree K V} (h : ∀ p, t.leaf p = s.leaf p) : t = s := by
  have hl : t.leaf = s.leaf := funext h
  have hs : t.support = s.support := by
    ext p
    rw [t.mem_support, s.mem_support, h p]
  cases t
  cases s
  simp only at hl hs
  subst hl hs
  rfl

instance [DecidableEq K] [DecidableEq V] : DecidableEq (Tree K V) := fun t s =>
  decidable_of_iff (t.support = s.support ∧ ∀ p ∈ t.support, t.leaf p = s.leaf p) <| by
    constructor
    · rintro ⟨hs, hl⟩
      refine ext_leaf fun p => ?_
      by_cases hp : p ∈ t.support
      · exact hl p hp
      · have h1 := mt (t.mem_support p).2 hp
        rw [hs] at hp
        have h2 := mt (s.mem_support p).2 hp
        rw [Option.not_isSome_iff_eq_none] at h1 h2
        rw [h1, h2]
    · rintro rfl
      exact ⟨rfl, fun _ _ => rfl⟩

/-! ## Building blocks -/

/-- The tree that stores nothing. -/
def empty : Tree K V where
  leaf _ := none
  support := ∅
  mem_support p := by simp
  antichain p q h := by simp at h

instance : Inhabited (Tree K V) := ⟨empty⟩

@[simp] theorem leaf_empty (p : List K) : (empty : Tree K V).leaf p = none := rfl

/-- A single leaf. -/
def single (v : V) : Tree K V where
  leaf
    | [] => some v
    | _ :: _ => none
  support := {[]}
  mem_support p := by cases p <;> simp
  antichain p q hp hq _ := by
    cases p <;> cases q <;> simp_all

@[simp] theorem leaf_single_nil (v : V) : (single v : Tree K V).leaf [] = some v := rfl
@[simp] theorem leaf_single_cons (v : V) (k : K) (p : List K) :
    (single v : Tree K V).leaf (k :: p) = none := rfl

/-- Nothing is stored. -/
def isEmpty (t : Tree K V) : Prop := t.support = ∅

instance [DecidableEq K] (t : Tree K V) : Decidable t.isEmpty :=
  inferInstanceAs (Decidable (t.support = ∅))

theorem isEmpty_iff {t : Tree K V} : t.isEmpty ↔ t = empty := by
  constructor
  · intro h
    refine ext_leaf fun p => ?_
    have hp : p ∉ t.support := by rw [h]; simp
    simpa using mt (t.mem_support p).2 hp
  · rintro rfl; rfl

@[simp] theorem isEmpty_empty : (empty : Tree K V).isEmpty := rfl

@[simp] theorem not_isEmpty_single (v : V) : ¬ (single v : Tree K V).isEmpty := by
  simp [isEmpty, single]

theorem single_ne_empty (v : V) : (single v : Tree K V) ≠ empty :=
  fun h => not_isEmpty_single v (isEmpty_iff.2 h)

theorem single_inj {v w : V} : (single v : Tree K V) = single w ↔ v = w := by
  constructor
  · intro h
    have h0 := congrArg (fun t => Tree.leaf t []) h
    simpa using h0
  · rintro rfl; rfl

/-- A tree with a leaf at its root is that leaf. -/
theorem eq_single_of_leaf_nil {t : Tree K V} {v : V} (h : t.leaf [] = some v) : t = single v := by
  refine ext_leaf fun p => ?_
  cases p with
  | nil => simpa using h
  | cons k p =>
    rw [leaf_single_cons]
    by_contra hne
    have hp : (t.leaf (k :: p)).isSome := Option.isSome_iff_ne_none.2 hne
    have := t.antichain [] (k :: p) (by simp [h]) hp List.nil_prefix
    simp at this

theorem eq_single_iff {t : Tree K V} {v : V} : t = single v ↔ t.leaf [] = some v :=
  ⟨fun h => by rw [h]; rfl, eq_single_of_leaf_nil⟩

/-! ## The tree at a path -/

section
variable [DecidableEq K]

/-- The tree found at `p`. -/
def sub (t : Tree K V) (p : List K) : Tree K V where
  leaf q := t.leaf (p ++ q)
  support := (t.support.filter fun q => p <+: q).image (List.drop p.length)
  mem_support q := by
    simp only [Finset.mem_image, Finset.mem_filter, t.mem_support]
    constructor
    · rintro ⟨x, ⟨hx, y, rfl⟩, rfl⟩
      simpa using hx
    · intro h
      exact ⟨p ++ q, ⟨h, List.prefix_append p q⟩, by simp⟩
  antichain q r hq hr h :=
    List.append_cancel_left (t.antichain (p ++ q) (p ++ r) hq hr ((List.prefix_append_right_inj p).2 h))

@[simp] theorem leaf_sub (t : Tree K V) (p q : List K) : (t.sub p).leaf q = t.leaf (p ++ q) := rfl

@[simp] theorem sub_nil (t : Tree K V) : t.sub [] = t := ext_leaf fun _ => rfl

theorem sub_sub (t : Tree K V) (p q : List K) : (t.sub p).sub q = t.sub (p ++ q) :=
  ext_leaf fun r => by simp

@[simp] theorem sub_empty (p : List K) : (empty : Tree K V).sub p = empty := ext_leaf fun _ => rfl

/-- The keys directly below the root. -/
def keys (t : Tree K V) : Finset K := (t.support.image List.head?).eraseNone

theorem mem_keys {t : Tree K V} {k : K} : k ∈ t.keys ↔ t.sub [k] ≠ empty := by
  rw [ne_eq, ← isEmpty_iff, isEmpty, Finset.eq_empty_iff_forall_notMem]
  simp only [keys, Finset.mem_eraseNone, Finset.mem_image, mem_support, leaf_sub, not_forall, not_not]
  constructor
  · rintro ⟨p, hp, hk⟩
    cases p with
    | nil => simp at hk
    | cons j p =>
      simp only [List.head?_cons, Option.some.injEq] at hk
      subst hk
      exact ⟨p, hp⟩
  · rintro ⟨p, hp⟩
    exact ⟨k :: p, hp, rfl⟩

/-- Without keys and without a value at its root a tree is empty. -/
theorem eq_empty_of_keys {t : Tree K V} (hk : t.keys = ∅) (h0 : t.leaf [] = none) : t = empty := by
  refine ext_leaf fun p => ?_
  cases p with
  | nil => exact h0
  | cons k p =>
    have hsub : t.sub [k] = empty := by
      by_contra hne
      have hmem := mem_keys.2 hne
      rw [hk] at hmem
      cases hmem
    exact congrArg (fun s => Tree.leaf s p) hsub

/-! ## Writing at a path -/

/-- Put `s` in the place of everything at and below `p`. A leaf above `p` gives way to the path
down to `s`; where `s` is empty nothing needs the path, and the leaf stays. -/
def set (t : Tree K V) (p : List K) (s : Tree K V) : Tree K V where
  leaf q :=
    if p <+: q then s.leaf (q.drop p.length)
    else if q <+: p ∧ ¬ s.isEmpty then none
    else t.leaf q
  support :=
    (t.support.filter fun q => ¬ p <+: q ∧ ¬ (q <+: p ∧ ¬ s.isEmpty)) ∪ s.support.image (p ++ ·)
  mem_support q := by
    simp only [Finset.mem_union, Finset.mem_filter, Finset.mem_image, mem_support]
    by_cases hp : p <+: q
    · obtain ⟨r, rfl⟩ := hp
      simp
    · have hno : ¬ ∃ a, (s.leaf a).isSome ∧ p ++ a = q := by
        rintro ⟨a, -, rfl⟩
        exact hp (List.prefix_append p a)
      by_cases hq : q <+: p ∧ ¬ s.isEmpty <;> simp [hp, hq, hno]
  antichain q r hq hr h := by
    by_cases hpq : p <+: q
    · obtain ⟨x, rfl⟩ := hpq
      obtain ⟨y, rfl⟩ := (List.prefix_append p x).trans h
      simp only [List.prefix_append, if_true, List.drop_left] at hq hr
      rw [s.antichain x y hq hr ((List.prefix_append_right_inj p).1 h)]
    · by_cases hpr : p <+: r
      · rcases List.prefix_or_prefix_of_prefix h hpr with hqp | hpq'
        · have hs : ¬ s.isEmpty := by
            rintro he
            rw [isEmpty_iff.1 he] at hr
            simp [hpr] at hr
          simp [hpq, hqp, hs] at hq
        · exact absurd hpq' hpq
      · have hq' : (t.leaf q).isSome := by
          by_cases hc : q <+: p ∧ ¬ s.isEmpty <;> simp_all
        have hr' : (t.leaf r).isSome := by
          by_cases hc : r <+: p ∧ ¬ s.isEmpty <;> simp_all
        exact t.antichain q r hq' hr' h

theorem leaf_set (t s : Tree K V) (p q : List K) :
    (t.set p s).leaf q =
      if p <+: q then s.leaf (q.drop p.length)
      else if q <+: p ∧ ¬ s.isEmpty then none
      else t.leaf q := rfl

@[simp] theorem leaf_set_append (t s : Tree K V) (p q : List K) :
    (t.set p s).leaf (p ++ q) = s.leaf q := by
  simp [leaf_set]

theorem leaf_set_apart (t s : Tree K V) {p q : List K} (h : Apart p q) :
    (t.set p s).leaf q = t.leaf q := by
  simp [leaf_set, h.1, h.2]

/-- Read after write. -/
@[simp] theorem sub_set_self (t s : Tree K V) (p : List K) : (t.set p s).sub p = s :=
  ext_leaf fun q => by simp

/-- A write below `p` is a write into the tree at `p`. -/
theorem sub_set_append (t s : Tree K V) (p q : List K) :
    (t.set (p ++ q) s).sub p = (t.sub p).set q s :=
  ext_leaf fun r => by
    simp only [leaf_sub, leaf_set, List.prefix_append_right_inj, List.length_append]
    rw [← List.drop_drop, List.drop_left]

theorem sub_set_apart (t s : Tree K V) {p q : List K} (h : Apart p q) :
    (t.set p s).sub q = t.sub q :=
  ext_leaf fun r => by
    rw [leaf_sub, leaf_set_apart t s (h.symm.append_left r).symm, leaf_sub]

/-- Writes at paths that are apart commute. -/
theorem set_comm (t s s' : Tree K V) {p q : List K} (h : Apart p q) :
    (t.set p s).set q s' = (t.set q s').set p s :=
  ext_leaf fun x => by
    simp only [leaf_set]
    by_cases hp : p <+: x
    · have hq : ¬ q <+: x := h.elim_right hp
      have hxq : ¬ x <+: q := fun hx => h.1 (hp.trans hx)
      simp [hp, hq, hxq]
    · by_cases hq : q <+: x
      · have hxp : ¬ x <+: p := fun hx => h.2 (hq.trans hx)
        simp [hp, hq, hxp]
      · by_cases h1 : x <+: p ∧ ¬ s.isEmpty <;> by_cases h2 : x <+: q ∧ ¬ s'.isEmpty <;>
          simp [hp, hq, h1, h2]

/-- Storing what is there already changes nothing. -/
theorem set_sub (t : Tree K V) (p : List K) : t.set p (t.sub p) = t :=
  ext_leaf fun q => by
    rw [leaf_set]
    by_cases hp : p <+: q
    · obtain ⟨r, rfl⟩ := hp
      simp
    · rw [if_neg hp]
      by_cases hq : q <+: p ∧ ¬ (t.sub p).isEmpty
      · obtain ⟨⟨r, rfl⟩, hne⟩ := hq
        rw [if_pos ⟨List.prefix_append q r, hne⟩]
        by_contra hne'
        refine hne (isEmpty_iff.2 (ext_leaf fun y => ?_))
        rw [leaf_sub, leaf_empty]
        by_contra hy
        have := t.antichain q (q ++ r ++ y) (Option.isSome_iff_ne_none.2 (Ne.symm hne'))
          (Option.isSome_iff_ne_none.2 hy) (by simp)
        have hr : r = [] := by simp at this; exact this.1
        subst hr
        exact hp (by simp)
      · rw [if_neg hq]

/-- The second of two writes at one place, unless the first one removes a leaf above. -/
theorem set_set (t s s' : Tree K V) {p : List K} (h : ∀ q, q <+: p → q ≠ p → t.leaf q = none) :
    (t.set p s).set p s' = t.set p s' :=
  ext_leaf fun q => by
    simp only [leaf_set]
    by_cases hp : p <+: q
    · simp [hp]
    · by_cases hq : q <+: p
      · have hne : q ≠ p := by
          rintro rfl
          exact hp (List.prefix_refl q)
        simp [hp, hq, h q hq hne]
      · simp [hp, hq]

/-! ## Several writes -/

/-- Writes one after the other. -/
def update (t : Tree K V) (ws : List (List K × Tree K V)) : Tree K V :=
  ws.foldl (fun t w => t.set w.1 w.2) t

@[simp] theorem update_nil (t : Tree K V) : t.update [] = t := rfl
@[simp] theorem update_cons (t : Tree K V) (w : List K × Tree K V) (ws : List (List K × Tree K V)) :
    t.update (w :: ws) = (t.set w.1 w.2).update ws := rfl

/-- What lies apart from every write is not changed. -/
theorem sub_update_apart {q : List K} :
    ∀ {ws : List (List K × Tree K V)} (t : Tree K V), (∀ w ∈ ws, Apart w.1 q) →
      (t.update ws).sub q = t.sub q
  | [], _, _ => rfl
  | w :: ws, t, h => by
    rw [update_cons, sub_update_apart (t.set w.1 w.2) fun x hx => h x (List.mem_cons_of_mem _ hx)]
    exact sub_set_apart t w.2 (h w List.mem_cons_self)

theorem set_update_comm {p : List K} (s : Tree K V) :
    ∀ {ws : List (List K × Tree K V)} (t : Tree K V), (∀ w ∈ ws, Apart p w.1) →
      (t.set p s).update ws = (t.update ws).set p s
  | [], _, _ => rfl
  | w :: ws, t, h => by
    rw [update_cons, update_cons, set_comm t s w.2 (h w List.mem_cons_self),
      set_update_comm s _ fun x hx => h x (List.mem_cons_of_mem _ hx)]

/-- Updates that are apart commute. -/
theorem update_comm {vs : List (List K × Tree K V)} :
    ∀ {ws : List (List K × Tree K V)} (t : Tree K V), (∀ w ∈ ws, ∀ v ∈ vs, Apart w.1 v.1) →
      (t.update vs).update ws = (t.update ws).update vs
  | [], _, _ => rfl
  | w :: ws, t, h => by
    rw [update_cons, update_cons, ← set_update_comm w.2 t (h w List.mem_cons_self),
      update_comm _ fun x hx => h x (List.mem_cons_of_mem _ hx)]

/-- A place that no write covers keeps its leaf, if it has none wherever a write goes below it. -/
theorem leaf_update_of_not_covered {q : List K} :
    ∀ {ws : List (List K × Tree K V)} (t : Tree K V), (∀ w ∈ ws, ¬ w.1 <+: q) →
      ((∃ w ∈ ws, q <+: w.1) → t.leaf q = none) → (t.update ws).leaf q = t.leaf q
  | [], _, _, _ => rfl
  | w :: ws, t, hno, habove => by
    have hset : (t.set w.1 w.2).leaf q = t.leaf q := by
      rw [leaf_set, if_neg (hno w List.mem_cons_self)]
      split
      · rename_i hq
        exact (habove ⟨w, List.mem_cons_self, hq.1⟩).symm
      · rfl
    rw [update_cons, leaf_update_of_not_covered (t.set w.1 w.2)
      (fun x hx => hno x (List.mem_cons_of_mem _ hx)), hset]
    rw [hset]
    rintro ⟨x, hx, hq⟩
    exact habove ⟨x, List.mem_cons_of_mem _ hx, hq⟩

/-- No write puts a leaf at `q`. -/
theorem leaf_update_none {q : List K} :
    ∀ {ws : List (List K × Tree K V)} {t : Tree K V}, t.leaf q = none →
      (∀ w ∈ ws, w.1 <+: q → w.2.leaf (q.drop w.1.length) = none) → (t.update ws).leaf q = none
  | [], _, ht, _ => ht
  | w :: ws, t, ht, h => by
    refine leaf_update_none (t := t.set w.1 w.2) ?_ fun x hx => h x (List.mem_cons_of_mem _ hx)
    rw [leaf_set]
    split
    · rename_i hq
      exact h w List.mem_cons_self hq
    · rw [ht, ite_self]

/-- The second of two updates of the same places, which lie apart and have no leaf above them. -/
theorem update_update :
    ∀ {ws ws' : List (List K × Tree K V)} (t : Tree K V), ws.map Prod.fst = ws'.map Prod.fst →
      ws.Pairwise (fun x y => Apart x.1 y.1) → (∀ w ∈ ws, ∀ q, q <+: w.1 → q ≠ w.1 → t.leaf q = none) →
      (t.update ws).update ws' = t.update ws'
  | [], [], _, _, _, _ => rfl
  | [], _ :: _, _, h, _, _ => by simp at h
  | _ :: _, [], _, h, _, _ => by simp at h
  | w :: ws, w' :: ws', t, h, hap, habove => by
    obtain ⟨hw, hws⟩ := List.cons.inj (show w.1 :: ws.map Prod.fst = w'.1 :: ws'.map Prod.fst from h)
    obtain ⟨hapart, hap⟩ := List.pairwise_cons.1 hap
    have habove' : ∀ x ∈ ws, ∀ q, q <+: x.1 → q ≠ x.1 → (t.set w.1 w'.2).leaf q = none := by
      intro x hx q hq hne
      rw [leaf_set, if_neg fun hwq => (hapart x hx).1 (hwq.trans hq), ite_eq_left_iff]
      exact fun _ => habove x (List.mem_cons_of_mem _ hx) q hq hne
    rw [update_cons, update_cons, update_cons, ← hw, ← set_update_comm w'.2 _ hapart,
      set_set t w.2 w'.2 (habove w List.mem_cons_self), update_update _ hws hap habove']

/-- Writes that are apart are all there afterwards. -/
theorem sub_update_mem {w : List K × Tree K V} :
    ∀ {ws : List (List K × Tree K V)} (t : Tree K V), ws.Pairwise (fun x y => Apart x.1 y.1) → w ∈ ws →
      (t.update ws).sub w.1 = w.2
  | x :: ws, t, hap, hw => by
    obtain ⟨hx, hap⟩ := List.pairwise_cons.1 hap
    rw [update_cons]
    rcases List.mem_cons.1 hw with rfl | hw
    · rw [sub_update_apart _ fun y hy => (hx y hy).symm, sub_set_self]
    · exact sub_update_mem _ hap hw

end

/-! ## What the leaves are like -/

/-- Every leaf, with its path, is as `P` says. -/
def Leaves (t : Tree K V) (P : List K → V → Prop) : Prop := ∀ p v, t.leaf p = some v → P p v

theorem leaves_empty (P : List K → V → Prop) : (empty : Tree K V).Leaves P := by
  intro p v h
  cases h

theorem leaves_single {P : List K → V → Prop} {v : V} (h : P [] v) : (single v : Tree K V).Leaves P := by
  intro p w hw
  cases p with
  | nil => exact Option.some.inj hw ▸ h
  | cons k p => cases hw

section
variable [DecidableEq K] {P : List K → V → Prop} {t s : Tree K V} {p : List K}

theorem Leaves.sub (h : t.Leaves P) (p : List K) : (t.sub p).Leaves fun q v => P (p ++ q) v :=
  fun q v hq => h (p ++ q) v hq

theorem Leaves.set (h : t.Leaves P) (hs : s.Leaves fun q v => P (p ++ q) v) : (t.set p s).Leaves P := by
  intro q v hq
  rw [leaf_set] at hq
  split at hq
  · rename_i hpq
    obtain ⟨r, rfl⟩ := hpq
    rw [List.drop_left] at hq
    exact hs r v hq
  · split at hq
    · cases hq
    · exact h q v hq

theorem Leaves.update (P : List K → V → Prop) :
    ∀ {ws : List (List K × Tree K V)} {t : Tree K V}, t.Leaves P →
      (∀ w ∈ ws, w.2.Leaves fun q v => P (w.1 ++ q) v) → (t.update ws).Leaves P
  | [], _, h, _ => h
  | w :: ws, t, h, hws => by
    rw [update_cons]
    exact Leaves.update P (h.set (hws w List.mem_cons_self)) fun x hx => hws x (List.mem_cons_of_mem _ hx)

end

end Tree

end PathTree
