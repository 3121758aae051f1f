import Mathlib.Data.List.Basic

/-!
# Dictionaries as sorted lists

A dictionary over a three-way comparison is the list of its entries, in strictly ascending order of the keys
(`Sorted`). Keys that compare as the same are one key to `get`, `insert` and `remove`. For a comparison that tells all
keys apart, a dictionary is determined by what it answers (`ext`).
-/

namespace SortedDict

universe u v

variable {K : Type u} {V : Type v} (cmp : K → K → Ordering)

def get : List (K × V) → K → Option V
  | [], _ => none
  | (k, v) :: d, key =>
    match cmp key k with
    | .eq => some v
    | .lt => none
    | .gt => get d key

def insert : List (K × V) → K → V → List (K × V)
  | [], key, value => [(key, value)]
  | (k, v) :: d, key, value =>
    match cmp key k with
    | .eq => (key, value) :: d
    | .lt => (key, value) :: (k, v) :: d
    | .gt => (k, v) :: insert d key value

def remove : List (K × V) → K → List (K × V)
  | [], _ => []
  | (k, v) :: d, key =>
    match cmp key k with
    | .eq => d
    | .lt => (k, v) :: d
    | .gt => (k, v) :: remove d key

def Sorted (d : List (K × V)) : Prop := d.Pairwise fun e e' => cmp e.1 e'.1 = .lt

variable {cmp} {d d' : List (K × V)} {key k : K} {value v : V}

theorem mem_of_mem_insert {e : K × V} (h : e ∈ insert cmp d key value) : e = (key, value) ∨ e ∈ d := by
  induction d with
  | nil => exact Or.inl (List.mem_singleton.1 h)
  | cons x d ih =>
    unfold insert at h
    split at h
    · rcases List.mem_cons.1 h with rfl | h
      · exact Or.inl rfl
      · exact Or.inr (List.mem_cons_of_mem _ h)
    · exact List.mem_cons.1 h
    · rcases List.mem_cons.1 h with rfl | h
      · exact Or.inr List.mem_cons_self
      · exact (ih h).imp_right (List.mem_cons_of_mem _)

theorem remove_sublist (cmp : K → K → Ordering) (key : K) : ∀ d : List (K × V), (remove cmp d key).Sublist d
  | [] => List.Sublist.refl _
  | (k, v) :: d => by
    unfold remove
    split
    · exact List.sublist_cons_self _ _
    · exact List.Sublist.refl _
    · exact (remove_sublist cmp key d).cons_cons _

theorem Sorted.remove (h : Sorted cmp d) (key : K) : Sorted cmp (remove cmp d key) :=
  h.sublist (remove_sublist cmp key d)

/-- Other values for the same keys. -/
theorem Sorted.map (h : Sorted cmp d) (f : K → V → V) : Sorted cmp (d.map fun e => (e.1, f e.1 e.2)) :=
  List.pairwise_map.2 h

theorem insert_ne_nil (cmp : K → K → Ordering) (d : List (K × V)) (key : K) (value : V) :
    insert cmp d key value ≠ [] := by
  cases d with
  | nil => simp [insert]
  | cons x d =>
    unfold insert
    split <;> simp

theorem get_map [Std.LawfulEqCmp cmp] (d : List (K × V)) (f : K → V → V) (k : K) :
    get cmp (d.map fun e => (e.1, f e.1 e.2)) k = (get cmp d k).map (f k) := by
  induction d with
  | nil => rfl
  | cons x d ih =>
    rw [List.map_cons, get, get]
    cases hk : cmp k x.1 with
    | eq => simp [Std.LawfulEqCmp.eq_of_compare hk]
    | lt => rfl
    | gt => exact ih

theorem mem_of_get [Std.LawfulEqCmp cmp] (h : get cmp d key = some value) : (key, value) ∈ d := by
  induction d with
  | nil => cases h
  | cons x d ih =>
    unfold get at h
    split at h
    · rename_i heq
      obtain rfl := Std.LawfulEqCmp.eq_of_compare heq
      obtain rfl := Option.some.inj h
      exact List.mem_cons_self
    · cases h
    · exact List.mem_cons_of_mem _ (ih h)

section
variable [Std.TransCmp cmp]

theorem Sorted.insert (h : Sorted cmp d) (key : K) (value : V) : Sorted cmp (insert cmp d key value) := by
  induction d with
  | nil => exact List.pairwise_singleton _ _
  | cons x d ih =>
    obtain ⟨hx, hd⟩ := List.pairwise_cons.1 h
    unfold SortedDict.insert
    split
    · rename_i heq
      exact List.pairwise_cons.2 ⟨fun e he => Std.TransCmp.lt_of_eq_of_lt heq (hx e he), hd⟩
    · rename_i hlt
      refine List.pairwise_cons.2 ⟨fun e he => ?_, h⟩
      rcases List.mem_cons.1 he with rfl | he
      · exact hlt
      · exact Std.TransCmp.lt_trans hlt (hx e he)
    · rename_i hgt
      refine List.pairwise_cons.2 ⟨fun e he => ?_, ih hd⟩
      rcases mem_of_mem_insert he with rfl | he
      · exact Std.OrientedCmp.lt_of_gt hgt
      · exact hx e he

/-- Read after insert. -/
theorem get_insert (d : List (K × V)) (key : K) (value : V) (k : K) :
    get cmp (SortedDict.insert cmp d key value) k = if cmp k key = .eq then some value else get cmp d k := by
  induction d with
  | nil =>
    unfold SortedDict.insert get
    split <;> simp_all [get]
  | cons x d ih =>
    unfold SortedDict.insert
    split
    · rename_i heq
      unfold get
      rw [Std.TransCmp.congr_right (a := k) heq]
      split <;> simp_all
    · rename_i hlt
      rw [get]
      split
      · rename_i hk
        rw [if_pos hk]
      · rename_i hk
        have hkx : cmp k x.1 = .lt := Std.TransCmp.lt_trans hk hlt
        rw [if_neg (by rw [hk]; decide), get, hkx]
      · rename_i hk
        rw [if_neg (by rw [hk]; decide)]
    · rename_i hgt
      have hlt : cmp x.1 key = .lt := Std.OrientedCmp.lt_of_gt hgt
      rw [get]
      cases hkx : cmp k x.1 with
      | eq =>
        have hk : cmp k key = .lt := Std.TransCmp.lt_of_eq_of_lt hkx hlt
        rw [if_neg (by rw [hk]; decide), get, hkx]
      | lt =>
        have hk : cmp k key = .lt := Std.TransCmp.lt_trans hkx hlt
        rw [if_neg (by rw [hk]; decide), get, hkx]
      | gt =>
        dsimp only
        rw [ih, get, hkx]

omit [Std.TransCmp cmp] in
theorem get_eq_none_of_lt (h : ∀ e ∈ d, cmp key e.1 = .lt) : get cmp d key = none := by
  cases d with
  | nil => rfl
  | cons x d => rw [get, h x List.mem_cons_self]

/-- Read after remove. -/
theorem get_remove (h : Sorted cmp d) (key k : K) :
    get cmp (SortedDict.remove cmp d key) k = if cmp k key = .eq then none else get cmp d k := by
  induction d with
  | nil => simp [SortedDict.remove, get]
  | cons x d ih =>
    obtain ⟨hx, hd⟩ := List.pairwise_cons.1 h
    unfold SortedDict.remove
    split
    · rename_i heq
      rw [get, ← Std.TransCmp.congr_right (a := k) heq]
      split
      · rename_i hk
        have hkx : cmp k x.1 = .eq := Std.TransCmp.eq_trans hk heq
        exact get_eq_none_of_lt fun e he => Std.TransCmp.lt_of_eq_of_lt hkx (hx e he)
      · rename_i hk
        cases hkk : cmp k key with
        | eq => exact absurd hkk hk
        | lt =>
          have hkx : cmp k x.1 = .lt := Std.TransCmp.lt_of_lt_of_eq hkk heq
          exact get_eq_none_of_lt fun e he => Std.TransCmp.lt_trans hkx (hx e he)
        | gt => rfl
    · rename_i hlt
      split
      · rename_i hk
        have hkx : cmp k x.1 = .lt := Std.TransCmp.lt_of_eq_of_lt hk hlt
        rw [get, hkx]
      · rfl
    · rename_i hgt
      have hlt : cmp x.1 key = .lt := Std.OrientedCmp.lt_of_gt hgt
      rw [get]
      cases hkx : cmp k x.1 with
      | eq =>
        have hk : cmp k key = .lt := Std.TransCmp.lt_of_eq_of_lt hkx hlt
        rw [if_neg (by rw [hk]; decide), get, hkx]
      | lt =>
        have hk : cmp k key = .lt := Std.TransCmp.lt_trans hkx hlt
        rw [if_neg (by rw [hk]; decide), get, hkx]
      | gt =>
        dsimp only
        rw [ih hd, get, hkx]

theorem get_of_mem (h : Sorted cmp d) {e : K × V} (he : e ∈ d) : get cmp d e.1 = some e.2 := by
  induction d with
  | nil => cases he
  | cons x d ih =>
    obtain ⟨hx, hd⟩ := List.pairwise_cons.1 h
    rcases List.mem_cons.1 he with rfl | he
    · have hself : cmp e.1 e.1 = .eq := Std.ReflCmp.compare_self
      rw [get, hself]
    · rw [get, Std.OrientedCmp.gt_of_lt (hx e he)]
      exact ih hd he

end

section
variable [Std.TransCmp cmp] [Std.LawfulEqCmp cmp]

theorem get_eq_some_iff (h : Sorted cmp d) : get cmp d key = some value ↔ (key, value) ∈ d :=
  ⟨mem_of_get, fun he => get_of_mem h he⟩

/-- A dictionary is determined by what it answers. -/
theorem ext : ∀ {d d' : List (K × V)}, Sorted cmp d → Sorted cmp d' →
    (∀ k, get cmp d k = get cmp d' k) → d = d'
  | [], [], _, _, _ => rfl
  | [], x :: d', _, h', heq => by
    have := (heq x.1).trans (get_of_mem h' List.mem_cons_self)
    cases this
  | x :: d, [], h, _, heq => by
    have := (get_of_mem h List.mem_cons_self).symm.trans (heq x.1)
    cases this
  | x :: d, y :: d', h, h', heq => by
    obtain ⟨hx, hd⟩ := List.pairwise_cons.1 h
    obtain ⟨hy, hd'⟩ := List.pairwise_cons.1 h'
    have hxm : (x.1, x.2) ∈ y :: d' := mem_of_get ((heq x.1).symm.trans (get_of_mem h List.mem_cons_self))
    have hym : (y.1, y.2) ∈ x :: d := mem_of_get ((heq y.1).trans (get_of_mem h' List.mem_cons_self))
    -- The smaller of the two heads would be missing on the other side.
    have hxy : x = y := by
      rcases List.mem_cons.1 hxm with hxy | hxd'
      · exact hxy
      · rcases List.mem_cons.1 hym with hyx | hyd
        · exact hyx.symm
        · have hlt := Std.TransCmp.lt_trans (hx _ hyd) (hy _ hxd')
          have hself : cmp x.1 x.1 = .eq := Std.ReflCmp.compare_self
          rw [hself] at hlt
          cases hlt
    subst hxy
    refine congrArg (x :: ·) (ext hd hd' fun k => ?_)
    cases hk : cmp k x.1 with
    | gt =>
      have hkeq := heq k
      rwa [get, get, hk] at hkeq
    | eq =>
      rw [get_eq_none_of_lt fun e he => Std.TransCmp.lt_of_eq_of_lt hk (hx e he),
        get_eq_none_of_lt fun e he => Std.TransCmp.lt_of_eq_of_lt hk (hy e he)]
    | lt =>
      rw [get_eq_none_of_lt fun e he => Std.TransCmp.lt_trans hk (hx e he),
        get_eq_none_of_lt fun e he => Std.TransCmp.lt_trans hk (hy e he)]

end

end SortedDict
