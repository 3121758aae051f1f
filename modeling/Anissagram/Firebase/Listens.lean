import Anissagram.Firebase.FRepo
import Anissagram.Lib.Topmost
/-
# What a device listens to

The server is asked for the topmost views only: a view above others has what they show. When a view comes above others
their listens stop, and when it goes they start again; so at any time there is just one listen above each view
(`Topmost`), and no query is listened to twice, which `FPersistentConnection` asserts.
-/

namespace Anissagram

open PathTree

namespace FSyncTree

variable {tree : FImmutableTree String FView} {p q path : List String} {view : FView}

/-- There is a view at the path. -/
def HasView (tree : FImmutableTree String FView) (p : List String) : Prop := (tree.valueAtPath p).isSome

/-! ## What the tree is searched for -/

/-- A view on the way to the path, as `addEventRegistration:forQuery:` looks for one. -/
theorem forEachOnPath_foundBlock (path : List String) : ∀ (tree : FImmutableTree String FView) (so : List String),
    tree.forEachOnPath foundBlock path so false = true ↔ ∃ q, q <+: path ∧ (tree.valueAtPath q).isSome := by
  induction path with
  | nil =>
    intro tree so
    rw [FImmutableTree.forEachOnPath]
    cases hv : tree.value with
    | none => exact iff_of_false (by simp) (by simp [hv])
    | some view => exact iff_of_true rfl ⟨[], List.prefix_refl _, by rw [FImmutableTree.valueAtPath_nil, hv]; rfl⟩
  | cons k path ih =>
    intro tree so
    cases hv : tree.value with
    | some view =>
      rw [FImmutableTree.forEachOnPath, hv]
      exact iff_of_true rfl ⟨[], List.nil_prefix, by rw [FImmutableTree.valueAtPath_nil, hv]; rfl⟩
    | none =>
      have hstep : tree.forEachOnPath foundBlock (k :: path) so false =
          ((tree.get k).map fun child => child.forEachOnPath foundBlock path (so ++ [k]) false).getD false := by
        rw [FImmutableTree.forEachOnPath, hv]
        dsimp only
        rw [if_pos rfl]
        cases tree.get k <;> rfl
      have hcons : (∃ q, q <+: k :: path ∧ (tree.valueAtPath q).isSome) ↔
          ∃ child, tree.get k = some child ∧ ∃ q, q <+: path ∧ (child.valueAtPath q).isSome := by
        constructor
        · rintro ⟨q, hq, hsome⟩
          cases q with
          | nil =>
            rw [FImmutableTree.valueAtPath_nil, hv] at hsome
            cases hsome
          | cons j q =>
            obtain ⟨rfl, hrest⟩ := List.cons_prefix_cons.1 hq
            rw [FImmutableTree.valueAtPath_cons] at hsome
            cases hc : tree.get j with
            | none =>
              rw [hc] at hsome
              cases hsome
            | some child =>
              rw [hc] at hsome
              exact ⟨child, rfl, q, hrest, hsome⟩
        · rintro ⟨child, hc, q, hq, hsome⟩
          refine ⟨k :: q, List.cons_prefix_cons.2 ⟨rfl, hq⟩, ?_⟩
          rw [FImmutableTree.valueAtPath_cons, hc]
          exact hsome
      rw [hstep, hcons]
      cases hc : tree.get k with
      | none => simp
      | some child => simpa using ih child (so ++ [k])

/-- The topmost views of a tree. -/
theorem mem_collect (h : tree.Sound) : ∀ {so : List String}, view ∈ tree.foldWithPathSoFar collectBlock so ↔
    ∃ r, tree.valueAtPath r = some view ∧ ∀ s, s <+: r → s ≠ r → tree.valueAtPath s = none := by
  induction h with
  | @node syncPoint children sorted nonempty sound ih =>
    intro so
    rw [FImmutableTree.foldWithPathSoFar, FImmutableTree.foldChildren_eq]
    cases syncPoint with
    | some root =>
      constructor
      · intro hmem
        obtain rfl := List.mem_singleton.1 hmem
        exact ⟨[], rfl, fun s hs hne => absurd (List.prefix_nil.1 hs) hne⟩
      · rintro ⟨r, hr, habove⟩
        cases r with
        | nil =>
          obtain rfl := Option.some.inj hr
          exact List.mem_singleton_self _
        | cons k r => cases habove [] List.nil_prefix (List.cons_ne_nil k r).symm
    | none =>
      simp only [collectBlock, List.mem_flatMap, List.mem_map]
      constructor
      · rintro ⟨_, ⟨c, hc, rfl⟩, hmem⟩
        obtain ⟨r, hr, habove⟩ := (ih c hc).1 hmem
        have hget : (FImmutableTree.node none children).get c.1 = some c.2 := SortedDict.get_of_mem sorted hc
        refine ⟨c.1 :: r, ?_, fun s hs hne => ?_⟩
        · rw [FImmutableTree.valueAtPath_cons, hget]
          exact hr
        · cases s with
          | nil => rfl
          | cons j s =>
            obtain ⟨rfl, hrest⟩ := List.cons_prefix_cons.1 hs
            rw [FImmutableTree.valueAtPath_cons, hget]
            exact habove s hrest fun heq => hne (by rw [heq])
      · rintro ⟨r, hr, habove⟩
        cases r with
        | nil => cases hr
        | cons k r =>
          rw [FImmutableTree.valueAtPath_cons] at hr
          obtain ⟨c, hc, hr⟩ := Option.bind_eq_some_iff.1 hr
          have hmem : (k, c) ∈ children := SortedDict.mem_of_get hc
          refine ⟨_, ⟨(k, c), hmem, rfl⟩, (ih (k, c) hmem).2 ⟨r, hr, fun s hs hne => ?_⟩⟩
          have hs' := habove (k :: s) (List.cons_prefix_cons.2 ⟨rfl, hs⟩) fun heq => hne (List.cons.inj heq).2
          rw [FImmutableTree.valueAtPath_cons, hc] at hs'
          exact hs'

/-- Each of them is collected once, as their queries are different. -/
theorem nodup_collect (h : tree.Sound) : ∀ {so : List String} (base : List String),
    (∀ r view, tree.valueAtPath r = some view → view.query = base ++ r) →
      ((tree.foldWithPathSoFar collectBlock so).map FView.query).Nodup := by
  induction h with
  | @node syncPoint children sorted nonempty sound ih =>
    intro so base hquery
    have ht : (FImmutableTree.node syncPoint children).Sound := .node sorted nonempty sound
    rw [FImmutableTree.foldWithPathSoFar, FImmutableTree.foldChildren_eq]
    cases syncPoint with
    | some root => exact List.nodup_singleton _
    | none =>
      have hchild : ∀ c ∈ children, ∀ r view, c.2.valueAtPath r = some view → view.query = base ++ [c.1] ++ r := by
        intro c hc r view hview
        have hget : (FImmutableTree.node none children).get c.1 = some c.2 := SortedDict.get_of_mem sorted hc
        rw [List.append_assoc]
        refine hquery (c.1 :: r) view ?_
        rw [FImmutableTree.valueAtPath_cons, hget]
        exact hview
      simp only [collectBlock, List.flatMap_map, List.map_flatMap]
      refine List.nodup_flatMap.2 ⟨fun c hc => ih c hc (base ++ [c.1]) (hchild c hc), ?_⟩
      refine (List.Pairwise.and_mem.1 sorted).imp ?_
      rintro c c' ⟨hc, hc', hlt⟩ query hq hq'
      obtain ⟨view, hview, rfl⟩ := List.mem_map.1 hq
      obtain ⟨view', hview', heq⟩ := List.mem_map.1 hq'
      obtain ⟨r, hr, -⟩ := (mem_collect (sound c hc)).1 hview
      obtain ⟨r', hr', -⟩ := (mem_collect (sound c' hc')).1 hview'
      rw [hchild c hc r view hr, hchild c' hc' r' view' hr', List.append_assoc, List.append_assoc] at heq
      have hkey : c.1 = c'.1 := (List.cons.inj (List.append_cancel_left heq)).1.symm
      have hself : compare c'.1 c'.1 = .eq := Std.ReflCmp.compare_self
      rw [hkey, hself] at hlt
      cases hlt

/-- Below the root it is the queries of the collected views. -/
theorem fold_stopBlock (h : tree.Sound) : ∀ {so : List String}, so ≠ [] →
    tree.foldWithPathSoFar stopBlock so = (tree.foldWithPathSoFar collectBlock so).map FView.query := by
  induction h with
  | @node syncPoint children sorted nonempty sound ih =>
    intro so hso
    obtain ⟨k, so, rfl⟩ := List.exists_cons_of_ne_nil hso
    rw [FImmutableTree.foldWithPathSoFar, FImmutableTree.foldChildren_eq, FImmutableTree.foldWithPathSoFar,
      FImmutableTree.foldChildren_eq]
    cases syncPoint with
    | some view => rfl
    | none =>
      simp only [stopBlock, collectBlock, List.flatMap_map, List.map_flatMap]
      exact List.flatMap_congr fun c hc => ih c hc (by simp)

/-- The topmost views below the root. -/
theorem mem_queriesToStop (h : tree.Sound) : q ∈ queriesToStop tree ↔ ∃ r view, r ≠ [] ∧
    tree.valueAtPath r = some view ∧ (∀ s, s <+: r → s ≠ r → s ≠ [] → tree.valueAtPath s = none) ∧
      q = view.query := by
  obtain ⟨syncPoint, children⟩ := tree
  have hroot : (FImmutableTree.node syncPoint children).foldWithPathSoFar stopBlock [] =
      children.flatMap fun c => (c.2.foldWithPathSoFar collectBlock [c.1]).map FView.query := by
    rw [FImmutableTree.foldWithPathSoFar, FImmutableTree.foldChildren_eq]
    have hblock : ∀ childMap, stopBlock [] syncPoint childMap = childMap.flatMap fun child => child.2 := by
      intro childMap
      cases syncPoint <;> rfl
    rw [hblock, List.flatMap_map]
    exact List.flatMap_congr fun c hc => fold_stopBlock (h.children c hc) (by simp)
  rw [queriesToStop, FImmutableTree.foldWithBlock, hroot, List.mem_flatMap]
  constructor
  · rintro ⟨c, hc, hq⟩
    obtain ⟨view, hview, rfl⟩ := List.mem_map.1 hq
    obtain ⟨r, hr, habove⟩ := (mem_collect (h.children c hc)).1 hview
    have hget : (FImmutableTree.node syncPoint children).get c.1 = some c.2 := SortedDict.get_of_mem h.sorted hc
    refine ⟨c.1 :: r, view, List.cons_ne_nil _ _, ?_, fun s hs hne hnil => ?_, rfl⟩
    · rw [FImmutableTree.valueAtPath_cons, hget]
      exact hr
    · obtain ⟨j, s, rfl⟩ := List.exists_cons_of_ne_nil hnil
      obtain ⟨rfl, hrest⟩ := List.cons_prefix_cons.1 hs
      rw [FImmutableTree.valueAtPath_cons, hget]
      exact habove s hrest fun heq => hne (by rw [heq])
  · rintro ⟨r, view, hne, hr, habove, rfl⟩
    obtain ⟨k, r, rfl⟩ := List.exists_cons_of_ne_nil hne
    rw [FImmutableTree.valueAtPath_cons] at hr
    obtain ⟨c, hc, hr⟩ := Option.bind_eq_some_iff.1 hr
    have hmem : (k, c) ∈ children := SortedDict.mem_of_get hc
    refine ⟨(k, c), hmem, List.mem_map.2 ⟨view, (mem_collect (h.children _ hmem)).2 ⟨r, hr, fun s hs hne => ?_⟩, rfl⟩⟩
    have hs' := habove (k :: s) (List.cons_prefix_cons.2 ⟨rfl, hs⟩) (fun heq => hne (List.cons.inj heq).2)
      (List.cons_ne_nil _ _)
    rw [FImmutableTree.valueAtPath_cons, hc] at hs'
    exact hs'

/-! ## What the requests make of the listens -/

theorem answerRequests_stop (queries : List (List String)) : ∀ listens : Finset (List String),
    ∃ listens', FRepo.answerRequests listens (queries.map .stopListening) = some listens' ∧
      ∀ q, q ∈ listens' ↔ q ∈ listens ∧ q ∉ queries := by
  induction queries with
  | nil => exact fun listens => ⟨listens, rfl, by simp⟩
  | cons query queries ih =>
    intro listens
    obtain ⟨listens', h, hmem⟩ := ih (FRepo.unlisten listens query)
    refine ⟨listens', h, fun q => (hmem q).trans ?_⟩
    rw [FRepo.unlisten, Finset.mem_erase, List.mem_cons]
    tauto

/-- New queries, each once, and then other requests. -/
theorem answerRequests_start {queries : List (List String)} (requests : List FListenRequest) (hnodup : queries.Nodup) :
    ∀ {listens : Finset (List String)}, (∀ q ∈ queries, q ∉ listens) →
      FRepo.answerRequests listens (queries.map .startListening ++ requests) =
        FRepo.answerRequests (listens ∪ queries.toFinset) requests := by
  induction queries with
  | nil => simp
  | cons query queries ih =>
    intro listens hnew
    obtain ⟨hquery, hnodup⟩ := List.nodup_cons.1 hnodup
    have hlisten : FRepo.listen listens query = some (insert query listens) :=
      if_neg (hnew query List.mem_cons_self)
    rw [List.map_cons, List.cons_append, FRepo.answerRequests, hlisten]
    refine (ih hnodup fun q hq hmem => ?_).trans ?_
    · rcases Finset.mem_insert.1 hmem with rfl | hmem
      · exact hquery hq
      · exact hnew q (List.mem_cons_of_mem _ hq) hmem
    · congr 1
      ext q
      simp only [Finset.mem_union, Finset.mem_insert, List.mem_toFinset, List.mem_cons]
      tauto

/-! ## Observers come and go -/

section
variable {t : FSyncTree} {listens : Finset (List String)}

/-- Views are where their queries are. -/
def Queried (tree : FImmutableTree String FView) : Prop := ∀ p view, tree.valueAtPath p = some view → view.query = p

theorem hasView_setValue (view : FView) : HasView (tree.setValue view path) = fun q => q = path ∨ HasView tree q := by
  funext q
  rw [HasView, HasView, FImmutableTree.valueAtPath_setValue]
  split <;> simp [*]

theorem hasView_removeValueAtPath (h : tree.Sound) :
    HasView (tree.removeValueAtPath path) = fun q => q ≠ path ∧ HasView tree q := by
  funext q
  rw [HasView, HasView, FImmutableTree.valueAtPath_removeValueAtPath h]
  split <;> simp [*]

/-- The topmost views strictly below a path that no view is above. -/
theorem topmost_below (hquery : Queried tree) (hcovered : ¬ ∃ r, r <+: path ∧ HasView tree r) :
    (∃ r view, r ≠ [] ∧ (tree.subtreeAtPath path).valueAtPath r = some view ∧
        (∀ s, s <+: r → s ≠ r → s ≠ [] → (tree.subtreeAtPath path).valueAtPath s = none) ∧ q = view.query) ↔
      path <+: q ∧ Topmost (HasView tree) q := by
  simp only [FImmutableTree.valueAtPath_subtreeAtPath]
  constructor
  · rintro ⟨r, view, -, hview, habove, rfl⟩
    rw [hquery _ _ hview]
    refine ⟨List.prefix_append _ _, (topmost_append hcovered).2 ⟨by rw [HasView, hview]; rfl, fun s hs hne hnil => ?_⟩⟩
    rw [HasView, habove s hs hne hnil]
    simp
  · rintro ⟨⟨r, rfl⟩, htop⟩
    obtain ⟨hhas, habove⟩ := (topmost_append hcovered).1 htop
    obtain ⟨view, hview⟩ := Option.isSome_iff_exists.1 hhas
    refine ⟨r, view, ?_, hview, fun s hs hne hnil => Option.not_isSome_iff_eq_none.1 (habove s hs hne hnil),
      (hquery _ _ hview).symm⟩
    rintro rfl
    rw [List.append_nil] at hhas
    exact hcovered ⟨path, List.prefix_refl _, hhas⟩

/-- An observer comes. -/
theorem listens_addEventRegistration (hsound : t.syncPointTree.Sound) (hquery : Queried t.syncPointTree)
    (hlistens : ∀ q, q ∈ listens ↔ Topmost (HasView t.syncPointTree) q) (handle : Nat) (path : List String) :
    ∃ listens', FRepo.answerRequests listens (t.addEventRegistration handle path).2.2 = some listens' ∧
      ∀ q, q ∈ listens' ↔ Topmost (HasView (t.addEventRegistration handle path).1.syncPointTree) q := by
  have hfound := forEachOnPath_foundBlock path t.syncPointTree []
  cases hv : t.syncPointTree.valueAtPath path with
  | some view =>
    have hadd := t.addEventRegistration_of_some handle hv
    have hhas : HasView (t.syncPointTree.setValue (FSyncPoint.addEventRegistration view handle).1 path) =
        HasView t.syncPointTree := by
      rw [hasView_setValue]
      funext q
      refine propext (or_iff_right_of_imp ?_)
      rintro rfl
      rw [HasView, hv]
      rfl
    rw [hadd]
    exact ⟨listens, rfl, fun q => by rw [hlistens, hhas]⟩
  | none =>
    have hadd := t.addEventRegistration_of_none handle hv
    generalize (t.newView handle path).1 = view at hadd
    have hpath : ¬ HasView t.syncPointTree path := by
      rw [HasView, hv]
      simp
    rw [hadd]
    dsimp only
    rw [hasView_setValue]
    by_cases hcovered : ∃ r, r <+: path ∧ HasView t.syncPointTree r
    · rw [if_pos (hfound.2 hcovered)]
      exact ⟨listens, rfl, fun q => by rw [hlistens, topmost_insert_of_covered hcovered hpath]⟩
    · rw [if_neg fun h => hcovered (hfound.1 h)]
      have hnew : path ∉ listens := fun hmem => hpath ((hlistens path).1 hmem).1
      have hlisten : FRepo.listen listens path = some (insert path listens) := if_neg hnew
      obtain ⟨listens', hanswer, hmem⟩ := answerRequests_stop
        (queriesToStop ((t.syncPointTree.setValue view path).subtreeAtPath path)) (insert path listens)
      refine ⟨listens', ?_, fun q => ?_⟩
      · rw [setupListenerOnQuery, FRepo.answerRequests, hlisten]
        exact hanswer
      · -- the views that stop are the topmost ones below
        have hsub : ∀ r, r ≠ [] → ((t.syncPointTree.setValue view path).subtreeAtPath path).valueAtPath r =
            (t.syncPointTree.subtreeAtPath path).valueAtPath r := by
          intro r hr
          rw [FImmutableTree.valueAtPath_subtreeAtPath, FImmutableTree.valueAtPath_subtreeAtPath,
            FImmutableTree.valueAtPath_setValue, if_neg fun h => hr (List.append_right_eq_self.1 h)]
        have hstop : q ∈ queriesToStop ((t.syncPointTree.setValue view path).subtreeAtPath path) ↔
            path <+: q ∧ Topmost (HasView t.syncPointTree) q := by
          rw [mem_queriesToStop ((hsound.setValue view path).subtreeAtPath path), ← topmost_below hquery hcovered]
          refine exists_congr fun r => exists_congr fun view => and_congr_right fun hr => ?_
          rw [hsub r hr]
          refine and_congr_right fun _ => and_congr_left fun _ => ?_
          refine forall_congr' fun s => forall_congr' fun _ => forall_congr' fun _ => forall_congr' fun hs => ?_
          rw [hsub s hs]
        rw [hmem, hstop, topmost_insert hcovered, Finset.mem_insert, hlistens]
        constructor
        · rintro ⟨rfl | htop, hnot⟩
          · exact Or.inl rfl
          · exact Or.inr ⟨htop, fun hpq => hnot ⟨hpq, htop⟩⟩
        · rintro (rfl | ⟨htop, hnot⟩)
          · exact ⟨Or.inl rfl, fun h => hpath h.2.1⟩
          · exact ⟨Or.inr htop, fun h => hnot h.1⟩

/-- An observer, or all of them, go. -/
theorem listens_removeEventRegistration (hsound : t.syncPointTree.Sound) (hquery : Queried t.syncPointTree)
    (handle : Option Nat) (path : List String) (cancelError : Bool)
    (hlistens : ∀ q, q ∈ listens ↔ Topmost (HasView t.syncPointTree) q ∧ (cancelError = true → q ≠ path))
    (hcancel : cancelError = true → handle = none ∧ Topmost (HasView t.syncPointTree) path) :
    ∃ listens', FRepo.answerRequests listens (t.removeEventRegistration handle path cancelError).2 = some listens' ∧
      ∀ q, q ∈ listens' ↔ Topmost (HasView (t.removeEventRegistration handle path cancelError).1.syncPointTree) q := by
  have hsame : cancelError = false → ∀ q, q ∈ listens ↔ Topmost (HasView t.syncPointTree) q := by
    intro hno q
    rw [hlistens, hno]
    simp
  cases hv : t.syncPointTree.valueAtPath path with
  | none =>
    have hremove : t.removeEventRegistration handle path cancelError = (t, []) := by
      simp only [removeEventRegistration, hv]
    rw [hremove]
    refine ⟨listens, rfl, hsame ?_⟩
    by_contra hc
    have htop := (hcancel (by simpa using hc)).2.1
    rw [HasView, hv] at htop
    cases htop
  | some view =>
    cases hempty : (view.removeEventRegistration handle).isEmpty with
    | false =>
      have hremove : t.removeEventRegistration handle path cancelError =
          ({ t with syncPointTree := t.syncPointTree.setValue (view.removeEventRegistration handle) path }, []) := by
        simp only [removeEventRegistration, hv, hempty]
        rfl
      have hhas : HasView (t.syncPointTree.setValue (view.removeEventRegistration handle) path) =
          HasView t.syncPointTree := by
        rw [hasView_setValue]
        funext q
        refine propext (or_iff_right_of_imp ?_)
        rintro rfl
        rw [HasView, hv]
        rfl
      rw [hremove]
      refine ⟨listens, rfl, fun q => ?_⟩
      rw [hhas]
      refine hsame ?_ q
      by_contra hc
      rw [(hcancel (by simpa using hc)).1] at hempty
      cases hempty
    | true =>
      obtain ⟨rest, hrest⟩ : ∃ rest, rest = t.syncPointTree.removeValueAtPath path := ⟨_, rfl⟩
      have hremove : t.removeEventRegistration handle path cancelError = ({ t with syncPointTree := rest },
          if (rest.findOnPath (fun _ view => some (FSyncPoint.hasCompleteView view)) path []).getD false then []
          else (collectDistinctViewsForSubTree (rest.subtreeAtPath path)).map (fun view => .startListening view.query) ++
            if cancelError then [] else [.stopListening path]) := by
        simp only [removeEventRegistration, hv, hempty, if_true, hrest]
        split <;> rfl
      have hrestSound : rest.Sound := hrest ▸ hsound.removeValueAtPath path
      have hrestHas : HasView rest = fun q => q ≠ path ∧ HasView t.syncPointTree q := by
        rw [hrest, hasView_removeValueAtPath hsound]
      have hpath : ¬ HasView rest path := by
        rw [hrestHas]
        simp
      have hhere : HasView t.syncPointTree path := by
        rw [HasView, hv]
        rfl
      have hbefore : HasView t.syncPointTree = fun q => q = path ∨ HasView rest q := by
        rw [hrestHas]
        funext q
        by_cases hq : q = path
        · simp [hq, hhere]
        · simp [hq]
      have hcoveredIff : (rest.findOnPath (fun _ view => some (FSyncPoint.hasCompleteView view)) path []).getD false =
          true ↔ ∃ r, r <+: path ∧ HasView rest r := by
        cases hfind : rest.findOnPath (fun _ view => some (FSyncPoint.hasCompleteView view)) path [] with
        | none =>
          refine iff_of_false (by simp) ?_
          rintro ⟨r, hr, hhas⟩
          obtain ⟨view, hview⟩ := Option.isSome_iff_exists.1 hhas
          cases FImmutableTree.of_findOnPath_none hfind r view hr hview
        | some found =>
          obtain ⟨r, view, hr, hview, heq⟩ := FImmutableTree.of_findOnPath_some hfind
          obtain rfl := Option.some.inj heq
          exact iff_of_true rfl ⟨r, hr, by rw [HasView, hview]; rfl⟩
      rw [hremove]
      dsimp only
      by_cases hcovered : ∃ r, r <+: path ∧ HasView rest r
      · rw [if_pos (hcoveredIff.2 hcovered)]
        refine ⟨listens, rfl, fun q => ?_⟩
        rw [← topmost_insert_of_covered hcovered hpath, ← hbefore]
        refine hsame ?_ q
        -- the listen of a view below another one cannot have failed
        by_contra hc
        obtain ⟨r, hr, hhas⟩ := hcovered
        have hrhas : HasView t.syncPointTree r := by
          rw [hbefore]
          exact Or.inr hhas
        exact (hcancel (by simpa using hc)).2.2 r hr (fun heq => hpath (heq ▸ hhas)) hrhas
      · rw [if_neg fun h => hcovered (hcoveredIff.1 h)]
        have hrestQuery : Queried rest := by
          intro p view hview
          refine hquery p view ?_
          rw [hrest, FImmutableTree.valueAtPath_removeValueAtPath hsound] at hview
          split at hview
          · cases hview
          · exact hview
        have hsub := hrestSound.subtreeAtPath path
        have hcollect : ∀ q, q ∈ (collectDistinctViewsForSubTree (rest.subtreeAtPath path)).map FView.query ↔
            path <+: q ∧ Topmost (HasView rest) q := by
          intro q
          have hroot : (rest.subtreeAtPath path).valueAtPath [] = none := by
            rw [FImmutableTree.valueAtPath_subtreeAtPath, List.append_nil]
            exact Option.not_isSome_iff_eq_none.1 hpath
          rw [← topmost_below hrestQuery hcovered, List.mem_map]
          constructor
          · rintro ⟨view, hview, rfl⟩
            obtain ⟨r, hr, habove⟩ := (mem_collect hsub).1 hview
            refine ⟨r, view, ?_, hr, fun s hs hne _ => habove s hs hne, rfl⟩
            rintro rfl
            rw [hroot] at hr
            cases hr
          · rintro ⟨r, view, -, hr, habove, rfl⟩
            refine ⟨view, (mem_collect hsub).2 ⟨r, hr, fun s hs hne => ?_⟩, rfl⟩
            by_cases hs' : s = []
            · rw [hs', hroot]
            · exact habove s hs hne hs'
        have hnodup : ((collectDistinctViewsForSubTree (rest.subtreeAtPath path)).map FView.query).Nodup := by
          refine nodup_collect hsub path fun r view hview => ?_
          rw [FImmutableTree.valueAtPath_subtreeAtPath] at hview
          exact hrestQuery _ view hview
        have htop : ∀ q, Topmost (HasView t.syncPointTree) q ↔ q = path ∨ (Topmost (HasView rest) q ∧ ¬ path <+: q) := by
          intro q
          rw [hbefore, topmost_insert hcovered]
        have hnew : ∀ q ∈ (collectDistinctViewsForSubTree (rest.subtreeAtPath path)).map FView.query, q ∉ listens := by
          intro q hq hmem
          obtain ⟨hpq, hqtop⟩ := (hcollect q).1 hq
          rcases (htop q).1 ((hlistens q).1 hmem).1 with rfl | ⟨-, hno⟩
          · exact hpath hqtop.1
          · exact hno hpq
        have hstarts := answerRequests_start (if cancelError then [] else [.stopListening path]) hnodup hnew
        rw [List.map_map] at hstarts
        have hleft : ∀ q, Topmost (HasView rest) q ↔ q ≠ path ∧ (q ∈ listens ∨
            q ∈ (collectDistinctViewsForSubTree (rest.subtreeAtPath path)).map FView.query) := by
          intro q
          have hne : Topmost (HasView rest) q → q ≠ path := by
            rintro hq rfl
            exact hpath hq.1
          rw [hlistens, hcollect, htop]
          tauto
        cases cancelError with
        | false =>
          refine ⟨_, hstarts, fun q => ?_⟩
          rw [hleft, FRepo.unlisten, Finset.mem_erase, Finset.mem_union, List.mem_toFinset]
        | true =>
          refine ⟨_, hstarts, fun q => ?_⟩
          have hne : q ∈ listens ∪ ((collectDistinctViewsForSubTree (rest.subtreeAtPath path)).map
              FView.query).toFinset → q ≠ path := by
            rw [Finset.mem_union, List.mem_toFinset]
            rintro (hq | hq)
            · exact ((hlistens q).1 hq).2 rfl
            · rintro rfl
              exact hpath ((hcollect q).1 hq).2.1
          rw [hleft, ← List.mem_toFinset, ← Finset.mem_union]
          exact ⟨fun hq => ⟨hne hq, hq⟩, And.right⟩

end

end FSyncTree

end Anissagram
