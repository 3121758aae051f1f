import Anissagram.Memories
import Anissagram.Relaunch
/-
# Views before the session (`Views/MainViews/ProfileView.swift`, `ContentView.swift`)

The tab view is shown as soon as Firebase Auth has an account. The session comes later, with the first event of the
observer that `load` adds, or never. `save` (`ContentView.swift:78`) unwraps the session where it was just seen to be
there; `fetchDataFromLastConvo` (`ProfileView.swift:19`) unwraps it whenever `NothingToDisplayView` appears.

| here | there |
| --- | --- |
| `ProfileView.branch`        | what `body` shows below the header, while the view is on the screen |
| `ProfileAction.appear`      | the tab is selected, or `EditProfileView` is left |
| `Effect (Option User)`      | a piece of code with the values that its `session.session!` unwrap |

In which order the `onAppear` of `NothingToDisplayView` (:53) and that of the whole view (:67) run is not fixed.
-/

namespace Anissagram

open PathTree Runs

inductive ProfileBranch where
  | blocks
  | nothingToDisplay
deriving DecidableEq

structure ProfileView where
  lastConversation : String
  branch : Option ProfileBranch

namespace ProfileView

/-- A view that was just made. -/
def new : ProfileView := ⟨loading, none⟩

/-- `onAppear` of the whole view (:67). -/
def onAppear (v : ProfileView) (s : SessionStore) : ProfileView :=
  match s.session with
  | some user => if v.lastConversation = loading then { v with lastConversation := user.userName } else v
  | none => v

/-- `onAppear` of `NothingToDisplayView` (:53). -/
def fetch (v : ProfileView) (s : SessionStore) : Effect (Option User) SessionStore :=
  ⟨[s.session], fetchDataFromLastConvo s v.lastConversation⟩

/-- One evaluation of `body` (:30) on the screen. `NothingToDisplayView` appears where it was not shown before; what
it fetches is shown next. -/
def render (v : ProfileView) (s : SessionStore) : Effect (Option User) (ProfileView × SessionStore) :=
  if (s.downloadedRelationships v.lastConversation).isSome then pure ({ v with branch := some .blocks }, s)
  else if v.branch = some .nothingToDisplay then pure (v, s)
  else do
    let s ← v.fetch s
    pure ({ v with branch := some .blocks }, s)

/-- The view comes on the screen. -/
def appear (v : ProfileView) (s : SessionStore) (innerFirst : Bool) :
    Effect (Option User) (ProfileView × SessionStore) :=
  if (s.downloadedRelationships v.lastConversation).isSome then
    ({ v with branch := some .blocks }.onAppear s).render s
  else
    let v := { v with branch := some .nothingToDisplay }
    if innerFirst then do
      let s ← v.fetch s
      (v.onAppear s).render s
    else do
      let s' ← (v.onAppear s).fetch s
      (v.onAppear s).render s'

end ProfileView

namespace Phone

/-- What `save` (:79) unwraps, where an evaluation of `ContentView.body` calls it. -/
def saveUnwraps (p : Phone) (q : Process) : List (Option User) :=
  match p.currentUser with
  | none => []
  | some _ => if q.tabs ∨ q.store.session.isNone then [] else [q.store.session]

def unwraps (p : Phone) : PhoneAction → List (Option User)
  | .render => (p.process.map p.saveUnwraps).getD []
  | .launch => p.saveUnwraps Process.fresh
  | _ => []

/-- Whether a user has come with an action, or has gone. -/
def arrives (p : Phone) : PhoneAction → Option Bool
  | .complete i => do
    let q ← p.process
    match ← q.completions[i]? with
    | .signUp _ _ _ _ => some true
    | .signIn _ => none
  | .deliver j snapshot => do
    let q ← p.process
    let o ← q.observers[j]?
    if (o.decoded snapshot).isSome then some true else none
  | .signOut true => some false
  | .launch => some false
  | _ => none

end Phone

/-- The phone, and its `ProfileView` since the tab view is shown and the tab was first selected. -/
structure PhoneScreen where
  phone : Phone
  profile : Option ProfileView

inductive ProfileAction where
  | phone (a : PhoneAction)
  | appear (innerFirst : Bool)
  | disappear
  /-- A name of the picker is tapped, whatever names it shows. -/
  | pick (name : String)
  /-- `Add post` (`EditProfileView.swift:102`). -/
  | addPost (newUUID lastType textInput : String)

namespace PhoneScreen

def installed : PhoneScreen := ⟨Phone.installed, none⟩

/-- The process that shows the tab view, with its `ProfileView`. -/
def mems (x : PhoneScreen) : Option (Process × ProfileView) := do
  let q ← x.phone.process
  if q.tabs then some (q, x.profile.getD .new) else none

def after (x : PhoneScreen) (q : Process) (r : ProfileView × SessionStore) : PhoneScreen :=
  ⟨{ x.phone with process := some { q with store := r.2 } }, some r.1⟩

def run (x : PhoneScreen) : ProfileAction → Option (Effect (Option User) PhoneScreen)
  | .phone a => (x.phone.step a).map fun p =>
    ⟨x.phone.unwraps a, some ⟨p, if p.process.any Process.tabs then x.profile else none⟩⟩
  | .appear innerFirst => do
    let (q, v) ← x.mems
    if v.branch.isNone then some do let r ← v.appear q.store innerFirst; pure (x.after q r) else none
  | .disappear => do
    let (q, v) ← x.mems
    if v.branch.isSome then some (pure (x.after q ({ v with branch := none }, q.store))) else none
  | .pick name => do
    let (q, v) ← x.mems
    if v.branch.isSome then
      some do let r ← { v with lastConversation := name }.render q.store; pure (x.after q r)
    else none
  | .addPost newUUID lastType textInput => do
    let (q, v) ← x.mems
    if v.branch.isNone then
      some (pure (x.after q (v, q.store.addBlock v.lastConversation (MemoryOp.post newUUID lastType textInput))))
    else none

/-- A trap ends the process. -/
def step (x : PhoneScreen) (a : ProfileAction) : Option PhoneScreen :=
  (x.run a).map fun e => e.value.getD ⟨{ x.phone with process := none }, none⟩

/-- What is unwrapped by force in an action. -/
def unwraps (x : PhoneScreen) (a : ProfileAction) : List (Option User) := ((x.run a).map Effect.issued).getD []

/-- `NothingToDisplayView` appears: the view comes on the screen, or leaves its blocks, for a name without any. -/
def Appears (x : PhoneScreen) : ProfileAction → Prop
  | .appear _ => ∃ m ∈ x.mems, m.2.branch.isNone ∧ (m.1.store.downloadedRelationships m.2.lastConversation).isNone
  | .pick name => ∃ m ∈ x.mems, m.2.branch = some .blocks ∧ (m.1.store.downloadedRelationships name).isNone
  | _ => False

instance (x : PhoneScreen) (a : ProfileAction) : Decidable (x.Appears a) :=
  match a with
  | .appear _ => inferInstanceAs (Decidable (∃ m ∈ x.mems, m.2.branch.isNone ∧
      (m.1.store.downloadedRelationships m.2.lastConversation).isNone))
  | .pick name => inferInstanceAs (Decidable (∃ m ∈ x.mems, m.2.branch = some .blocks ∧
      (m.1.store.downloadedRelationships name).isNone))
  | .phone _ | .disappear | .addPost _ _ _ => isFalse id

def arrives (x : PhoneScreen) : ProfileAction → Option Bool
  | .phone a => x.phone.arrives a
  | _ => none

end PhoneScreen

/-! ## What the view unwraps -/

section
variable {s s' : SessionStore} {v : ProfileView}

theorem ProfileView.fetch_session (h : s' ∈ (v.fetch s).value) : s'.session = s.session := by
  obtain ⟨user, hu, rfl⟩ := Option.map_eq_some_iff.1 h
  rfl

/-- Only where `NothingToDisplayView` appears a session is unwrapped. -/
theorem ProfileView.render_issued (v : ProfileView) (s : SessionStore) :
    (v.render s).issued =
      if (s.downloadedRelationships v.lastConversation).isSome ∨ v.branch = some .nothingToDisplay then []
      else [s.session] := by
  unfold render
  by_cases hblocks : (s.downloadedRelationships v.lastConversation).isSome
  · simp [hblocks]
  by_cases hbranch : v.branch = some .nothingToDisplay
  · simp [hblocks, hbranch]
  rw [if_neg hblocks, if_neg hbranch, if_neg (by tauto)]
  cases hs : s.session <;> simp [fetch, fetchDataFromLastConvo, hs, Bind.bind]

theorem ProfileView.render_session (v : ProfileView) (s : SessionStore) :
    ∀ r ∈ (v.render s).value, r.2.session = s.session := by
  unfold render
  split
  · rintro r ⟨rfl⟩
    rfl
  · split
    · rintro r ⟨rfl⟩
      rfl
    · intro r hr
      rw [Effect.bind_value] at hr
      obtain ⟨s', hs', hr⟩ := Option.bind_eq_some_iff.1 hr
      cases hr
      exact fetch_session hs'

theorem ProfileView.mem_render_issued {u : Option User} (h : u ∈ (v.render s).issued) : u = s.session := by
  rw [render_issued] at h
  split at h
  · cases h
  · exact List.mem_singleton.1 h

theorem ProfileView.appear_session (v : ProfileView) (s : SessionStore) (innerFirst : Bool) :
    ∀ r ∈ (v.appear s innerFirst).value, r.2.session = s.session := by
  intro r hr
  unfold appear at hr
  split at hr
  · exact render_session _ _ r hr
  · dsimp only at hr
    split at hr <;>
    · rw [Effect.bind_value] at hr
      obtain ⟨s', hs', hr⟩ := Option.bind_eq_some_iff.1 hr
      rw [render_session _ _ r hr, fetch_session hs']

/-- **The view comes on the screen** without a trap exactly when there is a session or there are blocks to show. -/
theorem ProfileView.appear_unwraps_iff (v : ProfileView) (s : SessionStore) (innerFirst : Bool) :
    (∀ u ∈ (v.appear s innerFirst).issued, u.isSome) ↔
      ((s.downloadedRelationships v.lastConversation).isNone → s.session.isSome) := by
  have hfetch : ∀ {v' : ProfileView} {f : SessionStore → Effect (Option User) (ProfileView × SessionStore)},
      (∀ s' ∈ (v'.fetch s).value, ∀ u ∈ (f s').issued, u = s'.session) →
      ((∀ u ∈ (v'.fetch s >>= f).issued, u.isSome) ↔ s.session.isSome) := by
    intro v' f hf
    refine ⟨fun h => h _ (Effect.mem_bind_issued.2 (Or.inl (List.mem_singleton.2 rfl))), fun h u hu => ?_⟩
    rcases Effect.mem_bind_issued.1 hu with hu | ⟨s', hs', hu⟩
    · rwa [List.mem_singleton.1 hu]
    · rwa [hf s' hs' u hu, fetch_session hs']
  unfold appear
  by_cases hblocks : (s.downloadedRelationships v.lastConversation).isSome
  · rw [if_pos hblocks]
    refine iff_of_true (fun u hu => ?_) fun hnone => ?_
    · cases hs : s.session with
      | some user =>
        rw [mem_render_issued hu, hs]
        rfl
      | none =>
        -- then the view stays at the name that has blocks
        simp [onAppear, hs, render_issued, hblocks] at hu
    · rw [Option.isNone_iff_eq_none.1 hnone] at hblocks
      cases hblocks
  · rw [if_neg hblocks]
    have hnone : (s.downloadedRelationships v.lastConversation).isNone := by simpa using hblocks
    cases innerFirst with
    | true => exact (hfetch fun s' _ u hu => mem_render_issued hu).trans ⟨fun h _ => h, fun h => h hnone⟩
    | false => exact (hfetch fun s' _ u hu => mem_render_issued hu).trans ⟨fun h _ => h, fun h => h hnone⟩

end

/-! ## One action -/

section
variable {p p' : Phone} {b : Bool}

/-- `save` is called only where there is a session. -/
theorem Phone.unwraps_isSome (p : Phone) (a : PhoneAction) : ∀ u ∈ p.unwraps a, u.isSome := by
  have hsave : ∀ q, ∀ u ∈ p.saveUnwraps q, u.isSome := by
    intro q u hu
    unfold saveUnwraps at hu
    split at hu
    · cases hu
    · split at hu
      · cases hu
      · rename_i hno
        obtain rfl := List.mem_singleton.1 hu
        simpa [Option.isSome_iff_ne_none] using (not_or.1 hno).2
  intro u hu
  cases a with
  | render =>
    unfold unwraps at hu
    cases hq : p.process with
    | none => simp [hq] at hu
    | some q =>
      simp only [hq, Option.map_some, Option.getD_some] at hu
      exact hsave q u hu
  | launch => exact hsave _ u hu
  | _ => cases hu

theorem Phone.body_session (p : Phone) (q : Process) :
    ∀ q' ∈ (p.body q).process, q'.store.session = q.store.session := by
  intro q' hq'
  unfold body at hq'
  cases hl : p.loads q with
  | none =>
    rw [hl] at hq'
    cases hq'
    rfl
  | some x =>
    rw [hl] at hq'
    obtain ⟨_, -, rfl⟩ := Option.map_eq_some_iff.1 hq'
    rfl

/-- Whether a user is there is what the last action said that brought or took one. -/
theorem Phone.arrives_step {a : PhoneAction} (h : ∀ q ∈ p.process, q.store.session.isSome = b)
    (hs : p.step a = some p') : ∀ q ∈ p'.process, q.store.session.isSome = (p.arrives a).getD b := by
  intro q' hq'
  cases a with
  | accept login =>
    obtain ⟨q, hq, rfl⟩ := step_accept hs
    cases hq'
    exact h q hq
  | complete i =>
    obtain ⟨q, login, hq, hlogin, rfl⟩ := step_complete hs
    cases login with
    | signUp account firstName lastName newUUID =>
      obtain ⟨store, hv, rfl⟩ := Option.map_eq_some_iff.1 hq'
      simp only [SessionStore.signUp] at hv
      split at hv
      · cases hv
        simp [arrives, hq, hlogin]
      · cases hv
    | signIn account =>
      obtain ⟨_, -, rfl⟩ := Option.map_eq_some_iff.1 hq'
      simpa [arrives, hq, hlogin] using h q hq
  | deliver j snapshot =>
    obtain ⟨q, o, hq, ho, rfl⟩ := step_deliver hs
    obtain ⟨store, hv, rfl⟩ := Option.map_eq_some_iff.1 hq'
    rcases o.completion_cases q.store snapshot with ⟨user, tokens, hd, -, -, he⟩ | ⟨-, he⟩ | ⟨hd, -, he⟩
    · rw [he] at hv
      cases hv
      simp [arrives, hq, ho, hd]
    · rw [he] at hv
      cases hv
    · rw [he] at hv
      cases hv
      simpa [arrives, hq, ho, hd] using h q hq
  | render =>
    obtain ⟨q, hq, -, rfl⟩ := step_render hs
    rw [Phone.body_session p q q' hq']
    exact h q hq
  | signOut signedOut =>
    obtain ⟨q, hq, -, rfl⟩ := step_signOut hs
    cases hq'
    cases signedOut with
    | true => rfl
    | false => exact h q hq
  | kill =>
    obtain rfl := step_kill hs
    cases hq'
  | launch =>
    obtain ⟨-, rfl⟩ := step_launch hs
    rw [Phone.body_session p _ q' hq']
    rfl

end

section
variable {x x' : PhoneScreen} {a : ProfileAction} {b : Bool}

theorem PhoneScreen.mems_process {q : Process} {v : ProfileView} (h : x.mems = some (q, v)) :
    x.phone.process = some q := by
  simp only [mems, Option.bind_eq_bind, Option.bind_eq_some_iff, Option.ite_none_right_eq_some, Option.some.injEq,
    Prod.mk.injEq] at h
  obtain ⟨_, hq, -, rfl, -⟩ := h
  exact hq

theorem PhoneScreen.arrives_step (h : ∀ q ∈ x.phone.process, q.store.session.isSome = b)
    (hs : x.step a = some x') : ∀ q ∈ x'.phone.process, q.store.session.isSome = (x.arrives a).getD b := by
  obtain ⟨e, he, rfl⟩ := Option.map_eq_some_iff.1 hs
  -- the view leaves the session as it is, or the process traps
  have hview : ∀ {q : Process} {v : ProfileView} {r : Effect (Option User) (ProfileView × SessionStore)},
      x.mems = some (q, v) → (∀ y ∈ r.value, y.2.session = q.store.session) → x.arrives a = none →
      e = (r >>= fun y => pure (x.after q y)) →
      ∀ q' ∈ (e.value.getD ⟨{ x.phone with process := none }, none⟩).phone.process,
        q'.store.session.isSome = (x.arrives a).getD b := by
    rintro q v r hm hr hno rfl q' hq'
    rw [Effect.bind_value] at hq'
    rw [hno]
    cases hv : r.value with
    | none =>
      rw [hv] at hq'
      cases hq'
    | some y =>
      rw [hv] at hq'
      cases hq'
      rw [Option.getD_none, ← h q (mems_process hm), ← hr y hv]
  cases a with
  | phone a =>
    obtain ⟨p, hp, rfl⟩ := Option.map_eq_some_iff.1 he
    exact Phone.arrives_step h hp
  | appear innerFirst =>
    simp only [run, Option.bind_eq_bind, Option.bind_eq_some_iff, Option.ite_none_right_eq_some, Option.some.injEq] at he
    obtain ⟨⟨q, v⟩, hm, -, rfl⟩ := he
    exact hview hm (v.appear_session q.store innerFirst) rfl rfl
  | disappear =>
    simp only [run, Option.bind_eq_bind, Option.bind_eq_some_iff, Option.ite_none_right_eq_some, Option.some.injEq] at he
    obtain ⟨⟨q, v⟩, hm, -, rfl⟩ := he
    refine hview (r := pure ({ v with branch := none }, q.store)) hm ?_ rfl (Effect.pure_bind _ _).symm
    rintro y ⟨rfl⟩
    rfl
  | pick name =>
    simp only [run, Option.bind_eq_bind, Option.bind_eq_some_iff, Option.ite_none_right_eq_some, Option.some.injEq] at he
    obtain ⟨⟨q, v⟩, hm, -, rfl⟩ := he
    exact hview hm (ProfileView.render_session _ q.store) rfl rfl
  | addPost newUUID lastType textInput =>
    simp only [run, Option.bind_eq_bind, Option.bind_eq_some_iff, Option.ite_none_right_eq_some, Option.some.injEq] at he
    obtain ⟨⟨q, v⟩, hm, -, rfl⟩ := he
    refine hview (r := pure (v, q.store.addBlock v.lastConversation (MemoryOp.post newUUID lastType textInput))) hm ?_
      rfl (Effect.pure_bind _ _).symm
    rintro y ⟨rfl⟩
    cases hs : q.store.session <;> simp [SessionStore.addBlock, hs]

/-- **One action** unwraps a session that is there exactly when `NothingToDisplayView` appears in it only with one. -/
theorem PhoneScreen.unwraps_iff (h : ∀ q ∈ x.phone.process, q.store.session.isSome = b) :
    (∀ u ∈ x.unwraps a, u.isSome) ↔ (x.Appears a → b = true) := by
  have hview : ∀ {q : Process} {r : Effect (Option User) (ProfileView × SessionStore)} {u : Option User},
      u ∈ (r >>= fun y => (pure (x.after q y) : Effect (Option User) PhoneScreen)).issued ↔ u ∈ r.issued := by
    intro q r u
    rw [Effect.mem_bind_issued]
    simp
  cases a with
  | phone a =>
    refine iff_of_true (fun u hu => ?_) False.elim
    cases hs : x.phone.step a with
    | none => simp [unwraps, run, hs] at hu
    | some p =>
      simp only [unwraps, run, hs, Option.map_some, Option.getD_some] at hu
      exact Phone.unwraps_isSome x.phone a u hu
  | appear innerFirst =>
    cases hm : x.mems with
    | none => simp [unwraps, run, Appears, hm]
    | some m =>
      obtain ⟨q, v⟩ := m
      cases hbranch : v.branch with
      | none =>
        simp only [unwraps, run, Appears, hm, hbranch, Option.bind_eq_bind, Option.bind_some, Option.isNone_none, if_true,
          Option.map_some, Option.getD_some, hview, v.appear_unwraps_iff, h q (mems_process hm), Option.mem_some_iff,
          exists_eq_left', true_and]
      | some branch => simp [unwraps, run, Appears, hm, hbranch]
  | disappear =>
    refine iff_of_true (fun u hu => ?_) False.elim
    cases hm : x.mems with
    | none => simp [unwraps, run, hm] at hu
    | some m => cases hbranch : m.2.branch <;> simp [unwraps, run, hm, hbranch] at hu
  | pick name =>
    cases hm : x.mems with
    | none => simp [unwraps, run, Appears, hm]
    | some m =>
      obtain ⟨q, v⟩ := m
      cases hbranch : v.branch with
      | none => simp [unwraps, run, Appears, hm, hbranch]
      | some branch =>
        have hsession := h q (mems_process hm)
        simp only [unwraps, run, Appears, hm, hbranch, Option.bind_eq_bind, Option.bind_some, Option.isSome_some, if_true,
          Option.map_some, Option.getD_some, hview, ProfileView.render_issued, Option.mem_some_iff, exists_eq_left']
        cases branch with
        | blocks => cases hblocks : q.store.downloadedRelationships name <;> simp [hsession]
        | nothingToDisplay => simp
  | addPost newUUID lastType textInput =>
    refine iff_of_true (fun u hu => ?_) False.elim
    cases hm : x.mems with
    | none => simp [unwraps, run, hm] at hu
    | some m => cases hbranch : m.2.branch <;> simp [unwraps, run, hm, hbranch] at hu

end

/-! ## Every run -/

/-- **No view needs a session that is not there** exactly when `NothingToDisplayView` appears only after a user has come
since the launch and the last sign-out; whatever was tapped and answered in whatever order. -/
theorem session_there_iff {hist : History PhoneScreen ProfileAction} {x : PhoneScreen}
    (hr : Reach PhoneScreen.step (fun _ _ _ => True) PhoneScreen.installed hist x) (a : ProfileAction) :
    (∀ u ∈ x.unwraps a, u.isSome) ↔ (x.Appears a → lastWord PhoneScreen.arrives hist = true) := by
  refine PhoneScreen.unwraps_iff ?_
  refine hr.lastWord (P := fun x b => ∀ q ∈ x.phone.process, q.store.session.isSome = b) (by rintro q ⟨⟩) ?_
  exact fun _ _ _ _ h hs => PhoneScreen.arrives_step h hs

/-- Alice signs up, and starts the app again. -/
def aliceReturns : List ProfileAction := (aliceAppears ++ [PhoneAction.kill, .launch]).map .phone

/-- Her session comes, she looks at her memories and finds the welcome. -/
theorem session_there_alice :
    ∃ hist x, Reach PhoneScreen.step (fun _ _ _ => True) PhoneScreen.installed hist x ∧
      x.Appears (.appear false) ∧ x.unwraps (.appear false) ≠ [] ∧ ∀ u ∈ x.unwraps (.appear false), u.isSome := by
  have hplay : (exec PhoneScreen.step (fun _ _ _ => True) [] PhoneScreen.installed
      (aliceReturns ++ [.phone (.deliver 0 alice.user.body), .phone .render])).any (fun r => decide
        (r.2.Appears (.appear false) ∧ r.2.unwraps (.appear false) ≠ [] ∧
          lastWord PhoneScreen.arrives r.1 = true)) = true := by
    decide +kernel
  obtain ⟨hist, x, hr, happears, hunwraps, hcame⟩ := exists_reach_of_exec
    (P := fun hist (x : PhoneScreen) => x.Appears (.appear false) ∧ x.unwraps (.appear false) ≠ [] ∧
      lastWord PhoneScreen.arrives hist = true) hplay
  exact ⟨hist, x, hr, happears, hunwraps, (session_there_iff hr _).2 fun _ => hcame⟩

/-- She looks at her memories before the database has answered, and the app is gone. -/
theorem memories_need_session :
    ∃ hist x, Reach PhoneScreen.step (fun _ _ _ => True) PhoneScreen.installed hist x ∧
      (∃ x' ∈ x.step (.appear false), x'.phone.process.isNone) ∧ ¬ ∀ u ∈ x.unwraps (.appear false), u.isSome := by
  have hplay : (exec PhoneScreen.step (fun _ _ _ => True) [] PhoneScreen.installed aliceReturns).any (fun r => decide
      ((∃ x' ∈ r.2.step (.appear false), x'.phone.process.isNone) ∧
        ¬ ∀ u ∈ r.2.unwraps (.appear false), u.isSome)) = true := by
    decide +kernel
  exact exists_reach_of_exec (P := fun _ (x : PhoneScreen) =>
    (∃ x' ∈ x.step (.appear false), x'.phone.process.isNone) ∧ ¬ ∀ u ∈ x.unwraps (.appear false), u.isSome) hplay

end Anissagram
