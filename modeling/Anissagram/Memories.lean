import Anissagram.Registered
/-
# Memories of a relationship (`Views/MainViews/ProfileView.swift`)

The posts of a relationship are kept in `downloadedRelationships` (`SessionStore.swift:18`), next to the
session, under the name of the partner. `signOut` (:133) clears the session only, so the next user of the
device finds what the last one wrote under the same name, below a text that promises
`only you two can see it`.

`memories_private_iff` compares two runs of a device: with the operations of the first user and without
them. Names are taken in one normal form, so that `=` is the equality of Swift's strings.
-/

namespace Anissagram

open NSMutableDictionary SessionStore

/-- The completions that set the session, with what they are called with. -/
inductive Login where
  | signUp (auth : AuthUser) (userName firstName lastName newUUID : String)
  | signIn (auth : AuthUser) (userName : String) (snapshot : Node)
  | setupUser (auth : AuthUser) (userName : String) (snapshot : Node)

def Login.run (s : SessionStore) : Login → Option SessionStore
  | signUp auth userName firstName lastName newUUID =>
    (s.signUp (some auth) userName firstName lastName newUUID).value
  | signIn auth userName snapshot =>
    (s.signInCompletion auth userName (retrieved snapshot).1 (retrieved snapshot).2).value
  | setupUser auth userName snapshot =>
    (s.setupUserCompletion auth userName (retrieved snapshot).1 (retrieved snapshot).2).value

namespace ProfileView

/-- The block `fetchDataFromLastConvo` (:23) makes. -/
def welcome (userName lastConversation : String) : Block :=
  [("type", "text"),
   ("value", s!"Hello! Welcome to a relationship between {userName} and {lastConversation}! Here is a place you can post memories with this person, and only you two can see it! To add a memory, click the plus button in the top right and choose either an image or block of text to add. To delete a memory (like this one) hold down and press delete! This is a space for you all now!!")]

/-- `fetchDataFromLastConvo` (:23); traps without a session. -/
def fetchDataFromLastConvo (s : SessionStore) (lastConversation : String) : Option SessionStore :=
  s.session.map fun user =>
    { s with downloadedRelationships := fun n =>
        if n = lastConversation then some [welcome user.userName lastConversation]
        else s.downloadedRelationships n }

/-- The blocks `body` (:44) shows under a name; where there are none, `onAppear` fetches them first. -/
def blocks (s : SessionStore) (lastConversation : String) : Option (List Block) := do
  let s ← if (s.downloadedRelationships lastConversation).isSome then some s
    else fetchDataFromLastConvo s lastConversation
  s.downloadedRelationships lastConversation

end ProfileView

/-- What a user does under the name of a partner. -/
inductive MemoryOp where
  /-- `Add post` (`EditProfileView.swift:102`). -/
  | addPost (name newUUID lastType textInput : String)
  | fetchDataFromLastConvo (name : String)
deriving DecidableEq

namespace MemoryOp

def name : MemoryOp → String
  | addPost name _ _ _ | fetchDataFromLastConvo name => name

/-- The dictionary of a post. -/
def post (newUUID lastType textInput : String) : Block :=
  [("id", newUUID), ("type", lastType), ("value", textInput)]

def run (s : SessionStore) : MemoryOp → Option SessionStore
  | addPost name newUUID lastType textInput => some (s.addBlock name (post newUUID lastType textInput))
  | fetchDataFromLastConvo name => ProfileView.fetchDataFromLastConvo s name

/-- What an operation of `userName` does to the blocks under its name. -/
def onBlocks (userName : String) (blocks : Option (List Block)) : MemoryOp → Option (List Block)
  | addPost _ newUUID lastType textInput => some (blocks.getD [] ++ [post newUUID lastType textInput])
  | fetchDataFromLastConvo name => some [ProfileView.welcome userName name]

end MemoryOp

/-- One user signs in, does `ops` and signs out; another one signs in. -/
def takeTurns (s : SessionStore) (first : Login) (ops : List MemoryOp) (second : Login) :
    Option SessionStore := do
  let s ← first.run s
  let s ← ops.foldlM MemoryOp.run s
  second.run (s.signOut true)

/-! ## One operation, several operations -/

section
variable {s s' : SessionStore} {user : User}

theorem MemoryOp.run_spec (hs : s.session = some user) (op : MemoryOp) :
    ∃ s', op.run s = some s' ∧ s'.session = some user ∧
      ∀ n, s'.downloadedRelationships n =
        if n = op.name then op.onBlocks user.userName (s.downloadedRelationships n) else s.downloadedRelationships n := by
  cases op with
  | addPost name newUUID lastType textInput =>
    refine ⟨_, rfl, by simp [SessionStore.addBlock, hs], fun n => ?_⟩
    by_cases hn : n = name
    · simp [SessionStore.addBlock, hs, MemoryOp.name, onBlocks, hn]
    · simp [SessionStore.addBlock, hs, MemoryOp.name, hn]
  | fetchDataFromLastConvo name =>
    refine ⟨{ s with downloadedRelationships := fun n =>
      if n = name then some [ProfileView.welcome user.userName name] else s.downloadedRelationships n }, ?_, hs, ?_⟩
    · simp [run, ProfileView.fetchDataFromLastConvo, hs]
    · intro n
      rfl

/-- The blocks under a name after the operations under it. -/
theorem MemoryOp.foldlM_spec (ops : List MemoryOp) :
    ∀ {s : SessionStore}, s.session = some user →
      ∃ s', ops.foldlM MemoryOp.run s = some s' ∧ s'.session = some user ∧
        ∀ n, s'.downloadedRelationships n =
          (ops.filter (·.name = n)).foldl (onBlocks user.userName) (s.downloadedRelationships n) := by
  induction ops with
  | nil =>
    intro s hs
    exact ⟨s, rfl, hs, fun n => rfl⟩
  | cons op ops ih =>
    intro s hs
    obtain ⟨s₁, hrun, hs₁, hblocks⟩ := run_spec hs op
    obtain ⟨s₂, hrest, hs₂, hall⟩ := ih hs₁
    refine ⟨s₂, by simp [hrun, hrest], hs₂, fun n => ?_⟩
    rw [hall, hblocks]
    by_cases hn : n = op.name
    · subst hn
      simp
    · simp [hn, Ne.symm hn]

/-! ## What a login does -/

/-- A login sets the session by what it is called with and downloads nothing. -/
theorem Login.run_eq (e : Login) (s : SessionStore) :
    e.run s = (e.run { s with downloadedRelationships := fun _ => none }).map fun s' =>
      { s' with downloadedRelationships := s.downloadedRelationships } := by
  cases e with
  | signUp auth userName firstName lastName newUUID =>
    simp only [run, SessionStore.signUp]
    split <;> rfl
  | signIn auth userName snapshot =>
    simp only [run, signInCompletion]
    cases decodeUser auth userName (retrieved snapshot).1 with
    | none => rfl
    | some user => cases (retrieved snapshot).2 <;> rfl
  | setupUser auth userName snapshot =>
    simp only [run, setupUserCompletion]
    cases (retrieved snapshot).2 with
    | true => rfl
    | false => cases decodeUser auth userName (retrieved snapshot).1 <;> rfl

end

/-! ## Two runs -/

theorem ProfileView.welcome_inj {a c n : String} (h : welcome a n = welcome c n) : a = c := by
  simp only [welcome, List.cons.injEq, Prod.mk.injEq, and_true, true_and] at h
  have hl := congrArg String.toList h
  have hstr : toString a = toString c := by simpa [String.toList_inj] using hl
  exact hstr

/-- The block of a post is not the block of a welcome. -/
theorem MemoryOp.post_ne_welcome (newUUID lastType textInput a n : String) :
    post newUUID lastType textInput ≠ ProfileView.welcome a n := by
  simp [post, ProfileView.welcome]

/-- The id a post draws stands in no block of its partner yet. -/
def MemoryOp.Fresh (s : SessionStore) : MemoryOp → Prop
  | addPost name newUUID _ _ => ∀ l ∈ s.downloadedRelationships name, ∀ block ∈ l, ("id", newUUID) ∉ block
  | fetchDataFromLastConvo _ => True

/-- Nothing was done under the name, or all there was, and is again, is the user's own welcome. -/
def Untouched (s : SessionStore) (userName : String) (ops : List MemoryOp) (n : String) : Prop :=
  (∀ op ∈ ops, op.name ≠ n) ∨
  ((ops.filter (·.name = n)).getLast? = some (.fetchDataFromLastConvo n) ∧
    s.downloadedRelationships n = some [ProfileView.welcome userName n])

/-- What the second user is shown under a name. -/
def shown (s : SessionStore) (first : Login) (ops : List MemoryOp) (second : Login) (n : String) :
    Option (List Block) := do
  let s ← takeTurns s first ops second
  ProfileView.blocks s n

section
variable {s : SessionStore} {a c n : String} {ops : List MemoryOp}

/-- Operations under one name show, unless all of it is the welcome they found. -/
theorem onBlocks_eq_iff (hac : a ≠ c) (hops : ∀ op ∈ ops, op.name = n ∧ op.Fresh s) :
    (ops.foldl (MemoryOp.onBlocks a) (s.downloadedRelationships n)).getD [ProfileView.welcome c n] =
        (s.downloadedRelationships n).getD [ProfileView.welcome c n] ↔
      ops = [] ∨ (ops.getLast? = some (.fetchDataFromLastConvo n) ∧
        s.downloadedRelationships n = some [ProfileView.welcome a n]) := by
  rcases List.eq_nil_or_concat ops with rfl | ⟨init, last, rfl⟩
  · simp
  obtain ⟨hname, hfresh⟩ := hops last (by simp)
  rw [List.concat_eq_append, List.foldl_append, List.foldl_cons, List.foldl_nil, List.getLast?_concat]
  cases last with
  | addPost name newUUID lastType textInput =>
    obtain rfl : name = n := hname
    refine iff_of_false (fun h => ?_) (by simp)
    have hmem : MemoryOp.post newUUID lastType textInput ∈
        (s.downloadedRelationships name).getD [ProfileView.welcome c name] := by
      rw [← h]
      simp [MemoryOp.onBlocks]
    cases hl : s.downloadedRelationships name with
    | none =>
      rw [hl, Option.getD_none, List.mem_singleton] at hmem
      exact MemoryOp.post_ne_welcome _ _ _ _ _ hmem
    | some l =>
      rw [hl, Option.getD_some] at hmem
      exact hfresh l hl _ hmem (by simp [MemoryOp.post])
  | fetchDataFromLastConvo name =>
    obtain rfl : name = n := hname
    cases hl : s.downloadedRelationships name with
    | none =>
      refine iff_of_false (fun h => hac ?_) (by simp)
      exact ProfileView.welcome_inj (by simpa [MemoryOp.onBlocks] using h)
    | some l =>
      simp only [MemoryOp.onBlocks, Option.getD_some, List.append_eq_nil_iff, List.cons_ne_self, and_false,
        false_or, true_and, Option.some.injEq]
      exact eq_comm

/-- What the second user is shown, in terms of what the first one did. -/
theorem shown_eq {first second : Login} {s₁ s₂ : SessionStore} {userA userC : User}
    (hfirst : first.run s = some s₁) (ha : s₁.session = some userA)
    (hsecond : takeTurns s first [] second = some s₂) (hc : s₂.session = some userC) (n : String) :
    shown s first ops second n =
      some (((ops.filter (·.name = n)).foldl (MemoryOp.onBlocks userA.userName)
        (s.downloadedRelationships n)).getD [ProfileView.welcome userC.userName n]) := by
  obtain ⟨s₃, hops, -, hall⟩ := MemoryOp.foldlM_spec ops ha
  have hdown : s₁.downloadedRelationships = s.downloadedRelationships := by
    rw [first.run_eq] at hfirst
    obtain ⟨x, -, rfl⟩ := Option.map_eq_some_iff.1 hfirst
    rfl
  simp only [takeTurns, hfirst, Option.bind_eq_bind, Option.bind_some, List.foldlM_nil, Option.pure_def] at hsecond
  -- the second login ends with the same session on top of what is downloaded by then
  have hthird : second.run (s₃.signOut true) =
      some { session := some userC, downloadedRelationships := s₃.downloadedRelationships } := by
    rw [second.run_eq] at hsecond ⊢
    obtain ⟨x, hx, rfl⟩ := Option.map_eq_some_iff.1 hsecond
    rw [show ({ s₃.signOut true with downloadedRelationships := fun _ => none } : SessionStore) =
      { s₁.signOut true with downloadedRelationships := fun _ => none } from rfl, hx]
    simp only [Option.map_some, SessionStore.signOut, if_true] at hc ⊢
    rw [hc]
  simp only [shown, takeTurns, hfirst, hops, hthird, Option.bind_eq_bind, Option.bind_some]
  rw [← hdown, ← hall n]
  cases hblocks : s₃.downloadedRelationships n <;>
    simp [ProfileView.blocks, ProfileView.fetchDataFromLastConvo, hblocks]

end

/-- **Memories stay private exactly under the names that the first user leaves untouched**: for every
start, whoever signs in and however, and for all operations in between. -/
theorem memories_private_iff {s s₁ s₂ : SessionStore} {first second : Login} {ops : List MemoryOp}
    {userA userC : User} (hfirst : first.run s = some s₁) (ha : s₁.session = some userA)
    (hsecond : takeTurns s first [] second = some s₂) (hc : s₂.session = some userC)
    (hac : userA.userName ≠ userC.userName) (hfresh : ∀ op ∈ ops, op.Fresh s) :
    (∀ n, shown s first ops second n = shown s first [] second n) ↔
      ∀ n, Untouched s userA.userName ops n := by
  refine forall_congr' fun n => ?_
  have hfilter : ∀ op ∈ ops.filter (·.name = n), op.name = n ∧ op.Fresh s := by
    intro op hop
    rw [List.mem_filter, decide_eq_true_eq] at hop
    exact ⟨hop.2, hfresh op hop.1⟩
  rw [shown_eq hfirst ha hsecond hc, shown_eq hfirst ha hsecond hc, Option.some.injEq]
  refine (onBlocks_eq_iff hac hfilter).trans (or_congr ?_ Iff.rfl)
  simp [List.filter_eq_nil_iff]

/-- Signing up, as a login. -/
def Registration.login (g : Registration) : Login :=
  .signUp g.auth g.userName g.firstName g.lastName g.uuid

theorem Registration.run_login {g : Registration} (hg : g.Valid) (s : SessionStore) :
    g.login.run s = some { s with session := some g.user } := by
  have hw : (Call.insertUser g.user).write.isSome := by
    rw [g.write_insertUser hg]
    rfl
  simp [login, Login.run, SessionStore.signUp, show newUser _ _ _ _ _ = g.user from rfl, hw]

theorem Registration.takeTurns_nil {g h : Registration} (hg : g.Valid) (hh : h.Valid) (s : SessionStore) :
    takeTurns s g.login [] h.login = some { s with session := some h.user } := by
  simp [takeTurns, g.run_login hg, h.run_login hh, SessionStore.signOut]

/-- Alice has looked at her memories with Carol before. -/
def welcomed : SessionStore :=
  { SessionStore.initial with downloadedRelationships := fun n =>
      if n = "carol" then some [ProfileView.welcome "alice" "carol"] else none }

/-- Alice writes to Carol and fetches the welcome, which was all there was, over it. -/
theorem memories_private_alice :
    let ops := [MemoryOp.addPost "carol" "P1" "text" "A secret", .fetchDataFromLastConvo "carol"]
    ∀ n, shown welcomed alice.login ops bob.login n = shown welcomed alice.login [] bob.login n := by
  have hvalid : alice.Valid ∧ bob.Valid := by decide
  refine (memories_private_iff (alice.run_login hvalid.1 _) rfl (Registration.takeTurns_nil hvalid.1 hvalid.2 _)
    rfl (by decide) ?_).2 fun n => ?_
  · simp [MemoryOp.Fresh, welcomed, ProfileView.welcome]
  · by_cases hn : n = "carol"
    · subst hn
      exact Or.inr ⟨by decide, rfl⟩
    · exact Or.inl (by simpa [MemoryOp.name] using Ne.symm hn)

/-- Alice writes to Carol, and Bob reads it after her. -/
theorem memories_leak :
    let ops := [MemoryOp.addPost "carol" "P1" "text" "A secret"]
    shown .initial alice.login ops bob.login "carol" = some [MemoryOp.post "P1" "text" "A secret"] ∧
    ¬ ∀ n, shown .initial alice.login ops bob.login n = shown .initial alice.login [] bob.login n := by
  have hvalid : alice.Valid ∧ bob.Valid := by decide
  have hshown : ∀ ops n, shown .initial alice.login ops bob.login n =
      some ((List.foldl (MemoryOp.onBlocks "alice") none (ops.filter (·.name = n))).getD
        [ProfileView.welcome "bob" n]) := fun ops n =>
    shown_eq (alice.run_login hvalid.1 _) rfl (Registration.takeTurns_nil hvalid.1 hvalid.2 _) rfl n
  refine ⟨by rw [hshown]; rfl, fun h => ?_⟩
  have hcarol := h "carol"
  rw [hshown, hshown, Option.some.injEq] at hcarol
  exact MemoryOp.post_ne_welcome _ _ _ _ _ (List.cons.inj hcarol).1

end Anissagram
