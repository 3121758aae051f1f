import Anissagram.Lib.Lists
import Anissagram.Lib.Runs
import Anissagram.Registered
/-
# The cloud function (`firebase_code/functions/index.js`)

| here | there |
| --- | --- |
| `CloudFunction.created`   | `onCreate` events of `messages/{messageID}` (:7) that have not started the function yet |
| `Listener`           | a `tokenRequest.on('value', …)` (:14) and what its closure holds; nothing calls `off` |
| `Listener.events`    | the snapshots on their way: the value at registration, then one for each change |
| `Push`               | an `admin.messaging().send(payload)` (:30); title and body are made of the message |

Firebase creates the event of a node once, when the node appears. `ref` throws on an invalid path, and
then nothing listens.
-/

namespace Anissagram

open PathTree Runs

/-- A node `messages/<id>`, as `sendNotification` (`DatabaseManager.swift:19`) creates it. -/
structure Message where
  id : String
  sendTo : String
  sendFrom : String
  level : Int
deriving DecidableEq, Repr

structure Listener where
  message : Message
  path : List String
  events : List Node

structure Push where
  message : Message
  /-- What stands under `deviceID`: a token, or nothing. -/
  token : Node

/-- The running instances of `newNodeDetected`. -/
structure CloudFunction where
  created : List Message
  listeners : List Listener
  sent : List Push

def Message.call (m : Message) : Call := .sendNotification m.id m.sendTo m.sendFrom m.level

/-- `users/${sendTo}/deviceID` (:13). -/
def Message.ref (m : Message) : Option (List String) := child [] s!"users/{m.sendTo}/deviceID"

def Listener.notify (l : Listener) (db db' : Database) : Listener :=
  if db'.sub l.path = db.sub l.path then l else { l with events := l.events ++ [db'.sub l.path] }

namespace CloudFunction

def idle : CloudFunction := ⟨[], [], []⟩

/-- The database changes: listeners are told what they listen to, and a new message is an event. -/
def changed (f : CloudFunction) (db db' : Database) (message : Option Message) : CloudFunction :=
  { f with
    created := f.created ++ (message.filter fun m => db.sub ["messages", m.id] = Tree.empty).toList
    listeners := f.listeners.map fun l => l.notify db db' }

/-- `newNodeDetected` (:6) starts on the `i`-th event. -/
def newNodeDetected (f : CloudFunction) (db : Database) (i : Nat) : Option CloudFunction := do
  let m ← f.created[i]?
  let f := { f with created := f.created.eraseIdx i }
  match m.ref with
  | some path => some { f with listeners := f.listeners ++ [⟨m, path, [db.sub path]⟩] }
  | none => some f

/-- Listener `j` takes its next snapshot and submits the payload (:14). -/
def submitPayload (f : CloudFunction) (j : Nat) : Option CloudFunction := do
  let l ← f.listeners[j]?
  match l.events with
  | [] => none
  | token :: events => some { f with
      listeners := f.listeners.set j { l with events := events }
      sent := f.sent ++ [⟨l.message, token⟩] }

end CloudFunction

/-! ## The database and the function -/

structure Cloud where
  db : Database
  function : CloudFunction

inductive CloudAction where
  /-- The server applies a `sendNotification`. -/
  | message (m : Message)
  /-- The server applies an `uploadDeviceToken`. -/
  | token (userName token : String)
  | newNodeDetected (i : Nat)
  | submitPayload (j : Nat)

namespace Cloud

/-- The write of a call, on the server. -/
def apply (s : Cloud) (c : Call) (message : Option Message) : Cloud :=
  ⟨s.db.apply c, s.function.changed s.db (s.db.apply c) message⟩

/-- Message ids are drawn, so they are keys of the database. -/
def step (s : Cloud) : CloudAction → Option Cloud
  | .message m => if isValidKey m.id then some (s.apply m.call (some m)) else none
  | .token userName token => some (s.apply (.uploadDeviceToken userName token) none)
  | .newNodeDetected i => (s.function.newNodeDetected s.db i).map fun f => { s with function := f }
  | .submitPayload j => (s.function.submitPayload j).map fun f => { s with function := f }

def start (db : Database) : Cloud := ⟨db, CloudFunction.idle⟩

/-- How often the function has submitted a push for a message. -/
def sends (s : Cloud) (id : String) : Nat := (s.function.sent.map (·.message.id)).count id

/-- Every snapshot has been taken. -/
def Idle (s : Cloud) : Prop := ∀ l ∈ s.function.listeners, l.events = []

instance (s : Cloud) : Decidable s.Idle :=
  inferInstanceAs (Decidable (∀ l ∈ s.function.listeners, l.events = []))

end Cloud

/-- No token changes that a listener listens to. -/
def Steady (s : Cloud) : CloudAction → Prop
  | .token userName token => ∀ l ∈ s.function.listeners,
    (s.db.apply (.uploadDeviceToken userName token)).sub l.path = s.db.sub l.path
  | _ => True

instance (s : Cloud) (a : CloudAction) : Decidable (Steady s a) :=
  match a with
  | .token userName token => inferInstanceAs (Decidable (∀ l ∈ s.function.listeners,
      (s.db.apply (.uploadDeviceToken userName token)).sub l.path = s.db.sub l.path))
  | .message _ | .newNodeDetected _ | .submitPayload _ => isTrue trivial

/-- A listener is told of changes of what it listens to, and of nothing else. -/
theorem Listener.notify_cases (l : Listener) (db db' : Database) :
    (l.notify db db').message = l.message ∧ (l.notify db db').path = l.path ∧
    ∀ n ∈ (l.notify db db').events, n ∈ l.events ∨ n = db'.sub l.path := by
  unfold notify
  split
  · exact ⟨rfl, rfl, fun n hn => Or.inl hn⟩
  · exact ⟨rfl, rfl, fun n hn => (List.mem_append.1 hn).imp_right List.mem_singleton.1⟩

/-! ## Firings

Every listener has fired or will fire once for its registration, and once more for every change. -/

namespace CloudFunction

/-- The messages that are listened for. -/
def listening (f : CloudFunction) : List String := f.listeners.map (·.message.id)

/-- The messages of all pushes, those submitted and those whose snapshot is on its way. -/
def firings (f : CloudFunction) : List String :=
  f.sent.map (·.message.id) ++ f.listeners.flatMap fun l => l.events.map fun _ => l.message.id

/-- The messages whose listeners are told of a change. -/
def touched (f : CloudFunction) (db db' : Database) : List String :=
  (f.listeners.filter fun l => db'.sub l.path ≠ db.sub l.path).map (·.message.id)

theorem listening_changed (f : CloudFunction) (db db' : Database) (m : Option Message) :
    (f.changed db db' m).listening = f.listening := by
  simp only [listening, changed, List.map_map]
  exact List.map_congr_left fun l _ => congrArg Message.id (l.notify_cases db db').1

theorem firings_changed (f : CloudFunction) (db db' : Database) (m : Option Message) :
    (f.changed db db' m).firings.Perm (f.firings ++ f.touched db db') := by
  have hlisteners : ∀ ls : List Listener,
      ((ls.map fun l => l.notify db db').flatMap fun l => l.events.map fun _ => l.message.id).Perm
        ((ls.flatMap fun l => l.events.map fun _ => l.message.id) ++
          (ls.filter fun l => db'.sub l.path ≠ db.sub l.path).map (·.message.id)) := by
    intro ls
    induction ls with
    | nil => simp
    | cons l ls ih =>
      rw [List.perm_iff_count] at ih ⊢
      intro id
      have hcount := ih id
      simp only [List.count_append, ne_eq] at hcount
      by_cases h : db'.sub l.path = db.sub l.path
      · have hn : l.notify db db' = l := if_pos h
        simp only [List.map_cons, List.flatMap_cons, hn, h, ne_eq, not_true_eq_false, decide_false,
          Bool.false_eq_true, not_false_eq_true, List.filter_cons_of_neg, List.count_append]
        omega
      · have hn : l.notify db db' = { l with events := l.events ++ [db'.sub l.path] } := if_neg h
        simp only [List.map_cons, List.flatMap_cons, hn, h, ne_eq, not_false_eq_true, decide_true,
          List.filter_cons_of_pos, List.map_append, List.map_nil, List.count_append, List.count_cons, List.count_nil]
        omega
  rw [firings, firings, List.append_assoc]
  exact (hlisteners f.listeners).append_left _

theorem touched_subset (f : CloudFunction) (db db' : Database) : f.touched db db' ⊆ f.listening :=
  List.map_subset _ (List.filter_subset_self _)

theorem touched_eq_nil {f : CloudFunction} {db db' : Database} :
    f.touched db db' = [] ↔ ∀ l ∈ f.listeners, db'.sub l.path = db.sub l.path := by
  simp [touched, List.filter_eq_nil_iff]

/-- A new listener fires once for its registration. -/
theorem newNodeDetected_cases {f f' : CloudFunction} {db : Database} {i : Nat}
    (h : f.newNodeDetected db i = some f') :
    ∃ m, f.created[i]? = some m ∧ f'.created = f.created.eraseIdx i ∧ f'.sent = f.sent ∧
      (f'.listeners = f.listeners ∨
        ∃ path, m.ref = some path ∧ f'.listeners = f.listeners ++ [⟨m, path, [db.sub path]⟩]) := by
  simp only [newNodeDetected, Option.bind_eq_bind, Option.bind_eq_some_iff] at h
  obtain ⟨m, hm, h⟩ := h
  refine ⟨m, hm, ?_⟩
  cases hr : m.ref with
  | none =>
    rw [hr] at h
    cases h
    exact ⟨rfl, rfl, Or.inl rfl⟩
  | some path =>
    rw [hr] at h
    cases h
    exact ⟨rfl, rfl, Or.inr ⟨path, rfl, rfl⟩⟩

/-- A taken snapshot is a push. -/
theorem submitPayload_cases {f f' : CloudFunction} {j : Nat} (h : f.submitPayload j = some f') :
    ∃ l token events, f.listeners[j]? = some l ∧ l.events = token :: events ∧
      f' = { f with listeners := f.listeners.set j { l with events := events }
                    sent := f.sent ++ [⟨l.message, token⟩] } := by
  simp only [submitPayload, Option.bind_eq_bind, Option.bind_eq_some_iff] at h
  obtain ⟨l, hl, h⟩ := h
  split at h
  · cases h
  · rename_i token events he
    cases h
    exact ⟨l, token, events, hl, he, rfl⟩

theorem listening_submitPayload {f f' : CloudFunction} {j : Nat} (h : f.submitPayload j = some f') :
    f'.listening = f.listening := by
  obtain ⟨l, token, events, hl, -, rfl⟩ := submitPayload_cases h
  exact Lists.map_set (fun l : Listener => l.message.id) { l with events := events } hl rfl

theorem firings_submitPayload {f f' : CloudFunction} {j : Nat} (h : f.submitPayload j = some f') :
    f'.firings.Perm f.firings := by
  obtain ⟨l, token, events, hl, he, rfl⟩ := submitPayload_cases h
  obtain ⟨hj, hget⟩ := List.getElem?_eq_some_iff.1 hl
  have hold : f.listeners = f.listeners.take j ++ l :: f.listeners.drop (j + 1) := by
    rw [← hget, ← List.drop_eq_getElem_cons hj, List.take_append_drop]
  have hnew : f.listeners.set j { l with events := events } =
      f.listeners.take j ++ { l with events := events } :: f.listeners.drop (j + 1) :=
    List.set_eq_take_append_cons_drop.trans (if_pos hj)
  have hfirings : f.firings = f.sent.map (·.message.id) ++
      (f.listeners.take j ++ l :: f.listeners.drop (j + 1)).flatMap fun l => l.events.map fun _ => l.message.id := by
    rw [← hold]
    rfl
  rw [hfirings, firings, hnew, List.perm_iff_count]
  intro id
  simp only [List.map_append, List.map_cons, List.map_nil, List.flatMap_append, List.flatMap_cons, he,
    List.count_append, List.count_cons, List.count_nil, List.cons_append]
  omega

end CloudFunction

/-! ## What one write does -/

/-- The node of a message. -/
theorem Message.write_call {m : Message} (hm : isValidKey m.id) :
    ∃ node, node ≠ Tree.empty ∧ m.call.write = some [(["messages", m.id], node)] := by
  refine ⟨Node.dictionary [("level", .number m.level), ("sendTo", .string m.sendTo), ("sendFrom", .string m.sendFrom)],
    fun he => ?_, ?_⟩
  · have hfrom := congrArg (fun n => Tree.sub n ["sendFrom"]) he
    simp only [Node.dictionary, List.map_cons, List.map_nil, Tree.update_cons, Tree.update_nil, Tree.sub_set_self,
      Tree.sub_empty] at hfrom
    exact Node.string_ne_empty _ hfrom
  · simp [call, Call.write, DatabaseManager.sendNotification, child_of_isValidKey hm]

/-- A token is written below `users`. -/
theorem Call.uploadDeviceToken_below (u t : String) :
    ∀ w ∈ (Call.uploadDeviceToken u t).write.getD [], ∃ p, w.1 = "users" :: p := by
  intro w hw
  rcases Call.write_uploadDeviceToken_cases u t with hwrite | hwrite
  · rw [hwrite] at hw
    cases hw
  · rw [hwrite, Option.getD_some, List.mem_singleton] at hw
    subst hw
    exact ⟨_, rfl⟩

/-- A valid path to the token is made of the components of the name. -/
theorem Message.ref_eq {m : Message} {path : List String} (h : m.ref = some path) :
    path = "users" :: (pathComponents m.sendTo ++ ["deviceID"]) := by
  have hk : isValidKey "users" ∧ isValidKey "deviceID" := by decide
  simp only [ref, child, Option.ite_none_right_eq_some, Option.some.injEq, List.nil_append] at h
  obtain ⟨-, rfl⟩ := h
  have hs : s!"users/{m.sendTo}/deviceID" = "users" ++ "/" ++ m.sendTo ++ "/" ++ "deviceID" := by
    rw [show s!"users/{m.sendTo}/deviceID" = "users/" ++ m.sendTo ++ "/deviceID" from rfl,
      show "users/" = "users" ++ "/" from rfl, show "/deviceID" = "/" ++ "deviceID" from rfl, ← String.append_assoc]
  rw [hs, pathComponents_append_slash, pathComponents_append_slash, hk.1.pathComponents, hk.2.pathComponents]
  rfl

/-- The function's account at a point of a run: every message is handled once, every listener has its
firing, and the rest of the firings is due to changes. -/
structure Accounted (hist : History Cloud CloudAction) (s : Cloud) : Prop where
  once : (s.function.created.map (·.id) ++ s.function.listening).Nodup
  stored : ∀ id ∈ s.function.created.map (·.id) ++ s.function.listening, s.db.sub ["messages", id] ≠ Tree.empty
  below : ∀ l ∈ s.function.listeners, ∃ p, l.path = "users" :: p
  firings : ∃ extra, s.function.firings.Perm (s.function.listening ++ extra) ∧ extra ⊆ s.function.listening ∧
    (extra = [] ↔ ∀ x ∈ hist, Steady x.1 x.2)

section
variable {hist : History Cloud CloudAction} {s s' : Cloud}

theorem CloudFunction.below_changed {f : CloudFunction} (h : ∀ l ∈ f.listeners, ∃ p, l.path = "users" :: p)
    (db db' : Database) (m : Option Message) : ∀ l ∈ (f.changed db db' m).listeners, ∃ p, l.path = "users" :: p := by
  intro l' hl'
  obtain ⟨l, hl, rfl⟩ := List.mem_map.1 hl'
  rw [(l.notify_cases db db').2.1]
  exact h l hl

/-- What the function is owed after a write. -/
theorem Accounted.changed (h : Accounted hist s) (db' : Database) (m : Option Message) (a : CloudAction)
    (ha : Steady s a ↔ s.function.touched s.db db' = []) :
    ∃ extra, (s.function.changed s.db db' m).firings.Perm ((s.function.changed s.db db' m).listening ++ extra) ∧
      extra ⊆ (s.function.changed s.db db' m).listening ∧ (extra = [] ↔ ∀ x ∈ (s, a) :: hist, Steady x.1 x.2) := by
  obtain ⟨extra, hperm, hsub, hsteady⟩ := h.firings
  refine ⟨extra ++ s.function.touched s.db db', ?_, ?_, ?_⟩
  · rw [CloudFunction.listening_changed, ← List.append_assoc]
    exact (CloudFunction.firings_changed _ _ _ _).trans (hperm.append_right _)
  · rw [CloudFunction.listening_changed]
    exact List.append_subset.2 ⟨hsub, s.function.touched_subset _ _⟩
  · rw [List.append_eq_nil_iff, hsteady, List.forall_mem_cons, ha, and_comm]

theorem Accounted.message (h : Accounted hist s) {m : Message} (hm : isValidKey m.id) :
    Accounted ((s, .message m) :: hist) (s.apply m.call (some m)) := by
  obtain ⟨node, hne, hw⟩ := m.write_call hm
  have hdb : s.db.apply m.call = s.db.set ["messages", m.id] node := by
    simp [Database.apply, hw]
  have huntouched : s.function.touched s.db (s.db.apply m.call) = [] := by
    rw [CloudFunction.touched_eq_nil]
    intro l hl
    obtain ⟨p, hp⟩ := h.below l hl
    rw [hp, hdb]
    exact Tree.sub_set_apart _ _ (apart_cons_of_ne _ _ (by decide))
  have hstored : ∀ id, s.db.sub ["messages", id] ≠ Tree.empty ∨ id = m.id →
      (s.db.apply m.call).sub ["messages", id] ≠ Tree.empty := by
    intro id hid
    rw [hdb]
    by_cases heq : id = m.id
    · rw [heq, Tree.sub_set_self]
      exact hne
    · have hap : Apart ["messages", m.id] ["messages", id] :=
        apart_of_length_eq rfl (by simpa using Ne.symm heq)
      rw [Tree.sub_set_apart _ _ hap]
      exact hid.resolve_right heq
  have hids : ∀ id ∈ (s.function.changed s.db (s.db.apply m.call) (some m)).created.map (·.id) ++
      s.function.listening, id ∈ s.function.created.map (·.id) ++ s.function.listening ∨ id = m.id := by
    intro id hid
    simp only [CloudFunction.changed, List.map_append, List.mem_append] at hid ⊢
    rcases hid with (hid | hid) | hid
    · exact Or.inl (Or.inl hid)
    · right
      obtain ⟨x, hx, rfl⟩ := List.mem_map.1 hid
      obtain ⟨rfl, -⟩ : m = x ∧ _ := by simpa [Option.filter_eq_some_iff] using hx
      rfl
    · exact Or.inl (Or.inr hid)
  refine ⟨?_, fun id hid => ?_, CloudFunction.below_changed h.below _ _ _, h.changed _ _ _ (by simp [Steady, huntouched])⟩
  · rw [show (s.apply m.call (some m)).function.listening = s.function.listening from
      CloudFunction.listening_changed _ _ _ _]
    by_cases hnew : s.db.sub ["messages", m.id] = Tree.empty
    · have hfresh : m.id ∉ s.function.created.map (·.id) ++ s.function.listening := fun hid => h.stored _ hid hnew
      have honce := h.once
      simp only [Cloud.apply, CloudFunction.changed, Option.filter, hnew, decide_true, if_true, Option.toList_some,
        List.map_append, List.map_cons, List.map_nil]
      rw [List.append_assoc, List.singleton_append, List.perm_middle.nodup_iff]
      exact List.nodup_cons.2 ⟨hfresh, honce⟩
    · simpa [Cloud.apply, CloudFunction.changed, Option.filter, hnew] using h.once
  · rw [show (s.apply m.call (some m)).function.listening = s.function.listening from
      CloudFunction.listening_changed _ _ _ _] at hid
    exact hstored id ((hids id hid).imp_left (h.stored id))

theorem Accounted.token (h : Accounted hist s) (userName token : String) :
    Accounted ((s, .token userName token) :: hist) (s.apply (.uploadDeviceToken userName token) none) := by
  have hcreated : (s.apply (.uploadDeviceToken userName token) none).function.created = s.function.created :=
    List.append_nil _
  have hlistening : (s.apply (.uploadDeviceToken userName token) none).function.listening = s.function.listening :=
    CloudFunction.listening_changed _ _ _ _
  refine ⟨?_, fun id hid => ?_, CloudFunction.below_changed h.below _ _ _,
    h.changed _ _ _ CloudFunction.touched_eq_nil.symm⟩
  · rw [hcreated, hlistening]
    exact h.once
  · rw [hcreated, hlistening] at hid
    have hsame : (s.db.apply (.uploadDeviceToken userName token)).sub ["messages", id] = s.db.sub ["messages", id] := by
      refine Tree.sub_update_apart _ fun w hw => ?_
      obtain ⟨p, hp⟩ := Call.uploadDeviceToken_below userName token w hw
      rw [hp]
      exact apart_cons_of_ne _ _ (by decide)
    rw [Cloud.apply, hsame]
    exact h.stored id hid

theorem Accounted.newNodeDetected (h : Accounted hist s) {i : Nat} {f : CloudFunction}
    (hf : s.function.newNodeDetected s.db i = some f) :
    Accounted ((s, .newNodeDetected i) :: hist) { s with function := f } := by
  obtain ⟨m, hm, hcreated, hsent, hlisteners⟩ := CloudFunction.newNodeDetected_cases hf
  obtain ⟨extra, hperm, hsub, hsteady⟩ := h.firings
  have hsteps : extra = [] ↔ ∀ x ∈ (s, CloudAction.newNodeDetected i) :: hist, Steady x.1 x.2 := by
    rw [hsteady, List.forall_mem_cons]
    exact (and_iff_right trivial).symm
  have hids : (m.id :: f.created.map (·.id)).Perm (s.function.created.map (·.id)) := by
    obtain ⟨hi, rfl⟩ := List.getElem?_eq_some_iff.1 hm
    rw [hcreated]
    exact (List.getElem_cons_eraseIdx_perm hi).map (·.id)
  have hall : (m.id :: (f.created.map (·.id) ++ s.function.listening)).Perm
      (s.function.created.map (·.id) ++ s.function.listening) := hids.append_right _
  have honce := hall.nodup_iff.2 h.once
  rcases hlisteners with hsame | ⟨path, hpath, hnew⟩
  · -- `ref` threw: the message is dropped
    have hlistening : f.listening = s.function.listening := congrArg (List.map _) hsame
    have hfirings : f.firings = s.function.firings := by
      rw [CloudFunction.firings, hsame, hsent]
      rfl
    refine ⟨?_, fun id hid => ?_, by rw [hsame]; exact h.below, extra, ?_, ?_, hsteps⟩
    · rw [hlistening]
      exact (List.nodup_cons.1 honce).2
    · rw [hlistening] at hid
      exact h.stored id (hall.subset (List.mem_cons_of_mem _ hid))
    · rw [hlistening, hfirings]
      exact hperm
    · rw [hlistening]
      exact hsub
  · have hlistening : f.listening = s.function.listening ++ [m.id] := by
      rw [CloudFunction.listening, hnew, List.map_append]
      rfl
    have hfirings : f.firings = s.function.firings ++ [m.id] := by
      rw [CloudFunction.firings, hnew, hsent, List.flatMap_append, ← List.append_assoc]
      rfl
    have hmoved : (f.created.map (·.id) ++ (s.function.listening ++ [m.id])).Perm
        (s.function.created.map (·.id) ++ s.function.listening) := by
      rw [← List.append_assoc]
      exact (List.perm_append_singleton _ _).trans hall
    refine ⟨?_, fun id hid => ?_, ?_, extra, ?_, ?_, hsteps⟩
    · rw [hlistening]
      exact hmoved.nodup_iff.2 h.once
    · rw [hlistening] at hid
      exact h.stored id (hmoved.subset hid)
    · rw [hnew]
      intro l hl
      rcases List.mem_append.1 hl with hl | hl
      · exact h.below l hl
      · rw [List.mem_singleton] at hl
        subst hl
        exact ⟨_, m.ref_eq hpath⟩
    · rw [hlistening, hfirings, List.perm_iff_count]
      intro id
      have hcount := hperm.count_eq id
      simp only [List.count_append] at hcount ⊢
      omega
    · rw [hlistening]
      exact List.Subset.trans hsub (List.subset_append_left _ _)

theorem Accounted.submitPayload (h : Accounted hist s) {j : Nat} {f : CloudFunction}
    (hf : s.function.submitPayload j = some f) : Accounted ((s, .submitPayload j) :: hist) { s with function := f } := by
  obtain ⟨extra, hperm, hsub, hsteady⟩ := h.firings
  have hlistening := CloudFunction.listening_submitPayload hf
  have hfirings := CloudFunction.firings_submitPayload hf
  obtain ⟨l, token, events, hl, he, rfl⟩ := CloudFunction.submitPayload_cases hf
  refine ⟨?_, fun id hid => ?_, fun x hx => ?_, extra, ?_, ?_, ?_⟩
  · rw [hlistening]
    exact h.once
  · rw [hlistening] at hid
    exact h.stored id hid
  · rcases List.mem_or_eq_of_mem_set hx with hx | rfl
    · exact h.below x hx
    · exact h.below l (List.mem_of_getElem? hl)
  · rw [hlistening]
    exact hfirings.trans hperm
  · rw [hlistening]
    exact hsub
  · rw [hsteady, List.forall_mem_cons]
    exact (and_iff_right trivial).symm

theorem Accounted.step {a : CloudAction} (h : Accounted hist s) (hs : s.step a = some s') :
    Accounted ((s, a) :: hist) s' := by
  cases a with
  | message m =>
    simp only [Cloud.step, Option.ite_none_right_eq_some, Option.some.injEq] at hs
    obtain ⟨hm, rfl⟩ := hs
    exact h.message hm
  | token userName token =>
    cases hs
    exact h.token userName token
  | newNodeDetected i =>
    obtain ⟨f, hf, rfl⟩ := Option.map_eq_some_iff.1 hs
    exact h.newNodeDetected hf
  | submitPayload j =>
    obtain ⟨f, hf, rfl⟩ := Option.map_eq_some_iff.1 hs
    exact h.submitPayload hf

theorem accounted_start (db : Database) : Accounted [] (Cloud.start db) :=
  ⟨List.nodup_nil, by simp [Cloud.start, CloudFunction.idle, CloudFunction.listening],
    by simp [Cloud.start, CloudFunction.idle], [], List.Perm.refl _, List.nil_subset _, by simp⟩

/-- Pushes submitted are firings. -/
theorem Cloud.sends_le (s : Cloud) (id : String) : s.sends id ≤ s.function.firings.count id := by
  rw [Cloud.sends, CloudFunction.firings, List.count_append]
  omega

/-- When every snapshot has been taken, they are all of them. -/
theorem Cloud.Idle.firings (h : s.Idle) : s.function.firings = s.function.sent.map (·.message.id) := by
  have hnone : (s.function.listeners.flatMap fun l => l.events.map fun _ => l.message.id) = [] := by
    rw [List.flatMap_eq_nil_iff]
    intro l hl
    rw [h l hl]
    rfl
  rw [CloudFunction.firings, hnone, List.append_nil]

end

/-- **One push for each message, as long as no token changes that is listened to.** In a run of such steps
no message is ever pushed twice; a run with another step has pushed some message twice as soon as every
snapshot has been taken. -/
theorem one_push_per_message {db : Database} {hist : History Cloud CloudAction} {s : Cloud}
    (hr : Reach Cloud.step (fun _ _ _ => True) (Cloud.start db) hist s) :
    ((∀ x ∈ hist, Steady x.1 x.2) → ∀ id, s.sends id ≤ 1) ∧
    (s.Idle → (∀ id, s.sends id ≤ 1) → ∀ x ∈ hist, Steady x.1 x.2) := by
  have h : Accounted hist s :=
    hr.inv (accounted_start db) fun _ _ _ _ _ hi _ hs => hi.step hs
  obtain ⟨extra, hperm, hsub, hsteady⟩ := h.firings
  have hlistening : s.function.listening.Nodup := (List.nodup_append.1 h.once).2.1
  constructor
  · intro hall id
    rw [hsteady.2 hall, List.append_nil] at hperm
    exact (s.sends_le id).trans ((hperm.count_eq id).le.trans (List.nodup_iff_count_le_one.1 hlistening id))
  · intro hidle hsends
    have hnodup : (s.function.listening ++ extra).Nodup := by
      refine hperm.nodup_iff.1 (List.nodup_iff_count_le_one.2 fun id => ?_)
      rw [hidle.firings]
      exact hsends id
    refine hsteady.1 (List.eq_nil_iff_forall_not_mem.2 fun id hid => ?_)
    exact (List.nodup_append.1 hnodup).2.2 id (hsub hid) id hid rfl

/-- Alice wants Bob's attention. -/
def wantsBob : Message := ⟨"M1", "bob", "alice", 3⟩

/-- Bob's token is stored, his push is out, and storing the token again changes nothing. -/
theorem one_push_bob :
    ∃ hist s, Reach Cloud.step (fun _ _ _ => True) (Cloud.start Tree.empty) hist s ∧
      s.sends "M1" = 1 ∧ ∀ id, s.sends id ≤ 1 := by
  have hplay : ((exec Cloud.step (fun _ _ _ => True) [] (Cloud.start Tree.empty)
      [.token "bob" "T1", .message wantsBob, .newNodeDetected 0, .token "bob" "T1", .submitPayload 0]).any
        fun r => decide ((∀ x ∈ r.1, Steady x.1 x.2) ∧ r.2.sends "M1" = 1)) = true := by
    decide +kernel
  obtain ⟨hist, s, hr, hsteady, hone⟩ := exists_reach_of_exec
    (P := fun hist (s : Cloud) => (∀ x ∈ hist, Steady x.1 x.2) ∧ s.sends "M1" = 1) hplay
  exact ⟨hist, s, hr, hone, (one_push_per_message hr).1 hsteady⟩

/-- Bob signs in on another device when his push is out, and it is submitted once more. -/
theorem pushed_twice :
    ∃ hist s, Reach Cloud.step (fun _ _ _ => True) (Cloud.start Tree.empty) hist s ∧ ¬ s.sends "M1" ≤ 1 := by
  have hplay : ((exec Cloud.step (fun _ _ _ => True) [] (Cloud.start Tree.empty)
      [.token "bob" "T1", .message wantsBob, .newNodeDetected 0, .submitPayload 0, .token "bob" "T2",
        .submitPayload 0]).any fun r => decide (¬ r.2.sends "M1" ≤ 1)) = true := by
    decide +kernel
  exact exists_reach_of_exec (P := fun _ (s : Cloud) => ¬ s.sends "M1" ≤ 1) hplay

end Anissagram
