import Anissagram.Firebase
import Mathlib.Data.List.Induction
/-
# The user object (`anissagram/User.swift`)

`relationships`, `requests` and `pending` are `NSMutableDictionary`s with user names as keys and
relationship ids as values. They come out of snapshots, so they are nodes here, and `user.pending[n]`
is the node under `n`, empty where Swift reads `nil`. `fullName` is derived from the two names and
read by nothing that is modelled.
-/

namespace Anissagram

open PathTree

abbrev NSMutableDictionary := Node

namespace NSMutableDictionary

/-- The value of an entry: an id, or nothing. -/
def entryNode : Option String → Node
  | some id => Node.string id
  | none => Tree.empty

/-- `dictionary[key]`. -/
def object (d : NSMutableDictionary) (key : String) : Node := d.sub [key]

/-- `dictionary[key] = id` and, for `none`, `removeObject(forKey: key)`. -/
def store (d : NSMutableDictionary) (key : String) (value : Option String) : NSMutableDictionary :=
  d.set [key] (entryNode value)

theorem entryNode_inj {v w : Option String} : entryNode v = entryNode w ↔ v = w := by
  cases v <;> cases w <;> simp [entryNode, Node.string_inj, Ne.symm (Node.string_ne_empty _)]

theorem object_store (d : NSMutableDictionary) (key k : String) (value : Option String) :
    (d.store key value).object k = if k = key then entryNode value else d.object k := by
  by_cases hk : k = key
  · subst hk
    simp [object, store]
  · rw [if_neg hk]
    exact Tree.sub_set_apart d _ (apart_cons_of_ne [] [] (Ne.symm hk))

@[simp] theorem object_store_self (d : NSMutableDictionary) (key : String) (value : Option String) :
    (d.store key value).object key = entryNode value := by
  simp [object_store]

/-- A dictionary holds what its last entry for the key says. -/
theorem object_dictionary (entries : List (String × Node)) (key : String) :
    object (Node.dictionary entries) key = ((entries.reverse.find? fun e => e.1 = key).map Prod.snd).getD Tree.empty := by
  induction entries using List.reverseRecOn with
  | nil => rfl
  | append_singleton entries e ih =>
    have hset : Node.dictionary (entries ++ [e]) = (Node.dictionary entries).set [e.1] e.2 := by
      simp [Node.dictionary, Tree.update]
    rw [hset, List.reverse_append, List.reverse_singleton, List.singleton_append]
    by_cases hk : e.1 = key
    · simp [hk, object]
    · rw [object, Tree.sub_set_apart _ _ (apart_cons_of_ne [] [] hk), List.find?_cons_of_neg (by simpa using hk)]
      exact ih

end NSMutableDictionary

inductive Field where
  | relationships
  | pending
  | requests
deriving DecidableEq, Repr

namespace Field

/-- The key under `users/<name>`. -/
def key : Field → String
  | relationships => "relationships"
  | pending => "pending"
  | requests => "requests"

/-- Where the other user keeps the same link. -/
def mirror : Field → Field
  | relationships => relationships
  | pending => requests
  | requests => pending

instance {p : Field → Prop} [DecidablePred p] : Decidable (∀ f, p f) :=
  decidable_of_iff (p relationships ∧ p pending ∧ p requests)
    ⟨fun ⟨h1, h2, h3⟩ f => by cases f <;> assumption, fun h => ⟨h _, h _, h _⟩⟩

@[simp] theorem mirror_mirror (f : Field) : f.mirror.mirror = f := by cases f <;> rfl

theorem isValidKey_key (f : Field) : isValidKey f.key := by cases f <;> decide

theorem key_inj {f g : Field} : f.key = g.key ↔ f = g := by
  cases f <;> cases g <;> simp [key]

end Field

structure User where
  uid : String
  email : String
  displayName : Option String
  userName : String
  firstName : String
  lastName : String
  relationships : NSMutableDictionary
  requests : NSMutableDictionary
  pending : NSMutableDictionary
deriving DecidableEq

namespace User

/-- One of the three dictionaries. -/
def dict (user : User) : Field → NSMutableDictionary
  | .relationships => user.relationships
  | .pending => user.pending
  | .requests => user.requests

/-- `user.<field>[name] = value`, in place; `removeObject` for `none`. -/
def mutate (user : User) (f : Field) (name : String) (value : Option String) : User :=
  match f with
  | .relationships => { user with relationships := NSMutableDictionary.store user.relationships name value }
  | .pending => { user with pending := NSMutableDictionary.store user.pending name value }
  | .requests => { user with requests := NSMutableDictionary.store user.requests name value }

@[simp] theorem mutate_userName (user : User) (f : Field) (name : String) (value : Option String) :
    (user.mutate f name value).userName = user.userName := by
  cases f <;> rfl

@[simp] theorem mutate_uid (user : User) (f : Field) (name : String) (value : Option String) :
    (user.mutate f name value).uid = user.uid := by
  cases f <;> rfl

@[simp] theorem mutate_email (user : User) (f : Field) (name : String) (value : Option String) :
    (user.mutate f name value).email = user.email := by
  cases f <;> rfl

theorem dict_mutate (user : User) (f g : Field) (name : String) (value : Option String) :
    (user.mutate f name value).dict g =
      if g = f then NSMutableDictionary.store (user.dict f) name value else user.dict g := by
  cases f <;> cases g <;> rfl

end User

end Anissagram
