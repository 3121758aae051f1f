import Anissagram.User
/-
# `DatabaseManager` (`anissagram/ViewModels/DatabaseManager.swift`)

Every method that writes ends in one `updateChildValues` or one `setValue`. A `Call` is such a
method with its arguments, `Call.write` runs its body up to the hand-over to the SDK: `none` is a
run-time trap (a dictionary literal with duplicate keys, `!` on `nil`) or an exception of the SDK.
The server then applies the write in one piece (`Database.apply`).

`insertUser` ends with `uploadDeviceToken`, whose `setValue` sits in the callback of the token
request; the two are separate calls here. User names, which become keys, are taken in one normal form.
-/

namespace Anissagram

open PathTree

namespace DatabaseManager

/-- `sendNotification` (:19); `uuid` is the drawn message key. -/
def sendNotification (uuid sendTo sendFrom : String) (numLove : Int) : Option CompoundWrite := do
  let newMessage ← child ["messages"] uuid
  some [(newMessage, .dictionary
    [("level", .number numLove), ("sendTo", .string sendTo), ("sendFrom", .string sendFrom)])]

/-- `insertUser` (:27). -/
def insertUser (user : User) : Option CompoundWrite := do
  let userBody := Node.dictionary [
    ("first_name", .string user.firstName),
    ("last_name", .string user.lastName),
    ("relationships", user.relationships)]
  let relationshipBody := Node.dictionary [
    ("users", .array [.string user.userName, .string user.userName]),
    ("data", .string "NONE")]
  let userName := user.userName
  let uuid ← (user.relationships.object userName).asString?
  let updates ← dictionaryLiteral [
    (s!"users/{userName}/", some userBody),
    (s!"relationships/{uuid}", some relationshipBody)]
  compoundWriteFromDictionary updates

/-- The callback of `uploadDeviceToken` (:67). -/
def uploadDeviceToken (userName token : String) : Option CompoundWrite := do
  let user ← child ["users"] userName
  let deviceID ← child user "deviceID"
  some [(deviceID, .string token)]

/-- The first post of a relationship (:90). -/
def welcome (userName relationshipUser : String) : String :=
  s!"Hello! Welcome to a relationship between {userName} and {relationshipUser}! Here is a place you can post memories with this person, and only you two can see it! To add a memory, click the plus button in the top right and choose either an image or block of text to add. To delete a memory (like this one) hold down and press delete! This is a space for you two now!"

/-- The record `addRelationship` stores under `relationships/<id>`. -/
def relationshipRecord (userName relationshipUser : String) : Node :=
  .dictionary [
    ("users", .array [.string userName, .string relationshipUser]),
    ("data", .array [.dictionary [
      ("text-post", .dictionary [("data", .string (welcome userName relationshipUser))])]])]

/-- `addRelationship` (:85). -/
def addRelationship (userName relationshipUser relationshipUUID : String) :
    Option CompoundWrite := do
  let updates ← dictionaryLiteral [
    (s!"users/{userName}/relationships/{relationshipUser}", some (.string relationshipUUID)),
    (s!"users/{relationshipUser}/relationships/{userName}", some (.string relationshipUUID)),
    (s!"relationships/{relationshipUUID}", some (relationshipRecord userName relationshipUser))]
  compoundWriteFromDictionary updates

/-- `deleteRelationship` (:99). -/
def deleteRelationship (userName relationshipUser relationshipUUID : String) :
    Option CompoundWrite := do
  let updates ← dictionaryLiteral [
    (s!"users/{userName}/relationships/{relationshipUser}", none),
    (s!"users/{relationshipUser}/relationships/{userName}", none),
    (s!"relationships/{relationshipUUID}", none)]
  compoundWriteFromDictionary updates

/-- `addPending` (:109). -/
def addPending (userName relationshipUser relationshipUUID : String) : Option CompoundWrite := do
  let updates ← dictionaryLiteral [
    (s!"users/{userName}/pending/{relationshipUser}", some (.string relationshipUUID)),
    (s!"users/{relationshipUser}/requests/{userName}", some (.string relationshipUUID))]
  compoundWriteFromDictionary updates

/-- `removePending` (:119). -/
def removePending (userName relationshipUser : String) : Option CompoundWrite := do
  let updates ← dictionaryLiteral [
    (s!"users/{userName}/pending/{relationshipUser}", none),
    (s!"users/{relationshipUser}/requests/{userName}", none)]
  compoundWriteFromDictionary updates

/-- `removeRequest` (:128). -/
def removeRequest (userName relationshipUser : String) : Option CompoundWrite := do
  let updates ← dictionaryLiteral [
    (s!"users/{relationshipUser}/pending/{userName}", none),
    (s!"users/{userName}/requests/{relationshipUser}", none)]
  compoundWriteFromDictionary updates

end DatabaseManager

/-- A writing method of `DatabaseManager` with its arguments. -/
inductive Call where
  | sendNotification (uuid sendTo sendFrom : String) (numLove : Int)
  | insertUser (user : User)
  | uploadDeviceToken (userName token : String)
  | addRelationship (userName relationshipUser relationshipUUID : String)
  | deleteRelationship (userName relationshipUser relationshipUUID : String)
  | addPending (userName relationshipUser relationshipUUID : String)
  | removePending (userName relationshipUser : String)
  | removeRequest (userName relationshipUser : String)
deriving DecidableEq

def Call.write : Call → Option CompoundWrite
  | .sendNotification uuid sendTo sendFrom numLove =>
    DatabaseManager.sendNotification uuid sendTo sendFrom numLove
  | .insertUser user => DatabaseManager.insertUser user
  | .uploadDeviceToken userName token => DatabaseManager.uploadDeviceToken userName token
  | .addRelationship u r id => DatabaseManager.addRelationship u r id
  | .deleteRelationship u r id => DatabaseManager.deleteRelationship u r id
  | .addPending u r id => DatabaseManager.addPending u r id
  | .removePending u r => DatabaseManager.removePending u r
  | .removeRequest u r => DatabaseManager.removeRequest u r

/-- The server applies the write of a call in one piece. A call that trapped or threw was never
handed over and changes nothing. -/
def Database.apply (db : Database) (c : Call) : Database := db.update (c.write.getD [])

/-- Several calls, one after the other. -/
def Database.applyAll (db : Database) (cs : List Call) : Database := cs.foldl Database.apply db

@[simp] theorem Database.applyAll_nil (db : Database) : db.applyAll [] = db := rfl
@[simp] theorem Database.applyAll_cons (db : Database) (c : Call) (cs : List Call) :
    db.applyAll (c :: cs) = (db.apply c).applyAll cs := rfl

end Anissagram
