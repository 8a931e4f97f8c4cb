import Grapevine.Lib.Bytes

/-!
# Identifiers, event contents and PDUs

The data that the services pass around.  Identifiers are UTF-8 texts, and no UTF-8 text
contains the byte `0xFF` that the database glues keys with: this is a field of the type
(`Text.noSep`).  The content of an event is a JSON object (`JsonObject`): hashing, signing and
redacting an event all refuse a content that is not one.

`ExtractMembership`, `ExtractBody` are the small structures that the timeline deserializes a
content into; a failed deserialization is `none` or an error at the place that calls it.
-/

namespace Grapevine
open Kv

/-! ## identifiers -/

structure Text where
  bytes : Bytes
  noSep : sep ∉ bytes
deriving DecidableEq

structure UserId extends Text
deriving DecidableEq

structure RoomId extends Text
deriving DecidableEq

structure EventId extends Text
deriving DecidableEq

structure ServerName extends Text
deriving DecidableEq

structure DeviceId extends Text
deriving DecidableEq

theorem UserId.ext_bytes {a b : UserId} (h : a.bytes = b.bytes) : a = b := by
  obtain ⟨⟨a, _⟩⟩ := a
  obtain ⟨⟨b, _⟩⟩ := b
  cases h
  rfl

theorem RoomId.ext_bytes {a b : RoomId} (h : a.bytes = b.bytes) : a = b := by
  obtain ⟨⟨a, _⟩⟩ := a
  obtain ⟨⟨b, _⟩⟩ := b
  cases h
  rfl

theorem EventId.ext_bytes {a b : EventId} (h : a.bytes = b.bytes) : a = b := by
  obtain ⟨⟨a, _⟩⟩ := a
  obtain ⟨⟨b, _⟩⟩ := b
  cases h
  rfl

theorem DeviceId.ext_bytes {a b : DeviceId} (h : a.bytes = b.bytes) : a = b := by
  obtain ⟨⟨a, _⟩⟩ := a
  obtain ⟨⟨b, _⟩⟩ := b
  cases h
  rfl

instance : LinearOrder EventId :=
  LinearOrder.lift' (fun e => e.bytes) (fun _ _ h => EventId.ext_bytes h)

/-- the order of the maps that the code keys by room -/
instance : LinearOrder RoomId := LinearOrder.lift' (fun r => r.bytes) (fun _ _ h => RoomId.ext_bytes h)

/-! ## contents -/

inductive Json where
  | null
  | bool (b : Bool)
  | num (n : Int)
  | str (s : String)
  | arr (xs : List Json)
  | obj (fields : List (String × Json))

/-- a `CanonicalJsonObject`: the members of an object, one per name -/
abbrev JsonObject := List (String × Json)

namespace JsonObject

def get (o : JsonObject) (name : String) : Option Json := o.lookup name

def remove (o : JsonObject) (name : String) : JsonObject := o.filter (fun f => f.1 ≠ name)

def insert (o : JsonObject) (name : String) (v : Json) : JsonObject := (name, v) :: remove o name

theorem get_remove_of_ne (o : JsonObject) {name name' : String} (h : name' ≠ name) :
    (o.remove name).get name' = o.get name' := by
  induction o with
  | nil => rfl
  | cons f o ih =>
    obtain ⟨n, v⟩ := f
    unfold JsonObject.get JsonObject.remove at ih ⊢
    by_cases hn : n = name
    · have hne : (name' == n) = false := by
        rw [hn]
        exact beq_false_of_ne h
      rw [List.filter_cons_of_neg (by simp [hn]), ih, List.lookup_cons, hne]
    · rw [List.filter_cons_of_pos (by simp [hn]), List.lookup_cons, List.lookup_cons, ih]

theorem get_insert_of_ne (o : JsonObject) {name name' : String} (v : Json) (h : name' ≠ name) :
    (o.insert name v).get name' = o.get name' := by
  show List.lookup name' ((name, v) :: remove o name) = _
  rw [List.lookup_cons, beq_false_of_ne h]
  exact get_remove_of_ne o h

end JsonObject

inductive MembershipState where
  | join
  | invite
  | leave
  | ban
  | knock
  | custom (s : String)
deriving DecidableEq

def MembershipState.ofStr (s : String) : MembershipState :=
  if s = "join" then .join
  else if s = "invite" then .invite
  else if s = "leave" then .leave
  else if s = "ban" then .ban
  else if s = "knock" then .knock
  else .custom s

/-- `serde_json::from_str::<ExtractMembership>`: the member must be there and be a string -/
def extractMembership (content : JsonObject) : Option MembershipState :=
  match content.get "membership" with
  | some (.str s) => some (.ofStr s)
  | _ => none

/-- the `ExtractBody` with `body: Option<String>`: `none` if the deserialization fails -/
def extractBody (content : JsonObject) : Option (Option String) :=
  match content.get "body" with
  | none => some none
  | some .null => some none
  | some (.str s) => some (some s)
  | _ => none

/-- the `ExtractBody` of `redact_pdu`, with `body: String` -/
def extractBodyStr (content : JsonObject) : Option String :=
  match content.get "body" with
  | some (.str s) => some s
  | _ => none

/-! ## events -/

/-- `TimelineEventType` and `StateEventType`; the code converts between the two through the
name, so one type stands for both -/
inductive EventType where
  | roomCreate
  | roomMember
  | roomPowerLevels
  | roomJoinRules
  | roomCanonicalAlias
  | roomAvatar
  | roomName
  | roomRedaction
  | roomMessage
  | roomEncryption
  | spaceChild
  | other (name : String)
deriving DecidableEq

structure PduEvent where
  eventId : EventId
  roomId : RoomId
  sender : UserId
  originServerTs : Nat
  kind : EventType
  content : JsonObject
  stateKey : Option String
  prevEvents : List EventId
  depth : Nat
  authEvents : List EventId
  redacts : Option EventId
  unsigned : Option JsonObject

/-- a stored event: the JSON object, and the `PduEvent` it deserializes to -/
structure PduJson where
  json : JsonObject
  pdu : PduEvent

/-- writing the member `unsigned` of the object -/
def PduJson.setUnsigned (j : PduJson) (u : JsonObject) : PduJson :=
  ⟨j.json.insert "unsigned" (.obj u), { j.pdu with unsigned := some u }⟩

namespace PduEvent

def removeTransactionId (p : PduEvent) : PduEvent :=
  match p.unsigned with
  | some u => { p with unsigned := some (u.remove "transaction_id") }
  | none => p

def addAge (p : PduEvent) : PduEvent :=
  { p with unsigned := some (JsonObject.insert (p.unsigned.getD []) "age" (.num 1)) }

end PduEvent

/-! ## errors -/

inductive ErrorKind where
  | forbidden
  | notFound
  | invalidParam
  | missingParam
  | unrecognized
  | unsupportedRoomVersion
  | unknownToken (softLogout : Bool)
  | missingToken
  | invalidUsername
  | badJson
  | exclusive
  | unauthorized
  | unknown
deriving DecidableEq

/-- `panic` is an `expect`, `unwrap`, `assert` or checked arithmetic that fails: the call does
not return -/
inductive Error where
  | badDatabase (msg : String)
  | badRequest (kind : ErrorKind) (msg : String)
  | badServerResponse (msg : String)
  | redaction (server : ServerName)
  | panic (msg : String)
deriving DecidableEq

def Error.isPanic : Error → Bool
  | .panic _ => true
  | _ => false

theorem except_ok_bind {α β : Type} (a : α) (f : α → Except Error β) : (Except.ok a >>= f) = f a := rfl

end Grapevine
