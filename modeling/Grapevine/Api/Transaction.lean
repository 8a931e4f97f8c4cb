import Grapevine.Events.Incoming
import Grapevine.Lib.Loop
import Grapevine.Sync.ToDevice
import Grapevine.Sync.Writers

/-!
# Transactions of other servers

`sendTransactionMessageRoute` takes the PDUs and EDUs that another server sends in one request: first
all PDUs, and then all EDUs, one after the other.

* `receivePdu`    a PDU; its result goes into the response;
* `handleEdu`     an EDU, of one of six kinds;
* `wellFormed`    the transaction without its malformed items.

Main result: `transaction_independent`.  The response and the store are those of the transaction without
its malformed items, exactly if none of these ends the request: a PDU that is no object or has no
room id, and an EDU with a broken message or key, take everything behind them along
(`transaction_discarded`).
-/

namespace Grapevine
open Kv

namespace Federation

/-! ## what is sent -/

structure ReceiptData where
  data : Json
  eventIds : List EventId

inductive DeviceIdOrAllDevices where
  | deviceId (d : DeviceId)
  | allDevices

/-- a `Raw<CrossSigningKey>`: the text, and the values of `keys`, if it deserializes -/
structure CrossSigningKey where
  json : Bytes
  keys : Option (List String)

inductive Edu where
  | receipt (receipts : List (RoomId × List (UserId × ReceiptData)))
  | typing (userId : UserId) (roomId : RoomId) (typing : Bool)
  | deviceListUpdate (userId : UserId)
  /-- the content of a message may be no JSON value -/
  | directToDevice (sender : UserId) (evType messageId : String)
      (messages : List (UserId × List (DeviceIdOrAllDevices × Option Json)))
  | signingKeyUpdate (userId : UserId) (masterKey selfSigningKey : Option CrossSigningKey)
  | presence
  | custom

/-- an EDU as it came, if it deserializes -/
abbrev RawEdu := Option Edu

structure Transaction where
  senderServername : ServerName
  pdus : List RawPdu
  edus : List RawEdu

/-! ## the store -/

structure EduTables where
  readreceipts : Tree Bytes JsonObject
  keychanges : Tree Bytes UserId
  typing : RoomId → UserId → Option Nat
  lastTypingUpdate : RoomId → Option Nat
  todevice : ToDevice.Table
  userdevicetxnidResponse : Tree Bytes Bytes
  keyidKey : Tree Bytes Bytes
  useridMasterkeyid : UserId → Option Bytes
  useridSelfsigningkeyid : UserId → Option Bytes
  useridUsersigningkeyid : UserId → Option Bytes

def EduTables.empty : EduTables where
  readreceipts := .empty
  keychanges := .empty
  typing _ _ := none
  lastTypingUpdate _ := none
  todevice := .empty
  userdevicetxnidResponse := .empty
  keyidKey := .empty
  useridMasterkeyid _ := none
  useridSelfsigningkeyid _ := none
  useridUsersigningkeyid _ := none

abbrev ResolvedMap := EventId → Option (Except Error Unit)

/-- the store, and the results of the PDUs so far -/
structure Txn where
  db : Db
  edus : EduTables
  resolvedMap : ResolvedMap

abbrev TxnComp := Comp Txn Error

/-- what does not change during a transaction -/
structure Server where
  env : Env
  fed : Fed
  fuel : Nat
  /-- `millis_since_unix_epoch` -/
  millis : Nat → Nat
  /-- the rows of `userdeviceid_metadata` -/
  allDeviceIds : UserId → List DeviceId
  /-- an error as a text -/
  display : Error → String

def onDb {α : Type} (x : RoomComp α) : TxnComp α := fun s => ((x s.db).1, { s with db := (x s.db).2 })

def onEdus (f : EduTables → EduTables) : TxnComp Unit := Comp.modify fun s => { s with edus := f s.edus }

/-- an error that is looked at; a panic goes on -/
def caught {α : Type} (f : Db → Except Error α) : TxnComp (Option α) := fun s =>
  match f s.db with
  | .ok a => (.ok (some a), s)
  | .error e => if e.isPanic then (.error e, s) else (.ok none, s)

section
variable (S : Server) (origin : ServerName)

/-! ## PDUs -/

/-- the result of a PDU is kept, unless the handler panics -/
def handlePdu (e : EventId) (r : RoomId) (value : JsonObject) : TxnComp Unit := fun s =>
  match Db.handleIncomingPdu S.env S.fed S.fuel origin e r value true s.db with
  | (.ok _, db) => (.ok (), { s with db := db, resolvedMap := Function.update s.resolvedMap e (some (.ok ())) })
  | (.error err, db) =>
    if err.isPanic then (.error err, { s with db := db })
    else (.ok (), { s with db := db, resolvedMap := Function.update s.resolvedMap e (some (.error err)) })

def receivePdu (raw : RawPdu) : TxnComp Unit :=
  match raw with
  | none => Comp.throw (.badServerResponse "Invalid PDU in server response")
  | some value => do
    let r ← Comp.ofExcept (Db.roomOf S.fed value)
    match ← caught fun db => db.getRoomVersion S.env r with
    -- this server is not in the room
    | none => pure ()
    | some _ =>
      match ← caught fun db => db.parseIncomingPdu S.env S.fed raw with
      | none => pure ()
      | some (e, value, r) => handlePdu S origin e r value

/-! ## receipts -/

/-- `max_by_key`: the last one of the largest -/
def maxByCount (events : List (EventId × PduCount)) : Option (EventId × PduCount) :=
  events.foldl (fun best x =>
    match best with
    | none => some x
    | some b => if x.2 < b.2 then some b else some x) none

/-- the latest of the events that are in the timeline -/
def latestKnown (db : Db) (eventIds : List EventId) : Option EventId :=
  (maxByCount (eventIds.filterMap fun e =>
    ((db.timeline.getPduCount e).toOption.bind id).map fun count => (e, count))).map Prod.fst

def receiptEvent (e : EventId) (u : UserId) (r : RoomId) (data : Json) : JsonObject :=
  [("content", .obj [(S.fed.eventIdStr e, .obj [("m.read", .obj [(S.env.ids.userIdStr u, data)])])]),
    ("room_id", .str (S.env.roomIdStr r))]

/-- the latest row of the user in the room -/
def oldReceipt (t : Tree Bytes JsonObject) (r : RoomId) (u : UserId) : Option Bytes :=
  ((t.upTo (SyncUpdates.receiptRows r) 8 (2^64 - 1)).find? fun row => afterLast row.1 = u.bytes).map Prod.fst

def dropOldReceipt (u : UserId) (r : RoomId) (t : EduTables) : EduTables :=
  match oldReceipt t.readreceipts r u with
  | some old => { t with readreceipts := t.readreceipts.remove old }
  | none => t

def readreceiptUpdate (u : UserId) (r : RoomId) (event : JsonObject) : TxnComp Unit := do
  onEdus (dropOldReceipt u r)
  let count ← onDb Db.nextCount
  onEdus fun t =>
    { t with readreceipts := t.readreceipts.insert (SyncUpdates.readreceiptid r count u) event }

def handleReceipt (r : RoomId) (update : UserId × ReceiptData) : TxnComp Unit :=
  if S.env.ids.serverName update.1 ≠ origin then pure ()
  else do
    match latestKnown (← Comp.get).db update.2.eventIds with
    | some e => readreceiptUpdate update.1 r (receiptEvent S e update.1 r update.2.data)
    | none => pure ()

/-! ## typing -/

/-- `typing_add` and `typing_remove` -/
def setTyping (u : UserId) (r : RoomId) (timeout : Option Nat) : TxnComp Unit := do
  onEdus fun t => { t with typing := Function.update t.typing r (Function.update (t.typing r) u timeout) }
  let count ← onDb Db.nextCount
  onEdus fun t => { t with lastTypingUpdate := Function.update t.lastTypingUpdate r (some count) }

def typingAdd (u : UserId) (r : RoomId) (timeout : Nat) : TxnComp Unit := setTyping u r (some timeout)

def typingRemove (u : UserId) (r : RoomId) : TxnComp Unit := setTyping u r none

def handleTyping (u : UserId) (r : RoomId) (typing : Bool) : TxnComp Unit := do
  if (← Comp.get).db.members.isJoined u r then
    if typing then do
      let n ← onDb Db.tick
      typingAdd u r (3000 + S.millis n)
    else typingRemove u r
  else pure ()

/-! ## keys -/

def putKeyChange (target : Text) (count : Nat) (u : UserId) : TxnComp Unit :=
  onEdus fun t => { t with keychanges := t.keychanges.insert (SyncUpdates.keychangeid target count) u }

/-- key updates are not sent to unencrypted rooms -/
def markInRoom (count : Nat) (u : UserId) (r : RoomId) : TxnComp Unit := do
  match ← Comp.reads fun s => s.db.roomStateGet S.env r .roomEncryption "" with
  | none => pure ()
  | some _ => putKeyChange r.toText count u

def markDeviceKeyUpdate (u : UserId) : TxnComp Unit := do
  let count ← onDb Db.nextCount
  let rooms := ((← Comp.get).db.members.roomsJoined S.env.ids u).filterMap Except.toOption
  rooms.forM (markInRoom S count u)
  putKeyChange u.toText count u

/-- the one key of a cross-signing key -/
def soleKey (invalid noKey manyKeys : String) (k : CrossSigningKey) : Except Error String :=
  match k.keys with
  | none => .error (.badRequest .invalidParam invalid)
  | some [] => .error (.badRequest .invalidParam noKey)
  | some [key] => .ok key
  | some _ => .error (.badRequest .invalidParam manyKeys)

def parseMasterKey : CrossSigningKey → Except Error String :=
  soleKey "Invalid master key" "Master key contained no key." "Master key contained more than one key."

def parseSelfSigningKey : CrossSigningKey → Except Error String :=
  soleKey "Invalid self signing key" "Self signing key contained no key."
    "Self signing key contained more than one key."

def parseUserSigningKey : CrossSigningKey → Except Error String :=
  soleKey "Invalid user signing key" "User signing key contained no key."
    "User signing key contained more than one key."

/-- the row of a key of a user -/
def keyRow (u : UserId) (key : String) : Bytes := u.bytes ++ sep :: strBytes key

/-- an optional key is parsed, and stored under the id it has -/
def addKey (parse : CrossSigningKey → Except Error String) (setId : Bytes → EduTables → EduTables)
    (u : UserId) (k : Option CrossSigningKey) : TxnComp Unit :=
  match k with
  | none => pure ()
  | some k => do
    let key ← Comp.ofExcept (parse k)
    onEdus fun t => setId (keyRow u key) { t with keyidKey := t.keyidKey.insert (keyRow u key) k.json }

def addCrossSigningKeys (u : UserId) (masterKey : CrossSigningKey)
    (selfSigningKey userSigningKey : Option CrossSigningKey) (notify : Bool) : TxnComp Unit := do
  addKey parseMasterKey
    (fun row t => { t with useridMasterkeyid := Function.update t.useridMasterkeyid u (some row) }) u
    (some masterKey)
  addKey parseSelfSigningKey (fun row t =>
    { t with useridSelfsigningkeyid := Function.update t.useridSelfsigningkeyid u (some row) }) u
    selfSigningKey
  addKey parseUserSigningKey (fun row t =>
    { t with useridUsersigningkeyid := Function.update t.useridUsersigningkeyid u (some row) }) u
    userSigningKey
  if notify then markDeviceKeyUpdate S u else pure ()

/-! ## messages to devices -/

/-- the row of a transaction without a device -/
def txnidRow (u : UserId) (txnId : String) : Bytes := u.bytes ++ sep :: sep :: strBytes txnId

def existingTxnid (t : EduTables) (u : UserId) (txnId : String) : Option Bytes :=
  t.userdevicetxnidResponse.get (txnidRow u txnId)

def addTxnid (u : UserId) (txnId : String) (data : Bytes) : TxnComp Unit :=
  onEdus fun t =>
    { t with userdevicetxnidResponse := t.userdevicetxnidResponse.insert (txnidRow u txnId) data }

def addToDeviceEvent (sender target : UserId) (device : DeviceId) (evType : String) (content : Json) :
    TxnComp Unit := do
  let count ← onDb Db.nextCount
  onEdus fun t => { t with
    todevice := t.todevice.add target device count
      (ToDevice.toDeviceJson (S.env.ids.userIdStr sender) evType content) }

def deliver (sender : UserId) (evType : String) (target : UserId) (event : Option Json)
    (device : DeviceId) : TxnComp Unit := do
  let content ← Comp.expect event (.badRequest .invalidParam "Event is invalid")
  addToDeviceEvent S sender target device evType content

/-- the devices that a message goes to -/
def targetDevices (target : UserId) : DeviceIdOrAllDevices → List DeviceId
  | .deviceId d => [d]
  | .allDevices => S.allDeviceIds target

def sendToDevice (sender : UserId) (evType : String)
    (messages : List (UserId × List (DeviceIdOrAllDevices × Option Json))) : TxnComp Unit :=
  messages.forM fun message => message.2.forM fun entry =>
    (targetDevices S message.1 entry.1).forM (deliver S sender evType message.1 entry.2)

def handleDirectToDevice (sender : UserId) (evType messageId : String)
    (messages : List (UserId × List (DeviceIdOrAllDevices × Option Json))) : TxnComp Unit := do
  if (existingTxnid (← Comp.get).edus sender messageId).isNone then do
    sendToDevice S sender evType messages
    -- save the transaction id with empty data
    addTxnid sender messageId []
  else pure ()

/-! ## the request -/

/-- what another server says about a user counts only if the user is one of its own -/
def ofOrigin (u : UserId) (x : TxnComp Unit) : TxnComp Unit :=
  if S.env.ids.serverName u ≠ origin then pure () else x

def handleEdu : RawEdu → TxnComp Unit
  | none => pure ()
  | some (.receipt receipts) => receipts.forM fun room => room.2.forM (handleReceipt S origin room.1)
  | some (.typing u r typing) => ofOrigin S origin u (handleTyping S u r typing)
  | some (.deviceListUpdate u) => ofOrigin S origin u (markDeviceKeyUpdate S u)
  | some (.directToDevice sender evType messageId messages) =>
    ofOrigin S origin sender (handleDirectToDevice S sender evType messageId messages)
  | some (.signingKeyUpdate u masterKey selfSigningKey) =>
    ofOrigin S origin u (match masterKey with
      | some masterKey => addCrossSigningKeys S u masterKey selfSigningKey none true
      | none => pure ())
  | some .custom => pure ()
  | some .presence => pure ()

end

def sanitizedError (S : Server) : Error → String
  | .badDatabase _ => "Database or I/O error occurred."
  | e => S.display e

abbrev Response := EventId → Option (Except String Unit)

def responseOf (S : Server) (resolvedMap : ResolvedMap) : Response := fun e =>
  (resolvedMap e).map (Except.mapError (sanitizedError S))

def sendTransactionMessageRoute (S : Server) (tx : Transaction) : TxnComp Response := do
  Comp.modify fun s => { s with resolvedMap := fun _ => none }
  tx.pdus.forM (receivePdu S tx.senderServername)
  -- the EDUs do not touch the results of the PDUs
  let resolvedMap ← Comp.gets Txn.resolvedMap
  tx.edus.forM (handleEdu S tx.senderServername)
  pure (responseOf S resolvedMap)

/-! ## malformed items -/

section
variable (S : Server) (origin : ServerName)

/-- there is no event id, in whatever version -/
def PduMalformed (raw : RawPdu) : Prop :=
  ∀ value r, raw = some value → Db.roomOf S.fed value = .ok r →
    ∀ version, S.fed.referenceHash value version = none

/-- a message that has a device to go to is no JSON value -/
def hasBadMessage (messages : List (UserId × List (DeviceIdOrAllDevices × Option Json))) : Bool :=
  messages.any fun message => message.2.any fun entry =>
    entry.2.isNone && !(targetDevices S message.1 entry.1).isEmpty

def badKey (k : CrossSigningKey) : Bool :=
  match k.keys with
  | some [_] => false
  | _ => true

def eduMalformed : RawEdu → Bool
  | none => true
  | some (.directToDevice _ _ _ messages) => hasBadMessage S messages
  | some (.signingKeyUpdate _ masterKey selfSigningKey) =>
    masterKey.any badKey || selfSigningKey.any badKey
  | some _ => false

open Classical in
/-- the transaction without its malformed items -/
noncomputable def wellFormed (tx : Transaction) : Transaction :=
  { tx with
    pdus := tx.pdus.filter fun raw => decide (¬ PduMalformed S raw)
    edus := tx.edus.filter fun edu => !eduMalformed S edu }

/-- an object with a room id and, if the room is known, with an event id -/
def PduReadable (raw : RawPdu) (s : Txn) : Prop :=
  ∃ value r, raw = some value ∧ Db.roomOf S.fed value = .ok r ∧
    ∀ version, s.db.getRoomVersion S.env r = .ok version →
      (S.fed.referenceHash value version).isSome = true

/-- a malformed EDU of the server itself that is not passed over -/
def Breaks (s : Txn) : RawEdu → Prop
  | some (.directToDevice sender _ messageId messages) =>
    S.env.ids.serverName sender = origin ∧ existingTxnid s.edus sender messageId = none ∧
      hasBadMessage S messages = true
  | some (.signingKeyUpdate u (some masterKey) selfSigningKey) =>
    S.env.ids.serverName u = origin ∧ (badKey masterKey || selfSigningKey.any badKey) = true
  | _ => False

/-- an error of this server: a panic, or a state that cannot be read -/
def ServerError (e : Error) : Prop :=
  e.isPanic = true ∨ ∃ (db : Db) (r : RoomId), db.roomStateGet S.env r .roomEncryption "" = .error e

def PduPasses (raw : RawPdu) (s : Txn) : Prop :=
  PduReadable S raw s ∧ ¬ Comp.FailsIn (fun e => e.isPanic = true) (receivePdu S origin raw) s

def EduPasses (edu : RawEdu) (s : Txn) : Prop :=
  ¬ Breaks S origin s edu ∧ ¬ Comp.FailsIn (ServerError S) (handleEdu S origin edu) s

end

/-! ### PDUs -/

section
variable {S : Server} {origin : ServerName}
variable {messages : List (UserId × List (DeviceIdOrAllDevices × Option Json))} {s : Txn}
  {k selfSigningKey : Option CrossSigningKey} {masterKey : CrossSigningKey} {sender u : UserId}
  {value : JsonObject} {evType messageId : String} {x : TxnComp Unit} {raw : RawPdu} {edu : RawEdu}
  {r : RoomId}

section
variable {α : Type} {f : Db → Except Error α} {s : Txn}
variable {e : Error}

theorem caught_ok {a : α} (h : f s.db = .ok a) : caught f s = (.ok (some a), s) := by
  unfold caught
  rw [h]

theorem caught_panic (h : f s.db = .error e) (hp : e.isPanic = true) :
    caught f s = (.error e, s) := by
  unfold caught
  rw [h]
  exact if_pos hp

theorem caught_error (h : f s.db = .error e) (hp : ¬ e.isPanic = true) :
    caught f s = (.ok none, s) := by
  unfold caught
  rw [h]
  exact if_neg hp

theorem never_caught (f : Db → Except Error α) : Comp.Never (fun e => ¬ e.isPanic = true) (caught f) := by
  rintro s ⟨e, s', he, hpanic⟩
  cases hf : f s.db with
  | ok a =>
    rw [caught_ok hf] at he
    cases he
  | error e' =>
    by_cases hp : e'.isPanic = true
    · rw [caught_panic hf hp] at he
      cases he
      exact hpanic hp
    · rw [caught_error hf hp] at he
      cases he

end

theorem never_handlePdu (e : EventId) (r : RoomId) (value : JsonObject) :
    Comp.Never (fun e => ¬ e.isPanic = true) (handlePdu S origin e r value) := by
  rintro s ⟨err, s', he, hpanic⟩
  unfold handlePdu at he
  split at he
  · cases he
  · split at he
    · next hp =>
      cases he
      exact hpanic hp
    · cases he

theorem receivePdu_some (hr : Db.roomOf S.fed value = .ok r) :
    Comp.Never (fun e => ¬ e.isPanic = true) (receivePdu S origin (some value)) := by
  unfold receivePdu
  refine Comp.Never.bind (Comp.Never.of_ok fun s => ⟨r, s, by rw [hr]; rfl⟩) fun r' => ?_
  refine Comp.Never.bind (never_caught _) fun version => ?_
  cases version with
  | none => exact Comp.Never.of_ok fun s => ⟨_, s, rfl⟩
  | some version =>
    refine Comp.Never.bind (never_caught _) fun parsed => ?_
    cases parsed with
    | none => exact Comp.Never.of_ok fun s => ⟨_, s, rfl⟩
    | some parsed => exact never_handlePdu parsed.1 parsed.2.2 parsed.2.1

section
variable {value : JsonObject} {r : RoomId} {s : Txn} (hr : Db.roomOf S.fed value = .ok r)
include hr

theorem parseIncomingPdu_some (db : Db) : db.parseIncomingPdu S.env S.fed (some value) =
    match db.getRoomVersion S.env r with
    | .error e => .error e
    | .ok version =>
      match S.fed.referenceHash value version with
      | none => .error (.panic "ruma can calculate reference hashes")
      | some e => .ok (e, value, r) := by
  unfold Db.parseIncomingPdu Fed.genEventIdCanonicalJson
  simp only [hr]
  show (db.getRoomVersion S.env r >>= _) = _
  cases db.getRoomVersion S.env r with
  | error e => rfl
  | ok version =>
    simp only
    cases hhash : S.fed.referenceHash value version with
    | none => simp only [bind, Except.bind, hhash]
    | some e =>
      simp only [bind, Except.bind, hhash]
      rfl

theorem receivePdu_run : receivePdu S origin (some value) s =
    match s.db.getRoomVersion S.env r with
    | .error e => if e.isPanic then (.error e, s) else (.ok (), s)
    | .ok version =>
      match S.fed.referenceHash value version with
      | none => (.error (.panic "ruma can calculate reference hashes"), s)
      | some e => handlePdu S origin e r value s := by
  have hroom : (Comp.ofExcept (Db.roomOf S.fed value) : TxnComp RoomId) s = (.ok r, s) := by
    rw [hr]
    rfl
  unfold receivePdu
  simp only
  rw [Comp.bind_ok hroom]
  cases hversion : s.db.getRoomVersion S.env r with
  | error e =>
    simp only
    by_cases hpanic : e.isPanic = true
    · rw [Comp.bind_error (caught_panic hversion hpanic), if_pos hpanic]
    · rw [Comp.bind_ok (caught_error hversion hpanic), if_neg hpanic]
      rfl
  | ok version =>
    rw [Comp.bind_ok (caught_ok hversion)]
    have hparse := parseIncomingPdu_some hr s.db
    rw [hversion] at hparse
    simp only
    cases hhash : S.fed.referenceHash value version with
    | none =>
      simp only [hhash] at hparse
      have hcaught : caught (fun db => db.parseIncomingPdu S.env S.fed (some value)) s = (.error _, s) :=
        caught_panic hparse rfl
      rw [Comp.bind_error hcaught]
    | some e =>
      simp only [hhash] at hparse
      have hcaught : caught (fun db => db.parseIncomingPdu S.env S.fed (some value)) s =
        (.ok (some (e, value, r)), s) := caught_ok hparse
      rw [Comp.bind_ok hcaught]

end

theorem receivePdu_succeeds_iff (raw : RawPdu) (s : Txn) :
    Comp.Succeeds (receivePdu S origin raw) s ↔ PduPasses S origin raw s := by
  constructor
  · intro h
    refine ⟨?_, h.not_failsIn⟩
    obtain ⟨u, s', hrun⟩ := h
    cases raw with
    | none => cases hrun
    | some value =>
      cases hr : Db.roomOf S.fed value with
      | error e =>
        have hroom : (Comp.ofExcept (Db.roomOf S.fed value) : TxnComp RoomId) s = (.error e, s) := by
          rw [hr]
          rfl
        have hfail : receivePdu S origin (some value) s = (.error e, s) := Comp.bind_error hroom
        rw [hfail] at hrun
        cases hrun
      | ok r =>
        refine ⟨value, r, rfl, hr, fun version hversion => ?_⟩
        rw [receivePdu_run hr, hversion] at hrun
        cases hhash : S.fed.referenceHash value version with
        | none =>
          simp only [hhash] at hrun
          cases hrun
        | some e => rfl
  · rintro ⟨⟨value, r, rfl, hr, _⟩, hpanic⟩
    exact Comp.Succeeds.of_never (receivePdu_some hr) hpanic

/-- a malformed PDU that does not end the request is one of an unknown room -/
theorem receivePdu_malformed (h : PduPasses S origin raw s) (hbad : PduMalformed S raw) :
    receivePdu S origin raw s = (.ok ⟨⟩, s) := by
  obtain ⟨⟨value, r, rfl, hr, hhash⟩, hpanic⟩ := h
  rw [receivePdu_run hr]
  cases hversion : s.db.getRoomVersion S.env r with
  | ok version =>
    have hsome := hhash version hversion
    rw [hbad value r rfl hr version] at hsome
    cases hsome
  | error e =>
    by_cases hp : e.isPanic = true
    · refine absurd ⟨e, s, ?_, hp⟩ hpanic
      rw [receivePdu_run hr, hversion]
      exact if_pos hp
    · exact if_neg hp

/-- the event id of a PDU of a known room -/
def eventIdOf (S : Server) (s : Txn) (raw : RawPdu) : Option EventId :=
  (s.db.parseIncomingPdu S.env S.fed raw).toOption.map Prod.fst

theorem handlePdu_resolved {e : EventId} {s' : Txn} (h : handlePdu S origin e r value s = (.ok ⟨⟩, s')) :
    ∃ o, s'.resolvedMap = Function.update s.resolvedMap e (some o) := by
  unfold handlePdu at h
  split at h
  · cases h
    exact ⟨_, rfl⟩
  · split at h
    · cases h
    · cases h
      exact ⟨_, rfl⟩

/-- a PDU that is received gets a result, or its room is unknown -/
theorem receivePdu_resolved {s' : Txn} (h : receivePdu S origin raw s = (.ok ⟨⟩, s')) :
    (eventIdOf S s raw = none ∧ s'.resolvedMap = s.resolvedMap) ∨
      ∃ e o, eventIdOf S s raw = some e ∧ s'.resolvedMap = Function.update s.resolvedMap e (some o) := by
  obtain ⟨⟨value, r, rfl, hr, hhash⟩, _⟩ := (receivePdu_succeeds_iff raw s).mp ⟨_, _, h⟩
  rw [receivePdu_run hr] at h
  unfold eventIdOf
  rw [parseIncomingPdu_some hr]
  cases hversion : s.db.getRoomVersion S.env r with
  | error e =>
    left
    rw [hversion] at h
    simp only at h
    split at h
    · cases h
    · cases h
      exact ⟨rfl, rfl⟩
  | ok version =>
    right
    obtain ⟨e, he⟩ := Option.isSome_iff_exists.mp (hhash version hversion)
    simp only [hversion, he] at h
    obtain ⟨o, ho⟩ := handlePdu_resolved h
    simp only [he]
    exact ⟨e, o, rfl, ho⟩

/-! ### EDUs -/

/-- errors are those of this server -/
def Steady (S : Server) (x : TxnComp PUnit) : Prop := Comp.Never (fun e => ¬ ServerError S e) x

theorem steady_pure : Steady S (pure ⟨⟩) := Comp.Never.of_ok fun s => ⟨_, s, rfl⟩

theorem steady_onEdus (f : EduTables → EduTables) : Steady S (onEdus f) :=
  Comp.Never.of_ok fun _ => ⟨_, _, rfl⟩

theorem never_nextCount : Comp.Never (fun e => ¬ ServerError S e) (onDb Db.nextCount) := by
  rintro s ⟨e, s', he, hserver⟩
  have hcount := (Prod.mk.inj he).1
  unfold Db.nextCount Db.onState StateDb.nextCount at hcount
  simp only at hcount
  split at hcount
  · cases hcount
  · cases hcount
    exact hserver (Or.inl rfl)

theorem steady_readreceiptUpdate (u : UserId) (r : RoomId) (event : JsonObject) :
    Steady S (readreceiptUpdate u r event) :=
  Comp.Never.bind (steady_onEdus _) fun _ => Comp.Never.bind never_nextCount fun _ => steady_onEdus _

theorem steady_handleReceipt (r : RoomId) (update : UserId × ReceiptData) :
    Steady S (handleReceipt S origin r update) := by
  unfold handleReceipt
  split
  · exact steady_pure
  · refine Comp.Never.bind (Comp.Never.of_ok fun s => ⟨s, s, rfl⟩) fun s => ?_
    split
    · exact steady_readreceiptUpdate _ _ _
    · exact steady_pure

theorem steady_setTyping (u : UserId) (r : RoomId) (timeout : Option Nat) :
    Steady S (setTyping u r timeout) :=
  Comp.Never.bind (steady_onEdus _) fun _ => Comp.Never.bind never_nextCount fun _ => steady_onEdus _

theorem steady_handleTyping (u : UserId) (r : RoomId) (typing : Bool) :
    Steady S (handleTyping S u r typing) := by
  unfold handleTyping
  refine Comp.Never.bind (Comp.Never.of_ok fun s => ⟨s, s, rfl⟩) fun s => ?_
  split
  · split
    · exact Comp.Never.bind (Comp.Never.of_ok fun _ => ⟨_, _, rfl⟩) fun _ => steady_setTyping _ _ _
    · exact steady_setTyping _ _ _
  · exact steady_pure

theorem steady_markInRoom (count : Nat) (u : UserId) (r : RoomId) : Steady S (markInRoom S count u r) := by
  unfold markInRoom
  refine Comp.Never.bind ?_ fun ev => ?_
  · rintro s ⟨e, s', he, hserver⟩
    exact hserver (Or.inr ⟨s.db, r, (Prod.mk.inj he).1⟩)
  · cases ev with
    | none => exact steady_pure
    | some _ => exact steady_onEdus _

theorem steady_markDeviceKeyUpdate (u : UserId) : Steady S (markDeviceKeyUpdate S u) := by
  unfold markDeviceKeyUpdate
  refine Comp.Never.bind never_nextCount fun count => ?_
  refine Comp.Never.bind (Comp.Never.of_ok fun s => ⟨s, s, rfl⟩) fun s => ?_
  refine Comp.Never.bind (Comp.Never.forM _ fun r _ => steady_markInRoom count u r) fun _ => ?_
  exact steady_onEdus _

theorem steady_ofOrigin (u : UserId) {x : TxnComp PUnit} (hx : Steady S x) :
    Steady S (ofOrigin S origin u x) := by
  unfold ofOrigin
  split
  · exact steady_pure
  · exact hx

/-! ### keys -/

theorem soleKey_ok_iff (a b c : String) (k : CrossSigningKey) :
    (∃ key, soleKey a b c k = .ok key) ↔ badKey k = false := by
  unfold soleKey badKey
  split
  · next h => simp [h]
  · next h => simp [h]
  · next h => simp [h]
  · next keys hkeys hone h =>
    simp only [h]
    refine iff_of_false (by simp) ?_
    split
    · next key hkey => exact absurd (Option.some.inj hkey) (hone key)
    · simp

/-- a key that is one of the three kinds -/
theorem steady_addKey {a b c : String} (setId : Bytes → EduTables → EduTables) (u : UserId)
    (h : k.any badKey = false) :
    Steady S (addKey (soleKey a b c) setId u k) := by
  cases k with
  | none => exact steady_pure
  | some k =>
    obtain ⟨key, hkey⟩ := (soleKey_ok_iff a b c k).mpr h
    exact Comp.Never.bind (Comp.Never.of_ok fun s => ⟨key, s, by rw [hkey]; rfl⟩) fun _ => steady_onEdus _

theorem addKey_succeeds {a b c : String} {setId : Bytes → EduTables → EduTables}
    (h : Comp.Succeeds (addKey (soleKey a b c) setId u k) s) :
    k.any badKey = false := by
  cases k with
  | none => rfl
  | some k =>
    obtain ⟨key, s', hkey⟩ := h.bind_left
    exact (soleKey_ok_iff a b c k).mp ⟨key, (Prod.mk.inj hkey).1⟩

theorem steady_addCrossSigningKeys (u : UserId) (h : (badKey masterKey || selfSigningKey.any badKey) = false)
    (notify : Bool) :
    Steady S (addCrossSigningKeys S u masterKey selfSigningKey none notify) := by
  obtain ⟨hmaster, hself⟩ := Bool.or_eq_false_iff.mp h
  refine Comp.Never.bind (steady_addKey _ u hmaster) fun _ => ?_
  refine Comp.Never.bind (steady_addKey _ u hself) fun _ => ?_
  refine Comp.Never.bind steady_pure fun _ => ?_
  cases notify with
  | true => exact steady_markDeviceKeyUpdate u
  | false => exact steady_pure

theorem addCrossSigningKeys_succeeds {notify : Bool}
    (h : Comp.Succeeds (addCrossSigningKeys S u masterKey selfSigningKey none notify) s) :
    (badKey masterKey || selfSigningKey.any badKey) = false := by
  obtain ⟨u', s', hrun⟩ := h
  obtain ⟨_, s₁, hmaster, hrest⟩ := Comp.bind_eq_ok.mp hrun
  obtain ⟨_, s₂, hself, _⟩ := Comp.bind_eq_ok.mp hrest
  have h1 : (some masterKey).any badKey = false := addKey_succeeds ⟨_, s₁, hmaster⟩
  have h2 : selfSigningKey.any badKey = false := addKey_succeeds ⟨_, s₂, hself⟩
  rw [h2, Bool.or_false]
  exact h1

/-! ### messages -/

theorem steady_deliver (sender : UserId) (evType : String) (target : UserId) (content : Json)
    (device : DeviceId) : Steady S (deliver S sender evType target (some content) device) :=
  Comp.Never.bind (Comp.Never.of_ok fun s => ⟨content, s, rfl⟩) fun _ =>
    Comp.Never.bind never_nextCount fun _ => steady_onEdus _

theorem hasBadMessage_iff (messages : List (UserId × List (DeviceIdOrAllDevices × Option Json))) :
    hasBadMessage S messages = true ↔ ∃ message ∈ messages, ∃ entry ∈ message.2,
      entry.2 = none ∧ ∃ device, device ∈ targetDevices S message.1 entry.1 := by
  unfold hasBadMessage
  simp only [List.any_eq_true, Bool.and_eq_true, Bool.not_eq_true', Option.isNone_iff_eq_none,
    List.isEmpty_eq_false_iff_exists_mem]

theorem steady_sendToDevice (sender : UserId) (evType : String) (h : hasBadMessage S messages = false) :
    Steady S (sendToDevice S sender evType messages) := by
  refine Comp.Never.forM _ fun message hmessage => Comp.Never.forM _ fun entry hentry =>
    Comp.Never.forM _ fun device hdevice => ?_
  cases hcontent : entry.2 with
  | some content => exact steady_deliver _ _ _ _ _
  | none =>
    rw [(hasBadMessage_iff messages).mpr
      ⟨message, hmessage, entry, hentry, hcontent, device, hdevice⟩] at h
    cases h

theorem sendToDevice_succeeds (h : Comp.Succeeds (sendToDevice S sender evType messages) s) :
    hasBadMessage S messages = false := by
  by_contra hbad
  obtain ⟨message, hmessage, entry, hentry, hnone, device, hdevice⟩ :=
    (hasBadMessage_iff messages).mp (Bool.eq_true_of_not_eq_false hbad)
  obtain ⟨s₁, h₁⟩ := h.of_mem hmessage
  obtain ⟨s₂, h₂⟩ := h₁.of_mem hentry
  obtain ⟨s₃, h₃⟩ := h₂.of_mem hdevice
  rw [hnone] at h₃
  obtain ⟨_, s₄, h₄⟩ := h₃.bind_left
  cases h₄

theorem ofOrigin_own (h : S.env.ids.serverName u = origin) :
    ofOrigin S origin u x = x := if_neg fun hne => hne h

theorem ofOrigin_other (h : S.env.ids.serverName u ≠ origin) :
    ofOrigin S origin u x = pure () := if_pos h

theorem handleDirectToDevice_new (h : existingTxnid s.edus sender messageId = none) :
    handleDirectToDevice S sender evType messageId messages s =
      (sendToDevice S sender evType messages >>= fun _ => addTxnid sender messageId []) s := by
  show (if (existingTxnid s.edus sender messageId).isNone then _ else _ : TxnComp Unit) s = _
  rw [h]
  rfl

theorem handleDirectToDevice_known (h : existingTxnid s.edus sender messageId ≠ none) :
    handleDirectToDevice S sender evType messageId messages s = (.ok (), s) := by
  obtain ⟨b, hb⟩ := Option.ne_none_iff_exists'.mp h
  show (if (existingTxnid s.edus sender messageId).isNone then _ else _ : TxnComp Unit) s = _
  rw [hb]
  rfl

/-! ### items -/

/-- an EDU that does not break off the request ends well, or this server has an error -/
theorem handleEdu_succeeds (h : EduPasses S origin edu s) :
    Comp.Succeeds (handleEdu S origin edu) s := by
  obtain ⟨hbreaks, hserver⟩ := h
  have hsteady : Steady S (handleEdu S origin edu) → Comp.Succeeds (handleEdu S origin edu) s :=
    fun hs => Comp.Succeeds.of_never hs hserver
  match edu with
  | none => exact hsteady steady_pure
  | some (.receipt receipts) =>
    exact hsteady (Comp.Never.forM _ fun _ _ => Comp.Never.forM _ fun _ _ => steady_handleReceipt _ _)
  | some (.typing u r typing) => exact hsteady (steady_ofOrigin u (steady_handleTyping u r typing))
  | some (.deviceListUpdate u) => exact hsteady (steady_ofOrigin u (steady_markDeviceKeyUpdate u))
  | some .custom => exact hsteady steady_pure
  | some .presence => exact hsteady steady_pure
  | some (.signingKeyUpdate u none selfSigningKey) => exact hsteady (steady_ofOrigin u steady_pure)
  | some (.signingKeyUpdate u (some masterKey) selfSigningKey) =>
    by_cases horigin : S.env.ids.serverName u = origin
    · have hgood : (badKey masterKey || selfSigningKey.any badKey) = false :=
        Bool.eq_false_iff.mpr fun hbad => hbreaks ⟨horigin, hbad⟩
      exact hsteady (steady_ofOrigin u (steady_addCrossSigningKeys u hgood true))
    · exact ⟨(), s, by rw [handleEdu, ofOrigin_other horigin]; rfl⟩
  | some (.directToDevice sender evType messageId messages) =>
    by_cases horigin : S.env.ids.serverName sender = origin
    · by_cases hnew : existingTxnid s.edus sender messageId = none
      · have hgood : hasBadMessage S messages = false :=
          Bool.eq_false_iff.mpr fun hbad => hbreaks ⟨horigin, hnew, hbad⟩
        have hrun : handleEdu S origin (some (.directToDevice sender evType messageId messages)) s =
            (sendToDevice S sender evType messages >>= fun _ => addTxnid sender messageId []) s := by
          rw [handleEdu, ofOrigin_own horigin, handleDirectToDevice_new hnew]
        have hnever : Steady S (sendToDevice S sender evType messages >>= fun _ =>
            addTxnid sender messageId []) :=
          Comp.Never.bind (steady_sendToDevice sender evType hgood) fun _ => steady_onEdus _
        unfold Comp.FailsIn at hserver
        rw [hrun] at hserver
        unfold Comp.Succeeds
        rw [hrun]
        exact Comp.Succeeds.of_never hnever hserver
      · exact ⟨(), s, by rw [handleEdu, ofOrigin_own horigin, handleDirectToDevice_known hnew]⟩
    · exact ⟨(), s, by rw [handleEdu, ofOrigin_other horigin]; rfl⟩

theorem handleEdu_succeeds_iff (edu : RawEdu) (s : Txn) :
    Comp.Succeeds (handleEdu S origin edu) s ↔ EduPasses S origin edu s := by
  refine ⟨fun h => ⟨fun hbreaks => ?_, h.not_failsIn⟩, handleEdu_succeeds⟩
  match edu, hbreaks with
  | some (.signingKeyUpdate u (some masterKey) selfSigningKey), ⟨horigin, hbad⟩ =>
    rw [handleEdu, ofOrigin_own horigin] at h
    rw [addCrossSigningKeys_succeeds h] at hbad
    cases hbad
  | some (.directToDevice sender evType messageId messages), ⟨horigin, hnew, hbad⟩ =>
    rw [handleEdu, ofOrigin_own horigin] at h
    unfold Comp.Succeeds at h
    rw [handleDirectToDevice_new hnew] at h
    rw [sendToDevice_succeeds (Comp.Succeeds.bind_left h)] at hbad
    cases hbad

/-- a malformed EDU that does not break off the request is passed over -/
theorem handleEdu_malformed (h : EduPasses S origin edu s) (hbad : eduMalformed S edu = true) :
    handleEdu S origin edu s = (.ok ⟨⟩, s) := by
  obtain ⟨hbreaks, _⟩ := h
  match edu with
  | none => rfl
  | some (.directToDevice sender evType messageId messages) =>
    by_cases horigin : S.env.ids.serverName sender = origin
    · by_cases hnew : existingTxnid s.edus sender messageId = none
      · exact absurd ⟨horigin, hnew, hbad⟩ hbreaks
      · rw [handleEdu, ofOrigin_own horigin, handleDirectToDevice_known hnew]
    · rw [handleEdu, ofOrigin_other horigin]
      rfl
  | some (.signingKeyUpdate u none selfSigningKey) =>
    rw [handleEdu]
    unfold ofOrigin
    split <;> rfl
  | some (.signingKeyUpdate u (some masterKey) selfSigningKey) =>
    by_cases horigin : S.env.ids.serverName u = origin
    · exact absurd ⟨horigin, hbad⟩ hbreaks
    · rw [handleEdu, ofOrigin_other horigin]
      rfl

end

/-! ## transactions -/

section
variable (S : Server)
variable {tx : Transaction} {s : Txn}

def startOf (s : Txn) : Txn := { s with resolvedMap := fun _ => none }

/-- the request is answered, the response and the store are those of the well-formed items alone, and
each PDU of a known room with an event id has a result -/
def Independent (tx : Transaction) (s : Txn) : Prop :=
  ∃ response s', sendTransactionMessageRoute S tx s = (.ok response, s') ∧
    sendTransactionMessageRoute S (wellFormed S tx) s = (.ok response, s') ∧
    Comp.Along (receivePdu S tx.senderServername)
      (fun raw s => ∀ e, eventIdOf S s raw = some e → (response e).isSome = true) tx.pdus (startOf s)

/-- no item ends the request where it is met -/
def Passes (tx : Transaction) (s : Txn) : Prop :=
  Comp.Along (receivePdu S tx.senderServername) (PduPasses S tx.senderServername) tx.pdus (startOf s) ∧
    ∀ s₁, tx.pdus.forM (receivePdu S tx.senderServername) (startOf s) = (.ok ⟨⟩, s₁) →
      Comp.Along (handleEdu S tx.senderServername) (EduPasses S tx.senderServername) tx.edus s₁

variable {S}

theorem route_ok_iff {s' : Txn} {response : Response} :
    sendTransactionMessageRoute S tx s = (.ok response, s') ↔
      ∃ s₁, tx.pdus.forM (receivePdu S tx.senderServername) (startOf s) = (.ok ⟨⟩, s₁) ∧
        tx.edus.forM (handleEdu S tx.senderServername) s₁ = (.ok ⟨⟩, s') ∧
        responseOf S s₁.resolvedMap = response := by
  constructor
  · intro h
    obtain ⟨_, s₀, hstart, h₀⟩ := Comp.bind_eq_ok.mp h
    obtain ⟨_, s₁, hpdus, h₁⟩ := Comp.bind_eq_ok.mp h₀
    obtain ⟨m, s₂, hmap, h₂⟩ := Comp.bind_eq_ok.mp h₁
    obtain ⟨_, s₃, hedus, h₃⟩ := Comp.bind_eq_ok.mp h₂
    cases hstart
    cases hmap
    cases h₃
    exact ⟨s₁, hpdus, hedus, rfl⟩
  · rintro ⟨s₁, hpdus, hedus, rfl⟩
    refine Comp.bind_eq_ok.mpr ⟨(), startOf s, rfl, ?_⟩
    refine Comp.bind_eq_ok.mpr ⟨_, s₁, hpdus, ?_⟩
    refine Comp.bind_eq_ok.mpr ⟨s₁.resolvedMap, s₁, rfl, ?_⟩
    exact Comp.bind_eq_ok.mpr ⟨_, s', hedus, rfl⟩

/-- the PDUs that were met have their results -/
theorem results_along {origin : ServerName} {pdus : List RawPdu} {s' : Txn}
    (h : pdus.forM (receivePdu S origin) s = (.ok ⟨⟩, s')) :
    Comp.Along (receivePdu S origin)
      (fun raw s => ∀ e, eventIdOf S s raw = some e → (s'.resolvedMap e).isSome = true) pdus s := by
  refine Comp.Along.after (R := fun raw s s' =>
    ∀ e, eventIdOf S s raw = some e → (s'.resolvedMap e).isSome = true) h ?_ ?_
  · intro raw s s' hrun e he
    rcases receivePdu_resolved hrun with ⟨hnone, _⟩ | ⟨e', o, he', hmap⟩
    · rw [hnone] at he
      cases he
    · obtain rfl := Option.some.inj (he'.symm.trans he)
      rw [hmap, Function.update_self]
      rfl
  · intro raw raw' s s₁ s₂ hR hrun e he
    rcases receivePdu_resolved hrun with ⟨_, hmap⟩ | ⟨e', o, _, hmap⟩
    · rw [hmap]
      exact hR e he
    · rw [hmap]
      by_cases hee : e = e'
      · subst hee
        rw [Function.update_self]
        rfl
      · rw [Function.update_of_ne hee]
        exact hR e he

theorem pdus_wellFormed (h : Comp.Along (receivePdu S tx.senderServername)
      (PduPasses S tx.senderServername) tx.pdus s) :
    (wellFormed S tx).pdus.forM (receivePdu S tx.senderServername) s =
      tx.pdus.forM (receivePdu S tx.senderServername) s := by
  refine Comp.forM_filter (h.imp fun raw s hpasses hkeep => ?_)
  refine receivePdu_malformed hpasses ?_
  simpa using hkeep

theorem edus_wellFormed (h : Comp.Along (handleEdu S tx.senderServername)
      (EduPasses S tx.senderServername) tx.edus s) :
    (wellFormed S tx).edus.forM (handleEdu S tx.senderServername) s =
      tx.edus.forM (handleEdu S tx.senderServername) s := by
  refine Comp.forM_filter (h.imp fun edu s hpasses hkeep => ?_)
  exact handleEdu_malformed hpasses (by simpa using hkeep)

end

/-! ## main results -/

theorem transaction_independent (S : Server) (tx : Transaction) (s : Txn) :
    Independent S tx s ↔ Passes S tx s := by
  constructor
  · rintro ⟨response, s', hrun, _, _⟩
    obtain ⟨s₁, hpdus, hedus, _⟩ := route_ok_iff.mp hrun
    refine ⟨?_, fun s₂ hs₂ => ?_⟩
    · exact (Comp.forM_succeeds_iff.mp ⟨_, s₁, hpdus⟩).imp fun raw s => (receivePdu_succeeds_iff raw s).mp
    · rw [hpdus] at hs₂
      cases hs₂
      exact (Comp.forM_succeeds_iff.mp ⟨_, s', hedus⟩).imp fun edu s => (handleEdu_succeeds_iff edu s).mp
  · rintro ⟨hpdus, hedus⟩
    obtain ⟨_, s₁, hrun⟩ := Comp.forM_succeeds_iff.mpr
      (hpdus.imp fun raw s => (receivePdu_succeeds_iff raw s).mpr)
    have hpasses := hedus s₁ hrun
    obtain ⟨_, s', hrun'⟩ := Comp.forM_succeeds_iff.mpr
      (hpasses.imp fun edu s => (handleEdu_succeeds_iff edu s).mpr)
    refine ⟨_, s', route_ok_iff.mpr ⟨s₁, hrun, hrun', rfl⟩,
      route_ok_iff.mpr ⟨s₁, ?_, ?_, rfl⟩, (results_along hrun).imp fun raw s h e he => ?_⟩
    · exact (pdus_wellFormed hpdus).trans hrun
    · exact (edus_wellFormed hpasses).trans hrun'
    · show (Option.map _ _).isSome = true
      rw [Option.isSome_map]
      exact h e he

def sendingUser : UserId := ⟨.ascii "@a:y"⟩
def receivingUser : UserId := ⟨.ascii "@b:x"⟩
def receivingDevice : DeviceId := ⟨.ascii "d"⟩

/-- a server without devices, in a world whose servers are silent -/
def plainServer : Server := ⟨.plain, .plain, 0, fun n => n, fun _ => [], fun _ => ""⟩

/-- a message to a device -/
def toDeviceEdu : RawEdu :=
  some (.directToDevice sendingUser "m.dummy" "1" [(receivingUser, [(.deviceId receivingDevice, some .null)])])

def senderOf (u : UserId) : ServerName := Env.plain.ids.serverName u

/-- a PDU that is no object, and a message behind it -/
def brokenTransaction : Transaction := ⟨senderOf sendingUser, [none], [toDeviceEdu]⟩

def noTxn : Txn := ⟨.empty, .empty, fun _ => none⟩

/-- the messages that a device has -/
def messagesOf (s : Txn) : Nat := (s.edus.todevice.getToDeviceEvents receivingUser receivingDevice).length

theorem transaction_discarded :
    (∃ s', sendTransactionMessageRoute plainServer brokenTransaction noTxn =
      (.error (.badServerResponse "Invalid PDU in server response"), s') ∧ messagesOf s' = 0) ∧
    (∃ response s', sendTransactionMessageRoute plainServer (wellFormed plainServer brokenTransaction) noTxn =
      (.ok response, s') ∧ messagesOf s' = 1) ∧
    ¬ Independent plainServer brokenTransaction noTxn := by
  have hrun : sendTransactionMessageRoute plainServer brokenTransaction noTxn =
      (.error (.badServerResponse "Invalid PDU in server response"), noTxn) := rfl
  have hbad : PduMalformed plainServer none := fun value r h => absurd h (by simp)
  have hwell : wellFormed plainServer brokenTransaction = ⟨senderOf sendingUser, [], [toDeviceEdu]⟩ := by
    unfold wellFormed brokenTransaction
    simp only [List.filter_cons, List.filter_nil, hbad, not_true, decide_false]
    rfl
  refine ⟨⟨_, hrun, rfl⟩, ?_, fun h => ?_⟩
  · rw [hwell]
    exact ⟨_, _, rfl, by decide⟩
  · obtain ⟨response, s', hok, _⟩ := h
    rw [hrun] at hok
    cases hok

end Federation
end Grapevine
