import Grapevine.Events.SoftFail

/-!
# Incoming events

`handleIncomingPdu` is the way of every event that another server sends: it becomes an outlier,
the prev events that are missing are fetched (`fetchUnknownPrevEvents`) and upgraded one after
the other, and at last it is upgraded itself.

Its callers derive the event id from the object they received (`receivePdu`, `backfillPdu`,
`receiveMembership`), and where they know it already they compare the two (`receiveSignedJoin`).
-/

namespace Grapevine
open Kv

namespace Db

variable (env : Env) (fed : Fed)

/-! ## missing prev events -/

def doesntMatter : UserId := ⟨.ascii "@doesntmatter:grapevine"⟩

/-- `first_pdu_in_room`; both callers refuse a room without one -/
def firstPduInRoom (db : Db) (r : RoomId) : Except Error PduEvent := do
  let pdus ← db.timeline.pdusAfter (db.roomidShortroomid r) doesntMatter .min
  match pdus with
  | [] => .error (.badDatabase "Failed to find first pdu in db.")
  | first :: _ => first.map Prod.snd

/-- what the loop over missing prev events has found -/
structure PrevEvents where
  /-- the events, each with its prev events -/
  graph : List (EventId × List EventId)
  eventidInfo : List (EventId × PduJson)
  amount : Nat

namespace PrevEvents

def empty : PrevEvents := ⟨[], [], 0⟩

def insertNode (p : PrevEvents) (e : EventId) (prev : List EventId) : PrevEvents :=
  { p with graph := (e, prev) :: p.graph.filter (fun g => g.1 ≠ e) }

def insertInfo (p : PrevEvents) (e : EventId) (j : PduJson) : PrevEvents :=
  { p with eventidInfo := (e, j) :: p.eventidInfo.filter (fun i => i.1 ≠ e) }

def knows (p : PrevEvents) (e : EventId) : Bool := p.graph.any (fun g => g.1 = e)

/-- an event whose object is known, and the prev events that are to be looked at because of it -/
def note (p : PrevEvents) (first : PduEvent) (e : EventId) (j : PduJson) :
    PrevEvents × List EventId :=
  if first.originServerTs < j.pdu.originServerTs then
    (({ p with amount := p.amount + 1 }.insertNode e j.pdu.prevEvents).insertInfo e j,
      j.pdu.prevEvents.filter (fun prev => !p.knows prev))
  -- the check of the time failed
  else ((p.insertNode e []).insertInfo e j, [])

end PrevEvents

/-- one event of the stack, with what was fetched for it -/
def notePrevEvent (db : Db) (first : PduEvent) (e : EventId) (p : PrevEvents)
    (fetched : PduEvent × Option JsonObject) : PrevEvents × List EventId :=
  let json := fetched.2.orElse (fun _ => (db.timeline.eventidOutlierpdu e).map PduJson.json)
  if p.amount > fed.maxFetchPrevEvents then (p.insertNode e [], [])
  else
    match json with
    | some json => p.note first e ⟨json, fetched.1⟩
    -- the event was not fetched over federation
    | none => (p.insertNode e [], [])

/-- the loop over `todo_outlier_stack`, to the given number of rounds; the top of the stack is the
head of the list -/
def fetchPrevEvents (fuel : Nat) (origin : ServerName) (createEvent : PduEvent) (r : RoomId)
    (version : RoomVersionId) (first : PduEvent) :
    Nat → List EventId → PrevEvents → RoomComp PrevEvents
  | _, [], p => pure p
  | 0, _ :: _, _ => Comp.throw (.panic "the loop does not end")
  | rounds + 1, e :: todo, p => do
    let pdus ← fetchAndHandleOutliers env fed fuel origin createEvent r version [e]
    match pdus.getLast? with
    | none => fetchPrevEvents fuel origin createEvent r version first rounds todo (p.insertNode e [])
    | some fetched =>
      Comp.ofExcept (checkRoomId r fetched.1)
      let noted ← Comp.gets (fun db => db.notePrevEvent fed first e p fetched)
      fetchPrevEvents fuel origin createEvent r version first rounds (noted.2.reverse ++ todo) noted.1

/-- the missing prev events in the order they are to be upgraded in, and those that are known -/
def fetchUnknownPrevEvents (fuel : Nat) (origin : ServerName) (createEvent : PduEvent) (r : RoomId)
    (version : RoomVersionId) (initial : List EventId) :
    RoomComp (List EventId × List (EventId × PduJson)) := do
  let first ← Comp.reads (fun db => db.firstPduInRoom r)
  let p ← fetchPrevEvents env fed fuel origin createEvent r version first fuel initial.reverse .empty
  match fed.sortEvents p.graph
      (fun e => ((p.eventidInfo.lookup e).map (fun j => j.pdu.originServerTs)).getD 0) with
  | some sorted => pure (sorted, p.eventidInfo)
  | none => Comp.throw (.badDatabase "Error sorting prev events")

/-! ## one event after the other -/

def disabledError : Error :=
  .badRequest .forbidden "Federation of this room is currently disabled on this server."

/-- the upgrade of a prev event; a failure counts -/
def upgradePrevEvent (fuel : Nat) (origin : ServerName) (createEvent : PduEvent) (r : RoomId)
    (j : PduJson) (e : EventId) (errors : Nat) : RoomComp Nat := do
  match ← attempt (upgradeOutlierToTimelinePdu env fed fuel j createEvent origin r) with
  | some _ => pure errors
  | none => do
    backOff fed e
    pure (errors + 1)

/-- one prev event: the number of failures, and the events that are left -/
def handlePrevEvent (fuel : Nat) (origin : ServerName) (createEvent : PduEvent) (r : RoomId)
    (first : PduEvent) (e : EventId) (errors : Nat) (info : List (EventId × PduJson)) :
    RoomComp (Nat × List (EventId × PduJson)) := do
  if (← Comp.get).disabledroomids r then Comp.throw disabledError
  else
    let n ← tick
    if (← Comp.get).backsOff (fed.now n) e then pure (errors, info)
    else if errors ≥ 5 then do
      -- the other events time out
      backOff fed e
      pure (errors, info)
    else
      match info.lookup e with
      | none => pure (errors, info)
      | some j =>
        let rest := info.filter (fun i => i.1 ≠ e)
        if j.pdu.originServerTs < first.originServerTs then pure (errors, rest)
        else do
          let errors ← upgradePrevEvent env fed fuel origin createEvent r j e errors
          pure (errors, rest)

def handlePrevEvents (fuel : Nat) (origin : ServerName) (createEvent : PduEvent) (r : RoomId)
    (first : PduEvent) : List EventId → Nat → List (EventId × PduJson) → RoomComp Unit
  | [], _, _ => pure ()
  | e :: es, errors, info => do
    let (errors, info) ← handlePrevEvent env fed fuel origin createEvent r first e errors info
    handlePrevEvents fuel origin createEvent r first es errors info

/-! ## the incoming event -/

def aclCheck (db : Db) (server : ServerName) (r : RoomId) : Except Error Unit := do
  match ← db.roomStateGet env r (.other "m.room.server_acl") "" with
  | none => pure ()
  | some aclEvent =>
    match fed.serverAcl aclEvent.content with
    -- an event that is invalid, or allows nobody, is ignored
    | none => pure ()
    | some (true, _) => pure ()
    | some (false, isAllowed) =>
      if isAllowed server then pure ()
      else .error (.badRequest .forbidden "Server was denied by room ACL")

/-- the checks on the room before an event is looked at -/
def checkRoom (db : Db) (origin : ServerName) (r : RoomId) : Except Error Unit := do
  if !db.timeline.roomExists (db.roomidShortroomid r) then
    .error (.badRequest .notFound "Room is unknown to this server")
  else if db.disabledroomids r then .error disabledError
  else db.aclCheck env fed origin r

/-- the create event of the room, with the version it names -/
def roomCreateEvent (db : Db) (r : RoomId) : Except Error (PduEvent × RoomVersionId) := do
  match ← db.roomStateGet env r .roomCreate "" with
  | none => .error (.badDatabase "Failed to find create event in db.")
  | some createEvent =>
    match env.createContent createEvent.content with
    | none => .error (.badDatabase "Invalid create event.")
    | some content => pure (createEvent, content.roomVersion)

/-- the missing prev events of a timeline event, and the event -/
def handleTimelineEvent (fuel : Nat) (origin : ServerName) (createEvent : PduEvent) (r : RoomId)
    (version : RoomVersionId) (first : PduEvent) (j : PduJson) : RoomComp (Option Bytes) := do
  let (sorted, info) ←
    fetchUnknownPrevEvents env fed fuel origin createEvent r version j.pdu.prevEvents
  handlePrevEvents env fed fuel origin createEvent r first sorted 0 info
  upgradeOutlierToTimelinePdu env fed fuel j createEvent origin r

/-- `handle_incoming_pdu` of an event that is no row yet -/
def handleNewPdu (fuel : Nat) (origin : ServerName) (e : EventId) (r : RoomId) (value : JsonObject)
    (isTimelineEvent : Bool) : RoomComp (Option Bytes) := do
  let (createEvent, version) ← Comp.reads (fun db => db.roomCreateEvent env r)
  let first ← Comp.reads (fun db => db.firstPduInRoom r)
  let j ← handleOutlierPdu env fed fuel origin createEvent e r value
  Comp.ofExcept (checkRoomId r j.pdu)
  if !isTimelineEvent || j.pdu.originServerTs < first.originServerTs then pure none
  else handleTimelineEvent env fed fuel origin createEvent r version first j

def handleIncomingPdu (fuel : Nat) (origin : ServerName) (e : EventId) (r : RoomId)
    (value : JsonObject) (isTimelineEvent : Bool) : RoomComp (Option Bytes) := do
  Comp.reads (fun db => db.checkRoom env fed origin r)
  match (← Comp.get).timeline.getPduId e with
  | some id => pure (some id)
  | none => handleNewPdu env fed fuel origin e r value isTimelineEvent

/-! ## the callers -/

/-- the room of a received object -/
def roomOf (value : JsonObject) : Except Error RoomId :=
  match value.get "room_id" with
  | some (.str s) =>
    match fed.roomIdOfStr s with
    | some r => .ok r
    | none => .error (.badRequest .invalidParam "Invalid room id in pdu")
  | _ => .error (.badRequest .invalidParam "Invalid room id in pdu")

/-- the event id, the object and the room of a received event -/
def parseIncomingPdu (db : Db) (raw : RawPdu) : Except Error (EventId × JsonObject × RoomId) :=
  match raw with
  | none => .error (.badServerResponse "Invalid PDU in server response")
  | some value => do
    let r ← roomOf fed value
    let version ← db.getRoomVersion env r
    let (e, value) ← fed.genEventIdCanonicalJson raw version
    pure (e, value, r)

/-- one event of a transaction -/
def receivePdu (fuel : Nat) (origin : ServerName) (raw : RawPdu) : RoomComp Unit := do
  let (e, value, r) ← Comp.reads (fun db => db.parseIncomingPdu env fed raw)
  let _ ← handleIncomingPdu env fed fuel origin e r value true
  pure ()

/-- `backfill_pdu` -/
def backfillPdu (fuel : Nat) (origin : ServerName) (raw : RawPdu) : RoomComp Unit := do
  let (e, value, r) ← Comp.reads (fun db => db.parseIncomingPdu env fed raw)
  match (← Comp.get).timeline.getPduId e with
  | some _ => pure ()
  | none => do
    let _ ← handleIncomingPdu env fed fuel origin e r value false
    match ← Comp.reads (fun db => db.timeline.getPduJson e) with
    | some j => backfillKnown env e j
    | none => Comp.throw (.panic "We just created it")

/-- the membership event that `create_join_event` receives, and that an invite is answered with -/
def receiveMembership (fuel : Nat) (origin : ServerName) (r : RoomId) (raw : RawPdu) :
    RoomComp Unit := do
  let version ← Comp.reads (fun db => db.getRoomVersion env r)
  let (e, value) ← Comp.ofExcept (fed.genEventIdCanonicalJson raw version)
  match ← handleIncomingPdu env fed fuel origin e r value true with
  | some _ => pure ()
  | none => Comp.throw (.badRequest .invalidParam "Could not accept incoming PDU as timeline event.")

/-- the join event that another server has signed, by the version it had named for the room -/
def receiveSignedJoin (fuel : Nat) (remoteServer : ServerName) (r : RoomId)
    (roomVersion : RoomVersionId) (e : EventId) (raw : RawPdu) : RoomComp Unit := do
  let (signedEventId, value) ← Comp.ofExcept (fed.genEventIdCanonicalJson raw roomVersion)
  if signedEventId ≠ e then
    Comp.throw (.badRequest .invalidParam "Server sent event with wrong event id")
  else do
    let _ ← handleIncomingPdu env fed fuel remoteServer signedEventId r value true
    pure ()

end Db
end Grapevine
