import Grapevine.Members.Tables
import Grapevine.State.Snapshots
import Grapevine.Timeline.Scan

/-!
# The store of the room services

`Db` puts the tables of the timeline, the memberships and the states together with the small
tables that `append_pdu` writes on its way.  `Env` is what the code takes from elsewhere: the
identifiers and event contents of ruma, the configuration, and the order of the hash sets.

Reads are functions of the store.  They look into the caches but do not fill them: a cache may
drop an entry at any time, so a filled entry is never relied on.

* `roomStateGet`    an event of the room's current state;
* `userCanRedact`   the permission check of redactions;
* `getRoomVersion`  the version that the create event names.
-/

namespace Grapevine
open Kv

/-! ## what comes from elsewhere -/

inductive RoomVersionId where
  | v1 | v2 | v3 | v4 | v5 | v6 | v7 | v8 | v9 | v10 | v11
  | custom (name : String)
deriving DecidableEq

structure CreateContent where
  roomVersion : RoomVersionId
  predecessor : Option RoomId

/-- a `RoomPowerLevels`, by the two questions that are asked of it -/
structure PowerLevels where
  userCanRedactEventOfOther : UserId → Bool
  userCanRedactOwnEvent : UserId → Bool

inductive Action where
  | notify
  | highlight
  | other
deriving DecidableEq

/-- a `Ruleset`, by the actions it has for an event: the power levels, the event, the room, the
user and the user's display name -/
structure Ruleset where
  getActions : PowerLevels → PduEvent → RoomId → UserId → String → List Action

inductive Relation where
  | reply (inReplyTo : EventId)
  | thread (root : EventId)
  | other

structure BundledThread where
  latestEvent : Json
  count : Nat
  currentUserParticipated : Bool

structure Appservice where
  id : String
  senderLocalpart : String
  /-- `UserId::parse_with_server_name` of the local part -/
  bridgeUser : Option UserId
  users : String → Bool
  rooms : String → Bool
  aliases : String → Bool

structure Env where
  ids : Ids
  ord : Order
  digest : Bytes → Bytes
  serverName : ServerName
  roomIdStr : RoomId → String
  eventIdOfStr : String → Option EventId
  localpart : UserId → String
  powerLevels : JsonObject → Option PowerLevels
  defaultPowerLevels : PowerLevels
  createContent : JsonObject → Option CreateContent
  /-- `room_version < RoomVersionId::V11` -/
  beforeV11 : RoomVersionId → Bool
  /-- `RoomRedactionEventContent`, by its `redacts` -/
  redactionContent : JsonObject → Option (Option EventId)
  redactContentInPlace : JsonObject → RoomVersionId → EventType → Option JsonObject
  toCanonicalObject : PduEvent → JsonObject
  toValue : PduEvent → Json
  toStrippedStateEvent : PduEvent → Json
  toMessageLikeEvent : PduEvent → Json
  relation : Json → Option Relation
  bundledThread : Json → Option BundledThread
  bundledThreadValue : BundledThread → Json
  pushRules : Json → Option Ruleset
  serverDefault : UserId → Ruleset
  /-- `IgnoredUserListEvent`, by its users -/
  ignoredUsers : Json → Option (List UserId)
  isAlphanumeric : Char → Bool
  toLowercase : String → Bytes
  appservices : List Appservice
  adminBot : UserId
  emergencyPassword : Option String

/-! ### a concrete environment

Concrete runs use a server without appservices and push rules, on which every room has version
10 and a redaction clears the content. -/

namespace Plain

def text (t : Text) : String := String.ofList (t.bytes.map (fun b => Char.ofNat b.val))

def beforeV11 : RoomVersionId → Bool
  | .v11 => false
  | .custom _ => false
  | _ => true

def redactionContent (content : JsonObject) : Option (Option EventId) :=
  match content.get "redacts" with
  | none => some none
  | some (.str s) => some (some ⟨.ascii s⟩)
  | some _ => none

def toCanonicalObject (pdu : PduEvent) : JsonObject :=
  [("event_id", .str (text pdu.eventId.toText)), ("room_id", .str (text pdu.roomId.toText)),
    ("sender", .str (text pdu.sender.toText)), ("content", .obj pdu.content)] ++
    (pdu.unsigned.map (fun u => ("unsigned", .obj u))).toList

def relation : Json → Option Relation
  | .obj o =>
    match JsonObject.get o "rel_type", JsonObject.get o "event_id" with
    | some (.str "m.thread"), some (.str s) => some (.thread ⟨.ascii s⟩)
    | some (.str "m.thread"), _ => none
    | _, _ => some .other
  | _ => none

end Plain

def Env.plain : Env where
  ids := .bytewise
  ord := StateDb.ascendingOrder
  digest := id
  serverName := ⟨.ascii "x"⟩
  roomIdStr r := Plain.text r.toText
  eventIdOfStr s := some ⟨.ascii s⟩
  localpart u := Plain.text u.toText
  powerLevels _ := some ⟨fun _ => false, fun _ => true⟩
  defaultPowerLevels := ⟨fun _ => false, fun _ => true⟩
  createContent _ := some ⟨.v10, none⟩
  beforeV11 := Plain.beforeV11
  redactionContent := Plain.redactionContent
  redactContentInPlace _ _ _ := some []
  toCanonicalObject := Plain.toCanonicalObject
  toValue pdu := .obj (Plain.toCanonicalObject pdu)
  toStrippedStateEvent pdu := .obj (Plain.toCanonicalObject pdu)
  toMessageLikeEvent pdu := .obj (Plain.toCanonicalObject pdu)
  relation := Plain.relation
  bundledThread _ := none
  bundledThreadValue t := .obj [("latest_event", t.latestEvent), ("count", .num t.count),
    ("current_user_participated", .bool t.currentUserParticipated)]
  pushRules _ := none
  serverDefault _ := ⟨fun _ _ _ _ _ => []⟩
  ignoredUsers _ := some []
  isAlphanumeric c := c.isAlphanum
  toLowercase s := (Text.ascii s.toLower).bytes
  appservices := []
  adminBot := ⟨.ascii "@grapevine:x"⟩
  emergencyPassword := none

/-! ## tables -/

/-- the event graph: which events were referenced, soft failed, and are the room's leaves -/
structure GraphTables where
  referencedevents : Bytes → Bool
  softfailedeventids : EventId → Bool
  roomidPduleaves : RoomId → Finset EventId

structure ReadTables where
  roomuseridPrivateread : RoomId → UserId → Option Nat
  roomuseridLastprivatereadupdate : RoomId → UserId → Option Nat
  userroomidNotificationcount : UserId → RoomId → Option Nat
  userroomidHighlightcount : UserId → RoomId → Option Nat
  roomuseridLastnotificationread : RoomId → UserId → Option Nat

namespace ReadTables

def setPrivateread (t : ReadTables) (r : RoomId) (u : UserId) (count : Nat) : ReadTables :=
  { t with
    roomuseridPrivateread := Function.update t.roomuseridPrivateread r
      (Function.update (t.roomuseridPrivateread r) u (some count)) }

def setLastprivatereadupdate (t : ReadTables) (r : RoomId) (u : UserId) (count : Nat) : ReadTables :=
  { t with
    roomuseridLastprivatereadupdate := Function.update t.roomuseridLastprivatereadupdate r
      (Function.update (t.roomuseridLastprivatereadupdate r) u (some count)) }

def resetCounts (t : ReadTables) (u : UserId) (r : RoomId) : ReadTables :=
  { t with
    userroomidNotificationcount := Function.update t.userroomidNotificationcount u
      (Function.update (t.userroomidNotificationcount u) r (some 0))
    userroomidHighlightcount := Function.update t.userroomidHighlightcount u
      (Function.update (t.userroomidHighlightcount u) r (some 0)) }

def setLastnotificationread (t : ReadTables) (r : RoomId) (u : UserId) (count : Nat) : ReadTables :=
  { t with
    roomuseridLastnotificationread := Function.update t.roomuseridLastnotificationread r
      (Function.update (t.roomuseridLastnotificationread r) u (some count)) }

end ReadTables

/-- what `update_joined_count` derives from the membership tables -/
structure RosterTables where
  roomidJoinedcount : RoomId → Option Nat
  roomidInvitedcount : RoomId → Option Nat
  roomserverids : Tree Bytes Unit
  serverroomids : Tree Bytes Unit
  ourRealUsersCache : RoomId → Option (List UserId)
  appserviceInRoomCache : RoomId → String → Option Bool

structure AccountTables where
  /-- the empty password is that of a deactivated or a remote user -/
  useridPassword : UserId → Option String
  useridDisplayname : UserId → Option String
  senderkeyPusher : UserId → List String
  accountData : Option RoomId → UserId → String → Option Json

inductive Destination where
  | appservice (id : String)
  | push (user : UserId) (pushkey : String)
  | normal (server : ServerName)
deriving DecidableEq

structure Db where
  state : StateDb
  roomidShortroomid : RoomId → Option Nat
  timeline : TimelineTables
  members : MemberTables
  graph : GraphTables
  reads : ReadTables
  roster : RosterTables
  accounts : AccountTables
  tokenids : Tree Bytes Unit
  tofromRelation : Tree Bytes Unit
  threadidUserids : Bytes → Option (List UserId)
  roomidSpacechunkCache : RoomId → Bool
  localAliases : RoomId → List String
  adminRoom : Option RoomId
  /-- `servernameevent_data`, the queue of the sender -/
  queue : List (Destination × Bytes)
  /-- messages handed to the admin bot -/
  adminMessages : List String
  /-- the events that failed: when they last did, and how often -/
  badEventRatelimiter : EventId → Option (Nat × Nat)
  disabledroomids : RoomId → Bool
  authChainCache : List Nat → Option (Finset Nat)
  shorteventidAuthchain : Nat → Option Bytes
  /-- how often the outside was asked: clocks and answers are functions of it -/
  ticks : Nat

def Db.empty : Db where
  state := .empty
  roomidShortroomid _ := none
  timeline := .empty
  members := .empty
  graph := ⟨fun _ => false, fun _ => false, fun _ => ∅⟩
  reads := ⟨fun _ _ => none, fun _ _ => none, fun _ _ => none, fun _ _ => none, fun _ _ => none⟩
  roster := ⟨fun _ => none, fun _ => none, .empty, .empty, fun _ => none, fun _ _ => none⟩
  accounts := ⟨fun _ => none, fun _ => none, fun _ => [], fun _ _ _ => none⟩
  tokenids := .empty
  tofromRelation := .empty
  threadidUserids _ := none
  roomidSpacechunkCache _ := false
  localAliases _ := []
  adminRoom := none
  queue := []
  adminMessages := []
  badEventRatelimiter _ := none
  disabledroomids _ := false
  authChainCache _ := none
  shorteventidAuthchain _ := none
  ticks := 0

abbrev RoomComp := Comp Db Error

/-- an `expect` or `unwrap` of the code on a result -/
def orPanic {α : Type} (msg : String) : Except Error α → Except Error α
  | .ok a => .ok a
  | .error _ => .error (.panic msg)

def Json.asObject : Json → Option JsonObject
  | .obj o => some o
  | _ => none

namespace Db

variable (env : Env)

/-! ## reads of the state -/

def getPdu (db : Db) (e : EventId) : Except Error (Option PduEvent) := (db.timeline.getPdu e).1

def fullState (db : Db) (shortstatehash : Nat) : Except Error (Finset CompressedStateEvent) :=
  match (StateDb.loadShortstatehashInfo shortstatehash db.state).1 with
  | .ok (layer :: _) => .ok layer.full
  | .ok [] => .error (.panic "there is always one layer")
  | .error e => .error e

def parseCompressedStateEvent (db : Db) (c : CompressedStateEvent) : Except Error (Nat × EventId) :=
  match db.state.shorteventidEventid (ofBe (c.bytes.drop 8)) with
  | some e => .ok (ofBe (c.bytes.take 8), e)
  | none => .error (.badDatabase "Shorteventid does not exist")

def stateGetId (db : Db) (shortstatehash : Nat) (eventType : EventType) (stateKey : String) :
    Except Error (Option EventId) :=
  match db.state.statekeyShortstatekey (eventType, stateKey) with
  | none => .ok none
  | some shortstatekey => do
    let full ← db.fullState shortstatehash
    pure (((env.ord.enum full).find? (fun c => c.hasKey shortstatekey)).bind
      (fun c => (db.parseCompressedStateEvent c).toOption.map Prod.snd))

def stateGet (db : Db) (shortstatehash : Nat) (eventType : EventType) (stateKey : String) :
    Except Error (Option PduEvent) := do
  match ← db.stateGetId env shortstatehash eventType stateKey with
  | some e => db.getPdu e
  | none => pure none

def roomStateGet (db : Db) (r : RoomId) (eventType : EventType) (stateKey : String) :
    Except Error (Option PduEvent) :=
  match db.state.roomidShortstatehash r with
  | some shortstatehash => db.stateGet env shortstatehash eventType stateKey
  | none => .ok none

def pduShortstatehash (db : Db) (e : EventId) : Option Nat :=
  (db.state.eventidShorteventid e).bind db.state.shorteventidShortstatehash

/-- `if let Ok(Some(pdu)) = get_pdu(e)` and a question about the sender -/
def pduSender (db : Db) (e : EventId) (P : UserId → Bool) : Bool :=
  match db.getPdu e with
  | .ok (some pdu) => P pdu.sender
  | _ => false

def userCanRedact (db : Db) (redacts : EventId) (sender : UserId) (r : RoomId)
    (federation : Bool) : Except Error Bool := do
  match ← db.roomStateGet env r .roomPowerLevels "" with
  | some e =>
    match env.powerLevels e.content with
    | some c =>
      pure (c.userCanRedactEventOfOther sender || c.userCanRedactOwnEvent sender &&
        db.pduSender redacts (fun u =>
          if federation then env.ids.serverName u = env.ids.serverName sender else u = sender))
    | none => .error (.badDatabase "Invalid m.room.power_levels event in database")
  | none =>
    -- falling back on m.room.create to judge power levels
    match ← db.roomStateGet env r .roomCreate "" with
    | some pdu => pure (pdu.sender = sender || db.pduSender redacts (fun u => u = sender))
    | none => .error (.badDatabase
        "No m.room.power_levels or m.room.create events in database for room")

def getRoomVersion (db : Db) (r : RoomId) : Except Error RoomVersionId := do
  match ← db.roomStateGet env r .roomCreate "" with
  | some pdu =>
    match env.createContent pdu.content with
    | some content => pure content.roomVersion
    | none => .error (.badDatabase "Invalid create event in db.")
  | none => .error (.badRequest .invalidParam "No create event found")

/-- the power levels that `append_pdu` evaluates push rules with -/
def roomPowerLevels (db : Db) (r : RoomId) : Except Error PowerLevels := do
  match ← db.roomStateGet env r .roomPowerLevels "" with
  | some ev =>
    match env.powerLevels ev.content with
    | some c => pure c
    | none => .error (.badDatabase "invalid m.room.power_levels event")
  | none => pure env.defaultPowerLevels

def calculateInviteState (db : Db) (inviteEvent : PduEvent) : Except Error (List Json) := do
  let r := inviteEvent.roomId
  let create ← db.roomStateGet env r .roomCreate ""
  let joinRules ← db.roomStateGet env r .roomJoinRules ""
  let canonicalAlias ← db.roomStateGet env r .roomCanonicalAlias ""
  let avatar ← db.roomStateGet env r .roomAvatar ""
  let name ← db.roomStateGet env r .roomName ""
  let member ← db.roomStateGet env r .roomMember (env.ids.userIdStr inviteEvent.sender)
  pure (([create, joinRules, canonicalAlias, avatar, name, member].filterMap id ++
    [inviteEvent]).map env.toStrippedStateEvent)

/-! ## small writes -/

/-- a computation on the states and the counter -/
def onState {α : Type} (x : StateComp α) : RoomComp α := fun db =>
  ((x db.state).1, { db with state := (x db.state).2 })

def nextCount : RoomComp Nat := onState StateDb.nextCount

def onTimeline (f : TimelineTables → TimelineTables) : RoomComp Unit :=
  Comp.modify (fun db => { db with timeline := f db.timeline })

def onMembers (f : MemberTables → MemberTables) : RoomComp Unit :=
  Comp.modify (fun db => { db with members := f db.members })

def onGraph (f : GraphTables → GraphTables) : RoomComp Unit :=
  Comp.modify (fun db => { db with graph := f db.graph })

def onReads (f : ReadTables → ReadTables) : RoomComp Unit :=
  Comp.modify (fun db => { db with reads := f db.reads })

def onRoster (f : RosterTables → RosterTables) : RoomComp Unit :=
  Comp.modify (fun db => { db with roster := f db.roster })

def onAccounts (f : AccountTables → AccountTables) : RoomComp Unit :=
  Comp.modify (fun db => { db with accounts := f db.accounts })

def referencedKey (r : RoomId) (e : EventId) : Bytes := r.bytes ++ e.bytes

def markAsReferenced (r : RoomId) (es : List EventId) : RoomComp Unit :=
  onGraph (fun g => { g with
    referencedevents := es.foldl (fun t e => Function.update t (referencedKey r e) true)
      g.referencedevents })

def isEventReferenced (db : Db) (r : RoomId) (e : EventId) : Bool :=
  db.graph.referencedevents (referencedKey r e)

def markEventSoftFailed (e : EventId) : RoomComp Unit :=
  onGraph (fun g => { g with softfailedeventids := Function.update g.softfailedeventids e true })

def isEventSoftFailed (db : Db) (e : EventId) : Bool := db.graph.softfailedeventids e

def getForwardExtremities (db : Db) (r : RoomId) : Finset EventId := db.graph.roomidPduleaves r

def setForwardExtremities (r : RoomId) (es : List EventId) : RoomComp Unit :=
  onGraph (fun g => { g with
    roomidPduleaves := Function.update g.roomidPduleaves r es.toFinset })

def privateReadSet (r : RoomId) (u : UserId) (count : Nat) : RoomComp Unit := do
  onReads (fun t => t.setPrivateread r u count)
  let update ← nextCount
  onReads (fun t => t.setLastprivatereadupdate r u update)

def resetNotificationCounts (u : UserId) (r : RoomId) : RoomComp Unit := do
  onReads (fun t => t.resetCounts u r)
  let read ← nextCount
  onReads (fun t => t.setLastnotificationread r u read)

/-- `utils::increment` -/
def increment (old : Option Nat) : Nat :=
  match old with
  | some n => wrapAdd n 1
  | none => 1

def incrementBatch (t : UserId → RoomId → Option Nat) (r : RoomId) (us : List UserId) :
    UserId → RoomId → Option Nat :=
  us.foldl (fun t u => Function.update t u (Function.update (t u) r (some (increment (t u r))))) t

def incrementNotificationCounts (r : RoomId) (notifies highlights : List UserId) : RoomComp Unit :=
  onReads (fun t => { t with
    userroomidNotificationcount := incrementBatch t.userroomidNotificationcount r notifies
    userroomidHighlightcount := incrementBatch t.userroomidHighlightcount r highlights })

def queueRequests (requests : List (Destination × Bytes)) : RoomComp Unit :=
  Comp.modify (fun db => { db with queue := db.queue ++ requests })

/-! ## the roster of a room -/

def roomServers (db : Db) (r : RoomId) : List (Except Error ServerName) :=
  (db.roster.roomserverids.scanPrefix (r.bytes ++ [sep])).map
    (fun row => parseLast env.ids env.ids.parseServerName "Server name" "roomserverids" row.1)

def serverInRoom (db : Db) (server : ServerName) (r : RoomId) : Bool :=
  (db.roster.serverroomids.get (server.bytes ++ sep :: r.bytes)).isSome

/-- `is_deactivated(..).unwrap_or(true)` -/
def isDeactivated (db : Db) (u : UserId) : Bool :=
  match db.accounts.useridPassword u with
  | some password => password.isEmpty
  | none => true

def updateJoinedCount (r : RoomId) : RoomComp Unit :=
  Comp.modify (fun db =>
    let joined := (db.members.roomMembers env.ids r).filterMap Except.toOption
    let invited := (db.members.roomMembersInvited env.ids r).filterMap Except.toOption
    let joinedServers := joined.map env.ids.serverName
    let realUsers := joined.filter
      (fun u => env.ids.serverName u = env.serverName && !db.isDeactivated u)
    let oldServers := (db.roomServers env r).filterMap Except.toOption
    let gone := oldServers.filter (fun s => s ∉ joinedServers)
    let new := joinedServers.filter (fun s => s ∉ oldServers)
    { db with roster := {
        roomidJoinedcount :=
          Function.update db.roster.roomidJoinedcount r (some joined.length)
        roomidInvitedcount :=
          Function.update db.roster.roomidInvitedcount r (some invited.length)
        roomserverids := new.foldl (fun t s => t.insert (r.bytes ++ sep :: s.bytes) ())
          (gone.foldl (fun t s => t.remove (r.bytes ++ sep :: s.bytes)) db.roster.roomserverids)
        serverroomids := new.foldl (fun t s => t.insert (s.bytes ++ sep :: r.bytes) ())
          (gone.foldl (fun t s => t.remove (s.bytes ++ sep :: r.bytes)) db.roster.serverroomids)
        ourRealUsersCache := Function.update db.roster.ourRealUsersCache r (some realUsers)
        appserviceInRoomCache :=
          Function.update db.roster.appserviceInRoomCache r (fun _ => none) } })

def getOurRealUsers (r : RoomId) : RoomComp (List UserId) := do
  match (← Comp.get).roster.ourRealUsersCache r with
  | some users => pure users
  | none =>
    updateJoinedCount env r
    Comp.gets (fun db => (db.roster.ourRealUsersCache r).getD [])

/-- `appservice_in_room` without its cache -/
def computeAppserviceInRoom (db : Db) (r : RoomId) (a : Appservice) : Bool :=
  (match a.bridgeUser with
    | some u => db.members.isJoined u r
    | none => false) ||
  (db.members.roomMembers env.ids r).any (fun u =>
    match u with
    | .ok u => a.users (env.ids.userIdStr u)
    | .error _ => false)

def appserviceInRoom (r : RoomId) (a : Appservice) : RoomComp Bool := do
  match (← Comp.get).roster.appserviceInRoomCache r a.id with
  | some b => pure b
  | none =>
    let inRoom ← Comp.gets (fun db => db.computeAppserviceInRoom env r a)
    onRoster (fun t => { t with
      appserviceInRoomCache := Function.update t.appserviceInRoomCache r
        (Function.update (t.appserviceInRoomCache r) a.id (some inRoom)) })
    pure inRoom

end Db
end Grapevine
