import Grapevine.Rooms.Db

/-!
# Appending an event to a room

`append_pdu` with everything it does after the row is written: the push rules of the room's
users, then what the kind of the event asks for (a redaction, a membership, the search index),
then the relations of the event and the appservices.

An event is a `PduJson`: the JSON object that is stored and the `PduEvent` it deserializes to.

The stages run in the order of the source, and a stage that fails leaves what the stages before
it wrote (`Comp`):

* `insertPdu`       references, leaves, read marker, row;
* `pushPdu`         push rules and notification counts;
* `applyKind`       `redactPdu`, `updateMembership`, `indexPdu`;
* `addRelations`    `addToThread`;
* `sendAppservices`.
-/

namespace Grapevine
open Kv

namespace Db

variable (env : Env)
variable {v : RoomVersionId}

/-! ## the search index -/

/-- `tokenize`, with the words as the bytes that go into a key -/
def tokenize (body : String) : List Bytes :=
  (((body.toList.splitOnP (fun c => !env.isAlphanumeric c)).map String.ofList).filter
    (fun word => word ≠ "" && word.utf8ByteSize ≤ 50)).map env.toLowercase

def tokenKey (shortroomid : Nat) (id : Bytes) (word : Bytes) : Bytes :=
  be64 shortroomid ++ (word ++ sep :: id)

def indexPdu (shortroomid : Nat) (id : Bytes) (messageBody : String) : RoomComp Unit :=
  Comp.modify (fun db => { db with
    tokenids := (tokenize env messageBody).foldl
      (fun t word => t.insert (tokenKey shortroomid id word) ()) db.tokenids })

def deindexPdu (shortroomid : Nat) (id : Bytes) (messageBody : String) : RoomComp Unit :=
  Comp.modify (fun db => { db with
    tokenids := (tokenize env messageBody).foldl
      (fun t word => t.remove (tokenKey shortroomid id word)) db.tokenids })

/-! ## redactions -/

/-- `PduEvent::redact` -/
def redact (pdu : PduEvent) (roomVersion : RoomVersionId) (reason : PduEvent) :
    Except Error PduEvent :=
  match env.redactContentInPlace pdu.content roomVersion pdu.kind with
  | some content => .ok { pdu with
      content := content
      unsigned := some [("redacted_because", env.toValue reason)] }
  | none => .error (.redaction (env.ids.serverName pdu.sender))

/-- the same event, up to its content and its unsigned part -/
def Revises (p q : PduEvent) : Prop := q = { p with content := q.content, unsigned := q.unsigned }

theorem Revises.refl (p : PduEvent) : Revises p p := rfl

theorem Revises.trans {p q s : PduEvent} (h : Revises p q) (h' : Revises q s) : Revises p s := by
  unfold Revises at h h' ⊢
  rw [h', h]

theorem Revises.eventId {p q : PduEvent} (h : Revises p q) : q.eventId = p.eventId := by
  unfold Revises at h
  rw [h]

theorem Revises.roomId {p q : PduEvent} (h : Revises p q) : q.roomId = p.roomId := by
  unfold Revises at h
  rw [h]

/-- the same event, with the content that it had or with this content redacted -/
def Redrafts (p q : PduEvent) : Prop :=
  Revises p q ∧ (q.content = p.content ∨ ∃ v, env.redactContentInPlace p.content v p.kind = some q.content)

theorem redact_redrafts {pdu redacted reason : PduEvent} (h : redact env pdu v reason = .ok redacted) :
    Redrafts env pdu redacted := by
  unfold redact at h
  cases hc : env.redactContentInPlace pdu.content v pdu.kind with
  | some content =>
    rw [hc] at h
    cases h
    exact ⟨rfl, .inr ⟨v, hc⟩⟩
  | none =>
    rw [hc] at h
    cases h

def replacePdu (id : Bytes) (json : PduJson) (pdu : PduEvent) : RoomComp Unit := fun db =>
  match db.timeline.replacePdu id json pdu with
  | .ok t => (.ok (), { db with timeline := t })
  | .error e => (.error e, db)

/-- the body that a redaction takes out of the index -/
def deindexBody (id : Bytes) (pdu : PduEvent) (shortroomid : Nat) : RoomComp Unit :=
  match extractBodyStr pdu.content with
  | some body => deindexPdu env shortroomid id body
  | none => pure ()

/-- `redact_pdu` on a row of the timeline -/
def redactRow (id : Bytes) (pdu : PduEvent) (reason : PduEvent) (shortroomid : Nat) :
    RoomComp Unit := do
  deindexBody env id pdu shortroomid
  let roomVersion ← Comp.reads (fun db => db.getRoomVersion env pdu.roomId)
  let redacted ← Comp.ofExcept (redact env pdu roomVersion reason)
  replacePdu id ⟨env.toCanonicalObject redacted, redacted⟩ redacted

def redactPdu (e : EventId) (reason : PduEvent) (shortroomid : Nat) : RoomComp Unit := do
  match (← Comp.get).timeline.getPduId e with
  | some id =>
    match (← Comp.get).timeline.getPduFromId id with
    | some pdu => redactRow env id pdu reason shortroomid
    | none => Comp.throw (.badDatabase "PDU ID points to invalid PDU.")
  | none => pure ()

/-- the event that a redaction names, by the rules of the room's version -/
def redactionTarget (roomVersion : RoomVersionId) (pdu : PduEvent) : Except Error (Option EventId) :=
  if env.beforeV11 roomVersion then .ok pdu.redacts
  else if roomVersion = .v11 then
    match env.redactionContent pdu.content with
    | some redacts => .ok redacts
    | none => .error (.badDatabase "Invalid content in redaction pdu.")
  else .error (.badServerResponse "Unsupported room version.")

def applyRedaction (pdu : PduEvent) (shortroomid : Nat) : RoomComp Unit := do
  let roomVersion ← Comp.reads (fun db => db.getRoomVersion env pdu.roomId)
  match ← Comp.ofExcept (redactionTarget env roomVersion pdu) with
  | some redactId =>
    if ← Comp.reads (fun db => db.userCanRedact env redactId pdu.sender pdu.roomId false) then
      redactPdu env redactId pdu shortroomid
  | none => pure ()

/-! ## memberships -/

/-- `account_data.update`: it fails for data without a type or a content -/
def updateAccountData (r : Option RoomId) (u : UserId) (eventType : String) (data : Json) :
    RoomComp Unit := do
  let _ ← nextCount
  match data.asObject.bind (fun o => o.get "type"), data.asObject.bind (fun o => o.get "content") with
  | some _, some _ =>
    onAccounts (fun t => { t with
      accountData := Function.update t.accountData r (Function.update (t.accountData r) u
        (Function.update (t.accountData r u) eventType (some data))) })
  | _, _ => Comp.throw (.badRequest .invalidParam "Account data doesn't have all required fields.")

/-- an error that is only logged; a panic is not an error that can be logged -/
def warned (x : RoomComp Unit) : RoomComp Unit := fun db =>
  match x db with
  | (.ok a, db) => (.ok a, db)
  | (.error e, db) => if e.isPanic then (.error e, db) else (.ok (), db)

def copyUpgradedAccountDataTag (u : UserId) (fromRoom toRoom : RoomId) : RoomComp Unit := do
  match (← Comp.get).accounts.accountData (some fromRoom) u "m.tag" with
  | some event => warned (updateAccountData (some toRoom) u "m.tag" event)
  | none => pure ()

/-- the direct rooms of one key, with the new room if the old one is among them -/
def upgradeDirectRooms (fromRoom toRoom : String) : Json → Json × Bool
  | .arr roomIds =>
    if roomIds.any (fun x => match x with | .str s => s = fromRoom | _ => false) then
      (.arr (roomIds ++ [.str toRoom]), true)
    else (.arr roomIds, false)
  | x => (x, false)

/-- the rewritten `m.direct` event, if anything in it names the old room -/
def upgradeDirect (fromRoom toRoom : String) (event : Json) : Option Json := do
  let o ← event.asObject
  let content ← (← o.get "content").asObject
  let upgraded := content.map (fun kv => (kv.1, upgradeDirectRooms fromRoom toRoom kv.2))
  if upgraded.any (fun kv => kv.2.2) then
    some (.obj (o.insert "content" (.obj (upgraded.map (fun kv => (kv.1, kv.2.1))))))
  else none

def copyUpgradedAccountDataDirect (u : UserId) (fromRoom toRoom : RoomId) : RoomComp Unit := do
  match (← Comp.get).accounts.accountData none u "m.direct" with
  | some event =>
    match upgradeDirect (env.roomIdStr fromRoom) (env.roomIdStr toRoom) event with
    | some event => warned (updateAccountData none u "m.direct" event)
    | none => pure ()
  | none => pure ()

def copyUpgradedAccountData (u : UserId) (fromRoom toRoom : RoomId) : RoomComp Unit := do
  copyUpgradedAccountDataTag u fromRoom toRoom
  copyUpgradedAccountDataDirect env u fromRoom toRoom

/-- the predecessor that the create event of the room names -/
def predecessor (db : Db) (r : RoomId) : Except Error (Option RoomId) := do
  let create ← db.roomStateGet env r .roomCreate ""
  pure ((create.bind (fun pdu => env.createContent pdu.content)).bind CreateContent.predecessor)

/-- the user never joined this room before -/
def joinedOnce (u : UserId) (r : RoomId) : RoomComp Unit := do
  onMembers (fun t => t.markAsOnceJoined u r)
  match ← Comp.reads (fun db => db.predecessor env r) with
  | some p => copyUpgradedAccountData env u p r
  | none => pure ()

def checkOnceJoined (u : UserId) (r : RoomId) : RoomComp Unit := do
  if (← Comp.get).members.onceJoined u r then pure ()
  else joinedOnce env u r

def applyJoin (u : UserId) (r : RoomId) : RoomComp Unit := do
  checkOnceJoined env u r
  onMembers (fun t => t.markAsJoined u r)

/-- is the sender ignored by the receiver -/
def isIgnored (db : Db) (u sender : UserId) : Except Error Bool :=
  match db.accounts.accountData none u "m.ignored_user_list" with
  | some event =>
    match env.ignoredUsers event with
    | some users => .ok (users.contains sender)
    | none => .error (.badDatabase "Invalid account data event.")
  | none => .ok false

def markAsInvited (u : UserId) (r : RoomId) (lastState : Option (List Json)) : RoomComp Unit := do
  let count ← nextCount
  onMembers (fun t => t.markAsInvited u r lastState count)

def markAsLeft (u : UserId) (r : RoomId) : RoomComp Unit := do
  let count ← nextCount
  onMembers (fun t => t.markAsLeft u r count)

/-- the membership itself; `false` if the invite is ignored and nothing else is to be done -/
def applyMembership (r : RoomId) (u : UserId) (membership : MembershipState) (sender : UserId)
    (lastState : Option (List Json)) : RoomComp Bool :=
  match membership with
  | .join => do
    applyJoin env u r
    pure true
  | .invite => do
    if ← Comp.reads (fun db => db.isIgnored env u sender) then
      pure false
    else
      markAsInvited u r lastState
      pure true
  | .leave => do
    markAsLeft u r
    pure true
  | .ban => do
    markAsLeft u r
    pure true
  | .knock => pure true
  | .custom _ => pure true

/-- `users.create(user_id, None)` for the users of other servers -/
def trackRemoteUser (u : UserId) : RoomComp Unit :=
  if env.ids.serverName u ≠ env.serverName then
    onAccounts (fun t => { t with useridPassword := Function.update t.useridPassword u (some "") })
  else pure ()

def updateMembership (r : RoomId) (u : UserId) (membership : MembershipState) (sender : UserId)
    (lastState : Option (List Json)) (updateCount : Bool) : RoomComp Unit := do
  trackRemoteUser env u
  if ← applyMembership env r u membership sender lastState then
    if updateCount then updateJoinedCount env r

/-- the stripped state that goes with an invite -/
def inviteState (db : Db) (pdu : PduEvent) (membership : MembershipState) :
    Except Error (Option (List Json)) :=
  match membership with
  | .invite => (db.calculateInviteState env pdu).map some
  | _ => .ok none

/-- the user whom a member event is about -/
def memberTarget (stateKey : String) : Except Error UserId :=
  match env.ids.userIdOfStr stateKey with
  | some u => .ok u
  | none => .error (.panic "This state_key was previously validated")

def contentMembership (pdu : PduEvent) : Except Error MembershipState :=
  match extractMembership pdu.content with
  | some membership => .ok membership
  | none => .error (.badDatabase "Invalid content in pdu.")

def applyMember (pdu : PduEvent) : RoomComp Unit :=
  match pdu.stateKey with
  | some stateKey => do
    let u ← Comp.ofExcept (memberTarget env stateKey)
    let membership ← Comp.ofExcept (contentMembership pdu)
    let state ← Comp.reads (fun db => db.inviteState env pdu membership)
    updateMembership env pdu.roomId u membership pdu.sender state true
  | none => pure ()

/-! ## messages -/

def toAdminBot (body : String) : Bool :=
  let adminBot := env.ids.userIdStr env.adminBot
  body.startsWith (adminBot ++ ": ") || body.startsWith (adminBot ++ " ") ||
    body = adminBot ++ ":" || body = adminBot || body.startsWith "!admin " || body = "!admin"

def processAdminMessage (pdu : PduEvent) (body : String) : RoomComp Unit :=
  Comp.modify (fun db =>
    match db.adminRoom with
    | some adminRoom =>
      if toAdminBot env body && !(pdu.sender = env.adminBot && env.emergencyPassword.isNone) &&
          adminRoom = pdu.roomId && db.members.isJoined env.adminBot adminRoom then
        { db with adminMessages := db.adminMessages ++ [body] }
      else db
    | none => db)

def applyMessage (pdu : PduEvent) (shortroomid : Nat) (id : Bytes) : RoomComp Unit :=
  match extractBody pdu.content with
  | none => Comp.throw (.badDatabase "Invalid content in pdu.")
  | some none => pure ()
  | some (some body) => do
    indexPdu env shortroomid id body
    processAdminMessage env pdu body

def applySpaceChild (pdu : PduEvent) : RoomComp Unit :=
  match pdu.stateKey with
  | some _ => Comp.modify (fun db => { db with
      roomidSpacechunkCache := Function.update db.roomidSpacechunkCache pdu.roomId false })
  | none => pure ()

def applyKind (pdu : PduEvent) (shortroomid : Nat) (id : Bytes) : RoomComp Unit :=
  match pdu.kind with
  | .roomRedaction => applyRedaction env pdu shortroomid
  | .spaceChild => applySpaceChild pdu
  | .roomMember => applyMember env pdu
  | .roomMessage => applyMessage env pdu shortroomid id
  | _ => pure ()

/-! ## push rules -/

def pushRules (db : Db) (u : UserId) : Except Error Ruleset :=
  match db.accounts.accountData none u "m.push_rules" with
  | some event =>
    match env.pushRules event with
    | some rules => .ok rules
    | none => .error (.badDatabase "Invalid push rules event in db.")
  | none => .ok (env.serverDefault u)

def pushActions (db : Db) (powerLevels : PowerLevels) (pdu : PduEvent) (u : UserId) :
    Except Error (List Action) := do
  let rules ← db.pushRules env u
  pure (rules.getActions powerLevels pdu pdu.roomId u
    ((db.accounts.useridDisplayname u).getD (env.localpart u)))

/-- the room's own users, and the user whom a member event is about -/
def pushTargets (pdu : PduEvent) (realUsers : List UserId) : Except Error (List UserId) :=
  match pdu.kind, pdu.stateKey with
  | .roomMember, some stateKey => do
    let target ← memberTarget env stateKey
    pure (if target ∈ realUsers then realUsers else target :: realUsers)
  | _, _ => pure realUsers

/-- the loop over the targets: who is notified, and who highlighted -/
def pushUsers (powerLevels : PowerLevels) (pdu : PduEvent) (id : Bytes) :
    List UserId → RoomComp (List UserId × List UserId)
  | [] => pure ([], [])
  | u :: us =>
    -- don't notify the user of their own events
    if u = pdu.sender then pushUsers powerLevels pdu id us
    else do
      let actions ← Comp.reads (fun db => db.pushActions env powerLevels pdu u)
      let pushkeys ← Comp.gets (fun db => db.accounts.senderkeyPusher u)
      queueRequests (pushkeys.map (fun key => (.push u key, id)))
      let (notifies, highlights) ← pushUsers powerLevels pdu id us
      pure (if Action.notify ∈ actions then u :: notifies else notifies,
        if Action.highlight ∈ actions then u :: highlights else highlights)

def pushPdu (pdu : PduEvent) (id : Bytes) : RoomComp Unit := do
  let powerLevels ← Comp.reads (fun db => db.roomPowerLevels env pdu.roomId)
  let realUsers ← getOurRealUsers env pdu.roomId
  let targets ← Comp.ofExcept (pushTargets env pdu realUsers)
  let (notifies, highlights) ← pushUsers env powerLevels pdu id targets
  incrementNotificationCounts pdu.roomId notifies highlights

/-! ## relations -/

def addRelation (fromCount toCount : PduCount) : RoomComp Unit :=
  match fromCount, toCount with
  | .normal f, .normal t => Comp.modify (fun db => { db with
      tofromRelation := db.tofromRelation.insert (be64 t ++ be64 f) () })
  | _, _ => pure ()

/-- a relation to an event of the timeline -/
def addRelationTo (count : Nat) (e : EventId) : RoomComp Unit := do
  match ← Comp.reads (fun db => db.timeline.getPduCount e) with
  | some related => addRelation (.normal count) related
  | none => pure ()

/-- `ExtractRelatesToEventId` -/
def relatesToEventId (content : JsonObject) : Option EventId := do
  let o ← (← content.get "m.relates_to").asObject
  match ← o.get "event_id" with
  | .str s => env.eventIdOfStr s
  | _ => none

/-- `ExtractRelatesTo` -/
def relatesTo (content : JsonObject) : Option Relation :=
  (content.get "m.relates_to").bind env.relation

/-- the `m.relations` of a thread root after another event of the thread -/
def threadRelations (unsigned : JsonObject) (pdu : PduEvent) : Json :=
  let old := (((unsigned.get "m.relations").bind Json.asObject).bind (fun r => r.get "m.thread")).bind
    env.bundledThread
  let thread : BundledThread := match old with
    | some relations => { relations with
        count := relations.count + 1, latestEvent := env.toMessageLikeEvent pdu }
    | none => ⟨env.toMessageLikeEvent pdu, 1, true⟩
  .obj [("m.thread", env.bundledThreadValue thread)]

/-- `entry("unsigned").or_insert_with(..)`, if that is an object -/
def unsignedEntry (json : JsonObject) : Option JsonObject :=
  match json.get "unsigned" with
  | none => some []
  | some v => v.asObject

/-- the aggregation on the row of the root -/
def bundleThread (rootId : Bytes) (root : PduJson) (pdu : PduEvent) : RoomComp Unit :=
  match unsignedEntry root.json with
  | some unsigned => replacePdu rootId
      (root.setUnsigned (unsigned.insert "m.relations" (threadRelations env unsigned pdu))) root.pdu
  | none => pure ()

def updateParticipants (rootId : Bytes) (root pdu : PduEvent) : RoomComp Unit :=
  Comp.modify (fun db => { db with
    threadidUserids := Function.update db.threadidUserids rootId
      (some ((db.threadidUserids rootId).getD [root.sender] ++ [pdu.sender])) })

def addToThread (rootEventId : EventId) (pdu : PduEvent) : RoomComp Unit := do
  match (← Comp.get).timeline.getPduId rootEventId with
  | none => Comp.throw (.badRequest .invalidParam "Invalid event id in thread message")
  | some rootId =>
    match (← Comp.get).timeline.getPduJsonFromId rootId with
    | none => Comp.throw (.badRequest .invalidParam "Thread root pdu not found")
    | some root =>
      bundleThread env rootId root pdu
      updateParticipants rootId root.pdu pdu

def addRelatedEvent (pdu : PduEvent) (count : Nat) : RoomComp Unit :=
  match relatesToEventId env pdu.content with
  | some e => addRelationTo count e
  | none => pure ()

def addRelated (pdu : PduEvent) (count : Nat) : RoomComp Unit :=
  match relatesTo env pdu.content with
  -- replies don't have the event id as a top level field
  | some (.reply inReplyTo) => addRelationTo count inReplyTo
  | some (.thread root) => addToThread env root pdu
  | some .other => pure ()
  | none => pure ()

def addRelations (pdu : PduEvent) (count : Nat) : RoomComp Unit := do
  addRelatedEvent env pdu count
  addRelated env pdu count

/-! ## appservices -/

/-- a member event about the appservice's own user -/
def aboutAppserviceUser (pdu : PduEvent) (a : Appservice) : Bool :=
  pdu.kind = .roomMember &&
    match pdu.stateKey.bind env.ids.userIdOfStr with
    | some u => env.ids.userIdStr u = a.senderLocalpart
    | none => false

def appserviceMatches (db : Db) (pdu : PduEvent) (a : Appservice) : Bool :=
  (db.localAliases pdu.roomId).any a.aliases || a.rooms (env.roomIdStr pdu.roomId) ||
    a.users (env.ids.userIdStr pdu.sender) ||
    pdu.kind = .roomMember && (pdu.stateKey.map a.users).getD false

def sendAppservice (pdu : PduEvent) (id : Bytes) (a : Appservice) : RoomComp Unit := do
  if ← appserviceInRoom env pdu.roomId a then queueRequests [(.appservice a.id, id)]
  else if aboutAppserviceUser env pdu a then queueRequests [(.appservice a.id, id)]
  else if (← Comp.get).appserviceMatches env pdu a then queueRequests [(.appservice a.id, id)]

def sendAppservices (pdu : PduEvent) (id : Bytes) : RoomComp Unit :=
  env.appservices.forM (sendAppservice env pdu id)

/-! ## the whole -/

/-- the content that the event replaces -/
def prevContent (db : Db) (pdu : PduEvent) (stateKey : String) :
    Except Error (Option JsonObject) :=
  match db.pduShortstatehash pdu.eventId with
  | some shortstatehash =>
    (orPanic "called `Result::unwrap()` on an `Err` value"
      (db.stateGet env shortstatehash pdu.kind stateKey)).map (Option.map PduEvent.content)
  | none => .ok none

def withPrevContent (unsigned : JsonObject) : Option JsonObject → JsonObject
  | some content => unsigned.insert "prev_content" (.obj content)
  | none => unsigned

/-- state events have their previous content in the unsigned field -/
def correctUnsigned (db : Db) (j : PduJson) : Except Error PduJson :=
  match j.pdu.stateKey with
  | none => .ok j
  | some stateKey =>
    match unsignedEntry j.json with
    | none => .ok j
    | some unsigned =>
      (db.prevContent env j.pdu stateKey).map (fun c => j.setUnsigned (withPrevContent unsigned c))

def insertPdu (j : PduJson) (pdu : PduEvent) (shortroomid : Nat) : RoomComp (Bytes × Nat) := do
  let count1 ← nextCount
  -- mark as read first so the sending client doesn't get a notification even if appending fails
  privateReadSet pdu.roomId pdu.sender count1
  resetNotificationCounts pdu.sender pdu.roomId
  let count2 ← nextCount
  let id := pduId shortroomid (.normal count2)
  onTimeline (fun t => t.appendPdu id pdu j count2)
  pure (id, count2)

/-- everything behind the insertion of the row -/
def afterInsert (pdu : PduEvent) (shortroomid : Nat) (id : Bytes) (count : Nat) : RoomComp Unit := do
  pushPdu env pdu id
  applyKind env pdu shortroomid id
  addRelations env pdu count
  sendAppservices env pdu id

/-- the writes up to the row: the stored event, its id and its count -/
def storePdu (j : PduJson) (leaves : List EventId) (shortroomid : Nat) : RoomComp (Bytes × Nat) := do
  let stored ← Comp.reads (fun db => db.correctUnsigned env j)
  markAsReferenced j.pdu.roomId j.pdu.prevEvents
  setForwardExtremities j.pdu.roomId leaves
  insertPdu stored j.pdu shortroomid

/-- `append_pdu` of the event with its JSON; the caller holds the token of the event's room -/
def appendPdu (j : PduJson) (leaves : List EventId) : RoomComp Bytes := do
  match (← Comp.get).roomidShortroomid j.pdu.roomId with
  | some shortroomid =>
    let (id, count) ← storePdu env j leaves shortroomid
    afterInsert env j.pdu shortroomid id count
    pure id
  | none => Comp.throw (.panic "room exists")

theorem appendPdu_room {db : Db} {j : PduJson} {s : Nat} (h : db.roomidShortroomid j.pdu.roomId = some s)
    (leaves : List EventId) : appendPdu env j leaves db = (do
      let (id, count) ← storePdu env j leaves s
      afterInsert env j.pdu s id count
      pure id : RoomComp Bytes) db := by
  unfold appendPdu
  rw [Comp.bind_ok (Comp.get_run db), h]

/-! ## running the lookups by event id -/

section
variable {db : Db} {e : EventId} {id : Bytes} {v : PduJson}

theorem redactPdu_unknown (h : db.timeline.eventidPduid e = none) (reason : PduEvent) (s : Nat) :
    redactPdu env e reason s db = (.ok (), db) := by
  unfold redactPdu TimelineTables.getPduId
  rw [Comp.bind_ok (Comp.get_run db), h]
  rfl

theorem redactPdu_dangling (h : db.timeline.eventidPduid e = some id)
    (hv : db.timeline.pduidPdu.get id = none) (reason : PduEvent) (s : Nat) :
    redactPdu env e reason s db = (.error (.badDatabase "PDU ID points to invalid PDU."), db) := by
  unfold redactPdu TimelineTables.getPduId TimelineTables.getPduFromId
  rw [Comp.bind_ok (Comp.get_run db), h]
  show (Comp.get >>= _) db = _
  rw [Comp.bind_ok (Comp.get_run db), hv]
  rfl

theorem redactPdu_known (h : db.timeline.eventidPduid e = some id)
    (hv : db.timeline.pduidPdu.get id = some v) (reason : PduEvent) (s : Nat) :
    redactPdu env e reason s db = redactRow env id v.pdu reason s db := by
  unfold redactPdu TimelineTables.getPduId TimelineTables.getPduFromId
  rw [Comp.bind_ok (Comp.get_run db), h]
  show (Comp.get >>= _) db = _
  rw [Comp.bind_ok (Comp.get_run db), hv]
  rfl

theorem addToThread_unknown (h : db.timeline.eventidPduid e = none) (pdu : PduEvent) :
    addToThread env e pdu db
      = (.error (.badRequest .invalidParam "Invalid event id in thread message"), db) := by
  unfold addToThread TimelineTables.getPduId
  rw [Comp.bind_ok (Comp.get_run db), h]
  rfl

theorem addToThread_dangling (h : db.timeline.eventidPduid e = some id)
    (hv : db.timeline.pduidPdu.get id = none) (pdu : PduEvent) :
    addToThread env e pdu db
      = (.error (.badRequest .invalidParam "Thread root pdu not found"), db) := by
  unfold addToThread TimelineTables.getPduId TimelineTables.getPduJsonFromId
  rw [Comp.bind_ok (Comp.get_run db), h]
  show (Comp.get >>= _) db = _
  rw [Comp.bind_ok (Comp.get_run db), hv]
  rfl

theorem addToThread_known (h : db.timeline.eventidPduid e = some id)
    (hv : db.timeline.pduidPdu.get id = some v) (pdu : PduEvent) :
    addToThread env e pdu db = (do
      bundleThread env id v pdu
      updateParticipants id v.pdu pdu : RoomComp Unit) db := by
  unfold addToThread TimelineTables.getPduId TimelineTables.getPduJsonFromId
  rw [Comp.bind_ok (Comp.get_run db), h]
  show (Comp.get >>= _) db = _
  rw [Comp.bind_ok (Comp.get_run db), hv]

theorem replacePdu_run (hv : db.timeline.pduidPdu.get id = some v) (json : PduJson)
    (pdu : PduEvent) : replacePdu id json pdu db = (.ok (), { db with
      timeline := { db.timeline with
        pduidPdu := db.timeline.pduidPdu.insert id json
        pduCache := Function.update db.timeline.pduCache pdu.eventId none } }) := by
  unfold replacePdu TimelineTables.replacePdu
  rw [hv]

end

end Db
end Grapevine
