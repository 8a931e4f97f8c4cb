import Grapevine.Events.Upgrade
import Grapevine.Lib.Stream
import Grapevine.Sync.Sliding

/-!
# Lazy-loaded members

A sync with lazy loading leaves out the members that the device has got before.  The members of a response wait
under its `next_batch`, and a request that names this count, in its `since` or its `from`, confirms that they
arrived.

* `loadJoinedRoom`           the answer for a room, and what is marked as sent;
* `getMessageEventsRoute`     always sends the members, but confirms as well;
* `Part`, `Run`              what a device was answered, which responses it received, and runs of its requests;
* `Kept`                     the member event of a sender in the timeline is sent, or was received;
* `Careful`                  the count that a request names is of a response that the device received.
-/

namespace Grapevine
open Kv

namespace LazyLoading

/-! ## what was sent -/

structure Store where
  db : Db
  lazyloadedids : Tree Bytes Unit
  lazyLoadWaiting : UserId × DeviceId × RoomId × PduCount → Option (List UserId)
  /-- by the short room id and the token -/
  roomsynctokenShortstatehash : Nat × Nat → Option Nat

abbrev StoreComp := Comp Store Error

/-- the rows of the device in a room -/
def lazyRows (u : UserId) (d : DeviceId) (r : RoomId) : Bytes :=
  u.bytes ++ sep :: (d.bytes ++ sep :: (r.bytes ++ [sep]))

def lazyKey (u : UserId) (d : DeviceId) (r : RoomId) (llUser : UserId) : Bytes := lazyRows u d r ++ llUser.bytes

def lazyLoadWasSentBefore (st : Store) (u : UserId) (d : DeviceId) (r : RoomId) (llUser : UserId) : Bool :=
  (st.lazyloadedids.get (lazyKey u d r llUser)).isSome

def lazyLoadMarkSent (u : UserId) (d : DeviceId) (r : RoomId) (lazyLoad : List UserId) (count : PduCount) :
    StoreComp Unit :=
  Comp.modify fun st => { st with
    lazyLoadWaiting := Function.update st.lazyLoadWaiting (u, d, r, count) (some lazyLoad) }

def lazyLoadConfirmDelivery (u : UserId) (d : DeviceId) (r : RoomId) (since : PduCount) : StoreComp Unit :=
  Comp.modify fun st =>
    match st.lazyLoadWaiting (u, d, r, since) with
    | some userIds => { st with
        lazyLoadWaiting := Function.update st.lazyLoadWaiting (u, d, r, since) none
        lazyloadedids := userIds.foldl (fun t llId => t.insert (lazyKey u d r llId) ()) st.lazyloadedids }
    | none => st

def lazyLoadReset (u : UserId) (d : DeviceId) (r : RoomId) : StoreComp Unit :=
  Comp.modify fun st => { st with
    lazyloadedids :=
      ((st.lazyloadedids.scanPrefix (lazyRows u d r)).map Prod.fst).foldl (fun t key => t.remove key)
        st.lazyloadedids }

/-! ## tokens and timelines -/

def shortroomid (db : Db) (r : RoomId) : Except Error Nat :=
  match db.roomidShortroomid r with
  | some s => .ok s
  | none => .error (.panic "room exists")

def associateTokenShortstatehash (r : RoomId) (token shortstatehash : Nat) : StoreComp Unit := do
  let s ← Comp.reads fun st => shortroomid st.db r
  Comp.modify fun st => { st with
    roomsynctokenShortstatehash := Function.update st.roomsynctokenShortstatehash (s, token) (some shortstatehash) }

def getTokenShortstatehash (st : Store) (r : RoomId) (token : Nat) : Except Error (Option Nat) := do
  let s ← shortroomid st.db r
  pure (st.roomsynctokenShortstatehash (s, token))

/-- the tables as the timeline reads them: it asks no other service -/
def timelineStore (db : Db) : Sliding.Store where
  members := db.members
  roomidShortroomid := db.roomidShortroomid
  views := ⟨fun _ _ _ => .ok none, fun _ _ => .ok none, fun _ => .ok none, fun _ => .ok .undefined,
    fun _ _ => .ok 0, fun _ _ => .ok 0, fun _ => .ok none, fun _ => .ok none⟩

def loadTimeline (db : Db) (u : UserId) (r : RoomId) (since : Nat) :
    Except Error (List (PduCount × PduEvent) × Bool) :=
  (Sliding.loadTimeline (timelineStore db) db.timeline u r (.normal since) 10).1

/-- what else the routes ask for; the theorems hold for every answer -/
structure Views where
  /-- the counts and heroes of a room, by what they fail with -/
  calculateCounts : Db → RoomId → Except Error Unit
  /-- the device list updates for the new members, by what they fail with -/
  deviceListUpdates : Db → RoomId → List PduEvent → Except Error Unit
  /-- `RoomMemberEventContent`, by its membership -/
  memberContent : JsonObject → Option MembershipState
  userCanSeeEvent : Db → UserId → RoomId → EventId → Bool

variable (env : Env) (views : Views)

/-! ## the state of a response -/

/-- the events of the rows, with those that are members marked as lazy loaded -/
def initialState (db : Db) (u : UserId) (lazyLoadEnabled fullState : Bool) (timelineUsers : List UserId) :
    List (Nat × EventId) → Except Error (List PduEvent × List UserId)
  | [] => .ok ([], [])
  | (shortstatekey, e) :: rows =>
    match db.state.shortstatekeyStatekey shortstatekey with
    | none => .error (.badDatabase "Shortstatekey does not exist")
    | some (eventType, stateKey) =>
      if eventType ≠ .roomMember then do
        let pdu ← db.getPdu e
        let rest ← initialState db u lazyLoadEnabled fullState timelineUsers rows
        pure (pdu.toList ++ rest.1, rest.2)
      else if !lazyLoadEnabled || fullState || (timelineUsers.map env.ids.userIdStr).contains stateKey
          || env.ids.userIdStr u == stateKey then do
        let pdu ← db.getPdu e
        let rest ← initialState db u lazyLoadEnabled fullState timelineUsers rows
        match pdu with
        | some pdu => pure (pdu :: rest.1, (env.ids.userIdOfStr stateKey).toList ++ rest.2)
        | none => pure rest
      else initialState db u lazyLoadEnabled fullState timelineUsers rows

/-- the events of the rows that have changed -/
def deltaState (db : Db) (fullState : Bool) (since : Tree Nat EventId) :
    List (Nat × EventId) → Except Error (List PduEvent)
  | [] => .ok []
  | (shortstatekey, e) :: rows =>
    if fullState || since.get shortstatekey != some e then do
      let pdu ← db.getPdu e
      let rest ← deltaState db fullState since rows
      pure (pdu.toList ++ rest)
    else deltaState db fullState since rows

def deltaStateEvents (db : Db) (fullState : Bool) (since current : Nat) : Except Error (List PduEvent) :=
  if since = current then .ok []
  else do
    let currentIds ← db.stateFullIds env current
    let sinceIds ← db.stateFullIds env since
    deltaState db fullState sinceIds currentIds.rows

/-- the counts are sent if there are member events -/
def memberCounts (db : Db) (r : RoomId) (delta : List PduEvent) : Except Error Unit :=
  if delta.any (fun pdu => pdu.kind = .roomMember) then views.calculateCounts db r else .ok ()

/-- the users whose member events are among the events -/
def memberUsers : List PduEvent → Except Error (List UserId)
  | [] => .ok []
  | pdu :: pdus =>
    if pdu.kind = .roomMember then
      match pdu.stateKey with
      | none => .error (.panic "State event has state key")
      | some stateKey => do
        let rest ← memberUsers pdus
        pure ((env.ids.userIdOfStr stateKey).toList ++ rest)
    else memberUsers pdus

/-- the members behind the timeline that were not sent before -/
def contextualMembers (st : Store) (u : UserId) (d : DeviceId) (r : RoomId) (sendRedundant : Bool) :
    List PduEvent → List PduEvent × List UserId → Except Error (List PduEvent × List UserId)
  | [], x => .ok x
  | event :: events, x =>
    if event.sender ∈ x.2 then contextualMembers st u d r sendRedundant events x
    else if !lazyLoadWasSentBefore st u d r event.sender || sendRedundant then do
      match ← st.db.roomStateGet env r .roomMember (env.ids.userIdStr event.sender) with
      | some member =>
        contextualMembers st u d r sendRedundant events (x.1 ++ [member], x.2 ++ [event.sender])
      | none => contextualMembers st u d r sendRedundant events x
    else contextualMembers st u d r sendRedundant events x

inductive Answer where
  /-- no state changes -/
  | unchanged
  | initialSync (state : List PduEvent) (lazyLoaded : List UserId)
  | incremental (state : List PduEvent) (lazyLoaded : List UserId)

def Answer.state : Answer → List PduEvent
  | .unchanged => []
  | .initialSync state _ => state
  | .incremental state _ => state

/-- the user was not joined at the token, as far as is known -/
def joinedSinceLastSync (db : Db) (u : UserId) : Option Nat → Except Error Bool
  | none => .ok true
  | some since => do
    let member ← db.stateGet env since .roomMember (env.ids.userIdStr u)
    pure ((member.bind fun pdu => views.memberContent pdu.content) != some .join)

/-- the two branches of a sync, after the delivery was confirmed -/
def answer (st : Store) (u : UserId) (d : DeviceId) (r : RoomId) (timeline : List PduEvent)
    (current : Nat) (since : Option Nat) (lazyLoadEnabled sendRedundant fullState : Bool) : Except Error Answer :=
  if timeline.isEmpty && since == some current then .ok .unchanged
  else do
    match ← joinedSinceLastSync env views st.db u since, since with
    | false, some since => do
      let delta ← deltaStateEvents env st.db fullState since current
      views.deviceListUpdates st.db r delta
      memberCounts views st.db r delta
      let lazyLoaded ← memberUsers env delta
      let x ← contextualMembers env st u d r sendRedundant timeline (delta, lazyLoaded)
      pure (.incremental x.1 x.2)
    | _, _ => do
      views.calculateCounts st.db r
      let ids ← st.db.stateFullIds env current
      let x ← initialState env st.db u lazyLoadEnabled fullState (timeline.map PduEvent.sender) ids.rows
      pure (.initialSync x.1 x.2)

/-- what the branches write behind their reads -/
def markAnswer (u : UserId) (d : DeviceId) (r : RoomId) (nextBatch : Nat) : Answer → StoreComp Unit
  | .unchanged => pure ()
  | .initialSync _ lazyLoaded => do
    lazyLoadReset u d r
    lazyLoadMarkSent u d r lazyLoaded (.normal nextBatch)
  | .incremental _ lazyLoaded => lazyLoadMarkSent u d r lazyLoaded (.normal nextBatch)

structure JoinedRoom where
  timeline : List PduEvent
  limited : Bool
  prevBatch : Option PduCount
  answer : Answer

def prevBatch : List (PduCount × PduEvent) → Option PduCount
  | [] => none
  | (.backfilled _, _) :: _ => some (.normal 0)
  | (.normal c, _) :: _ => some (.normal c)

def limited (timelineLimited : Bool) : Answer → Bool
  | .initialSync _ _ => true
  | _ => timelineLimited

/-- the state of the room, and the one behind the token -/
def shortstatehashes (st : Store) (r : RoomId) (since : Nat) : Except Error (Nat × Option Nat) := do
  match st.db.state.roomidShortstatehash r with
  | none => .error (.badDatabase "Room has no state")
  | some current => do
    let since ← getTokenShortstatehash st r since
    pure (current, since)

def loadJoinedRoom (u : UserId) (d : DeviceId) (r : RoomId) (since nextBatch : Nat)
    (lazyLoadEnabled sendRedundant fullState : Bool) : StoreComp JoinedRoom := do
  let timeline ← Comp.reads fun st => loadTimeline st.db u r since
  lazyLoadConfirmDelivery u d r (.normal since)
  let hashes ← Comp.reads fun st => shortstatehashes st r since
  let events := timeline.1.map Prod.snd
  let a ← Comp.reads fun st =>
    answer env views st u d r events hashes.1 hashes.2 lazyLoadEnabled sendRedundant fullState
  markAnswer u d r nextBatch a
  associateTokenShortstatehash r nextBatch hashes.1
  pure ⟨events, limited timeline.2 a, prevBatch timeline.1, a⟩

/-! ## `/messages` -/

inductive Direction where
  | forward
  | backward

structure MessagesRequest where
  room : RoomId
  fromToken : Option PduCount
  dir : Direction
  toToken : Option PduCount
  limit : Nat

structure MessagesResponse where
  start : PduCount
  endToken : Option PduCount
  chunk : List PduEvent
  state : List PduEvent

def MessagesRequest.start (request : MessagesRequest) : PduCount :=
  match request.fromToken, request.dir with
  | some c, _ => c
  | none, .forward => .min
  | none, .backward => .max

def messageEvents (db : Db) (u : UserId) (request : MessagesRequest) : Except Error (List (PduCount × PduEvent)) := do
  let pdus ← match request.dir with
    | .forward => db.timeline.pdusAfter (db.roomidShortroomid request.room) u request.start
    | .backward => db.timeline.pdusUntil (db.roomidShortroomid request.room) u request.start
  pure ((((pdus.take (min request.limit 100)).filterMap Except.toOption).filter
    fun x => views.userCanSeeEvent db u request.room x.2.eventId).takeWhile fun x => some x.1 ≠ request.toToken)

/-- the member events of the users -/
def memberEvents (db : Db) (r : RoomId) : List UserId → Except Error (List PduEvent)
  | [] => .ok []
  | llId :: llIds => do
    let member ← db.roomStateGet env r .roomMember (env.ids.userIdStr llId)
    let rest ← memberEvents db r llIds
    pure (member.toList ++ rest)

def getMessageEventsRoute (u : UserId) (d : DeviceId) (request : MessagesRequest) : StoreComp MessagesResponse := do
  lazyLoadConfirmDelivery u d request.room request.start
  let events ← Comp.reads fun st => messageEvents views st.db u request
  let lazyLoaded := (events.map fun x => x.2.sender).dedup
  let state ← Comp.reads fun st => memberEvents env st.db request.room lazyLoaded
  pure ⟨request.start, events.getLast?.map Prod.fst, events.map Prod.snd, state⟩

/-! ## what a device was answered -/

/-- the part of a response that is about a room, and whether the device received the response -/
inductive Part where
  /-- the member events are those of the room's state at that time -/
  | sync (r : RoomId) (received : Bool) (nextBatch : Nat) (room : JoinedRoom) (members : UserId → Option EventId)
  | messages (r : RoomId) (received : Bool) (response : MessagesResponse)

/-- the member event of a user in the state of a room -/
def members (db : Db) (r : RoomId) (x : UserId) : Option EventId :=
  match db.roomStateGet env r .roomMember (env.ids.userIdStr x) with
  | .ok (some member) => some member.eventId
  | _ => none

def Contains (state : List PduEvent) (e : EventId) : Prop := ∃ pdu ∈ state, pdu.eventId = e

/-- the state events that the device has received in the room since the last `lazy_load_reset` -/
def held (r : RoomId) : List Part → List PduEvent :=
  List.foldl (fun state part =>
    match part with
    | .sync r' received _ room _ =>
      if r' = r then
        (match room.answer with | .initialSync _ _ => [] | _ => state) ++
          (if received then room.answer.state else [])
      else state
    | .messages r' received response => if r' = r ∧ received then state ++ response.state else state) []

/-- the last members that waited under the count came with a response that the device received, and there was no
`lazy_load_reset` since -/
def acknowledged (r : RoomId) (c : PduCount) : List Part → Bool :=
  List.foldl (fun ack part =>
    match part with
    | .sync r' received nextBatch room _ =>
      if r' = r then
        match room.answer with
        | .unchanged => ack
        | .initialSync _ _ => if c = .normal nextBatch then received else false
        | .incremental _ _ => if c = .normal nextBatch then received else ack
      else ack
    | .messages _ _ _ => ack) false

/-- the member events at the last sync of the room that the device received -/
def base (r : RoomId) : List Part → Option (UserId → Option EventId) :=
  List.foldl (fun b part =>
    match part with
    | .sync r' received _ _ members => if r' = r ∧ received then some members else b
    | .messages _ _ _ => b) none

/-- **the claim**: in an incremental sync, the member event of each sender in the timeline is in the state, or the
device has received it since the last reset -/
def Kept (log : List Part) : Prop :=
  ∀ before after r received nextBatch room members,
    log = before ++ Part.sync r received nextBatch room members :: after →
    ∀ state lazyLoaded, room.answer = .incremental state lazyLoaded →
    ∀ event ∈ room.timeline, ∀ e, members event.sender = some e → Contains state e ∨ Contains (held r before) e

/-! ## runs -/

structure Session where
  store : Store
  /-- what the requests were answered, oldest first -/
  log : List Part
  /-- the tokens that the device has received -/
  tokens : List PduCount
  /-- the `since` of a sync that got no response -/
  lost : Option (Option PduCount)

inductive Call where
  | sync (since : Option PduCount) (fullState : Bool) (nextBatch : Nat) (rooms : List RoomId) (received : Bool)
  | messages (request : MessagesRequest) (received : Bool)

/-- `since` as a number; the token of a backfilled event is none -/
def sinceCount : Option PduCount → Nat
  | some (.normal n) => n
  | _ => 0

section
variable (u : UserId) (d : DeviceId)

/-- the room becomes a part of the response, unless it fails -/
def serve (since : Nat) (fullState : Bool) (nextBatch : Nat) (received : Bool) (s : Session) (r : RoomId) : Session :=
  match loadJoinedRoom env views u d r since nextBatch true false fullState s.store with
  | (.ok room, store) => { s with
    store := store
    log := s.log ++ [.sync r received nextBatch room (members env store.db r)]
    tokens := if received then s.tokens ++ room.prevBatch.toList else s.tokens }
  | (.error _, store) => { s with store := store }

def Call.perform : Call → Session → Session
  | .sync since fullState nextBatch rooms received, s =>
    let s := rooms.foldl (serve env views u d (sinceCount since) fullState nextBatch received) s
    { s with
      tokens := if received then s.tokens ++ [.normal nextBatch] else s.tokens
      lost := if received then none else some since }
  | .messages request received, s =>
    match getMessageEventsRoute env views u d request s.store with
    | (.ok response, store) => { s with
      store := store
      log := s.log ++ [.messages request.room received response]
      tokens := if received then s.tokens ++ response.start :: response.endToken.toList else s.tokens }
    | (.error _, store) => { s with store := store }

/-- a token is one that the device has received, and a sync that got no response is tried again.  The count is read
before the rooms are; a sync may stop at a room, and then there is no response -/
def Call.Allowed (s : Session) : Call → Prop
  | .sync since _ nextBatch rooms received =>
    (∀ t, since = some t → t ∈ s.tokens) ∧ (∀ t, s.lost = some t → since = t) ∧
      nextBatch ≤ s.store.db.state.counter ∧
      ∃ rest, s.store.db.members.roomsJoined env.ids u = rooms.map .ok ++ rest ∧ (received = true → rest = [])
  | .messages request _ => ∀ t, request.fromToken = some t → t ∈ s.tokens

/-- what the device was sent is not touched -/
structure SameSent (st st' : Store) : Prop where
  sent : ∀ r x, lazyLoadWasSentBefore st' u d r x = lazyLoadWasSentBefore st u d r x
  waiting : ∀ r c, st'.lazyLoadWaiting (u, d, r, c) = st.lazyLoadWaiting (u, d, r, c)

/-- a snapshot has one event under a state key, and it is an event with this state key -/
structure Filed (db : Db) : Prop where
  one : ∀ h full, db.fullState h = .ok full → ∀ k, ∀ c ∈ full, ∀ c' ∈ full,
    c.hasKey k = true → c'.hasKey k = true → c = c'
  keys : ∀ k key, db.state.statekeyShortstatekey key = some k ↔ db.state.shortstatekeyStatekey k = some key
  words : ∀ k key, db.state.statekeyShortstatekey key = some k → k < 2^64
  events : ∀ h full, db.fullState h = .ok full → ∀ c ∈ full, ∀ k e pdu, db.parseCompressedStateEvent c = .ok (k, e) →
    db.getPdu e = .ok (some pdu) → pdu.eventId = e ∧ ∃ stateKey, pdu.stateKey = some stateKey ∧
      db.state.shortstatekeyStatekey k = some (pdu.kind, stateKey)

/-- a new device makes requests, each under the condition, and everything else writes what it likes -/
inductive Run (P : Session → Call → Prop) : Session → Prop where
  | start (st : Store) : Filed st.db → (∀ r x, lazyLoadWasSentBefore st u d r x = false) →
      (∀ r c, st.lazyLoadWaiting (u, d, r, c) = none) → Run P ⟨st, [], [], none⟩
  | other {s : Session} (st : Store) : Run P s → SameSent u d s.store st → Filed st.db →
      Run P { s with store := st }
  | call {s : Session} (c : Call) : Run P s → c.Allowed env u s → P s c → Run P (c.perform env views u d s)

/-- the members that wait under the count, if any, were acknowledged -/
def Confirms (s : Session) (r : RoomId) (c : PduCount) : Prop :=
  (s.store.lazyLoadWaiting (u, d, r, c)).isSome → acknowledged r c s.log = true

/-- a member event that has not changed since the token has not changed since the last sync that was received -/
def Steady (s : Session) (r : RoomId) (since : Nat) : Prop :=
  ∀ b h, base r s.log = some b → getTokenShortstatehash s.store r since = .ok (some h) → ∀ x e,
    s.store.db.stateGetId env h .roomMember (env.ids.userIdStr x) = .ok (some e) →
    members env s.store.db r x = some e → b x = some e

/-- each room, at its turn -/
def CarefulRooms (since : Nat) (fullState : Bool) (nextBatch : Nat) (received : Bool) : List RoomId → Session → Prop
  | [], _ => True
  | r :: rs, s => Confirms u d s r (.normal since) ∧ Steady env s r since ∧
      CarefulRooms since fullState nextBatch received rs (serve env views u d since fullState nextBatch received s r)

/-- the count that the request names is of a response that the device received, and a `since` is up to date -/
def Careful (s : Session) : Call → Prop
  | .sync since fullState nextBatch rooms received =>
    CarefulRooms env views u d (sinceCount since) fullState nextBatch received rooms s
  | .messages request _ => Confirms u d s request.room request.start

end

end LazyLoading
end Grapevine
