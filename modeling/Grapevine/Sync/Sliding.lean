import Mathlib.Data.String.Basic
import Grapevine.Members.Tables
import Grapevine.Timeline.Scan

/-!
# Sliding sync

The part of `sync_events_v4_route` that decides which rooms a response shows.  Rooms enter the
work list `todo_rooms` from the windows of the lists over `rooms_joined`, and from the
subscriptions, those of the request together with those that the connection's cache replays.
A subscribed room is only asked to exist.

`Asks` says, from the request, the cache and the store alone, which places ask for a room and
how far back; `todoRooms_get` says that the work list is their summary.

Main result: `syncEventsV4_confined_iff`.  A response shows only rooms that the user is joined to
iff every room that is asked for, and that is new to the connection or has something new, is one
of them.

The extensions of the response (to-device, e2ee, account data) read other tables and do not
reach `rooms`; they are left out.
-/

namespace Grapevine
open Kv

namespace Sliding

variable {t t' : TimelineTables} {u : UserId} {r : RoomId} {allJoined : List RoomId} {d : Text}

/-! ## requests and the cache of a connection -/

/-- `RoomDetailsConfig` and `RoomSubscription` -/
structure RoomDetails where
  requiredState : List (EventType × String)
  timelineLimit : Option Nat

structure Filters where
  isInvite : Option Bool

structure SyncRequestList where
  ranges : List (Nat × Nat)
  roomDetails : RoomDetails
  filters : Option Filters

/-- `pos` is the number that the position parses to -/
structure Request where
  pos : Option Nat
  connId : Option String
  lists : Tree String SyncRequestList
  roomSubscriptions : Tree RoomId RoomDetails
  unsubscribeRooms : List RoomId

abbrev KnownRooms := Tree String (Tree RoomId Nat)

structure SlidingSyncCache where
  lists : Tree String SyncRequestList
  subscriptions : Tree RoomId RoomDetails
  knownRooms : KnownRooms

def SlidingSyncCache.new : SlidingSyncCache := ⟨.empty, .empty, .empty⟩

abbrev Connections := UserId × Text × String → Option SlidingSyncCache

/-- `BTreeMap::extend` -/
def extend {κ ν : Type} [LinearOrder κ] (t : Tree κ ν) (s : Tree κ ν) : Tree κ ν :=
  s.rows.foldl (fun t row => t.insert row.1 row.2) t

/-- the sticky parameters of one list -/
def SyncRequestList.sticky (list : SyncRequestList) (cached : Option SyncRequestList) :
    SyncRequestList :=
  match cached with
  | none => list
  | some c =>
    { list with
      roomDetails := {
        requiredState := if list.roomDetails.requiredState.isEmpty then c.roomDetails.requiredState
          else list.roomDetails.requiredState
        timelineLimit := list.roomDetails.timelineLimit.or c.roomDetails.timelineLimit }
      filters := match list.filters, c.filters with
        | some lf, some cf => some ⟨lf.isInvite.or cf.isInvite⟩
        | _, some cf => some cf
        | some lf, _ => some lf
        | _, _ => none }

/-- the loop over the lists of `update_sync_request_with_cache`; the first tree is the list of
the request, the second that of the cache -/
def stickyLists (lists : List (String × SyncRequestList)) (request cached : Tree String SyncRequestList) :
    Tree String SyncRequestList × Tree String SyncRequestList :=
  lists.foldl (fun (acc : Tree String SyncRequestList × Tree String SyncRequestList) row =>
    let list := row.2.sticky (acc.2.get row.1)
    (acc.1.insert row.1 list, acc.2.insert row.1 list)) (request, cached)

def updateSyncRequestWithCache (conns : Connections) (u : UserId) (d : Text) (request : Request) :
    KnownRooms × Request × Connections :=
  match request.connId with
  | none => (.empty, request, conns)
  | some connId =>
    let cached := (conns (u, d, connId)).getD .new
    let (lists, cachedLists) := stickyLists request.lists.rows request.lists cached.lists
    let subscriptions := extend cached.subscriptions request.roomSubscriptions
    let cached := { cached with lists := cachedLists, subscriptions := subscriptions }
    (cached.knownRooms,
      { request with
        lists := lists, roomSubscriptions := extend request.roomSubscriptions subscriptions },
      Function.update conns (u, d, connId) (some cached))

def forgetSyncRequestConnection (conns : Connections) (u : UserId) (d : Text) (connId : String) :
    Connections := Function.update conns (u, d, connId) none

def updateSyncSubscriptions (conns : Connections) (u : UserId) (d : Text) (connId : String)
    (subscriptions : Tree RoomId RoomDetails) : Connections :=
  let cached := (conns (u, d, connId)).getD .new
  Function.update conns (u, d, connId) (some { cached with subscriptions := subscriptions })

def updateSyncKnownRooms (conns : Connections) (u : UserId) (d : Text) (connId listId : String)
    (newCachedRooms : List RoomId) (globalsince : Nat) : Connections :=
  let cached := (conns (u, d, connId)).getD .new
  let known := (cached.knownRooms.get listId).getD .empty
  let outdated := known.rows.foldl (fun (t : Tree RoomId Nat) row =>
    if row.1 ∈ newCachedRooms then t else t.insert row.1 0) known
  let list := newCachedRooms.foldl (fun (t : Tree RoomId Nat) r => t.insert r globalsince) outdated
  Function.update conns (u, d, connId)
    (some { cached with knownRooms := cached.knownRooms.insert listId list })

/-! ## the work list -/

/-- an entry of `todo_rooms`: the required state, the timeline limit, the roomsince number -/
structure Todo where
  requiredState : List (EventType × String)
  limit : Nat
  since : Nat

def Todo.new : Todo := ⟨[], 0, u64Max⟩

/-- one place of the request that asks for a room -/
structure Ask where
  room : RoomId
  details : RoomDetails
  /-- `0` means unknown -/
  since : Nat

def Ask.limit (a : Ask) : Nat := min (a.details.timelineLimit.getD 10) 100

def Todo.add (t : Todo) (a : Ask) : Todo :=
  ⟨t.requiredState ++ a.details.requiredState.filter (fun s => s ∉ t.requiredState),
    max t.limit a.limit, min t.since a.since⟩

/-- `todo_rooms.entry(..).or_insert(..)` and the updates behind it -/
def addTodo (todo : Tree RoomId Todo) (a : Ask) : Tree RoomId Todo :=
  todo.insert a.room (((todo.get a.room).getD .new).add a)

/-- the roomsince number that the connection knows a room under -/
def sinceIn (known : KnownRooms) (listId : String) (r : RoomId) : Nat :=
  ((known.get listId).bind (fun k => k.get r)).getD 0

def uintMax : Nat := 2^53 - 1

/-- a range clamped to the list of rooms -/
def clamp (len : Nat) (range : Nat × Nat) : Nat × Nat :=
  let top := min (len - 1) uintMax
  let lo := min range.1 top
  (lo, max lo (min range.2 top))

/-- over no rooms at all `len() - 1` overflows -/
def clampRange (len : Nat) (range : Nat × Nat) : Except Error (Nat × Nat) :=
  if len = 0 then .error (.panic "attempt to subtract with overflow")
  else .ok (clamp len range)

/-- `all_joined_rooms[lo..=hi]` -/
def window (rooms : List RoomId) (range : Nat × Nat) : List RoomId :=
  (rooms.drop range.1).take (range.2 + 1 - range.1)

structure SyncOp where
  range : Nat × Nat
  roomIds : List RoomId

structure SyncList where
  ops : List SyncOp
  count : Nat

def listOps (allJoined : List RoomId) (ranges : List (Nat × Nat)) : Except Error (List SyncOp) :=
  ranges.mapM (fun range => do
    let range ← clampRange allJoined.length range
    return ⟨range, window allJoined range⟩)

/-- the asks of the windows of one list -/
def listAsks (known : KnownRooms) (listId : String) (details : RoomDetails) (ops : List SyncOp) :
    List Ask :=
  ops.flatMap (fun op => op.roomIds.map (fun r => ⟨r, details, sinceIn known listId r⟩))

structure ListState where
  lists : Tree String SyncList
  todo : Tree RoomId Todo
  conns : Connections

def isInviteList (list : SyncRequestList) : Bool := (list.filters.bind (·.isInvite)).getD false

section
variable (u : UserId) (d : Text) (connId : Option String) (globalsince : Nat)
  (known : KnownRooms) (allJoined : List RoomId)

/-- the body of the loop over `body.lists` -/
def doList (st : ListState) (row : String × SyncRequestList) : Except Error ListState :=
  if isInviteList row.2 then .ok st
  else do
    let ops ← listOps allJoined row.2.ranges
    return {
      lists := st.lists.insert row.1 ⟨ops, min allJoined.length uintMax⟩
      todo := (listAsks known row.1 row.2.roomDetails ops).foldl addTodo st.todo
      conns := match connId with
        | none => st.conns
        | some c => updateSyncKnownRooms st.conns u d c row.1 (ops.flatMap SyncOp.roomIds) globalsince }

def doLists (st : ListState) (lists : List (String × SyncRequestList)) : Except Error ListState :=
  lists.foldlM (doList u d connId globalsince known allJoined) st

end

/-- the asks of the subscriptions to rooms that exist -/
def subscriptionAsks (exist : RoomId → Bool) (known : KnownRooms)
    (subscriptions : List (RoomId × RoomDetails)) : List Ask :=
  (subscriptions.filter (fun row => exist row.1)).map
    (fun row => ⟨row.1, row.2, sinceIn known "subscriptions" row.1⟩)

/-! ## the rooms of the response -/

inductive JsOption (α : Type) where
  | some (a : α)
  | null
  | undefined

/-- what the other services say about a room; the theorems hold for every answer they give -/
structure Views where
  roomStateGet : RoomId → EventType → String → Except Error (Option PduEvent)
  /-- display name and avatar of a member -/
  getMember : RoomId → UserId → Except Error (Option (Option String × Option String))
  getName : RoomId → Except Error (Option String)
  /-- the `url` of the avatar event, through `JsOption::from_option` -/
  getAvatar : RoomId → Except Error (JsOption String)
  highlightCount : UserId → RoomId → Except Error Nat
  notificationCount : UserId → RoomId → Except Error Nat
  roomJoinedCount : RoomId → Except Error (Option Nat)
  roomInvitedCount : RoomId → Except Error (Option Nat)

structure SlidingSyncRoom where
  name : Option String
  avatar : JsOption String
  initial : Bool
  highlightCount : Nat
  notificationCount : Nat
  timeline : List PduEvent
  requiredState : List PduEvent
  prevBatch : Option Nat
  limited : Bool
  joinedCount : Nat
  invitedCount : Nat

/-- the tables that the route reads -/
structure Store where
  members : MemberTables
  roomidShortroomid : RoomId → Option Nat
  views : Views

variable (I : Ids) (db : Store)

def loadTimeline (t : TimelineTables) (u : UserId) (r : RoomId) (roomsincecount : PduCount)
    (limit : Nat) : Except Error (List (PduCount × PduEvent) × Bool) × TimelineTables :=
  match t.lastTimelineCount (db.roomidShortroomid r) u r with
  | (.error e, t) => (.error e, t)
  | (.ok last, t) =>
    if roomsincecount < last then
      match t.pdusUntil (db.roomidShortroomid r) u .max with
      | .error e => (.error e, t)
      | .ok pdus =>
        let nonTimelinePdus :=
          (pdus.filterMap Except.toOption).takeWhile (fun x => roomsincecount < x.1)
        (.ok ((nonTimelinePdus.take limit).reverse, !(nonTimelinePdus.drop limit).isEmpty), t)
    else (.ok ([], false), t)

/-- the first five members besides the user, with display name and avatar -/
def heroes (u : UserId) (r : RoomId) : List (String × Option String) :=
  (((((db.members.roomMembers I r).filterMap Except.toOption).filter (· ≠ u)).filterMap
    (fun m => ((db.views.getMember r m).toOption.join).map
      (fun e => (e.1.getD (I.userIdStr m), e.2))))).take 5

def heroesName : List (String × Option String) → Option String
  | [] => none
  | [only] => some only.1
  | hs => some (", ".intercalate (hs.dropLast.map Prod.fst) ++ " and " ++ (hs.getLast?.map Prod.fst).getD "")

def heroesAvatar : List (String × Option String) → Option String
  | [only] => only.2
  | _ => none

def toUInt (n : Nat) : Except Error Nat :=
  if n ≤ uintMax then .ok n else .error (.panic "notification count can't go that high")

def prevBatch (timeline : List (PduCount × PduEvent)) (since : Nat) : Option Nat :=
  match timeline.head? with
  | some (.backfilled _, _) => some 0
  | some (.normal c, _) => some c
  | none => if since ≠ 0 then some since else none

/-- the entry of a room with this timeline -/
def roomEntry (u : UserId) (r : RoomId) (todo : Todo) (timeline : List (PduCount × PduEvent))
    (limited : Bool) : Except Error SlidingSyncRoom := do
  let requiredState := todo.requiredState.filterMap
    (fun s => (db.views.roomStateGet r s.1 s.2).toOption.join)
  let hs := heroes I db u r
  let name ← db.views.getName r
  let avatar ← match heroesAvatar hs with
    | some a => .ok (.some a)
    | none => db.views.getAvatar r
  let highlightCount ← toUInt (← db.views.highlightCount u r)
  let notificationCount ← toUInt (← db.views.notificationCount u r)
  let joinedCount ← db.views.roomJoinedCount r
  let invitedCount ← db.views.roomInvitedCount r
  return {
    name := name.or (heroesName hs)
    avatar := avatar
    initial := decide (todo.since = 0)
    highlightCount := highlightCount
    notificationCount := notificationCount
    timeline := timeline.map Prod.snd
    requiredState := requiredState
    prevBatch := prevBatch timeline todo.since
    limited := limited
    joinedCount := min (joinedCount.getD 0) uintMax
    invitedCount := min (invitedCount.getD 0) uintMax }

/-- the body of the loop over `todo_rooms`: `none` is its `continue` -/
def serveRoom (t : TimelineTables) (u : UserId) (r : RoomId) (todo : Todo) :
    Except Error (Option SlidingSyncRoom) × TimelineTables :=
  match loadTimeline db t u r (.normal todo.since) todo.limit with
  | (.error e, t) => (.error e, t)
  | (.ok (timeline, limited), t) =>
    if todo.since ≠ 0 ∧ timeline.isEmpty then (.ok none, t)
    else ((roomEntry I db u r todo timeline limited).map some, t)

def serveRooms (u : UserId) (t : TimelineTables) :
    List (RoomId × Todo) → Tree RoomId SlidingSyncRoom →
      Except Error (Tree RoomId SlidingSyncRoom) × TimelineTables
  | [], rooms => (.ok rooms, t)
  | (r, todo) :: rest, rooms =>
    match serveRoom I db t u r todo with
    | (.error e, t) => (.error e, t)
    | (.ok none, t) => serveRooms u t rest rooms
    | (.ok (some room), t) => serveRooms u t rest (rooms.insert r room)

/-! ## the route -/

structure Response where
  initial : Bool
  pos : Nat
  lists : Tree String SyncList
  rooms : Tree RoomId SlidingSyncRoom

/-- the rooms the scan of the membership table lists -/
def allJoinedRooms (u : UserId) : List RoomId :=
  (db.members.roomsJoined I u).filterMap Except.toOption

/-- what the route keeps between requests -/
structure Session where
  conns : Connections
  timeline : TimelineTables

def globalsince (request : Request) : Nat := request.pos.getD 0

/-- a request at position `0` drops the connection's cache -/
def startConnection (conns : Connections) (u : UserId) (d : Text) (request : Request) :
    Connections :=
  match request.connId with
  | some c => if globalsince request = 0 then forgetSyncRequestConnection conns u d c else conns
  | none => conns

/-- `sync_events_v4_route`; `nextBatch` is the `next_count` it draws -/
def syncEventsV4 (s : Session) (u : UserId) (d : Text) (request : Request) (nextBatch : Nat) :
    Except Error Response × Session :=
  let since := globalsince request
  let (known, body, conns) :=
    updateSyncRequestWithCache (startConnection s.conns u d request) u d request
  match doLists u d body.connId since known (allJoinedRooms I db u) ⟨.empty, .empty, conns⟩
      body.lists.rows with
  | .error e => (.error e, { s with conns := conns })
  | .ok st =>
    let exist := fun r => s.timeline.roomExists (db.roomidShortroomid r)
    let asks := subscriptionAsks exist known body.roomSubscriptions.rows
    let todo := asks.foldl addTodo st.todo
    let knownSubscriptions := (asks.map Ask.room).filter (fun r => r ∉ body.unsubscribeRooms)
    let subscriptions := body.unsubscribeRooms.foldl (fun t r => t.remove r) body.roomSubscriptions
    let conns := match body.connId with
      | none => st.conns
      | some c => updateSyncSubscriptions
          (updateSyncKnownRooms st.conns u d c "subscriptions" knownSubscriptions since)
          u d c subscriptions
    match serveRooms I db u s.timeline todo.rows .empty with
    | (.error e, t) => (.error e, ⟨conns, t⟩)
    | (.ok rooms, t) => (.ok ⟨decide (since = 0), nextBatch, st.lists, rooms⟩, ⟨conns, t⟩)

/-! ## what a request asks for -/

/-- the asks of the lists -/
def listsAsks (known : KnownRooms) (allJoined : List RoomId)
    (lists : List (String × SyncRequestList)) : List Ask :=
  lists.flatMap (fun row =>
    if isInviteList row.2 then []
    else listAsks known row.1 row.2.roomDetails
      (row.2.ranges.map (fun range =>
        ⟨clamp allJoined.length range, window allJoined (clamp allJoined.length range)⟩)))

/-- all the places of a request that ask for a room -/
def asks (s : Session) (u : UserId) (d : Text) (request : Request) : List Ask :=
  let (known, body, _) :=
    updateSyncRequestWithCache (startConnection s.conns u d request) u d request
  listsAsks known (allJoinedRooms I db u) body.lists.rows ++
    subscriptionAsks (fun r => s.timeline.roomExists (db.roomidShortroomid r)) known
      body.roomSubscriptions.rows

/-- the summary of the asks for one room: all the required state, the largest limit, the
earliest position -/
def summary (as : List Ask) (r : RoomId) : Todo :=
  (as.filter (fun a => a.room = r)).foldl Todo.add .new

/-- the room is new to the connection, or its timeline has something new -/
def Live (t : TimelineTables) (u : UserId) (r : RoomId) (todo : Todo) : Prop :=
  todo.since = 0 ∨ ∀ limited,
    (loadTimeline db t u r (.normal todo.since) todo.limit).1 ≠ .ok ([], limited)

/-! ### the work list -/

theorem foldl_addTodo_get (as : List Ask) (todo : Tree RoomId Todo) (r : RoomId) :
    (as.foldl addTodo todo).get r = (as.filter (fun a => a.room = r)).foldl
      (fun o a => some ((o.getD .new).add a)) (todo.get r) := by
  induction as generalizing todo with
  | nil => rfl
  | cons a as ih =>
    rw [List.foldl_cons, ih]
    unfold addTodo
    by_cases h : a.room = r
    · rw [List.filter_cons_of_pos (by simpa using h), List.foldl_cons, h, Tree.get_insert_self]
    · rw [List.filter_cons_of_neg (by simpa using h), Tree.get_insert_of_ne _ _ (Ne.symm h)]

theorem foldl_some (as : List Ask) (t : Todo) :
    as.foldl (fun o a => some ((o.getD Todo.new).add a)) (some t) = some (as.foldl Todo.add t) := by
  induction as generalizing t with
  | nil => rfl
  | cons a as ih => exact ih (t.add a)

/-- the work list is the summary of the asks -/
theorem todoRooms_get (as : List Ask) (r : RoomId) (t : Todo) :
    (as.foldl addTodo .empty).get r = some t ↔ r ∈ as.map Ask.room ∧ t = summary as r := by
  rw [foldl_addTodo_get]
  unfold summary
  cases hl : as.filter (fun a => a.room = r) with
  | nil =>
    refine iff_of_false (fun h => by cases h) (fun h => ?_)
    obtain ⟨a, ha, har⟩ := List.mem_map.mp h.1
    have : a ∈ as.filter (fun a => a.room = r) := List.mem_filter.mpr ⟨ha, by simpa using har⟩
    rw [hl] at this
    exact absurd this List.not_mem_nil
  | cons a l =>
    have ha : a ∈ as.filter (fun a => a.room = r) := by
      rw [hl]
      exact List.mem_cons_self
    have hr : r ∈ as.map Ask.room :=
      List.mem_map.mpr ⟨a, (List.mem_filter.mp ha).1, by simpa using (List.mem_filter.mp ha).2⟩
    rw [Tree.get_empty, List.foldl_cons, foldl_some, List.foldl_cons]
    show some (l.foldl Todo.add (Todo.new.add a)) = some t ↔ _
    refine ⟨fun h => ⟨hr, (Option.some.inj h).symm⟩, fun h => by rw [h.2]⟩

theorem listOps_ok {ranges : List (Nat × Nat)} {ops : List SyncOp} (h : listOps allJoined ranges = .ok ops) :
    ops = ranges.map (fun range =>
      ⟨clamp allJoined.length range, window allJoined (clamp allJoined.length range)⟩) := by
  induction ranges generalizing ops with
  | nil =>
    cases h
    rfl
  | cons range ranges ih =>
    unfold listOps at h
    rw [List.mapM_cons] at h
    unfold clampRange at h
    by_cases hlen : allJoined.length = 0
    · rw [if_pos hlen] at h
      cases h
    · rw [if_neg hlen] at h
      cases hrest : listOps allJoined ranges with
      | error e =>
        unfold listOps clampRange at hrest
        rw [hrest] at h
        cases h
      | ok rest =>
        rw [List.map_cons, ← ih hrest]
        unfold listOps clampRange at hrest
        rw [hrest] at h
        cases h
        rfl

theorem doLists_todo {connId : Option String} {since : Nat} {known : KnownRooms}
    (lists : List (String × SyncRequestList)) {st st' : ListState}
    (h : doLists u d connId since known allJoined st lists = .ok st') :
    st'.todo = (listsAsks known allJoined lists).foldl addTodo st.todo := by
  induction lists generalizing st with
  | nil =>
    cases h
    rfl
  | cons row lists ih =>
    unfold doLists at h
    rw [List.foldlM_cons] at h
    cases h1 : doList u d connId since known allJoined st row with
    | error e =>
      rw [h1] at h
      cases h
    | ok st₁ =>
      rw [h1] at h
      have hcons : listsAsks known allJoined (row :: lists)
          = listsAsks known allJoined [row] ++ listsAsks known allJoined lists := by
        unfold listsAsks
        rw [List.flatMap_cons, List.flatMap_cons, List.flatMap_nil, List.append_nil]
      rw [ih h, hcons, List.foldl_append]
      congr 1
      unfold listsAsks
      rw [List.flatMap_cons, List.flatMap_nil, List.append_nil]
      unfold doList at h1
      by_cases hinv : isInviteList row.2 = true
      · rw [if_pos hinv] at h1 ⊢
        cases h1
        rfl
      · rw [if_neg hinv] at h1 ⊢
        cases hops : listOps allJoined row.2.ranges with
        | error e =>
          rw [hops] at h1
          cases h1
        | ok ops =>
          rw [hops] at h1
          cases h1
          rw [← listOps_ok hops]

/-! ### the loop over the work list -/

/-- a room's timeline reads the rows, and the cache at this room only -/
def SameFor (r : RoomId) (t t' : TimelineTables) : Prop :=
  t'.pduidPdu = t.pduidPdu ∧ t'.lasttimelinecountCache r = t.lasttimelinecountCache r

theorem pdusUntil_rows_congr (h : t'.pduidPdu = t.pduidPdu) (w : Option Nat) (u : UserId) (c : PduCount) :
    t'.pdusUntil w u c = t.pdusUntil w u c := by
  unfold TimelineTables.pdusUntil
  rw [h]

theorem lastTimelineCount_frame (t : TimelineTables) (w : Option Nat) (u : UserId) (r : RoomId) :
    (t.lastTimelineCount w u r).2.pduidPdu = t.pduidPdu ∧ ∀ q, q ≠ r →
      (t.lastTimelineCount w u r).2.lasttimelinecountCache q = t.lasttimelinecountCache q := by
  unfold TimelineTables.lastTimelineCount
  split
  · exact ⟨rfl, fun _ _ => rfl⟩
  · split
    · exact ⟨rfl, fun _ _ => rfl⟩
    · split
      · exact ⟨rfl, fun q hq => Function.update_of_ne hq _ _⟩
      · exact ⟨rfl, fun _ _ => rfl⟩

theorem lastTimelineCount_congr (h : SameFor r t t') (w : Option Nat) (u : UserId) :
    (t'.lastTimelineCount w u r).1 = (t.lastTimelineCount w u r).1 := by
  unfold TimelineTables.lastTimelineCount
  rw [h.2, pdusUntil_rows_congr h.1]
  split
  · rfl
  · split
    · rfl
    · split <;> rfl

theorem loadTimeline_snd (t : TimelineTables) (u : UserId) (r : RoomId) (c : PduCount)
    (limit : Nat) : (loadTimeline db t u r c limit).2
      = (t.lastTimelineCount (db.roomidShortroomid r) u r).2 := by
  unfold loadTimeline
  split
  · next h => rw [h]
  · next h =>
    rw [h]
    split
    · split <;> rfl
    · rfl

theorem loadTimeline_congr (h : SameFor r t t') (u : UserId) (c : PduCount) (limit : Nat) :
    (loadTimeline db t' u r c limit).1 = (loadTimeline db t u r c limit).1 := by
  have hlast := lastTimelineCount_congr h (db.roomidShortroomid r) u
  have hf := (lastTimelineCount_frame t (db.roomidShortroomid r) u r).1
  have hf' := (lastTimelineCount_frame t' (db.roomidShortroomid r) u r).1
  unfold loadTimeline
  generalize t.lastTimelineCount (db.roomidShortroomid r) u r = x at hlast hf
  generalize t'.lastTimelineCount (db.roomidShortroomid r) u r = x' at hlast hf'
  obtain ⟨o, t₁⟩ := x
  obtain ⟨o', t₁'⟩ := x'
  change o' = o at hlast
  subst hlast
  cases o' with
  | error e => rfl
  | ok last =>
    show (if c < last then _ else _ : Except Error _ × TimelineTables).1
      = (if c < last then _ else _ : Except Error _ × TimelineTables).1
    by_cases hc : c < last
    · have hrows : t₁'.pduidPdu = t₁.pduidPdu := hf'.trans (h.1.trans hf.symm)
      rw [if_pos hc, if_pos hc, pdusUntil_rows_congr hrows]
      cases t₁.pdusUntil (db.roomidShortroomid r) u .max <;> rfl
    · rw [if_neg hc, if_neg hc]

theorem serveRoom_frame {todo : Todo} :
    (serveRoom I db t u r todo).2 = (t.lastTimelineCount (db.roomidShortroomid r) u r).2 := by
  rw [← loadTimeline_snd db t u r (.normal todo.since) todo.limit]
  unfold serveRoom
  split
  · next h => rw [h]
  · next h =>
    rw [h]
    split <;> rfl

/-- the loop body shows a room iff it is live -/
theorem serveRoom_ok {todo : Todo} {out : Option SlidingSyncRoom} (h : (serveRoom I db t u r todo).1 = .ok out) :
    out.isSome = true ↔ Live db t u r todo := by
  unfold serveRoom at h
  unfold Live
  generalize loadTimeline db t u r (.normal todo.since) todo.limit = x at h
  obtain ⟨o, t₁⟩ := x
  cases o with
  | error e => cases h
  | ok tl =>
    obtain ⟨timeline, limited⟩ := tl
    change (if todo.since ≠ 0 ∧ timeline.isEmpty = true then _ else _ : Except Error _ × _).1 = _ at h
    by_cases hskip : todo.since ≠ 0 ∧ timeline.isEmpty = true
    · rw [if_pos hskip] at h
      cases h
      refine iff_of_false (fun h => by cases h) (fun hl => ?_)
      rcases hl with h0 | hne
      · exact hskip.1 h0
      · refine hne limited ?_
        rw [List.isEmpty_iff.mp hskip.2]
    · rw [if_neg hskip] at h
      change (roomEntry I db u r todo timeline limited).map some = .ok out at h
      cases hentry : roomEntry I db u r todo timeline limited with
      | error e =>
        rw [hentry] at h
        cases h
      | ok room =>
        rw [hentry] at h
        cases h
        refine iff_of_true rfl ?_
        by_cases h0 : todo.since = 0
        · exact Or.inl h0
        · refine Or.inr (fun lim heq => hskip ⟨h0, ?_⟩)
          cases heq
          rfl

theorem Live.congr {todo : Todo} (h : SameFor r t t') : Live db t' u r todo ↔ Live db t u r todo := by
  unfold Live
  rw [loadTimeline_congr db h]

/-- the rooms of the response are the live rooms of the work list -/
theorem serveRooms_ok (t₀ : TimelineTables) (work : List (RoomId × Todo))
    {rooms out : Tree RoomId SlidingSyncRoom} (hsame : ∀ x ∈ work, SameFor x.1 t₀ t)
    (hnodup : work.Pairwise (fun x y => x.1 < y.1)) (h : serveRooms I db u t work rooms = (.ok out, t'))
    (r : RoomId) :
    (out.get r).isSome = true ↔
      (rooms.get r).isSome = true ∨ ∃ todo, (r, todo) ∈ work ∧ Live db t₀ u r todo := by
  induction work generalizing t rooms with
  | nil =>
    cases h
    refine ⟨Or.inl, fun hr => ?_⟩
    rcases hr with hr | ⟨_, hr, _⟩
    · exact hr
    · exact absurd hr List.not_mem_nil
  | cons x work ih =>
    obtain ⟨q, todo⟩ := x
    rw [List.pairwise_cons] at hnodup
    have hq := hsame (q, todo) List.mem_cons_self
    -- the cache of the later rooms is not touched
    have hlater : ∀ y ∈ work, SameFor y.1 t₀ (serveRoom I db t u q todo).2 := by
      intro y hy
      have hf := lastTimelineCount_frame t (db.roomidShortroomid q) u q
      have hy' := hsame y (List.mem_cons_of_mem _ hy)
      rw [serveRoom_frame]
      exact ⟨hf.1.trans hy'.1, (hf.2 y.1 (hnodup.1 y hy).ne').trans hy'.2⟩
    have hother : ∀ todo', (q, todo') ∉ work := fun todo' hm => lt_irrefl q (hnodup.1 _ hm)
    unfold serveRooms at h
    generalize hs : serveRoom I db t u q todo = res at h hlater
    obtain ⟨o, t₁⟩ := res
    cases o with
    | error e => cases h
    | ok o =>
      have hlive : o.isSome = true ↔ Live db t₀ u q todo :=
        (serveRoom_ok I db (show (serveRoom I db t u q todo).1 = .ok o by rw [hs])).trans
          (Live.congr db hq)
      cases o with
      | none =>
        rw [ih hlater hnodup.2 h]
        refine or_congr_right (exists_congr fun todo' => and_congr_left fun hl => ?_)
        refine ⟨List.mem_cons_of_mem _, fun hm => ?_⟩
        rcases List.mem_cons.mp hm with e | hm
        · cases e
          exact absurd (hlive.mpr hl) (by simp)
        · exact hm
      | some room =>
        rw [ih hlater hnodup.2 h]
        by_cases hr : r = q
        · subst hr
          refine iff_of_true (Or.inl ?_) (Or.inr ⟨todo, List.mem_cons_self, hlive.mp rfl⟩)
          rw [Tree.get_insert_self]
          rfl
        · rw [Tree.get_insert_of_ne _ _ hr]
          refine or_congr_right (exists_congr fun todo' => and_congr_left fun _ => ?_)
          refine ⟨List.mem_cons_of_mem _, fun hm => ?_⟩
          rcases List.mem_cons.mp hm with e | hm
          · cases e
            exact absurd rfl hr
          · exact hm

/-! ## confinement -/

/-- every room of the response is one that the user is joined to -/
def Confined (u : UserId) (response : Response) : Prop :=
  ∀ r room, (r, room) ∈ response.rooms.rows → db.members.isJoined u r = true

theorem syncEventsV4_rooms {s : Session} {request : Request} {nextBatch : Nat} {response : Response}
    (h : (syncEventsV4 I db s u d request nextBatch).1 = .ok response) (r : RoomId) :
    (response.rooms.get r).isSome = true ↔ r ∈ (asks I db s u d request).map Ask.room ∧
      Live db s.timeline u r (summary (asks I db s u d request) r) := by
  unfold syncEventsV4 at h
  unfold asks
  generalize updateSyncRequestWithCache (startConnection s.conns u d request) u d request = x at h ⊢
  obtain ⟨known, body, conns⟩ := x
  simp only at h ⊢
  cases hl : doLists u d body.connId (globalsince request) known (allJoinedRooms I db u)
      ⟨.empty, .empty, conns⟩ body.lists.rows with
  | error e =>
    rw [hl] at h
    cases h
  | ok st =>
    rw [hl] at h
    simp only at h
    rw [doLists_todo _ hl, ← List.foldl_append] at h
    generalize listsAsks known (allJoinedRooms I db u) body.lists.rows ++
      subscriptionAsks (fun r => s.timeline.roomExists (db.roomidShortroomid r)) known
        body.roomSubscriptions.rows = as at h ⊢
    generalize hserve : serveRooms I db u s.timeline (as.foldl addTodo .empty).rows .empty = res at h
    obtain ⟨o, t'⟩ := res
    cases o with
    | error e => cases h
    | ok rooms =>
      cases h
      rw [serveRooms_ok I db s.timeline _ (fun x _ => ⟨rfl, rfl⟩) (as.foldl addTodo .empty).sorted
        hserve]
      constructor
      · intro hr
        rcases hr with hr | ⟨todo, hm, hlive⟩
        · cases hr
        · rw [← Tree.get_eq_some_iff, todoRooms_get] at hm
          obtain ⟨hr, rfl⟩ := hm
          exact ⟨hr, hlive⟩
      · intro hr
        refine Or.inr ⟨_, ?_, hr.2⟩
        rw [← Tree.get_eq_some_iff, todoRooms_get]
        exact ⟨hr.1, rfl⟩

/-- a response is confined to the rooms of the user iff all the rooms that are asked for and
live are rooms of the user -/
theorem syncEventsV4_confined_iff (s : Session) (u : UserId) (d : Text) (request : Request)
    (nextBatch : Nat) (response : Response)
    (h : (syncEventsV4 I db s u d request nextBatch).1 = .ok response) :
    Confined db u response ↔ ∀ a ∈ asks I db s u d request,
      Live db s.timeline u a.room (summary (asks I db s u d request) a.room) →
        db.members.isJoined u a.room = true := by
  constructor
  · intro hc a ha hlive
    have hr := (syncEventsV4_rooms I db h a.room).mpr ⟨List.mem_map.mpr ⟨a, ha, rfl⟩, hlive⟩
    obtain ⟨room, hroom⟩ := Option.isSome_iff_exists.mp hr
    exact hc a.room room ((Tree.get_eq_some_iff _ _ _).mp hroom)
  · intro hall r room hroom
    rw [← Tree.get_eq_some_iff] at hroom
    obtain ⟨hr, hlive⟩ := (syncEventsV4_rooms I db h r).mp (by rw [hroom]; rfl)
    obtain ⟨a, ha, rfl⟩ := List.mem_map.mp hr
    exact hall a ha hlive

/-! ### a room that only others are in -/

def noViews : Views where
  roomStateGet _ _ _ := .ok none
  getMember _ _ := .ok none
  getName _ := .ok none
  getAvatar _ := .ok .undefined
  highlightCount _ _ := .ok 0
  notificationCount _ _ := .ok 0
  roomJoinedCount _ := .ok none
  roomInvitedCount _ := .ok none

/-- one room, with one member and one message -/
def secretRoom : RoomId := ⟨.ascii "!s:x"⟩

def secretStore : Store :=
  ⟨MemberTables.empty.markAsJoined ⟨.ascii "@a:x"⟩ secretRoom, fun r => if r = secretRoom then some 1 else none, noViews⟩

def secretSession : Session :=
  ⟨fun _ => none, TimelineTables.empty.appendPdu (pduId 1 (.normal 2))
    (Building.message secretRoom ⟨.ascii "$e"⟩ ⟨.ascii "@a:x"⟩)
    ⟨[], Building.message secretRoom ⟨.ascii "$e"⟩ ⟨.ascii "@a:x"⟩⟩ 2⟩

/-- a first request that subscribes to the room -/
def subscribe : Request :=
  ⟨none, none, .empty, Tree.empty.insert secretRoom ⟨[], none⟩, []⟩

theorem syncEventsV4_subscribe : ∃ response, (syncEventsV4 Ids.bytewise secretStore secretSession
    ⟨.ascii "@eve:x"⟩ (.ascii "dev") subscribe 3).1 = .ok response :=
  ⟨_, rfl⟩

theorem syncEventsV4_confined_iff_subscribe : ∃ response,
    (syncEventsV4 Ids.bytewise secretStore secretSession ⟨.ascii "@eve:x"⟩ (.ascii "dev") subscribe 3).1
      = .ok response ∧
    (Confined secretStore ⟨.ascii "@eve:x"⟩ response ↔
      ∀ a ∈ asks Ids.bytewise secretStore secretSession ⟨.ascii "@eve:x"⟩ (.ascii "dev") subscribe,
        Live secretStore secretSession.timeline ⟨.ascii "@eve:x"⟩ a.room
          (summary (asks Ids.bytewise secretStore secretSession ⟨.ascii "@eve:x"⟩ (.ascii "dev")
            subscribe) a.room) →
        secretStore.members.isJoined ⟨.ascii "@eve:x"⟩ a.room = true) := by
  obtain ⟨response, h⟩ := syncEventsV4_subscribe
  exact ⟨response, h, syncEventsV4_confined_iff _ _ _ _ _ _ _ response h⟩

/-- a user who is joined to nothing subscribes to the room, and is shown it -/
theorem syncEventsV4_leaks :
    ¬ ∀ (I : Ids) (db : Store) (s : Session) (u : UserId) (d : Text) (request : Request)
      (nextBatch : Nat) (response : Response),
      (syncEventsV4 I db s u d request nextBatch).1 = .ok response → Confined db u response := by
  intro hall
  obtain ⟨response, h⟩ := syncEventsV4_subscribe
  have hc := hall _ _ _ _ _ _ _ response h
  have hr : (response.rooms.get secretRoom).isSome = true := by
    refine (syncEventsV4_rooms _ _ h secretRoom).mpr ⟨?_, Or.inl ?_⟩
    · decide
    · decide
  obtain ⟨room, hroom⟩ := Option.isSome_iff_exists.mp hr
  have hjoined := hc secretRoom room ((Tree.get_eq_some_iff _ _ _).mp hroom)
  exact absurd hjoined (by decide)

end Sliding
end Grapevine
