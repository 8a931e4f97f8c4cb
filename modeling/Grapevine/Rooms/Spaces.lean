import Grapevine.Events.Upgrade
import Grapevine.Lib.Paging
import Grapevine.Lib.Preorder
import Grapevine.Rooms.Visibility

/-!
# The hierarchy of a space

`get_hierarchy` goes through a space and its children, depth first, and sends a chunk for each room that the user
may see.  A client follows the pages: each one starts again at the root and skips what the ones before it have sent.

* `getHierarchy`   the function of the service, with the cache of chunks and children;
* `Graph`          rooms that are known here, whose state can be read;
* `Reachable`      a room behind so many rooms that the user may access;
* `HierarchyExact` the pages hold each such room once, and nothing else;
* `Timely`         the walks that the code has the depth for: it counts the rooms that it has visited, not those of
                   the walk.

Main result: `getHierarchy_exact_iff`.
-/

namespace Grapevine
open Kv

inductive AllowRule where
  | roomMembership (roomId : RoomId)
  | custom
deriving DecidableEq

inductive JoinRule where
  | invite
  | knock
  | priv
  | restricted (allow : List AllowRule)
  | knockRestricted (allow : List AllowRule)
  | pub
  | custom (name : String)
deriving DecidableEq

inductive SpaceRoomJoinRule where
  | invite
  | knock
  | priv
  | restricted
  | knockRestricted
  | pub
  | custom (name : String)
deriving DecidableEq

inductive GuestAccess where
  | canJoin
  | forbidden
  | custom (name : String)
deriving DecidableEq

structure SpaceHierarchyRoomsChunk where
  canonicalAlias : Option String
  name : Option String
  numJoinedMembers : Nat
  roomId : RoomId
  topic : Option String
  worldReadable : Bool
  guestCanJoin : Bool
  avatarUrl : Option String
  joinRule : SpaceRoomJoinRule
  roomType : Option String
  childrenState : List Json

namespace Spaces

variable {someFound suggestedOnly : Bool} {e : Error} {db : Db} {u : UserId} {n : Nat}

structure CachedSpaceChunk where
  chunk : SpaceHierarchyRoomsChunk
  children : List RoomId
  joinRule : JoinRule

/-- the answer of another server: its room, the rooms that the room's join rule allows, and the children -/
structure Summary where
  room : SpaceHierarchyRoomsChunk
  allowedRoomIds : List RoomId
  children : List RoomId

/-- ruma's contents of the events that are read, and what else is not of this server -/
structure Contents where
  /-- `RoomCanonicalAliasEventContent`, by its `alias` -/
  canonicalAlias : JsonObject → Option (Option String)
  name : JsonObject → Option String
  topic : JsonObject → Option String
  historyVisibility : JsonObject → Option HistoryVisibility
  guestAccess : JsonObject → Option GuestAccess
  /-- `RoomAvatarEventContent`, by its `url` -/
  avatarUrl : JsonObject → Option (Option String)
  joinRule : JsonObject → Option JoinRule
  /-- `RoomCreateEventContent`, by its `room_type` -/
  roomType : JsonObject → Option (Option String)
  /-- `SpaceChildEventContent`, by its `via` -/
  via : JsonObject → Option (List ServerName)
  /-- `OwnedRoomId::try_from` of a state key -/
  roomIdOfStr : String → Option RoomId
  roomServer : RoomId → Option ServerName
  toStrippedSpacechildStateEvent : PduEvent → Json
  /-- the order in which the map of a state is iterated -/
  enum : Tree Nat EventId → List (Nat × EventId)
  enum_perm : ∀ t, (enum t).Perm t.rows
  /-- a `/hierarchy` request to the server of a room -/
  ask : RoomId → Bool → Option Summary

structure Store where
  db : Db
  roomidSpacechunkCache : RoomId → Option (Option CachedSpaceChunk)

abbrev SpaceComp := Comp Store Error

variable (env : Env) (C : Contents)

/-! ## join rules -/

def translateJoinrule : JoinRule → Except Error SpaceRoomJoinRule
  | .invite => .ok .invite
  | .knock => .ok .knock
  | .priv => .ok .priv
  | .restricted _ => .ok .restricted
  | .knockRestricted _ => .ok .knockRestricted
  | .pub => .ok .pub
  | .custom _ => .error (.badServerResponse "Unknown join rule")

def handleSimplifiedJoinRule (db : Db) (joinRule : SpaceRoomJoinRule) (u : UserId) (r : RoomId) : Bool :=
  match joinRule with
  | .knock => true
  | .pub => true
  | .invite => db.members.isJoined u r
  | _ => false

def handleJoinRule (db : Db) (joinRule : JoinRule) (u : UserId) (r : RoomId) : Except Error Bool := do
  if handleSimplifiedJoinRule db (← translateJoinrule joinRule) u r then pure true
  else
    match joinRule with
    | .restricted allow => pure (allow.any fun
      | .roomMembership q => db.members.isJoined u q
      | .custom => false)
    -- `TODO: Check rules`
    | .knockRestricted _ => pure false
    | _ => pure false

/-! ## the chunk of a room -/

/-- a state event of the room, as its content -/
def stateContent {α : Type} (db : Db) (r : RoomId) (eventType : EventType) (parse : JsonObject → Option α)
    (msg : String) : Except Error (Option α) := do
  match ← db.roomStateGet env r eventType "" with
  | none => pure none
  | some s =>
    match parse s.content with
    | some content => pure (some content)
    | none => .error (.badDatabase msg)

/-- what is read of the room before the join rule -/
structure Details where
  canonicalAlias : Option String
  name : Option String
  numJoinedMembers : Nat
  topic : Option String
  worldReadable : Bool
  guestCanJoin : Bool
  avatarUrl : Option String

def getDetails (db : Db) (r : RoomId) : Except Error Details := do
  let canonicalAlias ← stateContent env db r .roomCanonicalAlias C.canonicalAlias
    "Invalid canonical alias event in database."
  let name ← stateContent env db r .roomName C.name "Invalid room name event in database."
  let numJoinedMembers := (db.roster.roomidJoinedcount r).getD 0
  if 2^53 ≤ numJoinedMembers then .error (.panic "user count should not be that big")
  else do
    let topic ← stateContent env db r (.other "m.room.topic") C.topic "Invalid room topic event in database."
    let visibility ← stateContent env db r (.other "m.room.history_visibility") C.historyVisibility
      "Invalid room history visibility event in database."
    let guestAccess ← stateContent env db r (.other "m.room.guest_access") C.guestAccess
      "Invalid room guest access event in database."
    let avatarUrl ← stateContent env db r .roomAvatar C.avatarUrl "Invalid room avatar event in database."
    pure {
      canonicalAlias := canonicalAlias.join
      name := name
      numJoinedMembers := numJoinedMembers
      topic := topic
      worldReadable := visibility = some .worldReadable
      guestCanJoin := guestAccess = some .canJoin
      avatarUrl := avatarUrl.join }

def getJoinRule (db : Db) (r : RoomId) : Except Error JoinRule := do
  let joinRule ← stateContent env db r .roomJoinRules C.joinRule "Invalid room join rule event in database."
  pure (joinRule.getD .invite)

def getRoomType (db : Db) (r : RoomId) : Except Error (Option String) := do
  let roomType ← stateContent env db r .roomCreate C.roomType "Invalid room create event in database."
  pure roomType.join

def getRoomChunk (db : Db) (u : UserId) (r : RoomId) (children : List PduEvent) :
    Except Error SpaceHierarchyRoomsChunk := do
  let details ← getDetails env C db r
  let joinRule ← getJoinRule env C db r
  if ← handleJoinRule db joinRule u r then do
    let spaceJoinRule ← translateJoinrule joinRule
    let roomType ← getRoomType env C db r
    pure {
      canonicalAlias := details.canonicalAlias
      name := details.name
      numJoinedMembers := details.numJoinedMembers
      roomId := r
      topic := details.topic
      worldReadable := details.worldReadable
      guestCanJoin := details.guestCanJoin
      avatarUrl := details.avatarUrl
      joinRule := spaceJoinRule
      roomType := roomType
      childrenState := children.map C.toStrippedSpacechildStateEvent }
  else .error (.badRequest .forbidden "User is not allowed to see the room")

/-! ## children -/

/-- a row of the state: the child that it names, with its event -/
def spaceChild (db : Db) (row : Nat × EventId) : Except Error (Option (RoomId × PduEvent)) :=
  match db.state.shortstatekeyStatekey row.1 with
  | none => .error (.badDatabase "Shortstatekey does not exist")
  | some (eventType, stateKey) =>
    if eventType ≠ .spaceChild then .ok none
    else
      match db.getPdu row.2 with
      | .error e => .error e
      | .ok none => .error (.badDatabase "Event in space state not found")
      | .ok (some pdu) =>
        if ((C.via pdu.content).getD []).isEmpty then .ok none
        else .ok ((C.roomIdOfStr stateKey).map fun child => (child, pdu))

def spaceChildren (db : Db) (shortstatehash : Nat) : Except Error (List (RoomId × PduEvent)) := do
  let state ← db.stateFullIds env shortstatehash
  let children ← (C.enum state).mapM (spaceChild C db)
  pure (children.filterMap id)

/-! ## one room -/

inductive Visited where
  | passed
  | stopped
  /-- the chunk, if the user may see it, and the children, the first one last -/
  | found (chunk : Option SpaceHierarchyRoomsChunk) (children : List RoomId)

def insertChunk (r : RoomId) (entry : Option CachedSpaceChunk) : SpaceComp Unit :=
  Comp.modify fun s => { s with
    roomidSpacechunkCache := Function.update s.roomidSpacechunkCache r (some entry) }

def visitCached (u : UserId) (r : RoomId) (cached : CachedSpaceChunk) : SpaceComp Visited := do
  let allowed ← Comp.reads fun s => handleJoinRule s.db cached.joinRule u r
  if allowed then pure (.found (some cached.chunk) cached.children) else pure .passed

def visitLocal (u : UserId) (r : RoomId) (shortstatehash : Nat) : SpaceComp Visited := do
  let children ← Comp.reads fun s => spaceChildren env C s.db shortstatehash
  -- `TODO: Sort children`
  let childrenIds := (children.map Prod.fst).reverse
  match getRoomChunk env C (← Comp.get).db u r (children.map Prod.snd) with
  | .ok chunk =>
    let joinRule ← Comp.reads fun s => getJoinRule env C s.db r
    insertChunk r (some ⟨chunk, childrenIds, joinRule⟩)
    pure (.found (some chunk) childrenIds)
  | .error e => if e.isPanic then Comp.throw e else pure (.found none childrenIds)

/-- the join rule of an answer -/
def Summary.joinRule (response : Summary) : Except Error JoinRule :=
  match response.room.joinRule with
  | .invite => .ok .invite
  | .knock => .ok .knock
  | .priv => .ok .priv
  | .restricted => .ok (.restricted (response.allowedRoomIds.map .roomMembership))
  | .knockRestricted => .ok (.knockRestricted (response.allowedRoomIds.map .roomMembership))
  | .pub => .ok .pub
  | .custom _ => .error (.badServerResponse "Unknown join rule")

def visitRemote (u : UserId) (suggestedOnly someFound : Bool) (r : RoomId) : SpaceComp Visited := do
  match C.roomServer r with
  | none => Comp.throw (.panic "Room IDs should always have a server name")
  | some server =>
    if server = env.serverName then pure .passed
    -- the client can see some data already
    else if someFound then pure .stopped
    else
      match C.ask r suggestedOnly with
      | some response =>
        let joinRule ← Comp.ofExcept response.joinRule
        let allowed ← Comp.reads fun s => handleJoinRule s.db joinRule u r
        insertChunk r (some ⟨response.room, response.children, joinRule⟩)
        if allowed then pure (.found (some response.room) response.children) else pure .passed
      | none =>
        insertChunk r none
        pure .passed

def visit (u : UserId) (suggestedOnly someFound : Bool) (r : RoomId) : SpaceComp Visited := do
  let s ← Comp.get
  match s.roomidSpacechunkCache r with
  | some (some cached) => visitCached u r cached
  | some none => pure .passed
  | none =>
    match s.db.state.roomidShortstatehash r with
    | some shortstatehash => visitLocal env C u r shortstatehash
    | none => visitRemote env C u suggestedOnly someFound r

/-! ## the walk -/

/-- the last room of the topmost list that has one -/
def popRoom : List (List RoomId) → Option (RoomId × List (List RoomId))
  | [] => none
  | l :: stack =>
    match l.getLast? with
    | none => popRoom stack
    | some r => some (r, l.dropLast :: stack)

/-- the rooms of a stack, as they are popped -/
def pending (stack : List (List RoomId)) : List RoomId := stack.flatMap List.reverse

theorem pending_of_popRoom {stack stack' : List (List RoomId)} {r : RoomId} (h : popRoom stack = some (r, stack')) :
    pending stack = r :: pending stack' := by
  induction stack with
  | nil => cases h
  | cons l stack ih =>
    unfold popRoom at h
    cases hlast : l.getLast? with
    | none =>
      rw [hlast] at h
      rw [List.getLast?_eq_none_iff.mp hlast]
      exact ih h
    | some q =>
      rw [hlast] at h
      cases h
      obtain ⟨init, rfl⟩ := List.getLast?_eq_some_iff.mp hlast
      show (init ++ [r]).reverse ++ pending stack = r :: ((init ++ [r]).dropLast.reverse ++ pending stack)
      rw [List.dropLast_concat, List.reverse_append]
      rfl

theorem pending_of_popRoom_none {stack : List (List RoomId)} (h : popRoom stack = none) : pending stack = [] := by
  induction stack with
  | nil => rfl
  | cons l stack ih =>
    unfold popRoom at h
    cases hlast : l.getLast? with
    | none =>
      rw [hlast] at h
      rw [List.getLast?_eq_none_iff.mp hlast]
      exact ih h
    | some q =>
      rw [hlast] at h
      cases h

/-- popping gets closer to the limit of the depth, or to the end of the stack -/
theorem less_of_popRoom {stack stack' : List (List RoomId)} {r : RoomId} (h : popRoom stack = some (r, stack'))
    (roomsInPath : List RoomId) (maxDepth : Nat) :
    Prod.Lex (· < ·) (· < ·) (maxDepth - (roomsInPath ++ [r]).length, (pending stack').length)
      (maxDepth - roomsInPath.length, (pending stack).length) := by
  rw [List.length_append, List.length_singleton, pending_of_popRoom h, List.length_cons]
  by_cases hdepth : roomsInPath.length < maxDepth
  · exact Prod.Lex.left _ _ (by omega)
  · rw [Nat.sub_eq_zero_of_le (Nat.le_succ_of_le (Nat.not_lt.mp hdepth)),
      Nat.sub_eq_zero_of_le (Nat.not_lt.mp hdepth)]
    exact Prod.Lex.right _ (Nat.lt_succ_self _)

/-- a chunk is skipped or goes to the results -/
def record (chunk : Option SpaceHierarchyRoomsChunk) (found : Nat × List SpaceHierarchyRoomsChunk) :
    Nat × List SpaceHierarchyRoomsChunk :=
  match chunk with
  | none => found
  | some chunk => if 0 < found.1 then (found.1 - 1, found.2) else (found.1, found.2 ++ [chunk])

/-- `while let Some(current_room)`; `found` is `left_to_skip` and the results -/
def loop (u : UserId) (suggestedOnly : Bool) (limit maxDepth : Nat) (roomsInPath : List RoomId)
    (stack : List (List RoomId)) (found : Nat × List SpaceHierarchyRoomsChunk) :
    SpaceComp (List SpaceHierarchyRoomsChunk) :=
  match _hpop : popRoom stack with
  | none => pure found.2
  | some (r, stack') =>
    if limit ≤ found.2.length then pure found.2
    else
      visit env C u suggestedOnly (!found.2.isEmpty) r >>= fun
      | .passed => loop u suggestedOnly limit maxDepth (roomsInPath ++ [r]) stack' found
      | .stopped => pure found.2
      | .found chunk children =>
        if _h : (roomsInPath ++ [r]).length < maxDepth then
          loop u suggestedOnly limit maxDepth (roomsInPath ++ [r]) (children :: stack') (record chunk found)
        else loop u suggestedOnly limit maxDepth (roomsInPath ++ [r]) stack' (record chunk found)
termination_by (maxDepth - roomsInPath.length, (pending stack).length)
decreasing_by
  · exact less_of_popRoom _hpop roomsInPath maxDepth
  · refine Prod.Lex.left _ _ ?_
    rw [List.length_append, List.length_singleton] at _h ⊢
    omega
  · exact less_of_popRoom _hpop roomsInPath maxDepth

def getHierarchy (u : UserId) (r : RoomId) (limit skip maxDepth : Nat) (suggestedOnly : Bool) :
    SpaceComp (List SpaceHierarchyRoomsChunk × Option Nat) := do
  let results ← loop env C u suggestedOnly limit maxDepth [] [[r]] (skip, [])
  pure (results, if results.isEmpty then none else some (skip + results.length))

/-! ## what is to be sent -/

/-- the children of a room, in the order of its state -/
def childrenOf (db : Db) (r : RoomId) : List RoomId :=
  match db.state.roomidShortstatehash r with
  | none => []
  | some shortstatehash =>
    match spaceChildren env C db shortstatehash with
    | .ok children => children.map Prod.fst
    | .error _ => []

/-- the join rule lets the user see the room -/
def accessible (db : Db) (u : UserId) (r : RoomId) : Bool :=
  match getJoinRule env C db r with
  | .error _ => false
  | .ok joinRule =>
    match handleJoinRule db joinRule u r with
    | .ok allowed => allowed
    | .error _ => false

/-- a path of so many rooms that the user may access -/
inductive Path (db : Db) (u : UserId) (root : RoomId) : Nat → RoomId → Prop
  | root : accessible env C db u root = true → Path db u root 1 root
  | child {n : Nat} {r child : RoomId} : Path db u root n r → child ∈ childrenOf env C db r →
      accessible env C db u child = true → Path db u root (n + 1) child

def Reachable (db : Db) (u : UserId) (root : RoomId) (maxDepth : Nat) (r : RoomId) : Prop :=
  ∃ n, n ≤ maxDepth ∧ Path env C db u root n r

/-- the room has a state that can be read -/
structure Known (db : Db) (r : RoomId) : Prop where
  children : ∃ shortstatehash children, db.state.roomidShortstatehash r = some shortstatehash ∧
    spaceChildren env C db shortstatehash = .ok children
  details : ∃ details, getDetails env C db r = .ok details
  joinRule : ∃ joinRule, getJoinRule env C db r = .ok joinRule
  roomType : ∃ roomType, getRoomType env C db r = .ok roomType

/-- an entry that was made from this state, for whichever user -/
structure Fresh (db : Db) (r : RoomId) (cached : CachedSpaceChunk) : Prop where
  chunk : ∃ u children, getRoomChunk env C db u r children = .ok cached.chunk
  joinRule : getJoinRule env C db r = .ok cached.joinRule
  children : cached.children.Perm (childrenOf env C db r)

/-- known rooms, closed along children; the cache is of the same state -/
structure Graph (s : Store) (rooms : Finset RoomId) : Prop where
  known : ∀ r ∈ rooms, Known env C s.db r
  closed : ∀ r ∈ rooms, ∀ child ∈ childrenOf env C s.db r, child ∈ rooms
  fresh : ∀ r ∈ rooms, ∀ entry, s.roomidSpacechunkCache r = some entry → ∃ cached, entry = some cached ∧
    Fresh env C s.db r cached

def page (u : UserId) (root : RoomId) (limit maxDepth : Nat) (suggestedOnly : Bool) (token : Option Nat) :
    SpaceComp (List SpaceHierarchyRoomsChunk × Option Nat) :=
  getHierarchy env C u root limit (token.getD 0) maxDepth suggestedOnly

/-- the rooms that are put on the stack behind a room: none for a cached one that the user may not access -/
def behind (s : Store) (u : UserId) (r : RoomId) : List RoomId :=
  match s.roomidSpacechunkCache r with
  | none => childrenOf env C s.db r
  | some none => []
  | some (some cached) => if accessible env C s.db u r then cached.children.reverse else []

/-- a walk along `behind`, by its places, whose last step starts at a walk with fewer than `maxDepth - 1` walks
before it -/
def TimelyWalk (s : Store) (u : UserId) (root : RoomId) (maxDepth : Nat) (r : RoomId) (p : List Nat) : Prop :=
  Preorder.Timely (behind env C s u) [root] (maxDepth - 1) p ∧ Preorder.endOf (behind env C s u) [root] p = some r

/-- each reachable room is the end of one timely walk, and all other rooms that are ends of timely walks are closed
to the user -/
def InTime (s : Store) (u : UserId) (root : RoomId) (maxDepth : Nat) : Prop :=
  ∀ r, (Reachable env C s.db u root maxDepth r → ∃! p, TimelyWalk env C s u root maxDepth r p) ∧
    (accessible env C s.db u r = true → ∀ p, TimelyWalk env C s u root maxDepth r p →
      Reachable env C s.db u root maxDepth r)

/-- the chunk of a visit -/
def seen (s : Store) (u : UserId) (r : RoomId) : Option SpaceHierarchyRoomsChunk :=
  match s.roomidSpacechunkCache r with
  | some none => none
  | some (some cached) => if accessible env C s.db u r then some cached.chunk else none
  | none =>
    match s.db.state.roomidShortstatehash r with
    | none => none
    | some shortstatehash =>
      match spaceChildren env C s.db shortstatehash with
      | .error _ => none
      | .ok children => (getRoomChunk env C s.db u r (children.map Prod.snd)).toOption

variable {env C}

theorem Path.accessible {root r : RoomId} (h : Path env C db u root n r) :
    accessible env C db u r = true := by
  cases h with
  | root h => exact h
  | child _ _ h => exact h

theorem Path.root_accessible {root r : RoomId} (h : Path env C db u root n r) :
    Spaces.accessible env C db u root = true := by
  induction h with
  | root h => exact h
  | child _ _ _ ih => exact ih

/-! ### one chunk -/

section
variable {db : Db} {u : UserId} {r : RoomId}
variable {cached : CachedSpaceChunk}

theorem translateJoinrule_error {joinRule : JoinRule} (h : translateJoinrule joinRule = .error e) :
    e.isPanic = false := by
  cases joinRule with
  | custom name =>
    cases h
    rfl
  | _ => cases h

theorem handleJoinRule_of_translate {joinRule : JoinRule} {t : SpaceRoomJoinRule}
    (h : translateJoinrule joinRule = .ok t) : ∃ allowed, handleJoinRule db joinRule u r = .ok allowed := by
  unfold handleJoinRule
  rw [h]
  show ∃ allowed, (if handleSimplifiedJoinRule db t u r = true then _ else _) = _
  by_cases hsimple : handleSimplifiedJoinRule db t u r = true
  · rw [if_pos hsimple]
    exact ⟨true, rfl⟩
  · rw [if_neg hsimple]
    cases joinRule <;> exact ⟨_, rfl⟩

theorem handleJoinRule_of_error {joinRule : JoinRule} (h : translateJoinrule joinRule = .error e) :
    handleJoinRule db joinRule u r = .error e := by
  unfold handleJoinRule
  rw [h]
  rfl

theorem accessible_of_rule {joinRule : JoinRule} (hrule : getJoinRule env C db r = .ok joinRule) {allowed : Bool}
    (h : handleJoinRule db joinRule u r = .ok allowed) : accessible env C db u r = allowed := by
  unfold accessible
  rw [hrule]
  show (match handleJoinRule db joinRule u r with
    | .ok allowed => allowed
    | .error _ => false) = _
  rw [h]

/-- a chunk is made exactly for a user who may access the room -/
theorem getRoomChunk_cases (h : Known env C db r) (children : List PduEvent) :
    (accessible env C db u r = true ∧ ∃ chunk, getRoomChunk env C db u r children = .ok chunk ∧ chunk.roomId = r) ∨
      (accessible env C db u r = false ∧ ∃ e, getRoomChunk env C db u r children = .error e ∧ e.isPanic = false) := by
  obtain ⟨details, hdetails⟩ := h.details
  obtain ⟨joinRule, hrule⟩ := h.joinRule
  obtain ⟨roomType, htype⟩ := h.roomType
  cases htranslate : translateJoinrule joinRule with
  | error e =>
    have herror : handleJoinRule db joinRule u r = .error e := handleJoinRule_of_error htranslate
    refine Or.inr ⟨?_, e, ?_, translateJoinrule_error htranslate⟩
    · unfold accessible
      rw [hrule]
      show (match handleJoinRule db joinRule u r with
        | .ok allowed => allowed
        | .error _ => false) = _
      rw [herror]
    · unfold getRoomChunk
      rw [hdetails]
      show (getJoinRule env C db r >>= _) = _
      rw [hrule]
      show (handleJoinRule db joinRule u r >>= _) = _
      rw [herror]
      rfl
  | ok t =>
    obtain ⟨allowed, hallowed⟩ : ∃ allowed, handleJoinRule db joinRule u r = .ok allowed :=
      handleJoinRule_of_translate htranslate
    have hrun : ∃ f : Bool → Except Error SpaceHierarchyRoomsChunk, getRoomChunk env C db u r children =
        (handleJoinRule db joinRule u r >>= f) ∧ (∃ chunk, f true = .ok chunk ∧ chunk.roomId = r) ∧
          f false = .error (.badRequest .forbidden "User is not allowed to see the room") := by
      unfold getRoomChunk
      rw [hdetails]
      show ∃ f, (getJoinRule env C db r >>= _) = _ ∧ _
      rw [hrule]
      refine ⟨_, rfl, ?_, rfl⟩
      show ∃ chunk : SpaceHierarchyRoomsChunk, (translateJoinrule joinRule >>= _) = Except.ok chunk ∧ chunk.roomId = r
      rw [htranslate]
      show ∃ chunk : SpaceHierarchyRoomsChunk, (getRoomType env C db r >>= _) = Except.ok chunk ∧ chunk.roomId = r
      rw [htype]
      exact ⟨_, rfl, rfl⟩
    obtain ⟨f, hf, htrue, hfalse⟩ := hrun
    rw [accessible_of_rule hrule hallowed, hf, hallowed]
    cases allowed with
    | true => exact Or.inl ⟨rfl, htrue⟩
    | false => exact Or.inr ⟨rfl, _, hfalse, rfl⟩

/-- an entry is of a room that has a join rule for everyone -/
theorem Fresh.allowed (h : Fresh env C db r cached) :
    handleJoinRule db cached.joinRule u r = .ok (accessible env C db u r) := by
  obtain ⟨u', children, hchunk⟩ := h.chunk
  unfold getRoomChunk at hchunk
  obtain ⟨details, -, hchunk⟩ := except_bind_eq_ok.mp hchunk
  obtain ⟨joinRule, hrule, hchunk⟩ := except_bind_eq_ok.mp hchunk
  rw [h.joinRule] at hrule
  cases hrule
  obtain ⟨allowed', hallowed', -⟩ := except_bind_eq_ok.mp hchunk
  cases htranslate : translateJoinrule cached.joinRule with
  | error e =>
    rw [handleJoinRule_of_error htranslate] at hallowed'
    cases hallowed'
  | ok t =>
    obtain ⟨allowed, hallowed⟩ : ∃ allowed, handleJoinRule db cached.joinRule u r = .ok allowed :=
      handleJoinRule_of_translate htranslate
    rw [hallowed, accessible_of_rule h.joinRule hallowed]

theorem Fresh.roomId (h : Fresh env C db r cached) : cached.chunk.roomId = r := by
  obtain ⟨u, children, hchunk⟩ := h.chunk
  unfold getRoomChunk at hchunk
  obtain ⟨details, -, hchunk⟩ := except_bind_eq_ok.mp hchunk
  obtain ⟨joinRule, -, hchunk⟩ := except_bind_eq_ok.mp hchunk
  obtain ⟨allowed, -, hchunk⟩ := except_bind_eq_ok.mp hchunk
  cases allowed with
  | false => cases hchunk
  | true =>
    obtain ⟨spaceJoinRule, -, hchunk⟩ := except_bind_eq_ok.mp hchunk
    obtain ⟨roomType, -, hchunk⟩ := except_bind_eq_ok.mp hchunk
    rw [← Except.ok.inj hchunk]

end

/-! ### one visit -/

theorem childrenOf_eq {r : RoomId} {shortstatehash : Nat} {children : List (RoomId × PduEvent)}
    (hstate : db.state.roomidShortstatehash r = some shortstatehash)
    (hchildren : spaceChildren env C db shortstatehash = .ok children) :
    childrenOf env C db r = children.map Prod.fst := by
  unfold childrenOf
  simp only [hstate, hchildren]

section
variable {s s' : Store} {u : UserId} {r : RoomId} {cached : CachedSpaceChunk}

theorem behind_hit (hcache : s.roomidSpacechunkCache r = some (some cached)) :
    behind env C s u r = if accessible env C s.db u r then cached.children.reverse else [] := by
  unfold behind
  rw [hcache]

theorem behind_miss (hcache : s.roomidSpacechunkCache r = none) : behind env C s u r = childrenOf env C s.db r := by
  unfold behind
  rw [hcache]

theorem behind_congr (hdb : s'.db = s.db) (hcache : s'.roomidSpacechunkCache r = s.roomidSpacechunkCache r) :
    behind env C s' u r = behind env C s u r := by
  unfold behind
  rw [hdb, hcache]

theorem seen_hit (hcache : s.roomidSpacechunkCache r = some (some cached)) :
    seen env C s u r = if accessible env C s.db u r then some cached.chunk else none := by
  unfold seen
  rw [hcache]

theorem seen_congr (hdb : s'.db = s.db) (hcache : s'.roomidSpacechunkCache r = s.roomidSpacechunkCache r) :
    seen env C s' u r = seen env C s u r := by
  unfold seen
  rw [hdb, hcache]

theorem visit_hit (hcache : s.roomidSpacechunkCache r = some (some cached)) :
    visit env C u suggestedOnly someFound r s = visitCached u r cached s := by
  unfold visit
  rw [Comp.bind_ok (Comp.get_run s)]
  simp only [hcache]

end

section
variable {s : Store} {u : UserId} {r : RoomId} {shortstatehash : Nat} {children : List (RoomId × PduEvent)}

theorem seen_local (hcache : s.roomidSpacechunkCache r = none)
    (hstate : s.db.state.roomidShortstatehash r = some shortstatehash)
    (hchildren : spaceChildren env C s.db shortstatehash = .ok children) :
    seen env C s u r = (getRoomChunk env C s.db u r (children.map Prod.snd)).toOption := by
  unfold seen
  simp only [hcache, hstate, hchildren]

theorem visit_local (hcache : s.roomidSpacechunkCache r = none)
    (hstate : s.db.state.roomidShortstatehash r = some shortstatehash) :
    visit env C u suggestedOnly someFound r s = visitLocal env C u r shortstatehash s := by
  unfold visit
  rw [Comp.bind_ok (Comp.get_run s)]
  simp only [hcache, hstate]

theorem visitLocal_open (hchildren : spaceChildren env C s.db shortstatehash = .ok children)
    {chunk : SpaceHierarchyRoomsChunk} (hchunk : getRoomChunk env C s.db u r (children.map Prod.snd) = .ok chunk)
    {joinRule : JoinRule} (hrule : getJoinRule env C s.db r = .ok joinRule) :
    visitLocal env C u r shortstatehash s = (.ok (.found (some chunk) (children.map Prod.fst).reverse), { s with
      roomidSpacechunkCache := Function.update s.roomidSpacechunkCache r
        (some (some ⟨chunk, (children.map Prod.fst).reverse, joinRule⟩)) }) := by
  unfold visitLocal
  rw [Comp.reads_bind, hchildren]
  show (Comp.get >>= fun _ => _) s = _
  rw [Comp.bind_ok (Comp.get_run s), hchunk]
  show (Comp.reads (fun s : Store => getJoinRule env C s.db r) >>= fun _ => _) s = _
  rw [Comp.reads_bind, hrule]
  rfl

theorem visitLocal_closed (hchildren : spaceChildren env C s.db shortstatehash = .ok children)
    (hchunk : getRoomChunk env C s.db u r (children.map Prod.snd) = .error e) (he : e.isPanic = false) :
    visitLocal env C u r shortstatehash s = (.ok (.found none (children.map Prod.fst).reverse), s) := by
  unfold visitLocal
  rw [Comp.reads_bind, hchildren]
  show (Comp.get >>= fun _ => _) s = _
  rw [Comp.bind_ok (Comp.get_run s), hchunk]
  show (if e.isPanic = true then _ else _ : SpaceComp Visited) s = _
  rw [he]
  rfl

theorem visitCached_run {cached : CachedSpaceChunk} (h : Fresh env C s.db r cached) :
    visitCached u r cached s = (.ok (if accessible env C s.db u r then .found (some cached.chunk) cached.children
      else .passed), s) := by
  unfold visitCached
  rw [Comp.reads_bind, h.allowed]
  show (if accessible env C s.db u r = true then _ else _ : SpaceComp Visited) s = _
  by_cases ha : accessible env C s.db u r = true
  · rw [if_pos ha, if_pos ha]
    rfl
  · rw [if_neg ha, if_neg ha]
    rfl

end

/-- the visit of a room that is not passed over gives its chunk and its children; otherwise it has neither -/
def Visited.Gives (v : Visited) (chunk : Option SpaceHierarchyRoomsChunk) (rooms : List RoomId) : Prop :=
  v = .found chunk rooms.reverse ∨ v = .passed ∧ chunk = none ∧ rooms = []

section
variable {s s' : Store} {u : UserId} {rooms : Finset RoomId}
variable {I : Store → Prop} {s₀ : Store} {limit : Nat}

/-- the visits of the two stores give the same -/
structure Same (env : Env) (C : Contents) (u : UserId) (s s' : Store) : Prop where
  db : s'.db = s.db
  seen : seen env C s' u = seen env C s u
  behind : behind env C s' u = behind env C s u

theorem Same.trans {s'' : Store} (h : Same env C u s s') (h' : Same env C u s' s'') : Same env C u s s'' :=
  ⟨h'.db.trans h.db, h'.seen.trans h.seen, h'.behind.trans h.behind⟩

theorem Same.refl (s : Store) : Same env C u s s := ⟨rfl, rfl, rfl⟩

/-- an entry that says what is read anyway changes nothing -/
theorem Graph.insert (h : Graph env C s rooms) {r : RoomId} {cached : CachedSpaceChunk} (hfresh : Fresh env C s.db r cached)
    (hopen : accessible env C s.db u r = true) (hseen : seen env C s u r = some cached.chunk)
    (hbehind : behind env C s u r = cached.children.reverse) (hs' : s' = { s with
      roomidSpacechunkCache := Function.update s.roomidSpacechunkCache r (some (some cached)) }) :
    Graph env C s' rooms ∧ Same env C u s s' := by
  have hcell : s'.roomidSpacechunkCache r = some (some cached) := by
    rw [hs']
    exact Function.update_self r (some (some cached)) s.roomidSpacechunkCache
  have hothers : ∀ q, q ≠ r → s'.roomidSpacechunkCache q = s.roomidSpacechunkCache q := by
    rw [hs']
    exact fun q hqr => Function.update_of_ne hqr (some (some cached)) s.roomidSpacechunkCache
  have hdb : s'.db = s.db := by rw [hs']
  refine ⟨⟨hdb ▸ h.known, hdb ▸ h.closed, fun q hq entry hentry => ?_⟩, hdb, ?_, ?_⟩
  · rw [hdb]
    by_cases hqr : q = r
    · rw [hqr, hcell] at hentry
      cases hentry
      exact ⟨cached, rfl, hqr ▸ hfresh⟩
    · rw [hothers q hqr] at hentry
      exact h.fresh q hq entry hentry
  · funext q
    by_cases hqr : q = r
    · rw [hqr, hseen, seen_hit hcell, hdb]
      exact if_pos hopen
    · exact seen_congr hdb (hothers q hqr)
  · funext q
    by_cases hqr : q = r
    · rw [hqr, hbehind, behind_hit hcell, hdb]
      exact if_pos hopen
    · exact behind_congr hdb (hothers q hqr)

/-- what a visit does to a room of the graph -/
theorem visit_gives (h : Graph env C s rooms) {r : RoomId} (hr : r ∈ rooms) (suggestedOnly someFound : Bool) :
    ∃ v s', visit env C u suggestedOnly someFound r s = (.ok v, s') ∧ v.Gives (seen env C s u r) (behind env C s u r) ∧
      Graph env C s' rooms ∧ Same env C u s s' := by
  cases hcache : s.roomidSpacechunkCache r with
  | some entry =>
    obtain ⟨cached, rfl, hfresh⟩ := h.fresh r hr entry hcache
    refine ⟨_, s, (visit_hit hcache).trans (visitCached_run hfresh), ?_, h, .refl s⟩
    rw [seen_hit hcache, behind_hit hcache]
    by_cases ha : accessible env C s.db u r = true
    · rw [if_pos ha, if_pos ha, if_pos ha]
      refine Or.inl ?_
      rw [List.reverse_reverse]
    · rw [if_neg ha, if_neg ha, if_neg ha]
      exact Or.inr ⟨rfl, rfl, rfl⟩
  | none =>
    obtain ⟨shortstatehash, children, hstate, hchildren⟩ := (h.known r hr).children
    have hchildrenOf := childrenOf_eq hstate hchildren
    have hbehind : behind env C s u r = children.map Prod.fst := (behind_miss hcache).trans hchildrenOf
    have hseen := seen_local (u := u) hcache hstate hchildren
    rw [visit_local hcache hstate, hbehind]
    rcases getRoomChunk_cases (u := u) (h.known r hr) (children.map Prod.snd) with
      ⟨hopen, chunk, hchunk, -⟩ | ⟨-, e, hchunk, he⟩
    · obtain ⟨joinRule, hrule⟩ := (h.known r hr).joinRule
      have hsome : seen env C s u r = some chunk := by
        rw [hseen, hchunk]
        rfl
      refine ⟨_, _, visitLocal_open hchildren hchunk hrule, ?_, h.insert ?_ hopen hsome ?_ rfl⟩
      · exact Or.inl (by rw [hsome])
      · refine ⟨⟨u, _, hchunk⟩, hrule, ?_⟩
        rw [hchildrenOf]
        exact List.reverse_perm _
      · rw [hbehind, List.reverse_reverse]
    · rw [hchunk] at hseen
      exact ⟨_, s, visitLocal_closed hchildren hchunk he, Or.inl (by rw [hseen]; rfl), h, .refl s⟩

/-! ### a whole walk -/

theorem visits_cons (next : RoomId → List RoomId) (n : Nat) (r : RoomId) (l : List RoomId) :
    Preorder.visits next n (r :: l) =
      r :: Preorder.visits next (n - 1) ((if 0 < n then next r else []) ++ l) := by
  cases n with
  | zero => exact congrArg (r :: ·) (Preorder.visits_zero l).symm
  | succ n => rfl

/-- what is still to be recorded, cut at the limit -/
theorem record_take (chunk : Option SpaceHierarchyRoomsChunk) (found : Nat × List SpaceHierarchyRoomsChunk)
    (rest : List SpaceHierarchyRoomsChunk) (h : found.2.length < limit) :
    (record chunk found).2 ++ (rest.drop (record chunk found).1).take (limit - (record chunk found).2.length) =
      found.2 ++ ((chunk.toList ++ rest).drop found.1).take (limit - found.2.length) := by
  cases chunk with
  | none => rfl
  | some chunk =>
    obtain ⟨skip, results⟩ := found
    unfold record
    cases skip with
    | zero =>
      show (results ++ [chunk]) ++ rest.take (limit - (results ++ [chunk]).length) =
        results ++ (chunk :: rest).take (limit - results.length)
      obtain ⟨k, hk⟩ : ∃ k, limit - results.length = k + 1 := ⟨limit - results.length - 1, by
        have hlt : results.length < limit := h
        omega⟩
      have hk' : limit - (results ++ [chunk]).length = k := by
        rw [List.length_append, List.length_singleton]
        omega
      rw [hk, hk', List.take_succ_cons, List.append_assoc]
      rfl
    | succ skip => rfl

section
variable {suggestedOnly : Bool} {limit maxDepth : Nat} {roomsInPath : List RoomId} {stack stack' : List (List RoomId)}
variable {found : Nat × List SpaceHierarchyRoomsChunk} {r : RoomId} {s'' : Store}

theorem loop_end (hpop : popRoom stack = none) :
    loop env C u suggestedOnly limit maxDepth roomsInPath stack found = pure found.2 := by
  rw [loop]
  split
  · rfl
  · next hpop' =>
    rw [hpop] at hpop'
    cases hpop'

theorem loop_full (hlimit : limit ≤ found.2.length) :
    loop env C u suggestedOnly limit maxDepth roomsInPath stack found = pure found.2 := by
  rw [loop]
  split
  · rfl
  · exact if_pos hlimit

theorem loop_some (hpop : popRoom stack = some (r, stack')) (hlimit : ¬ limit ≤ found.2.length) :
    loop env C u suggestedOnly limit maxDepth roomsInPath stack found =
      visit env C u suggestedOnly (!found.2.isEmpty) r >>= fun
        | .passed => loop env C u suggestedOnly limit maxDepth (roomsInPath ++ [r]) stack' found
        | .stopped => pure found.2
        | .found chunk children =>
          loop env C u suggestedOnly limit maxDepth (roomsInPath ++ [r])
            (if (roomsInPath ++ [r]).length < maxDepth then children :: stack' else stack') (record chunk found) := by
  rw [loop]
  split
  · next hpop' =>
    rw [hpop] at hpop'
    cases hpop'
  · next hpop' =>
    rw [hpop] at hpop'
    cases hpop'
    rw [if_neg hlimit]
    refine congrArg (visit env C u suggestedOnly (!found.2.isEmpty) r >>= ·) (funext fun v => ?_)
    cases v with
    | passed => rfl
    | stopped => rfl
    | found chunk children =>
      show (if _h : (roomsInPath ++ [r]).length < maxDepth then _ else _ : SpaceComp _) =
        loop env C u suggestedOnly limit maxDepth (roomsInPath ++ [r])
          (if (roomsInPath ++ [r]).length < maxDepth then children :: stack' else stack') (record chunk found)
      by_cases hdepth : (roomsInPath ++ [r]).length < maxDepth
      · rw [dif_pos hdepth, if_pos hdepth]
      · rw [dif_neg hdepth, if_neg hdepth]

end

/-- the rest of the walk, where nothing is put on the stack behind a room that has no children -/
theorem pending_deeper (deeper : Prop) [Decidable deeper] (stack : List (List RoomId)) (children : List RoomId) :
    pending (if deeper then children.reverse :: stack else stack) = (if deeper then children else []) ++ pending stack := by
  by_cases h : deeper
  · rw [if_pos h, if_pos h]
    show children.reverse.reverse ++ pending stack = _
    rw [List.reverse_reverse]
  · rw [if_neg h, if_neg h]
    rfl

/-- the loop sends what its visits show, without what is skipped and up to the limit; the visits may move the
store, as long as they go on to show the same -/
theorem loop_gives {shown : RoomId → Option SpaceHierarchyRoomsChunk} {next : RoomId → List RoomId}
    (hvisit : ∀ s r someFound, I s → r ∈ rooms → ∃ v s', visit env C u suggestedOnly someFound r s = (.ok v, s') ∧
      v.Gives (shown r) (next r) ∧ I s') (hnext : ∀ r ∈ rooms, ∀ q ∈ next r, q ∈ rooms) (limit maxDepth : Nat)
    (roomsInPath : List RoomId) (stack : List (List RoomId)) (found : Nat × List SpaceHierarchyRoomsChunk)
    {s : Store} (h : I s) (hstack : ∀ r ∈ pending stack, r ∈ rooms) :
    ∃ s', I s' ∧ loop env C u suggestedOnly limit maxDepth roomsInPath stack found s =
      (.ok (found.2 ++ (((Preorder.visits next (maxDepth - 1 - roomsInPath.length)
        (pending stack)).filterMap shown).drop found.1).take (limit - found.2.length)), s') := by
  induction roomsInPath, stack, found using loop.induct limit maxDepth generalizing s with
  | case1 roomsInPath stack found hpop =>
    refine ⟨s, h, ?_⟩
    rw [loop_end hpop, pending_of_popRoom_none hpop, Preorder.visits_nil, List.filterMap_nil, List.drop_nil,
      List.take_nil, List.append_nil]
    rfl
  | case2 roomsInPath stack found r stack' hpop hlimit =>
    refine ⟨s, h, ?_⟩
    rw [loop_full hlimit, Nat.sub_eq_zero_of_le hlimit, List.take_zero, List.append_nil]
    rfl
  | case3 roomsInPath stack found r stack' hpop hlimit ihpass ihdeeper ihflat =>
    rw [pending_of_popRoom hpop] at hstack ⊢
    obtain ⟨hr, hstack'⟩ := List.forall_mem_cons.mp hstack
    obtain ⟨v, s', hvisits, hgives, h'⟩ := hvisit s r (!found.2.isEmpty) h hr
    rw [loop_some hpop hlimit, Comp.bind_ok hvisits, visits_cons]
    have hleft : maxDepth - 1 - roomsInPath.length - 1 = maxDepth - 1 - (roomsInPath ++ [r]).length := by
      rw [List.length_append, List.length_singleton]
      omega
    have hdepth : 0 < maxDepth - 1 - roomsInPath.length ↔ (roomsInPath ++ [r]).length < maxDepth := by
      rw [List.length_append, List.length_singleton]
      omega
    rw [hleft]
    rcases hgives with rfl | ⟨rfl, hshown, hnone⟩
    · have hpending := pending_deeper ((roomsInPath ++ [r]).length < maxDepth) stack' (next r)
      have hmem : ∀ q ∈ pending (if (roomsInPath ++ [r]).length < maxDepth then (next r).reverse :: stack'
          else stack'), q ∈ rooms := by
        intro q hq
        rw [hpending] at hq
        rcases List.mem_append.mp hq with hq | hq
        · by_cases hdeeper : (roomsInPath ++ [r]).length < maxDepth
          · rw [if_pos hdeeper] at hq
            exact hnext r hr q hq
          · rw [if_neg hdeeper] at hq
            exact absurd hq List.not_mem_nil
        · exact hstack' q hq
      have hrec := record_take (shown r) found ((Preorder.visits next (maxDepth - 1 - (roomsInPath ++ [r]).length)
        (pending (if (roomsInPath ++ [r]).length < maxDepth then (next r).reverse :: stack' else stack'))).filterMap
          shown) (Nat.not_le.mp hlimit)
      have hcons : ∀ l : List RoomId, (r :: l).filterMap shown = (shown r).toList ++ l.filterMap shown := by
        intro l
        cases hr' : shown r with
        | none => rw [List.filterMap_cons_none hr']; rfl
        | some chunk => rw [List.filterMap_cons_some hr']; rfl
      rw [hcons, if_congr hdepth rfl rfl, ← hpending, ← hrec]
      show ∃ s', _ ∧ loop env C u suggestedOnly limit maxDepth (roomsInPath ++ [r]) _ _ _ = _
      by_cases hdeeper : (roomsInPath ++ [r]).length < maxDepth
      · rw [if_pos hdeeper] at hmem ⊢
        exact ihdeeper _ _ hdeeper h' hmem
      · rw [if_neg hdeeper] at hmem ⊢
        exact ihflat _ h' hmem
    · obtain ⟨s'', h'', hrun⟩ := ihpass h' hstack'
      refine ⟨s'', h'', hrun.trans ?_⟩
      rw [List.filterMap_cons_none hshown, hnone, ite_self]
      rfl

theorem getHierarchy_gives {shown : RoomId → Option SpaceHierarchyRoomsChunk} {next : RoomId → List RoomId}
    (hvisit : ∀ s r someFound, I s → r ∈ rooms → ∃ v s', visit env C u suggestedOnly someFound r s = (.ok v, s') ∧
      v.Gives (shown r) (next r) ∧ I s') (hnext : ∀ r ∈ rooms, ∀ q ∈ next r, q ∈ rooms) {root : RoomId}
    (hroot : root ∈ rooms) (limit skip maxDepth : Nat) (h : I s) {out : List SpaceHierarchyRoomsChunk}
    (hout : (((Preorder.visits next (maxDepth - 1) [root]).filterMap shown).drop skip).take limit = out) :
    ∃ s', I s' ∧ getHierarchy env C u root limit skip maxDepth suggestedOnly s =
      (.ok (out, if out = [] then none else some (skip + out.length)), s') := by
  have hstack : ∀ r ∈ pending [[root]], r ∈ rooms := by
    intro r hr
    rw [List.mem_singleton.mp hr]
    exact hroot
  obtain ⟨s', h', hrun⟩ := loop_gives hvisit hnext limit maxDepth [] [[root]] (skip, []) h hstack
  have hrun' : loop env C u suggestedOnly limit maxDepth [] [[root]] (skip, []) s = (.ok out, s') := hout ▸ hrun
  refine ⟨s', h', ?_⟩
  unfold getHierarchy
  rw [Comp.bind_ok hrun']
  refine congrArg (fun token => (Except.ok (out, token), s')) ?_
  exact if_congr List.isEmpty_iff rfl rfl

theorem Graph.visits (suggestedOnly : Bool) : ∀ s r someFound,
    Graph env C s rooms ∧ Same env C u s₀ s → r ∈ rooms → ∃ v s',
      visit env C u suggestedOnly someFound r s = (.ok v, s') ∧
      v.Gives (seen env C s₀ u r) (behind env C s₀ u r) ∧ Graph env C s' rooms ∧ Same env C u s₀ s' := by
  rintro s r someFound ⟨h, hsame⟩ hr
  obtain ⟨v, s', hvisit, hgives, h', hsame'⟩ := visit_gives h hr suggestedOnly someFound
  rw [hsame.seen, hsame.behind] at hgives
  exact ⟨v, s', hvisit, hgives, h', hsame.trans hsame'⟩

end

/-! ### a wide space -/

namespace Wide

def via (content : JsonObject) : Option (List ServerName) :=
  match content.get "via" with
  | some (.arr servers) => some (servers.filterMap fun
    | .str server => some ⟨.ascii server⟩
    | _ => none)
  | _ => none

end Wide

/-- rooms without contents, apart from their children -/
def Contents.plain : Contents where
  canonicalAlias _ := none
  name _ := none
  topic _ := none
  historyVisibility := Visibility.Contents.plain.historyVisibility
  guestAccess _ := none
  avatarUrl _ := none
  joinRule _ := none
  roomType _ := none
  via := Wide.via
  roomIdOfStr name := some ⟨.ascii name⟩
  roomServer _ := some ⟨.ascii "x"⟩
  toStrippedSpacechildStateEvent := Env.plain.toStrippedStateEvent
  enum := Tree.rows
  enum_perm t := .refl t.rows
  ask _ _ := none

namespace Wide

def alice : UserId := ⟨.ascii "@alice:x"⟩
def root : RoomId := ⟨.ascii "!root:x"⟩
def left : RoomId := ⟨.ascii "!left:x"⟩
def right : RoomId := ⟨.ascii "!right:x"⟩
def leaf : RoomId := ⟨.ascii "!leaf:x"⟩

def rooms : List RoomId := [root, left, right, leaf]

def child (e name : String) (r : RoomId) : PduJson :=
  ⟨[], ⟨⟨.ascii e⟩, r, alice, 0, .spaceChild, [("via", .arr [.str "x"])], some name, [], 0, [], none, none⟩⟩

def state : StateDb := { StateDb.empty with
  counter := 10
  shorteventidEventid := fun n =>
    if n = 4 then some ⟨.ascii "$left"⟩ else if n = 5 then some ⟨.ascii "$right"⟩
    else if n = 6 then some ⟨.ascii "$leaf"⟩ else none
  shortstatekeyStatekey := fun n =>
    if n = 1 then some (.spaceChild, "!left:x") else if n = 2 then some (.spaceChild, "!right:x")
    else if n = 3 then some (.spaceChild, "!leaf:x") else none
  shortstatehashStatediff := fun n =>
    if n = 7 then some (be64 0 ++ (CompressedStateEvent.of 1 4).bytes ++ (CompressedStateEvent.of 2 5).bytes)
    else if n = 8 then some (be64 0 ++ (CompressedStateEvent.of 3 6).bytes)
    else if n = 9 then some (be64 0) else none
  roomidShortstatehash := fun r =>
    if r = root then some 7 else if r = right then some 8 else if r ∈ rooms then some 9 else none }

/-- Alice is in a space with two children, and in a room of the second one -/
def store : Store where
  db := { Db.empty with
    state := state
    timeline := ((TimelineTables.empty.addPduOutlier ⟨.ascii "$left"⟩ (child "$left" "!left:x" root)).addPduOutlier
      ⟨.ascii "$right"⟩ (child "$right" "!right:x" root)).addPduOutlier ⟨.ascii "$leaf"⟩ (child "$leaf" "!leaf:x" right)
    members := rooms.foldl (fun members r => members.markAsJoined alice r) MemberTables.empty }
  roomidSpacechunkCache _ := none

theorem exists_ok {α : Type} {x : Except Error α} (h : x.toOption.isSome = true) : ∃ a, x = .ok a := by
  cases x with
  | ok a => exact ⟨a, rfl⟩
  | error e => cases h

/-- what is computed of the store: its rooms can be read, and the leaf is not visited -/
theorem computed : (∀ q ∈ rooms, (((store.db.state.roomidShortstatehash q).bind fun shortstatehash =>
        (spaceChildren .plain .plain store.db shortstatehash).toOption).isSome = true ∧
        (getDetails .plain .plain store.db q).toOption.isSome = true) ∧
        (getJoinRule .plain .plain store.db q).toOption.isSome = true ∧
        (getRoomType .plain .plain store.db q).toOption.isSome = true) ∧
    (∀ r ∈ rooms, ∀ q ∈ childrenOf .plain .plain store.db r, q ∈ rooms) ∧
    (∀ q ∈ rooms, accessible .plain .plain store.db alice q = true) ∧
    right ∈ childrenOf .plain .plain store.db root ∧ leaf ∈ childrenOf .plain .plain store.db right ∧
    leaf ∉ (Preorder.visits (behind .plain .plain store alice) (3 - 1) [root]).filter
      (accessible .plain .plain store.db alice) := by decide +kernel

theorem known : ∀ r ∈ rooms, Known .plain .plain store.db r := by
  intro r hr
  obtain ⟨⟨hchildren, hdetails⟩, hrule, htype⟩ := computed.1 r hr
  refine ⟨?_, exists_ok hdetails, exists_ok hrule, exists_ok htype⟩
  obtain ⟨children, hchildren⟩ := Option.isSome_iff_exists.mp hchildren
  obtain ⟨shortstatehash, hstate, hchildren⟩ := Option.bind_eq_some_iff.mp hchildren
  exact ⟨shortstatehash, children, hstate, toOption_eq_some.mp hchildren⟩

theorem graph : Graph .plain .plain store rooms.toFinset where
  known r hr := known r (List.mem_toFinset.mp hr)
  closed r hr q hq := List.mem_toFinset.mpr (computed.2.1 r (List.mem_toFinset.mp hr) q hq)
  fresh r _ entry hentry := by
    have hnone : (none : Option (Option CachedSpaceChunk)) = some entry := hentry
    cases hnone

theorem root_mem : root ∈ rooms.toFinset := List.mem_toFinset.mpr List.mem_cons_self

end Wide

end Spaces
end Grapevine
