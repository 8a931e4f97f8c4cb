import Grapevine.Lib.Stream
import Grapevine.Members.Tables
import Grapevine.Timeline.Count
import Mathlib.Data.List.TakeWhile

/-!
# The writers of the sync streams

What a sync shows besides timelines lies in rows under counts: invites and leaves, account data,
read receipts and changes of device keys.  This file has the tables with the queries that syncs make
of them, and their writers, one database operation after the other.

* `keysChanged`, `readreceiptsSince`, `changesSince`   the rows of a stream above a token;
* `Op`          the operations that change a table; each writes one slot (`Db.look_apply`);
* `Writer`      a program of operations, reads and drawn counts: `markAsInvited`, `markAsLeft`,
                `markAsJoined`, `forget`, `accountDataUpdate`, `readreceiptUpdate`,
                `markDeviceKeyUpdate`;
* `Row`         what an update leaves in the tables (`Db.Holds`).
-/

set_option linter.unusedSectionVars false

namespace Grapevine
open Kv

namespace SyncUpdates

variable {u : UserId} {target : Text} {r : RoomId}

/-! ## keys -/

/-- the texts that account data is stored under: a room, or none -/
def scopeText : Option RoomId → Text
  | none => ⟨[], List.not_mem_nil⟩
  | some r => r.toText

/-- the prefix of the rows of a user in a scope -/
def accountRows (scope : Text) (u : UserId) : Bytes := scope.bytes ++ sep :: (u.bytes ++ [sep])

def roomuserdataid (scope : Text) (u : UserId) (count : Nat) (kind : Text) : Bytes :=
  streamKey (accountRows scope u) 8 count (sep :: kind.bytes)

def roomusertype (scope : Text) (u : UserId) (kind : Text) : Bytes := accountRows scope u ++ kind.bytes

def receiptRows (r : RoomId) : Bytes := r.bytes ++ [sep]

def readreceiptid (r : RoomId) (count : Nat) (u : UserId) : Bytes :=
  streamKey (receiptRows r) 8 count (sep :: u.bytes)

/-- the two parts of what is behind the room -/
theorem readreceiptid_parts (r : RoomId) (count : Nat) (u : UserId) :
    ((readreceiptid r count u).drop (receiptRows r).length).take 8 = be 8 count ∧
      ((readreceiptid r count u).drop (receiptRows r).length).drop 9 = u.bytes := by
  have hrest : (readreceiptid r count u).drop (receiptRows r).length = be 8 count ++ sep :: u.bytes := List.drop_left
  rw [hrest]
  refine ⟨List.take_left' (be_length 8 count), ?_⟩
  rw [List.drop_append, List.drop_eq_nil_of_le (by rw [be_length]; omega), be_length]
  rfl

/-- the prefix of the key changes that a user or the members of a room are told of -/
def keyRows (target : Text) : Bytes := target.bytes ++ [sep]

def keychangeid (target : Text) (count : Nat) : Bytes := streamKey (keyRows target) 8 count []

section
variable {n m : Nat} (hn : n < 2^64) (hm : m < 2^64)
include hn hm

theorem roomuserdataid_inj {s t : Text} {v : UserId} {k l : Text}
    (h : roomuserdataid s u n k = roomuserdataid t v m l) : s = t ∧ u = v ∧ n = m ∧ k = l := by
  unfold roomuserdataid streamKey accountRows at h
  rw [List.append_assoc, List.append_assoc, List.cons_append, List.cons_append] at h
  obtain ⟨hscope, hrest⟩ := sep_append_inj s.noSep t.noSep h
  rw [List.append_assoc, List.append_assoc] at hrest
  obtain ⟨huser, hrest⟩ := sep_append_inj u.noSep v.noSep hrest
  obtain ⟨hcount, hkind⟩ := be_append_inj (two64 ▸ hn) (two64 ▸ hm) hrest
  refine ⟨?_, UserId.ext_bytes huser, hcount, ?_⟩
  · cases s
    cases t
    cases hscope
    rfl
  · cases k
    cases l
    cases (List.cons.inj hkind).2
    rfl

end

/-! ## tables and queries -/

inductive Kind where
  | invite
  | leave
deriving DecidableEq

structure Db where
  members : MemberTables
  accountdata : Tree Bytes Json
  roomusertypeRoomuserdataid : Tree Bytes Bytes
  readreceipts : Tree Bytes JsonObject
  keychanges : Tree Bytes UserId
  /-- `room_state_get` of `m.room.encryption` -/
  encryption : RoomId → Except Error (Option Json)

def Db.states (db : Db) : Kind → Tree Bytes (List Json)
  | .invite => db.members.userroomidInvitestate
  | .leave => db.members.userroomidLeftstate

/-- `get_invite_count` and `get_left_count` read these -/
def Db.counts (db : Db) : Kind → Tree Bytes Nat
  | .invite => db.members.roomuseridInvitecount
  | .leave => db.members.roomuseridLeftcount

/-- `since + 1`, which starts over at zero behind the last count -/
def afterToken (since : Nat) : Nat := (since + 1) % 2^64

/-- the count behind the first separator of a key is at most `last` -/
def countWithin (last : Nat) (key : Bytes) : Bool :=
  match (cut key).2 with
  | some word => word.length = 8 && ofBe word ≤ last
  | none => false

def Db.keysChanged (db : Db) (target : Text) (since : Nat) (last : Option Nat) : List UserId :=
  ((db.keychanges.above (keyRows target) 8 (afterToken since)).takeWhile
    (fun row => countWithin (last.getD (2^64 - 1)) row.1)).map Prod.snd

/-- `readreceipts_since`: the user, the count and the event of every row -/
def Db.readreceiptsSince (db : Db) (I : Ids) (r : RoomId) (since : Nat) :
    List (UserId × Nat × JsonObject) :=
  (db.readreceipts.above (receiptRows r) 8 (afterToken since)).filterMap (fun row =>
    let rest := row.1.drop (receiptRows r).length
    if I.utf8 (rest.drop 9) then
      (I.parseUserId (rest.drop 9)).map
        (fun u => (u, ofBe (rest.take 8), JsonObject.remove row.2 "room_id"))
    else none)

/-- `changes_since` of account data: the last row of every kind -/
def Db.changesSince (db : Db) (scope : Text) (u : UserId) (since : Nat) : Tree Bytes Json :=
  (db.accountdata.above (accountRows scope u) 8 (afterToken since)).foldl
    (fun userdata row => userdata.insert (afterLast row.1) row.2) .empty

/-- `rooms_invited` and `rooms_left` -/
def Db.roomsMarked (db : Db) (I : Ids) (u : UserId) : Kind → List (Except Error (RoomId × List Json))
  | .invite => db.members.roomsInvited I u
  | .leave => db.members.roomsLeft I u

theorem mem_roomsMarked (I : Ids) {db : Db} {k : Kind} {st : List Json}
    (h : (db.states k).get (MemberTables.userroomId u r) = some st) :
    .ok (r, st) ∈ db.roomsMarked I u k := by
  have hscan : (MemberTables.userroomId u r, st) ∈ (db.states k).scanPrefix (u.bytes ++ [sep]) :=
    (Tree.mem_scanPrefix _ _ _).mpr ⟨(Tree.get_eq_some_iff _ _ _).mp h,
      (sep_prefix_iff u.noSep u.noSep r.bytes).mpr rfl⟩
  have hparse : (parseLast I I.parseRoomId "Room ID" "userroomid_invited"
      (MemberTables.userroomId u r)).map (·, st) = .ok (r, st) := by
    unfold MemberTables.userroomId
    rw [parseLast_room]
    rfl
  cases k with
  | invite => exact List.mem_map.mpr ⟨_, hscan, hparse⟩
  | leave => exact List.mem_map.mpr ⟨_, hscan, hparse⟩

/-! ## operations -/

inductive Op where
  | putState (k : Kind) (u : UserId) (r : RoomId) (state : List Json)
  | putCount (k : Kind) (u : UserId) (r : RoomId) (count : Nat)
  | dropState (k : Kind) (u : UserId) (r : RoomId)
  | dropCount (k : Kind) (u : UserId) (r : RoomId)
  | putJoinedByUser (u : UserId) (r : RoomId)
  | putJoinedByRoom (u : UserId) (r : RoomId)
  | dropJoinedByUser (u : UserId) (r : RoomId)
  | dropJoinedByRoom (u : UserId) (r : RoomId)
  | putAccountData (scope : Text) (u : UserId) (kind : Text) (count : Nat) (data : Json)
  | putPointer (scope : Text) (u : UserId) (kind : Text) (key : Bytes)
  | dropAccountData (key : Bytes)
  | putReceipt (r : RoomId) (u : UserId) (count : Nat) (event : JsonObject)
  | dropReceipt (key : Bytes)
  | putKeyChange (target : Text) (count : Nat) (u : UserId)

def Db.mapMembers (db : Db) (f : MemberTables → MemberTables) : Db :=
  { db with members := f db.members }

def Op.apply (db : Db) : Op → Db
  | .putState .invite u r st => db.mapMembers fun t => { t with
      userroomidInvitestate := t.userroomidInvitestate.insert (MemberTables.userroomId u r) st }
  | .putState .leave u r st => db.mapMembers fun t => { t with
      userroomidLeftstate := t.userroomidLeftstate.insert (MemberTables.userroomId u r) st }
  | .putCount .invite u r c => db.mapMembers fun t => { t with
      roomuseridInvitecount := t.roomuseridInvitecount.insert (MemberTables.roomuserId r u) c }
  | .putCount .leave u r c => db.mapMembers fun t => { t with
      roomuseridLeftcount := t.roomuseridLeftcount.insert (MemberTables.roomuserId r u) c }
  | .dropState .invite u r => db.mapMembers fun t => { t with
      userroomidInvitestate := t.userroomidInvitestate.remove (MemberTables.userroomId u r) }
  | .dropState .leave u r => db.mapMembers fun t => { t with
      userroomidLeftstate := t.userroomidLeftstate.remove (MemberTables.userroomId u r) }
  | .dropCount .invite u r => db.mapMembers fun t => { t with
      roomuseridInvitecount := t.roomuseridInvitecount.remove (MemberTables.roomuserId r u) }
  | .dropCount .leave u r => db.mapMembers fun t => { t with
      roomuseridLeftcount := t.roomuseridLeftcount.remove (MemberTables.roomuserId r u) }
  | .putJoinedByUser u r => db.mapMembers fun t => { t with
      userroomidJoined := t.userroomidJoined.insert (MemberTables.userroomId u r) () }
  | .putJoinedByRoom u r => db.mapMembers fun t => { t with
      roomuseridJoined := t.roomuseridJoined.insert (MemberTables.roomuserId r u) () }
  | .dropJoinedByUser u r => db.mapMembers fun t => { t with
      userroomidJoined := t.userroomidJoined.remove (MemberTables.userroomId u r) }
  | .dropJoinedByRoom u r => db.mapMembers fun t => { t with
      roomuseridJoined := t.roomuseridJoined.remove (MemberTables.roomuserId r u) }
  | .putAccountData scope u kind c data =>
      { db with accountdata := db.accountdata.insert (roomuserdataid scope u c kind) data }
  | .putPointer scope u kind key => { db with
      roomusertypeRoomuserdataid :=
        db.roomusertypeRoomuserdataid.insert (roomusertype scope u kind) key }
  | .dropAccountData key => { db with accountdata := db.accountdata.remove key }
  | .putReceipt r u c event =>
      { db with readreceipts := db.readreceipts.insert (readreceiptid r c u) event }
  | .dropReceipt key => { db with readreceipts := db.readreceipts.remove key }
  | .putKeyChange target c u =>
      { db with keychanges := db.keychanges.insert (keychangeid target c) u }

/-! ## writers -/

/-- a call, one database operation after the other -/
inductive Writer where
  | done
  | op (o : Op) (next : Writer)
  /-- `next_count` -/
  | draw (next : Nat → Writer)
  /-- a read, on which the rest depends -/
  | ask (next : Db → Writer)

def Writer.ops : List Op → Writer → Writer
  | [], w => w
  | o :: os, w => .op o (Writer.ops os w)

def dropMember (k : Kind) (u : UserId) (r : RoomId) : List Op := [.dropState k u r, .dropCount k u r]

def dropJoined (u : UserId) (r : RoomId) : List Op := [.dropJoinedByUser u r, .dropJoinedByRoom u r]

def markAsJoined (u : UserId) (r : RoomId) : Writer :=
  .ops ([.putJoinedByUser u r, .putJoinedByRoom u r]
    ++ dropMember .invite u r ++ dropMember .leave u r) .done

def markAsInvited (u : UserId) (r : RoomId) (lastState : Option (List Json)) : Writer :=
  .op (.putState .invite u r (lastState.getD [])) (.draw fun count =>
    .op (.putCount .invite u r count) (.ops (dropJoined u r ++ dropMember .leave u r) .done))

def markAsLeft (u : UserId) (r : RoomId) : Writer :=
  .op (.putState .leave u r []) (.draw fun count =>
    .op (.putCount .leave u r count) (.ops (dropJoined u r ++ dropMember .invite u r) .done))

def forget (r : RoomId) (u : UserId) : Writer := .ops (dropMember .leave u r) .done

/-- `data.get(name).is_none()` -/
def lacks (data : Json) (name : String) : Bool :=
  match data with
  | .obj fields => (JsonObject.get fields name).isNone
  | _ => true

def accountDataUpdate (room : Option RoomId) (u : UserId) (kind : Text) (data : Json) : Writer :=
  .draw fun count =>
    if lacks data "type" || lacks data "content" then .done
    else .op (.putAccountData (scopeText room) u kind count data) (.ask fun db =>
      .op (.putPointer (scopeText room) u kind (roomuserdataid (scopeText room) u count kind))
        (match db.roomusertypeRoomuserdataid.get (roomusertype (scopeText room) u kind) with
        | some prev => .op (.dropAccountData prev) .done
        | none => .done))

/-- the latest row of the user in the room -/
def Db.oldReceipt (db : Db) (r : RoomId) (u : UserId) : Option Bytes :=
  ((db.readreceipts.upTo (receiptRows r) 8 (2^64 - 1)).find?
    (fun row => afterLast row.1 = u.bytes)).map Prod.fst

def readreceiptUpdate (u : UserId) (r : RoomId) (event : JsonObject) : Writer :=
  let store : Writer := .draw fun count => .op (.putReceipt r u count event) .done
  .ask fun db =>
    match db.oldReceipt r u with
    | some old => .op (.dropReceipt old) store
    | none => store

def roomKeyChanges (u : UserId) (count : Nat) : List RoomId → Writer
  | [] => .op (.putKeyChange u.toText count u) .done
  | r :: rooms => .ask fun db =>
    match db.encryption r with
    | .error _ => .done
    | .ok none => roomKeyChanges u count rooms
    | .ok (some _) => .op (.putKeyChange r.toText count u) (roomKeyChanges u count rooms)

def markDeviceKeyUpdate (I : Ids) (u : UserId) : Writer :=
  .draw fun count => .ask fun db =>
    roomKeyChanges u count ((db.members.roomsJoined I u).filterMap Except.toOption)

/-- the calls of other code that the streams come from -/
inductive Call (I : Ids) : Writer → Prop
  | joined (u : UserId) (r : RoomId) : Call I (markAsJoined u r)
  | invited (u : UserId) (r : RoomId) (lastState : Option (List Json)) :
      Call I (markAsInvited u r lastState)
  | left (u : UserId) (r : RoomId) : Call I (markAsLeft u r)
  | forget (r : RoomId) (u : UserId) : Call I (forget r u)
  | accountData (room : Option RoomId) (u : UserId) (kind : Text) (data : Json) :
      Call I (accountDataUpdate room u kind data)
  | receipt (u : UserId) (r : RoomId) (event : JsonObject) : Call I (readreceiptUpdate u r event)
  | keys (u : UserId) : Call I (markDeviceKeyUpdate I u)

/-- what a call does when nothing else runs -/
def Writer.alone : Writer → Nat × Db → Nat × Db
  | .done, s => s
  | .op o w, s => w.alone (s.1, o.apply s.2)
  | .draw next, s => (next (s.1 + 1)).alone (s.1 + 1, s.2)
  | .ask next, s => (next s.2).alone s

theorem markAsInvited_alone (u : UserId) (r : RoomId) (lastState : Option (List Json)) (n : Nat)
    (db : Db) : (markAsInvited u r lastState).alone (n, db) =
      (n + 1, { db with members := db.members.markAsInvited u r lastState (n + 1) }) := rfl

theorem markAsLeft_alone (u : UserId) (r : RoomId) (n : Nat) (db : Db) :
    (markAsLeft u r).alone (n, db) =
      (n + 1, { db with members := db.members.markAsLeft u r (n + 1) }) := rfl

theorem markAsJoined_alone (u : UserId) (r : RoomId) (n : Nat) (db : Db) :
    (markAsJoined u r).alone (n, db) =
      (n, { db with members := db.members.markAsJoined u r }) := rfl

/-! ## rows -/

/-- a place in the tables under counts -/
inductive Slot where
  | state (k : Kind) (key : Bytes)
  | count (k : Kind) (key : Bytes)
  | accountData (key : Bytes)
  | receipt (key : Bytes)
  | keyChange (key : Bytes)
deriving DecidableEq

inductive Cell where
  | state (st : List Json)
  | count (n : Nat)
  | accountData (data : Json)
  | receipt (event : JsonObject)
  | keyChange (u : UserId)

def Db.look (db : Db) : Slot → Option Cell
  | .state k key => ((db.states k).get key).map .state
  | .count k key => ((db.counts k).get key).map .count
  | .accountData key => (db.accountdata.get key).map .accountData
  | .receipt key => (db.readreceipts.get key).map .receipt
  | .keyChange key => (db.keychanges.get key).map .keyChange

/-- the slot that an operation writes -/
def Op.slot : Op → Option Slot
  | .putState k u r _ | .dropState k u r => some (.state k (MemberTables.userroomId u r))
  | .putCount k u r _ | .dropCount k u r => some (.count k (MemberTables.roomuserId r u))
  | .putAccountData scope u kind c _ => some (.accountData (roomuserdataid scope u c kind))
  | .dropAccountData key => some (.accountData key)
  | .putReceipt r u c _ => some (.receipt (readreceiptid r c u))
  | .dropReceipt key => some (.receipt key)
  | .putKeyChange target c _ => some (.keyChange (keychangeid target c))
  | _ => none

/-- what an operation leaves in its slot -/
def Op.cell : Op → Option Cell
  | .putState _ _ _ st => some (.state st)
  | .putCount _ _ _ c => some (.count c)
  | .putAccountData _ _ _ _ data => some (.accountData data)
  | .putReceipt _ _ _ event => some (.receipt event)
  | .putKeyChange _ _ u => some (.keyChange u)
  | _ => none

theorem look_insert {ν : Type} (t : Tree Bytes ν) (k k' : Bytes) (v : ν) (f : ν → Cell) :
    ((t.insert k v).get k').map f = if k = k' then some (f v) else (t.get k').map f := by
  rw [Tree.get_insert]
  by_cases h : k = k'
  · rw [if_pos h.symm, if_pos h, Option.map_some]
  · rw [if_neg (Ne.symm h), if_neg h]

theorem look_remove {ν : Type} (t : Tree Bytes ν) (k k' : Bytes) (f : ν → Cell) :
    ((t.remove k).get k').map f = if k = k' then none else (t.get k').map f := by
  rw [Tree.get_remove]
  by_cases h : k = k'
  · rw [if_pos h.symm, if_pos h, Option.map_none]
  · rw [if_neg (Ne.symm h), if_neg h]

/-- an operation writes its slot, and no other one -/
theorem Db.look_apply (db : Db) (o : Op) (slot : Slot) :
    (o.apply db).look slot = if o.slot = some slot then o.cell else db.look slot := by
  rcases o with ⟨_ | _, u, r, st⟩ | ⟨_ | _, u, r, c⟩ | ⟨_ | _, u, r⟩ | ⟨_ | _, u, r⟩ | ⟨u, r⟩ | ⟨u, r⟩ |
    ⟨u, r⟩ | ⟨u, r⟩ | ⟨scope, u, kind, c, data⟩ | ⟨scope, u, kind, key⟩ | key | ⟨r, u, c, event⟩ | key |
    ⟨target, c, u⟩ <;>
  rcases slot with ⟨_ | _, key'⟩ | ⟨_ | _, key'⟩ | key' | key' | key' <;>
  first
  | rfl
  | simp only [Op.slot, Option.some.injEq, Slot.state.injEq, Slot.count.injEq, Slot.accountData.injEq,
      Slot.receipt.injEq, Slot.keyChange.injEq, true_and]
    first
    | exact look_insert _ _ _ _ _
    | exact look_remove _ _ _ _

/-- what an update has left in the tables -/
inductive Row where
  | member (k : Kind) (u : UserId) (r : RoomId) (state : List Json) (count : Nat)
  | accountData (scope : Text) (u : UserId) (kind : Text) (count : Nat) (data : Json)
  | receipt (r : RoomId) (u : UserId) (count : Nat) (event : JsonObject)
  | keyChange (target : Text) (count : Nat) (u : UserId)

def Row.count : Row → Nat
  | .member _ _ _ _ c => c
  | .accountData _ _ _ c _ => c
  | .receipt _ _ c _ => c
  | .keyChange _ c _ => c

def Row.cells : Row → List (Slot × Cell)
  | .member k u r st c => [(.state k (MemberTables.userroomId u r), .state st),
      (.count k (MemberTables.roomuserId r u), .count c)]
  | .accountData scope u kind c data => [(.accountData (roomuserdataid scope u c kind), .accountData data)]
  | .receipt r u c event => [(.receipt (readreceiptid r c u), .receipt event)]
  | .keyChange target c u => [(.keyChange (keychangeid target c), .keyChange u)]

def Db.Holds (db : Db) (x : Row) : Prop := ∀ p ∈ x.cells, db.look p.1 = some p.2

/-- the operation replaces or removes a part of the row -/
def Op.Voids (o : Op) (x : Row) : Prop := ∃ p ∈ x.cells, o.slot = some p.1

instance (o : Op) (x : Row) : Decidable (o.Voids x) :=
  inferInstanceAs (Decidable (∃ p ∈ x.cells, o.slot = some p.1))

/-- the row that an operation completes -/
def Op.added (db : Db) : Op → Option Row
  | .putCount k u r c =>
      ((db.states k).get (MemberTables.userroomId u r)).map (fun st => .member k u r st c)
  | .putAccountData scope u kind c data => some (.accountData scope u kind c data)
  | .putReceipt r u c event => some (.receipt r u c event)
  | .putKeyChange target c u => some (.keyChange target c u)
  | _ => none

theorem Db.Holds.apply {db : Db} {x : Row} (h : db.Holds x) {o : Op} (hv : ¬ o.Voids x) :
    (o.apply db).Holds x := by
  intro p hp
  rw [db.look_apply, if_neg fun hs => hv ⟨p, hp, hs⟩]
  exact h p hp

theorem Op.added_holds {db : Db} {o : Op} {x : Row} (h : o.added db = some x) :
    (o.apply db).Holds x := by
  intro p hp
  cases o with
  | putCount k u r c =>
    obtain ⟨st, hst, rfl⟩ := Option.map_eq_some_iff.mp h
    rw [db.look_apply]
    rcases List.mem_cons.mp hp with rfl | hp
    · show (if some (Slot.count k _) = some (Slot.state k _) then _ else _) = some (Cell.state st)
      rw [if_neg nofun]
      show ((db.states k).get _).map Cell.state = _
      rw [hst]
      rfl
    · rw [List.mem_singleton.mp hp]
      exact if_pos rfl
  | putAccountData | putReceipt | putKeyChange =>
    cases h
    rw [List.mem_singleton.mp hp, db.look_apply]
    exact if_pos rfl
  | _ => cases h

/-- the only cell of a row outside the member tables -/
theorem Op.added_of_cell (db : Db) {o : Op} {slot : Slot} {cell : Cell} (hs : o.slot = some slot)
    (hc : o.cell = some cell) (hstream : ∀ k key, slot ≠ .state k key ∧ slot ≠ .count k key) :
    ∃ x, o.added db = some x ∧ (slot, cell) ∈ x.cells := by
  cases o with
  | putState k u r st => exact absurd (Option.some.inj hs).symm (hstream _ _).1
  | putCount k u r c => exact absurd (Option.some.inj hs).symm (hstream _ _).2
  | putAccountData | putReceipt | putKeyChange =>
    cases hs
    cases hc
    exact ⟨_, rfl, List.mem_singleton.mpr rfl⟩
  | _ => cases hc

/-! ## the form of the keys -/

def IsReceiptKey (key : Bytes) : Prop := ∃ r n u, n < 2^64 ∧ key = readreceiptid r n u

def IsKeyChangeKey (key : Bytes) : Prop := ∃ target n, n < 2^64 ∧ key = keychangeid target n

/-- the keys of the receipts and the key changes are those that the writers make -/
structure Formed (db : Db) : Prop where
  receipts : ∀ row ∈ db.readreceipts.rows, IsReceiptKey row.1
  keychanges : ∀ row ∈ db.keychanges.rows, IsKeyChangeKey row.1

theorem formed_insert {ν : Type} {P : Bytes → Prop} {t : Tree Bytes ν} (h : ∀ row ∈ t.rows, P row.1)
    {k : Bytes} (hk : P k) (v : ν) : ∀ row ∈ (t.insert k v).rows, P row.1 := by
  intro row hrow
  rcases (Tree.mem_insert _ _ _ _).mp hrow with hrow | hrow
  · rw [hrow]
    exact hk
  · exact h row hrow.1

/-- every operation of a writer keeps the form -/
theorem Formed.apply {db : Db} (h : Formed db) {o : Op} (hcount : ∀ x, o.added db = some x → x.count < 2^64) :
    Formed (o.apply db) := by
  cases o with
  | putState k u r st => cases k <;> exact ⟨h.receipts, h.keychanges⟩
  | putCount k u r c => cases k <;> exact ⟨h.receipts, h.keychanges⟩
  | dropState k u r => cases k <;> exact ⟨h.receipts, h.keychanges⟩
  | dropCount k u r => cases k <;> exact ⟨h.receipts, h.keychanges⟩
  | putReceipt r u c event =>
    have hkey : IsReceiptKey (readreceiptid r c u) := ⟨r, c, u, hcount _ rfl, rfl⟩
    exact ⟨formed_insert h.receipts hkey event, h.keychanges⟩
  | dropReceipt key => exact ⟨fun row hrow => h.receipts row ((Tree.mem_remove _ _ _).mp hrow).1, h.keychanges⟩
  | putKeyChange target c u =>
    have hkey : IsKeyChangeKey (keychangeid target c) := ⟨target, c, hcount _ rfl, rfl⟩
    exact ⟨h.receipts, formed_insert h.keychanges hkey u⟩
  | _ => exact ⟨h.receipts, h.keychanges⟩

/-! ## rows and queries -/

theorem keyRows_append_inj {target' : Text} {a b : Bytes} (h : keyRows target ++ a = keyRows target' ++ b) :
    target = target' ∧ a = b := by
  unfold keyRows at h
  rw [List.append_assoc, List.append_assoc] at h
  obtain ⟨htarget, hrest⟩ := sep_append_inj target.noSep target'.noSep h
  cases target
  cases target'
  cases htarget
  exact ⟨rfl, hrest⟩

theorem countWithin_keychangeid (target : Text) {n : Nat} (hn : n < 2^64) (last : Nat) :
    countWithin last (keychangeid target n) = decide (n ≤ last) := by
  have hcut : (cut (keychangeid target n)).2 = some (be 8 n) := by
    unfold keychangeid streamKey keyRows
    rw [List.append_assoc, List.append_nil]
    exact congrArg Prod.snd (cut_append target.noSep _)
  unfold countWithin
  rw [hcut]
  show (decide ((be 8 n).length = 8) && decide (ofBe (be 8 n) ≤ last)) = _
  rw [be_length, ofBe_be_of_lt (two64 ▸ hn), decide_eq_true rfl, Bool.true_and]

theorem afterToken_lt_word (since : Nat) : afterToken since < 256^8 :=
  two64 ▸ Nat.mod_lt _ (Nat.two_pow_pos 64)

/-- the rows that `keys_changed` reads: those of the target with a count behind the token, up to the
last one -/
theorem mem_changesWithin {db : Db} (hkeyed : ∀ row ∈ db.keychanges.rows, IsKeyChangeKey row.1)
    {since last : Nat} {row : Bytes × UserId} :
    row ∈ (db.keychanges.above (keyRows target) 8 (afterToken since)).takeWhile
        (fun row => countWithin last row.1) ↔
      ∃ n u, n < 2^64 ∧ afterToken since ≤ n ∧ n ≤ last ∧
        db.keychanges.get (keychangeid target n) = some u ∧ row = (keychangeid target n, u) := by
  have hrows : ∀ row ∈ db.keychanges.above (keyRows target) 8 (afterToken since),
      ∃ n, n < 2^64 ∧ row.1 = keychangeid target n := by
    intro row hrow
    obtain ⟨hin, -, hpre⟩ := (db.keychanges.mem_above_iff _ _ _ _).mp hrow
    obtain ⟨t, n, hn, hkey⟩ := hkeyed row hin
    rw [hkey] at hpre
    obtain ⟨rest, hrest⟩ := hpre
    obtain ⟨rfl, -⟩ := keyRows_append_inj hrest
    exact ⟨n, hn, hkey⟩
  have hsorted : (db.keychanges.above (keyRows target) 8 (afterToken since)).Pairwise
      (fun a b => countWithin last b.1 = true → countWithin last a.1 = true) := by
    refine (db.keychanges.above_sorted _ _ _).imp_of_mem fun {a b} ha hb hlt hwithin => ?_
    obtain ⟨n, hn, hna⟩ := hrows a ha
    obtain ⟨m, hm, hmb⟩ := hrows b hb
    rw [hna, countWithin_keychangeid target hn, decide_eq_true_eq]
    rw [hmb, countWithin_keychangeid target hm, decide_eq_true_eq] at hwithin
    rw [hna, hmb] at hlt
    have hle := (streamKey_le_iff (keyRows target) (two64 ▸ hn) (two64 ▸ hm) [] []).mp hlt.le
    omega
  rw [Tree.takeWhile_eq_filter hsorted, List.mem_filter]
  refine ⟨fun h => ?_, fun h => ?_⟩
  · obtain ⟨habove, hwithin⟩ := h
    obtain ⟨n, hn, hkey⟩ := hrows row habove
    obtain ⟨key, u⟩ := row
    change key = keychangeid target n at hkey
    subst hkey
    rw [countWithin_keychangeid target hn, decide_eq_true_eq] at hwithin
    obtain ⟨hin, hbound⟩ :=
      (db.keychanges.mem_above (afterToken_lt_word since) (two64 ▸ hn) [] u).mp habove
    exact ⟨n, u, hn, hbound, hwithin, (db.keychanges.get_eq_some_iff _ _).mpr hin, rfl⟩
  · obtain ⟨n, u, hn, hbound, hlast, hget, rfl⟩ := h
    refine ⟨(db.keychanges.mem_above (afterToken_lt_word since) (two64 ▸ hn) [] u).mpr
      ⟨(db.keychanges.get_eq_some_iff _ _).mp hget, hbound⟩, ?_⟩
    rw [countWithin_keychangeid target hn, decide_eq_true_eq]
    exact hlast

section
variable {since c : Nat} (hsince : since < c) (hc : c < 2^64)
variable {db : Db}
include hsince hc

theorem afterToken_le : afterToken since ≤ c := by
  unfold afterToken
  exact (Nat.mod_le _ _).trans hsince

theorem afterToken_lt : afterToken since < 256^8 := by
  have hle := afterToken_le hsince hc
  have h64 := two64
  omega

theorem mem_keysChanged (hkeyed : ∀ row ∈ db.keychanges.rows, ∃ target n,
      n < 2^64 ∧ row.1 = keychangeid target n) (hrow : db.keychanges.get (keychangeid target c) = some u) :
    u ∈ db.keysChanged target since none :=
  List.mem_map.mpr ⟨(keychangeid target c, u), (mem_changesWithin hkeyed).mpr
    ⟨c, u, hc, afterToken_le hsince hc, Nat.le_sub_one_of_lt hc, hrow, rfl⟩, rfl⟩

theorem mem_readreceiptsSince (I : Ids) {event : JsonObject}
    (hrow : db.readreceipts.get (readreceiptid r c u) = some event) :
    (u, c, JsonObject.remove event "room_id") ∈ db.readreceiptsSince I r since := by
  refine List.mem_filterMap.mpr ⟨(readreceiptid r c u, event), ?_, ?_⟩
  · exact (db.readreceipts.mem_above (afterToken_lt hsince hc) (two64 ▸ hc) _ event).mpr
      ⟨(db.readreceipts.get_eq_some_iff _ _).mp hrow, afterToken_le hsince hc⟩
  · obtain ⟨hcount, huser⟩ := readreceiptid_parts r c u
    show (if I.utf8 _ then _ else _) = _
    rw [huser, hcount, I.utf8_text u.toText, if_pos rfl, I.parseUserId_bytes,
      ofBe_be_of_lt (two64 ▸ hc)]
    rfl

theorem get_changesSince {scope : Text} {kind : Text} {data : Json}
    (hkeyed : ∀ row ∈ db.accountdata.rows, ∃ s v n k, n < 2^64 ∧ row.1 = roomuserdataid s v n k)
    (hrow : db.accountdata.get (roomuserdataid scope u c kind) = some data)
    (hlast : ∀ n d, n < 2^64 → db.accountdata.get (roomuserdataid scope u n kind) = some d → n ≤ c) :
    (db.changesSince scope u since).get kind.bytes = some data := by
  have hkind : ∀ s v n k, afterLast (roomuserdataid s v n k) = k.bytes := fun s v n k => by
    unfold roomuserdataid streamKey
    rw [← List.append_assoc]
    exact afterLast_append _ k.noSep
  have hmem : (roomuserdataid scope u c kind, data) ∈
      db.accountdata.above (accountRows scope u) 8 (afterToken since) :=
    (db.accountdata.mem_above (afterToken_lt hsince hc) (two64 ▸ hc) _ data).mpr
      ⟨(db.accountdata.get_eq_some_iff _ _).mp hrow, afterToken_le hsince hc⟩
  obtain ⟨before, behind, hsplit⟩ := List.append_of_mem hmem
  have hsorted := db.accountdata.above_sorted (accountRows scope u) 8 (afterToken since)
  rw [hsplit, List.pairwise_append] at hsorted
  have hgreater := (List.pairwise_cons.mp hsorted.2.1).1
  -- a later row of this kind would have a greater count
  have hbehind : ∀ y ∈ behind, afterLast y.1 ≠ afterLast (roomuserdataid scope u c kind) := by
    rintro ⟨key, d⟩ hy heq
    have habove : (key, d) ∈ db.accountdata.above (accountRows scope u) 8 (afterToken since) := by
      rw [hsplit]
      exact List.mem_append_right _ (List.mem_cons_of_mem _ hy)
    obtain ⟨hin, _, hpre⟩ := (db.accountdata.mem_above_iff _ _ _ _).mp habove
    obtain ⟨s, v, n, k, hn, hkey⟩ := hkeyed _ hin
    change key = roomuserdataid s v n k at hkey
    subst hkey
    rw [hkind, hkind] at heq
    obtain ⟨a, ha⟩ := hpre
    unfold roomuserdataid streamKey accountRows at ha
    rw [List.append_assoc, List.append_assoc, List.cons_append, List.cons_append] at ha
    obtain ⟨hscope, hrest⟩ := sep_append_inj scope.noSep s.noSep ha
    rw [List.append_assoc, List.append_assoc] at hrest
    obtain ⟨huser, _⟩ := sep_append_inj u.noSep v.noSep hrest
    have hs : s = scope := by
      cases s
      cases scope
      cases hscope
      rfl
    have hk : k = kind := by
      cases k
      cases kind
      cases heq
      rfl
    have hv := UserId.ext_bytes huser
    subst hs hk hv
    have hle := hlast n d hn ((db.accountdata.get_eq_some_iff _ _).mpr hin)
    have hlt : roomuserdataid s u c k < roomuserdataid s u n k := hgreater _ hy
    have hback : roomuserdataid s u n k ≤ roomuserdataid s u c k := by
      refine (streamKey_le_iff _ (two64 ▸ hn) (two64 ▸ hc) _ _).mpr ?_
      rcases Nat.lt_or_eq_of_le hle with hl | he
      · exact Or.inl hl
      · exact Or.inr ⟨he, le_refl _⟩
    exact absurd hlt (not_lt.mpr hback)
  unfold Db.changesSince
  rw [hsplit, ← hkind scope u c kind]
  exact Tree.get_foldl_insert_last (fun row : Bytes × Json => afterLast row.1) Prod.snd before behind
    (roomuserdataid scope u c kind, data) .empty hbehind

end

end SyncUpdates
end Grapevine
