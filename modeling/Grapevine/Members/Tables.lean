import Grapevine.Data.Ids
import Grapevine.Lib.Tree
import Mathlib.Data.List.Nodup

/-!
# The membership tables

Every membership is stored twice, under `user ++ 0xFF ++ room` and under
`room ++ 0xFF ++ user`; a membership change writes both rows of its own kind and removes the
rows of the two other kinds.  Rows are read by key (`isJoined`, `isInvited`, `isLeft`) and by
scanning a prefix (`roomsJoined`, `roomsInvited`, `roomsLeft`, `roomMembers`).

Main result: `roomsJoined_exact_iff`.  The scan of `roomsJoined` starts from the user id
WITHOUT the separator, so it also yields the rooms of every user whose id merely starts with
this id; it is exact for a user iff no such other user is joined anywhere.  The scans that
push the separator are exact for every user (`roomsInvited_rooms`, `roomsLeft_rooms`).
-/

namespace Grapevine
open Kv

structure MemberTables where
  userroomidJoined : Tree Bytes Unit
  roomuseridJoined : Tree Bytes Unit
  userroomidInvitestate : Tree Bytes (List Json)
  roomuseridInvitecount : Tree Bytes Nat
  userroomidLeftstate : Tree Bytes (List Json)
  roomuseridLeftcount : Tree Bytes Nat
  roomuseroncejoinedids : Tree Bytes Unit

namespace MemberTables

variable {t : MemberTables} {u v : UserId} {q : RoomId}

def empty : MemberTables := ⟨.empty, .empty, .empty, .empty, .empty, .empty, .empty⟩

def userroomId (u : UserId) (r : RoomId) : Bytes := u.bytes ++ sep :: r.bytes
def roomuserId (r : RoomId) (u : UserId) : Bytes := r.bytes ++ sep :: u.bytes

/-! ## writes -/

def markAsOnceJoined (t : MemberTables) (u : UserId) (r : RoomId) : MemberTables :=
  { t with roomuseroncejoinedids := t.roomuseroncejoinedids.insert (userroomId u r) () }

def markAsJoined (t : MemberTables) (u : UserId) (r : RoomId) : MemberTables :=
  { t with
    userroomidJoined := t.userroomidJoined.insert (userroomId u r) ()
    roomuseridJoined := t.roomuseridJoined.insert (roomuserId r u) ()
    userroomidInvitestate := t.userroomidInvitestate.remove (userroomId u r)
    roomuseridInvitecount := t.roomuseridInvitecount.remove (roomuserId r u)
    userroomidLeftstate := t.userroomidLeftstate.remove (userroomId u r)
    roomuseridLeftcount := t.roomuseridLeftcount.remove (roomuserId r u) }

/-- `count` is the `next_count` the call draws -/
def markAsInvited (t : MemberTables) (u : UserId) (r : RoomId) (lastState : Option (List Json))
    (count : Nat) : MemberTables :=
  { t with
    userroomidInvitestate := t.userroomidInvitestate.insert (userroomId u r) (lastState.getD [])
    roomuseridInvitecount := t.roomuseridInvitecount.insert (roomuserId r u) count
    userroomidJoined := t.userroomidJoined.remove (userroomId u r)
    roomuseridJoined := t.roomuseridJoined.remove (roomuserId r u)
    userroomidLeftstate := t.userroomidLeftstate.remove (userroomId u r)
    roomuseridLeftcount := t.roomuseridLeftcount.remove (roomuserId r u) }

def markAsLeft (t : MemberTables) (u : UserId) (r : RoomId) (count : Nat) : MemberTables :=
  { t with
    userroomidLeftstate := t.userroomidLeftstate.insert (userroomId u r) []
    roomuseridLeftcount := t.roomuseridLeftcount.insert (roomuserId r u) count
    userroomidJoined := t.userroomidJoined.remove (userroomId u r)
    roomuseridJoined := t.roomuseridJoined.remove (roomuserId r u)
    userroomidInvitestate := t.userroomidInvitestate.remove (userroomId u r)
    roomuseridInvitecount := t.roomuseridInvitecount.remove (roomuserId r u) }

def forget (t : MemberTables) (r : RoomId) (u : UserId) : MemberTables :=
  { t with
    userroomidLeftstate := t.userroomidLeftstate.remove (userroomId u r)
    roomuseridLeftcount := t.roomuseridLeftcount.remove (roomuserId r u) }

/-! ## reads -/

def onceJoined (t : MemberTables) (u : UserId) (r : RoomId) : Bool :=
  (t.roomuseroncejoinedids.get (userroomId u r)).isSome

def isJoined (t : MemberTables) (u : UserId) (r : RoomId) : Bool :=
  (t.userroomidJoined.get (userroomId u r)).isSome

def isInvited (t : MemberTables) (u : UserId) (r : RoomId) : Bool :=
  (t.userroomidInvitestate.get (userroomId u r)).isSome

def isLeft (t : MemberTables) (u : UserId) (r : RoomId) : Bool :=
  (t.userroomidLeftstate.get (userroomId u r)).isSome

section
variable (I : Ids)

def roomsJoined (t : MemberTables) (u : UserId) : List (Except Error RoomId) :=
  (t.userroomidJoined.scanPrefix u.bytes).map
    (fun row => parseLast I I.parseRoomId "Room ID" "userroomid_joined" row.1)

def roomsInvited (t : MemberTables) (u : UserId) : List (Except Error (RoomId × List Json)) :=
  (t.userroomidInvitestate.scanPrefix (u.bytes ++ [sep])).map
    (fun row => (parseLast I I.parseRoomId "Room ID" "userroomid_invited" row.1).map (·, row.2))

def roomsLeft (t : MemberTables) (u : UserId) : List (Except Error (RoomId × List Json)) :=
  (t.userroomidLeftstate.scanPrefix (u.bytes ++ [sep])).map
    (fun row => (parseLast I I.parseRoomId "Room ID" "userroomid_invited" row.1).map (·, row.2))

def roomMembers (t : MemberTables) (r : RoomId) : List (Except Error UserId) :=
  (t.roomuseridJoined.scanPrefix (r.bytes ++ [sep])).map
    (fun row => parseLast I I.parseUserId "User ID" "roomuserid_joined" row.1)

def roomMembersInvited (t : MemberTables) (r : RoomId) : List (Except Error UserId) :=
  (t.roomuseridInvitecount.scanPrefix (r.bytes ++ [sep])).map
    (fun row => parseLast I I.parseUserId "User ID" "roomuserid_invited" row.1)

end

/-! ## runs -/

/-- one call that changes the tables -/
inductive Op where
  | markAsOnceJoined (u : UserId) (r : RoomId)
  | markAsJoined (u : UserId) (r : RoomId)
  | markAsInvited (u : UserId) (r : RoomId) (lastState : Option (List Json)) (count : Nat)
  | markAsLeft (u : UserId) (r : RoomId) (count : Nat)
  | forget (r : RoomId) (u : UserId)

def Op.apply (t : MemberTables) : Op → MemberTables
  | .markAsOnceJoined u r => t.markAsOnceJoined u r
  | .markAsJoined u r => t.markAsJoined u r
  | .markAsInvited u r st c => t.markAsInvited u r st c
  | .markAsLeft u r c => t.markAsLeft u r c
  | .forget r u => t.forget r u

def run (t : MemberTables) (ops : List Op) : MemberTables := ops.foldl Op.apply t

/-- every key of the tree is the key of a user and a room -/
def Keyed {ν : Type} (t : Tree Bytes ν) : Prop :=
  ∀ row ∈ t.rows, ∃ (u : UserId) (r : RoomId), row.1 = userroomId u r

theorem Keyed.insert {ν : Type} {t : Tree Bytes ν} (h : Keyed t) (u : UserId) (r : RoomId) (v : ν) :
    Keyed (t.insert (userroomId u r) v) := by
  intro row hrow
  rcases (t.mem_insert _ _ _).mp hrow with rfl | ⟨h1, _⟩
  · exact ⟨u, r, rfl⟩
  · exact h row h1

theorem Keyed.remove {ν : Type} {t : Tree Bytes ν} (h : Keyed t) (k : Bytes) : Keyed (t.remove k) :=
  fun row hrow => h row ((t.mem_remove _ _).mp hrow).1

/-- the invariant of the per-user tables -/
structure WellKeyed (t : MemberTables) : Prop where
  joined : Keyed t.userroomidJoined
  invited : Keyed t.userroomidInvitestate
  left : Keyed t.userroomidLeftstate

theorem wellKeyed_empty : WellKeyed empty := by
  constructor <;> exact fun row hrow => absurd hrow (List.not_mem_nil)

theorem WellKeyed.apply (h : WellKeyed t) (op : Op) : WellKeyed (op.apply t) := by
  cases op with
  | markAsOnceJoined u r => exact ⟨h.joined, h.invited, h.left⟩
  | markAsJoined u r => exact ⟨h.joined.insert u r (), h.invited.remove _, h.left.remove _⟩
  | markAsInvited u r st c => exact ⟨h.joined.remove _, h.invited.insert u r _, h.left.remove _⟩
  | markAsLeft u r c => exact ⟨h.joined.remove _, h.invited.remove _, h.left.insert u r _⟩
  | forget r u => exact ⟨h.joined, h.invited, h.left.remove _⟩

theorem WellKeyed.run (h : WellKeyed t) (ops : List Op) : WellKeyed (t.run ops) := by
  induction ops generalizing t with
  | nil => exact h
  | cons op ops ih => exact ih (h.apply op)

/-! ## the scan of `roomsJoined` -/

theorem userroomId_inj {r : RoomId} (h : userroomId u r = userroomId v q) :
    u = v ∧ r = q := by
  obtain ⟨h1, h2⟩ := sep_append_inj u.noSep v.noSep h
  exact ⟨UserId.ext_bytes h1, RoomId.ext_bytes h2⟩

theorem isJoined_iff (t : MemberTables) (u : UserId) (r : RoomId) :
    t.isJoined u r = true ↔ (userroomId u r, ()) ∈ t.userroomidJoined.rows := by
  unfold isJoined
  rw [Option.isSome_iff_exists, ← Tree.get_eq_some_iff]
  exact ⟨fun ⟨_, h⟩ => h, fun h => ⟨(), h⟩⟩

/-! ## one seat -/

/-- the table says the same of all other users and rooms -/
def Reseats (u : UserId) (r : RoomId) (t t' : MemberTables) : Prop :=
  ∀ v q, ¬ (v = u ∧ q = r) → t'.isJoined v q = t.isJoined v q

section
variable (t : MemberTables) (u : UserId) (r : RoomId)

theorem isJoined_markAsJoined : (t.markAsJoined u r).isJoined u r = true :=
  congrArg Option.isSome (Tree.get_insert_self t.userroomidJoined (userroomId u r) ())

theorem isJoined_markAsInvited (lastState : Option (List Json)) (count : Nat) :
    (t.markAsInvited u r lastState count).isJoined u r = false :=
  congrArg Option.isSome (Tree.get_remove_self t.userroomidJoined (userroomId u r))

theorem isJoined_markAsLeft (count : Nat) : (t.markAsLeft u r count).isJoined u r = false :=
  congrArg Option.isSome (Tree.get_remove_self t.userroomidJoined (userroomId u r))

theorem userroomId_ne (h : ¬ (v = u ∧ q = r)) : userroomId v q ≠ userroomId u r :=
  fun he => h (userroomId_inj he)

theorem reseats_markAsJoined : Reseats u r t (t.markAsJoined u r) := fun _ _ h =>
  congrArg Option.isSome (Tree.get_insert_of_ne t.userroomidJoined () (userroomId_ne u r h))

theorem reseats_markAsInvited (lastState : Option (List Json)) (count : Nat) :
    Reseats u r t (t.markAsInvited u r lastState count) := fun _ _ h =>
  congrArg Option.isSome (Tree.get_remove_of_ne t.userroomidJoined (userroomId_ne u r h))

theorem reseats_markAsLeft (count : Nat) : Reseats u r t (t.markAsLeft u r count) := fun _ _ h =>
  congrArg Option.isSome (Tree.get_remove_of_ne t.userroomidJoined (userroomId_ne u r h))

end

section
variable (I : Ids)

/-- the scan yields the rooms of all the users whose id starts with `u` -/
theorem mem_roomsJoined (h : WellKeyed t) (u : UserId) (x : Except Error RoomId) :
    x ∈ t.roomsJoined I u ↔ ∃ v r, x = .ok r ∧ t.isJoined v r = true ∧ u.bytes <+: v.bytes := by
  unfold roomsJoined
  rw [List.mem_map]
  constructor
  · rintro ⟨row, hrow, rfl⟩
    obtain ⟨h1, h2⟩ := (t.userroomidJoined.mem_scanPrefix _ _).mp hrow
    obtain ⟨v, r, hk⟩ := h.joined row h1
    have e : row = (userroomId v r, ()) := Prod.ext hk rfl
    subst e
    exact ⟨v, r, parseLast_room I _ _ v.bytes r, (t.isJoined_iff v r).mpr h1,
      (text_prefix_iff u.noSep _).mp h2⟩
  · rintro ⟨v, r, rfl, hj, hp⟩
    refine ⟨(userroomId v r, ()), (t.userroomidJoined.mem_scanPrefix _ _).mpr
      ⟨(t.isJoined_iff v r).mp hj, (text_prefix_iff u.noSep _).mpr hp⟩, ?_⟩
    exact parseLast_room I _ _ v.bytes r

/-- `roomsJoined` yields exactly the rooms the user is joined to, each once -/
def RoomsJoinedExact (t : MemberTables) (u : UserId) : Prop :=
  (t.roomsJoined I u).Nodup ∧
    ∀ x, x ∈ t.roomsJoined I u ↔ ∃ r, x = .ok r ∧ t.isJoined u r = true

/-- no other user whose id starts with `u` is joined to a room -/
def NoLongerIdJoined (t : MemberTables) (u : UserId) : Prop :=
  ∀ v r, t.isJoined v r = true → u.bytes <+: v.bytes → v = u

theorem roomsJoinedExact_of (h : WellKeyed t) (hu : t.NoLongerIdJoined u) : RoomsJoinedExact I t u := by
  constructor
  · -- rows of one user in key order have different rooms
    unfold roomsJoined
    apply List.Nodup.map_on
    · intro a ha b hb hab
      obtain ⟨a1, a2⟩ := (t.userroomidJoined.mem_scanPrefix _ _).mp ha
      obtain ⟨b1, b2⟩ := (t.userroomidJoined.mem_scanPrefix _ _).mp hb
      obtain ⟨v, r, hv⟩ := h.joined a a1
      obtain ⟨w, q, hw⟩ := h.joined b b1
      have ea : a = (userroomId v r, ()) := Prod.ext hv rfl
      have eb : b = (userroomId w q, ()) := Prod.ext hw rfl
      subst ea eb
      have hvu := hu v r ((t.isJoined_iff v r).mpr a1) ((text_prefix_iff u.noSep _).mp a2)
      have hwu := hu w q ((t.isJoined_iff w q).mpr b1) ((text_prefix_iff u.noSep _).mp b2)
      have hrq : r = q := by
        have h1 := parseLast_room I "Room ID" "userroomid_joined" v.bytes r
        have h2 := parseLast_room I "Room ID" "userroomid_joined" w.bytes q
        change parseLast I I.parseRoomId _ _ (v.bytes ++ sep :: r.bytes)
          = parseLast I I.parseRoomId _ _ (w.bytes ++ sep :: q.bytes) at hab
        rw [h1, h2] at hab
        exact Except.ok.inj hab
      rw [hvu, hwu, hrq]
    · exact (t.userroomidJoined.scanPrefix_sorted u.bytes).imp
        (fun {a b} hab => fun e : a = b => absurd (congrArg Prod.fst e) (ne_of_lt hab))
  · intro x
    rw [mem_roomsJoined I h]
    constructor
    · rintro ⟨v, r, rfl, hj, hp⟩
      exact ⟨r, rfl, hu v r hj hp ▸ hj⟩
    · rintro ⟨r, rfl, hj⟩
      exact ⟨u, r, rfl, hj, List.prefix_refl _⟩

theorem noLongerIdJoined_of (h : WellKeyed t) (hx : RoomsJoinedExact I t u) : t.NoLongerIdJoined u := by
  intro v r hj hp
  -- `u` is joined to the room of `v` too, so the room is yielded for two rows
  have hok : (.ok r : Except Error RoomId) ∈ t.roomsJoined I u :=
    (mem_roomsJoined I h u _).mpr ⟨v, r, rfl, hj, hp⟩
  obtain ⟨r', e, hju⟩ := (hx.2 _).mp hok
  cases e
  have hnd := hx.1
  unfold roomsJoined at hnd
  have hv : (userroomId v r, ()) ∈ t.userroomidJoined.scanPrefix u.bytes :=
    (t.userroomidJoined.mem_scanPrefix _ _).mpr
      ⟨(t.isJoined_iff v r).mp hj, (text_prefix_iff u.noSep _).mpr hp⟩
  have hu : (userroomId u r, ()) ∈ t.userroomidJoined.scanPrefix u.bytes :=
    (t.userroomidJoined.mem_scanPrefix _ _).mpr
      ⟨(t.isJoined_iff u r).mp hju, (text_prefix_iff u.noSep _).mpr (List.prefix_refl _)⟩
  have hf := List.inj_on_of_nodup_map hnd hv hu
    ((parseLast_room I _ _ v.bytes r).trans (parseLast_room I _ _ u.bytes r).symm)
  exact (userroomId_inj (congrArg Prod.fst hf)).1

/-- **The joined rooms of a user are listed exactly iff no longer id is joined anywhere.** -/
theorem roomsJoined_exact_iff (ops : List Op) (u : UserId) :
    RoomsJoinedExact I (empty.run ops) u ↔ (empty.run ops).NoLongerIdJoined u := by
  have h : WellKeyed (empty.run ops) := wellKeyed_empty.run ops
  exact ⟨noLongerIdJoined_of I h, roomsJoinedExact_of I h⟩

end

/-- `@a:x.com` joins a room, and `@a:x.co`, joined to nothing, is told it is in this room -/
theorem roomsJoined_leaks :
    ¬ RoomsJoinedExact Ids.bytewise (empty.run [.markAsJoined ⟨.ascii "@a:x.com"⟩ ⟨.ascii "!r:x.com"⟩])
      ⟨.ascii "@a:x.co"⟩ := by
  intro h
  have hn := noLongerIdJoined_of Ids.bytewise (wellKeyed_empty.run _) h
  have he := hn ⟨.ascii "@a:x.com"⟩ ⟨.ascii "!r:x.com"⟩ (by decide) (by decide)
  exact absurd he (by decide)

/-! ## the scans with the separator -/

/-- a scan that starts with the separator sees the rows of this user only -/
theorem mem_scan_sep {ν : Type} {t : Tree Bytes ν} (h : Keyed t) (u : UserId) (row : Bytes × ν) :
    row ∈ t.scanPrefix (u.bytes ++ [sep]) ↔ row ∈ t.rows ∧ ∃ r, row.1 = userroomId u r := by
  rw [t.mem_scanPrefix]
  refine and_congr_right (fun hrow => ⟨fun hp => ?_, fun ⟨r, hr⟩ => ?_⟩)
  · obtain ⟨v, r, hk⟩ := h row hrow
    rw [hk] at hp
    have e := UserId.ext_bytes ((sep_prefix_iff u.noSep v.noSep r.bytes).mp hp)
    exact ⟨r, e ▸ hk⟩
  · rw [hr]
    exact (sep_prefix_iff u.noSep u.noSep r.bytes).mpr rfl

section
variable (I : Ids)

theorem mem_scan_rooms {t : Tree Bytes (List Json)} (h : Keyed t) (u : UserId) (r : RoomId)
    (st : List Json) :
    (.ok (r, st) : Except Error (RoomId × List Json)) ∈ (t.scanPrefix (u.bytes ++ [sep])).map
      (fun row => (parseLast I I.parseRoomId "Room ID" "userroomid_invited" row.1).map (·, row.2))
    ↔ t.get (userroomId u r) = some st := by
  rw [List.mem_map, Tree.get_eq_some_iff]
  constructor
  · rintro ⟨⟨k, st'⟩, hrow, hx⟩
    obtain ⟨h1, q, hk⟩ := (mem_scan_sep h u _).mp hrow
    change k = userroomId u q at hk
    subst hk
    change (parseLast I I.parseRoomId _ _ (u.bytes ++ sep :: q.bytes)).map (·, st') = _ at hx
    rw [parseLast_room] at hx
    cases hx
    exact h1
  · intro hrow
    refine ⟨_, (mem_scan_sep h u _).mpr ⟨hrow, r, rfl⟩, ?_⟩
    show (parseLast I I.parseRoomId _ _ (u.bytes ++ sep :: r.bytes)).map (·, st) = _
    rw [parseLast_room]
    rfl

theorem roomsInvited_rooms (ops : List Op) (u : UserId) (r : RoomId) (st : List Json) :
    .ok (r, st) ∈ (empty.run ops).roomsInvited I u
      ↔ (empty.run ops).userroomidInvitestate.get (userroomId u r) = some st :=
  mem_scan_rooms I (wellKeyed_empty.run ops).invited u r st

theorem roomsLeft_rooms (ops : List Op) (u : UserId) (r : RoomId) (st : List Json) :
    .ok (r, st) ∈ (empty.run ops).roomsLeft I u
      ↔ (empty.run ops).userroomidLeftstate.get (userroomId u r) = some st :=
  mem_scan_rooms I (wellKeyed_empty.run ops).left u r st

end

end MemberTables
end Grapevine
