import Grapevine.Lib.Common
import Grapevine.Members.Tables

/-!
# Shared rooms

The rooms that all of some users are joined to are the common elements of the rooms of each of them.  The
rows of a user are scanned with the separator, and come in the order of their room ids.

* `joinedRoomIds_sorted`, `mem_joinedRoomIds`   the room ids of one user.

Main result: `sharedRooms_exact`, for any iterators that are sorted and for the rooms of users.
-/

namespace Grapevine
open Kv

/-- `utils::common_elements`, over iterators of byte strings -/
def Utils.commonElements (iterators : List (List Bytes)) (checkOrder : Bytes → Bytes → Ordering) :
    Option (List Bytes) := Kv.commonElements checkOrder iterators

namespace MemberTables

variable {t : MemberTables}

/-! ## the function -/

/-- what is behind the first separator of a key -/
def roomIdBytes (key : Bytes) : Except Error Bytes :=
  match (cut key).2 with
  | some roomId => .ok roomId
  | none => .error (.badDatabase "Invalid userroomid_joined in db.")

/-- the room ids of one user; a key without one is skipped -/
def joinedRoomIds (t : MemberTables) (u : UserId) : List Bytes :=
  ((t.userroomidJoined.scanPrefix (u.bytes ++ [sep])).map (fun row => roomIdBytes row.1)).filterMap
    Except.toOption

section
variable (I : Ids)

def parseSharedRoom (bytes : Bytes) : Except Error RoomId :=
  if I.utf8 bytes then
    match I.parseRoomId bytes with
    | some r => .ok r
    | none => .error (.badDatabase "Invalid RoomId in userroomid_joined.")
  else .error (.badDatabase "Invalid RoomId bytes in userroomid_joined")

def getSharedRooms (t : MemberTables) (users : List UserId) : Except Error (List (Except Error RoomId)) :=
  match Utils.commonElements (users.map t.joinedRoomIds) forwards with
  | some rooms => .ok (rooms.map (parseSharedRoom I))
  | none => .error (.panic "users is not empty")

theorem parseSharedRoom_bytes (r : RoomId) : parseSharedRoom I r.bytes = .ok r := by
  unfold parseSharedRoom
  rw [I.utf8_text r.toText, if_pos rfl, I.parseRoomId_bytes r]

end

/-! ## the rooms of one user -/

theorem roomIdBytes_key (u : UserId) (r : RoomId) : roomIdBytes (userroomId u r) = .ok r.bytes := by
  unfold roomIdBytes userroomId
  rw [cut_append u.noSep]

theorem joinedRoomIds_eq (h : WellKeyed t) (u : UserId) :
    t.joinedRoomIds u
      = (t.userroomidJoined.scanPrefix (u.bytes ++ [sep])).map (fun row => row.1.drop (u.bytes.length + 1)) := by
  unfold joinedRoomIds
  rw [List.filterMap_map, ← List.filterMap_eq_map]
  refine List.filterMap_congr fun row hrow => ?_
  obtain ⟨-, r, hkey⟩ := (mem_scan_sep h.joined u row).mp hrow
  show (roomIdBytes row.1).toOption = some (row.1.drop (u.bytes.length + 1))
  rw [hkey, roomIdBytes_key]
  unfold userroomId
  rw [List.drop_append]
  simp [Except.toOption]

/-- the keys of one user are in the order of the room ids -/
theorem joinedRoomIds_sorted (h : WellKeyed t) (u : UserId) :
    (t.joinedRoomIds u).Pairwise (· < ·) := by
  rw [joinedRoomIds_eq h, List.pairwise_map]
  refine List.Pairwise.imp_of_mem (fun {a b} ha hb hab => ?_) (t.userroomidJoined.scanPrefix_sorted _)
  obtain ⟨-, r, hr⟩ := (mem_scan_sep h.joined u a).mp ha
  obtain ⟨-, q, hq⟩ := (mem_scan_sep h.joined u b).mp hb
  have hsplit : ∀ room : RoomId, userroomId u room = (u.bytes ++ [sep]) ++ room.bytes := by
    intro room
    simp [userroomId]
  have hlength : (u.bytes ++ [sep]).length = u.bytes.length + 1 := by simp
  rw [hr, hq, hsplit, hsplit, append_lt_append_iff] at hab
  rw [hr, hq, hsplit, hsplit, ← hlength, List.drop_left, List.drop_left]
  exact hab

theorem mem_joinedRoomIds (h : WellKeyed t) (u : UserId) (b : Bytes) :
    b ∈ t.joinedRoomIds u ↔ ∃ r : RoomId, b = r.bytes ∧ t.isJoined u r = true := by
  unfold joinedRoomIds
  rw [List.mem_filterMap]
  constructor
  · rintro ⟨res, hres, hb⟩
    obtain ⟨row, hrow, rfl⟩ := List.mem_map.mp hres
    obtain ⟨hin, r, hkey⟩ := (mem_scan_sep h.joined u row).mp hrow
    rw [hkey, roomIdBytes_key] at hb
    refine ⟨r, (Option.some.inj hb).symm, (t.isJoined_iff u r).mpr ?_⟩
    rw [← hkey]
    exact hin
  · rintro ⟨r, rfl, hjoined⟩
    refine ⟨.ok r.bytes, List.mem_map.mpr ⟨(userroomId u r, ()), ?_, roomIdBytes_key u r⟩, rfl⟩
    exact (mem_scan_sep h.joined u _).mpr ⟨(t.isJoined_iff u r).mp hjoined, r, rfl⟩

/-! ## the rooms of all users -/

theorem commonElements_exact {check : Bytes → Bytes → Ordering} [Std.TransCmp check] [Std.LawfulEqCmp check]
    {iterators : List (List Bytes)} (hne : iterators ≠ []) (h : ∀ it ∈ iterators, SortedBy check it) :
    ∃ l, Utils.commonElements iterators check = some l ∧ SortedBy check l ∧
      ∀ x, x ∈ l ↔ ∀ it ∈ iterators, x ∈ it := by
  obtain ⟨first, others, rfl⟩ := List.exists_cons_of_ne_nil hne
  exact commonElements_sorted h

theorem getSharedRooms_exact (I : Ids) (h : WellKeyed t) {users : List UserId} (hne : users ≠ []) :
    ∃ l, getSharedRooms I t users = .ok l ∧ l.Nodup ∧
      ∀ x, x ∈ l ↔ ∃ r, x = .ok r ∧ ∀ u ∈ users, t.isJoined u r = true := by
  have hsorted : ∀ it ∈ users.map t.joinedRoomIds, SortedBy forwards it := by
    intro it hit
    obtain ⟨u, -, rfl⟩ := List.mem_map.mp hit
    exact sortedBy_forwards.mpr (joinedRoomIds_sorted h u)
  obtain ⟨rooms, hrooms, hordered, hmem⟩ := commonElements_exact (by simpa using hne) hsorted
  simp only [List.forall_mem_map, mem_joinedRoomIds h] at hmem
  -- a common element is the id of one room, the same one for all users
  have hroom : ∀ b ∈ rooms, ∃ r : RoomId, b = r.bytes ∧ ∀ u ∈ users, t.isJoined u r = true := by
    intro b hb
    obtain ⟨v, hv⟩ := List.exists_mem_of_ne_nil users hne
    obtain ⟨r, rfl, -⟩ := (hmem b).mp hb v hv
    refine ⟨r, rfl, fun u hu => ?_⟩
    obtain ⟨q, hq, hjoined⟩ := (hmem r.bytes).mp hb u hu
    rw [RoomId.ext_bytes hq]
    exact hjoined
  refine ⟨rooms.map (parseSharedRoom I), ?_, ?_, fun x => ?_⟩
  · unfold getSharedRooms
    rw [hrooms]
  · refine List.Nodup.map_on (fun a ha b hb hab => ?_) hordered.nodup
    obtain ⟨r, rfl, -⟩ := hroom a ha
    obtain ⟨q, rfl, -⟩ := hroom b hb
    rw [parseSharedRoom_bytes, parseSharedRoom_bytes] at hab
    rw [Except.ok.inj hab]
  · rw [List.mem_map]
    constructor
    · rintro ⟨b, hb, rfl⟩
      obtain ⟨r, rfl, hall⟩ := hroom b hb
      exact ⟨r, parseSharedRoom_bytes I r, hall⟩
    · rintro ⟨r, rfl, hall⟩
      exact ⟨r.bytes, (hmem r.bytes).mpr fun u hu => ⟨r, rfl, hall u hu⟩, parseSharedRoom_bytes I r⟩

/-- **Common elements are intersections, and shared rooms are the rooms all users are joined to.** -/
theorem sharedRooms_exact :
    (∀ (check : Bytes → Bytes → Ordering) [Std.TransCmp check] [Std.LawfulEqCmp check] (iterators : List (List Bytes)),
      iterators ≠ [] → (∀ it ∈ iterators, SortedBy check it) →
      ∃ l, Utils.commonElements iterators check = some l ∧ SortedBy check l ∧
        ∀ x, x ∈ l ↔ ∀ it ∈ iterators, x ∈ it) ∧
    (∀ (I : Ids) (ops : List Op) (users : List UserId), users ≠ [] →
      ∃ l, getSharedRooms I (empty.run ops) users = .ok l ∧ l.Nodup ∧
        ∀ x, x ∈ l ↔ ∃ r, x = .ok r ∧ ∀ u ∈ users, (empty.run ops).isJoined u r = true) :=
  ⟨fun _ _ _ _ hne h => commonElements_exact hne h, fun I ops _ hne => getSharedRooms_exact I (wellKeyed_empty.run ops) hne⟩

/-- two users, one of them twice, of which one is in a second room -/
theorem sharedRooms_twice :
    let alice : UserId := ⟨.ascii "@a:x"⟩
    let bob : UserId := ⟨.ascii "@b:x"⟩
    let room : RoomId := ⟨.ascii "!r:x"⟩
    ∃ l, getSharedRooms .bytewise
        (empty.run [.markAsJoined alice room, .markAsJoined alice ⟨.ascii "!q:x"⟩, .markAsJoined bob room])
        [alice, bob, alice] = .ok l ∧ .ok room ∈ l := by
  intro alice bob room
  obtain ⟨l, hl, -, hmem⟩ := sharedRooms_exact.2 .bytewise
    [.markAsJoined alice room, .markAsJoined alice ⟨.ascii "!q:x"⟩, .markAsJoined bob room] [alice, bob, alice] (by simp)
  refine ⟨l, hl, (hmem _).mpr ⟨room, rfl, ?_⟩⟩
  decide

end MemberTables
end Grapevine
