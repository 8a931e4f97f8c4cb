import Grapevine.Members.Consistent

/-!
# The roster of a room

`updateJoinedCount` derives two counts and the servers of a room from the membership tables.  The
servers are kept twice, under `room ++ 0xFF ++ server` for the fan-out of a room's events and under
`server ++ 0xFF ++ room` for the access checks of a server.

* `rowsOf`      the rows of a room in a table of memberships;
* `Mirrored`    the two tables of servers have the same pairs;
* `Derived`     what a room has after `updateJoinedCount`.

Main result: `joinedCount_derived`.
-/

namespace Grapevine
open Kv

variable (env : Env)

/-! ## reads -/

namespace Db

def roomJoinedCount (db : Db) (r : RoomId) : Option Nat := db.roster.roomidJoinedcount r

def roomInvitedCount (db : Db) (r : RoomId) : Option Nat := db.roster.roomidInvitedcount r

def serverRooms (db : Db) (server : ServerName) : List (Except Error RoomId) :=
  (db.roster.serverroomids.scanPrefix (server.bytes ++ [sep])).map
    (fun row => parseLast env.ids env.ids.parseRoomId "RoomId" "serverroomids" row.1)

end Db

theorem ServerName.ext_toText {a b : ServerName} (h : a.toText = b.toText) : a = b := by
  obtain ⟨a⟩ := a
  obtain ⟨b⟩ := b
  cases h
  rfl

theorem RoomId.ext_toText {a b : RoomId} (h : a.toText = b.toText) : a = b := by
  obtain ⟨a⟩ := a
  obtain ⟨b⟩ := b
  cases h
  rfl

/-! ## scans -/

section
variable {ν : Type}

/-- the rows of a room -/
def rowsOf (r : RoomId) (t : Tree Bytes ν) : List (Bytes × ν) :=
  t.rows.filter (fun row => (r.bytes ++ [sep]).isPrefixOf row.1)

theorem scanPrefix_rowsOf (r : RoomId) (t : Tree Bytes ν) :
    t.scanPrefix (r.bytes ++ [sep]) = rowsOf r t := by
  rw [t.scanPrefix_eq]
  unfold rowsOf
  exact List.filter_congr fun row _ => by
    rw [Bool.eq_iff_iff, decide_eq_true_iff, List.isPrefixOf_iff_prefix]

variable {α β : Type} {f : α → Text} {g : β → Text} {t : Tree Bytes ν}

section
variable (h : Glued α β f g t) (a : α) {read : Bytes × ν → Except Error β}
  (hread : ∀ b v, read (glue (f a) (g b), v) = .ok b)
include h hread

/-- every row of a scan can be read -/
theorem ok_of_scan (x : Except Error β) (hx : x ∈ (t.scanPrefix ((f a).bytes ++ [sep])).map read) :
    ∃ b, x = .ok b := by
  obtain ⟨⟨k, v⟩, hrow, rfl⟩ := List.mem_map.mp hx
  obtain ⟨_, b, hk⟩ := (mem_scan_glued h a _).mp hrow
  obtain rfl : k = glue (f a) (g b) := hk
  exact ⟨b, hread b v⟩

/-- and a scan yields what has a row -/
theorem mem_read_scan (b : β) :
    .ok b ∈ (t.scanPrefix ((f a).bytes ++ [sep])).map read ↔
      (t.get (glue (f a) (g b))).isSome = true := by
  rw [List.mem_map, Option.isSome_iff_exists]
  constructor
  · rintro ⟨⟨k, v⟩, hrow, hx⟩
    obtain ⟨hmem, b', hk⟩ := (mem_scan_glued h a _).mp hrow
    obtain rfl : k = glue (f a) (g b') := hk
    rw [hread b' v] at hx
    cases hx
    exact ⟨v, (t.get_eq_some_iff _ _).mpr hmem⟩
  · rintro ⟨v, hv⟩
    exact ⟨(glue (f a) (g b), v), (mem_scan_glued h a _).mpr
      ⟨(t.get_eq_some_iff _ _).mp hv, b, rfl⟩, hread b v⟩

end

theorem mem_toOptions {l : List (Except Error β)} (b : β) :
    b ∈ l.filterMap Except.toOption ↔ .ok b ∈ l := by
  rw [List.mem_filterMap]
  constructor
  · rintro ⟨x, hx, he⟩
    cases x with
    | ok a =>
      cases he
      exact hx
    | error e => cases he
  · exact fun hb => ⟨.ok b, hb, rfl⟩

theorem length_toOptions {l : List (Except Error β)} (h : ∀ x ∈ l, ∃ b, x = .ok b) :
    (l.filterMap Except.toOption).length = l.length := by
  induction l with
  | nil => rfl
  | cons x l ih =>
    obtain ⟨b, rfl⟩ := h x List.mem_cons_self
    have htail := ih fun y hy => h y (List.mem_cons_of_mem _ hy)
    exact congrArg (· + 1) htail

end

/-! ## the servers of a room -/

/-- the two tables of servers have the same pairs of a room and a server -/
structure Mirrored (t : RosterTables) : Prop where
  rooms : Glued RoomId ServerName RoomId.toText ServerName.toText t.roomserverids
  servers : Glued ServerName RoomId ServerName.toText RoomId.toText t.serverroomids
  mirror : ∀ (r : RoomId) (s : ServerName),
    t.roomserverids.get (glue r.toText s.toText) = t.serverroomids.get (glue s.toText r.toText)

theorem mirrored_empty : Mirrored Db.empty.roster := ⟨glued_empty, glued_empty, fun _ _ => rfl⟩

/-- the servers that the code removes and then inserts for a room -/
def move (r : RoomId) (gone new : List ServerName) (t : RosterTables) : RosterTables :=
  { t with
    roomserverids := new.foldl (fun t s => t.insert (r.bytes ++ sep :: s.bytes) ())
      (gone.foldl (fun t s => t.remove (r.bytes ++ sep :: s.bytes)) t.roomserverids)
    serverroomids := new.foldl (fun t s => t.insert (s.bytes ++ sep :: r.bytes) ())
      (gone.foldl (fun t s => t.remove (s.bytes ++ sep :: r.bytes)) t.serverroomids) }

theorem mem_map_glue {r q : RoomId} {s : ServerName} {l : List ServerName} :
    glue q.toText s.toText ∈ l.map (fun s => r.bytes ++ sep :: s.bytes) ↔ q = r ∧ s ∈ l := by
  rw [List.mem_map]
  constructor
  · rintro ⟨s', hs', he⟩
    obtain ⟨hq, hs⟩ := glue_inj (a := r.toText) (b := s'.toText) he
    cases RoomId.ext_toText hq
    cases ServerName.ext_toText hs
    exact ⟨rfl, hs'⟩
  · rintro ⟨rfl, hs⟩
    exact ⟨s, hs, rfl⟩

theorem mem_map_glue' {r q : RoomId} {s : ServerName} {l : List ServerName} :
    glue s.toText q.toText ∈ l.map (fun s => s.bytes ++ sep :: r.bytes) ↔ q = r ∧ s ∈ l := by
  rw [List.mem_map]
  constructor
  · rintro ⟨s', hs', he⟩
    obtain ⟨hs, hq⟩ := glue_inj (a := s'.toText) (b := r.toText) he
    cases RoomId.ext_toText hq
    cases ServerName.ext_toText hs
    exact ⟨rfl, hs'⟩
  · rintro ⟨rfl, hs⟩
    exact ⟨s, hs, rfl⟩

/-- whether a server is in a room afterwards -/
theorem move_get (r : RoomId) (gone new : List ServerName) (t : RosterTables) (q : RoomId)
    (s : ServerName) :
    (move r gone new t).roomserverids.get (glue q.toText s.toText) =
      if q = r ∧ s ∈ new then some () else if q = r ∧ s ∈ gone then none
      else t.roomserverids.get (glue q.toText s.toText) := by
  unfold move
  rw [Tree.get_insert_all, Tree.get_remove_all]
  simp only [mem_map_glue]

theorem move_get' (r : RoomId) (gone new : List ServerName) (t : RosterTables) (q : RoomId)
    (s : ServerName) :
    (move r gone new t).serverroomids.get (glue s.toText q.toText) =
      if q = r ∧ s ∈ new then some () else if q = r ∧ s ∈ gone then none
      else t.serverroomids.get (glue s.toText q.toText) := by
  unfold move
  rw [Tree.get_insert_all, Tree.get_remove_all]
  simp only [mem_map_glue']

section
variable {ν α β γ : Type} {f : α → Text} {g : β → Text}
variable {t : Tree Bytes ν}

theorem Glued.foldl_insert (h : Glued α β f g t) (l : List γ) (a : γ → α) (b : γ → β) (v : ν) :
    Glued α β f g (l.foldl (fun t x => t.insert (glue (f (a x)) (g (b x))) v) t) := by
  induction l generalizing t with
  | nil => exact h
  | cons x l ih => exact ih (h.insert (a x) (b x) v)

theorem Glued.foldl_remove (h : Glued α β f g t) (l : List γ) (k : γ → Bytes) :
    Glued α β f g (l.foldl (fun t x => t.remove (k x)) t) := by
  induction l generalizing t with
  | nil => exact h
  | cons x l ih => exact ih (h.remove (k x))

end

theorem Mirrored.move {t : RosterTables} (h : Mirrored t) (r : RoomId) (gone new : List ServerName) :
    Mirrored (move r gone new t) where
  rooms := (h.rooms.foldl_remove gone _).foldl_insert new (fun _ => r) (fun s => s) ()
  servers := (h.servers.foldl_remove gone _).foldl_insert new (fun s => s) (fun _ => r) ()
  mirror q s := by rw [move_get, move_get', h.mirror q s]

namespace Db

variable {env}
variable {db : Db}

theorem mem_roomServers (h : Mirrored db.roster) (r : RoomId) (s : ServerName) :
    .ok s ∈ db.roomServers env r ↔
      (db.roster.roomserverids.get (glue r.toText s.toText)).isSome = true :=
  mem_read_scan h.rooms r (fun s _ => parseLast_server env.ids _ _ r.bytes s) s

theorem mem_serverRooms (h : Mirrored db.roster) (r : RoomId) (s : ServerName) :
    .ok r ∈ db.serverRooms env s ↔ db.serverInRoom s r = true :=
  mem_read_scan h.servers s (fun r _ => parseLast_room env.ids _ _ s.bytes r) r

theorem mem_roomMembers (h : MemberTables.Paired db.members) (r : RoomId) (u : UserId) :
    .ok u ∈ db.members.roomMembers env.ids r ↔
      (db.members.roomuseridJoined.get (MemberTables.roomuserId r u)).isSome = true :=
  mem_read_scan h.roomuseridJoined r (fun u _ => parseLast_user env.ids _ _ r.bytes u) u

theorem length_roomMembers (h : MemberTables.Paired db.members) (r : RoomId) :
    ((db.members.roomMembers env.ids r).filterMap Except.toOption).length =
      (rowsOf r db.members.roomuseridJoined).length := by
  rw [length_toOptions, MemberTables.roomMembers, List.length_map, scanPrefix_rowsOf]
  exact ok_of_scan h.roomuseridJoined r fun u _ => parseLast_user env.ids _ _ r.bytes u

theorem length_roomMembersInvited (h : MemberTables.Paired db.members) (r : RoomId) :
    ((db.members.roomMembersInvited env.ids r).filterMap Except.toOption).length =
      (rowsOf r db.members.roomuseridInvitecount).length := by
  rw [length_toOptions, MemberTables.roomMembersInvited, List.length_map, scanPrefix_rowsOf]
  exact ok_of_scan h.roomuseridInvitecount r fun u _ => parseLast_user env.ids _ _ r.bytes u

end Db

/-! ## what is derived -/

namespace Db

variable {db : Db}

/-- the servers of the joined members, one for each member -/
def joinedServers (db : Db) (r : RoomId) : List ServerName :=
  ((db.members.roomMembers env.ids r).filterMap Except.toOption).map env.ids.serverName

def oldServers (db : Db) (r : RoomId) : List ServerName :=
  (db.roomServers env r).filterMap Except.toOption

/-- the tables of servers after `updateJoinedCount` -/
def moved (db : Db) (r : RoomId) : RosterTables :=
  move r ((db.oldServers env r).filter (fun s => s ∉ db.joinedServers env r))
    ((db.joinedServers env r).filter (fun s => s ∉ db.oldServers env r)) db.roster

variable {env}

theorem updateJoinedCount_mirrored (h : Mirrored db.roster) (r : RoomId) :
    Mirrored (updateJoinedCount env r db).2.roster := by
  have hmoved : Mirrored (db.moved env r) := h.move r _ _
  exact ⟨hmoved.rooms, hmoved.servers, hmoved.mirror⟩

/-- afterwards a server is in the room iff a joined member is of it -/
theorem moved_get (h : Mirrored db.roster) (r : RoomId) (s : ServerName) :
    ((db.moved env r).roomserverids.get (glue r.toText s.toText)).isSome = true ↔
      s ∈ db.joinedServers env r := by
  have hold : s ∈ db.oldServers env r ↔
      (db.roster.roomserverids.get (glue r.toText s.toText)).isSome = true :=
    (mem_toOptions s).trans (mem_roomServers h r s)
  unfold moved
  rw [move_get]
  simp only [true_and, List.mem_filter, decide_eq_true_iff]
  by_cases hj : s ∈ db.joinedServers env r
  · by_cases ho : s ∈ db.oldServers env r
    · simp only [hj, ho, not_true, and_false, if_false, hold.mp ho]
    · simp only [hj, ho, not_false_iff, and_self, if_true, Option.isSome_some]
  · by_cases ho : s ∈ db.oldServers env r
    · simp only [hj, ho, false_and, if_false, not_false_iff, and_self, if_true, Option.isSome_none,
        Bool.false_eq_true]
    · simp only [hj, ho, false_and, if_false, ← hold, not_false_iff]

/-- the rows of another room stay as they are -/
theorem moved_get_other {r q : RoomId} (hq : q ≠ r) (s : ServerName) :
    (db.moved env r).roomserverids.get (glue q.toText s.toText) =
      db.roster.roomserverids.get (glue q.toText s.toText) ∧
    (db.moved env r).serverroomids.get (glue s.toText q.toText) =
      db.roster.serverroomids.get (glue s.toText q.toText) := by
  unfold moved
  rw [move_get, move_get']
  simp only [hq, false_and, if_false, and_self]

end Db

/-- the counts and the servers of a room are those of its members -/
structure Derived (db : Db) (r : RoomId) : Prop where
  joinedCount : db.roomJoinedCount r = some (rowsOf r db.members.roomuseridJoined).length
  invitedCount : db.roomInvitedCount r = some (rowsOf r db.members.roomuseridInvitecount).length
  readable : ∀ x ∈ db.roomServers env r, ∃ s, x = .ok s
  servers : ∀ s, .ok s ∈ db.roomServers env r ↔
    ∃ u, db.members.isJoined u r = true ∧ env.ids.serverName u = s
  inRoom : ∀ s, db.serverInRoom s r = true ↔ .ok s ∈ db.roomServers env r
  rooms : ∀ s, .ok r ∈ db.serverRooms env s ↔ .ok s ∈ db.roomServers env r

/-- the roster of a room is as it was -/
structure SameRoster (db db' : Db) (q : RoomId) : Prop where
  joinedCount : db'.roomJoinedCount q = db.roomJoinedCount q
  invitedCount : db'.roomInvitedCount q = db.roomInvitedCount q
  servers : ∀ s : ServerName, db'.roster.roomserverids.get (glue q.toText s.toText) =
    db.roster.roomserverids.get (glue q.toText s.toText)
  rooms : ∀ s : ServerName, db'.roster.serverroomids.get (glue s.toText q.toText) =
    db.roster.serverroomids.get (glue s.toText q.toText)

variable {env}

theorem derived_updateJoinedCount {db : Db} (hm : MemberTables.Paired db.members)
    (hc : ∀ u r, MemberTables.ConsistentAt db.members u r) (h : Mirrored db.roster) (r : RoomId) :
    Derived env (Db.updateJoinedCount env r db).2 r := by
  have hafter : Mirrored (Db.updateJoinedCount env r db).2.roster :=
    Db.updateJoinedCount_mirrored h r
  have hservers : ∀ s, .ok s ∈ (Db.updateJoinedCount env r db).2.roomServers env r ↔
      s ∈ db.joinedServers env r := fun s =>
    (Db.mem_roomServers hafter r s).trans (Db.moved_get h r s)
  constructor
  · exact (if_pos rfl).trans (congrArg some (Db.length_roomMembers hm r))
  · exact (if_pos rfl).trans (congrArg some (Db.length_roomMembersInvited hm r))
  · exact ok_of_scan hafter.rooms r fun s _ => parseLast_server env.ids _ _ r.bytes s
  · intro s
    rw [hservers s, Db.joinedServers, List.mem_map]
    refine exists_congr fun u => and_congr_left fun _ => ?_
    rw [mem_toOptions, Db.mem_roomMembers hm r u, (hc u r).joined]
    rfl
  · intro s
    rw [Db.mem_roomServers hafter r s, hafter.mirror r s]
    rfl
  · intro s
    rw [Db.mem_serverRooms hafter r s, Db.mem_roomServers hafter r s, hafter.mirror r s]
    rfl

theorem sameRoster_updateJoinedCount (db : Db) {r q : RoomId} (hq : q ≠ r) :
    SameRoster db (Db.updateJoinedCount env r db).2 q where
  joinedCount := Function.update_of_ne hq _ _
  invitedCount := Function.update_of_ne hq _ _
  servers s := (Db.moved_get_other hq s).1
  rooms s := (Db.moved_get_other hq s).2

/-! ## runs -/

/-- a call keeps the two tables of servers alike -/
theorem MembershipCall.mirrored (c : MembershipCall) {db : Db} (h : Mirrored db.roster) :
    Mirrored (c.comp env db).2.roster := by
  cases c with
  | update r u membership sender lastState updateCount =>
    obtain ⟨db', ⟨hr, _⟩, he⟩ :=
      Db.updateMembership_split env r u membership sender lastState updateCount db
    have h' : Mirrored db'.roster := by
      rw [hr]
      exact h
    rcases he with he | he
    · exact he.symm ▸ h'
    · exact he.symm ▸ Db.updateJoinedCount_mirrored h' r
  | forget r u => exact h
  | updateJoinedCount r => exact Db.updateJoinedCount_mirrored h r

namespace MembershipRun

variable {db : Db}

theorem mirrored (h : MembershipRun env db) : Mirrored db.roster := by
  induction h with
  | start db _ hr =>
    rw [hr]
    exact mirrored_empty
  | call db c _ ih => exact c.mirrored ih
  | other db db' _ hr _ ih =>
    rw [hr]
    exact ih

/-- after `updateJoinedCount` of a room its counts and its servers are those of the members, both
ways to ask for a server agree, and nothing of another room has changed -/
theorem joinedCount_derived (h : MembershipRun env db) (r : RoomId) :
    Derived env (Db.updateJoinedCount env r db).2 r ∧
      (Db.updateJoinedCount env r db).2.members = db.members ∧
      ∀ q, q ≠ r → SameRoster db (Db.updateJoinedCount env r db).2 q :=
  ⟨derived_updateJoinedCount h.paired h.consistentAt h.mirrored r, rfl,
    fun _ hq => sameRoster_updateJoinedCount db hq⟩

/-- a member joins a room, and its servers are derived -/
theorem joinedCount_derived_join :
    let db := ((MembershipCall.update ⟨.ascii "!r:a"⟩ ⟨.ascii "@u:b"⟩ .join ⟨.ascii "@u:b"⟩ none
      false).comp Env.plain Db.empty).2
    db.roomServers Env.plain ⟨.ascii "!r:a"⟩ = [] ∧
      Derived Env.plain (Db.updateJoinedCount Env.plain ⟨.ascii "!r:a"⟩ db).2 ⟨.ascii "!r:a"⟩ :=
  ⟨rfl, (joinedCount_derived ((start Db.empty rfl rfl).call _ _) ⟨.ascii "!r:a"⟩).1⟩

end MembershipRun
end Grapevine
