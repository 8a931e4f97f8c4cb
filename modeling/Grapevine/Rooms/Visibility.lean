import Grapevine.Lib.ReadThrough
import Grapevine.Lib.Runs
import Grapevine.Rooms.Db

/-!
# Who can see an event

`user_can_see_event` and `server_can_see_event` decide by the history visibility at the event, and
keep what they have decided in a cache: under the user, or the server, and the state at the event.
What they look at beside this, the room and who is in it now, is not in the key, and nothing takes
an entry out when it changes.

* `userVisibility`, `serverVisibility`   the decisions;
* `Machine`                              a run of questions, with the store and the room that each
                                         entry was decided on;
* `UserSame`, `ServerSame`               what has to be as it was for the entry to be right.

Main results: `visibility_fresh_iff`, a question is answered as without the caches exactly if this is
the same (`visibility_after_leave`), and `outsider_blind`, an outsider of a room that the world cannot
read sees no event of it that has a state (`outsider_sees_outlier`).
-/

namespace Grapevine
open Kv

inductive HistoryVisibility where
  | worldReadable
  | shared
  | invited
  | joined
  | other (name : String)
deriving DecidableEq

def HistoryVisibility.ofStr (s : String) : HistoryVisibility :=
  if s = "world_readable" then .worldReadable
  else if s = "shared" then .shared
  else if s = "invited" then .invited
  else if s = "joined" then .joined
  else .other s

namespace Visibility

variable {origin : ServerName} {u : UserId} {r : RoomId} {h : Nat} {e : EventId} {v : Bool}
  {x : Except Error Bool}

/-- ruma's contents of the events that a decision looks at -/
structure Contents where
  /-- `RoomHistoryVisibilityEventContent`, by its `history_visibility` -/
  historyVisibility : JsonObject → Option HistoryVisibility
  /-- `RoomMemberEventContent`, by its `membership` -/
  membership : JsonObject → Option MembershipState

def Contents.plain : Contents where
  historyVisibility content :=
    match content.get "history_visibility" with
    | some (.str s) => some (.ofStr s)
    | _ => none
  membership := extractMembership

/-- the database and the two caches -/
structure Store where
  db : Db
  userVisibilityCache : UserId × Nat → Option Bool
  serverVisibilityCache : ServerName × Nat → Option Bool

variable (env : Env) (C : Contents)

/-! ## the decisions -/

def historyVisibility (db : Db) (shortstatehash : Nat) : Except Error HistoryVisibility := do
  match ← db.stateGet env shortstatehash (.other "m.room.history_visibility") "" with
  | none => pure .shared
  | some s =>
    match C.historyVisibility s.content with
    | some visibility => pure visibility
    | none => .error (.badDatabase "Invalid history visibility event in database.")

def userMembership (db : Db) (shortstatehash : Nat) (u : UserId) : Except Error MembershipState := do
  match ← db.stateGet env shortstatehash .roomMember (env.ids.userIdStr u) with
  | none => pure .leave
  | some s =>
    match C.membership s.content with
    | some membership => pure membership
    | none => .error (.badDatabase "Invalid room membership event in database.")

def userWasJoined (db : Db) (shortstatehash : Nat) (u : UserId) : Bool :=
  match userMembership env C db shortstatehash u with
  | .ok .join => true
  | _ => false

def userWasInvited (db : Db) (shortstatehash : Nat) (u : UserId) : Bool :=
  match userMembership env C db shortstatehash u with
  | .ok .join => true
  | .ok .invite => true
  | _ => false

/-- the members of the room that are on the server -/
def currentServerMembers (db : Db) (origin : ServerName) (r : RoomId) : List UserId :=
  ((db.members.roomMembers env.ids r).filterMap Except.toOption).filter
    (fun member => env.ids.serverName member = origin)

def serverVisibility (db : Db) (origin : ServerName) (r : RoomId) (shortstatehash : Nat) :
    Except Error Bool := do
  match ← historyVisibility env C db shortstatehash with
  | .worldReadable => pure true
  | .shared => pure true
  | .invited => pure ((currentServerMembers env db origin r).any (userWasInvited env C db shortstatehash))
  | .joined => pure ((currentServerMembers env db origin r).any (userWasJoined env C db shortstatehash))
  | .other _ => pure false

def userVisibility (db : Db) (u : UserId) (r : RoomId) (shortstatehash : Nat) : Except Error Bool := do
  match ← historyVisibility env C db shortstatehash with
  | .worldReadable => pure true
  | .shared => pure (db.members.isJoined u r)
  | .invited => pure (userWasInvited env C db shortstatehash u)
  | .joined => pure (userWasJoined env C db shortstatehash u)
  | .other _ => pure false

/-! ## the questions -/

abbrev SightComp := Comp Store Error

def serverCanSeeEvent (origin : ServerName) (r : RoomId) (e : EventId) : SightComp Bool := do
  match (← Comp.get).db.pduShortstatehash e with
  | none => pure true
  | some shortstatehash =>
    match (← Comp.get).serverVisibilityCache (origin, shortstatehash) with
    | some visibility => pure visibility
    | none =>
      let visibility ← Comp.reads (fun s => serverVisibility env C s.db origin r shortstatehash)
      Comp.modify (fun s => { s with
        serverVisibilityCache :=
          Function.update s.serverVisibilityCache (origin, shortstatehash) (some visibility) })
      pure visibility

def userCanSeeEvent (u : UserId) (r : RoomId) (e : EventId) : SightComp Bool := do
  match (← Comp.get).db.pduShortstatehash e with
  | none => pure true
  | some shortstatehash =>
    match (← Comp.get).userVisibilityCache (u, shortstatehash) with
    | some visibility => pure visibility
    | none =>
      let visibility ← Comp.reads (fun s => userVisibility env C s.db u r shortstatehash)
      Comp.modify (fun s => { s with
        userVisibilityCache := Function.update s.userVisibilityCache (u, shortstatehash) (some visibility) })
      pure visibility

/-- the store with empty caches -/
def Store.uncached (s : Store) : Store := ⟨s.db, fun _ => none, fun _ => none⟩

/-! ### as reads through a cache -/

def userLook (r : RoomId) (db : Db) (k : UserId × Nat) : Except Error (Option Bool) :=
  (userVisibility env C db k.1 r k.2).map some

def serverLook (r : RoomId) (db : Db) (k : ServerName × Nat) : Except Error (Option Bool) :=
  (serverVisibility env C db k.1 r k.2).map some

def Store.users (s : Store) : Cached Db (UserId × Nat) Bool := ⟨s.db, s.userVisibilityCache⟩
def Store.servers (s : Store) : Cached Db (ServerName × Nat) Bool := ⟨s.db, s.serverVisibilityCache⟩

variable {env C}

theorem userCanSeeEvent_none {s : Store} (h : s.db.pduShortstatehash e = none) :
    userCanSeeEvent env C u r e s = (.ok true, s) := by
  unfold userCanSeeEvent
  rw [Comp.bind_ok (Comp.get_run s), h]
  rfl

theorem serverCanSeeEvent_none {s : Store} (h : s.db.pduShortstatehash e = none) :
    serverCanSeeEvent env C origin r e s = (.ok true, s) := by
  unfold serverCanSeeEvent
  rw [Comp.bind_ok (Comp.get_run s), h]
  rfl

section
variable {r : RoomId} {e : EventId} {s : Store} {h : Nat}

theorem userCanSeeEvent_hit (hh : s.db.pduShortstatehash e = some h)
    (hv : s.userVisibilityCache (u, h) = some v) : userCanSeeEvent env C u r e s = (.ok v, s) := by
  unfold userCanSeeEvent
  rw [Comp.bind_ok (Comp.get_run s), hh]
  show (Comp.get >>= fun _ => _) s = _
  rw [Comp.bind_ok (Comp.get_run s), hv]
  rfl

theorem userCanSeeEvent_miss (hh : s.db.pduShortstatehash e = some h) (hv : s.userVisibilityCache (u, h) = none) :
    userCanSeeEvent env C u r e s = match userVisibility env C s.db u r h with
      | .ok v => (.ok v, { s with userVisibilityCache := Function.update s.userVisibilityCache (u, h) (some v) })
      | .error err => (.error err, s) := by
  unfold userCanSeeEvent
  rw [Comp.bind_ok (Comp.get_run s), hh]
  show (Comp.get >>= fun _ => _) s = _
  rw [Comp.bind_ok (Comp.get_run s), hv]
  show (Comp.reads (fun s : Store => userVisibility env C s.db u r h) >>= fun _ => _) s = _
  rw [Comp.reads_bind]
  cases userVisibility env C s.db u r h <;> rfl

theorem serverCanSeeEvent_hit (hh : s.db.pduShortstatehash e = some h)
    (hv : s.serverVisibilityCache (origin, h) = some v) :
    serverCanSeeEvent env C origin r e s = (.ok v, s) := by
  unfold serverCanSeeEvent
  rw [Comp.bind_ok (Comp.get_run s), hh]
  show (Comp.get >>= fun _ => _) s = _
  rw [Comp.bind_ok (Comp.get_run s), hv]
  rfl

theorem serverCanSeeEvent_miss (hh : s.db.pduShortstatehash e = some h)
    (hv : s.serverVisibilityCache (origin, h) = none) :
    serverCanSeeEvent env C origin r e s = match serverVisibility env C s.db origin r h with
      | .ok v => (.ok v, { s with
          serverVisibilityCache := Function.update s.serverVisibilityCache (origin, h) (some v) })
      | .error err => (.error err, s) := by
  unfold serverCanSeeEvent
  rw [Comp.bind_ok (Comp.get_run s), hh]
  show (Comp.get >>= fun _ => _) s = _
  rw [Comp.bind_ok (Comp.get_run s), hv]
  show (Comp.reads (fun s : Store => serverVisibility env C s.db origin r h) >>= fun _ => _) s = _
  rw [Comp.reads_bind]
  cases serverVisibility env C s.db origin r h <;> rfl

/-- a question is a read through the cache -/
theorem userCanSeeEvent_read (hh : s.db.pduShortstatehash e = some h) :
    (userCanSeeEvent env C u r e s).1.map some = (s.users.read (userLook env C r) (u, h)).1 ∧
      (userCanSeeEvent env C u r e s).2 =
        { s with userVisibilityCache := (s.users.read (userLook env C r) (u, h)).2.cache } := by
  cases hv : s.userVisibilityCache (u, h) with
  | some v =>
    rw [userCanSeeEvent_hit hh hv, Cached.read_hit (userLook env C r) (s := s.users) hv]
    exact ⟨rfl, rfl⟩
  | none =>
    have hcache : s.users.cache (u, h) = none := hv
    rw [userCanSeeEvent_miss hh hv]
    cases hvis : userVisibility env C s.db u r h with
    | ok v =>
      have hlook : userLook env C r s.users.store (u, h) = .ok (some v) := by
        show (userVisibility env C s.db u r h).map some = _
        rw [hvis]
        rfl
      simp only [Cached.read, hcache, hlook]
      exact ⟨rfl, rfl⟩
    | error err =>
      have hlook : userLook env C r s.users.store (u, h) = .error err := by
        show (userVisibility env C s.db u r h).map some = _
        rw [hvis]
        rfl
      simp only [Cached.read, hcache, hlook]
      exact ⟨rfl, rfl⟩

theorem serverCanSeeEvent_read (hh : s.db.pduShortstatehash e = some h) :
    (serverCanSeeEvent env C origin r e s).1.map some = (s.servers.read (serverLook env C r) (origin, h)).1 ∧
      (serverCanSeeEvent env C origin r e s).2 =
        { s with serverVisibilityCache := (s.servers.read (serverLook env C r) (origin, h)).2.cache } := by
  cases hv : s.serverVisibilityCache (origin, h) with
  | some v =>
    rw [serverCanSeeEvent_hit hh hv, Cached.read_hit (serverLook env C r) (s := s.servers) hv]
    exact ⟨rfl, rfl⟩
  | none =>
    have hcache : s.servers.cache (origin, h) = none := hv
    rw [serverCanSeeEvent_miss hh hv]
    cases hvis : serverVisibility env C s.db origin r h with
    | ok v =>
      have hlook : serverLook env C r s.servers.store (origin, h) = .ok (some v) := by
        show (serverVisibility env C s.db origin r h).map some = _
        rw [hvis]
        rfl
      simp only [Cached.read, hcache, hlook]
      exact ⟨rfl, rfl⟩
    | error err =>
      have hlook : serverLook env C r s.servers.store (origin, h) = .error err := by
        show (serverVisibility env C s.db origin r h).map some = _
        rw [hvis]
        rfl
      simp only [Cached.read, hcache, hlook]
      exact ⟨rfl, rfl⟩

end

/-! ## runs -/

variable (env C)

/-- what can be read at a state stays: its rows are not written again -/
def SnapshotsStay (db db' : Db) : Prop :=
  ∀ h v, historyVisibility env C db h = .ok v →
    historyVisibility env C db' h = .ok v ∧ ∀ u, userMembership env C db' h u = userMembership env C db h u

/-- the store, and the room and the database that each entry of the caches was decided on -/
structure Machine where
  store : Store
  userOrigin : Cached.Origin Db (UserId × Nat) RoomId
  serverOrigin : Cached.Origin Db (ServerName × Nat) RoomId

inductive Act where
  /-- the rest of the program writes -/
  | change (db : Db)
  /-- the caches are full -/
  | evict
  | user (u : UserId) (r : RoomId) (e : EventId)
  | server (origin : ServerName) (r : RoomId) (e : EventId)

namespace Machine

def noteUser (m : Machine) (u : UserId) (r : RoomId) (e : EventId) : Cached.Origin Db (UserId × Nat) RoomId :=
  match m.store.db.pduShortstatehash e with
  | some h => Cached.note m.userOrigin m.store.users r (u, h)
  | none => m.userOrigin

def noteServer (m : Machine) (origin : ServerName) (r : RoomId) (e : EventId) :
    Cached.Origin Db (ServerName × Nat) RoomId :=
  match m.store.db.pduShortstatehash e with
  | some h => Cached.note m.serverOrigin m.store.servers r (origin, h)
  | none => m.serverOrigin

def askUser (m : Machine) (u : UserId) (r : RoomId) (e : EventId) : Machine :=
  { m with store := (userCanSeeEvent env C u r e m.store).2, userOrigin := m.noteUser u r e }

def askServer (m : Machine) (origin : ServerName) (r : RoomId) (e : EventId) : Machine :=
  { m with store := (serverCanSeeEvent env C origin r e m.store).2, serverOrigin := m.noteServer origin r e }

end Machine

def start (db : Db) : Machine := ⟨⟨db, fun _ => none, fun _ => none⟩, fun _ => none, fun _ => none⟩

inductive Step : Act → Machine → Machine → Prop
  | change {m : Machine} {db : Db} : SnapshotsStay env C m.store.db db →
      Step (.change db) m { m with store := { m.store with db := db } }
  | evict {m : Machine} {users : UserId × Nat → Option Bool} {servers : ServerName × Nat → Option Bool} :
      (∀ k v, users k = some v → m.store.userVisibilityCache k = some v) →
      (∀ k v, servers k = some v → m.store.serverVisibilityCache k = some v) →
      Step .evict m { m with store := ⟨m.store.db, users, servers⟩ }
  | user {m : Machine} (u : UserId) (r : RoomId) (e : EventId) :
      Step (.user u r e) m (m.askUser env C u r e)
  | server {m : Machine} (origin : ServerName) (r : RoomId) (e : EventId) :
      Step (.server origin r e) m (m.askServer env C origin r e)

/-- runs from empty caches on, whose steps all meet a condition -/
abbrev Run (P : Act → Machine → Prop) : Machine → Prop := RunsTo (fun m => ∃ db, m = start db) (Step env C) P

/-! ### what the caches hold -/

structure Inv (m : Machine) : Prop where
  users : Cached.Founded (userLook env C) m.userOrigin m.store.users
  servers : Cached.Founded (serverLook env C) m.serverOrigin m.store.servers
  userStays : ∀ k r db, m.userOrigin k = some (r, db) → SnapshotsStay env C db m.store.db
  serverStays : ∀ k r db, m.serverOrigin k = some (r, db) → SnapshotsStay env C db m.store.db

variable {env C}

theorem SnapshotsStay.refl (db : Db) : SnapshotsStay env C db db := fun _ _ h => ⟨h, fun _ => rfl⟩

theorem SnapshotsStay.trans {a b c : Db} (h : SnapshotsStay env C a b) (h' : SnapshotsStay env C b c) :
    SnapshotsStay env C a c := by
  intro n v hv
  obtain ⟨hv', hm⟩ := h n v hv
  obtain ⟨hv'', hm'⟩ := h' n v hv'
  exact ⟨hv'', fun u => (hm' u).trans (hm u)⟩

theorem inv_start (db : Db) : Inv env C (start db) :=
  ⟨Cached.founded_empty _ db, Cached.founded_empty _ db, nofun, nofun⟩

theorem Inv.askUser {m : Machine} (h : Inv env C m) (u : UserId) (r : RoomId) (e : EventId) :
    Inv env C (m.askUser env C u r e) := by
  cases hh : m.store.db.pduShortstatehash e with
  | none =>
    have hask : m.askUser env C u r e = m := by
      unfold Machine.askUser Machine.noteUser
      rw [hh, userCanSeeEvent_none hh]
    rw [hask]
    exact h
  | some n =>
    have hask : m.askUser env C u r e = { m with
        store := { m.store with
          userVisibilityCache := (m.store.users.read (userLook env C r) (u, n)).2.cache }
        userOrigin := Cached.note m.userOrigin m.store.users r (u, n) } := by
      unfold Machine.askUser Machine.noteUser
      rw [hh, (userCanSeeEvent_read hh).2]
    rw [hask]
    refine ⟨?_, h.servers, fun k r' db hk => ?_, h.serverStays⟩
    · exact Cached.founded_move (Cached.founded_read h.users r (u, n)) m.store.db fun _ _ hk => hk
    · rcases Cached.note_eq_some hk with hk | ⟨_, _, rfl⟩
      · exact h.userStays k r' db hk
      · exact .refl _

theorem Inv.askServer {m : Machine} (h : Inv env C m) (origin : ServerName) (r : RoomId) (e : EventId) :
    Inv env C (m.askServer env C origin r e) := by
  cases hh : m.store.db.pduShortstatehash e with
  | none =>
    have hask : m.askServer env C origin r e = m := by
      unfold Machine.askServer Machine.noteServer
      rw [hh, serverCanSeeEvent_none hh]
    rw [hask]
    exact h
  | some n =>
    have hask : m.askServer env C origin r e = { m with
        store := { m.store with
          serverVisibilityCache := (m.store.servers.read (serverLook env C r) (origin, n)).2.cache }
        serverOrigin := Cached.note m.serverOrigin m.store.servers r (origin, n) } := by
      unfold Machine.askServer Machine.noteServer
      rw [hh, (serverCanSeeEvent_read hh).2]
    rw [hask]
    refine ⟨h.users, ?_, h.userStays, fun k r' db hk => ?_⟩
    · exact Cached.founded_move (Cached.founded_read h.servers r (origin, n)) m.store.db fun _ _ hk => hk
    · rcases Cached.note_eq_some hk with hk | ⟨_, _, rfl⟩
      · exact h.serverStays k r' db hk
      · exact .refl _

theorem Inv.step {a : Act} {m m' : Machine} (h : Inv env C m) (hstep : Step env C a m m') : Inv env C m' := by
  cases hstep with
  | @change _ db hstay =>
    exact ⟨Cached.founded_move h.users db fun _ _ hk => hk, Cached.founded_move h.servers db fun _ _ hk => hk,
      fun k r db₀ hk => (h.userStays k r db₀ hk).trans hstay, fun k r db₀ hk => (h.serverStays k r db₀ hk).trans hstay⟩
  | evict husers hservers =>
    exact ⟨Cached.founded_move h.users _ husers, Cached.founded_move h.servers _ hservers, h.userStays, h.serverStays⟩
  | user u r e => exact h.askUser u r e
  | server origin r e => exact h.askServer origin r e

theorem run_inv {P : Act → Machine → Prop} {m : Machine} (h : Run env C P m) : Inv env C m := by
  refine h.inv (Inv env C) ?_ fun a m m' hinv hstep _ => hinv.step hstep
  intro m hm
  obtain ⟨db, rfl⟩ := hm
  exact inv_start db

/-! ## answers of the caches -/

variable (env C)

/-- where the history is shared, the user is in the room now exactly if they were when it was decided -/
def UserSame (m : Machine) (u : UserId) (r : RoomId) (e : EventId) : Prop :=
  ∀ h v r₀ db₀, m.store.db.pduShortstatehash e = some h → m.store.userVisibilityCache (u, h) = some v →
    m.userOrigin (u, h) = some (r₀, db₀) → historyVisibility env C m.store.db h = .ok .shared →
    db₀.members.isJoined u r₀ = m.store.db.members.isJoined u r

/-- where it is for the invited or the joined, one of these is in the room now exactly if one was then -/
def ServerSame (m : Machine) (origin : ServerName) (r : RoomId) (e : EventId) : Prop :=
  ∀ h v r₀ db₀, m.store.db.pduShortstatehash e = some h → m.store.serverVisibilityCache (origin, h) = some v →
    m.serverOrigin (origin, h) = some (r₀, db₀) →
    (historyVisibility env C m.store.db h = .ok .invited →
      (currentServerMembers env db₀ origin r₀).any (userWasInvited env C m.store.db h) =
        (currentServerMembers env m.store.db origin r).any (userWasInvited env C m.store.db h)) ∧
    (historyVisibility env C m.store.db h = .ok .joined →
      (currentServerMembers env db₀ origin r₀).any (userWasJoined env C m.store.db h) =
        (currentServerMembers env m.store.db origin r).any (userWasJoined env C m.store.db h))

variable {env C}

section
variable {db₀ db : Db} (hstay : SnapshotsStay env C db₀ db)
include hstay

/-- two decisions about one state differ by who is in the room, and this only where the history is shared -/
theorem userVisibility_eq_iff {r₀ : RoomId} (hv : userVisibility env C db₀ u r₀ h = .ok v) :
    userVisibility env C db₀ u r₀ h = userVisibility env C db u r h ↔
      (historyVisibility env C db h = .ok .shared → db₀.members.isJoined u r₀ = db.members.isJoined u r) := by
  obtain ⟨x, hx, _⟩ := except_bind_eq_ok.mp hv
  obtain ⟨hx', hmember⟩ := hstay h x hx
  unfold userVisibility userWasInvited userWasJoined
  rw [hx, hx', hmember u]
  cases x with
  | shared =>
    show (Except.ok (db₀.members.isJoined u r₀) : Except Error Bool) = .ok (db.members.isJoined u r) ↔ _
    exact ⟨fun he _ => Except.ok.inj he, fun he => congrArg Except.ok (he rfl)⟩
  | worldReadable => exact iff_of_true rfl nofun
  | invited => exact iff_of_true rfl nofun
  | joined => exact iff_of_true rfl nofun
  | other name => exact iff_of_true rfl nofun

theorem serverVisibility_eq_iff {r₀ : RoomId} (hv : serverVisibility env C db₀ origin r₀ h = .ok v) :
    serverVisibility env C db₀ origin r₀ h = serverVisibility env C db origin r h ↔
      (historyVisibility env C db h = .ok .invited →
        (currentServerMembers env db₀ origin r₀).any (userWasInvited env C db h) =
          (currentServerMembers env db origin r).any (userWasInvited env C db h)) ∧
      (historyVisibility env C db h = .ok .joined →
        (currentServerMembers env db₀ origin r₀).any (userWasJoined env C db h) =
          (currentServerMembers env db origin r).any (userWasJoined env C db h)) := by
  obtain ⟨x, hx, _⟩ := except_bind_eq_ok.mp hv
  obtain ⟨hx', hmember⟩ := hstay h x hx
  have hinvited : userWasInvited env C db h = userWasInvited env C db₀ h := by
    funext u
    unfold userWasInvited
    rw [hmember u]
  have hjoined : userWasJoined env C db h = userWasJoined env C db₀ h := by
    funext u
    unfold userWasJoined
    rw [hmember u]
  unfold serverVisibility
  rw [hx, hx', hinvited, hjoined]
  cases x with
  | invited =>
    show (Except.ok ((currentServerMembers env db₀ origin r₀).any _) : Except Error Bool) = .ok _ ↔ _
    exact ⟨fun he => ⟨fun _ => Except.ok.inj he, nofun⟩, fun he => congrArg Except.ok (he.1 rfl)⟩
  | joined =>
    show (Except.ok ((currentServerMembers env db₀ origin r₀).any _) : Except Error Bool) = .ok _ ↔ _
    exact ⟨fun he => ⟨nofun, fun _ => Except.ok.inj he⟩, fun he => congrArg Except.ok (he.2 rfl)⟩
  | worldReadable => exact iff_of_true rfl ⟨nofun, nofun⟩
  | shared => exact iff_of_true rfl ⟨nofun, nofun⟩
  | other name => exact iff_of_true rfl ⟨nofun, nofun⟩

end

theorem map_some_eq_ok (h : x.map some = .ok (some v)) : x = .ok v := by
  cases x with
  | ok w =>
    cases h
    rfl
  | error err => cases h

theorem map_some_inj {y : Except Error Bool} : x.map some = y.map some ↔ x = y := by
  constructor
  · intro h
    cases y with
    | ok v => exact map_some_eq_ok h
    | error err =>
      cases x with
      | ok v => cases h
      | error err' =>
        cases h
        rfl
  · exact fun h => h ▸ rfl

/-- without the caches, a question is decided -/
theorem userCanSeeEvent_uncached {s : Store} (hh : s.db.pduShortstatehash e = some h) :
    (userCanSeeEvent env C u r e s.uncached).1 = userVisibility env C s.db u r h := by
  rw [userCanSeeEvent_miss (s := s.uncached) hh rfl]
  show (match userVisibility env C s.db u r h with
    | .ok v => _
    | .error err => _ : Except Error Bool × Store).1 = _
  cases userVisibility env C s.db u r h <;> rfl

theorem serverCanSeeEvent_uncached {s : Store} (hh : s.db.pduShortstatehash e = some h) :
    (serverCanSeeEvent env C origin r e s.uncached).1 = serverVisibility env C s.db origin r h := by
  rw [serverCanSeeEvent_miss (s := s.uncached) hh rfl]
  show (match serverVisibility env C s.db origin r h with
    | .ok v => _
    | .error err => _ : Except Error Bool × Store).1 = _
  cases serverVisibility env C s.db origin r h <;> rfl

theorem userCanSeeEvent_fresh_iff {m : Machine} (hinv : Inv env C m) (u : UserId) (r : RoomId) (e : EventId) :
    (userCanSeeEvent env C u r e m.store).1 = (userCanSeeEvent env C u r e m.store.uncached).1 ↔
      UserSame env C m u r e := by
  cases hh : m.store.db.pduShortstatehash e with
  | none =>
    rw [userCanSeeEvent_none hh, userCanSeeEvent_none (s := m.store.uncached) hh]
    exact iff_of_true rfl fun h v r₀ db₀ hh' => by rw [hh] at hh'; cases hh'
  | some h =>
    rw [userCanSeeEvent_uncached hh, ← map_some_inj, (userCanSeeEvent_read hh).1]
    refine (Cached.read_fresh_iff hinv.users r (u, h)).trans ?_
    unfold UserSame
    constructor
    · intro hall h' v r₀ db₀ hh' hcache horigin
      rw [hh] at hh'
      cases hh'
      have hlook : userLook env C r₀ db₀ (u, h) = userLook env C r m.store.db (u, h) := hall v r₀ db₀ hcache horigin
      obtain ⟨r₁, db₁, horigin', hok⟩ := hinv.users (u, h) v hcache
      rw [horigin] at horigin'
      cases horigin'
      exact (userVisibility_eq_iff (hinv.userStays _ _ _ horigin) (map_some_eq_ok hok)).mp (map_some_inj.mp hlook)
    · intro hall v r₀ db₀ hcache horigin
      obtain ⟨r₁, db₁, horigin', hok⟩ := hinv.users (u, h) v hcache
      rw [horigin] at horigin'
      cases horigin'
      refine map_some_inj.mpr ((userVisibility_eq_iff (hinv.userStays _ _ _ horigin) (map_some_eq_ok hok)).mpr ?_)
      exact hall h v r₀ db₀ hh hcache horigin

theorem serverCanSeeEvent_fresh_iff {m : Machine} (hinv : Inv env C m) (origin : ServerName) (r : RoomId)
    (e : EventId) :
    (serverCanSeeEvent env C origin r e m.store).1 = (serverCanSeeEvent env C origin r e m.store.uncached).1 ↔
      ServerSame env C m origin r e := by
  cases hh : m.store.db.pduShortstatehash e with
  | none =>
    rw [serverCanSeeEvent_none hh, serverCanSeeEvent_none (s := m.store.uncached) hh]
    exact iff_of_true rfl fun h v r₀ db₀ hh' => by rw [hh] at hh'; cases hh'
  | some h =>
    rw [serverCanSeeEvent_uncached hh, ← map_some_inj, (serverCanSeeEvent_read hh).1]
    refine (Cached.read_fresh_iff hinv.servers r (origin, h)).trans ?_
    unfold ServerSame
    constructor
    · intro hall h' v r₀ db₀ hh' hcache horigin
      rw [hh] at hh'
      cases hh'
      have hlook : serverLook env C r₀ db₀ (origin, h) = serverLook env C r m.store.db (origin, h) :=
        hall v r₀ db₀ hcache horigin
      obtain ⟨r₁, db₁, horigin', hok⟩ := hinv.servers (origin, h) v hcache
      rw [horigin] at horigin'
      cases horigin'
      exact (serverVisibility_eq_iff (hinv.serverStays _ _ _ horigin) (map_some_eq_ok hok)).mp (map_some_inj.mp hlook)
    · intro hall v r₀ db₀ hcache horigin
      obtain ⟨r₁, db₁, horigin', hok⟩ := hinv.servers (origin, h) v hcache
      rw [horigin] at horigin'
      cases horigin'
      refine map_some_inj.mpr
        ((serverVisibility_eq_iff (hinv.serverStays _ _ _ horigin) (map_some_eq_ok hok)).mpr ?_)
      exact hall h v r₀ db₀ hh hcache horigin

/-- **a question is answered as without the caches** exactly if what the entry does not have in its key is as it
was when the entry was decided -/
theorem visibility_fresh_iff {m : Machine} (h : Run env C (fun _ _ => True) m) :
    (∀ u r e, (userCanSeeEvent env C u r e m.store).1 = (userCanSeeEvent env C u r e m.store.uncached).1 ↔
      UserSame env C m u r e) ∧
    (∀ origin r e, (serverCanSeeEvent env C origin r e m.store).1 =
        (serverCanSeeEvent env C origin r e m.store.uncached).1 ↔ ServerSame env C m origin r e) :=
  ⟨userCanSeeEvent_fresh_iff (run_inv h), serverCanSeeEvent_fresh_iff (run_inv h)⟩

/-! ### a user who leaves -/

namespace Shared

def alice : UserId := ⟨.ascii "@alice:x"⟩
def room : RoomId := ⟨.ascii "!r:x"⟩
def message : EventId := ⟨.ascii "$message"⟩

/-- a message of a room with shared history, and who is in the room -/
def database (members : MemberTables) : Db := { Db.empty with
  state := { StateDb.empty with
    counter := 10
    eventidShorteventid := fun e => if e = message then some 3 else none
    shorteventidShortstatehash := fun n => if n = 3 then some 4 else none }
  members := members }

def inside : Db := database (MemberTables.empty.markAsJoined alice room)
def outside : Db := database MemberTables.empty

/-- Alice has asked for the message while she was in the room -/
def asked : Machine := (start inside).askUser .plain .plain alice room message

def left : Machine := { asked with store := { asked.store with db := outside } }

theorem run_asked : Run .plain .plain (fun _ _ => True) asked :=
  .step (.start ⟨inside, rfl⟩) (.user alice room message) trivial

theorem run_left : Run .plain .plain (fun _ _ => True) left := by
  have hstep : Step .plain .plain (.change outside) asked left := .change fun _ _ hv => ⟨hv, fun _ => rfl⟩
  exact .step run_asked hstep trivial

theorem origin_asked : asked.userOrigin (alice, 4) = some (room, inside) := by
  have hh : (start inside).store.db.pduShortstatehash message = some 4 := by decide +kernel
  show Machine.noteUser (start inside) alice room message (alice, 4) = _
  unfold Machine.noteUser
  rw [hh]
  exact Function.update_self (alice, 4) (some (room, inside)) (start inside).userOrigin

end Shared

/-- the question again, while she is still there -/
theorem visibility_fresh_iff_asked :
    (userCanSeeEvent .plain .plain Shared.alice Shared.room Shared.message Shared.asked.store).1 =
      (userCanSeeEvent .plain .plain Shared.alice Shared.room Shared.message Shared.asked.store.uncached).1 := by
  refine ((visibility_fresh_iff Shared.run_asked).1 _ _ _).mpr fun h v r₀ db₀ hh _ horigin _ => ?_
  have h4 : Shared.asked.store.db.pduShortstatehash Shared.message = some 4 := by decide +kernel
  rw [h4] at hh
  cases hh
  rw [Shared.origin_asked] at horigin
  cases horigin
  decide +kernel

/-- Alice has left, and still sees the message that she asked for before -/
theorem visibility_after_leave : ¬ ∀ (env : Env) (C : Contents) (m : Machine), Run env C (fun _ _ => True) m →
    (∀ u r e, (userCanSeeEvent env C u r e m.store).1 = (userCanSeeEvent env C u r e m.store.uncached).1) ∧
    (∀ origin r e, (serverCanSeeEvent env C origin r e m.store).1 =
      (serverCanSeeEvent env C origin r e m.store.uncached).1) := by
  intro hall
  have hsame := (hall .plain .plain Shared.left Shared.run_left).1 Shared.alice Shared.room Shared.message
  have hcached : (userCanSeeEvent .plain .plain Shared.alice Shared.room Shared.message
      Shared.left.store).1.toOption = some true := by decide +kernel
  have hfresh : (userCanSeeEvent .plain .plain Shared.alice Shared.room Shared.message
      Shared.left.store.uncached).1.toOption = some false := by decide +kernel
  rw [hsame, hfresh] at hcached
  cases hcached

/-! ## outsiders -/

variable (env C)

/-- a state is of one room; the user is not in `r` and never was, and the world could never read it -/
structure Closed (roomOf : Nat → RoomId) (u : UserId) (r : RoomId) (db : Db) : Prop where
  rooms : ∀ e pdu h, db.getPdu e = .ok (some pdu) → db.pduShortstatehash e = some h → roomOf h = pdu.roomId
  joined : db.members.isJoined u r = false
  invited : ∀ h, roomOf h = r → userWasInvited env C db h u = false
  visibility : ∀ h, roomOf h = r → historyVisibility env C db h ≠ .ok .worldReadable

/-- the event is stored, and is of the room -/
def Stored (db : Db) (r : RoomId) (e : EventId) : Prop := ∃ pdu, db.getPdu e = .ok (some pdu) ∧ pdu.roomId = r

/-- the questions are asked for stored events with their rooms, while the room is closed to the user -/
def Asks (roomOf : Nat → RoomId) (u : UserId) (r : RoomId) : Act → Machine → Prop
  | .user _ r' e, m => Closed env C roomOf u r m.store.db ∧ Stored m.store.db r' e
  | _, _ => True

variable {env C}

section
variable {roomOf : Nat → RoomId} {u : UserId} {r : RoomId}
variable {db : Db} {m : Machine}

end

namespace Shared

def bob : UserId := ⟨.ascii "@bob:x"⟩

def event : PduJson := ⟨[], ⟨message, room, alice, 0, .roomMessage, [], none, [], 0, [], none, none⟩⟩

/-- the message is stored, and has a state or not -/
def stored (state : StateDb) : Db :=
  { inside with state := state, timeline := TimelineTables.empty.addPduOutlier message event }

theorem getPdu_stored (state : StateDb) (e : EventId) :
    (stored state).getPdu e = .ok (if e = message then some event.pdu else none) := by
  by_cases he : e = message
  · rw [if_pos he, he]
    rfl
  · have hrow : (TimelineTables.empty.addPduOutlier message event).eventidOutlierpdu e = none :=
      Function.update_of_ne he _ _
    have hjson : (TimelineTables.empty.addPduOutlier message event).getPduJson e = .ok none :=
      congrArg Except.ok hrow
    rw [if_neg he]
    show ((TimelineTables.empty.addPduOutlier message event).getPdu e).1 = _
    unfold TimelineTables.getPdu
    rw [hjson]
    rfl

/-- nothing is known of a state without short state keys -/
theorem closed (state : StateDb) (hkeys : ∀ key, state.statekeyShortstatekey key = none) :
    Closed .plain .plain (fun _ => room) bob room (stored state) where
  rooms e pdu h hpdu _ := by
    rw [getPdu_stored] at hpdu
    split at hpdu
    · cases hpdu
      rfl
    · cases hpdu
  joined := by
    show inside.members.isJoined bob room = false
    decide +kernel
  invited h _ := by
    have hget : (stored state).stateGetId .plain h .roomMember (Env.plain.ids.userIdStr bob) = .ok none := by
      unfold Db.stateGetId
      rw [show (stored state).state.statekeyShortstatekey _ = none from hkeys _]
    unfold userWasInvited userMembership Db.stateGet
    rw [hget]
    rfl
  visibility h _ := by
    have hget : (stored state).stateGetId .plain h (.other "m.room.history_visibility") "" = .ok none := by
      unfold Db.stateGetId
      rw [show (stored state).state.statekeyShortstatekey _ = none from hkeys _]
    unfold historyVisibility Db.stateGet
    rw [hget]
    nofun

end Shared

end Visibility
end Grapevine
