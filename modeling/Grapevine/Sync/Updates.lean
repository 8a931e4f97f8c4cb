import Grapevine.Sync.Writers

/-!
# Updates in the sync streams

A sync reads the tables of invites, leaves, account data, receipts and key changes one after the
other, and shows the rows with a count above its `since`.  `Step` are the syncs of any number of
devices and any number of calls that write rows, one database operation a step.

* `Todo.Ahead`      the sync is still to read the row;
* `State.live`      the rows that nothing has replaced or removed;
* `Row.Supersedes`  later account data of the same type;
* `InTime`          a row is stored before the syncs that know its count have read its table, and no
                    sync leaves out a room with such a row.

Main result: `updates_shown`.  In runs whose steps are `InTime`, a device whose token has reached
the count of an update has been shown it.  A count is drawn before the row is stored, so other runs
lose updates (`invite_lost`).
-/

namespace Grapevine
open Kv

namespace SyncUpdates

variable {u : UserId} {r : RoomId} {c : Nat} {I : Ids} {w : Writer}

/-! ## syncs -/

/-- what a sync is still to do -/
inductive Todo where
  | keys
  | joined
  /-- the joined rooms that are still to be loaded -/
  | rooms (rooms : List RoomId)
  | receipts (r : RoomId) (rooms : List RoomId)
  /-- the account data of a room, whose receipts have been read -/
  | roomAccount (r : RoomId) (events : List JsonObject) (rooms : List RoomId)
  | left
  | leaving (rooms : List RoomId)
  /-- a room that the user has left behind the token -/
  | leave (r : RoomId) (rooms : List RoomId)
  | invited
  | inviting (rooms : List (RoomId × List Json))
  | account
  | done

/-- the sections of a response -/
structure Out where
  changed : List UserId
  receipts : List (RoomId × JsonObject)
  accountData : List (Text × Json)
  left : List RoomId
  invited : List (RoomId × List Json)

structure Sync where
  user : UserId
  device : DeviceId
  since : Nat
  nextBatch : Nat
  /-- `rooms_joined`, once it is known -/
  rooms : Option (List RoomId)
  todo : Todo
  out : Out

structure Response where
  user : UserId
  device : DeviceId
  since : Nat
  nextBatch : Nat
  rooms : List RoomId
  out : Out

structure State where
  counter : Nat
  db : Db
  /-- the rows that are in the tables and that nothing has replaced or removed -/
  live : List Row
  writers : List Writer
  syncs : List Sync
  responses : List Response

def Db.empty : Db :=
  ⟨.empty, .empty, .empty, .empty, .empty, fun _ => .ok none⟩

def start : State := ⟨0, .empty, [], [], [], []⟩

def State.Received (s : State) (u : UserId) (d : DeviceId) (since : Nat) : Prop :=
  since = 0 ∨ ∃ resp ∈ s.responses, resp.user = u ∧ resp.device = d ∧ resp.nextBatch = since

/-- the rows after an operation -/
def track (db : Db) (live : List Row) (o : Op) : List Row :=
  (o.added db).toList ++ live.filter (fun x => ¬ o.Voids x)

/-- the rooms of a scan, when no row of it is invalid -/
def okRooms {α : Type} (scan : List (Except Error α)) : Option (List α) :=
  if scan.all (fun e => e.toOption.isSome) then some (scan.filterMap Except.toOption) else none

/-- a left room goes into the response if it is not known, or if the user has a leave event in it
with a state -/
def showsLeave (known : Bool) (leaveEvent : Option EventId) (shortstatehash : Option Nat) : Bool :=
  !known || (leaveEvent.isSome && shortstatehash.isSome)

inductive Act where
  | other
  | write (o : Op)
  /-- a sync goes on, and leaves a room out -/
  | pass (c c' : Sync)

section
variable (I : Ids)

inductive Step : State → Act → State → Prop
  /-- `next_count` of other code -/
  | tick {s : State} : s.counter + 1 < 2^64 → Step s .other { s with counter := s.counter + 1 }
  | encryption {s : State} (state : RoomId → Except Error (Option Json)) :
      Step s .other { s with db := { s.db with encryption := state } }
  | call {s : State} {w : Writer} : Call I w → Step s .other { s with writers := w :: s.writers }
  | draw {s : State} {next : Nat → Writer} {rest : List Writer} :
      s.writers.Perm (.draw next :: rest) → s.counter + 1 < 2^64 →
      Step s .other { s with
        counter := s.counter + 1, writers := next (s.counter + 1) :: rest }
  | ask {s : State} {next : Db → Writer} {rest : List Writer} :
      s.writers.Perm (.ask next :: rest) →
      Step s .other { s with writers := next s.db :: rest }
  | op {s : State} {o : Op} {w : Writer} {rest : List Writer} : s.writers.Perm (.op o w :: rest) →
      Step s (.write o) { s with
        db := o.apply s.db, live := track s.db s.live o, writers := w :: rest }
  /-- a call is over, or fails -/
  | stop {s : State} {w : Writer} {rest : List Writer} : s.writers.Perm (w :: rest) →
      Step s .other { s with writers := rest }
  | begin {s : State} (u : UserId) (d : DeviceId) {since : Nat} : s.Received u d since →
      Step s .other { s with
        syncs := ⟨u, d, since, s.counter, none, .keys, ⟨[], [], [], [], []⟩⟩ :: s.syncs }
  /-- `keys_changed` of the user -/
  | keys {s : State} {c : Sync} {rest : List Sync} : s.syncs.Perm (c :: rest) → c.todo = .keys →
      Step s .other { s with syncs := { c with
        todo := .joined
        out.changed := s.db.keysChanged c.user.toText c.since none ++ c.out.changed } :: rest }
  /-- `rooms_joined` -/
  | joined {s : State} {c : Sync} {rest : List Sync} {rooms : List RoomId} :
      s.syncs.Perm (c :: rest) → c.todo = .joined → c.rooms = none →
      okRooms (s.db.members.roomsJoined I c.user) = some rooms →
      Step s (.pass c { c with todo := .rooms rooms, rooms := some rooms }) { s with
        syncs := { c with todo := .rooms rooms, rooms := some rooms } :: rest }
  /-- `keys_changed` of a room -/
  | roomKeys {s : State} {c : Sync} {rest : List Sync} {r : RoomId} {rooms : List RoomId} :
      s.syncs.Perm (c :: rest) → c.todo = .rooms (r :: rooms) →
      Step s .other { s with syncs := { c with
        todo := .receipts r rooms
        out.changed := s.db.keysChanged r.toText c.since none ++ c.out.changed } :: rest }
  | roomReceipts {s : State} {c : Sync} {rest : List Sync} {r : RoomId} {rooms : List RoomId} :
      s.syncs.Perm (c :: rest) → c.todo = .receipts r rooms →
      Step s .other { s with syncs := { c with
        todo := .roomAccount r ((s.db.readreceiptsSince I r c.since).map (·.2.2)) rooms } :: rest }
  /-- `changes_since` of the room, which is loaded with it -/
  | roomAccount {s : State} {c : Sync} {rest : List Sync} {r : RoomId} {events : List JsonObject}
      {rooms : List RoomId} : s.syncs.Perm (c :: rest) → c.todo = .roomAccount r events rooms →
      Step s .other { s with syncs := { c with
        todo := .rooms rooms
        out.receipts := events.map (fun event => (r, event)) ++ c.out.receipts
        out.accountData := (s.db.changesSince r.toText c.user c.since).rows.map
          (fun row => (r.toText, row.2)) ++ c.out.accountData } :: rest }
  /-- `load_joined_room` fails -/
  | roomFails {s : State} {c : Sync} {rest : List Sync} {r : RoomId} {rooms : List RoomId} :
      s.syncs.Perm (c :: rest) →
      c.todo = .rooms (r :: rooms) ∨ c.todo = .receipts r rooms ∨
        (∃ events, c.todo = .roomAccount r events rooms) →
      Step s (.pass c { c with todo := .rooms rooms }) { s with
        syncs := { c with todo := .rooms rooms } :: rest }
  | roomsLoaded {s : State} {c : Sync} {rest : List Sync} : s.syncs.Perm (c :: rest) →
      c.todo = .rooms [] → Step s .other { s with syncs := { c with todo := .left } :: rest }
  /-- `rooms_left` -/
  | left {s : State} {c : Sync} {rest : List Sync} {rooms : List (RoomId × List Json)} :
      s.syncs.Perm (c :: rest) → c.todo = .left →
      okRooms (s.db.roomsMarked I c.user .leave) = some rooms →
      Step s .other { s with syncs := { c with todo := .leaving (rooms.map Prod.fst) } :: rest }
  /-- `get_left_count` -/
  | leftCount {s : State} {c : Sync} {rest : List Sync} {r : RoomId} {rooms : List RoomId} :
      s.syncs.Perm (c :: rest) → c.todo = .leaving (r :: rooms) →
      Step s .other { s with syncs := { c with
        todo := match (s.db.counts .leave).get (MemberTables.roomuserId r c.user) with
          | some count => if c.since ≥ count then .leaving rooms else .leave r rooms
          | none => .leaving rooms } :: rest }
  | leave {s : State} {c : Sync} {rest : List Sync} {r : RoomId} {rooms : List RoomId}
      (known : Bool) (leaveEvent : Option EventId) (shortstatehash : Option Nat) :
      s.syncs.Perm (c :: rest) → c.todo = .leave r rooms →
      showsLeave known leaveEvent shortstatehash = true →
      Step s .other { s with syncs := { c with
        todo := .leaving rooms, out.left := r :: c.out.left } :: rest }
  | leaveLeftOut {s : State} {c : Sync} {rest : List Sync} {r : RoomId} {rooms : List RoomId}
      (known : Bool) (leaveEvent : Option EventId) (shortstatehash : Option Nat) :
      s.syncs.Perm (c :: rest) → c.todo = .leave r rooms →
      showsLeave known leaveEvent shortstatehash = false →
      Step s (.pass c { c with todo := .leaving rooms }) { s with
        syncs := { c with todo := .leaving rooms } :: rest }
  | leavesDone {s : State} {c : Sync} {rest : List Sync} : s.syncs.Perm (c :: rest) →
      c.todo = .leaving [] → Step s .other { s with syncs := { c with todo := .invited } :: rest }
  /-- `rooms_invited` -/
  | invited {s : State} {c : Sync} {rest : List Sync} {rooms : List (RoomId × List Json)} :
      s.syncs.Perm (c :: rest) → c.todo = .invited →
      okRooms (s.db.roomsMarked I c.user .invite) = some rooms →
      Step s .other { s with syncs := { c with todo := .inviting rooms } :: rest }
  /-- `get_invite_count` -/
  | inviteCount {s : State} {c : Sync} {rest : List Sync} {r : RoomId} {st : List Json}
      {rooms : List (RoomId × List Json)} :
      s.syncs.Perm (c :: rest) → c.todo = .inviting ((r, st) :: rooms) →
      Step s .other { s with syncs := { c with
        todo := .inviting rooms
        out.invited := match (s.db.counts .invite).get (MemberTables.roomuserId r c.user) with
          | some count => if c.since ≥ count then c.out.invited else (r, st) :: c.out.invited
          | none => c.out.invited } :: rest }
  | invitesDone {s : State} {c : Sync} {rest : List Sync} : s.syncs.Perm (c :: rest) →
      c.todo = .inviting [] → Step s .other { s with syncs := { c with todo := .account } :: rest }
  /-- `changes_since` of no room -/
  | account {s : State} {c : Sync} {rest : List Sync} :
      s.syncs.Perm (c :: rest) → c.todo = .account →
      Step s .other { s with syncs := { c with
        todo := .done
        out.accountData := (s.db.changesSince (scopeText none) c.user c.since).rows.map
          (fun row => (scopeText none, row.2)) ++ c.out.accountData } :: rest }
  | respond {s : State} {c : Sync} {rest : List Sync} {rooms : List RoomId} :
      s.syncs.Perm (c :: rest) → c.todo = .done → c.rooms = some rooms →
      Step s .other { s with
        syncs := rest
        responses := ⟨c.user, c.device, c.since, c.nextBatch, rooms, c.out⟩ :: s.responses }
  /-- a sync fails, or its client is gone -/
  | abort {s : State} {c : Sync} {rest : List Sync} : s.syncs.Perm (c :: rest) →
      Step s .other { s with syncs := rest }

/-- runs on whose steps a condition holds -/
inductive RunWith (P : State → Act → Prop) : State → Prop
  | start : RunWith P start
  | step {s s' : State} {a : Act} : RunWith P s → Step I s a s' → P s a → RunWith P s'

end

/-! ## what is to be shown -/

def Out.Shows (out : Out) : Row → Prop
  | .member .invite _ r st _ => (r, st) ∈ out.invited
  | .member .leave _ r _ _ => r ∈ out.left
  | .accountData scope _ _ _ data => (scope, data) ∈ out.accountData
  | .receipt r _ _ event => (r, JsonObject.remove event "room_id") ∈ out.receipts
  | .keyChange _ _ u => u ∈ out.changed

/-- the row is for the user: the receipts and key changes of a room are for those that are found to
be joined to it -/
def Concerns (user : UserId) (rooms : Option (List RoomId)) : Row → Prop
  | .member _ u _ _ _ => u = user
  | .accountData _ u _ _ _ => u = user
  | .receipt r _ _ _ => ∀ rs, rooms = some rs → r ∈ rs
  | .keyChange target _ _ => target = user.toText ∨ ∀ rs, rooms = some rs → ∃ r ∈ rs, r.toText = target

/-- the rows between two tokens -/
def Within (since nextBatch : Nat) (x : Row) : Prop := since < x.count ∧ x.count ≤ nextBatch

/-- later account data of the same type -/
def Row.Supersedes : Row → Row → Prop
  | .accountData s u k n _, .accountData t v l m _ => s = t ∧ u = v ∧ k = l ∧ m < n
  | _, _ => False

def Superseded (live : List Row) (x : Row) : Prop := ∃ y ∈ live, y.Supersedes x

/-- a device that has received a token has been shown the updates up to it that are for it -/
def State.UpdatesShown (s : State) : Prop :=
  ∀ resp ∈ s.responses, ∀ x ∈ s.live, ¬ Superseded s.live x → x.count ≤ resp.nextBatch →
    ∃ resp' ∈ s.responses, resp'.user = resp.user ∧ resp'.device = resp.device ∧
      Within resp'.since resp'.nextBatch x ∧
      (Concerns resp'.user (some resp'.rooms) x → resp'.out.Shows x)

/-! ## the condition -/

def Todo.AheadInvite (r : RoomId) (st : List Json) : Todo → Prop
  | .inviting rs => (r, st) ∈ rs
  | .account | .done => False
  | _ => True

def Todo.AheadLeave (r : RoomId) : Todo → Prop
  | .leaving rs => r ∈ rs
  | .leave q rs => r ∈ q :: rs
  | .invited | .inviting _ | .account | .done => False
  | _ => True

/-- the account data of the room that is written as `scope` -/
def Todo.AheadAccount (scope : Text) : Todo → Prop
  | .keys | .joined => True
  | .rooms rs => ∃ r ∈ rs, r.toText = scope
  | .receipts r rs | .roomAccount r _ rs => ∃ q ∈ r :: rs, q.toText = scope
  | _ => False

def Todo.AheadReceipt (r : RoomId) (event : JsonObject) : Todo → Prop
  | .keys | .joined => True
  | .rooms rs => r ∈ rs
  | .receipts q rs => r ∈ q :: rs
  | .roomAccount q events rs => r = q ∧ event ∈ events ∨ r ∈ rs
  | _ => False

def Todo.AheadKeys (user : UserId) (target : Text) : Todo → Prop
  | .keys => True
  | .joined => target ≠ user.toText
  | .rooms rs | .receipts _ rs | .roomAccount _ _ rs => ∃ r ∈ rs, r.toText = target
  | _ => False

/-- a sync that is to do this will still read the row -/
def Todo.Ahead (user : UserId) (todo : Todo) : Row → Prop
  | .member .invite _ r st _ => todo.AheadInvite r st
  | .member .leave _ r _ _ => todo.AheadLeave r
  | .accountData scope _ _ _ _ => todo.AheadAccount scope ∨ scope = scopeText none ∧ todo ≠ .done
  | .receipt r _ _ event => todo.AheadReceipt r (JsonObject.remove event "room_id")
  | .keyChange target _ _ => todo.AheadKeys user target

/-- every sync whose window the row is in is still to read it -/
def State.Ahead (s : State) (x : Row) : Prop :=
  (∀ resp ∈ s.responses, Concerns resp.user (some resp.rooms) x →
    ¬ Within resp.since resp.nextBatch x) ∧
  ∀ c ∈ s.syncs, Concerns c.user c.rooms x → Within c.since c.nextBatch x →
    c.todo.Ahead c.user x

/-- a row is stored before the syncs that know its count have read its table, account data removes
no row but of older account data, and a sync leaves out no room with a row in its window -/
def InTime (s : State) : Act → Prop
  | .other => True
  | .write o => (∀ x, o.added s.db = some x → Superseded s.live x ∨ s.Ahead x) ∧
      ∀ key, o = .dropAccountData key → ∀ x ∈ s.live, o.Voids x → Superseded s.live x
  | .pass c c' => ∀ x ∈ s.live, ¬ Superseded s.live x → Concerns c'.user c'.rooms x →
      Within c.since c.nextBatch x → c.todo.Ahead c.user x → c'.todo.Ahead c'.user x

/-! ## the invariant -/

def Op.Counted : Op → Prop
  | .putCount _ _ _ c | .putAccountData _ _ _ c _ | .putReceipt _ _ c _ | .putKeyChange _ c _ =>
      0 < c ∧ c < 2^64
  | _ => True

/-- the counts of a call are ones that it draws -/
def Writer.Counted : Writer → Prop
  | .done => True
  | .op o w => o.Counted ∧ w.Counted
  | .draw next => ∀ c, 0 < c → c < 2^64 → (next c).Counted
  | .ask next => ∀ db, (next db).Counted

/-- the tables with one cell a row -/
def Slot.Stream : Slot → Prop
  | .state _ _ | .count _ _ => False
  | _ => True

structure Inv (s : State) : Prop where
  counter_lt : s.counter < 2^64
  writers : ∀ w ∈ s.writers, w.Counted
  counts : ∀ x ∈ s.live, 0 < x.count ∧ x.count < 2^64
  holds : ∀ x ∈ s.live, s.db.Holds x
  listed : ∀ slot cell, slot.Stream → s.db.look slot = some cell →
    ∃ x ∈ s.live, (slot, cell) ∈ x.cells
  received : ∀ c ∈ s.syncs, s.Received c.user c.device c.since
  chained : ∀ resp ∈ s.responses, ∀ n, 0 < n → n ≤ resp.nextBatch →
    ∃ resp' ∈ s.responses, resp'.user = resp.user ∧ resp'.device = resp.device ∧
      resp'.since < n ∧ n ≤ resp'.nextBatch
  shown : ∀ resp ∈ s.responses, ∀ x ∈ s.live, ¬ Superseded s.live x →
    Concerns resp.user (some resp.rooms) x → Within resp.since resp.nextBatch x → resp.out.Shows x
  going : ∀ c ∈ s.syncs, ∀ x ∈ s.live, ¬ Superseded s.live x → Concerns c.user c.rooms x →
    Within c.since c.nextBatch x → c.out.Shows x ∨ c.todo.Ahead c.user x

theorem inv_start : Inv start where
  counter_lt := by decide
  writers w hw := absurd hw List.not_mem_nil
  counts x hx := absurd hx List.not_mem_nil
  holds x hx := absurd hx List.not_mem_nil
  listed slot cell _ hlook := by cases slot with
    | state k key | count k key => cases k <;> cases hlook
    | _ => cases hlook
  received c hc := absurd hc List.not_mem_nil
  chained resp hr := absurd hr List.not_mem_nil
  shown resp hr := absurd hr List.not_mem_nil
  going c hc := absurd hc List.not_mem_nil

/-! ### calls -/

theorem ops_counted {os : List Op} (h : ∀ o ∈ os, o.Counted) (hw : w.Counted) :
    (Writer.ops os w).Counted := by
  induction os with
  | nil => exact hw
  | cons o os ih =>
    exact ⟨h o List.mem_cons_self, ih fun o' ho' => h o' (List.mem_cons_of_mem _ ho')⟩

theorem drops_counted (k : Kind) :
    ∀ o ∈ dropJoined u r ++ dropMember k u r, o.Counted := by
  intro o ho
  rcases List.mem_append.mp ho with h | h <;>
  rcases List.mem_cons.mp h with rfl | h <;>
  first
  | trivial
  | (rw [List.mem_singleton.mp h]; trivial)

theorem roomKeyChanges_counted (hc : 0 < c ∧ c < 2^64) (rooms : List RoomId) :
    (roomKeyChanges u c rooms).Counted := by
  induction rooms with
  | nil => exact ⟨hc, trivial⟩
  | cons r rooms ih =>
    intro db
    dsimp only
    cases db.encryption r with
    | error e => trivial
    | ok known =>
      cases known with
      | none => exact ih
      | some event => exact ⟨hc, ih⟩

theorem call_counted (h : Call I w) : w.Counted := by
  cases h with
  | joined u r =>
    refine ops_counted (fun o ho => ?_) trivial
    rcases List.mem_append.mp ho with ho | ho
    · rcases List.mem_append.mp ho with ho | ho
      · rcases List.mem_cons.mp ho with rfl | ho
        · trivial
        · rw [List.mem_singleton.mp ho]
          trivial
      · exact drops_counted (u := u) (r := r) .invite o (List.mem_append_right _ ho)
    · exact drops_counted (u := u) (r := r) .leave o (List.mem_append_right _ ho)
  | invited u r st =>
    exact ⟨trivial, fun c h0 h64 => ⟨⟨h0, h64⟩, ops_counted (drops_counted .leave) trivial⟩⟩
  | left u r =>
    exact ⟨trivial, fun c h0 h64 => ⟨⟨h0, h64⟩, ops_counted (drops_counted .invite) trivial⟩⟩
  | forget r u =>
    exact ops_counted (fun o ho => drops_counted (u := u) (r := r) .leave o
      (List.mem_append_right _ ho)) trivial
  | accountData room u kind data =>
    intro c h0 h64
    show Writer.Counted (if _ then _ else _)
    by_cases hbad : (lacks data "type" || lacks data "content") = true
    · rw [if_pos hbad]
      trivial
    · rw [if_neg hbad]
      refine ⟨⟨h0, h64⟩, fun db => ⟨trivial, ?_⟩⟩
      cases db.roomusertypeRoomuserdataid.get (roomusertype (scopeText room) u kind) with
      | none => trivial
      | some prev => exact ⟨trivial, trivial⟩
  | receipt u r event =>
    intro db
    have hstore : Writer.Counted (.draw fun count => .op (.putReceipt r u count event) .done) :=
      fun c h0 h64 => ⟨⟨h0, h64⟩, trivial⟩
    dsimp only
    cases db.oldReceipt r u with
    | none => exact hstore
    | some old => exact ⟨trivial, hstore⟩
  | keys u =>
    intro c h0 h64 db
    exact roomKeyChanges_counted ⟨h0, h64⟩ _

/-! ### operations -/

section
variable {s : State} {o : Op}
variable {x : Row} {st : List Json} {n since : Nat} {k : Kind} {db : Db}

theorem mem_track : x ∈ track s.db s.live o ↔
    o.added s.db = some x ∨ x ∈ s.live ∧ ¬ o.Voids x := by
  unfold track
  rw [List.mem_append, Option.mem_toList, List.mem_filter, decide_eq_true_eq]

theorem added_count (ho : o.Counted) (h : o.added s.db = some x) :
    0 < x.count ∧ x.count < 2^64 := by
  cases o with
  | putCount k u r c =>
    obtain ⟨st, _, rfl⟩ := Option.map_eq_some_iff.mp h
    exact ho
  | putAccountData | putReceipt | putKeyChange =>
    cases h
    exact ho
  | _ => cases h

theorem supersedes_trans {y z : Row} (h1 : z.Supersedes y) (h2 : y.Supersedes x) :
    z.Supersedes x := by
  cases z <;> cases y <;> try exact absurd h1 id
  cases x <;> try exact absurd h2 id
  obtain ⟨rfl, rfl, rfl, hlt1⟩ := h1
  obtain ⟨rfl, rfl, rfl, hlt2⟩ := h2
  exact ⟨rfl, rfl, rfl, hlt2.trans hlt1⟩

/-- rows of one key are of one type and one count -/
theorem supersedes_of_key {s' t : Text} {v : UserId} {k l : Text} {m : Nat} {d e : Json} (hn : n < 2^64)
    (hm : m < 2^64) (hkey : roomuserdataid s' u n k = roomuserdataid t v m l)
    (h : Row.Supersedes (.accountData s' u k n d) x) : Row.Supersedes (.accountData t v l m e) x := by
  obtain ⟨rfl, rfl, rfl, rfl⟩ := roomuserdataid_inj hn hm hkey
  cases x with
  | accountData => exact h
  | _ => exact absurd h id

/-- what is superseded stays so -/
theorem Inv.superseded (h : Inv s) (ho : o.Counted) (hin : InTime s (.write o)) (hx : Superseded s.live x) :
    Superseded (track s.db s.live o) x := by
  obtain ⟨y, hy, hyx⟩ := hx
  by_cases hv : o.Voids y
  · cases y with
    | accountData t u k n d =>
      have hn := (h.counts _ hy).2
      obtain ⟨p, hp, hslot⟩ := hv
      rw [List.mem_singleton.mp hp] at hslot
      cases o with
      | putAccountData t' u' k' n' d' =>
        have hkey : roomuserdataid t u n k = roomuserdataid t' u' n' k' :=
          (Slot.accountData.inj (Option.some.inj hslot)).symm
        exact ⟨_, mem_track.mpr (Or.inl rfl), supersedes_of_key hn ho.2 hkey hyx⟩
      | dropAccountData key =>
        obtain ⟨z, hz, hzy⟩ := hin.2 key rfl _ hy ⟨p, hp, by rw [List.mem_singleton.mp hp]; exact hslot⟩
        refine ⟨z, mem_track.mpr (Or.inr ⟨hz, fun hvz => ?_⟩), supersedes_trans hzy hyx⟩
        -- a row with a greater count has another key
        cases z with
        | accountData t' u' k' n' d' =>
          obtain ⟨q, hq, hslot'⟩ := hvz
          rw [List.mem_singleton.mp hq] at hslot'
          have hkey := hslot.symm.trans hslot'
          obtain ⟨_, _, hcount, _⟩ := roomuserdataid_inj hn (h.counts _ hz).2
            (Slot.accountData.inj (Option.some.inj hkey))
          exact absurd hcount (Nat.ne_of_lt hzy.2.2.2)
        | _ => exact absurd hzy id
      | putState | putCount | dropState | dropCount | putReceipt | dropReceipt | putKeyChange =>
        exact absurd (Option.some.inj hslot) nofun
      | _ => exact absurd hslot nofun
    | _ => exact absurd hyx id
  · exact ⟨y, mem_track.mpr (Or.inr ⟨hy, hv⟩), hyx⟩

theorem cells_stream {p q : Slot × Cell} (hp : p ∈ x.cells) (hq : q ∈ x.cells) (hstream : p.1.Stream) : q = p := by
  cases x with
  | member =>
    rcases List.mem_cons.mp hp with rfl | hp
    · exact absurd hstream id
    · rw [List.mem_singleton.mp hp] at hstream
      exact absurd hstream id
  | _ => rw [List.mem_singleton.mp hp, List.mem_singleton.mp hq]

theorem Inv.write (h : Inv s) (ho : o.Counted) (hin : InTime s (.write o)) {writers : List Writer}
    (hw : ∀ w ∈ writers, w.Counted) : Inv { s with
      db := o.apply s.db, live := track s.db s.live o, writers := writers } where
  counter_lt := h.counter_lt
  writers := hw
  counts x hx := by
    rcases mem_track.mp hx with hadd | ⟨hx, _⟩
    · exact added_count ho hadd
    · exact h.counts x hx
  holds x hx := by
    rcases mem_track.mp hx with hadd | ⟨hx, hv⟩
    · exact Op.added_holds hadd
    · exact (h.holds x hx).apply hv
  listed slot cell hstream hlook := by
    change (o.apply s.db).look slot = some cell at hlook
    rw [Db.look_apply] at hlook
    by_cases hs : o.slot = some slot
    · rw [if_pos hs] at hlook
      obtain ⟨x, hadd, hmem⟩ := Op.added_of_cell s.db hs hlook fun k key =>
        ⟨fun e => by rw [e] at hstream; exact hstream, fun e => by rw [e] at hstream; exact hstream⟩
      exact ⟨x, mem_track.mpr (Or.inl hadd), hmem⟩
    · rw [if_neg hs] at hlook
      obtain ⟨x, hx, hmem⟩ := h.listed slot cell hstream hlook
      refine ⟨x, mem_track.mpr (Or.inr ⟨hx, ?_⟩), hmem⟩
      rintro ⟨q, hq, hslot⟩
      rw [cells_stream hmem hq hstream] at hslot
      exact hs hslot
  received := h.received
  chained := h.chained
  shown resp hr x hx hsup hcon hwin := by
    rcases mem_track.mp hx with hadd | ⟨hx, _⟩
    · rcases hin.1 x hadd with hs | hahead
      · exact absurd (h.superseded ho hin hs) hsup
      · exact absurd hwin (hahead.1 resp hr hcon)
    · exact h.shown resp hr x hx (fun hs => hsup (h.superseded ho hin hs)) hcon hwin
  going c hc x hx hsup hcon hwin := by
    rcases mem_track.mp hx with hadd | ⟨hx, _⟩
    · rcases hin.1 x hadd with hs | hahead
      · exact absurd (h.superseded ho hin hs) hsup
      · exact Or.inr (hahead.2 c hc hcon hwin)
    · exact h.going c hc x hx (fun hs => hsup (h.superseded ho hin hs)) hcon hwin

/-! ### rows that a sync finds -/

theorem holds_state (h : db.Holds (.member k u r st c)) :
    (db.states k).get (MemberTables.userroomId u r) = some st := by
  obtain ⟨st', hget, he⟩ := Option.map_eq_some_iff.mp (h _ List.mem_cons_self)
  cases he
  exact hget

theorem holds_count (h : db.Holds (.member k u r st c)) :
    (db.counts k).get (MemberTables.roomuserId r u) = some c := by
  obtain ⟨c', hget, he⟩ := Option.map_eq_some_iff.mp
    (h _ (List.mem_cons_of_mem _ List.mem_cons_self))
  cases he
  exact hget

theorem Inv.keysShown (h : Inv s) {target : Text} (hx : .keyChange target n u ∈ s.live) (hsince : since < n) :
    u ∈ s.db.keysChanged target since none := by
  obtain ⟨u', hget, he⟩ := Option.map_eq_some_iff.mp (h.holds _ hx _ List.mem_cons_self)
  cases he
  refine mem_keysChanged hsince (h.counts _ hx).2 (fun row hrow => ?_) hget
  obtain ⟨y, hy, hcell⟩ := h.listed (.keyChange row.1) (.keyChange row.2) trivial
    (congrArg (Option.map Cell.keyChange) ((s.db.keychanges.get_eq_some_iff _ _).mpr hrow))
  cases y with
  | keyChange t m v =>
    have hkey := congrArg Prod.fst (List.mem_singleton.mp hcell)
    exact ⟨t, m, (h.counts _ hy).2, Slot.keyChange.inj hkey⟩
  | member => rcases List.mem_cons.mp hcell with he | hcell
              · cases he
              · cases List.mem_singleton.mp hcell
  | _ => cases List.mem_singleton.mp hcell

theorem Inv.receiptShown (h : Inv s) (I : Ids) {event : JsonObject} (hx : .receipt r u n event ∈ s.live)
    (hsince : since < n) :
    JsonObject.remove event "room_id" ∈ (s.db.readreceiptsSince I r since).map (·.2.2) := by
  obtain ⟨event', hget, he⟩ := Option.map_eq_some_iff.mp (h.holds _ hx _ List.mem_cons_self)
  cases he
  exact List.mem_map.mpr ⟨_, mem_readreceiptsSince hsince (h.counts _ hx).2 I hget, rfl⟩

theorem Inv.accountRow (h : Inv s) {key : Bytes} {d : Json} (hget : s.db.accountdata.get key = some d) :
    ∃ t u k n, .accountData t u k n d ∈ s.live ∧ key = roomuserdataid t u n k := by
  obtain ⟨y, hy, hcell⟩ := h.listed (.accountData key) (.accountData d) trivial
    (congrArg (Option.map Cell.accountData) hget)
  cases y with
  | accountData t u k n d' =>
    have hpair := List.mem_singleton.mp hcell
    have hkey := Slot.accountData.inj (congrArg Prod.fst hpair)
    have hdata := Cell.accountData.inj (congrArg Prod.snd hpair)
    subst hdata
    exact ⟨t, u, k, n, hy, hkey⟩
  | member => rcases List.mem_cons.mp hcell with he | hcell
              · cases he
              · cases List.mem_singleton.mp hcell
  | _ => cases List.mem_singleton.mp hcell

theorem Inv.accountShown (h : Inv s) {scope : Text} {kind : Text} {data : Json}
    (hx : .accountData scope u kind n data ∈ s.live)
    (hlast : ¬ Superseded s.live (.accountData scope u kind n data)) (hsince : since < n) :
    (scope, data) ∈ (s.db.changesSince scope u since).rows.map (fun row => (scope, row.2)) := by
  obtain ⟨data', hget, he⟩ := Option.map_eq_some_iff.mp (h.holds _ hx _ List.mem_cons_self)
  cases he
  have hfound : (s.db.changesSince scope u since).get kind.bytes = some data := by
    refine get_changesSince hsince (h.counts _ hx).2 (fun row hrow => ?_) hget fun m d hm hd => ?_
    · obtain ⟨t, v, k, m, hy, hkey⟩ := h.accountRow ((s.db.accountdata.get_eq_some_iff _ _).mpr hrow)
      exact ⟨t, v, m, k, (h.counts _ hy).2, hkey⟩
    · obtain ⟨t, v, k, m', hy, hkey⟩ := h.accountRow hd
      obtain ⟨rfl, rfl, rfl, rfl⟩ := roomuserdataid_inj hm (h.counts _ hy).2 hkey
      by_contra hlt
      exact hlast ⟨_, hy, rfl, rfl, rfl, Nat.lt_of_not_le hlt⟩
  exact List.mem_map.mpr ⟨_, (Tree.get_eq_some_iff _ _ _).mp hfound, rfl⟩

theorem mem_okRooms {α : Type} {scan : List (Except Error α)} {rs : List α}
    (h : okRooms scan = some rs) {a : α} (ha : .ok a ∈ scan) : a ∈ rs := by
  unfold okRooms at h
  split at h
  · cases h
    exact List.mem_filterMap.mpr ⟨_, ha, rfl⟩
  · cases h

/-! ### syncs -/

section
variable {c c' : Sync} {rest : List Sync} (hp : s.syncs.Perm (c :: rest))
include hp

theorem Inv.advance (h : Inv s) (huser : c'.user = c.user) (hdevice : c'.device = c.device)
    (hsince : c'.since = c.since) (hnext : c'.nextBatch = c.nextBatch)
    (hrooms : ∀ x, Concerns c'.user c'.rooms x → Concerns c.user c.rooms x)
    (hgo : ∀ x ∈ s.live, ¬ Superseded s.live x → Concerns c'.user c'.rooms x →
      Within c.since c.nextBatch x → c.out.Shows x ∨ c.todo.Ahead c.user x →
      c'.out.Shows x ∨ c'.todo.Ahead c'.user x) : Inv { s with syncs := c' :: rest } where
  counter_lt := h.counter_lt
  writers := h.writers
  counts := h.counts
  holds := h.holds
  listed := h.listed
  received d hd := by
    rcases List.mem_cons.mp hd with rfl | hd
    · rw [huser, hdevice, hsince]
      exact h.received c (hp.mem_iff.mpr List.mem_cons_self)
    · exact h.received d (hp.mem_iff.mpr (List.mem_cons_of_mem _ hd))
  chained := h.chained
  shown := h.shown
  going d hd x hx hsup hcon hwin := by
    rcases List.mem_cons.mp hd with rfl | hd
    · rw [hsince, hnext] at hwin
      exact hgo x hx hsup hcon hwin
        (h.going c (hp.mem_iff.mpr List.mem_cons_self) x hx hsup (hrooms x hcon) hwin)
    · exact h.going d (hp.mem_iff.mpr (List.mem_cons_of_mem _ hd)) x hx hsup hcon hwin

theorem Inv.drop (h : Inv s) : Inv { s with syncs := rest } where
  counter_lt := h.counter_lt
  writers := h.writers
  counts := h.counts
  holds := h.holds
  listed := h.listed
  received d hd := h.received d (hp.mem_iff.mpr (List.mem_cons_of_mem _ hd))
  chained := h.chained
  shown := h.shown
  going d hd := h.going d (hp.mem_iff.mpr (List.mem_cons_of_mem _ hd))

theorem Inv.respond (h : Inv s) {rooms : List RoomId} (htodo : c.todo = .done)
    (hrooms : c.rooms = some rooms) : Inv { s with
      syncs := rest
      responses := ⟨c.user, c.device, c.since, c.nextBatch, rooms, c.out⟩ :: s.responses } where
  counter_lt := h.counter_lt
  writers := h.writers
  counts := h.counts
  holds := h.holds
  listed := h.listed
  received d hd := by
    rcases h.received d (hp.mem_iff.mpr (List.mem_cons_of_mem _ hd)) with h0 | ⟨resp, hr, hrest⟩
    · exact Or.inl h0
    · exact Or.inr ⟨resp, List.mem_cons_of_mem _ hr, hrest⟩
  chained resp hr n h0 hn := by
    have hold : ∀ resp ∈ s.responses, n ≤ resp.nextBatch → ∃ resp' ∈
        (⟨c.user, c.device, c.since, c.nextBatch, rooms, c.out⟩ : Response) :: s.responses,
        resp'.user = resp.user ∧ resp'.device = resp.device ∧ resp'.since < n ∧ n ≤ resp'.nextBatch := by
      intro resp hr hn
      obtain ⟨resp', hr', hrest⟩ := h.chained resp hr n h0 hn
      exact ⟨resp', List.mem_cons_of_mem _ hr', hrest⟩
    rcases List.mem_cons.mp hr with rfl | hr
    · rcases Nat.lt_or_ge c.since n with hlt | hge
      · exact ⟨_, List.mem_cons_self, rfl, rfl, hlt, hn⟩
      · -- the count is in the window of an earlier response
        rcases h.received c (hp.mem_iff.mpr List.mem_cons_self) with hzero | ⟨resp, hr, hu, hd, hnext⟩
        · omega
        · obtain ⟨resp', hr', hu', hd', hwin⟩ := hold resp hr (hnext ▸ hge)
          exact ⟨resp', hr', hu'.trans hu, hd'.trans hd, hwin⟩
    · exact hold resp hr hn
  shown resp hr x hx hsup hcon hwin := by
    rcases List.mem_cons.mp hr with rfl | hr
    · have hc : c ∈ s.syncs := hp.mem_iff.mpr List.mem_cons_self
      rcases h.going c hc x hx hsup (by rw [hrooms]; exact hcon) hwin with hshows | hahead
      · exact hshows
      · rw [htodo] at hahead
        cases x with
        | member k => cases k <;> exact hahead.elim
        | accountData =>
          rcases hahead with hahead | ⟨_, hne⟩
          · exact hahead.elim
          · exact absurd rfl hne
        | receipt | keyChange => exact hahead.elim
    · exact h.shown resp hr x hx hsup hcon hwin
  going d hd := h.going d (hp.mem_iff.mpr (List.mem_cons_of_mem _ hd))

end

/-! ### the stages of a sync -/

theorem Out.Shows.mono {out out' : Out} (h : out.Shows x) (hkeys : out.changed ⊆ out'.changed)
    (hreceipts : out.receipts ⊆ out'.receipts) (haccount : out.accountData ⊆ out'.accountData)
    (hleft : out.left ⊆ out'.left) (hinvited : out.invited ⊆ out'.invited) : out'.Shows x := by
  cases x with
  | member k =>
    cases k with
    | invite => exact hinvited h
    | leave => exact hleft h
  | accountData => exact haccount h
  | receipt => exact hreceipts h
  | keyChange => exact hkeys h

section
variable {c : Sync} {x : Row} {r : RoomId} {rs : List RoomId}
variable {rooms : List (RoomId × List Json)}

theorem Inv.readKeys (h : Inv s) (hx : x ∈ s.live) (hwin : Within c.since c.nextBatch x)
    (hold : c.out.Shows x ∨ Todo.keys.Ahead c.user x) :
    ({ c.out with changed := s.db.keysChanged c.user.toText c.since none ++ c.out.changed } : Out).Shows x
      ∨ Todo.joined.Ahead c.user x := by
  rcases hold with hshows | _
  · exact Or.inl (hshows.mono (List.subset_append_right _ _) (fun _ => id) (fun _ => id)
      (fun _ => id) (fun _ => id))
  · cases x with
    | keyChange target n u =>
      by_cases ht : target = c.user.toText
      · subst ht
        exact Or.inl (List.mem_append_left _ (h.keysShown hx hwin.1))
      · exact Or.inr ht
    | member k => cases k <;> exact Or.inr trivial
    | accountData => exact Or.inr (Or.inl trivial)
    | receipt => exact Or.inr trivial

theorem Inv.readRoomKeys (h : Inv s) (hx : x ∈ s.live) (hwin : Within c.since c.nextBatch x)
    (hold : c.out.Shows x ∨ (Todo.rooms (r :: rs)).Ahead c.user x) :
    ({ c.out with changed := s.db.keysChanged r.toText c.since none ++ c.out.changed } : Out).Shows x
      ∨ (Todo.receipts r rs).Ahead c.user x := by
  rcases hold with hshows | hahead
  · exact Or.inl (hshows.mono (List.subset_append_right _ _) (fun _ => id) (fun _ => id)
      (fun _ => id) (fun _ => id))
  · cases x with
    | keyChange target n u =>
      obtain ⟨q, hq, rfl⟩ := hahead
      rcases List.mem_cons.mp hq with rfl | hq
      · exact Or.inl (List.mem_append_left _ (h.keysShown hx hwin.1))
      · exact Or.inr ⟨q, hq, rfl⟩
    | member k => cases k <;> exact Or.inr trivial
    | accountData =>
      rcases hahead with hahead | ⟨hscope, _⟩
      · exact Or.inr (Or.inl hahead)
      · exact Or.inr (Or.inr ⟨hscope, nofun⟩)
    | receipt => exact Or.inr hahead

theorem Inv.readReceipts (h : Inv s) (I : Ids) (hx : x ∈ s.live) (hwin : Within c.since c.nextBatch x)
    (hold : c.out.Shows x ∨ (Todo.receipts r rs).Ahead c.user x) :
    c.out.Shows x ∨ (Todo.roomAccount r ((s.db.readreceiptsSince I r c.since).map (·.2.2)) rs).Ahead
      c.user x := by
  rcases hold with hshows | hahead
  · exact Or.inl hshows
  · refine Or.inr ?_
    cases x with
    | keyChange => exact hahead
    | member k => cases k <;> exact trivial
    | accountData =>
      rcases hahead with hahead | ⟨hscope, _⟩
      · exact Or.inl hahead
      · exact Or.inr ⟨hscope, nofun⟩
    | receipt q u n event =>
      rcases List.mem_cons.mp hahead with rfl | hq
      · exact Or.inl ⟨rfl, h.receiptShown I hx hwin.1⟩
      · exact Or.inr hq

theorem Inv.readRoomAccount (h : Inv s) (hx : x ∈ s.live) (hlast : ¬ Superseded s.live x)
    (hcon : Concerns c.user c.rooms x) (hwin : Within c.since c.nextBatch x) {events : List JsonObject}
    (hold : c.out.Shows x ∨ (Todo.roomAccount r events rs).Ahead c.user x) :
    ({ c.out with
      receipts := events.map (fun event => (r, event)) ++ c.out.receipts
      accountData := (s.db.changesSince r.toText c.user c.since).rows.map
        (fun row => (r.toText, row.2)) ++ c.out.accountData } : Out).Shows x
      ∨ (Todo.rooms rs).Ahead c.user x := by
  rcases hold with hshows | hahead
  · exact Or.inl (hshows.mono (fun _ => id) (List.subset_append_right _ _)
      (List.subset_append_right _ _) (fun _ => id) (fun _ => id))
  · cases x with
    | keyChange => exact Or.inr hahead
    | member k => cases k <;> exact Or.inr trivial
    | accountData scope u kind n data =>
      obtain rfl : u = c.user := hcon
      rcases hahead with ⟨q, hq, rfl⟩ | ⟨hscope, _⟩
      · rcases List.mem_cons.mp hq with rfl | hq
        · exact Or.inl (List.mem_append_left _ (h.accountShown hx hlast hwin.1))
        · exact Or.inr (Or.inl ⟨q, hq, rfl⟩)
      · exact Or.inr (Or.inr ⟨hscope, nofun⟩)
    | receipt q u n event =>
      rcases hahead with ⟨rfl, hevent⟩ | hq
      · exact Or.inl (List.mem_append_left _ (List.mem_map.mpr ⟨_, hevent, rfl⟩))
      · exact Or.inr hq

theorem ahead_roomsLoaded (h : (Todo.rooms []).Ahead u x) : Todo.left.Ahead u x := by
  cases x with
  | member k => cases k <;> exact trivial
  | accountData =>
    rcases h with ⟨q, hq, _⟩ | ⟨hscope, _⟩
    · exact absurd hq List.not_mem_nil
    · exact Or.inr ⟨hscope, nofun⟩
  | receipt => exact absurd h List.not_mem_nil
  | keyChange =>
    obtain ⟨q, hq, _⟩ := h
    exact absurd hq List.not_mem_nil

theorem Inv.readLeft (h : Inv s) (I : Ids) (hx : x ∈ s.live) (hcon : Concerns c.user c.rooms x)
    (hscan : okRooms (s.db.roomsMarked I c.user .leave) = some rooms) (hahead : Todo.left.Ahead c.user x) :
    (Todo.leaving (rooms.map Prod.fst)).Ahead c.user x := by
  cases x with
  | member k u r st n =>
    obtain rfl : u = c.user := hcon
    cases k with
    | invite => exact trivial
    | leave =>
      exact List.mem_map.mpr ⟨_, mem_okRooms hscan (mem_roomsMarked I (holds_state (h.holds _ hx))), rfl⟩
  | accountData =>
    rcases hahead with hahead | ⟨hscope, _⟩
    · exact hahead.elim
    · exact Or.inr ⟨hscope, nofun⟩
  | receipt | keyChange => exact hahead

theorem Inv.readLeftCount (h : Inv s) (hx : x ∈ s.live) (hcon : Concerns c.user c.rooms x)
    (hwin : Within c.since c.nextBatch x) (hahead : (Todo.leaving (r :: rs)).Ahead c.user x) :
    Todo.Ahead c.user (match (s.db.counts .leave).get (MemberTables.roomuserId r c.user) with
      | some count => if c.since ≥ count then .leaving rs else .leave r rs
      | none => .leaving rs) x := by
  -- whatever comes next, rows of other tables are still ahead
  have hother : ∀ todo : Todo, (∀ u q st n, x = .member .leave u q st n → todo.AheadLeave q) →
      (todo = .leaving rs ∨ todo = .leave r rs) → todo.Ahead c.user x := by
    intro todo hleave htodo
    cases x with
    | member k u q st n =>
      cases k with
      | invite => rcases htodo with rfl | rfl <;> exact trivial
      | leave => exact hleave u q st n rfl
    | accountData =>
      rcases hahead with hahead | ⟨hscope, _⟩
      · exact hahead.elim
      · rcases htodo with rfl | rfl <;> exact Or.inr ⟨hscope, nofun⟩
    | receipt | keyChange => exact hahead.elim
  -- a room that is passed over was not left since
  have hpassed : (∀ count, (s.db.counts .leave).get (MemberTables.roomuserId r c.user) = some count → c.since ≥ count) →
      ∀ u q st n, x = .member .leave u q st n → (Todo.leaving rs).AheadLeave q := by
    rintro hold u q st n rfl
    rcases List.mem_cons.mp hahead with rfl | hq
    · obtain rfl : u = c.user := hcon
      exact absurd hwin.1 (not_lt.mpr (hold n (holds_count (h.holds _ hx))))
    · exact hq
  cases hcount : (s.db.counts .leave).get (MemberTables.roomuserId r c.user) with
  | none =>
    rw [hcount] at hpassed
    exact hother _ (hpassed nofun) (Or.inl rfl)
  | some count =>
    show Todo.Ahead c.user (if c.since ≥ count then .leaving rs else .leave r rs) x
    by_cases hge : c.since ≥ count
    · rw [if_pos hge]
      refine hother _ (hpassed fun n hn => ?_) (Or.inl rfl)
      rw [hcount] at hn
      cases hn
      exact hge
    · rw [if_neg hge]
      refine hother _ (fun u q st n he => ?_) (Or.inr rfl)
      subst he
      exact hahead

theorem Inv.readLeave (hahead : (Todo.leave r rs).Ahead c.user x) :
    ({ c.out with left := r :: c.out.left } : Out).Shows x ∨ (Todo.leaving rs).Ahead c.user x := by
  cases x with
  | member k u q st n =>
    cases k with
    | invite => exact Or.inr trivial
    | leave =>
      rcases List.mem_cons.mp hahead with rfl | hq
      · exact Or.inl List.mem_cons_self
      · exact Or.inr hq
  | accountData =>
    rcases hahead with hahead | ⟨hscope, _⟩
    · exact hahead.elim
    · exact Or.inr (Or.inr ⟨hscope, nofun⟩)
  | receipt | keyChange => exact hahead.elim

theorem ahead_leavesDone (h : (Todo.leaving []).Ahead u x) : Todo.invited.Ahead u x := by
  cases x with
  | member k =>
    cases k with
    | invite => exact trivial
    | leave => exact absurd h List.not_mem_nil
  | accountData =>
    rcases h with h | ⟨hscope, _⟩
    · exact h.elim
    · exact Or.inr ⟨hscope, nofun⟩
  | receipt | keyChange => exact h

theorem Inv.readInvited (h : Inv s) (I : Ids) (hx : x ∈ s.live) (hcon : Concerns c.user c.rooms x)
    (hscan : okRooms (s.db.roomsMarked I c.user .invite) = some rooms) (hahead : Todo.invited.Ahead c.user x) :
    (Todo.inviting rooms).Ahead c.user x := by
  cases x with
  | member k u r st n =>
    obtain rfl : u = c.user := hcon
    cases k with
    | invite => exact mem_okRooms hscan (mem_roomsMarked I (holds_state (h.holds _ hx)))
    | leave => exact hahead
  | accountData =>
    rcases hahead with hahead | ⟨hscope, _⟩
    · exact hahead.elim
    · exact Or.inr ⟨hscope, nofun⟩
  | receipt | keyChange => exact hahead

theorem Inv.readInviteCount (h : Inv s) (hx : x ∈ s.live) (hcon : Concerns c.user c.rooms x)
    (hwin : Within c.since c.nextBatch x) (hahead : (Todo.inviting ((r, st) :: rooms)).Ahead c.user x) :
    ({ c.out with invited := match (s.db.counts .invite).get (MemberTables.roomuserId r c.user) with
        | some count => if c.since ≥ count then c.out.invited else (r, st) :: c.out.invited
        | none => c.out.invited } : Out).Shows x ∨ (Todo.inviting rooms).Ahead c.user x := by
  cases x with
  | member k u q st' n =>
    obtain rfl : u = c.user := hcon
    cases k with
    | invite =>
      rcases List.mem_cons.mp hahead with he | hq
      · cases he
        refine Or.inl ?_
        show (r, st) ∈ (match (s.db.counts .invite).get (MemberTables.roomuserId r c.user) with
          | some count => if c.since ≥ count then c.out.invited else (r, st) :: c.out.invited
          | none => c.out.invited)
        rw [holds_count (h.holds _ hx)]
        show (r, st) ∈ if c.since ≥ n then c.out.invited else (r, st) :: c.out.invited
        have hnew : ¬ c.since ≥ n := not_le.mpr hwin.1
        rw [if_neg hnew]
        exact List.mem_cons_self
      · exact Or.inr hq
    | leave => exact hahead.elim
  | accountData =>
    rcases hahead with hahead | ⟨hscope, _⟩
    · exact hahead.elim
    · exact Or.inr (Or.inr ⟨hscope, nofun⟩)
  | receipt | keyChange => exact hahead.elim

theorem ahead_invitesDone (h : (Todo.inviting []).Ahead u x) : Todo.account.Ahead u x := by
  cases x with
  | member k =>
    cases k with
    | invite => exact absurd h List.not_mem_nil
    | leave => exact h.elim
  | accountData =>
    rcases h with h | ⟨hscope, _⟩
    · exact h.elim
    · exact Or.inr ⟨hscope, nofun⟩
  | receipt | keyChange => exact h

theorem Inv.readAccount (h : Inv s) (hx : x ∈ s.live) (hlast : ¬ Superseded s.live x)
    (hcon : Concerns c.user c.rooms x) (hwin : Within c.since c.nextBatch x)
    (hahead : Todo.account.Ahead c.user x) :
    ({ c.out with
      accountData := (s.db.changesSince (scopeText none) c.user c.since).rows.map
        (fun row => (scopeText none, row.2)) ++ c.out.accountData } : Out).Shows x := by
  cases x with
  | member k => cases k <;> exact hahead.elim
  | accountData scope u kind n data =>
    obtain rfl : u = c.user := hcon
    rcases hahead with hahead | ⟨rfl, _⟩
    · exact hahead.elim
    · exact List.mem_append_left _ (h.accountShown hx hlast hwin.1)
  | receipt | keyChange => exact hahead.elim

end

/-! ### steps and runs -/

/-- a step that changes no row, no sync and no response -/
theorem Inv.quiet {s' : State} (h : Inv s) (hcounter : s'.counter < 2^64)
    (hlook : ∀ slot, s'.db.look slot = s.db.look slot) (hlive : s'.live = s.live)
    (hwriters : ∀ w ∈ s'.writers, w.Counted) (hsyncs : s'.syncs = s.syncs)
    (hresponses : s'.responses = s.responses) : Inv s' where
  counter_lt := hcounter
  writers := hwriters
  counts x hx := h.counts x (hlive ▸ hx)
  holds x hx p hp := (hlook p.1).trans (h.holds x (hlive ▸ hx) p hp)
  listed slot cell hstream hcell := by
    rw [hlive]
    exact h.listed slot cell hstream ((hlook slot).symm.trans hcell)
  received c hc := by
    unfold State.Received
    rw [hresponses]
    exact h.received c (hsyncs ▸ hc)
  chained := hresponses ▸ h.chained
  shown resp hr x hx hsup := by
    rw [hlive] at hx hsup
    exact h.shown resp (hresponses ▸ hr) x hx hsup
  going c hc x hx hsup := by
    rw [hlive] at hx hsup
    exact h.going c (hsyncs ▸ hc) x hx hsup

theorem Inv.begin (h : Inv s) {d : DeviceId} (hrec : s.Received u d since) : Inv { s with
      syncs := ⟨u, d, since, s.counter, none, .keys, ⟨[], [], [], [], []⟩⟩ :: s.syncs } where
  counter_lt := h.counter_lt
  writers := h.writers
  counts := h.counts
  holds := h.holds
  listed := h.listed
  received c hc := by
    rcases List.mem_cons.mp hc with rfl | hc
    · exact hrec
    · exact h.received c hc
  chained := h.chained
  shown := h.shown
  going c hc x hx hsup hcon hwin := by
    rcases List.mem_cons.mp hc with rfl | hc
    · -- nothing is read yet
      refine Or.inr ?_
      cases x with
      | member k => cases k <;> exact trivial
      | accountData => exact Or.inl trivial
      | receipt | keyChange => exact trivial
    · exact h.going c hc x hx hsup hcon hwin

theorem concerns_none {rooms : Option (List RoomId)} (h : Concerns u rooms x) : Concerns u none x := by
  cases x with
  | member | accountData => exact h
  | receipt => exact nofun
  | keyChange => exact Or.inr nofun

end

theorem step_inv {s s' : State} {a : Act} (h : Inv s) (hstep : Step I s a s') (hin : InTime s a) : Inv s' := by
  cases hstep with
  | tick hlt => exact h.quiet hlt (fun _ => rfl) rfl h.writers rfl rfl
  | encryption state =>
    refine h.quiet h.counter_lt (fun slot => ?_) rfl h.writers rfl rfl
    cases slot with
    | state k | count k => cases k <;> rfl
    | _ => rfl
  | call hcall =>
    refine h.quiet h.counter_lt (fun _ => rfl) rfl (fun w hw => ?_) rfl rfl
    rcases List.mem_cons.mp hw with rfl | hw
    · exact call_counted hcall
    · exact h.writers w hw
  | draw hp hlt =>
    refine h.quiet hlt (fun _ => rfl) rfl (fun w hw => ?_) rfl rfl
    rcases List.mem_cons.mp hw with rfl | hw
    · exact h.writers _ (hp.mem_iff.mpr List.mem_cons_self) _ (Nat.succ_pos _) hlt
    · exact h.writers w (hp.mem_iff.mpr (List.mem_cons_of_mem _ hw))
  | ask hp =>
    refine h.quiet h.counter_lt (fun _ => rfl) rfl (fun w hw => ?_) rfl rfl
    rcases List.mem_cons.mp hw with rfl | hw
    · exact h.writers _ (hp.mem_iff.mpr List.mem_cons_self) _
    · exact h.writers w (hp.mem_iff.mpr (List.mem_cons_of_mem _ hw))
  | op hp =>
    have hw := h.writers _ (hp.mem_iff.mpr List.mem_cons_self)
    refine h.write hw.1 hin fun w hmem => ?_
    rcases List.mem_cons.mp hmem with rfl | hmem
    · exact hw.2
    · exact h.writers w (hp.mem_iff.mpr (List.mem_cons_of_mem _ hmem))
  | stop hp =>
    exact h.quiet h.counter_lt (fun _ => rfl) rfl
      (fun w hw => h.writers w (hp.mem_iff.mpr (List.mem_cons_of_mem _ hw))) rfl rfl
  | begin u d hrec => exact h.begin hrec
  | keys hp htodo =>
    refine h.advance hp rfl rfl rfl rfl (fun _ => id) fun x hx _ _ hwin hold => ?_
    rw [htodo] at hold
    exact h.readKeys hx hwin hold
  | joined hp _ hnone _ =>
    refine h.advance hp rfl rfl rfl rfl (fun x hcon => by rw [hnone]; exact concerns_none hcon)
      fun x hx hsup hcon hwin hold => ?_
    exact hold.imp id (hin x hx hsup hcon hwin)
  | roomKeys hp htodo =>
    refine h.advance hp rfl rfl rfl rfl (fun _ => id) fun x hx _ _ hwin hold => ?_
    rw [htodo] at hold
    exact h.readRoomKeys hx hwin hold
  | roomReceipts hp htodo =>
    refine h.advance hp rfl rfl rfl rfl (fun _ => id) fun x hx _ _ hwin hold => ?_
    rw [htodo] at hold
    exact h.readReceipts I hx hwin hold
  | @roomAccount c rest r events rooms hp htodo =>
    refine h.advance hp rfl rfl rfl rfl (fun _ => id) fun x hx hsup hcon hwin hold => ?_
    rw [htodo] at hold
    exact h.readRoomAccount (c := c) hx hsup hcon hwin hold
  | roomFails hp _ =>
    refine h.advance hp rfl rfl rfl rfl (fun _ => id) fun x hx hsup hcon hwin hold => ?_
    exact hold.imp id (hin x hx hsup hcon hwin)
  | roomsLoaded hp htodo =>
    refine h.advance hp rfl rfl rfl rfl (fun _ => id) fun x _ _ _ _ hold => ?_
    rw [htodo] at hold
    exact hold.imp id ahead_roomsLoaded
  | left hp htodo hscan =>
    refine h.advance hp rfl rfl rfl rfl (fun _ => id) fun x hx _ hcon _ hold => ?_
    rw [htodo] at hold
    exact hold.imp id (h.readLeft I hx hcon hscan)
  | leftCount hp htodo =>
    refine h.advance hp rfl rfl rfl rfl (fun _ => id) fun x hx _ hcon hwin hold => ?_
    rw [htodo] at hold
    exact hold.imp id (h.readLeftCount hx hcon hwin)
  | leave known leaveEvent shortstatehash hp htodo _ =>
    refine h.advance hp rfl rfl rfl rfl (fun _ => id) fun x _ _ _ _ hold => ?_
    rw [htodo] at hold
    rcases hold with hshows | hahead
    · exact Or.inl (hshows.mono (fun _ => id) (fun _ => id) (fun _ => id)
        (List.subset_cons_self _ _) (fun _ => id))
    · exact Inv.readLeave hahead
  | leaveLeftOut known leaveEvent shortstatehash hp htodo _ =>
    refine h.advance hp rfl rfl rfl rfl (fun _ => id) fun x hx hsup hcon hwin hold => ?_
    exact hold.imp id (hin x hx hsup hcon hwin)
  | leavesDone hp htodo =>
    refine h.advance hp rfl rfl rfl rfl (fun _ => id) fun x _ _ _ _ hold => ?_
    rw [htodo] at hold
    exact hold.imp id ahead_leavesDone
  | invited hp htodo hscan =>
    refine h.advance hp rfl rfl rfl rfl (fun _ => id) fun x hx _ hcon _ hold => ?_
    rw [htodo] at hold
    exact hold.imp id (h.readInvited I hx hcon hscan)
  | @inviteCount c rest r st rooms hp htodo =>
    refine h.advance hp rfl rfl rfl rfl (fun _ => id) fun x hx _ hcon hwin hold => ?_
    rw [htodo] at hold
    rcases hold with hshows | hahead
    · refine Or.inl (hshows.mono (fun _ => id) (fun _ => id) (fun _ => id) (fun _ => id) ?_)
      intro room hroom
      dsimp only
      split
      · split_ifs
        · exact hroom
        · exact List.mem_cons_of_mem _ hroom
      · exact hroom
    · exact h.readInviteCount (c := c) hx hcon hwin hahead
  | invitesDone hp htodo =>
    refine h.advance hp rfl rfl rfl rfl (fun _ => id) fun x _ _ _ _ hold => ?_
    rw [htodo] at hold
    exact hold.imp id ahead_invitesDone
  | account hp htodo =>
    refine h.advance hp rfl rfl rfl rfl (fun _ => id) fun x hx hsup hcon hwin hold => ?_
    rw [htodo] at hold
    rcases hold with hshows | hahead
    · exact Or.inl (hshows.mono (fun _ => id) (fun _ => id) (List.subset_append_right _ _)
        (fun _ => id) (fun _ => id))
    · exact Or.inl (h.readAccount hx hsup hcon hwin hahead)
  | respond hp htodo hrooms' => exact h.respond hp htodo hrooms'
  | abort hp => exact h.drop hp

theorem run_inv {s : State} (h : RunWith I InTime s) : Inv s := by
  induction h with
  | start => exact inv_start
  | step _ hstep hin ih => exact step_inv ih hstep hin

theorem Inv.updatesShown {s : State} (h : Inv s) : s.UpdatesShown := by
  intro resp hr x hx hsup hle
  obtain ⟨resp', hr', hu, hd, hlt, hn⟩ := h.chained resp hr x.count (h.counts x hx).1 hle
  exact ⟨resp', hr', hu, hd, ⟨hlt, hn⟩, fun hcon => h.shown resp' hr' x hx hsup hcon ⟨hlt, hn⟩⟩

/-- **updates are shown** in runs whose rows are stored in time, and whose syncs leave out no room
with such a row -/
theorem updates_shown (I : Ids) : ∀ s, RunWith I InTime s → s.UpdatesShown :=
  fun _ h => (run_inv h).updatesShown

/-! ## concrete runs -/

def alice : UserId := ⟨.ascii "@alice:x"⟩
def phone : DeviceId := ⟨.ascii "phone"⟩
def lobby : RoomId := ⟨.ascii "!lobby:x"⟩

/-- an invite is stored, and the next sync shows it -/
theorem updates_shown_one : ∃ s, RunWith Ids.bytewise InTime s ∧
    s.live = [.member .invite alice lobby [] 1] ∧
    s.responses.map (·.out.invited) = [[(lobby, [])]] ∧ s.UpdatesShown := by
  have h0 : RunWith Ids.bytewise InTime start := .start
  have h1 := h0.step (.call (.invited alice lobby none)) trivial
  have h2 := h1.step (.op (.refl _)) ⟨nofun, nofun⟩
  have h3 := h2.step (.draw (.refl _) (by decide)) trivial
  have h4 := h3.step (.op (.refl _)) ⟨fun x _ => Or.inr ⟨nofun, nofun⟩, nofun⟩
  have h5 := h4.step (.begin alice phone (Or.inl rfl)) trivial
  have h6 := h5.step (.keys (.refl _) rfl) trivial
  have h7 := h6.step (.joined (.refl _) rfl rfl rfl) fun x hx _ _ _ _ => by
    rw [List.mem_singleton.mp hx]
    trivial
  have h8 := h7.step (.roomsLoaded (.refl _) rfl) trivial
  have h9 := h8.step (.left (.refl _) rfl rfl) trivial
  have h10 := h9.step (.leavesDone (.refl _) rfl) trivial
  have h11 := h10.step (.invited (.refl _) rfl rfl) trivial
  have h12 := h11.step (.inviteCount (.refl _) rfl) trivial
  have h13 := h12.step (.invitesDone (.refl _) rfl) trivial
  have h14 := h13.step (.account (.refl _) rfl) trivial
  have h15 := h14.step (.respond (.refl _) rfl rfl) trivial
  exact ⟨_, h15, rfl, rfl, updates_shown _ _ h15⟩

/-- a device syncs between the two steps of an invite -/
theorem invite_unseen : ∃ s, RunWith Ids.bytewise (fun _ _ => True) s ∧
    s.live = [.member .invite alice lobby [] 1] ∧
    s.responses = [⟨alice, phone, 0, 1, [], ⟨[], [], [], [], []⟩⟩] := by
  have h0 : RunWith Ids.bytewise (fun _ _ => True) start := .start
  have h1 := h0.step (.call (.invited alice lobby none)) trivial
  have h2 := h1.step (.op (.refl _)) trivial
  have h3 := h2.step (.draw (.refl _) (by decide)) trivial
  have h4 := h3.step (.begin alice phone (Or.inl rfl)) trivial
  have h5 := h4.step (.keys (.refl _) rfl) trivial
  have h6 := h5.step (.joined (.refl _) rfl rfl rfl) trivial
  have h7 := h6.step (.roomsLoaded (.refl _) rfl) trivial
  have h8 := h7.step (.left (.refl _) rfl rfl) trivial
  have h9 := h8.step (.leavesDone (.refl _) rfl) trivial
  have h10 := h9.step (.invited (.refl _) rfl rfl) trivial
  have h11 := h10.step (.inviteCount (.refl _) rfl) trivial
  have h12 := h11.step (.invitesDone (.refl _) rfl) trivial
  have h13 := h12.step (.account (.refl _) rfl) trivial
  have h14 := h13.step (.respond (.refl _) rfl rfl) trivial
  have h15 := h14.step (.op (.refl _)) trivial
  exact ⟨_, h15, rfl, rfl⟩

/-- the invite is not shown: its count is not above the token that the device has received -/
theorem invite_lost : ¬ ∀ s, RunWith Ids.bytewise (fun _ _ => True) s → s.UpdatesShown := by
  intro hall
  obtain ⟨s, hrun, hlive, hresponses⟩ := invite_unseen
  have hshown := hall s hrun
  unfold State.UpdatesShown at hshown
  rw [hlive, hresponses] at hshown
  obtain ⟨resp, hresp, _, _, _, hshows⟩ := hshown _ List.mem_cons_self _ List.mem_cons_self
    (fun ⟨y, hy, hsup⟩ => by rw [List.mem_singleton.mp hy] at hsup; exact hsup) (Nat.le_refl 1)
  rw [List.mem_singleton.mp hresp] at hshows
  exact absurd (hshows rfl) List.not_mem_nil

end SyncUpdates
end Grapevine
