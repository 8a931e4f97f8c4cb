import Grapevine.Lib.LastWrite
import Grapevine.Sync.Writers

/-!
# Account data

The data of a user lies under a count, and a pointer leads from the room, the user and the type to the row.  An
update writes a new row, moves the pointer and removes the row that it was at.

* `accountDataGet`   the read through the pointer;
* `Stored`          an update that was stored, with its count;
* `DataRun`         updates one after the other, with other counts drawn between them.

Main result: `accountData_exact`.
-/

namespace Grapevine
open Kv

namespace SyncUpdates

/-- `get` -/
def Db.accountDataGet (db : Db) (room : Option RoomId) (u : UserId) (kind : Text) : Option Json :=
  (db.roomusertypeRoomuserdataid.get (roomusertype (scopeText room) u kind)).bind db.accountdata.get

/-- what an update has stored.  No room id is empty, so the scope says whether there is a room -/
structure Stored where
  scope : Text
  user : UserId
  kind : Text
  count : Nat
  data : Json

def Stored.key (e : Stored) : Bytes := roomuserdataid e.scope e.user e.count e.kind

def Stored.slot (e : Stored) : Text × UserId × Text := (e.scope, e.user, e.kind)

/-- the last update for a room, a user and a type -/
def lastStored (log : List Stored) (scope : Text) (u : UserId) (kind : Text) : Option Stored :=
  lastOf Stored.slot log (scope, u, kind)

/-! ## runs -/

inductive DataCall where
  | update (room : Option RoomId) (u : UserId) (kind : Text) (data : Json)
  /-- something else draws a count -/
  | other

def DataCall.writer : DataCall → Writer
  | .update room u kind data => accountDataUpdate room u kind data
  | .other => .draw fun _ => .done

/-- what the call stores under the count -/
def DataCall.stores (count : Nat) : DataCall → List Stored
  | .update room u kind data =>
    if lacks data "type" || lacks data "content" then [] else [⟨scopeText room, u, kind, count, data⟩]
  | .other => []

/-- calls one after the other, from a store on, and what they have stored -/
inductive DataRun (start : Nat × Db) : List Stored → Nat × Db → Prop where
  | start : DataRun start [] start
  | step {log : List Stored} {s : Nat × Db} (c : DataCall) : DataRun start log s → s.1 + 1 < 2^64 →
      DataRun start (log ++ c.stores (s.1 + 1)) (c.writer.alone s)

/-- the rows are those of the last updates, and the pointers lead to them -/
structure DataInv (log : List Stored) (s : Nat × Db) : Prop where
  counts : ∀ e ∈ log, e.count ≤ s.1 ∧ e.count < 2^64
  rows : LastRows Stored.slot Stored.key Stored.data log s.2.accountdata
  pointers : ∀ scope u kind, s.2.roomusertypeRoomuserdataid.get (roomusertype scope u kind) =
    (lastStored log scope u kind).map Stored.key

/-! ## keys -/

theorem Text.ext_bytes {a b : Text} (h : a.bytes = b.bytes) : a = b := by
  obtain ⟨a, _⟩ := a
  cases h
  rfl

theorem accountRows_append_inj {s t : Text} {u v : UserId} {a b : Bytes}
    (h : accountRows s u ++ a = accountRows t v ++ b) : s = t ∧ u = v ∧ a = b := by
  unfold accountRows at h
  rw [List.append_assoc, List.append_assoc, List.cons_append, List.cons_append] at h
  obtain ⟨hscope, hrest⟩ := sep_append_inj s.noSep t.noSep h
  rw [List.append_assoc, List.append_assoc] at hrest
  obtain ⟨huser, hrest⟩ := sep_append_inj u.noSep v.noSep hrest
  exact ⟨Text.ext_bytes hscope, UserId.ext_bytes huser, hrest⟩

theorem roomusertype_inj {s t : Text} {u v : UserId} {k l : Text}
    (h : roomusertype s u k = roomusertype t v l) : s = t ∧ u = v ∧ k = l := by
  obtain ⟨hs, hu, hk⟩ := accountRows_append_inj h
  exact ⟨hs, hu, Text.ext_bytes hk⟩

theorem afterLast_roomuserdataid (s : Text) (u : UserId) (n : Nat) (k : Text) :
    afterLast (roomuserdataid s u n k) = k.bytes := by
  unfold roomuserdataid streamKey
  rw [← List.append_assoc]
  exact afterLast_append _ k.noSep

section
variable {log : List Stored} {scope : Text} {u : UserId} {kind : Text} {e e' : Stored}
variable {s : Nat × Db} {since : Nat}

theorem lastStored_spec (h : lastStored log scope u kind = some e) :
    e ∈ log ∧ e.scope = scope ∧ e.user = u ∧ e.kind = kind := by
  obtain ⟨hmem, hslot⟩ := lastOf_spec h
  cases hslot
  exact ⟨hmem, rfl, rfl, rfl⟩

/-- rows with one key are for one type -/
theorem DataInv.slot_eq (hinv : DataInv log s) (e : Stored) (he : e ∈ log) (e' : Stored) (he' : e' ∈ log)
    (hkey : e.key = e'.key) : e.slot = e'.slot := by
  obtain ⟨hs, hu, -, hk⟩ := roomuserdataid_inj (hinv.counts e he).2 (hinv.counts e' he').2 hkey
  unfold Stored.slot
  rw [hs, hu, hk]

/-! ## steps -/

theorem DataInv.tick (hinv : DataInv log s) : DataInv log (s.1 + 1, s.2) :=
  ⟨fun e he => ⟨Nat.le_succ_of_le (hinv.counts e he).1, (hinv.counts e he).2⟩, hinv.rows, hinv.pointers⟩

/-- what an update leaves in the store -/
theorem accountDataUpdate_alone (room : Option RoomId) (u : UserId) (kind : Text) (data : Json) (n : Nat) (db : Db) :
    (accountDataUpdate room u kind data).alone (n, db) =
      if lacks data "type" || lacks data "content" then (n + 1, db)
      else (n + 1, { db with
        accountdata :=
          match db.roomusertypeRoomuserdataid.get (roomusertype (scopeText room) u kind) with
          | some prev =>
            (db.accountdata.insert (roomuserdataid (scopeText room) u (n + 1) kind) data).remove prev
          | none => db.accountdata.insert (roomuserdataid (scopeText room) u (n + 1) kind) data
        roomusertypeRoomuserdataid :=
          db.roomusertypeRoomuserdataid.insert (roomusertype (scopeText room) u kind)
            (roomuserdataid (scopeText room) u (n + 1) kind) }) := by
  show (if lacks data "type" || lacks data "content" then Writer.done else _ : Writer).alone (n + 1, db) = _
  by_cases hlacks : (lacks data "type" || lacks data "content") = true
  · rw [if_pos hlacks, if_pos hlacks]
    rfl
  · rw [if_neg hlacks, if_neg hlacks]
    show (match db.roomusertypeRoomuserdataid.get (roomusertype (scopeText room) u kind) with
      | some prev => Writer.op (.dropAccountData prev) .done
      | none => Writer.done).alone _ = _
    cases db.roomusertypeRoomuserdataid.get (roomusertype (scopeText room) u kind) with
    | some prev => rfl
    | none => rfl

/-- the new row takes the place of the old one -/
theorem DataInv.store (hinv : DataInv log s) (hlt : s.1 + 1 < 2^64) (data : Json) {t : Tree Bytes Json}
    (ht : t = match s.2.roomusertypeRoomuserdataid.get (roomusertype scope u kind) with
      | some prev => (s.2.accountdata.insert (roomuserdataid scope u (s.1 + 1) kind) data).remove prev
      | none => s.2.accountdata.insert (roomuserdataid scope u (s.1 + 1) kind) data) :
    DataInv (log ++ [⟨scope, u, kind, s.1 + 1, data⟩]) (s.1 + 1, { s.2 with
      accountdata := t
      roomusertypeRoomuserdataid :=
        s.2.roomusertypeRoomuserdataid.insert (roomusertype scope u kind) (roomuserdataid scope u (s.1 + 1) kind) }) := by
  have hfresh : ∀ e ∈ log, e.key ≠ roomuserdataid scope u (s.1 + 1) kind := by
    intro e he hkey
    obtain ⟨-, -, hcount, -⟩ := roomuserdataid_inj (hinv.counts e he).2 hlt hkey
    have hle := (hinv.counts e he).1
    omega
  refine ⟨fun e he => ?_, ?_, fun scope' u' kind' => ?_⟩
  · rcases List.mem_append.mp he with he | he
    · exact ⟨Nat.le_succ_of_le (hinv.counts e he).1, (hinv.counts e he).2⟩
    · rw [List.mem_singleton.mp he]
      exact ⟨le_refl _, hlt⟩
  · have hget : ∀ key, (∀ prev, lastStored log scope u kind = some prev → key ≠ prev.key) →
        t.get key = (s.2.accountdata.insert (roomuserdataid scope u (s.1 + 1) kind) data).get key := by
      intro key hkey
      rw [ht, hinv.pointers]
      cases hlast : lastStored log scope u kind with
      | none => rfl
      | some prev => exact Tree.get_remove_of_ne _ (hkey prev hlast)
    refine hinv.rows.write hinv.slot_eq hfresh ?_ (fun prev hlast => ?_) fun key hkey hother => ?_
    · refine (hget _ fun prev hlast he => hfresh prev (lastStored_spec hlast).1 he.symm).trans ?_
      exact Tree.get_insert_self _ _ _
    · have hlast' : lastStored log scope u kind = some prev := hlast
      show t.get prev.key = none
      rw [ht, hinv.pointers, hlast']
      exact Tree.get_remove_self _ _
    · exact (hget key hother).trans (Tree.get_insert_of_ne _ _ hkey)
  · show (s.2.roomusertypeRoomuserdataid.insert (roomusertype scope u kind) _).get _ =
      (lastOf Stored.slot (log ++ [⟨scope, u, kind, s.1 + 1, data⟩]) (scope', u', kind')).map Stored.key
    rw [lastOf_snoc]
    by_cases hslot : Stored.slot ⟨scope, u, kind, s.1 + 1, data⟩ = (scope', u', kind')
    · rw [if_pos hslot]
      cases hslot
      exact Tree.get_insert_self _ _ _
    · rw [if_neg hslot, Tree.get_insert_of_ne]
      · exact hinv.pointers scope' u' kind'
      · intro hrow
        obtain ⟨rfl, rfl, rfl⟩ := roomusertype_inj hrow
        exact hslot rfl

theorem DataInv.empty (hrows : s.2.accountdata = .empty) (hpointers : s.2.roomusertypeRoomuserdataid = .empty) :
    DataInv [] s where
  counts e he := absurd he List.not_mem_nil
  rows := by
    rw [hrows]
    exact .nil
  pointers scope u kind := by
    rw [hpointers]
    rfl

theorem run_dataInv {start : Nat × Db} (h : DataRun start log s) (hrows : start.2.accountdata = .empty)
    (hpointers : start.2.roomusertypeRoomuserdataid = .empty) : DataInv log s := by
  induction h with
  | start => exact .empty hrows hpointers
  | @step log s c _ hlt ih =>
    cases c with
    | other =>
      rw [DataCall.stores, List.append_nil]
      exact ih.tick
    | update room u kind data =>
      show DataInv _ ((accountDataUpdate room u kind data).alone (s.1, s.2))
      rw [accountDataUpdate_alone, DataCall.stores]
      by_cases hlacks : (lacks data "type" || lacks data "content") = true
      · rw [if_pos hlacks, if_pos hlacks, List.append_nil]
        exact ih.tick
      · rw [if_neg hlacks, if_neg hlacks]
        exact ih.store hlt data rfl

/-! ## reads -/

/-- the rows of a user in a scope above a token -/
theorem DataInv.mem_above (hinv : DataInv log s) (hsince : since < u64Max) (row : Bytes × Json) :
    row ∈ s.2.accountdata.above (accountRows scope u) 8 (afterToken since) ↔
      ∃ e, lastStored log scope u e.kind = some e ∧ since < e.count ∧ row = (e.key, e.data) := by
  have htoken : afterToken since = since + 1 := Nat.mod_eq_of_lt (by rw [u64Max_eq] at hsince; omega)
  have hword : since + 1 < 256^8 := by
    rw [two64]
    rw [u64Max_eq] at hsince
    omega
  rw [htoken]
  constructor
  · intro hrow
    obtain ⟨hmem, -, rest, hrest⟩ := (Tree.mem_above_iff _ _ _ _ _).mp hrow
    obtain ⟨e, hlast, hkey, hdata⟩ := (hinv.rows row.1 row.2).mp ((Tree.get_eq_some_iff _ _ _).mpr hmem)
    rw [hkey] at hrest
    obtain ⟨rfl, rfl, -⟩ := accountRows_append_inj hrest
    have hcount := (hinv.counts e (lastStored_spec hlast).1).2
    have he : row = (e.key, e.data) := Prod.ext hkey hdata
    rw [he] at hrow
    refine ⟨e, hlast, ?_, he⟩
    exact ((Tree.mem_above _ hword (two64 ▸ hcount) _ _).mp hrow).2
  · rintro ⟨e, hlast, hlt, rfl⟩
    obtain ⟨hmem, rfl, rfl, -⟩ := lastStored_spec hlast
    refine (Tree.mem_above _ hword (two64 ▸ (hinv.counts e hmem).2) _ _).mpr ⟨?_, hlt⟩
    exact (Tree.get_eq_some_iff _ _ _).mp ((hinv.rows _ _).mpr ⟨e, hlast, rfl, rfl⟩)

/-- of each type there is one row -/
theorem DataInv.get_changesSince (hinv : DataInv log s) (hsince : since < u64Max) (key : Bytes) (data : Json) :
    (s.2.changesSince scope u since).get key = some data ↔
      ∃ e, lastStored log scope u e.kind = some e ∧ since < e.count ∧ key = e.kind.bytes ∧ data = e.data := by
  have hkinds : (s.2.accountdata.above (accountRows scope u) 8 (afterToken since)).Pairwise
      fun x y => afterLast x.1 ≠ afterLast y.1 := by
    refine List.Pairwise.imp_of_mem ?_ (s.2.accountdata.above_sorted (accountRows scope u) 8 (afterToken since))
    intro x y hx hy hxy he
    obtain ⟨e, hlast, -, rfl⟩ := (hinv.mem_above hsince x).mp hx
    obtain ⟨e', hlast', -, rfl⟩ := (hinv.mem_above hsince y).mp hy
    change afterLast (roomuserdataid _ _ _ _) = afterLast (roomuserdataid _ _ _ _) at he
    rw [afterLast_roomuserdataid, afterLast_roomuserdataid] at he
    rw [← Text.ext_bytes he, hlast] at hlast'
    rw [Option.some.inj hlast'] at hxy
    exact lt_irrefl _ hxy
  unfold Db.changesSince
  rw [Tree.get_foldl_insert_iff (fun row : Bytes × Json => afterLast row.1) Prod.snd hkinds]
  constructor
  · rintro ⟨row, hrow, hkey, hdata⟩
    obtain ⟨e, hlast, hlt, rfl⟩ := (hinv.mem_above hsince row).mp hrow
    refine ⟨e, hlast, hlt, ?_, hdata.symm⟩
    rw [← hkey]
    exact afterLast_roomuserdataid _ _ _ _
  · rintro ⟨e, hlast, hlt, rfl, rfl⟩
    exact ⟨(e.key, e.data), (hinv.mem_above hsince _).mpr ⟨e, hlast, hlt, rfl⟩, afterLast_roomuserdataid _ _ _ _, rfl⟩

/-- **account data is what was stored last**: it is read back through the pointer, there is one row for each
room, user and type, and the changes since a token are the types whose last update came after it -/
theorem accountData_exact {start s : Nat × Db} (h : DataRun start log s) (hrows : start.2.accountdata = .empty)
    (hpointers : start.2.roomusertypeRoomuserdataid = .empty) :
    (∀ room u kind, s.2.accountDataGet room u kind =
      (lastStored log (scopeText room) u kind).map Stored.data) ∧
    (∀ key data, s.2.accountdata.get key = some data ↔
      ∃ e, lastStored log e.scope e.user e.kind = some e ∧ key = e.key ∧ data = e.data) ∧
    ∀ room u since, since < u64Max → ∀ key data,
      (s.2.changesSince (scopeText room) u since).get key = some data ↔
        ∃ e, lastStored log (scopeText room) u e.kind = some e ∧ since < e.count ∧ key = e.kind.bytes ∧
          data = e.data := by
  have hinv := run_dataInv h hrows hpointers
  refine ⟨fun room u kind => ?_, hinv.rows, fun room u since hsince => hinv.get_changesSince hsince⟩
  unfold Db.accountDataGet
  rw [hinv.pointers]
  cases hlast : lastStored log (scopeText room) u kind with
  | none => rfl
  | some e => exact (hinv.rows _ _).mpr ⟨e, lastOf_self hlast, rfl, rfl⟩

end

/-! ## a type that is updated twice -/

namespace Tagged

def alice : UserId := ⟨.ascii "@alice:x"⟩
def room : RoomId := ⟨.ascii "!r:x"⟩
def tag : Text := .ascii "m.tag"

def data (order : Int) : Json := .obj [("type", .str "m.tag"), ("content", .num order)]

def update (order : Int) : DataCall := .update (some room) alice tag (data order)

/-- no rooms and no account data -/
def start : Nat × Db := (6, ⟨.empty, .empty, .empty, .empty, .empty, fun _ => .ok none⟩)

/-- the first update is under 7, the second one under 9 -/
def done : Nat × Db := (update 2).writer.alone (DataCall.other.writer.alone ((update 1).writer.alone start))

def log : List Stored := [⟨room.toText, alice, tag, 7, data 1⟩, ⟨room.toText, alice, tag, 9, data 2⟩]

theorem run : DataRun start log done := by
  have h1 : DataRun start _ _ := .step (update 1) .start (by decide)
  have h2 := DataRun.step .other h1 (by decide)
  exact DataRun.step (update 2) h2 (by decide)

end Tagged

theorem accountData_exact_tagged :
    (∀ room u kind, Tagged.done.2.accountDataGet room u kind =
      (lastStored Tagged.log (scopeText room) u kind).map Stored.data) ∧
    (∀ key data, Tagged.done.2.accountdata.get key = some data ↔
      ∃ e, lastStored Tagged.log e.scope e.user e.kind = some e ∧ key = e.key ∧ data = e.data) ∧
    ∀ room u since, since < u64Max → ∀ key data,
      (Tagged.done.2.changesSince (scopeText room) u since).get key = some data ↔
        ∃ e, lastStored Tagged.log (scopeText room) u e.kind = some e ∧ since < e.count ∧ key = e.kind.bytes ∧
          data = e.data :=
  accountData_exact Tagged.run rfl rfl

end SyncUpdates
end Grapevine
