import Grapevine.Rooms.Db
import Mathlib.Data.List.Induction

/-!
# Room aliases

`alias_roomid` has the room of a localpart, and `aliasid_alias` the aliases of a room, each under a count.

* `setAlias`, `removeAlias`   the writers;
* `resolveLocalAlias`, `localAliasesForRoom`   the two directions;
* `Inverse`                the directions agree.

Main result: `aliases_inverse`.  An alias that is set a second time keeps its old row under a room, and the
removal of an alias takes the rows of all aliases of its room: the directions agree as long as only new aliases
are set, and only the last alias of a room is removed.  `moved_alias_still_listed` is an alias that is moved.
-/

namespace Grapevine
open Kv

namespace Aliases

/-- `#localpart:server` -/
structure RoomAliasId where
  localpart : Text
  server : ServerName
  noColon : (58 : Byte) ∉ localpart.bytes
deriving DecidableEq

def RoomAliasId.toText (a : RoomAliasId) : Text where
  bytes := 35 :: (a.localpart.bytes ++ 58 :: a.server.bytes)
  noSep h := by
    rcases List.mem_cons.mp h with h | h
    · exact absurd h (by decide)
    · rcases List.mem_append.mp h with h | h
      · exact a.localpart.noSep h
      · rcases List.mem_cons.mp h with h | h
        · exact absurd h (by decide)
        · exact a.server.noSep h

def RoomAliasId.bytes (a : RoomAliasId) : Bytes := a.toText.bytes

/-- `RoomAliasId::parse`, beside the other identifiers -/
structure AliasIds where
  ids : Ids
  parseRoomAliasId : Bytes → Option RoomAliasId
  parseRoomAliasId_bytes : ∀ a : RoomAliasId, parseRoomAliasId a.bytes = some a

structure Store where
  db : Db
  aliasRoomid : Tree Bytes Bytes
  aliasidAlias : Tree Bytes Bytes

abbrev StoreComp := Comp Store Error

/-! ## the calls -/

def nextCount : StoreComp Nat := fun st => ((Db.nextCount st.db).1, { st with db := (Db.nextCount st.db).2 })

def aliasRows (r : RoomId) : Bytes := r.bytes ++ [sep]

def aliasid (r : RoomId) (count : Nat) : Bytes := aliasRows r ++ be64 count

def setAlias (a : RoomAliasId) (r : RoomId) : StoreComp Unit := do
  Comp.modify fun st => { st with aliasRoomid := st.aliasRoomid.insert a.localpart.bytes r.bytes }
  let count ← nextCount
  Comp.modify fun st => { st with aliasidAlias := st.aliasidAlias.insert (aliasid r count) a.bytes }

/-- the rows of the room go -/
def dropRows (roomId : Bytes) (t : Tree Bytes Bytes) : Tree Bytes Bytes :=
  ((t.scanPrefix (roomId ++ [sep])).map Prod.fst).foldl (fun t key => t.remove key) t

def removeAlias (a : RoomAliasId) : StoreComp Unit := do
  match (← Comp.get).aliasRoomid.get a.localpart.bytes with
  | some roomId => do
    Comp.modify fun st => { st with aliasidAlias := dropRows roomId st.aliasidAlias }
    Comp.modify fun st => { st with aliasRoomid := st.aliasRoomid.remove a.localpart.bytes }
  | none => Comp.throw (.badRequest .notFound "Alias does not exist.")

/-! ## the two directions -/

def resolveLocalAlias (I : Ids) (st : Store) (a : RoomAliasId) : Except Error (Option RoomId) :=
  match st.aliasRoomid.get a.localpart.bytes with
  | some bytes =>
    if I.utf8 bytes then
      match I.parseRoomId bytes with
      | some r => .ok (some r)
      | none => .error (.badDatabase "Room ID in alias_roomid is invalid.")
    else .error (.badDatabase "Room ID in alias_roomid is invalid unicode.")
  | none => .ok none

def parseAlias (I : AliasIds) (bytes : Bytes) : Except Error RoomAliasId :=
  if I.ids.utf8 bytes then
    match I.parseRoomAliasId bytes with
    | some a => .ok a
    | none => .error (.badDatabase "Invalid alias in aliasid_alias.")
  else .error (.badDatabase "Invalid alias bytes in aliasid_alias.")

def localAliasesForRoom (I : AliasIds) (st : Store) (r : RoomId) : List (Except Error RoomAliasId) :=
  (st.aliasidAlias.scanPrefix (aliasRows r)).map fun row => parseAlias I row.2

/-- the aliases of the server that are listed for a room are those that resolve to it, each once -/
def Inverse (I : AliasIds) (ours : ServerName) (st : Store) : Prop :=
  ∀ r, ∃ l : List RoomAliasId, localAliasesForRoom I st r = l.map .ok ∧ l.Nodup ∧
    ∀ a, a ∈ l ↔ a.server = ours ∧ resolveLocalAlias I.ids st a = .ok (some r)

/-- no other alias of the server resolves or is listed in another way -/
structure OthersKept (I : AliasIds) (ours : ServerName) (a : RoomAliasId) (st st' : Store) : Prop where
  resolved : ∀ b, b.server = ours → b ≠ a → resolveLocalAlias I.ids st' b = resolveLocalAlias I.ids st b
  listed : ∀ r b, b ≠ a → (.ok b ∈ localAliasesForRoom I st' r ↔ .ok b ∈ localAliasesForRoom I st r)

/-! ## runs -/

inductive AliasCall where
  | set (a : RoomAliasId) (r : RoomId)
  | remove (a : RoomAliasId)

def AliasCall.comp : AliasCall → StoreComp Unit
  | .set a r => setAlias a r
  | .remove a => removeAlias a

def AliasCall.alias : AliasCall → RoomAliasId
  | .set a _ => a
  | .remove a => a

def runAliases (calls : List AliasCall) (st : Store) : Store := calls.foldl (fun st c => (c.comp st).2) st

/-- a new alias is set while there are counts, or the last alias of a room is removed -/
def Careful (ours : ServerName) (st : Store) : AliasCall → Prop
  | .set a _ => st.aliasRoomid.get a.localpart.bytes = none ∧ st.db.state.counter + 1 < 2^64
  | .remove a => ∀ b, b.server = ours → st.aliasRoomid.get b.localpart.bytes ≠ none →
      st.aliasRoomid.get b.localpart.bytes = st.aliasRoomid.get a.localpart.bytes → b = a

inductive CarefulRun (ours : ServerName) (st : Store) : List AliasCall → Prop where
  | nil : CarefulRun ours st []
  | step {calls : List AliasCall} {c : AliasCall} : CarefulRun ours st calls → c.alias.server = ours →
      Careful ours (runAliases calls st) c → CarefulRun ours st (calls ++ [c])

def Unset (st : Store) : Prop := st.aliasRoomid = .empty ∧ st.aliasidAlias = .empty

/-! ## the invariant -/

section
variable {I : AliasIds} {ours : ServerName} {st : Store}
variable {calls : List AliasCall} {a : RoomAliasId}

theorem RoomAliasId.ext_localpart {b : RoomAliasId} (hs : a.server = b.server)
    (h : a.localpart.bytes = b.localpart.bytes) : a = b := by
  obtain ⟨⟨x, _⟩, s, _⟩ := a
  obtain ⟨⟨y, _⟩, t, _⟩ := b
  cases hs
  cases h
  rfl

theorem aliasid_inj {r s : RoomId} {n m : Nat} (hn : n < 2^64) (hm : m < 2^64) (h : aliasid r n = aliasid s m) :
    r = s ∧ n = m := by
  unfold aliasid aliasRows at h
  rw [List.append_assoc, List.append_assoc] at h
  obtain ⟨hr, hcount⟩ := sep_append_inj r.noSep s.noSep h
  exact ⟨RoomId.ext_bytes hr, be_inj (two64 ▸ hn) (two64 ▸ hm) hcount⟩

theorem aliasRows_prefix_iff {r s : RoomId} {n : Nat} : aliasRows r <+: aliasid s n ↔ r = s := by
  unfold aliasid aliasRows
  rw [List.append_assoc, List.singleton_append, sep_prefix_iff r.noSep s.noSep]
  exact ⟨RoomId.ext_bytes, congrArg fun r : RoomId => r.bytes⟩

/-- every set alias has one row under its room, and there are no other rows -/
structure Paired (ours : ServerName) (st : Store) : Prop where
  forward : ∀ key value, st.aliasRoomid.get key = some value →
    ∃ (a : RoomAliasId) (r : RoomId) (n : Nat), a.server = ours ∧ key = a.localpart.bytes ∧ value = r.bytes ∧
      st.aliasidAlias.get (aliasid r n) = some a.bytes
  back : ∀ key value, st.aliasidAlias.get key = some value →
    ∃ (a : RoomAliasId) (r : RoomId) (n : Nat), a.server = ours ∧ value = a.bytes ∧ key = aliasid r n ∧
      n < 2^64 ∧ n ≤ st.db.state.counter ∧ st.aliasRoomid.get a.localpart.bytes = some r.bytes
  once : ∀ key key' value, st.aliasidAlias.get key = some value → st.aliasidAlias.get key' = some value → key = key'

theorem Paired.unset (h : Unset st) : Paired ours st := by
  refine ⟨fun key value hget => ?_, fun key value hget => ?_, fun key key' value hget => ?_⟩
  · rw [h.1] at hget
    cases hget
  · rw [h.2] at hget
    cases hget
  · rw [h.2] at hget
    cases hget

theorem dropRows_get (roomId : Bytes) (t : Tree Bytes Bytes) (key : Bytes) :
    (dropRows roomId t).get key = if roomId ++ [sep] <+: key then none else t.get key := by
  unfold dropRows
  rw [Tree.get_remove_all (fun k : Bytes => k), List.map_id']
  by_cases hpre : roomId ++ [sep] <+: key
  · rw [if_pos hpre]
    by_cases hmem : key ∈ (t.scanPrefix (roomId ++ [sep])).map Prod.fst
    · rw [if_pos hmem]
    · rw [if_neg hmem]
      refine (t.get_eq_none_iff key).mpr fun value hrow => hmem ?_
      exact List.mem_map.mpr ⟨(key, value), (t.mem_scanPrefix _ _).mpr ⟨hrow, hpre⟩, rfl⟩
  · rw [if_neg hpre, if_neg]
    intro hmem
    obtain ⟨row, hrow, rfl⟩ := List.mem_map.mp hmem
    exact hpre ((t.mem_scanPrefix _ _).mp hrow).2

/-- a new alias gets a row under a count that no row has -/
theorem Paired.set (h : Paired ours st) (ha : a.server = ours) (r : RoomId)
    (hnew : st.aliasRoomid.get a.localpart.bytes = none) (hlt : st.db.state.counter + 1 < 2^64) :
    Paired ours (setAlias a r st).2 := by
  have hcount : Db.nextCount st.db = (.ok (st.db.state.counter + 1), { st.db with
      state := { st.db.state with counter := st.db.state.counter + 1 } }) := by
    unfold Db.nextCount Db.onState StateDb.nextCount
    rw [if_pos hlt]
  have hnext : nextCount { st with aliasRoomid := st.aliasRoomid.insert a.localpart.bytes r.bytes }
      = (.ok (st.db.state.counter + 1), { st with
          db := { st.db with state := { st.db.state with counter := st.db.state.counter + 1 } }
          aliasRoomid := st.aliasRoomid.insert a.localpart.bytes r.bytes }) := by
    unfold nextCount
    rw [hcount]
  have hrun : (setAlias a r st).2 =
      { st with
        db := { st.db with state := { st.db.state with counter := st.db.state.counter + 1 } }
        aliasRoomid := st.aliasRoomid.insert a.localpart.bytes r.bytes
        aliasidAlias := st.aliasidAlias.insert (aliasid r (st.db.state.counter + 1)) a.bytes } := by
    unfold setAlias
    rw [Comp.bind_ok (Comp.modify_run _ st), Comp.bind_ok hnext]
    rfl
  have hfree : ∀ key value, st.aliasidAlias.get key = some value → key ≠ aliasid r (st.db.state.counter + 1) := by
    rintro key value hget rfl
    obtain ⟨b, s, n, -, -, hkey, hn, hle, -⟩ := h.back _ _ hget
    obtain ⟨-, he⟩ := aliasid_inj hlt hn hkey
    omega
  have hother : ∀ b : RoomAliasId, st.aliasRoomid.get b.localpart.bytes ≠ none →
      b.localpart.bytes ≠ a.localpart.bytes := by
    intro b hset he
    rw [he] at hset
    exact hset hnew
  rw [hrun]
  refine ⟨fun key value hget => ?_, fun key value hget => ?_, fun key key' value hget hget' => ?_⟩
  · change (st.aliasRoomid.insert _ _).get key = _ at hget
    show ∃ (b : RoomAliasId) (s : RoomId) (n : Nat), b.server = ours ∧ key = b.localpart.bytes ∧ value = s.bytes ∧
      (st.aliasidAlias.insert _ _).get (aliasid s n) = some b.bytes
    rw [Tree.get_insert] at hget
    by_cases hkey : key = a.localpart.bytes
    · rw [if_pos hkey] at hget
      exact ⟨a, r, st.db.state.counter + 1, ha, hkey, (Option.some.inj hget).symm, Tree.get_insert_self _ _ _⟩
    · rw [if_neg hkey] at hget
      obtain ⟨b, s, n, hb, hname, hvalue, hrow⟩ := h.forward key value hget
      refine ⟨b, s, n, hb, hname, hvalue, ?_⟩
      rw [Tree.get_insert, if_neg (hfree _ _ hrow)]
      exact hrow
  · change (st.aliasidAlias.insert _ _).get key = _ at hget
    show ∃ (b : RoomAliasId) (s : RoomId) (n : Nat), b.server = ours ∧ value = b.bytes ∧ key = aliasid s n ∧
      n < 2^64 ∧ n ≤ st.db.state.counter + 1 ∧ (st.aliasRoomid.insert _ _).get b.localpart.bytes = some s.bytes
    rw [Tree.get_insert] at hget
    by_cases hkey : key = aliasid r (st.db.state.counter + 1)
    · rw [if_pos hkey] at hget
      exact ⟨a, r, _, ha, (Option.some.inj hget).symm, hkey, hlt, le_refl _, Tree.get_insert_self _ _ _⟩
    · rw [if_neg hkey] at hget
      obtain ⟨b, s, n, hb, hvalue, hname, hn, hle, hset⟩ := h.back key value hget
      refine ⟨b, s, n, hb, hvalue, hname, hn, Nat.le_succ_of_le hle, ?_⟩
      rw [Tree.get_insert, if_neg (hother b (by rw [hset]; exact Option.some_ne_none _))]
      exact hset
  · change (st.aliasidAlias.insert _ _).get key = _ at hget
    change (st.aliasidAlias.insert _ _).get key' = _ at hget'
    -- no old row has the new alias
    have hold : ∀ key, st.aliasidAlias.get key ≠ some a.bytes := by
      intro key hget
      obtain ⟨b, s, n, hb, hvalue, -, -, -, hset⟩ := h.back key _ hget
      have hbytes : a.localpart.bytes ++ 58 :: a.server.bytes = b.localpart.bytes ++ 58 :: b.server.bytes :=
        (List.cons.inj hvalue).2
      obtain ⟨hlocal, -⟩ := append_cons_inj a.noColon b.noColon hbytes
      rw [← hlocal, hnew] at hset
      cases hset
    rw [Tree.get_insert] at hget hget'
    by_cases hkey : key = aliasid r (st.db.state.counter + 1)
    · by_cases hkey' : key' = aliasid r (st.db.state.counter + 1)
      · rw [hkey, hkey']
      · rw [if_pos hkey] at hget
        rw [if_neg hkey', ← hget] at hget'
        exact absurd hget' (hold key')
    · by_cases hkey' : key' = aliasid r (st.db.state.counter + 1)
      · rw [if_pos hkey'] at hget'
        rw [if_neg hkey, ← hget'] at hget
        exact absurd hget (hold key)
      · rw [if_neg hkey] at hget
        rw [if_neg hkey'] at hget'
        exact h.once key key' value hget hget'

theorem removeAlias_cases (a : RoomAliasId) (st : Store) :
    (st.aliasRoomid.get a.localpart.bytes = none ∧ (removeAlias a st).2 = st) ∨
    ∃ roomId, st.aliasRoomid.get a.localpart.bytes = some roomId ∧ (removeAlias a st).2 =
      { st with
        aliasRoomid := st.aliasRoomid.remove a.localpart.bytes
        aliasidAlias := dropRows roomId st.aliasidAlias } := by
  unfold removeAlias
  rw [Comp.bind_ok (Comp.get_run st)]
  cases hget : st.aliasRoomid.get a.localpart.bytes with
  | none => exact Or.inl ⟨rfl, rfl⟩
  | some roomId => exact Or.inr ⟨roomId, rfl, rfl⟩

/-- the rows of the room are those of the alias, if the room has no other one -/
theorem Paired.remove (h : Paired ours st) {a : RoomAliasId} (hlast : Careful ours st (.remove a)) :
    Paired ours (removeAlias a st).2 := by
  rcases removeAlias_cases a st with ⟨-, hrun⟩ | ⟨roomId, hset, hrun⟩
  · rw [hrun]
    exact h
  rw [hrun]
  obtain ⟨_, r, n, -, -, rfl, -⟩ := h.forward _ _ hset
  refine ⟨fun key value hget => ?_, fun key value hget => ?_, fun key key' value hget hget' => ?_⟩
  · change (st.aliasRoomid.remove _).get key = _ at hget
    show ∃ (b : RoomAliasId) (s : RoomId) (n : Nat), b.server = ours ∧ key = b.localpart.bytes ∧ value = s.bytes ∧
      (dropRows r.bytes st.aliasidAlias).get (aliasid s n) = some b.bytes
    rw [Tree.get_remove] at hget
    by_cases hkey : key = a.localpart.bytes
    · rw [if_pos hkey] at hget
      cases hget
    · rw [if_neg hkey] at hget
      obtain ⟨b, s, n, hb, rfl, rfl, hrow⟩ := h.forward key value hget
      refine ⟨b, s, n, hb, rfl, rfl, ?_⟩
      rw [dropRows_get, if_neg]
      · exact hrow
      · intro hpre
        obtain rfl := aliasRows_prefix_iff.mp hpre
        have hba : b = a := hlast b hb (by rw [hget]; exact Option.some_ne_none _) (hget.trans hset.symm)
        exact hkey (congrArg (fun c : RoomAliasId => c.localpart.bytes) hba)
  · change (dropRows r.bytes st.aliasidAlias).get key = _ at hget
    show ∃ (b : RoomAliasId) (s : RoomId) (n : Nat), b.server = ours ∧ value = b.bytes ∧ key = aliasid s n ∧
      n < 2^64 ∧ n ≤ st.db.state.counter ∧ (st.aliasRoomid.remove _).get b.localpart.bytes = some s.bytes
    rw [dropRows_get] at hget
    split at hget
    · cases hget
    · next hpre =>
      obtain ⟨b, s, n, hb, hvalue, rfl, hn, hle, hbset⟩ := h.back key value hget
      refine ⟨b, s, n, hb, hvalue, rfl, hn, hle, ?_⟩
      rw [Tree.get_remove, if_neg]
      · exact hbset
      · intro hlocal
        rw [hlocal, hset] at hbset
        exact hpre (aliasRows_prefix_iff.mpr (RoomId.ext_bytes (Option.some.inj hbset)))
  · change (dropRows r.bytes st.aliasidAlias).get key = _ at hget
    change (dropRows r.bytes st.aliasidAlias).get key' = _ at hget'
    rw [dropRows_get] at hget hget'
    split at hget
    · cases hget
    · split at hget'
      · cases hget'
      · exact h.once key key' value hget hget'

/-! ## the directions agree -/

theorem parseAlias_bytes (I : AliasIds) (a : RoomAliasId) : parseAlias I a.bytes = .ok a := by
  unfold parseAlias
  rw [show I.ids.utf8 a.bytes = true from I.ids.utf8_text a.toText, if_pos rfl, I.parseRoomAliasId_bytes]

theorem resolveLocalAlias_eq_iff (h : Paired ours st) (I : Ids) (a : RoomAliasId) (r : RoomId) :
    resolveLocalAlias I st a = .ok (some r) ↔ st.aliasRoomid.get a.localpart.bytes = some r.bytes := by
  unfold resolveLocalAlias
  cases hget : st.aliasRoomid.get a.localpart.bytes with
  | none => exact iff_of_false nofun nofun
  | some value =>
    obtain ⟨-, s, -, -, -, rfl, -⟩ := h.forward _ _ hget
    show (if I.utf8 s.bytes then _ else _) = _ ↔ _
    rw [I.utf8_text s.toText, if_pos rfl, I.parseRoomId_bytes]
    constructor
    · intro he
      cases he
      rfl
    · intro he
      rw [RoomId.ext_bytes (Option.some.inj he)]

/-- results that are all good -/
theorem map_eq_map_ok {α β ε : Type} {f : α → Except ε β} {l : List α} (h : ∀ x ∈ l, ∃ b, f x = .ok b) :
    ∃ bs : List β, l.map f = bs.map .ok := by
  induction l with
  | nil => exact ⟨[], rfl⟩
  | cons x l ih =>
    obtain ⟨b, hb⟩ := h x List.mem_cons_self
    obtain ⟨bs, hbs⟩ := ih fun y hy => h y (List.mem_cons_of_mem _ hy)
    exact ⟨b :: bs, by rw [List.map_cons, List.map_cons, hb, hbs]⟩

theorem ok_mem_map {α ε : Type} {l : List α} {a : α} : (.ok a : Except ε α) ∈ l.map .ok ↔ a ∈ l := by
  constructor
  · intro h
    obtain ⟨b, hb, he⟩ := List.mem_map.mp h
    cases he
    exact hb
  · intro h
    exact List.mem_map.mpr ⟨a, h, rfl⟩

/-- the rows of a room are those of its aliases -/
theorem Paired.mem_listed (h : Paired ours st) (I : AliasIds) (r : RoomId) (a : RoomAliasId) :
    .ok a ∈ localAliasesForRoom I st r ↔ a.server = ours ∧ resolveLocalAlias I.ids st a = .ok (some r) := by
  rw [resolveLocalAlias_eq_iff h]
  constructor
  · intro hlisted
    obtain ⟨row, hrow, hparse⟩ := List.mem_map.mp hlisted
    obtain ⟨hmem, hpre⟩ := (Tree.mem_scanPrefix _ _ _).mp hrow
    obtain ⟨b, s, n, hb, hvalue, hkey, -, -, hset⟩ := h.back row.1 row.2 ((Tree.get_eq_some_iff _ _ _).mpr hmem)
    rw [hvalue, parseAlias_bytes] at hparse
    cases hparse
    rw [hkey] at hpre
    obtain rfl := aliasRows_prefix_iff.mp hpre
    exact ⟨hb, hset⟩
  · rintro ⟨ha, hset⟩
    obtain ⟨b, s, n, hb, hlocal, hroom, hrow⟩ := h.forward _ _ hset
    obtain rfl := RoomAliasId.ext_localpart (ha.trans hb.symm) hlocal
    obtain rfl := RoomId.ext_bytes hroom
    refine List.mem_map.mpr ⟨(aliasid r n, a.bytes), (Tree.mem_scanPrefix _ _ _).mpr ⟨?_, ?_⟩, parseAlias_bytes I a⟩
    · exact (Tree.get_eq_some_iff _ _ _).mp hrow
    · exact aliasRows_prefix_iff.mpr rfl

theorem Paired.inverse (h : Paired ours st) (I : AliasIds) : Inverse I ours st := by
  intro r
  have hrow : ∀ row ∈ st.aliasidAlias.scanPrefix (aliasRows r), ∃ a : RoomAliasId, row.2 = a.bytes := by
    intro row hrow
    have hmem := ((Tree.mem_scanPrefix _ _ _).mp hrow).1
    obtain ⟨a, -, -, -, hvalue, -⟩ := h.back row.1 row.2 ((Tree.get_eq_some_iff _ _ _).mpr hmem)
    exact ⟨a, hvalue⟩
  obtain ⟨l, hl⟩ := map_eq_map_ok (f := fun row : Bytes × Bytes => parseAlias I row.2) fun row hmem => by
    obtain ⟨a, ha⟩ := hrow row hmem
    exact ⟨a, by rw [ha, parseAlias_bytes]⟩
  refine ⟨l, hl, ?_, fun a => ?_⟩
  · -- two rows with one alias are one row
    have hnodup : ((st.aliasidAlias.scanPrefix (aliasRows r)).map fun row => parseAlias I row.2).Nodup := by
      rw [List.Nodup, List.pairwise_map]
      refine List.Pairwise.imp_of_mem ?_ (st.aliasidAlias.scanPrefix_sorted (aliasRows r))
      intro x y hx hy hlt he
      obtain ⟨a, ha⟩ := hrow x hx
      obtain ⟨b, hb⟩ := hrow y hy
      rw [ha, hb, parseAlias_bytes, parseAlias_bytes] at he
      cases he
      have hmem : ∀ row ∈ st.aliasidAlias.scanPrefix (aliasRows r), st.aliasidAlias.get row.1 = some row.2 :=
        fun row hrow => (Tree.get_eq_some_iff _ _ _).mpr ((Tree.mem_scanPrefix _ _ row).mp hrow).1
      have hkeys := h.once x.1 y.1 x.2 (hmem x hx) (by rw [ha, ← hb]; exact hmem y hy)
      exact absurd hlt (hkeys ▸ lt_irrefl _)
    rw [hl] at hnodup
    exact hnodup.of_map _
  · rw [← h.mem_listed I r a]
    show a ∈ l ↔ .ok a ∈ (st.aliasidAlias.scanPrefix (aliasRows r)).map fun row => parseAlias I row.2
    rw [hl]
    exact ok_mem_map.symm

/-- another alias has another localpart -/
theorem removeAlias_kept (h : Paired ours st) (ha : a.server = ours) (h' : Paired ours (removeAlias a st).2)
    (I : AliasIds) : OthersKept I ours a st (removeAlias a st).2 := by
  have hresolved : ∀ b, b.server = ours → b ≠ a →
      resolveLocalAlias I.ids (removeAlias a st).2 b = resolveLocalAlias I.ids st b := by
    intro b hb hne
    rcases removeAlias_cases a st with ⟨-, hrun⟩ | ⟨roomId, -, hrun⟩
    · rw [hrun]
    · have hlocal : b.localpart.bytes ≠ a.localpart.bytes := fun he =>
        hne (RoomAliasId.ext_localpart (hb.trans ha.symm) he)
      have hget : (removeAlias a st).2.aliasRoomid.get b.localpart.bytes = st.aliasRoomid.get b.localpart.bytes := by
        rw [hrun]
        show (st.aliasRoomid.remove _).get _ = _
        rw [Tree.get_remove, if_neg hlocal]
      unfold resolveLocalAlias
      rw [hget]
  refine ⟨hresolved, fun r b hne => ?_⟩
  rw [h.mem_listed I, h'.mem_listed I]
  refine and_congr_right fun hb => ?_
  rw [hresolved b hb hne]

theorem runAliases_snoc (calls : List AliasCall) (c : AliasCall) (st : Store) :
    runAliases (calls ++ [c]) st = (c.comp (runAliases calls st)).2 := by
  unfold runAliases
  rw [List.foldl_append]
  rfl

theorem run_paired (hstart : Unset st) (h : CarefulRun ours st calls) :
    Paired ours (runAliases calls st) := by
  induction h with
  | nil => exact .unset hstart
  | @step calls c _ hours hcareful ih =>
    rw [runAliases_snoc]
    cases c with
    | set a r => exact ih.set hours r hcareful.1 hcareful.2
    | remove a => exact ih.remove hcareful

theorem run_kept (hstart : Unset st) (h : CarefulRun ours st calls) (I : AliasIds) :
    ∀ (before : List AliasCall) (a : RoomAliasId) (after : List AliasCall), calls = before ++ .remove a :: after →
      OthersKept I ours a (runAliases before st) (runAliases (before ++ [.remove a]) st) := by
  induction h with
  | nil =>
    intro before a after hcalls
    exact absurd hcalls.symm (List.append_ne_nil_of_right_ne_nil before (List.cons_ne_nil _ after))
  | @step calls c hrun hours hcareful ih =>
    intro before a after hcalls
    rcases List.eq_nil_or_concat after with rfl | ⟨after', last, rfl⟩
    · obtain ⟨rfl, hc⟩ := List.append_inj' hcalls rfl
      obtain rfl := List.singleton_inj.mp hc
      have hpaired := run_paired hstart (.step hrun hours hcareful)
      rw [runAliases_snoc] at hpaired ⊢
      exact removeAlias_kept (run_paired hstart hrun) hours hpaired I
    · rw [List.concat_eq_append, ← List.cons_append, ← List.append_assoc] at hcalls
      exact ih before a after' (List.append_inj' hcalls rfl).1

/-- **the alias tables are inverse to each other** where only new aliases are set and only the last alias of a
room is removed, and then the removal of an alias leaves the other ones alone -/
theorem aliases_inverse (I : AliasIds) (hstart : Unset st) {calls : List AliasCall} (h : CarefulRun ours st calls) :
    Inverse I ours (runAliases calls st) ∧
      ∀ (before : List AliasCall) (a : RoomAliasId) (after : List AliasCall), calls = before ++ .remove a :: after →
        OthersKept I ours a (runAliases before st) (runAliases (before ++ [.remove a]) st) :=
  ⟨(run_paired hstart h).inverse I, run_kept hstart h I⟩

end

/-! ## a room is replaced by another one -/

/-- the bytes up to the first colon, and those behind it -/
def Bytewise.parseAlias : Bytes → Option RoomAliasId
  | [] => none
  | _ :: rest =>
    if h : sep ∉ rest.takeWhile (· ≠ 58) ∧ (58 : Byte) ∉ rest.takeWhile (· ≠ 58) ∧
        sep ∉ (rest.dropWhile (· ≠ 58)).tail then
      some ⟨⟨_, h.1⟩, ⟨⟨_, h.2.2⟩⟩, h.2.1⟩
    else none

theorem Bytewise.parseAlias_bytes (a : RoomAliasId) : Bytewise.parseAlias a.bytes = some a := by
  have hall : ∀ x ∈ a.localpart.bytes, decide (x ≠ 58) = true := by
    intro x hx
    have hne : x ≠ 58 := fun he => a.noColon (he ▸ hx)
    simpa using hne
  have hlocal : (a.localpart.bytes ++ 58 :: a.server.bytes).takeWhile (· ≠ 58) = a.localpart.bytes := by
    rw [List.takeWhile_append_of_pos hall]
    simp
  have hserver : ((a.localpart.bytes ++ 58 :: a.server.bytes).dropWhile (· ≠ 58)).tail = a.server.bytes := by
    rw [List.dropWhile_append_of_pos hall]
    simp
  show Bytewise.parseAlias (35 :: (a.localpart.bytes ++ 58 :: a.server.bytes)) = some a
  unfold Bytewise.parseAlias
  simp only [hlocal, hserver]
  rw [dif_pos ⟨a.localpart.noSep, a.noColon, a.server.noSep⟩]

def AliasIds.bytewise : AliasIds := ⟨.bytewise, Bytewise.parseAlias, Bytewise.parseAlias_bytes⟩

def server : ServerName := ⟨.ascii "x"⟩
def oldRoom : RoomId := ⟨.ascii "!old:x"⟩
def newRoom : RoomId := ⟨.ascii "!new:x"⟩
def lobby : RoomAliasId := ⟨.ascii "lobby", server, by decide⟩
def hall : RoomAliasId := ⟨.ascii "hall", server, by decide⟩

def noAliases : Store := ⟨.empty, .empty, .empty⟩

theorem aliases_inverse_lobby :
    Inverse .bytewise server (runAliases [.set lobby oldRoom] noAliases) ∧
      ∀ (before : List AliasCall) (a : RoomAliasId) (after : List AliasCall),
        [.set lobby oldRoom] = before ++ .remove a :: after →
          OthersKept .bytewise server a (runAliases before noAliases) (runAliases (before ++ [.remove a]) noAliases) := by
  have hrun : CarefulRun server noAliases ([] ++ [.set lobby oldRoom]) := .step .nil rfl ⟨rfl, by decide⟩
  exact aliases_inverse .bytewise ⟨rfl, rfl⟩ hrun

/-- an alias that is moved is still listed for its old room; and one that is removed takes the other one of its
room from the list -/
theorem moved_alias_still_listed :
    let moved := runAliases [.set lobby oldRoom, .set lobby newRoom] noAliases
    let removed := runAliases [.set lobby oldRoom, .set hall oldRoom, .remove hall] noAliases
    (localAliasesForRoom .bytewise moved oldRoom = [.ok lobby] ∧
        resolveLocalAlias .bytewise moved lobby = .ok (some newRoom) ∧ ¬ Inverse .bytewise server moved) ∧
      localAliasesForRoom .bytewise removed oldRoom = [] ∧
        resolveLocalAlias .bytewise removed lobby = .ok (some oldRoom) ∧ ¬ Inverse .bytewise server removed := by
  have hlisted : localAliasesForRoom .bytewise
      (runAliases [.set lobby oldRoom, .set lobby newRoom] noAliases) oldRoom = [.ok lobby] := by decide +kernel
  have hmoved : resolveLocalAlias .bytewise
      (runAliases [.set lobby oldRoom, .set lobby newRoom] noAliases) lobby = .ok (some newRoom) := by decide +kernel
  have hgone : localAliasesForRoom .bytewise
      (runAliases [.set lobby oldRoom, .set hall oldRoom, .remove hall] noAliases) oldRoom = [] := by decide +kernel
  have hstays : resolveLocalAlias .bytewise
      (runAliases [.set lobby oldRoom, .set hall oldRoom, .remove hall] noAliases) lobby = .ok (some oldRoom) := by
    decide +kernel
  refine ⟨⟨hlisted, hmoved, fun hinv => ?_⟩, hgone, hstays, fun hinv => ?_⟩
  · obtain ⟨l, hl, -, hmem⟩ := hinv oldRoom
    have hin : lobby ∈ l := ok_mem_map.mp (hl ▸ hlisted ▸ List.mem_singleton.mpr rfl)
    have hroom := ((hmem lobby).mp hin).2
    change resolveLocalAlias .bytewise _ _ = _ at hroom
    rw [hmoved] at hroom
    exact absurd hroom (by decide)
  · obtain ⟨l, hl, -, hmem⟩ := hinv oldRoom
    rw [hgone] at hl
    have hin : lobby ∈ l := (hmem lobby).mpr ⟨rfl, hstays⟩
    rw [List.map_eq_nil_iff.mp hl.symm] at hin
    exact absurd hin List.not_mem_nil

end Aliases
end Grapevine
