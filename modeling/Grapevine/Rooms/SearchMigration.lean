import Grapevine.Rooms.Search

/-!
# The search index after two migrations

Up to version 7 an event's id starts with the id of its room, and so does a row of the search index, which
has the event's id, room and all, behind the word.  Version 8 gives the rooms short ids and rewrites the ids of
the events, version 9 rewrites the index, and leaves the room out of the ids there.

* `migrate8`, `migrate9`   the migrations, on the tables they touch;
* `Version7`             a store before them;
* `Usable`               what a search after them should yield.

Main result: `migrated_usable_iff`.  `migrated_id_unknown` is a message that cannot be found by its own
word: the search yields eight bytes that are the id of no event.
-/

namespace Grapevine
open Kv

namespace SearchMigration

variable {r : RoomId} {word : Bytes}

/-- the tables of the migrations -/
structure Store where
  counter : Nat
  roomidShortstatehash : Tree Bytes Bytes
  roomidShortroomid : Tree Bytes Bytes
  pduidPdu : Tree Bytes PduJson
  eventidPduid : Tree Bytes Bytes
  tokenids : Tree Bytes Unit

abbrev StoreComp := Comp Store Error

/-! ## the migrations -/

def nextCount : StoreComp Nat := fun st =>
  if st.counter + 1 < 2^64 then (.ok (st.counter + 1), { st with counter := st.counter + 1 })
  else (.error StateDb.counterOverflow, st)

/-- `key.starts_with(b"!")` -/
def startsWithRoom (key : Bytes) : Bool := [33].isPrefixOf key

def unwrapNone : Error := .panic "called `Option::unwrap()` on a `None` value"

/-- the next part of a split key -/
def nextPart (rest : Option Bytes) : Except Error (Bytes × Option Bytes) :=
  match rest with
  | some rest => .ok (cut rest)
  | none => .error unwrapNone

/-- what is left for the last part -/
def lastPart (rest : Option Bytes) : Except Error Bytes :=
  match rest with
  | some rest => .ok rest
  | none => .error unwrapNone

def shortRoomId (st : Store) (roomId : Bytes) : Except Error Bytes :=
  match st.roomidShortroomid.get roomId with
  | some short => .ok short
  | none => .error (.panic "shortroomid should exist")

/-- an event id in the new layout, if it is in the old one -/
def newPduId (st : Store) (id : Bytes) : Except Error (Option Bytes) := do
  if startsWithRoom id then
    let (roomId, rest) ← nextPart (some id)
    let count ← lastPart rest
    let short ← shortRoomId st roomId
    pure (some (short ++ count))
  else pure none

/-- a row of the index in the new layout, if it is in the old one -/
def newTokenKey (st : Store) (key : Bytes) : Except Error (Option Bytes) := do
  if startsWithRoom key then
    let (roomId, rest) ← nextPart (some key)
    let (word, rest) ← nextPart rest
    let (_, rest) ← nextPart rest
    let count ← lastPart rest
    let short ← shortRoomId st roomId
    pure (some (short ++ (word ++ sep :: count)))
  else pure none

/-- the rows that are written, in order -/
def batch {α β : Type} (f : α → Except Error (Option β)) : List α → Except Error (List β)
  | [] => .ok []
  | a :: as => do
    let b ← f a
    let bs ← batch f as
    pure (b.toList ++ bs)

/-- short room ids for all rooms -/
def giveShort : List Bytes → StoreComp Unit
  | [] => pure ()
  | roomId :: roomIds => do
    let count ← nextCount
    Comp.modify fun st => { st with roomidShortroomid := st.roomidShortroomid.insert roomId (be64 count) }
    giveShort roomIds

def putAll {ν : Type} (rows : List (Bytes × ν)) (t : Tree Bytes ν) : Tree Bytes ν :=
  rows.foldl (fun t row => t.insert row.1 row.2) t

def migrate8 : StoreComp Unit := do
  giveShort ((← Comp.get).roomidShortstatehash.rows.map Prod.fst)
  let rows ← Comp.reads (fun st => batch (fun row => do
    pure ((← newPduId st row.1).map (fun id => (id, row.2)))) st.pduidPdu.rows)
  Comp.modify fun st => { st with pduidPdu := putAll rows st.pduidPdu }
  let ids ← Comp.reads (fun st => batch (fun row => do
    pure ((← newPduId st row.2).map (fun id => (row.1, id)))) st.eventidPduid.rows)
  Comp.modify fun st => { st with eventidPduid := putAll ids st.eventidPduid }

/-- the new rows are written in batches, and then the old ones removed -/
def migrate9 : StoreComp Unit := do
  let keys ← Comp.reads (fun st => batch (fun row => newTokenKey st row.1) st.tokenids.rows)
  Comp.modify fun st => { st with tokenids := putAll (keys.map (fun key => (key, ()))) st.tokenids }
  Comp.modify fun st => { st with tokenids :=
    ((st.tokenids.rows.map Prod.fst).filter startsWithRoom).foldl (fun t key => t.remove key) st.tokenids }

def migrate : StoreComp Unit := do
  migrate8
  migrate9

/-- the store as the server sees it -/
def Store.toDb (st : Store) : Db := { Db.empty with
  roomidShortroomid := fun r => (st.roomidShortroomid.get r.bytes).map ofBe
  tokenids := st.tokenids }

/-! ## a store before the migrations -/

def oldPduId (r : RoomId) (count : Nat) : Bytes := r.bytes ++ sep :: be64 count

def oldTokenKey (r : RoomId) (word id : Bytes) : Bytes := r.bytes ++ sep :: (word ++ sep :: id)

/-- room ids are written with an exclamation mark, and words are texts -/
structure Version7 (st : Store) : Prop where
  counter : st.counter < 2^64
  shorts : st.roomidShortroomid = .empty
  rooms : ∀ row ∈ st.roomidShortstatehash.rows, ∃ r : RoomId, row.1 = r.bytes
  pdus : ∀ row ∈ st.pduidPdu.rows, ∃ r count, startsWithRoom r.bytes = true ∧ row.1 = oldPduId r count
  tokens : ∀ row ∈ st.tokenids.rows, ∃ r word count, startsWithRoom r.bytes = true ∧ sep ∉ word ∧
    row.1 = oldTokenKey r word (oldPduId r count)

/-- the message is indexed under the word -/
def IndexedUnder (st : Store) (r : RoomId) (count : Nat) (word : Bytes) : Prop :=
  st.tokenids.get (oldTokenKey r word (oldPduId r count)) = some ()

/-- a search yields ids of events, and every message that was indexed under all words of the query -/
def Usable (env : Env) (st st' : Store) (r : RoomId) (q : String) : Prop :=
  ∃ ids words, Db.searchPdus env st'.toDb r q = .ok (some (ids, words)) ∧
    (∀ id ∈ ids, ∃ j, st'.pduidPdu.get id = some j) ∧
    ∀ count, (∀ word ∈ Db.tokenize env q, IndexedUnder st r count word) →
      ∃ s, st'.toDb.roomidShortroomid r = some s ∧ pduId s (.normal count) ∈ ids

/-! ## what the migrations write -/

theorem mem_batch {α β : Type} {f : α → Except Error (Option β)} {l : List α} {bs : List β}
    (h : batch f l = .ok bs) {b : β} (hb : b ∈ bs) : ∃ a ∈ l, f a = .ok (some b) := by
  induction l generalizing bs with
  | nil =>
    cases h
    exact absurd hb List.not_mem_nil
  | cons a as ih =>
    unfold batch at h
    obtain ⟨o, ho, h⟩ := except_bind_eq_ok.mp h
    obtain ⟨bs', hbs, h⟩ := except_bind_eq_ok.mp h
    cases h
    rcases List.mem_append.mp hb with hb | hb
    · rw [Option.mem_toList.mp hb] at ho
      exact ⟨a, List.mem_cons_self, ho⟩
    · obtain ⟨a', ha', hf⟩ := ih hbs hb
      exact ⟨a', List.mem_cons_of_mem _ ha', hf⟩

theorem putAll_get {ν : Type} (rows : List (Bytes × ν)) {t : Tree Bytes ν} {k : Bytes} {v : ν}
    (h : (putAll rows t).get k = some v) : (k, v) ∈ rows ∨ t.get k = some v := by
  induction rows generalizing t with
  | nil => exact Or.inr h
  | cons row rows ih =>
    rcases ih (show (putAll rows (t.insert row.1 row.2)).get k = some v from h) with hrow | hrow
    · exact Or.inl (List.mem_cons_of_mem _ hrow)
    · rw [Tree.get_insert] at hrow
      by_cases he : k = row.1
      · rw [if_pos he] at hrow
        rw [he, ← Option.some.inj hrow]
        exact Or.inl List.mem_cons_self
      · rw [if_neg he] at hrow
        exact Or.inr hrow

/-- the short room ids were counted, each for one room -/
structure Shorts (st : Store) : Prop where
  counter : st.counter < 2^64
  counted : ∀ k v, st.roomidShortroomid.get k = some v → ∃ n, n ≤ st.counter ∧ v = be64 n
  inj : ∀ k k' v, st.roomidShortroomid.get k = some v → st.roomidShortroomid.get k' = some v → k = k'

/-- the index stays as it is -/
def GivesShorts (st st' : Store) : Prop := (Shorts st → Shorts st') ∧ st'.tokenids = st.tokenids

theorem GivesShorts.refl (st : Store) : GivesShorts st st := ⟨id, rfl⟩

theorem GivesShorts.trans (a b c : Store) (h : GivesShorts a b) (h' : GivesShorts b c) : GivesShorts a c :=
  ⟨fun hs => h'.1 (h.1 hs), h'.2.trans h.2⟩

/-- a room gets a number that no room has -/
theorem Shorts.give {st : Store} (h : Shorts st) (hlt : st.counter + 1 < 2^64) (roomId : Bytes) :
    Shorts { st with
      counter := st.counter + 1
      roomidShortroomid := st.roomidShortroomid.insert roomId (be64 (st.counter + 1)) } := by
  have hfresh : ∀ k, st.roomidShortroomid.get k ≠ some (be64 (st.counter + 1)) := by
    intro k hk
    obtain ⟨n, hn, hv⟩ := h.counted k _ hk
    have := be_inj (w := 8) (by rw [two64]; exact hlt) (by rw [two64]; omega) hv
    omega
  refine ⟨hlt, fun k v hk => ?_, fun k k' v hk hk' => ?_⟩
  · change (st.roomidShortroomid.insert roomId _).get k = some v at hk
    rw [Tree.get_insert] at hk
    by_cases he : k = roomId
    · rw [if_pos he] at hk
      exact ⟨st.counter + 1, le_refl _, (Option.some.inj hk).symm⟩
    · rw [if_neg he] at hk
      obtain ⟨n, hn, hv⟩ := h.counted k v hk
      exact ⟨n, Nat.le_succ_of_le hn, hv⟩
  · change (st.roomidShortroomid.insert roomId _).get k = some v at hk
    change (st.roomidShortroomid.insert roomId _).get k' = some v at hk'
    rw [Tree.get_insert] at hk hk'
    by_cases he : k = roomId
    · by_cases he' : k' = roomId
      · rw [he, he']
      · rw [if_pos he] at hk
        rw [if_neg he', ← hk] at hk'
        exact absurd hk' (hfresh k')
    · by_cases he' : k' = roomId
      · rw [if_pos he'] at hk'
        rw [if_neg he, ← hk'] at hk
        exact absurd hk (hfresh k)
      · rw [if_neg he] at hk
        rw [if_neg he'] at hk'
        exact h.inj k k' v hk hk'

theorem giveShort_keeps (roomIds : List Bytes) : Comp.Keeps GivesShorts (giveShort roomIds) := by
  induction roomIds with
  | nil => exact fun st => GivesShorts.refl st
  | cons roomId roomIds ih =>
    intro st
    unfold giveShort
    by_cases hlt : st.counter + 1 < 2^64
    · have hcount : nextCount st = (.ok (st.counter + 1), { st with counter := st.counter + 1 }) := if_pos hlt
      rw [Comp.bind_ok hcount]
      exact GivesShorts.trans _ _ _ ⟨fun h => h.give hlt roomId, rfl⟩ (ih _)
    · have hcount : nextCount st = (.error StateDb.counterOverflow, st) := if_neg hlt
      rw [Comp.bind_error hcount]
      exact GivesShorts.refl st

theorem migrate8_gives {st st' : Store} (h : migrate8 st = (.ok (), st')) : GivesShorts st st' := by
  unfold migrate8 at h
  rw [Comp.bind_ok (Comp.get_run st)] at h
  obtain ⟨_, st₁, h1, h⟩ := Comp.bind_eq_ok.mp h
  have hgive := giveShort_keeps (st.roomidShortstatehash.rows.map Prod.fst) st
  rw [h1] at hgive
  obtain ⟨rows, -, h⟩ := Comp.reads_eq_ok h
  obtain ⟨_, st₂, h2, h⟩ := Comp.bind_eq_ok.mp h
  cases h2
  obtain ⟨ids, -, h⟩ := Comp.reads_eq_ok h
  cases h
  exact ⟨fun hs => ⟨(hgive.1 hs).counter, (hgive.1 hs).counted, (hgive.1 hs).inj⟩, hgive.2⟩

theorem Version7.shortsGiven {st : Store} (h : Version7 st) : Shorts st := by
  refine ⟨h.counter, fun k v hk => ?_, fun k k' v hk => ?_⟩
  · rw [h.shorts] at hk
    cases hk
  · rw [h.shorts] at hk
    cases hk

theorem startsWithRoom_append {a : Bytes} (h : startsWithRoom a = true) (b : Bytes) :
    startsWithRoom (a ++ b) = true := by
  rw [startsWithRoom, List.isPrefixOf_iff_prefix] at h ⊢
  exact h.trans (List.prefix_append a b)

/-- the room is left out of the new row -/
theorem newTokenKey_old {st : Store} (hr : startsWithRoom r.bytes = true) (hw : sep ∉ word) (count : Nat)
    {key : Bytes} (h : newTokenKey st (oldTokenKey r word (oldPduId r count)) = .ok (some key)) :
    ∃ short, st.roomidShortroomid.get r.bytes = some short ∧ key = short ++ (word ++ sep :: be64 count) := by
  have hstarts : startsWithRoom (oldTokenKey r word (oldPduId r count)) = true := startsWithRoom_append hr _
  unfold newTokenKey at h
  rw [if_pos hstarts] at h
  have h1 : nextPart (some (oldTokenKey r word (oldPduId r count)))
      = .ok (r.bytes, some (word ++ sep :: oldPduId r count)) := congrArg Except.ok (cut_append r.noSep _)
  have h2 : nextPart (some (word ++ sep :: oldPduId r count)) = .ok (word, some (oldPduId r count)) :=
    congrArg Except.ok (cut_append hw _)
  have h3 : nextPart (some (oldPduId r count)) = .ok (r.bytes, some (be64 count)) :=
    congrArg Except.ok (cut_append r.noSep _)
  obtain ⟨_, hroom, h⟩ := except_bind_eq_ok.mp h
  cases h1.symm.trans hroom
  obtain ⟨_, hword, h⟩ := except_bind_eq_ok.mp h
  cases h2.symm.trans hword
  obtain ⟨_, hid, h⟩ := except_bind_eq_ok.mp h
  cases h3.symm.trans hid
  change (shortRoomId st r.bytes >>= _) = _ at h
  unfold shortRoomId at h
  cases hs : st.roomidShortroomid.get r.bytes with
  | none =>
    rw [hs] at h
    cases h
  | some short =>
    rw [hs] at h
    cases h
    exact ⟨short, rfl, rfl⟩

/-- every row after the migrations is an old row without the room -/
theorem migrate_rows {st st' : Store} (h7 : Version7 st) (hrun : migrate st = (.ok (), st')) :
    Shorts st' ∧ ∀ key, st'.tokenids.get key = some () → ∃ r word count n, IndexedUnder st r count word ∧
      sep ∉ word ∧ n < 2^64 ∧ st'.roomidShortroomid.get r.bytes = some (be64 n) ∧
      key = be64 n ++ (word ++ sep :: be64 count) := by
  unfold migrate at hrun
  obtain ⟨_, st₁, h8, h9⟩ := Comp.bind_eq_ok.mp hrun
  obtain ⟨hshorts, htokens⟩ := migrate8_gives h8
  replace hshorts := hshorts h7.shortsGiven
  unfold migrate9 at h9
  obtain ⟨keys, hkeys, h9⟩ := Comp.reads_eq_ok h9
  cases h9
  refine ⟨⟨hshorts.counter, hshorts.counted, hshorts.inj⟩, fun key hget => ?_⟩
  change (((putAll (keys.map (fun key => (key, ()))) st₁.tokenids).rows.map Prod.fst).filter startsWithRoom
    |>.foldl (fun t key => t.remove key) (putAll (keys.map (fun key => (key, ()))) st₁.tokenids)).get key
      = some () at hget
  rw [Tree.get_remove_all (fun k : Bytes => k), List.map_id'] at hget
  split at hget
  · cases hget
  · next hnot =>
    have hstays : ¬ startsWithRoom key = true := fun hroom => hnot (List.mem_filter.mpr
      ⟨List.mem_map.mpr ⟨(key, ()), (Tree.get_eq_some_iff _ _ _).mp hget, rfl⟩, hroom⟩)
    rcases putAll_get _ hget with hnew | hold
    · obtain ⟨key', hkey', he⟩ := List.mem_map.mp hnew
      cases he
      obtain ⟨row, hrow, hform⟩ := mem_batch hkeys hkey'
      rw [htokens] at hrow
      obtain ⟨r, word, count, hr, hw, hname⟩ := h7.tokens row hrow
      rw [hname] at hform
      obtain ⟨short, hshort, rfl⟩ := newTokenKey_old hr hw count hform
      obtain ⟨n, hn, rfl⟩ := hshorts.counted _ _ hshort
      refine ⟨r, word, count, n, ?_, hw, hn.trans_lt hshorts.counter, hshort, rfl⟩
      unfold IndexedUnder
      rw [← hname]
      exact (Tree.get_eq_some_iff _ _ _).mpr hrow
    · rw [htokens] at hold
      obtain ⟨r, word, count, hr, -, hname⟩ := h7.tokens _ ((Tree.get_eq_some_iff _ _ _).mp hold)
      refine absurd ?_ hstays
      rw [show key = oldTokenKey r word (oldPduId r count) from hname]
      exact startsWithRoom_append hr _

/-- a short id belongs to one room -/
theorem Shorts.room_eq {st : Store} (h : Shorts st) {r' : RoomId} {s n : Nat}
    (hr : st.toDb.roomidShortroomid r = some s) (hr' : st.roomidShortroomid.get r'.bytes = some (be64 n))
    (hs : be64 s = be64 n) : r' = r := by
  obtain ⟨v, hv, he⟩ := Option.map_eq_some_iff.mp hr
  obtain ⟨m, hm, rfl⟩ := h.counted _ _ hv
  have hm' : ofBe (be64 m) = m := ofBe_be_of_lt (by rw [two64]; exact hm.trans_lt h.counter)
  rw [hm'] at he
  rw [he, hs] at hv
  exact RoomId.ext_bytes (h.inj _ _ _ hr' hv)

/-- under a word there is what is left of the ids: their counts -/
theorem migrated_id {env : Env} (hlower : ∀ w, sep ∉ env.toLowercase w) {st st' : Store} (h7 : Version7 st)
    (hrun : migrate st = (.ok (), st')) {s : Nat} (hr : st'.toDb.roomidShortroomid r = some s) {q : String}
    (hword : word ∈ Db.tokenize env q) {id : Bytes} (hget : st'.tokenids.get (Db.tokenKey s id word) = some ()) :
    ∃ count, id = be64 count ∧ IndexedUnder st r count word := by
  have hw : sep ∉ word := by
    obtain ⟨w, -, rfl⟩ := List.mem_map.mp hword
    exact hlower w
  obtain ⟨hshorts, hrows⟩ := migrate_rows h7 hrun
  obtain ⟨r', word', count, n, hindexed, hw', -, hn, hkey⟩ := hrows _ hget
  obtain ⟨hs, hrest⟩ := List.append_inj hkey (by rw [be64, be64, be_length, be_length])
  obtain ⟨rfl, rfl⟩ := sep_append_inj hw hw' hrest
  rw [hshorts.room_eq hr hn hs] at hindexed
  exact ⟨count, rfl, hindexed⟩

/-- **the migrated index is useless**: for a query it yields ids of events, and every message that was indexed
under all words, just if there is no such message -/
theorem migrated_usable_iff {env : Env} (hlower : ∀ w, sep ∉ env.toLowercase w) {st st' : Store}
    (h7 : Version7 st) (hrun : migrate st = (.ok (), st')) {r : RoomId} {s : Nat}
    (hr : st'.toDb.roomidShortroomid r = some s) {q : String} (hq : Db.tokenize env q ≠ []) :
    Usable env st st' r q ↔ ¬ ∃ count, ∀ word ∈ Db.tokenize env q, IndexedUnder st r count word := by
  obtain ⟨ids, hids, -, hmem⟩ := Db.searchTokens_spec (t := st'.tokenids) (s := s) hq
  obtain ⟨first, hfirst⟩ := List.exists_mem_of_ne_nil _ hq
  have hsearch : Db.searchPdus env st'.toDb r q = .ok (some (ids, Db.tokenize env q)) := by
    unfold Db.searchPdus
    rw [hr]
    exact congrArg (fun o => Except.ok (o.map fun ids => (ids, Db.tokenize env q))) hids
  constructor
  · rintro ⟨ids', words, hsearch', -, hyields⟩ ⟨count, hall⟩
    cases hsearch.symm.trans hsearch'
    obtain ⟨s', hs', hid⟩ := hyields count hall
    obtain ⟨count', he, -⟩ := migrated_id hlower h7 hrun hr hfirst ((hmem _).mp hid first hfirst).1
    -- an id has sixteen bytes, and what is left of it has eight
    have hlength := congrArg List.length he
    change (be64 s ++ be64 count).length = (be64 count').length at hlength
    rw [List.length_append, be64, be64, be64, be_length, be_length, be_length] at hlength
    omega
  · intro hnone
    have hempty : ∀ id, id ∉ ids := by
      intro id hid
      obtain ⟨count, rfl, -⟩ := migrated_id hlower h7 hrun hr hfirst ((hmem _).mp hid first hfirst).1
      refine hnone ⟨count, fun word hword => ?_⟩
      obtain ⟨count', he, hindexed⟩ := migrated_id hlower h7 hrun hr hword ((hmem _).mp hid word hword).1
      have hold : oldPduId r count = oldPduId r count' := congrArg (fun b => r.bytes ++ sep :: b) he
      unfold IndexedUnder at hindexed ⊢
      rw [hold]
      exact hindexed
    refine ⟨ids, _, hsearch, fun id hid => absurd hid (hempty id), fun count hall => ?_⟩
    exact absurd ⟨count, hall⟩ hnone

/-! ## a room with one message -/

namespace OneMessage

def room : RoomId := ⟨.ascii "!r:x"⟩

def message : PduJson :=
  { json := []
    pdu := { eventId := ⟨.ascii "$hi"⟩, roomId := room, sender := ⟨.ascii "@a:x"⟩, originServerTs := 0,
             kind := .roomMessage, content := [], stateKey := none, prevEvents := [], depth := 2,
             authEvents := [], redacts := none, unsigned := none } }

def hi : Bytes := (Text.ascii "hi").bytes

/-- the message has the word hi -/
def store : Store :=
  { counter := 7
    roomidShortstatehash := Tree.empty.insert room.bytes (be64 3)
    roomidShortroomid := .empty
    pduidPdu := Tree.empty.insert (oldPduId room 5) message
    eventidPduid := Tree.empty.insert message.pdu.eventId.bytes (oldPduId room 5)
    tokenids := Tree.empty.insert (oldTokenKey room hi (oldPduId room 5)) () }

def migrated : Store := (migrate store).2

theorem version7 : Version7 store where
  counter := by decide
  shorts := rfl
  rooms row hrow := ⟨room, congrArg Prod.fst (List.mem_singleton.mp hrow)⟩
  pdus row hrow := ⟨room, 5, by decide, congrArg Prod.fst (List.mem_singleton.mp hrow)⟩
  tokens row hrow := ⟨room, hi, 5, by decide, Text.noSep _, congrArg Prod.fst (List.mem_singleton.mp hrow)⟩

theorem run : migrate store = (.ok (), migrated) :=
  Comp.run_of_fst (show (migrate store).1 = .ok () by decide +kernel)

theorem found : Db.searchPdus .plain migrated.toDb room "hi" = .ok (some ([be64 5], [hi])) := by
  decide +kernel

theorem unknown : (migrated.pduidPdu.get (be64 5)).isNone = true := by decide +kernel

end OneMessage

theorem migrated_usable_iff_hi : Usable .plain OneMessage.store OneMessage.migrated OneMessage.room "bye" ↔
    ¬ ∃ count, ∀ word ∈ Db.tokenize .plain "bye", IndexedUnder OneMessage.store OneMessage.room count word :=
  migrated_usable_iff (fun _ => Text.noSep _) OneMessage.version7 OneMessage.run
    (show OneMessage.migrated.toDb.roomidShortroomid OneMessage.room = some 8 by decide +kernel)
    (by decide +kernel)

/-- the message is found, under the eight bytes of its count -/
theorem migrated_id_unknown :
    Version7 OneMessage.store ∧ migrate OneMessage.store = (.ok (), OneMessage.migrated) ∧
      (∀ word ∈ Db.tokenize .plain "hi", IndexedUnder OneMessage.store OneMessage.room 5 word) ∧
      Db.searchPdus .plain OneMessage.migrated.toDb OneMessage.room "hi" = .ok (some ([be64 5], [OneMessage.hi])) ∧
      (OneMessage.migrated.pduidPdu.get (be64 5)).isNone = true ∧
      (OneMessage.migrated.pduidPdu.get (pduId 8 (.normal 5))).isSome = true ∧
      ¬ Usable .plain OneMessage.store OneMessage.migrated OneMessage.room "hi" := by
  refine ⟨OneMessage.version7, OneMessage.run, ?_, OneMessage.found, OneMessage.unknown, by decide +kernel, ?_⟩
  · have hword : Db.tokenize .plain "hi" = [OneMessage.hi] := by decide +kernel
    rw [hword]
    intro word hmem
    rw [List.mem_singleton.mp hmem]
    unfold IndexedUnder
    decide +kernel
  · rintro ⟨ids, words, hsearch, hids, -⟩
    cases OneMessage.found.symm.trans hsearch
    obtain ⟨j, hj⟩ := hids (be64 5) (List.mem_singleton.mpr rfl)
    have hnone := OneMessage.unknown
    rw [hj] at hnone
    cases hnone

end SearchMigration
end Grapevine
