import Grapevine.Data.Ids
import Grapevine.Lib.Stream
import Grapevine.Timeline.Count
import Mathlib.Data.List.Nodup
import Mathlib.Data.List.TakeWhile

/-!
# To-device messages

A message to a device is stored under `user ++ 0xFF ++ device ++ 0xFF ++ count` until a sync of the
device says with its `since` that the response which held the message has arrived.

* `removeToDeviceEvents`   removes exactly the rows of the device up to the count
                           (`mem_removeToDeviceEvents`);
* `Step`                   sends and syncs, one database operation a step.

Main result: `toDevice_delivered`.  A send draws its count before it stores its row, and a sync
removes the old rows before it reads the new ones.  As long as every row is stored before a sync
that knows its count reads the rows of the device, no row is removed before a response has held it;
a row stored later can be removed unseen (`toDevice_unseen`).
-/

namespace Grapevine
open Kv

namespace ToDevice

variable {d : DeviceId} {u : UserId} {last n : Nat}

/-! ## the table -/

/-- the prefix of the rows of a device -/
def deviceRows (u : UserId) (d : DeviceId) : Bytes := u.bytes ++ sep :: (d.bytes ++ [sep])

def toDeviceId (u : UserId) (d : DeviceId) (count : Nat) : Bytes :=
  streamKey (deviceRows u d) 8 count []

/-- the value that `add_to_device_event` stores -/
def toDeviceJson (sender eventType : String) (content : Json) : Json :=
  .obj [("type", .str eventType), ("sender", .str sender), ("content", content)]

/-- `todeviceid_events`: every key is the key of a device and a count -/
structure Table where
  tree : Tree Bytes Json
  keyed : ∀ row ∈ tree.rows, ∃ u d n, n < 2^64 ∧ row.1 = toDeviceId u d n

namespace Table

def empty : Table := ⟨.empty, fun _ h => absurd h List.not_mem_nil⟩

def add (t : Table) (u : UserId) (d : DeviceId) (count : Nat) (event : Json) : Table where
  tree := t.tree.insert (toDeviceId u d (count % 2^64)) event
  keyed row hrow := by
    rcases (t.tree.mem_insert _ _ _).mp hrow with rfl | ⟨h, _⟩
    · exact ⟨u, d, count % 2^64, Nat.mod_lt _ (by norm_num), rfl⟩
    · exact t.keyed row h

def remove (t : Table) (key : Bytes) : Table where
  tree := t.tree.remove key
  keyed row hrow := t.keyed row ((t.tree.mem_remove _ _).mp hrow).1

/-- `get_to_device_events`, with the keys of the rows -/
def rowsOf (t : Table) (u : UserId) (d : DeviceId) : List (Bytes × Json) :=
  t.tree.scanPrefix (deviceRows u d)

def getToDeviceEvents (t : Table) (u : UserId) (d : DeviceId) : List Json :=
  (t.rowsOf u d).map Prod.snd

end Table

/-- the last word of a key -/
def countOf (key : Bytes) : Nat := ofBe (key.drop (key.length - 8))

/-- the keys that `remove_to_device_events` goes through -/
def Table.keysUntil (t : Table) (u : UserId) (d : DeviceId) (last : Nat) : List Bytes :=
  ((t.tree.upTo (deviceRows u d) 8 last).takeWhile (fun row => countOf row.1 ≤ last)).map Prod.fst

def Table.removeToDeviceEvents (t : Table) (u : UserId) (d : DeviceId) (last : Nat) : Table :=
  (t.keysUntil u d last).foldl Table.remove t

/-! ## keys -/

theorem lt_word (h : n < 2^64) : n < 256^8 := two64 ▸ h

theorem countOf_toDeviceId (u : UserId) (d : DeviceId) (h : n < 2^64) :
    countOf (toDeviceId u d n) = n := by
  unfold countOf toDeviceId streamKey
  rw [List.append_nil, List.length_append, be_length, Nat.add_sub_cancel, List.drop_left,
    ofBe_be_of_lt (lt_word h)]

theorem deviceRows_inj {v : UserId} {e : DeviceId} {a : Bytes} (h : deviceRows u d <+: deviceRows v e ++ a) :
    u = v ∧ d = e := by
  obtain ⟨c, hc⟩ := h
  unfold deviceRows at hc
  rw [List.append_assoc, List.append_assoc, List.cons_append, List.cons_append, List.append_assoc,
    List.append_assoc] at hc
  obtain ⟨hu, hrest⟩ := sep_append_inj u.noSep v.noSep hc
  obtain ⟨hd, _⟩ := sep_append_inj d.noSep e.noSep hrest
  exact ⟨UserId.ext_bytes hu, DeviceId.ext_bytes hd⟩

theorem toDeviceId_prefix_iff {v : UserId} {e : DeviceId} :
    deviceRows u d <+: toDeviceId v e n ↔ u = v ∧ d = e := by
  constructor
  · intro h
    exact deviceRows_inj h
  · rintro ⟨rfl, rfl⟩
    exact prefix_streamKey _ _ _ _

theorem toDeviceId_inj {v : UserId} {e : DeviceId} {m : Nat} (hn : n < 2^64) (hm : m < 2^64)
    (h : toDeviceId u d n = toDeviceId v e m) : u = v ∧ d = e ∧ n = m := by
  have hpre : deviceRows u d <+: toDeviceId u d n := prefix_streamKey _ _ _ _
  rw [h] at hpre
  obtain ⟨rfl, rfl⟩ := toDeviceId_prefix_iff.mp hpre
  exact ⟨rfl, rfl, (streamKey_inj (lt_word hn) (lt_word hm) h).1⟩

/-- the keys of a removal are the keys of the device up to the count -/
theorem mem_keysUntil (t : Table) (u : UserId) (d : DeviceId) (h : last < 2^64) (key : Bytes) :
    key ∈ t.keysUntil u d last ↔
      ∃ n event, n ≤ last ∧ key = toDeviceId u d n ∧ (key, event) ∈ t.tree.rows := by
  have hcut : (t.tree.upTo (deviceRows u d) 8 last).takeWhile
      (fun row => countOf row.1 ≤ last) = t.tree.upTo (deviceRows u d) 8 last := by
    apply List.takeWhile_eq_self_iff.mpr
    rintro ⟨k, v⟩ hrow
    obtain ⟨hmem, hle, hpre⟩ := (t.tree.mem_upTo_iff _ _ _ _).mp hrow
    obtain ⟨u', d', n, hn, hk⟩ := t.keyed _ hmem
    obtain rfl : k = toDeviceId u' d' n := hk
    obtain ⟨rfl, rfl⟩ := toDeviceId_prefix_iff.mp hpre
    have hn' := ((t.tree.mem_upTo (lt_word h) (lt_word hn) v).mp hrow).2
    show decide (countOf (toDeviceId u d n) ≤ last) = true
    rw [countOf_toDeviceId u d hn]
    exact decide_eq_true hn'
  unfold Table.keysUntil
  rw [hcut, List.mem_map]
  constructor
  · rintro ⟨⟨k, v⟩, hrow, rfl⟩
    obtain ⟨hmem, hle, hpre⟩ := (t.tree.mem_upTo_iff _ _ _ _).mp hrow
    obtain ⟨u', d', n, hn, hk⟩ := t.keyed _ hmem
    obtain rfl : k = toDeviceId u' d' n := hk
    obtain ⟨rfl, rfl⟩ := toDeviceId_prefix_iff.mp hpre
    exact ⟨n, v, ((t.tree.mem_upTo (lt_word h) (lt_word hn) v).mp hrow).2, rfl, hmem⟩
  · rintro ⟨n, v, hn, rfl, hmem⟩
    refine ⟨(toDeviceId u d n, v), ?_, rfl⟩
    exact (t.tree.mem_upTo (lt_word h) (lt_word (hn.trans_lt h)) v).mpr ⟨hmem, hn⟩

theorem mem_remove_all (t : Table) (keys : List Bytes) (row : Bytes × Json) :
    row ∈ (keys.foldl Table.remove t).tree.rows ↔ row ∈ t.tree.rows ∧ row.1 ∉ keys := by
  induction keys generalizing t with
  | nil => simp
  | cons key keys ih =>
    rw [List.foldl_cons, ih]
    show row ∈ (t.tree.remove key).rows ∧ _ ↔ _
    rw [t.tree.mem_remove, List.mem_cons, not_or, and_assoc]

/-- the removal takes the rows of the device up to the count, and nothing else -/
theorem mem_removeToDeviceEvents (t : Table) (u : UserId) (d : DeviceId) (h : last < 2^64) (row : Bytes × Json) :
    row ∈ (t.removeToDeviceEvents u d last).tree.rows ↔
      row ∈ t.tree.rows ∧ ¬ ∃ n ≤ last, row.1 = toDeviceId u d n := by
  unfold Table.removeToDeviceEvents
  rw [mem_remove_all]
  refine and_congr_right fun hrow => not_congr ?_
  rw [mem_keysUntil t u d h]
  constructor
  · rintro ⟨n, _, hn, hk, _⟩
    exact ⟨n, hn, hk⟩
  · rintro ⟨n, hn, hk⟩
    exact ⟨n, row.2, hn, hk, hrow⟩

/-- a scan for a device yields its rows -/
theorem mem_rowsOf (t : Table) (u : UserId) (d : DeviceId) (row : Bytes × Json) :
    row ∈ t.rowsOf u d ↔ row ∈ t.tree.rows ∧ ∃ n, row.1 = toDeviceId u d n := by
  unfold Table.rowsOf
  rw [Tree.mem_scanPrefix]
  refine and_congr_right fun hrow => ?_
  constructor
  · intro hpre
    obtain ⟨u', d', n, _, hk⟩ := t.keyed _ hrow
    rw [hk] at hpre
    obtain ⟨rfl, rfl⟩ := toDeviceId_prefix_iff.mp hpre
    exact ⟨n, hk⟩
  · rintro ⟨n, hk⟩
    rw [hk]
    exact prefix_streamKey _ _ _ _

/-! ## sends and syncs -/

/-- an `add_to_device_event` -/
structure Message where
  user : UserId
  device : DeviceId
  count : Nat
  event : Json

def Message.row (m : Message) : Bytes × Json := (toDeviceId m.user m.device m.count, m.event)

/-- how far a sync is with the to-device messages -/
inductive Stage where
  /-- `next_batch` has been read -/
  | opened
  /-- the keys that are still to be removed -/
  | removing (keys : List Bytes)
  /-- the to-device section of the response -/
  | built (events : List (Bytes × Json))

structure Sync where
  user : UserId
  device : DeviceId
  since : Nat
  nextBatch : Nat
  stage : Stage

structure Response where
  user : UserId
  device : DeviceId
  nextBatch : Nat
  events : List (Bytes × Json)

structure State where
  counter : Nat
  table : Table
  /-- the sends that have drawn their count and not stored their row -/
  sends : List Message
  syncs : List Sync
  responses : List Response
  /-- the messages that were stored so far -/
  stored : List Message

def start : State := ⟨0, .empty, [], [], [], []⟩

/-- the tokens that a client of the device can use -/
def State.Received (s : State) (u : UserId) (d : DeviceId) (since : Nat) : Prop :=
  since = 0 ∨ ∃ resp ∈ s.responses, resp.user = u ∧ resp.device = d ∧ resp.nextBatch = since

inductive Step : State → Option Message → State → Prop
  /-- `next_count` of other code -/
  | tick {s : State} : s.counter + 1 < 2^64 → Step s none { s with counter := s.counter + 1 }
  /-- `next_count` of a send -/
  | draw {s : State} (u : UserId) (d : DeviceId) (event : Json) : s.counter + 1 < 2^64 →
      Step s none { s with
        counter := s.counter + 1, sends := ⟨u, d, s.counter + 1, event⟩ :: s.sends }
  | store {s : State} {m : Message} {rest : List Message} : s.sends.Perm (m :: rest) →
      Step s (some m) { s with
        table := s.table.add m.user m.device m.count m.event
        sends := rest, stored := m :: s.stored }
  | begin {s : State} (u : UserId) (d : DeviceId) {since : Nat} : s.Received u d since →
      Step s none { s with syncs := ⟨u, d, since, s.counter, .opened⟩ :: s.syncs }
  /-- `remove_to_device_events` looks its keys up -/
  | scan {s : State} {c : Sync} {rest : List Sync} : s.syncs.Perm (c :: rest) → c.stage = .opened →
      Step s none { s with
        syncs := { c with stage := .removing (s.table.keysUntil c.user c.device c.since) } :: rest }
  | remove {s : State} {c : Sync} {rest : List Sync} {key : Bytes} {keys : List Bytes} :
      s.syncs.Perm (c :: rest) → c.stage = .removing (key :: keys) →
      Step s none { s with
        table := s.table.remove key, syncs := { c with stage := .removing keys } :: rest }
  /-- `get_to_device_events` -/
  | read {s : State} {c : Sync} {rest : List Sync} : s.syncs.Perm (c :: rest) →
      c.stage = .removing [] →
      Step s none { s with
        syncs := { c with stage := .built (s.table.rowsOf c.user c.device) } :: rest }
  | respond {s : State} {c : Sync} {rest : List Sync} {events : List (Bytes × Json)} :
      s.syncs.Perm (c :: rest) → c.stage = .built events →
      Step s none { s with
        syncs := rest, responses := ⟨c.user, c.device, c.nextBatch, events⟩ :: s.responses }
  /-- a sync fails, or its client is gone -/
  | abort {s : State} {c : Sync} {rest : List Sync} : s.syncs.Perm (c :: rest) →
      Step s none { s with syncs := rest }

/-- runs on whose steps a condition on the stored message holds -/
inductive RunWith (P : State → Message → Prop) : State → Prop
  | start : RunWith P start
  | step {s s' : State} {stored : Option Message} : RunWith P s → Step s stored s' →
      (∀ m, stored = some m → P s m) → RunWith P s'

/-- some response for the device has held the message -/
def State.Delivered (s : State) (m : Message) : Prop :=
  ∃ resp ∈ s.responses, resp.user = m.user ∧ resp.device = m.device ∧ m.row ∈ resp.events

/-- every message that was stored is still there or was delivered -/
def State.NoneLost (s : State) : Prop :=
  ∀ m ∈ s.stored, m.row ∈ s.table.tree.rows ∨ s.Delivered m

/-- the row is stored above the token of every sync of the device that has read the rows -/
structure InTime (s : State) (m : Message) : Prop where
  built : ∀ c ∈ s.syncs, c.user = m.user → c.device = m.device → ∀ events, c.stage = .built events →
    c.nextBatch < m.count
  responded : ∀ resp ∈ s.responses, resp.user = m.user → resp.device = m.device →
    resp.nextBatch < m.count

/-! ## the invariant -/

def State.messagesOf (s : State) (u : UserId) (d : DeviceId) : Set Message :=
  {m | m ∈ s.stored ∧ m.user = u ∧ m.device = d}

def State.deliveredSet (s : State) : Set Message := {m | s.Delivered m}

/-- what holds of a sync in flight -/
structure SyncOk (s : State) (c : Sync) : Prop where
  token : c.nextBatch ≤ s.counter
  since : s.Received c.user c.device c.since
  removing : ∀ keys, c.stage = .removing keys → ∀ key ∈ keys,
    ∃ m ∈ s.stored, m.row.1 = key ∧ s.Delivered m
  built : ∀ events, c.stage = .built events → Covers Message.count (s.messagesOf c.user c.device)
    (s.deliveredSet ∪ {m | m.row ∈ events}) c.nextBatch

structure Inv (s : State) : Prop where
  counter_lt : s.counter < 2^64
  counts : ∀ m ∈ s.sends ++ s.stored, 1 ≤ m.count ∧ m.count ≤ s.counter
  fresh : ((s.sends ++ s.stored).map Message.count).Nodup
  syncs : ∀ c ∈ s.syncs, SyncOk s c
  tokens : ∀ resp ∈ s.responses, resp.nextBatch ≤ s.counter
  covered : ∀ resp ∈ s.responses, Covers Message.count (s.messagesOf resp.user resp.device)
    s.deliveredSet resp.nextBatch
  rows : ∀ row ∈ s.table.tree.rows, ∃ m ∈ s.stored, m.row = row
  noneLost : s.NoneLost

theorem inv_start : Inv start where
  counter_lt := by decide
  counts m hm := absurd hm List.not_mem_nil
  fresh := List.nodup_nil
  syncs c hc := absurd hc List.not_mem_nil
  tokens resp hr := absurd hr List.not_mem_nil
  covered resp hr := absurd hr List.not_mem_nil
  rows row hrow := absurd hrow List.not_mem_nil
  noneLost m hm := absurd hm List.not_mem_nil

section
variable {s s' : State}
variable {m : Message} {since : Nat} {c : Sync}

theorem Delivered.mono (h : s.Delivered m) (hr : s.responses ⊆ s'.responses) :
    s'.Delivered m := by
  obtain ⟨resp, hresp, h⟩ := h
  exact ⟨resp, hr hresp, h⟩

theorem Received.mono (h : s.Received u d since) (hr : s.responses ⊆ s'.responses) : s'.Received u d since := by
  rcases h with h | ⟨resp, hresp, h⟩
  · exact Or.inl h
  · exact Or.inr ⟨resp, hr hresp, h⟩

theorem SyncOk.mono (h : SyncOk s c) (hc : s.counter ≤ s'.counter) (hr : s.responses ⊆ s'.responses)
    (hs : s'.stored = s.stored) : SyncOk s' c where
  token := h.token.trans hc
  since := Received.mono h.since hr
  removing keys hk key hkey := by
    obtain ⟨m, hm, he, hd⟩ := h.removing keys hk key hkey
    exact ⟨m, hs ▸ hm, he, Delivered.mono hd hr⟩
  built events he := by
    refine (h.built events he).mono (fun m hm => ⟨hs ▸ hm.1, hm.2⟩) ?_
    exact Set.union_subset_union_left _ fun m hm => Delivered.mono hm hr

theorem Inv.count_lt (h : Inv s) (hm : m ∈ s.sends ++ s.stored) : m.count < 2^64 :=
  (h.counts m hm).2.trans_lt h.counter_lt

/-- a token that a client can use has brought everything up to it -/
theorem Inv.received (h : Inv s) (hs : s.Received u d since) :
    since ≤ s.counter ∧ Covers Message.count (s.messagesOf u d) s.deliveredSet since := by
  rcases hs with rfl | ⟨resp, hresp, rfl, rfl, rfl⟩
  · exact ⟨Nat.zero_le _, Covers.zero fun m hm => (h.counts m (List.mem_append_right _ hm.1)).1⟩
  · exact ⟨h.tokens resp hresp, h.covered resp hresp⟩

/-- a step that only moves the syncs -/
theorem Inv.move (h : Inv s) {syncs : List Sync} (hok : ∀ c ∈ syncs, SyncOk s c) :
    Inv { s with syncs := syncs } where
  counter_lt := h.counter_lt
  counts := h.counts
  fresh := h.fresh
  syncs c hc := (hok c hc).mono le_rfl (fun _ hr => hr) rfl
  tokens := h.tokens
  covered := h.covered
  rows := h.rows
  noneLost := h.noneLost

theorem Inv.moveOne (h : Inv s) {c' : Sync} {rest : List Sync} (hp : s.syncs.Perm (c :: rest))
    (hok : SyncOk s c → SyncOk s c') : Inv { s with syncs := c' :: rest } := by
  apply h.move
  intro d hd
  rcases List.mem_cons.mp hd with rfl | hd
  · exact hok (h.syncs c (hp.mem_iff.mpr List.mem_cons_self))
  · exact h.syncs d (hp.mem_iff.mpr (List.mem_cons_of_mem _ hd))

theorem Inv.tick (h : Inv s) (hlt : s.counter + 1 < 2^64) : Inv { s with counter := s.counter + 1 } where
  counter_lt := hlt
  counts m hm := ⟨(h.counts m hm).1, (h.counts m hm).2.trans (Nat.le_succ _)⟩
  fresh := h.fresh
  syncs c hc := (h.syncs c hc).mono (Nat.le_succ _) (fun _ hr => hr) rfl
  tokens resp hr := (h.tokens resp hr).trans (Nat.le_succ _)
  covered := h.covered
  rows := h.rows
  noneLost := h.noneLost

theorem Inv.draw (h : Inv s) (hlt : s.counter + 1 < 2^64) (u : UserId) (d : DeviceId) (event : Json) :
    Inv { s with counter := s.counter + 1, sends := ⟨u, d, s.counter + 1, event⟩ :: s.sends } := by
  have h' := h.tick hlt
  refine ⟨h'.counter_lt, ?_, ?_, fun c hc => (h'.syncs c hc).mono le_rfl (fun _ hr => hr) rfl,
    h'.tokens, h'.covered, h'.rows, h'.noneLost⟩
  · intro m hm
    rcases List.mem_cons.mp hm with rfl | hm
    · exact ⟨Nat.le_add_left 1 s.counter, le_rfl⟩
    · exact h'.counts m hm
  · show ((s.counter + 1) :: (s.sends ++ s.stored).map Message.count).Nodup
    refine List.nodup_cons.mpr ⟨fun hmem => ?_, h.fresh⟩
    obtain ⟨m, hm, he⟩ := List.mem_map.mp hmem
    have hle := (h.counts m hm).2
    omega

/-- the row of a send meets no other row, and no reader that should have seen it -/
theorem Inv.store (h : Inv s) {rest : List Message} (hp : s.sends.Perm (m :: rest)) (hin : InTime s m) :
    Inv { s with
      table := s.table.add m.user m.device m.count m.event
      sends := rest, stored := m :: s.stored } := by
  have hperm : (s.sends ++ s.stored).Perm (rest ++ m :: s.stored) :=
    (hp.append_right _).trans (List.perm_middle.symm)
  have hm : m ∈ s.sends ++ s.stored :=
    List.mem_append_left _ (hp.mem_iff.mpr List.mem_cons_self)
  have hfresh : ∀ x ∈ s.stored, x.row.1 ≠ m.row.1 := by
    intro x hx e
    have hne : x.count ≠ m.count := by
      have hnd := ((hp.append_right s.stored).map Message.count).nodup_iff.mp h.fresh
      rw [List.cons_append, List.map_cons, List.nodup_cons] at hnd
      intro he
      exact hnd.1 (he ▸ List.mem_map_of_mem (List.mem_append_right _ hx))
    exact hne (toDeviceId_inj (h.count_lt (List.mem_append_right _ hx)) (h.count_lt hm) e).2.2
  have hkey : toDeviceId m.user m.device (m.count % 2^64) = m.row.1 := by
    rw [Nat.mod_eq_of_lt (h.count_lt hm)]
    rfl
  have hcov : ∀ (u : UserId) (d : DeviceId) (seen : Set Message) (token : Nat),
      Covers Message.count (s.messagesOf u d) seen token →
      (m.user = u → m.device = d → token < m.count) →
      Covers Message.count {x | x ∈ m :: s.stored ∧ x.user = u ∧ x.device = d} seen token := by
    intro u d seen token hc hlt x hx hle
    obtain ⟨hx, hu, hd⟩ := hx
    rcases List.mem_cons.mp hx with rfl | hx
    · exact absurd hle (not_le.mpr (hlt hu hd))
    · exact hc x ⟨hx, hu, hd⟩ hle
  constructor
  · exact h.counter_lt
  · intro x hx
    exact h.counts x (hperm.mem_iff.mpr hx)
  · exact (hperm.map Message.count).nodup_iff.mp h.fresh
  · intro c hc
    have hok := h.syncs c hc
    refine ⟨hok.token, hok.since, ?_, ?_⟩
    · intro keys hk key hkey
      obtain ⟨x, hx, he, hd⟩ := hok.removing keys hk key hkey
      exact ⟨x, List.mem_cons_of_mem _ hx, he, hd⟩
    · intro events he
      refine hcov _ _ _ _ (hok.built events he) fun hu hd => ?_
      exact hin.built c hc hu.symm hd.symm events he
  · exact h.tokens
  · intro resp hr
    refine hcov _ _ _ _ (h.covered resp hr) fun hu hd => ?_
    exact hin.responded resp hr hu.symm hd.symm
  · intro row hrow
    rcases (s.table.tree.mem_insert _ _ _).mp hrow with rfl | ⟨hrow, _⟩
    · exact ⟨m, List.mem_cons_self, by rw [hkey]; rfl⟩
    · obtain ⟨x, hx, he⟩ := h.rows row hrow
      exact ⟨x, List.mem_cons_of_mem _ hx, he⟩
  · intro x hx
    rcases List.mem_cons.mp hx with rfl | hx
    · refine Or.inl ((s.table.tree.mem_insert _ _ _).mpr (Or.inl ?_))
      rw [hkey]
      rfl
    · rcases h.noneLost x hx with hrow | hd
      · refine Or.inl ((s.table.tree.mem_insert _ _ _).mpr (Or.inr ⟨hrow, ?_⟩))
        rw [hkey]
        exact hfresh x hx
      · exact Or.inr hd

/-- a stored message is known by its key -/
theorem Inv.eq_of_key (h : Inv s) {x : Message} (hx : x ∈ s.stored) (hm : m ∈ s.stored) (he : x.row.1 = m.row.1) :
    x = m := by
  have hcount : x.count = m.count := (toDeviceId_inj (h.count_lt (List.mem_append_right _ hx))
    (h.count_lt (List.mem_append_right _ hm)) he).2.2
  have hnd : (s.stored.map Message.count).Nodup := by
    have hf := h.fresh
    rw [List.map_append] at hf
    exact (List.nodup_append.mp hf).2.1
  exact List.inj_on_of_nodup_map hnd hx hm hcount

/-- the keys of a removal are the keys of delivered messages -/
theorem Inv.scan (h : Inv s) {c : Sync} (hc : SyncOk s c) :
    SyncOk s { c with stage := .removing (s.table.keysUntil c.user c.device c.since) } := by
  obtain ⟨hle, hcov⟩ := h.received hc.since
  refine ⟨hc.token, hc.since, ?_, fun events he => by cases he⟩
  intro keys hk key hkey
  cases hk
  obtain ⟨n, event, hn, rfl, hrow⟩ :=
    (mem_keysUntil s.table c.user c.device (hle.trans_lt h.counter_lt) key).mp hkey
  obtain ⟨m, hm, he⟩ := h.rows _ hrow
  have hkeys : m.row.1 = toDeviceId c.user c.device n := congrArg Prod.fst he
  obtain ⟨hu, hd, hcount⟩ := toDeviceId_inj (h.count_lt (List.mem_append_right _ hm))
    ((hn.trans hle).trans_lt h.counter_lt) hkeys
  refine ⟨m, hm, hkeys, hcov m ⟨hm, hu, hd⟩ ?_⟩
  rw [hcount]
  exact hn

theorem Inv.remove (h : Inv s) {c : Sync} {rest : List Sync} {key : Bytes} {keys : List Bytes}
    (hp : s.syncs.Perm (c :: rest)) (hstage : c.stage = .removing (key :: keys)) :
    Inv { s with table := s.table.remove key, syncs := { c with stage := .removing keys } :: rest } := by
  have hok := h.syncs c (hp.mem_iff.mpr List.mem_cons_self)
  have h' : Inv { s with syncs := { c with stage := .removing keys } :: rest } := by
    refine h.moveOne hp fun hc => ⟨hc.token, hc.since, ?_, fun events he => by cases he⟩
    intro keys' hk key' hkey
    cases hk
    exact hc.removing _ hstage key' (List.mem_cons_of_mem _ hkey)
  refine ⟨h'.counter_lt, h'.counts, h'.fresh, fun c' hc' => (h'.syncs c' hc').mono le_rfl
    (fun _ hr => hr) rfl, h'.tokens, h'.covered, ?_, ?_⟩
  · intro row hrow
    exact h.rows row ((s.table.tree.mem_remove _ _).mp hrow).1
  · intro x hx
    by_cases hkey : x.row.1 = key
    · obtain ⟨m, hm, he, hd⟩ := hok.removing _ hstage key List.mem_cons_self
      rw [h.eq_of_key hx hm (hkey.trans he.symm)]
      exact Or.inr hd
    · rcases h.noneLost x hx with hrow | hd
      · exact Or.inl ((s.table.tree.mem_remove _ _).mpr ⟨hrow, hkey⟩)
      · exact Or.inr hd

/-- what is read, with what was delivered before, is all there is -/
theorem Inv.read (h : Inv s) (hc : SyncOk s c) :
    SyncOk s { c with stage := .built (s.table.rowsOf c.user c.device) } := by
  refine ⟨hc.token, hc.since, fun keys hk => (by cases hk), ?_⟩
  intro events he
  cases he
  rintro m ⟨hm, hu, hd⟩ _
  rcases h.noneLost m hm with hrow | hdel
  · refine Or.inr ((mem_rowsOf _ _ _ _).mpr ⟨hrow, m.count, ?_⟩)
    show toDeviceId m.user m.device m.count = toDeviceId c.user c.device m.count
    rw [hu, hd]
  · exact Or.inl hdel

theorem Inv.respond (h : Inv s) {c : Sync} {rest : List Sync} {events : List (Bytes × Json)}
    (hp : s.syncs.Perm (c :: rest)) (hstage : c.stage = .built events) :
    Inv { s with
      syncs := rest, responses := ⟨c.user, c.device, c.nextBatch, events⟩ :: s.responses } := by
  have hok := h.syncs c (hp.mem_iff.mpr List.mem_cons_self)
  have hsub : s.responses ⊆ ⟨c.user, c.device, c.nextBatch, events⟩ :: s.responses :=
    fun _ hr => List.mem_cons_of_mem _ hr
  refine ⟨h.counter_lt, h.counts, h.fresh, fun c' hc' => ?_, ?_, ?_, h.rows, ?_⟩
  · exact (h.syncs c' (hp.mem_iff.mpr (List.mem_cons_of_mem _ hc'))).mono le_rfl hsub rfl
  · intro resp hr
    rcases List.mem_cons.mp hr with rfl | hr
    · exact hok.token
    · exact h.tokens resp hr
  · intro resp hr
    rcases List.mem_cons.mp hr with rfl | hr
    · rintro m ⟨hm, hu, hd⟩ hle
      rcases hok.built events hstage m ⟨hm, hu, hd⟩ hle with hdel | hev
      · exact Delivered.mono hdel hsub
      · exact ⟨_, List.mem_cons_self, hu.symm, hd.symm, hev⟩
    · exact (h.covered resp hr).mono (fun m hm => hm) fun m hm => Delivered.mono hm hsub
  · intro m hm
    exact (h.noneLost m hm).imp_right fun hd => Delivered.mono hd hsub

/-- one step keeps the invariant, when what it stores is stored in time -/
theorem step_inv {stored : Option Message} (h : Inv s) (hstep : Step s stored s')
    (hin : ∀ m, stored = some m → InTime s m) : Inv s' := by
  cases hstep with
  | tick hlt => exact h.tick hlt
  | draw u d event hlt => exact h.draw hlt u d event
  | store hp => exact h.store hp (hin _ rfl)
  | begin u d hs =>
    apply h.move
    intro c hc
    rcases List.mem_cons.mp hc with rfl | hc
    · exact ⟨le_rfl, hs, fun _ hk => (by cases hk), fun _ he => (by cases he)⟩
    · exact h.syncs c hc
  | scan hp _ => exact h.moveOne hp fun hc => h.scan hc
  | remove hp hstage => exact h.remove hp hstage
  | read hp _ => exact h.moveOne hp fun hc => h.read hc
  | respond hp hstage => exact h.respond hp hstage
  | abort hp => exact h.move fun c hc => h.syncs c (hp.mem_iff.mpr (List.mem_cons_of_mem _ hc))

theorem run_inv (h : RunWith InTime s) : Inv s := by
  induction h with
  | start => exact inv_start
  | step _ hstep hin ih => exact step_inv ih hstep hin

end

/-- **to-device messages are delivered** in runs whose rows are stored in time: none is removed
before a response has held it.  A removal takes exactly the rows of its device up to its count -/
theorem toDevice_delivered {s : State} (hrun : RunWith InTime s) :
    s.NoneLost ∧
    ∀ (t : Table) (u : UserId) (d : DeviceId) (last : Nat), last < 2^64 → ∀ row,
      row ∈ (t.removeToDeviceEvents u d last).tree.rows ↔
        row ∈ t.tree.rows ∧ ¬ ∃ n ≤ last, row.1 = toDeviceId u d n :=
  ⟨(run_inv hrun).noneLost, fun t u d _ h row => mem_removeToDeviceEvents t u d h row⟩

/-! ## concrete runs -/

def alice : UserId := ⟨.ascii "@alice:x"⟩
def phone : DeviceId := ⟨.ascii "phone"⟩
def secret : Message := ⟨alice, phone, 1, .str "secret"⟩

/-- a message is stored, delivered and removed -/
theorem toDevice_delivered_one :
    ∃ s, RunWith InTime s ∧ s.stored = [secret] ∧ s.table.tree.rows = [] ∧ s.NoneLost ∧
    ∀ row, row ∈ ((Table.empty.add alice phone 1 (.str "secret")).removeToDeviceEvents alice phone
      5).tree.rows ↔ row ∈ (Table.empty.add alice phone 1 (.str "secret")).tree.rows ∧
        ¬ ∃ n ≤ 5, row.1 = toDeviceId alice phone n := by
  have h0 : RunWith InTime start := .start
  have h1 := h0.step (.draw alice phone (.str "secret") (by decide)) nofun
  have h2 := h1.step (.store (.refl _)) fun m _ => ⟨nofun, nofun⟩
  have h3 := h2.step (.begin alice phone (Or.inl rfl)) nofun
  have h4 := h3.step (.scan (.refl _) rfl) nofun
  have h5 := h4.step (.read (.refl _) rfl) nofun
  have h6 := h5.step (.respond (.refl _) rfl) nofun
  have h7 := h6.step (.begin alice phone (Or.inr ⟨_, List.mem_cons_self, rfl, rfl, rfl⟩)) nofun
  have h8 := h7.step (.scan (.refl _) rfl) nofun
  have h9 := h8.step (.remove (.refl _) rfl) nofun
  exact ⟨_, h9, rfl, rfl, (toDevice_delivered h9).1,
    (toDevice_delivered h9).2 _ alice phone 5 (by decide)⟩

/-- the device has synced between the two steps of a send, and syncs again -/
theorem toDevice_unseen : ¬ ∀ s, RunWith (fun _ _ => True) s → s.NoneLost := by
  intro hall
  have h0 : RunWith (fun _ _ => True) start := .start
  have h1 := h0.step (.draw alice phone (.str "secret") (by decide)) fun _ _ => trivial
  have h2 := h1.step (.begin alice phone (Or.inl rfl)) fun _ _ => trivial
  have h3 := h2.step (.scan (.refl _) rfl) fun _ _ => trivial
  have h4 := h3.step (.read (.refl _) rfl) fun _ _ => trivial
  have h5 := h4.step (.respond (.refl _) rfl) fun _ _ => trivial
  have h6 := h5.step (.store (.refl _)) fun _ _ => trivial
  have h7 := h6.step (.begin alice phone (Or.inr ⟨_, List.mem_cons_self, rfl, rfl, rfl⟩))
    fun _ _ => trivial
  have h8 := h7.step (.scan (.refl _) rfl) fun _ _ => trivial
  have h9 := h8.step (.remove (.refl _) rfl) fun _ _ => trivial
  rcases hall _ h9 secret List.mem_cons_self with hrow | ⟨resp, hresp, _, _, hev⟩
  · exact ((Tree.mem_remove _ _ _).mp hrow).2 rfl
  · rw [List.mem_singleton.mp hresp] at hev
    exact absurd hev List.not_mem_nil

end ToDevice
end Grapevine
