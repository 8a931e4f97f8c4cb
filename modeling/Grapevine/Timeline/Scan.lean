import Grapevine.Lib.Tree
import Grapevine.Lib.Update
import Grapevine.Data.Ids
import Grapevine.Timeline.Count

/-!
# The timeline: rows and scans

`TimelineTables` are the trees of the timeline with the caches in front of them.  The scans
`pdusAfter` and `pdusUntil` start from the id of the neighbouring count and stop at the first
id of another room.

Main result: `pdusAfter_pdusUntil_exact`.  In every store that appends and backfills built, the two scans
yield exactly the PDUs of the room above (below) the given count, in ascending (descending)
order, each with the count it was stored under.  At the lower end of the key space the scan
downwards starts from the id of the count itself, so there it is exact only as long as no event
was backfilled under the last count of all (`pdusUntil_min_yields_itself`).
-/

namespace Grapevine
open Kv

structure TimelineTables where
  pduidPdu : Tree Bytes PduJson
  eventidPduid : EventId → Option Bytes
  eventidOutlierpdu : EventId → Option PduJson
  pduCache : EventId → Option PduEvent
  lasttimelinecountCache : RoomId → Option PduCount

namespace TimelineTables

def empty : TimelineTables := ⟨.empty, fun _ => none, fun _ => none, fun _ => none, fun _ => none⟩

/-! ## point reads -/

def getPduId (t : TimelineTables) (e : EventId) : Option Bytes := t.eventidPduid e

def getPduCount (t : TimelineTables) (e : EventId) : Except Error (Option PduCount) :=
  match t.eventidPduid e with
  | none => .ok none
  | some id => (pduCount id).map some

def getPduJsonFromId (t : TimelineTables) (id : Bytes) : Option PduJson := t.pduidPdu.get id

def getPduFromId (t : TimelineTables) (id : Bytes) : Option PduEvent :=
  (t.pduidPdu.get id).map PduJson.pdu

def getNonOutlierPduJson (t : TimelineTables) (e : EventId) : Except Error (Option PduJson) :=
  match t.eventidPduid e with
  | none => .ok none
  | some id =>
    match t.pduidPdu.get id with
    | some j => .ok (some j)
    | none => .error (.badDatabase "Invalid pduid in eventid_pduid.")

def getPduJson (t : TimelineTables) (e : EventId) : Except Error (Option PduJson) :=
  match t.getNonOutlierPduJson e with
  | .ok (some j) => .ok (some j)
  | .ok none => .ok (t.eventidOutlierpdu e)
  | .error err => .error err

/-- `get_pdu`: the cache is filled on a miss -/
def getPdu (t : TimelineTables) (e : EventId) : Except Error (Option PduEvent) × TimelineTables :=
  match t.pduCache e with
  | some p => (.ok (some p), t)
  | none =>
    match t.getPduJson e with
    | .ok (some j) => (.ok (some j.pdu), { t with pduCache := Function.update t.pduCache e (some j.pdu) })
    | .ok none => (.ok none, t)
    | .error err => (.error err, t)

/-! ## writes -/

def appendPdu (t : TimelineTables) (id : Bytes) (pdu : PduEvent) (json : PduJson) (count : Nat) :
    TimelineTables :=
  { t with
    pduidPdu := t.pduidPdu.insert id json
    lasttimelinecountCache :=
      Function.update t.lasttimelinecountCache pdu.roomId (some (.normal count))
    eventidPduid := Function.update t.eventidPduid pdu.eventId (some id)
    eventidOutlierpdu := Function.update t.eventidOutlierpdu pdu.eventId none }

def prependBackfillPdu (t : TimelineTables) (id : Bytes) (e : EventId) (json : PduJson) :
    TimelineTables :=
  { t with
    pduidPdu := t.pduidPdu.insert id json
    eventidPduid := Function.update t.eventidPduid e (some id)
    eventidOutlierpdu := Function.update t.eventidOutlierpdu e none }

def replacePdu (t : TimelineTables) (id : Bytes) (json : PduJson) (pdu : PduEvent) :
    Except Error TimelineTables :=
  match t.pduidPdu.get id with
  | some _ =>
    .ok { t with
      pduidPdu := t.pduidPdu.insert id json
      pduCache := Function.update t.pduCache pdu.eventId none }
  | none => .error (.badRequest .notFound "PDU does not exist.")

def addPduOutlier (t : TimelineTables) (e : EventId) (json : PduJson) : TimelineTables :=
  { t with eventidOutlierpdu := Function.update t.eventidOutlierpdu e (some json) }

/-! ## scans -/

/-- what the scans make of a row -/
def present (user : UserId) (row : Bytes × PduJson) : Except Error (PduCount × PduEvent) :=
  let pdu := row.2.pdu
  let pdu := if pdu.sender ≠ user then pdu.removeTransactionId else pdu
  (pduCount row.1).map (·, pdu.addAge)

/-- the first half of `count_to_id` -/
def roomWord (shortroomid : Option Nat) : Except Error Nat :=
  match shortroomid with
  | some s => .ok s
  | none => .error (.badDatabase "Looked for bad shortroomid in timeline")

def pdusUntil (t : TimelineTables) (shortroomid : Option Nat) (user : UserId) (c : PduCount) :
    Except Error (List (Except Error (PduCount × PduEvent))) := do
  let s ← roomWord shortroomid
  let (pre, current) := countToId s c 1 true
  return ((t.pduidPdu.iterFrom current true).takeWhile (fun r => pre.isPrefixOf r.1)).map
    (present user)

def pdusAfter (t : TimelineTables) (shortroomid : Option Nat) (user : UserId) (c : PduCount) :
    Except Error (List (Except Error (PduCount × PduEvent))) := do
  let s ← roomWord shortroomid
  let (pre, current) := countToId s c 1 false
  return ((t.pduidPdu.iterFrom current false).takeWhile (fun r => pre.isPrefixOf r.1)).map
    (present user)

/-- `last_timeline_count`: the cache is filled on a miss -/
def lastTimelineCount (t : TimelineTables) (shortroomid : Option Nat) (user : UserId) (r : RoomId) :
    Except Error PduCount × TimelineTables :=
  match t.lasttimelinecountCache r with
  | some c => (.ok c, t)
  | none =>
    match t.pdusUntil shortroomid user .max with
    | .error e => (.error e, t)
    | .ok pdus =>
      match pdus.findSome? Except.toOption with
      | some x => (.ok x.1, { t with
          lasttimelinecountCache := Function.update t.lasttimelinecountCache r (some x.1) })
      | none => (.ok (.normal 0), t)

/-- `metadata.exists`: there is a PDU in the room -/
def roomExists (t : TimelineTables) (shortroomid : Option Nat) : Bool :=
  match shortroomid with
  | none => false
  | some s => ((t.pduidPdu.iterFrom (be64 s) false).head?.filter
      (fun row => (be64 s).isPrefixOf row.1)).isSome

end TimelineTables

/-! ## stores built by appends and backfills -/

/-- the part of a store that decides what the scans yield; `log` records, for every PDU that was
stored, its room and the count it was stored under -/
structure Building where
  counter : Nat
  roomidShortroomid : RoomId → Option Nat
  timeline : TimelineTables
  log : List (RoomId × PduCount × PduJson)

namespace Building

variable {b b' : Building} {r : RoomId} {c d : PduCount} {n s : Nat}
  {lt : PduCount → PduCount → Prop} {t : TimelineTables} {P : PduCount → Prop} {p : PduJson}

def empty : Building := ⟨0, fun _ => none, .empty, []⟩

inductive Op where
  /-- `get_or_create_shortroomid` -/
  | room (r : RoomId)
  /-- `n` calls of `next_count` by other code -/
  | other (n : Nat)
  | append (pdu : PduEvent) (json : PduJson)
  | backfill (r : RoomId) (e : EventId) (json : PduJson)
  /-- `replace_pdu`, which `append_pdu` reaches through a redaction or a thread -/
  | replace (id : Bytes) (json : PduJson) (pdu : PduEvent)

/-- the id that a logged PDU is stored under -/
def storedId (b : Building) (e : RoomId × PduCount × PduJson) : Option Bytes :=
  (b.roomidShortroomid e.1).map (fun s => pduId s e.2.1)

/-- the logged PDU after a replacement of the row `id` -/
def relabel (b : Building) (id : Bytes) (json : PduJson) (e : RoomId × PduCount × PduJson) :
    RoomId × PduCount × PduJson :=
  if b.storedId e = some id then (e.1, e.2.1, json) else e

/-- `next_count`, as long as the counter increases strictly -/
def nextCount (b : Building) (n : Nat) : Option Building :=
  if b.counter + n < 2^64 then some { b with counter := b.counter + n } else none

def step (b : Building) : Op → Option Building
  | .room r =>
    match b.roomidShortroomid r with
    | some _ => some b
    | none => do
      let b ← b.nextCount 1
      return { b with roomidShortroomid := Function.update b.roomidShortroomid r (some b.counter) }
  | .other n => b.nextCount n
  | .append pdu json => do
    let s ← b.roomidShortroomid pdu.roomId
    let b ← b.nextCount 1
    let c := PduCount.normal b.counter
    return { b with
      timeline := b.timeline.appendPdu (pduId s c) pdu json b.counter
      log := (pdu.roomId, c, json) :: b.log }
  | .backfill r e json => do
    let s ← b.roomidShortroomid r
    let b ← b.nextCount 1
    let c := PduCount.backfilled b.counter
    return { b with
      timeline := b.timeline.prependBackfillPdu (pduId s c) e json
      log := (r, c, json) :: b.log }
  | .replace id json pdu =>
    match b.timeline.replacePdu id json pdu with
    | .ok t => some { b with timeline := t, log := b.log.map (b.relabel id json) }
    | .error _ => some b

def run (b : Building) (ops : List Op) : Option Building := ops.foldlM step b

/-! ### the invariant -/

def raw : PduCount → Nat
  | .normal x => x
  | .backfilled x => x

structure Inv (b : Building) : Prop where
  counter_lt : b.counter < 2^64
  short_le : ∀ r s, b.roomidShortroomid r = some s → 1 ≤ s ∧ s ≤ b.counter
  short_inj : ∀ r q s, b.roomidShortroomid r = some s → b.roomidShortroomid q = some s → r = q
  log_le : ∀ r c p, (r, c, p) ∈ b.log → c.Valid ∧ raw c ≤ b.counter
  log_room : ∀ r c p, (r, c, p) ∈ b.log → b.roomidShortroomid r ≠ none
  /-- the rows are the logged PDUs under the ids of their rooms and counts -/
  rows : ∀ row, row ∈ b.timeline.pduidPdu.rows ↔
    ∃ r c s, (r, c, row.2) ∈ b.log ∧ b.roomidShortroomid r = some s ∧ row.1 = pduId s c

theorem inv_empty : Inv empty where
  counter_lt := by decide
  short_le r s h := by cases h
  short_inj r q s h := by cases h
  log_le r c p h := absurd h (List.not_mem_nil)
  log_room r c p h := absurd h (List.not_mem_nil)
  rows row := ⟨fun h => absurd h (List.not_mem_nil), fun ⟨_, _, _, h, _⟩ => absurd h (List.not_mem_nil)⟩

theorem nextCount_eq (h : b.nextCount n = some b') :
    b.counter + n < 2^64 ∧ b' = { b with counter := b.counter + n } := by
  unfold nextCount at h
  split at h
  · next hlt => exact ⟨hlt, (Option.some.inj h).symm⟩
  · cases h

theorem Inv.nextCount (h : Inv b) (hn : b.nextCount n = some b') :
    Inv b' := by
  obtain ⟨hlt, rfl⟩ := nextCount_eq hn
  exact ⟨hlt, fun r s hs => ⟨(h.short_le r s hs).1, (h.short_le r s hs).2.trans (Nat.le_add_right _ _)⟩,
    h.short_inj, fun r c p hl => ⟨(h.log_le r c p hl).1, (h.log_le r c p hl).2.trans (Nat.le_add_right _ _)⟩,
    h.log_room, h.rows⟩

/-- a new room takes a word above all the words in use -/
theorem Inv.newRoom (h : Inv b) (hr : b.roomidShortroomid r = none) (hn : b.nextCount 1 = some b') :
    Inv { b' with roomidShortroomid := Function.update b'.roomidShortroomid r (some b'.counter) } := by
  obtain ⟨hlt, rfl⟩ := nextCount_eq hn
  have hfresh : ∀ q s, b.roomidShortroomid q = some s → s ≠ b.counter + 1 := by
    intro q s hs
    have := (h.short_le q s hs).2
    omega
  have hlog : ∀ q c p, (q, c, p) ∈ b.log → q ≠ r := by
    rintro q c p hq rfl
    exact h.log_room q c p hq hr
  refine ⟨hlt, ?_, ?_, ?_, ?_, ?_⟩
  · intro q s hs
    rcases update_some_eq_some.mp hs with ⟨-, rfl⟩ | ⟨-, hs⟩
    · exact ⟨Nat.le_add_left _ _, le_refl _⟩
    · exact ⟨(h.short_le q s hs).1, (h.short_le q s hs).2.trans (Nat.le_add_right _ _)⟩
  · exact update_some_injective h.short_inj fun q hq => hfresh q _ hq rfl
  · intro q c p hq
    exact ⟨(h.log_le q c p hq).1, (h.log_le q c p hq).2.trans (Nat.le_add_right _ _)⟩
  · intro q c p hq
    show Function.update b.roomidShortroomid r (some (b.counter + 1)) q ≠ none
    rw [Function.update_of_ne (hlog q c p hq)]
    exact h.log_room q c p hq
  · intro row
    refine (h.rows row).trans (exists_congr fun q => exists_congr fun c => exists_congr fun s =>
      and_congr_right fun hq => ?_)
    show _ ↔ Function.update b.roomidShortroomid r (some (b.counter + 1)) q = some s ∧ _
    rw [Function.update_of_ne (hlog q c _ hq)]

/-- a PDU under a count that its room does not use yet overwrites no row -/
theorem Inv.insertRow (h : Inv b) (hr : b.roomidShortroomid r = some s) (hc : c.Valid) (hle : raw c ≤ b.counter)
    (hfresh : ∀ p, (r, c, p) ∉ b.log) (json : PduJson)
    (ht : t.pduidPdu = b.timeline.pduidPdu.insert (pduId s c) json) :
    Inv { b with timeline := t, log := (r, c, json) :: b.log } := by
  refine ⟨h.counter_lt, h.short_le, h.short_inj, ?_, ?_, ?_⟩
  · intro q c' p hq
    rcases List.mem_cons.mp hq with e | hq
    · cases e
      exact ⟨hc, hle⟩
    · exact h.log_le q c' p hq
  · intro q c' p hq
    rcases List.mem_cons.mp hq with e | hq
    · cases e
      rw [hr]
      exact Option.some_ne_none s
    · exact h.log_room q c' p hq
  · rintro ⟨k, p⟩
    show (k, p) ∈ t.pduidPdu.rows ↔ _
    rw [ht, Tree.mem_insert]
    constructor
    · rintro (e | ⟨h1, _⟩)
      · cases e
        exact ⟨r, c, s, List.mem_cons_self, hr, rfl⟩
      · obtain ⟨q, c', s', hq, hs', hk⟩ := (h.rows (k, p)).mp h1
        exact ⟨q, c', s', List.mem_cons_of_mem _ hq, hs', hk⟩
    · rintro ⟨q, c', s', hq, hs', hk⟩
      rcases List.mem_cons.mp hq with e | hold
      · obtain ⟨rfl, rfl, rfl⟩ : q = r ∧ c' = c ∧ p = json := by simpa using e
        change b.roomidShortroomid q = some s' at hs'
        rw [hr] at hs'
        cases hs'
        exact Or.inl (Prod.ext hk rfl)
      · refine Or.inr ⟨(h.rows (k, p)).mpr ⟨q, c', s', hold, hs', hk⟩, ?_⟩
        intro e
        have hl := h.log_le q c' p hold
        have h1 := (h.short_le q s' hs').2.trans_lt h.counter_lt
        have h2 := (h.short_le r s hr).2.trans_lt h.counter_lt
        change k = pduId s' c' at hk
        change k = pduId s c at e
        obtain ⟨rfl, rfl⟩ := pduId_inj h1 h2 hl.1 hc (hk.symm.trans e)
        have hqr := h.short_inj q r s' hs' hr
        subst hqr
        exact hfresh p hold

/-- a new PDU takes a count above all the counts in use -/
theorem Inv.newRow (h : Inv b) (hr : b.roomidShortroomid r = some s) (hn : b.nextCount 1 = some b')
    (hc : c.Valid) (hraw : raw c = b'.counter) (json : PduJson)
    (ht : t.pduidPdu = b'.timeline.pduidPdu.insert (pduId s c) json) :
    Inv { b' with timeline := t, log := (r, c, json) :: b'.log } := by
  have h' := h.nextCount hn
  obtain ⟨hlt, rfl⟩ := nextCount_eq hn
  refine h'.insertRow hr hc hraw.le (fun p hp => ?_) json ht
  have hle := (h.log_le r c p hp).2
  change raw c = b.counter + 1 at hraw
  omega

/-- a logged PDU keeps its room and its count -/
theorem relabel_room (b : Building) (id : Bytes) (json : PduJson)
    (h : (r, c, p) ∈ b.log.map (b.relabel id json)) :
    ∃ v, (r, c, v) ∈ b.log ∧ b.relabel id json (r, c, v) = (r, c, p) := by
  obtain ⟨⟨r', c', v⟩, hv, he⟩ := List.mem_map.mp h
  have he' := he
  unfold relabel at he'
  split at he'
  · cases he'
    exact ⟨_, hv, he⟩
  · cases he'
    exact ⟨_, hv, he⟩

theorem Inv.replaceRow (h : Inv b) {id : Bytes} {v json : PduJson} (hv : b.timeline.pduidPdu.get id = some v)
    (ht : t.pduidPdu = b.timeline.pduidPdu.insert id json) :
    Inv { b with timeline := t, log := b.log.map (b.relabel id json) } := by
  refine ⟨h.counter_lt, h.short_le, h.short_inj, ?_, ?_, ?_⟩
  · intro r c p hm
    obtain ⟨w, hw, _⟩ := relabel_room b id json hm
    exact h.log_le r c w hw
  · intro r c p hm
    obtain ⟨w, hw, _⟩ := relabel_room b id json hm
    exact h.log_room r c w hw
  · rintro ⟨k, p⟩
    show (k, p) ∈ t.pduidPdu.rows ↔ ∃ r c s, (r, c, p) ∈ b.log.map (b.relabel id json) ∧
      b.roomidShortroomid r = some s ∧ k = pduId s c
    rw [ht, Tree.mem_insert]
    constructor
    · rintro (e | ⟨h1, hk⟩)
      · obtain ⟨rfl, rfl⟩ : k = id ∧ p = json := by simpa using e
        obtain ⟨r, c, s, hl, hs, hid⟩ := (h.rows (k, v)).mp ((Tree.get_eq_some_iff _ _ _).mp hv)
        refine ⟨r, c, s, List.mem_map.mpr ⟨(r, c, v), hl, ?_⟩, hs, hid⟩
        unfold relabel storedId
        rw [if_pos]
        show (b.roomidShortroomid r).map (fun s => pduId s c) = some k
        rw [hs, show k = pduId s c from hid]
        rfl
      · obtain ⟨r, c, s, hl, hs, hid⟩ := (h.rows (k, p)).mp h1
        refine ⟨r, c, s, List.mem_map.mpr ⟨(r, c, p), hl, ?_⟩, hs, hid⟩
        unfold relabel storedId
        rw [if_neg]
        show ¬ (b.roomidShortroomid r).map (fun s => pduId s c) = some id
        rw [hs]
        intro e
        exact hk (hid.trans (Option.some.inj e))
    · rintro ⟨r, c, s, hm, hs, hid⟩
      obtain ⟨w, hw, he⟩ := relabel_room b id json hm
      by_cases hid' : b.storedId (r, c, w) = some id
      · unfold relabel at he
        rw [if_pos hid'] at he
        cases he
        have hk : (b.roomidShortroomid r).map (fun s => pduId s c) = some id := hid'
        rw [hs] at hk
        exact Or.inl (Prod.ext (hid.trans (Option.some.inj hk)) rfl)
      · unfold relabel at he
        rw [if_neg hid'] at he
        obtain rfl : w = p := by simpa using he
        refine Or.inr ⟨(h.rows (k, w)).mpr ⟨r, c, s, hw, hs, hid⟩, ?_⟩
        intro e
        apply hid'
        show (b.roomidShortroomid r).map (fun s => pduId s c) = some id
        rw [hs, ← show k = id from e, show k = pduId s c from hid]
        rfl

theorem Inv.step {b b' : Building} (h : Inv b) (op : Op) (hs : b.step op = some b') : Inv b' := by
  cases op with
  | room r =>
    unfold Building.step at hs
    cases hr : b.roomidShortroomid r with
    | some s =>
      simp only [hr] at hs
      cases hs
      exact h
    | none =>
      simp only [hr] at hs
      obtain ⟨b₁, hn, hb⟩ := Option.bind_eq_some_iff.mp hs
      cases hb
      exact h.newRoom hr hn
  | other n => exact h.nextCount hs
  | append pdu json =>
    obtain ⟨s, hr, hs⟩ := Option.bind_eq_some_iff.mp hs
    obtain ⟨b₁, hn, hb⟩ := Option.bind_eq_some_iff.mp hs
    cases hb
    refine h.newRow hr hn ?_ rfl json rfl
    obtain ⟨hlt, rfl⟩ := nextCount_eq hn
    exact ⟨Nat.le_add_left _ _, hlt⟩
  | backfill r e json =>
    obtain ⟨s, hr, hs⟩ := Option.bind_eq_some_iff.mp hs
    obtain ⟨b₁, hn, hb⟩ := Option.bind_eq_some_iff.mp hs
    cases hb
    refine h.newRow hr hn ?_ rfl json rfl
    obtain ⟨hlt, rfl⟩ := nextCount_eq hn
    exact hlt
  | replace id json pdu =>
    unfold Building.step TimelineTables.replacePdu at hs
    cases hv : b.timeline.pduidPdu.get id with
    | some v =>
      simp only [hv] at hs
      cases hs
      exact h.replaceRow hv rfl
    | none =>
      simp only [hv] at hs
      cases hs
      exact h

theorem Inv.run (h : Inv b) (ops : List Op) (hr : b.run ops = some b') : Inv b' := by
  induction ops generalizing b with
  | nil =>
    cases hr
    exact h
  | cons op ops ih =>
    obtain ⟨b₁, h1, h2⟩ := Option.bind_eq_some_iff.mp hr
    exact ih (h.step op h1) h2

/-! ### the rows of one room -/

/-- what the scans show of a logged PDU -/
def shown (user : UserId) (e : PduCount × PduJson) : PduCount × PduEvent :=
  (e.1, (if e.2.pdu.sender ≠ user then e.2.pdu.removeTransactionId else e.2.pdu).addAge)

/-- the PDUs of `r` in `log` whose counts satisfy `P`, as a scan of the store yields them;
`lt` is the order they come in -/
def Yields (b : Building) (r : RoomId) (user : UserId) (P : PduCount → Prop)
    (lt : PduCount → PduCount → Prop)
    (out : Except Error (List (Except Error (PduCount × PduEvent)))) : Prop :=
  ∃ l : List (PduCount × PduJson), out = .ok (l.map (fun e => .ok (shown user e))) ∧
    l.Pairwise (fun a b => lt a.1 b.1) ∧ ∀ e, e ∈ l ↔ (r, e.1, e.2) ∈ b.log ∧ P e.1

/-- a list of rows of the room is the list of their logged PDUs -/
theorem Inv.rows_room (h : Inv b) (hr : b.roomidShortroomid r = some s) (user : UserId)
    (rows : List (Bytes × PduJson)) (hrows : ∀ row ∈ rows, row ∈ b.timeline.pduidPdu.rows ∧ be64 s <+: row.1) :
    ∃ l : List (PduCount × PduJson), rows = l.map (fun e => (pduId s e.1, e.2)) ∧
      (∀ e ∈ l, (r, e.1, e.2) ∈ b.log) ∧
      rows.map (TimelineTables.present user) = l.map (fun e => .ok (shown user e)) := by
  have hword := h.short_le r s hr
  have hs : s < 2^64 := hword.2.trans_lt h.counter_lt
  induction rows with
  | nil => exact ⟨[], rfl, fun e he => absurd he List.not_mem_nil, rfl⟩
  | cons row rows ih =>
    obtain ⟨l, hl, hlog, hmap⟩ := ih (fun q hq => hrows q (List.mem_cons_of_mem _ hq))
    obtain ⟨hrow, hpre⟩ := hrows row List.mem_cons_self
    obtain ⟨q, c, s', hq, hs', hk⟩ := (h.rows row).mp hrow
    rw [hk, roomPrefix_iff hs ((h.short_le q s' hs').2.trans_lt h.counter_lt)] at hpre
    subst hpre
    have hqr : q = r := h.short_inj q r s hs' hr
    subst hqr
    refine ⟨(c, row.2) :: l, ?_, ?_, ?_⟩
    · rw [List.map_cons, ← hl, ← hk]
    · intro e he
      rcases List.mem_cons.mp he with rfl | he
      · exact hq
      · exact hlog e he
    · rw [List.map_cons, List.map_cons, hmap]
      congr 1
      unfold TimelineTables.present
      rw [hk, pduCount_pduId hword.1 hs (h.log_le q c _ hq).1]
      rfl

theorem Inv.mem_of_log (h : Inv b) (hr : b.roomidShortroomid r = some s) (hl : (r, c, p) ∈ b.log) :
    (pduId s c, p) ∈ b.timeline.pduidPdu.rows ∧ be64 s <+: pduId s c :=
  ⟨(h.rows _).mpr ⟨r, c, s, hl, hr, rfl⟩, List.prefix_append _ _⟩

/-- a sorted list of the room's rows that a condition on keys cuts out is what the log says -/
theorem Inv.yields (h : Inv b) (hr : b.roomidShortroomid r = some s) (user : UserId)
    (keyLt : Bytes → Bytes → Prop) {rows : List (Bytes × PduJson)}
    (hrows : ∀ row ∈ rows, row ∈ b.timeline.pduidPdu.rows ∧ be64 s <+: row.1)
    (hmem : ∀ c p, (r, c, p) ∈ b.log → ((pduId s c, p) ∈ rows ↔ P c))
    (hsorted : rows.Pairwise (fun x y => keyLt x.1 y.1))
    (hlt : ∀ c c' : PduCount, c.Valid → c'.Valid → keyLt (pduId s c) (pduId s c') → lt c c') :
    b.Yields r user P lt (.ok (rows.map (TimelineTables.present user))) := by
  obtain ⟨l, hl, hlog, hmap⟩ := h.rows_room hr user rows hrows
  have hs : s < 2^64 := (h.short_le r s hr).2.trans_lt h.counter_lt
  refine ⟨l, by rw [hmap], ?_, ?_⟩
  · rw [hl, List.pairwise_map] at hsorted
    refine hsorted.imp_of_mem (fun {x y} hx hy hxy => ?_)
    exact hlt x.1 y.1 (h.log_le _ _ _ (hlog x hx)).1 (h.log_le _ _ _ (hlog y hy)).1 hxy
  · intro e
    constructor
    · intro he
      refine ⟨hlog e he, (hmem e.1 e.2 (hlog e he)).mp ?_⟩
      rw [hl]
      exact List.mem_map.mpr ⟨e, he, rfl⟩
    · rintro ⟨hlg, hP⟩
      have hrow := (hmem e.1 e.2 hlg).mpr hP
      rw [hl] at hrow
      obtain ⟨⟨c, p⟩, he', heq⟩ := List.mem_map.mp hrow
      obtain ⟨hid, rfl⟩ := Prod.mk.inj heq
      obtain ⟨_, rfl⟩ := pduId_inj hs hs (h.log_le _ _ _ (hlog _ he')).1 (h.log_le _ _ _ hlg).1 hid
      exact he'

theorem Inv.pdusAfter_yields (h : Inv b) (hr : b.roomidShortroomid r = some s) (user : UserId) (hc : c.HasUp) :
    b.Yields r user (fun d => c < d) (fun x y => x < y)
      (b.timeline.pdusAfter (b.roomidShortroomid r) user c) := by
  have hout : b.timeline.pdusAfter (b.roomidShortroomid r) user c
      = .ok ((b.timeline.pduidPdu.rows.filter
          (fun row => pduId s c.up ≤ row.1 ∧ be64 s <+: row.1)).map (TimelineTables.present user)) := by
    rw [hr, ← countToId_up s hc,
      ← Tree.takeWhile_iterFrom b.timeline.pduidPdu (prefix_countToId s c 1 false)]
    unfold TimelineTables.pdusAfter
    rw [← countToId_fst s c 1 false]
    rfl
  rw [hout]
  refine h.yields hr user (· < ·) ?_ ?_ (b.timeline.pduidPdu.sorted.filter _)
    (fun x y hx hy hxy => (pduId_lt_iff s hx hy).mp hxy)
  · intro row hrow
    have hrow' := List.mem_filter.mp hrow
    exact ⟨hrow'.1, (of_decide_eq_true hrow'.2).2⟩
  · intro d p hd
    rw [List.mem_filter, ← not_lt_up_iff hc, ← pduId_le_iff s hc.valid (h.log_le r d p hd).1]
    obtain ⟨h1, h2⟩ := h.mem_of_log hr hd
    simp [h1, h2]

/-- downwards, with the bound still open: `c'` is the count whose id the scan starts from -/
theorem Inv.pdusUntil_rows (h : Inv b) (hr : b.roomidShortroomid r = some s) (user : UserId) {c' : PduCount}
    (hc' : c'.Valid) (hbound : (countToId s c 1 true).2 = pduId s c') :
    b.Yields r user (fun d => ¬ c' < d) (fun x y => y < x)
      (b.timeline.pdusUntil (b.roomidShortroomid r) user c) := by
  have hout : b.timeline.pdusUntil (b.roomidShortroomid r) user c
      = .ok ((b.timeline.pduidPdu.rows.filter
          (fun row => row.1 ≤ pduId s c' ∧ be64 s <+: row.1)).reverse.map
            (TimelineTables.present user)) := by
    rw [hr, ← hbound,
      ← Tree.takeWhile_iterFrom_back b.timeline.pduidPdu (prefix_countToId s c 1 true)]
    unfold TimelineTables.pdusUntil
    rw [← countToId_fst s c 1 true]
    rfl
  rw [hout]
  refine h.yields hr user (fun x y => y < x) ?_ ?_
    (List.pairwise_reverse.mpr (b.timeline.pduidPdu.sorted.filter _))
    (fun x y hx hy hxy => (pduId_lt_iff s hy hx).mp hxy)
  · intro row hrow
    have hrow' := List.mem_filter.mp (List.mem_reverse.mp hrow)
    exact ⟨hrow'.1, (of_decide_eq_true hrow'.2).2⟩
  · intro d p hd
    rw [List.mem_reverse, List.mem_filter, ← pduId_le_iff s (h.log_le r d p hd).1 hc']
    obtain ⟨h1, h2⟩ := h.mem_of_log hr hd
    simp [h1, h2]

theorem Yields.congr {user : UserId} {Q : PduCount → Prop}
    {out : Except Error (List (Except Error (PduCount × PduEvent)))} (h : b.Yields r user P lt out)
    (hPQ : ∀ c p, (r, c, p) ∈ b.log → (P c ↔ Q c)) :
    b.Yields r user Q lt out := by
  obtain ⟨l, hout, hord, hmem⟩ := h
  refine ⟨l, hout, hord, fun e => (hmem e).trans (and_congr_right fun hl => hPQ e.1 e.2 hl)⟩

theorem not_min_lt_iff (hd : d.Valid) : ¬ PduCount.min < d ↔ d = .min := by
  cases d with
  | normal x => exact iff_of_false (not_not.mpr (PduCount.backfilled_lt_normal _ _)) (fun e => by cases e)
  | backfilled x =>
    have hx : x < 2^64 := hd
    show ¬ PduCount.backfilled u64Max < .backfilled x ↔ _
    rw [PduCount.backfilled_lt_backfilled, u64Max_eq]
    constructor
    · intro h
      have : x = 2^64 - 1 := by omega
      rw [this]
      rfl
    · intro e
      have : x = 2^64 - 1 := PduCount.backfilled.inj e
      omega

theorem not_lt_min (hd : d.Valid) : ¬ d < PduCount.min := by
  cases d with
  | normal x => exact PduCount.not_normal_lt_backfilled _ _
  | backfilled x =>
    have hx : x < 2^64 := hd
    show ¬ PduCount.backfilled x < .backfilled u64Max
    rw [PduCount.backfilled_lt_backfilled, u64Max_eq]
    omega

theorem Inv.pdusUntil_yields (h : Inv b) (hr : b.roomidShortroomid r = some s) (user : UserId)
    (hc : c.HasDown ∨ c = .min ∧ ∀ p, (r, PduCount.min, p) ∉ b.log) :
    b.Yields r user (fun d => d < c) (fun x y => y < x)
      (b.timeline.pdusUntil (b.roomidShortroomid r) user c) := by
  rcases hc with hc | ⟨rfl, hmin⟩
  · exact (h.pdusUntil_rows hr user hc.valid (countToId_down s hc)).congr
      (fun d p _ => not_down_lt_iff hc)
  · have hv : PduCount.min.Valid := (show u64Max < 2^64 by rw [u64Max_eq]; omega)
    refine (h.pdusUntil_rows hr user hv (countToId_min s)).congr (fun d p hd => ?_)
    have hdv := (h.log_le r d p hd).1
    refine iff_of_false (fun e => ?_) (not_lt_min hdv)
    rw [(not_min_lt_iff hdv).mp e] at hd
    exact hmin p hd

/-- in every store that appends and backfills built, the scans are exact, except at the very
last count downwards once that count is in use -/
theorem pdusAfter_pdusUntil_exact (ops : List Op) (b : Building) (hb : empty.run ops = some b)
    (r : RoomId) (s : Nat) (hr : b.roomidShortroomid r = some s) (user : UserId) :
    (∀ c : PduCount, c.HasUp → b.Yields r user (fun d => c < d) (fun x y => x < y)
      (b.timeline.pdusAfter (b.roomidShortroomid r) user c)) ∧
    (∀ c : PduCount, c.HasDown ∨ c = .min ∧ (∀ p, (r, PduCount.min, p) ∉ b.log) →
      b.Yields r user (fun d => d < c) (fun x y => y < x)
        (b.timeline.pdusUntil (b.roomidShortroomid r) user c)) := by
  have h := inv_empty.run ops hb
  exact ⟨fun c hc => h.pdusAfter_yields hr user hc, fun c hc => h.pdusUntil_yields hr user hc⟩

section
variable (r : RoomId) (e : EventId) (u : UserId)

/-- a message of `u` in `r` -/
def message : PduEvent :=
  ⟨e, r, u, 0, .roomMessage, [], none, [], 0, [], none, none⟩

theorem nextCount_of_lt (n : Nat) (h : b.counter + n < 2^64) :
    b.nextCount n = some { b with counter := b.counter + n } := if_pos h

theorem step_backfill (hr : b.roomidShortroomid r = some s) (h : b.counter + 1 < 2^64) (json : PduJson) :
    ∃ b', b.step (.backfill r e json) = some b' ∧ b'.roomidShortroomid = b.roomidShortroomid ∧
      b'.log = (r, .backfilled (b.counter + 1), json) :: b.log := by
  let b' : Building := { b with
    counter := b.counter + 1
    timeline := b.timeline.prependBackfillPdu (pduId s (.backfilled (b.counter + 1))) e json
    log := (r, .backfilled (b.counter + 1), json) :: b.log }
  have hb : b.step (.backfill r e json) = some b' := by
    simp only [step, hr, nextCount_of_lt 1 h, Option.bind_eq_bind, Option.bind_some]
    rfl
  exact ⟨b', hb, rfl, rfl⟩

/-- the room that `get_or_create_shortroomid` gives the first word of all -/
def firstRoom : Building := { empty with
  counter := 1, roomidShortroomid := Function.update empty.roomidShortroomid r (some 1) }

theorem firstRoom_word : (firstRoom r).roomidShortroomid r = some 1 := by
  show Function.update empty.roomidShortroomid r (some 1) r = some 1
  rw [Function.update_self]

theorem run_last_count (json : PduJson) : ∃ b, empty.run [.room r, .other (2^64 - 3),
    .backfill r e json] = some b ∧ b.roomidShortroomid r = some 1 ∧ b.log = [(r, .min, json)] := by
  let b₂ : Building := { firstRoom r with counter := 1 + (2^64 - 3) }
  have h1 : empty.step (.room r) = some (firstRoom r) := rfl
  have h2 : (firstRoom r).step (.other (2^64 - 3)) = some b₂ :=
    nextCount_of_lt (2^64 - 3) (show 1 + (2^64 - 3) < 2^64 by omega)
  have hr : b₂.roomidShortroomid r = some 1 := firstRoom_word r
  obtain ⟨b₃, h3, hs, hl⟩ := step_backfill r e hr (show 1 + (2^64 - 3) + 1 < 2^64 by omega) json
  refine ⟨b₃, ?_, by rw [hs, hr], ?_⟩
  · unfold run
    rw [List.foldlM_cons, h1, Option.bind_eq_bind, Option.bind_some, List.foldlM_cons, h2,
      Option.bind_eq_bind, Option.bind_some, List.foldlM_cons, h3]
    rfl
  · rw [hl, PduCount.min, u64Max_eq, show b₂.counter + 1 = 2^64 - 1 from
      (show 1 + (2^64 - 3) + 1 = 2^64 - 1 by omega)]
    rfl

end

theorem pdusAfter_pdusUntil_backfilled :
    let r : RoomId := ⟨.ascii "!r:x"⟩
    let u : UserId := ⟨.ascii "@u:x"⟩
    let json : PduJson := ⟨[], message r ⟨.ascii "$e"⟩ u⟩
    ∃ b : Building, b.log = [(r, .min, json)] ∧
      b.Yields r u (fun d => d < .normal 5) (fun x y => y < x)
        (b.timeline.pdusUntil (b.roomidShortroomid r) u (.normal 5)) := by
  obtain ⟨b, hb, hr, hlog⟩ := run_last_count ⟨.ascii "!r:x"⟩ ⟨.ascii "$e"⟩
    ⟨[], message ⟨.ascii "!r:x"⟩ ⟨.ascii "$e"⟩ ⟨.ascii "@u:x"⟩⟩
  refine ⟨b, hlog, (pdusAfter_pdusUntil_exact _ b hb _ 1 hr _).2 (.normal 5) (Or.inl ?_)⟩
  exact ⟨by omega, by decide⟩

/-- once the last count of all is in use, the scan downwards from it yields its own PDU -/
theorem pdusUntil_min_yields_itself :
    ¬ ∀ (ops : List Op) (b : Building), empty.run ops = some b →
      ∀ (r : RoomId) (s : Nat), b.roomidShortroomid r = some s → ∀ (user : UserId) (x : Nat),
      x ≤ u64Max → b.Yields r user (fun d => d < .backfilled x) (fun x y => y < x)
        (b.timeline.pdusUntil (b.roomidShortroomid r) user (.backfilled x)) := by
  intro hall
  let r : RoomId := ⟨.ascii "!r:x"⟩
  let u : UserId := ⟨.ascii "@u:x"⟩
  let e : EventId := ⟨.ascii "$e"⟩
  obtain ⟨b, hb, hr, hlog⟩ := run_last_count r e ⟨[], message r e u⟩
  have h := inv_empty.run _ hb
  have hv : PduCount.min.Valid := (show u64Max < 2^64 by rw [u64Max_eq]; omega)
  obtain ⟨l, hout, _, hl⟩ := h.pdusUntil_rows hr u hv (countToId_min 1)
  obtain ⟨l', hout', _, hl'⟩ := hall _ b hb r 1 hr u u64Max le_rfl
  have hmem : (PduCount.min, (⟨[], message r e u⟩ : PduJson)) ∈ l := by
    refine (hl _).mpr ⟨?_, ?_⟩
    · rw [hlog]
      exact List.mem_cons_self
    · exact (not_min_lt_iff hv).mpr rfl
  have hnil : l' = [] := by
    rw [List.eq_nil_iff_forall_not_mem]
    intro x hx
    obtain ⟨hx1, hx2⟩ := (hl' x).mp hx
    exact not_lt_min (h.log_le _ _ _ hx1).1 hx2
  have hlen := hout.symm.trans hout'
  rw [hnil] at hlen
  have hnil' : l = [] := List.map_eq_nil_iff.mp (Except.ok.inj hlen)
  rw [hnil'] at hmem
  exact absurd hmem List.not_mem_nil

end Building
end Grapevine
