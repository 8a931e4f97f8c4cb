import Grapevine.Lib.Update
import Grapevine.Timeline.Scan
import Mathlib.Data.List.TakeWhile

/-!
# Timelines of syncs

A sync shows the last PDUs of a room above its `since`.  Appends draw their count and store their
row under the insert lock of the room; a sync reads `next_batch`, and then takes and drops the lock
before it loads the timeline.

* `loadTimeline`   `load_timeline`: `last_timeline_count`, and the scan behind it;
* `Step`           appends, backfills and syncs, one database operation a step.

Main results: `sync_complete`.  Every PDU up to `next_batch` is stored when a sync loads the timeline
of its room, and the timeline is exact unless an append is between its row and the cache of the last
count.  `timelines_disjoint`: as long as no sync finds a PDU above its `next_batch`, no event is in
two successive responses; the scan does not stop at `next_batch`, so other runs send events twice
(`event_twice`).
-/

set_option linter.unusedSectionVars false

namespace Grapevine
open Kv

namespace SyncTimeline
open Building (shown raw)

variable {r : RoomId} {b : Building} {d last since : PduCount} {n short : Nat} {t : TimelineTables}
  {json : PduJson} {user : UserId}

/-! ## the timeline of a room -/

/-- the last `limit` PDUs above `since` of a scan downwards, and whether there are more -/
def takeTimeline (pdus : List (Except Error (PduCount × PduEvent))) (since : PduCount) (limit : Nat) :
    List (PduCount × PduEvent) × Bool :=
  let nonTimelinePdus := (pdus.filterMap Except.toOption).takeWhile (fun x => since < x.1)
  ((nonTimelinePdus.take limit).reverse, !(nonTimelinePdus.drop limit).isEmpty)

def loadTimeline (t : TimelineTables) (shortroomid : Option Nat) (user : UserId) (r : RoomId)
    (since : PduCount) (limit : Nat) :
    Except Error (List (PduCount × PduEvent) × Bool) × TimelineTables :=
  match t.lastTimelineCount shortroomid user r with
  | (.error e, t) => (.error e, t)
  | (.ok last, t) =>
    if since < last then
      ((t.pdusUntil shortroomid user .max).map (fun pdus => takeTimeline pdus since limit), t)
    else (.ok ([], false), t)

/-- the last `limit` of the PDUs of the room above `since`, in ascending order, and whether there are
more of them.  The scans do not reach the last count of all -/
def Exact (b : Building) (r : RoomId) (user : UserId) (since : PduCount) (limit : Nat)
    (out : List (PduCount × PduEvent) × Bool) : Prop :=
  ∃ l : List (PduCount × PduJson), l.Pairwise (fun x y => x.1 < y.1) ∧
    (∀ e, e ∈ l ↔ (r, e.1, e.2) ∈ b.log ∧ since < e.1 ∧ e.1 < .max) ∧
    out = ((l.drop (l.length - limit)).map (shown user), decide (limit < l.length))

theorem filterMap_ok {α : Type} (l : List α) :
    (l.map (fun a => (Except.ok a : Except Error α))).filterMap Except.toOption = l := by
  induction l with
  | nil => rfl
  | cons a l ih =>
    show a :: (l.map (fun a => (Except.ok a : Except Error α))).filterMap Except.toOption = a :: l
    rw [ih]

/-- a scan of all the PDUs of the room, the last one first -/
theorem takeTimeline_exact {out : Except Error (List (Except Error (PduCount × PduEvent)))}
    (h : b.Yields r user (fun d => d < .max) (fun x y => y < x) out) (since : PduCount) (limit : Nat) :
    ∃ pdus, out = .ok pdus ∧ Exact b r user since limit (takeTimeline pdus since limit) := by
  obtain ⟨l, rfl, hsorted, hmem⟩ := h
  refine ⟨_, rfl, ((l.filter (fun e => since < e.1)).reverse), ?_, ?_, ?_⟩
  · rw [List.pairwise_reverse]
    exact hsorted.filter _
  · intro e
    rw [List.mem_reverse, List.mem_filter, hmem, decide_eq_true_eq, and_assoc]
    exact and_congr_right fun _ => and_comm
  · have hall : (l.map (fun e => (.ok (shown user e) : Except Error (PduCount × PduEvent)))).filterMap
        Except.toOption = l.map (shown user) := by
      have hmap := filterMap_ok (l.map (shown user))
      rwa [List.map_map] at hmap
    have hcut : (l.map (shown user)).takeWhile (fun x => since < x.1)
        = (l.filter (fun e => since < e.1)).map (shown user) := by
      rw [List.takeWhile_map]
      congr 1
      apply Tree.takeWhile_eq_filter
      refine hsorted.imp fun {x y} hxy hy => ?_
      change y.1 < x.1 at hxy
      -- the scan goes down, so the PDUs above `since` come first
      have hy' : since < y.1 := of_decide_eq_true hy
      rw [PduCount.lt_iff_rank] at hxy hy'
      exact decide_eq_true ((PduCount.lt_iff_rank _ _).mpr (hy'.trans hxy))
    unfold takeTimeline
    rw [hall, hcut]
    generalize l.filter (fun e => since < e.1) = kept
    refine Prod.ext ?_ ?_
    · show ((kept.map (shown user)).take limit).reverse
        = (kept.reverse.drop (kept.reverse.length - limit)).map (shown user)
      rw [← List.map_take, ← List.map_reverse, List.reverse_take, List.length_reverse]
    · show (!((kept.map (shown user)).drop limit).isEmpty) = decide (limit < kept.reverse.length)
      rw [List.length_reverse, Bool.eq_iff_iff, decide_eq_true_eq, Bool.not_eq_true',
        List.isEmpty_eq_false_iff, ne_eq, List.drop_eq_nil_iff, List.length_map, not_le]

theorem pdusUntil_cache (t : TimelineTables) (cache : RoomId → Option PduCount)
    (short : Option Nat) (user : UserId) (c : PduCount) :
    TimelineTables.pdusUntil { t with lasttimelinecountCache := cache } short user c
      = t.pdusUntil short user c := rfl

theorem hasDown_max : PduCount.max.HasDown := by
  refine ⟨?_, Nat.le_refl _⟩
  rw [u64Max_eq]
  norm_num

/-- a PDU of the room is stored under the count -/
def Has (b : Building) (r : RoomId) (d : PduCount) : Prop := ∃ p, (r, d, p) ∈ b.log

/-- the greatest count of the room that a scan reaches -/
def Top (b : Building) (r : RoomId) (last : PduCount) : Prop :=
  Has b r last ∧ ∀ d, Has b r d → d < .max → ¬ last < d

theorem lastTimelineCount_hit {m : PduCount} (short : Option Nat) (user : UserId)
    (hm : b.timeline.lasttimelinecountCache r = some m) :
    b.timeline.lastTimelineCount short user r = (.ok m, b.timeline) := by
  unfold TimelineTables.lastTimelineCount
  rw [hm]

/-- on a miss the last count is that of the first row downwards, or `0` -/
theorem lastTimelineCount_miss (h : b.Inv) (hr : b.roomidShortroomid r = some short) (user : UserId)
    (hm : b.timeline.lasttimelinecountCache r = none) :
    (∃ last, Top b r last ∧ b.timeline.lastTimelineCount (some short) user r = (.ok last,
      { b.timeline with lasttimelinecountCache :=
          Function.update b.timeline.lasttimelinecountCache r (some last) })) ∨
    (∀ d, Has b r d → ¬ d < .max) ∧
      b.timeline.lastTimelineCount (some short) user r = (.ok (.normal 0), b.timeline) := by
  have hscan := h.pdusUntil_yields hr user (Or.inl hasDown_max)
  rw [hr] at hscan
  obtain ⟨l, hl, hsorted, hmem⟩ := hscan
  unfold TimelineTables.lastTimelineCount
  simp only [hm, hl]
  cases l with
  | nil =>
    refine Or.inr ⟨?_, rfl⟩
    rintro d ⟨p, hlog⟩ hmax
    exact absurd ((hmem (d, p)).mpr ⟨hlog, hmax⟩) List.not_mem_nil
  | cons e l =>
    refine Or.inl ⟨e.1, ⟨⟨e.2, ((hmem e).mp List.mem_cons_self).1⟩, ?_⟩, rfl⟩
    rintro d ⟨p, hlog⟩ hmax hlt
    rcases List.mem_cons.mp ((hmem (d, p)).mpr ⟨hlog, hmax⟩) with he | hin
    · rw [← he, PduCount.lt_iff_rank] at hlt
      exact absurd hlt (lt_irrefl _)
    · have hgreater := (List.pairwise_cons.mp hsorted).1 _ hin
      change d < e.1 at hgreater
      rw [PduCount.lt_iff_rank] at hlt hgreater
      omega

theorem not_since_lt (h : ¬ since < last) (hd : ¬ last < d) :
    ¬ since < d := by
  rw [PduCount.lt_iff_rank] at *
  omega

/-- nothing is above `since` -/
theorem exact_nil (user : UserId) (limit : Nat) (h : ∀ d, Has b r d → d < .max → ¬ since < d) :
    Exact b r user since limit ([], false) := by
  refine ⟨[], List.Pairwise.nil, fun e => ?_, by simp⟩
  refine iff_of_false List.not_mem_nil ?_
  rintro ⟨hlog, hlt, hmax⟩
  exact h e.1 ⟨e.2, hlog⟩ hmax hlt

/-- the cached count hides a PDU above `since` -/
def Hides (b : Building) (r : RoomId) (since : PduCount) : Prop :=
  ∃ m, b.timeline.lasttimelinecountCache r = some m ∧ ¬ since < m ∧
    ∃ d, Has b r d ∧ d < .max ∧ since < d

theorem loadTimeline_spec (h : b.Inv) (hr : b.roomidShortroomid r = some short) (user : UserId)
    (since : PduCount) (limit : Nat) :
    ∃ out, (loadTimeline b.timeline (some short) user r since limit).1 = .ok out ∧
      (Exact b r user since limit out ∨ out = ([], false) ∧ Hides b r since) := by
  have hscan := h.pdusUntil_yields hr user (Or.inl hasDown_max)
  rw [hr] at hscan
  obtain ⟨pdus, hpdus, hexact⟩ := takeTimeline_exact hscan since limit
  -- what follows the check of the last count
  have hload : ∀ (last : PduCount) (cache : RoomId → Option PduCount),
      b.timeline.lastTimelineCount (some short) user r
        = (.ok last, { b.timeline with lasttimelinecountCache := cache }) →
      (loadTimeline b.timeline (some short) user r since limit).1
        = .ok (if since < last then takeTimeline pdus since limit else ([], false)) := by
    intro last cache hlast
    unfold loadTimeline
    simp only [hlast, pdusUntil_cache, hpdus]
    split <;> rfl
  cases hm : b.timeline.lasttimelinecountCache r with
  | some m =>
    refine ⟨_, hload m _ (lastTimelineCount_hit _ user hm), ?_⟩
    by_cases hlt : since < m
    · rw [if_pos hlt]
      exact Or.inl hexact
    · rw [if_neg hlt]
      by_cases hall : ∀ d, Has b r d → d < .max → ¬ since < d
      · exact Or.inl (exact_nil user limit hall)
      · push Not at hall
        obtain ⟨d, hd, hmax, hsince⟩ := hall
        exact Or.inr ⟨rfl, m, hm, hlt, d, hd, hmax, hsince⟩
  | none =>
    rcases lastTimelineCount_miss h hr user hm with ⟨last, htop, hlast⟩ | ⟨hnone, hlast⟩
    · refine ⟨_, hload last _ hlast, Or.inl ?_⟩
      by_cases hlt : since < last
      · rw [if_pos hlt]
        exact hexact
      · rw [if_neg hlt]
        exact exact_nil user limit fun d hd hmax => not_since_lt hlt (htop.2 d hd hmax)
    · refine ⟨_, hload (.normal 0) _ hlast, Or.inl ?_⟩
      by_cases hlt : since < PduCount.normal 0
      · rw [if_pos hlt]
        exact hexact
      · rw [if_neg hlt]
        exact exact_nil user limit fun d hd hmax => absurd hmax (hnone d hd)

theorem shown_eventId (user : UserId) (e : PduCount × PduJson) :
    (shown user e).2.eventId = e.2.pdu.eventId := by
  show (if e.2.pdu.sender ≠ user then e.2.pdu.removeTransactionId else e.2.pdu).eventId = _
  split
  · unfold PduEvent.removeTransactionId
    split <;> rfl
  · rfl

/-- what a timeline shows is stored, above `since` -/
theorem mem_takeTimeline {P : PduCount → Prop} {lt : PduCount → PduCount → Prop}
    {pdus : List (Except Error (PduCount × PduEvent))} (h : b.Yields r user P lt (.ok pdus)) {limit : Nat}
    {x : PduCount × PduEvent} (hx : x ∈ (takeTimeline pdus since limit).1) :
    since < x.1 ∧ ∃ p, (r, x.1, p) ∈ b.log ∧ p.pdu.eventId = x.2.eventId := by
  obtain ⟨l, hl, _, hmem⟩ := h
  have hin := List.mem_of_mem_take (List.mem_reverse.mp hx)
  have habove := List.mem_takeWhile_imp hin
  obtain ⟨y, hy, hok⟩ := List.mem_filterMap.mp ((List.takeWhile_sublist _).subset hin)
  rw [Except.ok.inj hl] at hy
  obtain ⟨e, he, rfl⟩ := List.mem_map.mp hy
  cases hok
  exact ⟨of_decide_eq_true habove, e.2, ((hmem e).mp he).1, (shown_eventId user e).symm⟩

/-! ## appends and syncs -/

/-- where an append is: it has the lock, its count, its row, and the count in the cache -/
inductive Stage where
  | locked
  | drawn (n : Nat)
  | stored (n : Nat)
  | linking (n : Nat)

def Stage.count : Stage → Option Nat
  | .locked => none
  | .drawn n => some n
  | .stored n => some n
  | .linking n => some n

/-- an `append_pdu`, or a `backfill_pdu`, that holds the insert lock of its room -/
structure Append where
  room : RoomId
  json : PduJson
  backfill : Bool
  stage : Stage

def Append.pduCount (a : Append) (n : Nat) : PduCount :=
  if a.backfill then .backfilled n else .normal n

inductive Phase where
  | idle
  /-- the lock of the room was taken and dropped -/
  | ready (r : RoomId)
  /-- the last count of the room is above `since` -/
  | behind (r : RoomId)
  | loaded (r : RoomId) (timeline : List (PduCount × PduEvent) × Bool)

structure Sync where
  user : UserId
  device : DeviceId
  since : Nat
  nextBatch : Nat
  /-- the joined rooms that are still to be loaded -/
  rooms : List RoomId
  phase : Phase
  timelines : List (RoomId × List (PduCount × PduEvent) × Bool)

structure Response where
  user : UserId
  device : DeviceId
  since : Nat
  nextBatch : Nat
  timelines : List (RoomId × List (PduCount × PduEvent) × Bool)

structure State where
  store : Building
  appends : List Append
  syncs : List Sync
  responses : List Response

def start : State := ⟨.empty, [], [], []⟩

/-- the steps that the results put conditions on -/
inductive Label where
  | row (a : Append)
  | scan (c : Sync) (r : RoomId)
  | other

inductive Step : Label → State → State → Prop
  /-- `next_count` of other code -/
  | tick {s : State} {n : Nat} {b : Building} : s.store.step (.other n) = some b →
      Step .other s { s with store := b }
  /-- `get_or_create_shortroomid` -/
  | room {s : State} {r : RoomId} {b : Building} : s.store.step (.room r) = some b →
      Step .other s { s with store := b }
  /-- `replace_pdu`, which keeps the event id -/
  | replace {s : State} {id : Bytes} {old json : PduJson} {pdu : PduEvent} {b : Building} :
      s.store.timeline.pduidPdu.get id = some old → json.pdu.eventId = old.pdu.eventId →
      s.store.step (.replace id json pdu) = some b → Step .other s { s with store := b }
  | clearCache {s : State} : Step .other s { s with store := { s.store with
      timeline := { s.store.timeline with lasttimelinecountCache := fun _ => none } } }
  | lock {s : State} {a : Append} : (∀ b ∈ s.appends, b.room ≠ a.room) →
      s.store.roomidShortroomid a.room ≠ none → a.stage = .locked →
      Step .other s { s with appends := a :: s.appends }
  /-- the `next_count` whose result is the count of the PDU -/
  | draw {s : State} {a : Append} {rest : List Append} {b : Building} :
      s.appends.Perm (a :: rest) → a.stage = .locked → s.store.nextCount 1 = some b →
      Step .other s { s with store := b, appends := { a with stage := .drawn b.counter } :: rest }
  | row {s : State} {a : Append} {rest : List Append} {n short : Nat} :
      s.appends.Perm (a :: rest) → a.stage = .drawn n →
      s.store.roomidShortroomid a.room = some short →
      Step (.row a) s { s with
        store := { s.store with
          timeline := { s.store.timeline with
            pduidPdu := s.store.timeline.pduidPdu.insert (pduId short (a.pduCount n)) a.json }
          log := (a.room, a.pduCount n, a.json) :: s.store.log }
        appends := { a with stage := if a.backfill then .linking n else .stored n } :: rest }
  /-- `lasttimelinecount_cache` -/
  | cache {s : State} {a : Append} {rest : List Append} {n : Nat} :
      s.appends.Perm (a :: rest) → a.stage = .stored n →
      Step .other s { s with
        store := { s.store with timeline := { s.store.timeline with
          lasttimelinecountCache :=
            Function.update s.store.timeline.lasttimelinecountCache a.room (some (.normal n)) } }
        appends := { a with stage := .linking n } :: rest }
  /-- `eventid_pduid` and `eventid_outlierpdu`, and the lock is dropped -/
  | link {s : State} {a : Append} {rest : List Append} {n short : Nat} :
      s.appends.Perm (a :: rest) → a.stage = .linking n →
      s.store.roomidShortroomid a.room = some short →
      Step .other s { s with
        store := { s.store with timeline := { s.store.timeline with
          eventidPduid := Function.update s.store.timeline.eventidPduid a.json.pdu.eventId
            (some (pduId short (a.pduCount n)))
          eventidOutlierpdu :=
            Function.update s.store.timeline.eventidOutlierpdu a.json.pdu.eventId none } }
        appends := rest }
  /-- a write fails, and the lock is dropped.  The cache cannot fail -/
  | fail {s : State} {a : Append} {rest : List Append} : s.appends.Perm (a :: rest) →
      (∀ n, a.stage ≠ .stored n) → Step .other s { s with appends := rest }
  | begin {s : State} (user : UserId) (device : DeviceId) (since : Nat) (rooms : List RoomId) :
      Step .other s { s with
        syncs := ⟨user, device, since, s.store.counter, rooms, .idle, []⟩ :: s.syncs }
  | handshake {s : State} {c : Sync} {rest : List Sync} {r : RoomId} {rooms : List RoomId} :
      s.syncs.Perm (c :: rest) → c.phase = .idle → c.rooms = r :: rooms →
      (∀ a ∈ s.appends, a.room ≠ r) →
      Step .other s { s with syncs := { c with rooms := rooms, phase := .ready r } :: rest }
  /-- `last_timeline_count` -/
  | check {s : State} {c : Sync} {rest : List Sync} {r : RoomId} {last : PduCount}
      {t : TimelineTables} : s.syncs.Perm (c :: rest) → c.phase = .ready r →
      s.store.timeline.lastTimelineCount (s.store.roomidShortroomid r) c.user r = (.ok last, t) →
      Step .other s { s with
        store := { s.store with timeline := t }
        syncs := { c with
          phase := if .normal c.since < last then .behind r else .loaded r ([], false) } :: rest }
  /-- `pdus_until` -/
  | scan {s : State} {c : Sync} {rest : List Sync} {r : RoomId}
      {pdus : List (Except Error (PduCount × PduEvent))} : s.syncs.Perm (c :: rest) →
      c.phase = .behind r →
      s.store.timeline.pdusUntil (s.store.roomidShortroomid r) c.user .max = .ok pdus →
      Step (.scan c r) s { s with
        syncs := { c with phase := .loaded r (takeTimeline pdus (.normal c.since) 10) } :: rest }
  | present {s : State} {c : Sync} {rest : List Sync} {r : RoomId}
      {timeline : List (PduCount × PduEvent) × Bool} : s.syncs.Perm (c :: rest) →
      c.phase = .loaded r timeline →
      Step .other s { s with
        syncs := { c with phase := .idle, timelines := (r, timeline) :: c.timelines } :: rest }
  /-- `load_joined_room` fails -/
  | roomFails {s : State} {c : Sync} {rest : List Sync} : s.syncs.Perm (c :: rest) →
      Step .other s { s with syncs := { c with phase := .idle } :: rest }
  | respond {s : State} {c : Sync} {rest : List Sync} : s.syncs.Perm (c :: rest) →
      c.phase = .idle → c.rooms = [] →
      Step .other s { s with
        syncs := rest
        responses := ⟨c.user, c.device, c.since, c.nextBatch, c.timelines⟩ :: s.responses }
  /-- the sync fails, or its client is gone -/
  | abort {s : State} {c : Sync} {rest : List Sync} : s.syncs.Perm (c :: rest) →
      Step .other s { s with syncs := rest }

/-- runs on whose steps a condition on the label and the state before holds -/
inductive RunWith (P : Label → State → Prop) : State → Prop
  | start : RunWith P start
  | step {l : Label} {s s' : State} : RunWith P s → Step l s s' → P l s → RunWith P s'

def Run : State → Prop := RunWith fun _ _ => True

/-! ## the invariant -/

structure AppendOk (b : Building) (a : Append) : Prop where
  room : b.roomidShortroomid a.room ≠ none
  count : ∀ n, a.stage.count = some n → 1 ≤ n ∧ n ≤ b.counter
  /-- the counts of the room are drawn under its lock -/
  drawn : ∀ n, a.stage = .drawn n → ∀ d, Has b a.room d → raw d < n
  stored : ∀ n, a.stage = .stored n → a.backfill = false ∧ ∀ d, Has b a.room d → raw d ≤ n
  row : ∀ n, a.stage = .stored n ∨ a.stage = .linking n → Has b a.room (a.pduCount n)

/-- the cached count is that of the last row, or the next one is being cached -/
def CacheOk (b : Building) (appends : List Append) : Prop :=
  ∀ r m, b.timeline.lasttimelinecountCache r = some m → Has b r m ∧
    ∀ d, Has b r d → d < .max → m < d →
      ∃ a ∈ appends, a.room = r ∧ ∃ n, a.stage = .stored n ∧ d = .normal n

/-- an append that a sync has not waited for draws its count later -/
def Past (appends : List Append) (c : Sync) : Prop :=
  ∀ r, c.phase = .ready r ∨ c.phase = .behind r →
    ∀ a ∈ appends, a.room = r → ∀ n, a.stage.count = some n → c.nextBatch < n

structure Inv (s : State) : Prop where
  store : s.store.Inv
  /-- one append a room holds the lock -/
  mutex : (s.appends.map Append.room).Nodup
  appends : ∀ a ∈ s.appends, AppendOk s.store a
  cache : CacheOk s.store s.appends
  nextBatch : ∀ c ∈ s.syncs, c.nextBatch ≤ s.store.counter
  past : ∀ c ∈ s.syncs, Past s.appends c

theorem inv_start : Inv start where
  store := Building.inv_empty
  mutex := List.nodup_nil
  appends a h := absurd h List.not_mem_nil
  cache r m h := by cases h
  nextBatch c h := absurd h List.not_mem_nil
  past c h := absurd h List.not_mem_nil

/-! ### steps of the store -/

/-- the store has the same rows, possibly with other events -/
structure Grows (b b' : Building) : Prop where
  counter : b.counter ≤ b'.counter
  room : ∀ r, b.roomidShortroomid r ≠ none → b'.roomidShortroomid r ≠ none
  has : ∀ r d, Has b' r d ↔ Has b r d

section
variable {b b' : Building} {appends : List Append} {a : Append}

theorem AppendOk.grow (h : AppendOk b a) (g : Grows b b') : AppendOk b' a where
  room := g.room _ h.room
  count n hn := ⟨(h.count n hn).1, (h.count n hn).2.trans g.counter⟩
  drawn n hn d hd := h.drawn n hn d ((g.has _ _).mp hd)
  stored n hn := ⟨(h.stored n hn).1, fun d hd => (h.stored n hn).2 d ((g.has _ _).mp hd)⟩
  row n hn := (g.has _ _).mpr (h.row n hn)

/-- cached counts may be dropped, and last counts of rooms cached -/
theorem CacheOk.grow (h : CacheOk b appends) (g : Grows b b')
    (hcache : ∀ r m, b'.timeline.lasttimelinecountCache r = some m →
      b.timeline.lasttimelinecountCache r = some m ∨ Top b r m) : CacheOk b' appends := by
  intro r m hm
  rcases hcache r m hm with hold | htop
  · obtain ⟨hhas, habove⟩ := h r m hold
    exact ⟨(g.has _ _).mpr hhas, fun d hd => habove d ((g.has _ _).mp hd)⟩
  · exact ⟨(g.has _ _).mpr htop.1,
      fun d hd hmax hlt => absurd hlt (htop.2 d ((g.has _ _).mp hd) hmax)⟩

theorem Inv.grow {s : State} (h : Inv s) (hb : b'.Inv) (g : Grows s.store b')
    (hcache : ∀ r m, b'.timeline.lasttimelinecountCache r = some m →
      s.store.timeline.lasttimelinecountCache r = some m ∨ Top s.store r m) :
    Inv { s with store := b' } where
  store := hb
  mutex := h.mutex
  appends a ha := (h.appends a ha).grow g
  cache := h.cache.grow g hcache
  nextBatch c hc := (h.nextBatch c hc).trans g.counter
  past := h.past

theorem grows_nextCount (hn : b.nextCount n = some b') :
    Grows b b' ∧ b'.timeline = b.timeline := by
  obtain ⟨_, rfl⟩ := Building.nextCount_eq hn
  exact ⟨⟨Nat.le_add_right _ _, fun _ h => h, fun _ _ => Iff.rfl⟩, rfl⟩

theorem grows_room (hs : b.step (.room r) = some b') :
    Grows b b' ∧ b'.timeline = b.timeline := by
  unfold Building.step at hs
  cases hr : b.roomidShortroomid r with
  | some short =>
    simp only [hr] at hs
    cases hs
    exact ⟨⟨le_rfl, fun _ h => h, fun _ _ => Iff.rfl⟩, rfl⟩
  | none =>
    simp only [hr] at hs
    obtain ⟨b₁, hn, hb⟩ := Option.bind_eq_some_iff.mp hs
    cases hb
    obtain ⟨_, rfl⟩ := Building.nextCount_eq hn
    refine ⟨⟨Nat.le_add_right _ _, fun q hq => ?_, fun _ _ => Iff.rfl⟩, rfl⟩
    by_cases hqr : q = r
    · rw [hqr, hr] at hq
      exact absurd rfl hq
    · show Function.update b.roomidShortroomid r (some (b.counter + 1)) q ≠ none
      rwa [Function.update_of_ne hqr]

theorem relabel_fst (b : Building) (id : Bytes) (json : PduJson) (e : RoomId × PduCount × PduJson) :
    (b.relabel id json e).1 = e.1 ∧ (b.relabel id json e).2.1 = e.2.1 := by
  unfold Building.relabel
  split
  · exact ⟨rfl, rfl⟩
  · exact ⟨rfl, rfl⟩

/-- a replacement changes the event of a row, and no count -/
theorem grows_replace {id : Bytes} {old : PduJson} {pdu : PduEvent} (hv : b.timeline.pduidPdu.get id = some old)
    (hs : b.step (.replace id json pdu) = some b') :
    Grows b b' ∧ b'.timeline.lasttimelinecountCache = b.timeline.lasttimelinecountCache ∧
      b'.log = b.log.map (b.relabel id json) := by
  unfold Building.step TimelineTables.replacePdu at hs
  simp only [hv] at hs
  cases hs
  refine ⟨⟨le_rfl, fun _ h => h, fun r d => ⟨?_, ?_⟩⟩, rfl, rfl⟩
  · rintro ⟨p, hp⟩
    obtain ⟨v, hlog, _⟩ := Building.relabel_room b id json hp
    exact ⟨v, hlog⟩
  · rintro ⟨p, hp⟩
    have hin := List.mem_map_of_mem (f := b.relabel id json) hp
    obtain ⟨h1, h2⟩ := relabel_fst b id json (r, d, p)
    refine ⟨(b.relabel id json (r, d, p)).2.2, ?_⟩
    convert hin using 1
    exact Prod.ext h1.symm (Prod.ext h2.symm rfl)

end

/-! ### steps of one append -/

section
variable {s : State} {a : Append} {rest : List Append} (h : Inv s) (hp : s.appends.Perm (a :: rest))
variable {x : Append}
include h hp

theorem Inv.mutex_cons : a.room ∉ rest.map Append.room ∧ (rest.map Append.room).Nodup := by
  have hnodup := (hp.map Append.room).nodup_iff.mp h.mutex
  rw [List.map_cons] at hnodup
  exact List.nodup_cons.mp hnodup

theorem Inv.rest_ok (hx : x ∈ rest) : AppendOk s.store x :=
  h.appends x (hp.mem_iff.mpr (List.mem_cons_of_mem _ hx))

theorem Inv.head_ok : AppendOk s.store a := h.appends a (hp.mem_iff.mpr List.mem_cons_self)

theorem Inv.rest_room (hx : x ∈ rest) : x.room ≠ a.room := fun e =>
  (h.mutex_cons hp).1 (e ▸ List.mem_map_of_mem hx)

/-- a count that another append is caching, or that `a` is -/
theorem caching_cases (hex : ∃ x ∈ s.appends, x.room = r ∧ ∃ n, x.stage = .stored n ∧ d = .normal n) :
    (∃ x ∈ rest, x.room = r ∧ ∃ n, x.stage = .stored n ∧ d = .normal n) ∨
    a.room = r ∧ ∃ n, a.stage = .stored n ∧ d = .normal n := by
  obtain ⟨x, hx, hroom, hstage⟩ := hex
  rcases List.mem_cons.mp (hp.mem_iff.mp hx) with rfl | hx
  · exact Or.inr ⟨hroom, hstage⟩
  · exact Or.inl ⟨x, hx, hroom, hstage⟩

theorem past_rest {c : Sync} (hc : c ∈ s.syncs) : Past rest c := fun r hr x hx =>
  h.past c hc r hr x (hp.mem_iff.mpr (List.mem_cons_of_mem _ hx))

/-- an append drops the lock; its count is in the cache -/
theorem Inv.unlock (hstage : ∀ n, a.stage ≠ .stored n) : Inv { s with appends := rest } where
  store := h.store
  mutex := (h.mutex_cons hp).2
  appends x hx := h.rest_ok hp hx
  cache r m hm := by
    obtain ⟨hhas, habove⟩ := h.cache r m hm
    refine ⟨hhas, fun d hd hmax hlt => ?_⟩
    rcases caching_cases h hp (habove d hd hmax hlt) with hx | ⟨_, n, hn, _⟩
    · exact hx
    · exact absurd hn (hstage n)
  nextBatch := h.nextBatch
  past c hc := past_rest h hp hc

theorem Inv.draw {b : Building} (hstage : a.stage = .locked) (hn : s.store.nextCount 1 = some b) :
    Inv { s with store := b, appends := { a with stage := .drawn b.counter } :: rest } := by
  obtain ⟨g, htl⟩ := grows_nextCount hn
  have hcount : b.counter = s.store.counter + 1 := by
    obtain ⟨_, rfl⟩ := Building.nextCount_eq hn
    rfl
  refine ⟨h.store.nextCount hn, ?_, ?_, ?_, ?_, ?_⟩
  · show ((a.room :: rest.map Append.room)).Nodup
    exact List.nodup_cons.mpr (h.mutex_cons hp)
  · intro x hx
    rcases List.mem_cons.mp hx with rfl | hx
    · refine ⟨g.room _ (h.head_ok hp).room, ?_, ?_, nofun, nofun⟩
      · rintro n hn
        cases hn
        exact ⟨by omega, le_rfl⟩
      · rintro n hn d hd
        cases hn
        obtain ⟨p, hlog⟩ := (g.has _ _).mp hd
        have hle := (h.store.log_le _ _ _ hlog).2
        omega
    · exact (h.rest_ok hp hx).grow g
  · refine CacheOk.grow ?_ g fun r m hm => Or.inl (htl ▸ hm)
    intro r m hm
    obtain ⟨hhas, habove⟩ := h.cache r m hm
    refine ⟨hhas, fun d hd hmax hlt => ?_⟩
    rcases caching_cases h hp (habove d hd hmax hlt) with ⟨x, hx, hcaching⟩ | ⟨_, n, hn, _⟩
    · exact ⟨x, List.mem_cons_of_mem _ hx, hcaching⟩
    · rw [hstage] at hn
      cases hn
  · intro c hc
    exact (h.nextBatch c hc).trans g.counter
  · intro c hc r hr x hx hroom n hn
    rcases List.mem_cons.mp hx with rfl | hx
    · cases hn
      have hle := h.nextBatch c hc
      omega
    · exact past_rest h hp hc r hr x hx hroom n hn

theorem Inv.insert (hstage : a.stage = .drawn n) (hr : s.store.roomidShortroomid a.room = some short)
    (ht : t.pduidPdu = s.store.timeline.pduidPdu.insert (pduId short (a.pduCount n)) a.json)
    (hcache : t.lasttimelinecountCache = s.store.timeline.lasttimelinecountCache) :
    Inv { s with
      store := { s.store with timeline := t, log := (a.room, a.pduCount n, a.json) :: s.store.log }
      appends := { a with stage := if a.backfill then .linking n else .stored n } :: rest } := by
  have hok := h.head_ok hp
  obtain ⟨hpos, hle⟩ := hok.count n (by rw [hstage]; rfl)
  have hraw : raw (a.pduCount n) = n := by
    unfold Append.pduCount
    split <;> rfl
  have hvalid : (a.pduCount n).Valid := by
    have hlt := h.store.counter_lt
    unfold Append.pduCount
    split
    · exact hle.trans_lt hlt
    · exact ⟨hpos, hle.trans_lt hlt⟩
  have hold : ∀ {r d}, Has { s.store with timeline := t, log := (a.room, a.pduCount n, a.json) ::
      s.store.log } r d → Has s.store r d ∨ r = a.room ∧ d = a.pduCount n := by
    rintro r d ⟨p, hp⟩
    rcases List.mem_cons.mp hp with e | hp
    · cases e
      exact Or.inr ⟨rfl, rfl⟩
    · exact Or.inl ⟨p, hp⟩
  have hnew : ∀ {r d}, Has s.store r d → Has { s.store with timeline := t, log := (a.room,
      a.pduCount n, a.json) :: s.store.log } r d := fun ⟨p, hp⟩ => ⟨p, List.mem_cons_of_mem _ hp⟩
  have hcount : ∀ m, (if a.backfill then Stage.linking n else .stored n).count = some m → m = n := by
    intro m hm
    split at hm <;> cases hm <;> rfl
  refine ⟨?_, ?_, ?_, ?_, h.nextBatch, ?_⟩
  · refine h.store.insertRow hr hvalid (hraw.trans_le hle) (fun p hp => ?_) a.json ht
    have hlt := hok.drawn n hstage _ ⟨p, hp⟩
    omega
  · show ((a.room :: rest.map Append.room)).Nodup
    exact List.nodup_cons.mpr (h.mutex_cons hp)
  · intro x hx
    rcases List.mem_cons.mp hx with rfl | hx
    · refine ⟨hok.room, fun m hm => ?_, fun m hm => ?_, fun m hm => ?_, fun m hm => ?_⟩
      · rw [hcount m hm]
        exact ⟨hpos, hle⟩
      · change (if a.backfill then Stage.linking n else .stored n) = .drawn m at hm
        split at hm <;> cases hm
      · change (if a.backfill then Stage.linking n else .stored n) = .stored m at hm
        split at hm
        · cases hm
        · next hnormal =>
          cases hm
          refine ⟨by simpa using hnormal, fun d hd => ?_⟩
          rcases hold hd with hd | ⟨_, rfl⟩
          · exact (hok.drawn n hstage d hd).le
          · exact hraw.le
      · have hmn : m = n := by
          refine hcount m ?_
          rcases hm with hm | hm
          · exact congrArg Stage.count hm
          · exact congrArg Stage.count hm
        rw [hmn]
        exact ⟨a.json, List.mem_cons_self⟩
    · have hother := h.rest_ok hp hx
      have hroom := h.rest_room hp hx
      have hsame : ∀ d, Has { s.store with timeline := t, log := (a.room, a.pduCount n, a.json) ::
          s.store.log } x.room d → Has s.store x.room d := fun d hd =>
        (hold hd).resolve_right fun hc => hroom hc.1
      exact ⟨hother.room, hother.count, fun m hm d hd => hother.drawn m hm d (hsame d hd),
        fun m hm => ⟨(hother.stored m hm).1, fun d hd => (hother.stored m hm).2 d (hsame d hd)⟩,
        fun m hm => hnew (hother.row m hm)⟩
  · intro r m hm
    change t.lasttimelinecountCache r = some m at hm
    rw [hcache] at hm
    obtain ⟨hhas, habove⟩ := h.cache r m hm
    refine ⟨hnew hhas, fun d hd hmax hlt => ?_⟩
    rcases hold hd with hd | ⟨rfl, rfl⟩
    · rcases caching_cases h hp (habove d hd hmax hlt) with ⟨x, hx, hcaching⟩ | ⟨_, k, hk, _⟩
      · exact ⟨x, List.mem_cons_of_mem _ hx, hcaching⟩
      · rw [hstage] at hk
        cases hk
    · refine ⟨_, List.mem_cons_self, rfl, n, ?_⟩
      have hbelow := hok.drawn n hstage m hhas
      cases hback : a.backfill with
      | true =>
        -- a backfilled PDU comes before the ones that are stored
        unfold Append.pduCount at hlt
        rw [hback, if_pos rfl] at hlt
        cases m with
        | normal x => exact absurd hlt (PduCount.not_normal_lt_backfilled _ _)
        | backfilled x =>
          rw [PduCount.backfilled_lt_backfilled] at hlt
          change x < n at hbelow
          omega
      | false => exact ⟨rfl, by unfold Append.pduCount; rw [hback]; rfl⟩
  · intro c hc r hr x hx hroom m hm
    rcases List.mem_cons.mp hx with rfl | hx
    · rw [hcount m hm]
      exact h.past c hc r hr a (hp.mem_iff.mpr List.mem_cons_self) hroom n (by rw [hstage]; rfl)
    · exact past_rest h hp hc r hr x hx hroom m hm

theorem Inv.cacheCount (hstage : a.stage = .stored n) :
    Inv { s with
      store := { s.store with timeline := { s.store.timeline with
        lasttimelinecountCache :=
          Function.update s.store.timeline.lasttimelinecountCache a.room (some (.normal n)) } }
      appends := { a with stage := .linking n } :: rest } := by
  have hok := h.head_ok hp
  obtain ⟨hnormal, hgreatest⟩ := hok.stored n hstage
  have hcount : a.pduCount n = .normal n := by
    unfold Append.pduCount
    rw [hnormal]
    rfl
  refine ⟨⟨h.store.counter_lt, h.store.short_le, h.store.short_inj, h.store.log_le,
    h.store.log_room, h.store.rows⟩, ?_, ?_, ?_, h.nextBatch, ?_⟩
  · show ((a.room :: rest.map Append.room)).Nodup
    exact List.nodup_cons.mpr (h.mutex_cons hp)
  · intro x hx
    rcases List.mem_cons.mp hx with rfl | hx
    · refine ⟨hok.room, fun m hm => ?_, nofun, nofun, fun m hm => ?_⟩
      · cases hm
        exact hok.count n (by rw [hstage]; rfl)
      · obtain rfl : n = m := by
          rcases hm with hm | hm
          · cases hm
          · cases hm
            rfl
        exact hok.row n (Or.inl hstage)
    · exact (h.rest_ok hp hx).grow ⟨le_rfl, fun _ h => h, fun _ _ => Iff.rfl⟩
  · intro r m hm
    by_cases hra : r = a.room
    · subst hra
      change Function.update s.store.timeline.lasttimelinecountCache a.room
        (some (PduCount.normal n)) a.room = some m at hm
      rw [Function.update_self] at hm
      cases hm
      refine ⟨hcount ▸ hok.row n (Or.inl hstage), fun d hd _ hlt => ?_⟩
      have hle := hgreatest d hd
      cases d with
      | normal x =>
        rw [PduCount.normal_lt_normal] at hlt
        change x ≤ n at hle
        omega
      | backfilled x => exact absurd hlt (PduCount.not_normal_lt_backfilled _ _)
    · change Function.update s.store.timeline.lasttimelinecountCache a.room
        (some (PduCount.normal n)) r = some m at hm
      rw [Function.update_of_ne hra] at hm
      obtain ⟨hhas, habove⟩ := h.cache r m hm
      refine ⟨hhas, fun d hd hmax hlt => ?_⟩
      rcases caching_cases h hp (habove d hd hmax hlt) with ⟨x, hx, hcaching⟩ | ⟨hroom, _⟩
      · exact ⟨x, List.mem_cons_of_mem _ hx, hcaching⟩
      · exact absurd hroom.symm hra
  · intro c hc r hr x hx hroom m hm
    rcases List.mem_cons.mp hx with rfl | hx
    · cases hm
      exact h.past c hc r hr a (hp.mem_iff.mpr List.mem_cons_self) hroom n (by rw [hstage]; rfl)
    · exact past_rest h hp hc r hr x hx hroom m hm

end

/-! ### steps of one sync -/

section
variable {s : State} {c c' : Sync} {rest : List Sync} (h : Inv s) (hp : s.syncs.Perm (c :: rest))
include h hp

theorem Inv.sync (hbatch : c'.nextBatch = c.nextBatch) (hpast : Past s.appends c → Past s.appends c') :
    Inv { s with syncs := c' :: rest } where
  store := h.store
  mutex := h.mutex
  appends := h.appends
  cache := h.cache
  nextBatch d hd := by
    rcases List.mem_cons.mp hd with rfl | hd
    · exact hbatch.trans_le (h.nextBatch c (hp.mem_iff.mpr List.mem_cons_self))
    · exact h.nextBatch d (hp.mem_iff.mpr (List.mem_cons_of_mem _ hd))
  past d hd := by
    rcases List.mem_cons.mp hd with rfl | hd
    · exact hpast (h.past c (hp.mem_iff.mpr List.mem_cons_self))
    · exact h.past d (hp.mem_iff.mpr (List.mem_cons_of_mem _ hd))

theorem Inv.finish : Inv { s with syncs := rest } where
  store := h.store
  mutex := h.mutex
  appends := h.appends
  cache := h.cache
  nextBatch d hd := h.nextBatch d (hp.mem_iff.mpr (List.mem_cons_of_mem _ hd))
  past d hd := h.past d (hp.mem_iff.mpr (List.mem_cons_of_mem _ hd))

end

/-- `last_timeline_count` caches nothing but the last count -/
theorem lastTimelineCount_cache (h : b.Inv)
    (hlast : b.timeline.lastTimelineCount (b.roomidShortroomid r) user r = (.ok last, t)) :
    ∃ cache, t = { b.timeline with lasttimelinecountCache := cache } ∧ ∀ q m, cache q = some m →
      b.timeline.lasttimelinecountCache q = some m ∨ Top b q m := by
  have hsame : ∀ q m, b.timeline.lasttimelinecountCache q = some m →
      b.timeline.lasttimelinecountCache q = some m ∨ Top b q m := fun q m hm => Or.inl hm
  cases hm : b.timeline.lasttimelinecountCache r with
  | some m =>
    rw [lastTimelineCount_hit _ user hm] at hlast
    cases hlast
    exact ⟨_, rfl, hsame⟩
  | none =>
    cases hr : b.roomidShortroomid r with
    | none =>
      unfold TimelineTables.lastTimelineCount at hlast
      rw [hm, hr] at hlast
      cases hlast
    | some short =>
      rw [hr] at hlast
      rcases lastTimelineCount_miss h hr user hm with ⟨x, htop, heq⟩ | ⟨_, heq⟩
      · rw [heq] at hlast
        cases hlast
        refine ⟨_, rfl, fun q m hq => ?_⟩
        rcases update_some_eq_some.mp hq with ⟨rfl, rfl⟩ | ⟨-, hq⟩
        · exact Or.inr htop
        · exact Or.inl hq
      · rw [heq] at hlast
        cases hlast
        exact ⟨_, rfl, hsame⟩

theorem inv_caches (h : b.Inv) (ht : t.pduidPdu = b.timeline.pduidPdu) : Building.Inv { b with timeline := t } :=
  ⟨h.counter_lt, h.short_le, h.short_inj, h.log_le, h.log_room, by rw [ht]; exact h.rows⟩

theorem Inv.step {l : Label} {s s' : State} (h : Inv s) (hs : Step l s s') : Inv s' := by
  have hgrows : ∀ t, Grows s.store { s.store with timeline := t } := fun _ =>
    ⟨le_rfl, fun _ hr => hr, fun _ _ => Iff.rfl⟩
  cases hs with
  | tick hb =>
    obtain ⟨g, htl⟩ := grows_nextCount hb
    exact h.grow (h.store.step _ hb) g fun r m hm => Or.inl (htl ▸ hm)
  | room hb =>
    obtain ⟨g, htl⟩ := grows_room hb
    exact h.grow (h.store.step _ hb) g fun r m hm => Or.inl (htl ▸ hm)
  | replace hv hid hb =>
    obtain ⟨g, htl, _⟩ := grows_replace hv hb
    exact h.grow (h.store.step _ hb) g fun r m hm => Or.inl (htl ▸ hm)
  | clearCache => exact h.grow (inv_caches h.store rfl) (hgrows _) nofun
  | lock hfree hr hstage =>
    refine ⟨h.store, ?_, ?_, ?_, h.nextBatch, ?_⟩
    · rw [List.map_cons, List.nodup_cons, List.mem_map]
      exact ⟨fun ⟨b, hb, hroom⟩ => hfree b hb hroom, h.mutex⟩
    · intro x hx
      rcases List.mem_cons.mp hx with rfl | hx
      · refine ⟨hr, ?_, ?_, ?_, ?_⟩ <;> simp [hstage, Stage.count]
      · exact h.appends x hx
    · intro r m hm
      obtain ⟨hhas, habove⟩ := h.cache r m hm
      refine ⟨hhas, fun d hd hmax hlt => ?_⟩
      obtain ⟨x, hx, hcaching⟩ := habove d hd hmax hlt
      exact ⟨x, List.mem_cons_of_mem _ hx, hcaching⟩
    · intro c hc r hr x hx hroom n hn
      rcases List.mem_cons.mp hx with rfl | hx
      · rw [hstage] at hn
        cases hn
      · exact h.past c hc r hr x hx hroom n hn
  | draw hp hstage hn => exact h.draw hp hstage hn
  | row hp hstage hr => exact h.insert hp hstage hr rfl rfl
  | cache hp hstage => exact h.cacheCount hp hstage
  | @link _ a rest n short hp hstage hr =>
    have hunlocked := h.unlock hp fun m hm => by rw [hstage] at hm; cases hm
    exact hunlocked.grow (inv_caches h.store rfl) (hgrows _) fun r m hm => Or.inl hm
  | fail hp hstage => exact h.unlock hp hstage
  | begin user device since rooms =>
    refine ⟨h.store, h.mutex, h.appends, h.cache, fun c hc => ?_, fun c hc => ?_⟩
    · rcases List.mem_cons.mp hc with rfl | hc
      · exact le_rfl
      · exact h.nextBatch c hc
    · rcases List.mem_cons.mp hc with rfl | hc
      · rintro r (hr | hr) <;> cases hr
      · exact h.past c hc
  | handshake hp hphase hrooms hfree =>
    refine h.sync hp rfl fun _ => ?_
    -- nobody holds the lock, so what is appended later draws its count later
    rintro q (hq | hq) x hx hroom
    · cases hq
      exact absurd hroom (hfree x hx)
    · cases hq
  | @check _ c rest r last t hp hphase hlast =>
    obtain ⟨cache, rfl, hcache⟩ := lastTimelineCount_cache h.store hlast
    have hfilled : Inv { s with store := { s.store with timeline :=
        { s.store.timeline with lasttimelinecountCache := cache } } } :=
      h.grow (inv_caches h.store rfl) (hgrows _) hcache
    refine hfilled.sync hp rfl fun hpast => ?_
    rintro q hq x hx hroom
    refine hpast q (Or.inl ?_) x hx hroom
    change (if PduCount.normal c.since < last then Phase.behind r else .loaded r ([], false)) = .ready q ∨
      (if PduCount.normal c.since < last then Phase.behind r else .loaded r ([], false)) = .behind q at hq
    rw [hphase]
    split at hq
    · rcases hq with hq | hq
      · cases hq
      · cases hq
        rfl
    · rcases hq with hq | hq <;> cases hq
  | scan hp hphase hpdus => exact h.sync hp rfl fun _ q hq => by rcases hq with hq | hq <;> cases hq
  | present hp hphase => exact h.sync hp rfl fun _ q hq => by rcases hq with hq | hq <;> cases hq
  | roomFails hp => exact h.sync hp rfl fun _ q hq => by rcases hq with hq | hq <;> cases hq
  | respond hp hphase hrooms => exact { h.finish hp with }
  | abort hp => exact h.finish hp

theorem RunWith.inv {P : Label → State → Prop} {s : State} (h : RunWith P s) : Inv s := by
  induction h with
  | start => exact inv_start
  | step _ hs _ ih => exact ih.step hs

/-! ## runs -/

theorem scan_single (h : b.Inv) (hlog : b.log = [(r, .normal n, json)]) (hn : n < u64Max) (user : UserId) :
    b.timeline.pdusUntil (b.roomidShortroomid r) user .max
      = .ok [.ok (shown user (.normal n, json))] := by
  have hin : (r, PduCount.normal n, json) ∈ b.log := by
    rw [hlog]
    exact List.mem_cons_self
  obtain ⟨short, hr⟩ := Option.ne_none_iff_exists'.mp (h.log_room _ _ _ hin)
  obtain ⟨l, hout, hsorted, hmem⟩ := h.pdusUntil_yields hr user (Or.inl hasDown_max)
  have hone : l = [(.normal n, json)] := by
    refine List.perm_singleton.mp ((List.perm_ext_iff_of_nodup ?_ (by simp)).mpr ?_)
    · refine hsorted.imp fun {x y} hxy he => ?_
      rw [he, PduCount.lt_iff_rank] at hxy
      exact absurd hxy (lt_irrefl _)
    · intro e
      rw [hmem, hlog, List.mem_singleton, List.mem_singleton]
      constructor
      · rintro ⟨he, _⟩
        exact Prod.ext (Prod.mk.inj (Prod.mk.inj he).2).1 (Prod.mk.inj (Prod.mk.inj he).2).2
      · rintro rfl
        exact ⟨rfl, (PduCount.normal_lt_normal _ _).mpr hn⟩
  rw [hout, hone]
  rfl

section
variable {P : Label → State → Prop} (hother : ∀ s, P .other s)
variable {s : State}
include hother

/-- an append up to its row -/
theorem row_run (h : RunWith P s) (hr : s.store.roomidShortroomid r = some short) (hfree : s.appends = [])
    (hlt : s.store.counter + 1 < 2^64) (json : PduJson)
    (hP : ∀ a s', a.json = json → s'.store.log = s.store.log → P (.row a) s') :
    RunWith P ⟨{ s.store with
        counter := s.store.counter + 1
        timeline := { s.store.timeline with
          pduidPdu := s.store.timeline.pduidPdu.insert
            (pduId short (.normal (s.store.counter + 1))) json }
        log := (r, .normal (s.store.counter + 1), json) :: s.store.log },
      [⟨r, json, false, .stored (s.store.counter + 1)⟩], s.syncs, s.responses⟩ := by
  have hlock := h.step (.lock (a := ⟨r, json, false, .locked⟩) (by simp [hfree]) (by simp [hr]) rfl)
    (hother _)
  rw [hfree] at hlock
  have hdraw := hlock.step (.draw (.refl _) rfl (Building.nextCount_of_lt 1 hlt)) (hother _)
  exact hdraw.step (.row (a := ⟨r, json, false, .drawn (s.store.counter + 1)⟩) (.refl _) rfl hr)
    (hP _ _ rfl rfl)

/-- an append that nothing interrupts is that of the rows and scans -/
theorem append_run (h : RunWith P s) (json : PduJson)
    (hr : s.store.roomidShortroomid json.pdu.roomId = some short) (hfree : s.appends = [])
    (hlt : s.store.counter + 1 < 2^64) (hP : ∀ a s', a.json = json → s'.store.log = s.store.log → P (.row a) s') :
    ∃ b, s.store.step (.append json.pdu json) = some b ∧
      b.counter = s.store.counter + 1 ∧ b.roomidShortroomid = s.store.roomidShortroomid ∧
      b.timeline.lasttimelinecountCache json.pdu.roomId = some (.normal b.counter) ∧
      b.log = (json.pdu.roomId, .normal b.counter, json) :: s.store.log ∧
      RunWith P ⟨b, [], s.syncs, s.responses⟩ := by
  have hrow := row_run hother h hr hfree hlt json hP
  have hcache := hrow.step (.cache (.refl _) rfl) (hother _)
  let b : Building := { s.store with
    counter := s.store.counter + 1
    timeline := s.store.timeline.appendPdu (pduId short (.normal (s.store.counter + 1))) json.pdu json
      (s.store.counter + 1)
    log := (json.pdu.roomId, .normal (s.store.counter + 1), json) :: s.store.log }
  have hlink := hcache.step (.link (.refl _) rfl hr) (hother _)
  refine ⟨b, ?_, rfl, rfl, ?_, rfl, hlink⟩
  · unfold Building.step
    simp only [hr, Building.nextCount_of_lt 1 hlt, Option.bind_eq_bind, Option.bind_some]
    rfl
  · exact Function.update_self ..

/-- a sync of a room with one PDU -/
theorem sync_run {c : Sync} (h : RunWith P s) (hsyncs : s.syncs = [c]) (hphase : c.phase = .idle)
    (hrooms : c.rooms = [r]) (hfree : s.appends = [])
    (hcache : s.store.timeline.lasttimelinecountCache r = some (.normal n))
    (hlog : s.store.log = [(r, .normal n, json)]) (hn : n < u64Max)
    (hP : ∀ c' s', c'.nextBatch = c.nextBatch → s'.store = s.store → P (.scan c' r) s') :
    RunWith P ⟨s.store, [], [], ⟨c.user, c.device, c.since, c.nextBatch,
      (r, (if c.since < n then [shown c.user (.normal n, json)] else []), false) :: c.timelines⟩ ::
      s.responses⟩ := by
  have hready := h.step (.handshake (.of_eq hsyncs) hphase hrooms (by simp [hfree])) (hother _)
  rw [hfree] at hready
  have hcheck := hready.step (.check (.refl _) rfl (lastTimelineCount_hit _ c.user hcache)) (hother _)
  by_cases hlt : c.since < n
  · simp only [PduCount.normal_lt_normal, hlt, if_true] at hcheck ⊢
    have hscan := hcheck.step (.scan (.refl _) rfl (scan_single h.inv.store hlog hn c.user))
      (hP _ _ rfl rfl)
    have hpresent := hscan.step (.present (.refl _) rfl) (hother _)
    have htake : takeTimeline [.ok (shown c.user (.normal n, json))] (.normal c.since) 10
        = ([shown c.user (.normal n, json)], false) := by
      have hhead : (PduCount.normal c.since < PduCount.normal n) :=
        (PduCount.normal_lt_normal _ _).mpr hlt
      simp [takeTimeline, Except.toOption, shown, hhead]
    rw [htake] at hpresent
    have hrespond := hpresent.step (.respond (.refl _) rfl rfl) (hother _)
    exact hrespond
  · simp only [PduCount.normal_lt_normal, hlt, if_false] at hcheck ⊢
    have hpresent := hcheck.step (.present (.refl _) rfl) (hother _)
    have hrespond := hpresent.step (.respond (.refl _) rfl rfl) (hother _)
    exact hrespond

/-- the room gets the first word of all, and the event the count `2` -/
theorem first_run (json : PduJson) (hP : ∀ a s', a.json = json → s'.store.log = [] → P (.row a) s') :
    ∃ b : Building, b.counter = 2 ∧ b.roomidShortroomid json.pdu.roomId = some 1 ∧
      b.timeline.lasttimelinecountCache json.pdu.roomId = some (.normal 2) ∧
      b.log = [(json.pdu.roomId, .normal 2, json)] ∧ RunWith P ⟨b, [], [], []⟩ := by
  have hroom : RunWith P ⟨Building.firstRoom json.pdu.roomId, [], [], []⟩ :=
    RunWith.start.step (.room (r := json.pdu.roomId) rfl) (hother _)
  have hword : (Building.firstRoom json.pdu.roomId).roomidShortroomid json.pdu.roomId = some 1 :=
    Building.firstRoom_word _
  obtain ⟨b, _, hcount, hshort, hcache, hlog, hrun⟩ :=
    append_run hother hroom json hword rfl (show 1 + 1 < 2^64 by norm_num)
      fun a s' ha hs => hP a s' ha hs
  have hcount' : b.counter = 2 := hcount
  rw [hcount'] at hcache hlog
  exact ⟨b, hcount', by rw [hshort]; exact hword, hcache, hlog, hrun⟩

end

def event (r : RoomId) (e : EventId) (u : UserId) : PduJson := ⟨[], Building.message r e u⟩

/-! ## what a sync sees -/

/-- the count is that of a PDU of the room, stored or not -/
def State.Assigned (s : State) (r : RoomId) (d : PduCount) : Prop :=
  Has s.store r d ∨ ∃ a ∈ s.appends, a.room = r ∧ ∃ n, a.stage.count = some n ∧ d = a.pduCount n

/-- a scan of the room yields the PDUs of the count -/
def State.Visible (s : State) (r : RoomId) (d : PduCount) : Prop :=
  ∃ short p, s.store.roomidShortroomid r = some short ∧
    s.store.timeline.pduidPdu.get (pduId short d) = some p ∧
    ∀ user (c : PduCount), c.HasDown → d < c → ∃ pdus,
      s.store.timeline.pdusUntil (s.store.roomidShortroomid r) user c = .ok pdus ∧
      Except.ok (shown user (d, p)) ∈ pdus

/-- an append is between its row and the cache -/
def State.Caching (s : State) (r : RoomId) : Prop :=
  ∃ a ∈ s.appends, a.room = r ∧ ∃ n, a.stage = .stored n

theorem Inv.visible {s : State} (h : Inv s) (hd : Has s.store r d) :
    s.Visible r d := by
  obtain ⟨p, hlog⟩ := hd
  obtain ⟨short, hr⟩ := Option.ne_none_iff_exists'.mp (h.store.log_room r d p hlog)
  refine ⟨short, p, hr, (Tree.get_eq_some_iff _ _ _).mpr ((h.store.rows _).mpr ⟨r, d, short, hlog, hr,
    rfl⟩), fun user c hdown hlt => ?_⟩
  obtain ⟨l, hout, _, hmem⟩ := h.store.pdusUntil_yields hr user (Or.inl hdown)
  exact ⟨_, hout, List.mem_map.mpr ⟨(d, p), (hmem (d, p)).mpr ⟨hlog, hlt⟩, rfl⟩⟩

/-- what a sync waited for is stored -/
theorem Inv.complete {s : State} (h : Inv s) {c : Sync} (hc : c ∈ s.syncs)
    (hphase : c.phase = .ready r ∨ c.phase = .behind r) (hd : s.Assigned r d) (hle : raw d ≤ c.nextBatch) :
    Has s.store r d := by
  rcases hd with hd | ⟨a, ha, hroom, n, hn, rfl⟩
  · exact hd
  · have hlt := h.past c hc r hphase a ha hroom n hn
    have hraw : raw (a.pduCount n) = n := by
      unfold Append.pduCount
      split <;> rfl
    omega

theorem Inv.hides {s : State} (h : Inv s) (hhides : Hides s.store r since) : s.Caching r ∧ ∀ c ∈ s.syncs,
      (c.phase = .ready r ∨ c.phase = .behind r) →
      ∀ d, Has s.store r d → d < .max → since < d → c.nextBatch < raw d := by
  obtain ⟨m, hm, hsince, d, hd, hmax, hlt⟩ := hhides
  obtain ⟨_, habove⟩ := h.cache r m hm
  have habove' : ∀ d, Has s.store r d → d < .max → since < d →
      ∃ a ∈ s.appends, a.room = r ∧ ∃ n, a.stage = .stored n ∧ d = .normal n := by
    intro d hd hmax hlt
    refine habove d hd hmax ?_
    rw [PduCount.lt_iff_rank] at hsince hlt ⊢
    omega
  obtain ⟨a, ha, hroom, n, hn, _⟩ := habove' d hd hmax hlt
  refine ⟨⟨a, ha, hroom, n, hn⟩, fun c hc hphase e he hemax helt => ?_⟩
  obtain ⟨a, ha, hroom, n, hn, rfl⟩ := habove' e he hemax helt
  exact h.past c hc r hphase a ha hroom n (by rw [hn]; rfl)

/-- a sync finds all the PDUs up to its `next_batch`, and a timeline is exact unless an append of the
room is between its row and the cache; then it may be empty, and nothing up to `next_batch` is
missing -/
theorem sync_complete (s : State) (hs : Run s) :
    (∀ c ∈ s.syncs, ∀ r, c.phase = .ready r ∨ c.phase = .behind r → ∀ d, s.Assigned r d →
      raw d ≤ c.nextBatch → s.Visible r d) ∧
    (∀ r short, s.store.roomidShortroomid r = some short → ∀ user since limit,
      (∃ pdus, s.store.timeline.pdusUntil (some short) user .max = .ok pdus ∧
        Exact s.store r user since limit (takeTimeline pdus since limit)) ∧
      ∃ out, (loadTimeline s.store.timeline (some short) user r since limit).1 = .ok out ∧
        (Exact s.store r user since limit out ∨ out = ([], false) ∧ s.Caching r ∧
          ∀ c ∈ s.syncs, (c.phase = .ready r ∨ c.phase = .behind r) →
            ∀ d, Has s.store r d → d < .max → since < d → c.nextBatch < raw d)) := by
  have h := RunWith.inv hs
  refine ⟨fun c hc r hphase d hd hle => h.visible (h.complete hc hphase hd hle), ?_⟩
  intro r short hr user since limit
  have hscan := h.store.pdusUntil_yields hr user (Or.inl hasDown_max)
  rw [hr] at hscan
  refine ⟨takeTimeline_exact hscan since limit, ?_⟩
  obtain ⟨out, hout, hexact | ⟨hnil, hhides⟩⟩ := loadTimeline_spec h.store hr user since limit
  · exact ⟨out, hout, Or.inl hexact⟩
  · exact ⟨out, hout, Or.inr ⟨hnil, h.hides hhides⟩⟩

/-- a sync waits for the lock behind the event -/
theorem ready_run (r : RoomId) (e : EventId) (u : UserId) (d : DeviceId) :
    ∃ s, Run s ∧ s.Assigned r (.normal 2) ∧ ∃ c ∈ s.syncs, c.phase = .ready r ∧ c.nextBatch = 2 := by
  obtain ⟨b, hcount, _, _, hlog, hrun⟩ :=
    first_run (P := fun _ _ => True) (fun _ => trivial) (event r e u) fun _ _ _ _ => trivial
  have hbegin := hrun.step (.begin u d 0 [r]) trivial
  have hready := hbegin.step (.handshake (.refl _) rfl rfl fun a ha => absurd ha List.not_mem_nil) trivial
  refine ⟨_, hready, Or.inl ⟨event r e u, ?_⟩, _, List.mem_cons_self, rfl, hcount⟩
  show (r, _, _) ∈ b.log
  rw [hlog]
  exact List.mem_cons_self

theorem sync_complete_ready :
    let r : RoomId := ⟨.ascii "!r:x"⟩
    ∃ s : State, s.Assigned r (.normal 2) ∧ s.Visible r (.normal 2) := by
  obtain ⟨s, hrun, hassigned, c, hc, hphase, hbatch⟩ :=
    ready_run ⟨.ascii "!r:x"⟩ ⟨.ascii "$e"⟩ ⟨.ascii "@u:x"⟩ ⟨.ascii "D"⟩
  exact ⟨s, hassigned, (sync_complete s hrun).1 c hc _ (Or.inl hphase) _ hassigned hbatch.ge⟩

/-- the row of a second event is stored, and the cached count is that of the first -/
theorem lag_run (r : RoomId) (e f : EventId) (u : UserId) :
    ∃ s, Run s ∧ s.store.roomidShortroomid r = some 1 ∧
    s.store.timeline.lasttimelinecountCache r = some (.normal 2) ∧ Has s.store r (.normal 3) := by
  obtain ⟨b, hcount, hr, hcache, _, hrun⟩ :=
    first_run (P := fun _ _ => True) (fun _ => trivial) (event r e u) fun _ _ _ _ => trivial
  have hlt : b.counter + 1 < 2^64 := by
    rw [hcount]
    norm_num
  have hrow := row_run (fun _ => trivial) hrun hr rfl hlt (event r f u) fun _ _ _ _ => trivial
  refine ⟨_, hrow, hr, hcache, event r f u, ?_⟩
  show (r, PduCount.normal 3, event r f u) ∈ (r, .normal (b.counter + 1), event r f u) :: b.log
  rw [hcount]
  exact List.mem_cons_self

/-- while an append is between its row and the cache, a timeline can lack its PDU -/
theorem timeline_lags :
    ¬ ∀ s, Run s → ∀ r short, s.store.roomidShortroomid r = some short → ∀ user since limit,
      ∃ out, (loadTimeline s.store.timeline (some short) user r since limit).1 = .ok out ∧
        Exact s.store r user since limit out := by
  intro hall
  obtain ⟨s, hrun, hr, hcache, p, hlog⟩ :=
    lag_run ⟨.ascii "!r:x"⟩ ⟨.ascii "$e"⟩ ⟨.ascii "$f"⟩ ⟨.ascii "@u:x"⟩
  obtain ⟨out, hout, l, _, hmem, hexact⟩ := hall s hrun _ 1 hr ⟨.ascii "@u:x"⟩ (.normal 2) 10
  have hnil : (loadTimeline s.store.timeline (some 1) ⟨.ascii "@u:x"⟩ ⟨.ascii "!r:x"⟩ (.normal 2) 10).1
      = .ok ([], false) := by
    unfold loadTimeline
    simp only [lastTimelineCount_hit _ _ hcache]
    rfl
  rw [hnil] at hout
  cases hout
  have hin : (PduCount.normal 3, p) ∈ l := by
    refine (hmem _).mpr ⟨hlog, (PduCount.normal_lt_normal _ _).mpr (by norm_num), ?_⟩
    refine (PduCount.normal_lt_normal _ _).mpr ?_
    rw [u64Max_eq]
    norm_num
  obtain ⟨hdrop, hlimit⟩ := Prod.mk.inj hexact
  have hle : l.length - 10 = 0 := by
    have hlen := of_decide_eq_false hlimit.symm
    omega
  rw [hle, List.drop_zero] at hdrop
  rw [List.map_eq_nil_iff.mp hdrop.symm] at hin
  exact absurd hin List.not_mem_nil

/-! ## what is sent twice -/

def Response.Shows (x : Response) (r : RoomId) (e : EventId) : Prop :=
  ∃ timeline, (r, timeline) ∈ x.timelines ∧ ∃ pdu ∈ timeline.1, pdu.2.eventId = e

/-- no event of a room is in the timelines of two successive responses of a device; the latest
response is the first -/
def State.NoneTwice (s : State) : Prop :=
  s.responses.Pairwise fun y x => y.user = x.user → y.device = x.device → y.since = x.nextBatch →
    ∀ r e, x.Shows r e → ¬ y.Shows r e

/-- a sync scans a room that has no PDU above its `next_batch`, and no event is appended to a room that
has it in its timeline -/
def InTime : Label → State → Prop
  | .scan c r, s => ∀ n, Has s.store r (.normal n) → n ≤ c.nextBatch
  | .row a, s => ∀ d p, (a.room, d, p) ∈ s.store.log → p.pdu.eventId ≠ a.json.pdu.eventId
  | .other, _ => True

def EventAt (b : Building) (r : RoomId) (d : PduCount) (e : EventId) : Prop :=
  ∃ p, (r, d, p) ∈ b.log ∧ p.pdu.eventId = e

/-- a timeline that shows stored PDUs above `since`, up to `next_batch` -/
def Window (b : Building) (since nextBatch : Nat) (r : RoomId)
    (timeline : List (PduCount × PduEvent) × Bool) : Prop :=
  ∀ pdu ∈ timeline.1, ∃ n, pdu.1 = .normal n ∧ since < n ∧ n ≤ nextBatch ∧
    EventAt b r pdu.1 pdu.2.eventId

structure Timely (s : State) : Prop where
  events : ∀ r d d' e, EventAt s.store r d e → EventAt s.store r d' e → d = d'
  loaded : ∀ c ∈ s.syncs, ∀ r timeline, c.phase = .loaded r timeline →
    Window s.store c.since c.nextBatch r timeline
  syncs : ∀ c ∈ s.syncs, ∀ r timeline, (r, timeline) ∈ c.timelines →
    Window s.store c.since c.nextBatch r timeline
  responses : ∀ x ∈ s.responses, ∀ r timeline, (r, timeline) ∈ x.timelines →
    Window s.store x.since x.nextBatch r timeline

theorem timely_start : Timely start where
  events r d d' e h := by
    obtain ⟨p, hp, _⟩ := h
    exact absurd hp List.not_mem_nil
  loaded c h := absurd h List.not_mem_nil
  syncs c h := absurd h List.not_mem_nil
  responses x h := absurd h List.not_mem_nil

theorem Window.grow {b' : Building} {since nextBatch : Nat} {timeline : List (PduCount × PduEvent) × Bool}
    (h : Window b since nextBatch r timeline) (hkeep : ∀ r d e, EventAt b r d e → EventAt b' r d e) :
    Window b' since nextBatch r timeline := by
  intro pdu hpdu
  obtain ⟨n, hn, hsince, hle, hat⟩ := h pdu hpdu
  exact ⟨n, hn, hsince, hle, hkeep _ _ _ hat⟩

section
variable {s : State} (h : Timely s)
variable {appends : List Append}
include h

theorem Timely.grow (hkeep : ∀ r d e, EventAt s.store r d e → EventAt b r d e)
    (hevents : ∀ r d d' e, EventAt b r d e → EventAt b r d' e → d = d') :
    Timely { s with store := b, appends := appends } where
  events := hevents
  loaded c hc r timeline hl := (h.loaded c hc r timeline hl).grow hkeep
  syncs c hc r timeline hl := (h.syncs c hc r timeline hl).grow hkeep
  responses x hx r timeline hl := (h.responses x hx r timeline hl).grow hkeep

theorem Timely.same (hsame : ∀ r d e, EventAt b r d e ↔ EventAt s.store r d e) :
    Timely { s with store := b, appends := appends } :=
  h.grow (fun r d e => (hsame r d e).mpr) fun r d d' e h1 h2 =>
    h.events r d d' e ((hsame r d e).mp h1) ((hsame r d' e).mp h2)

theorem Timely.sync {c c' : Sync} {rest : List Sync} (hp : s.syncs.Perm (c :: rest))
    (hloaded : ∀ r timeline, c'.phase = .loaded r timeline →
      Window s.store c'.since c'.nextBatch r timeline)
    (htimelines : ∀ r timeline, (r, timeline) ∈ c'.timelines →
      Window s.store c'.since c'.nextBatch r timeline) : Timely { s with syncs := c' :: rest } where
  events := h.events
  loaded d hd := by
    rcases List.mem_cons.mp hd with rfl | hd
    · exact hloaded
    · exact h.loaded d (hp.mem_iff.mpr (List.mem_cons_of_mem _ hd))
  syncs d hd := by
    rcases List.mem_cons.mp hd with rfl | hd
    · exact htimelines
    · exact h.syncs d (hp.mem_iff.mpr (List.mem_cons_of_mem _ hd))
  responses := h.responses

theorem Timely.finish {c : Sync} {rest : List Sync} (hp : s.syncs.Perm (c :: rest)) :
    Timely { s with syncs := rest } where
  events := h.events
  loaded d hd := h.loaded d (hp.mem_iff.mpr (List.mem_cons_of_mem _ hd))
  syncs d hd := h.syncs d (hp.mem_iff.mpr (List.mem_cons_of_mem _ hd))
  responses := h.responses

end

theorem eventAt_relabel (h : b.Inv) {id : Bytes} {old : PduJson} (hv : b.timeline.pduidPdu.get id = some old)
    (hid : json.pdu.eventId = old.pdu.eventId) {e : RoomId × PduCount × PduJson} (he : e ∈ b.log) :
    (b.relabel id json e).2.2.pdu.eventId = e.2.2.pdu.eventId := by
  unfold Building.relabel
  split
  · next hstored =>
    -- the row of the PDU is the one that is replaced
    obtain ⟨short, hr, hkey⟩ := Option.map_eq_some_iff.mp hstored
    have hrow := (h.rows (id, e.2.2)).mpr ⟨e.1, e.2.1, short, he, hr, hkey.symm⟩
    have hsame := hv.symm.trans ((Tree.get_eq_some_iff _ _ _).mpr hrow)
    rw [show json.pdu.eventId = old.pdu.eventId from hid, Option.some.inj hsame]
  · rfl

theorem Timely.step {l : Label} {s s' : State} (hinv : Inv s) (h : Timely s) (hs : Step l s s')
    (hP : InTime l s) : Timely s' := by
  cases hs with
  | tick hb =>
    obtain ⟨_, rfl⟩ := Building.nextCount_eq hb
    exact h.same fun _ _ _ => Iff.rfl
  | @room _ r b hb =>
    have hlog : b.log = s.store.log := by
      unfold Building.step at hb
      cases hr : s.store.roomidShortroomid r with
      | some short =>
        simp only [hr] at hb
        cases hb
        rfl
      | none =>
        simp only [hr] at hb
        obtain ⟨b₁, hn, hb⟩ := Option.bind_eq_some_iff.mp hb
        cases hb
        obtain ⟨_, rfl⟩ := Building.nextCount_eq hn
        rfl
    refine h.same fun r d e => ?_
    unfold EventAt
    rw [hlog]
  | @replace _ id old json pdu b hv hid hb =>
    obtain ⟨_, _, hlog⟩ := grows_replace hv hb
    refine h.same fun r d e => ⟨?_, ?_⟩
    · rintro ⟨p, hp, rfl⟩
      rw [hlog] at hp
      obtain ⟨v, hin, heq⟩ := Building.relabel_room s.store id json hp
      have hev := eventAt_relabel hinv.store hv hid hin
      rw [heq] at hev
      exact ⟨v, hin, hev.symm⟩
    · rintro ⟨p, hp, rfl⟩
      have hin := List.mem_map_of_mem (f := s.store.relabel id json) hp
      obtain ⟨h1, h2⟩ := relabel_fst s.store id json (r, d, p)
      refine ⟨(s.store.relabel id json (r, d, p)).2.2, ?_, eventAt_relabel hinv.store hv hid hp⟩
      rw [hlog]
      convert hin using 1
      exact Prod.ext h1.symm (Prod.ext h2.symm rfl)
  | clearCache => exact h.same fun _ _ _ => Iff.rfl
  | lock hfree hr hstage => exact h.same fun _ _ _ => Iff.rfl
  | draw hp hstage hn =>
    obtain ⟨_, rfl⟩ := Building.nextCount_eq hn
    exact h.same fun _ _ _ => Iff.rfl
  | @row _ a rest n short hp hstage hr =>
    refine h.grow (fun r d e ⟨p, hp, he⟩ => ⟨p, List.mem_cons_of_mem _ hp, he⟩) ?_
    rintro r d d' e ⟨p, hp, rfl⟩ ⟨p', hp', heq⟩
    rcases List.mem_cons.mp hp with hnew | hp
    · cases hnew
      rcases List.mem_cons.mp hp' with hnew | hp'
      · cases hnew
        rfl
      · exact absurd heq (hP d' p' hp')
    · rcases List.mem_cons.mp hp' with hnew | hp'
      · cases hnew
        exact absurd heq.symm (hP d p hp)
      · exact h.events r d d' _ ⟨p, hp, rfl⟩ ⟨p', hp', heq⟩
  | cache hp hstage => exact h.same fun _ _ _ => Iff.rfl
  | link hp hstage hr => exact h.same fun _ _ _ => Iff.rfl
  | fail hp hstage => exact h.same fun _ _ _ => Iff.rfl
  | begin user device since rooms =>
    refine ⟨h.events, fun c hc => ?_, fun c hc => ?_, h.responses⟩
    · rcases List.mem_cons.mp hc with rfl | hc
      · nofun
      · exact h.loaded c hc
    · rcases List.mem_cons.mp hc with rfl | hc
      · exact fun r timeline hin => absurd hin List.not_mem_nil
      · exact h.syncs c hc
  | @handshake _ c rest r rooms hp hphase hrooms hfree =>
    exact h.sync hp nofun (h.syncs c (hp.mem_iff.mpr List.mem_cons_self))
  | @check _ c rest r last t hp hphase hlast =>
    obtain ⟨cache, rfl, _⟩ := lastTimelineCount_cache hinv.store hlast
    have hfilled : Timely { s with store := { s.store with timeline :=
        { s.store.timeline with lasttimelinecountCache := cache } } } := h.same fun _ _ _ => Iff.rfl
    refine hfilled.sync hp (fun q timeline hq => ?_) (hfilled.syncs c (hp.mem_iff.mpr List.mem_cons_self))
    change (if PduCount.normal c.since < last then Phase.behind r else .loaded r ([], false))
      = .loaded q timeline at hq
    split at hq
    · cases hq
    · cases hq
      exact fun pdu hpdu => absurd hpdu List.not_mem_nil
  | @scan _ c rest r pdus hp hphase hpdus =>
    refine h.sync hp (fun q timeline hq => ?_) (h.syncs c (hp.mem_iff.mpr List.mem_cons_self))
    cases hq
    intro pdu hpdu
    obtain ⟨short, hr⟩ : ∃ short, s.store.roomidShortroomid r = some short := by
      cases hr : s.store.roomidShortroomid r with
      | some short => exact ⟨short, rfl⟩
      | none =>
        rw [hr] at hpdus
        cases hpdus
    have hyields := hinv.store.pdusUntil_yields hr c.user (Or.inl hasDown_max)
    rw [hpdus] at hyields
    obtain ⟨hsince, p, hlog, heq⟩ := mem_takeTimeline hyields hpdu
    obtain ⟨n, hn⟩ : ∃ n, pdu.1 = .normal n := by
      cases hpc : pdu.1 with
      | normal n => exact ⟨n, rfl⟩
      | backfilled n =>
        rw [hpc] at hsince
        exact absurd hsince (PduCount.not_normal_lt_backfilled _ _)
    refine ⟨n, hn, ?_, hP n ⟨p, hn ▸ hlog⟩, p, hlog, heq⟩
    rwa [hn, PduCount.normal_lt_normal] at hsince
  | @present _ c rest r timeline hp hphase =>
    have hc := hp.mem_iff.mpr (List.mem_cons_self (a := c) (l := rest))
    refine h.sync hp nofun fun q tl hq => ?_
    rcases List.mem_cons.mp hq with heq | hq
    · cases heq
      exact h.loaded c hc r timeline hphase
    · exact h.syncs c hc q tl hq
  | @roomFails _ c rest hp => exact h.sync hp nofun (h.syncs c (hp.mem_iff.mpr List.mem_cons_self))
  | @respond _ c rest hp hphase hrooms =>
    refine ⟨h.events, (h.finish hp).loaded, (h.finish hp).syncs, fun x hx => ?_⟩
    rcases List.mem_cons.mp hx with rfl | hx
    · exact h.syncs c (hp.mem_iff.mpr List.mem_cons_self)
    · exact h.responses x hx
  | abort hp => exact h.finish hp

/-- the later timeline starts where the earlier one ends -/
theorem Timely.disjoint {s : State} (h : Timely s) {x y : Response} (hx : x ∈ s.responses)
    (hy : y ∈ s.responses) (hsince : y.since = x.nextBatch) (r : RoomId) (e : EventId)
    (hshows : x.Shows r e) : ¬ y.Shows r e := by
  rintro ⟨later, hlater, q, hq, hqe⟩
  obtain ⟨earlier, hearlier, p, hp, hpe⟩ := hshows
  obtain ⟨n, hn, _, hle, hat⟩ := h.responses x hx r earlier hearlier p hp
  obtain ⟨m, hm, hlt, _, hat'⟩ := h.responses y hy r later hlater q hq
  have hcount := h.events r _ _ e (hpe ▸ hat) (hqe ▸ hat')
  rw [hn, hm] at hcount
  cases hcount
  omega

theorem timelines_disjoint (s : State) (hs : RunWith InTime s) : s.NoneTwice := by
  have h : Timely s := by
    induction hs with
    | start => exact timely_start
    | step hrun hstep hP ih => exact ih.step hrun.inv hstep hP
  refine List.Pairwise.imp_of_mem (fun hy hx _ _ _ hsince => h.disjoint hx hy hsince)
    (List.pairwise_of_forall fun _ _ => True.intro)

/-- the event is appended before the first sync -/
theorem once_run (r : RoomId) (e : EventId) (u : UserId) (d : DeviceId) :
    ∃ s x y, RunWith InTime s ∧ s.responses = [y, x] ∧ y.since = x.nextBatch ∧ x.Shows r e := by
  obtain ⟨b, hcount, _, hcache, hlog, hrun⟩ :=
    first_run (P := InTime) (fun _ => trivial) (event r e u) fun a s' _ hs d p hp => by
      rw [hs] at hp
      exact absurd hp List.not_mem_nil
  have hmax : 2 < u64Max := by
    rw [u64Max_eq]
    norm_num
  have htime : ∀ (c : Sync) (s : State), c.nextBatch = 2 → s.store = b → InTime (.scan c r) s := by
    rintro c s hc rfl n ⟨p, hp⟩
    rw [hlog, List.mem_singleton] at hp
    cases hp
    exact hc.ge
  have hbegin := hrun.step (.begin u d 0 [r]) trivial
  have hfirst := sync_run (fun _ => trivial) hbegin rfl rfl rfl rfl hcache hlog hmax
    fun c s hc hs => htime c s (hc.trans hcount) hs
  have hagain := hfirst.step (.begin u d 2 [r]) trivial
  have hsecond := sync_run (fun _ => trivial) hagain rfl rfl rfl rfl hcache hlog hmax
    fun c s hc hs => htime c s (hc.trans hcount) hs
  refine ⟨_, _, _, hsecond, rfl, hcount.symm, ?_⟩
  exact ⟨_, List.mem_cons_self, _, List.mem_cons_self, shown_eventId u (.normal 2, event r e u)⟩

theorem timelines_disjoint_two :
    let r : RoomId := ⟨.ascii "!r:x"⟩
    let e : EventId := ⟨.ascii "$e"⟩
    ∃ (s : State) (x y : Response), s.responses = [y, x] ∧ y.since = x.nextBatch ∧ x.Shows r e ∧
      s.NoneTwice := by
  obtain ⟨s, x, y, hrun, hresp, hsince, hshows⟩ :=
    once_run ⟨.ascii "!r:x"⟩ ⟨.ascii "$e"⟩ ⟨.ascii "@u:x"⟩ ⟨.ascii "D"⟩
  exact ⟨s, x, y, hresp, hsince, hshows, timelines_disjoint s hrun⟩

/-- the event is appended after the first sync has read `next_batch` -/
theorem twice_run (r : RoomId) (e : EventId) (u : UserId) (d : DeviceId) :
    ∃ s x y, Run s ∧ s.responses = [y, x] ∧ y.user = x.user ∧ y.device = x.device ∧
    y.since = x.nextBatch ∧ x.Shows r e ∧ y.Shows r e := by
  have hroom : Run ⟨Building.firstRoom r, [], [], []⟩ :=
    RunWith.start.step (.room (r := r) rfl) trivial
  have hbegin := RunWith.step hroom (.begin u d 0 [r]) trivial
  obtain ⟨b, _, hcount, _, hcache, hlog, happend⟩ :=
    append_run (fun _ => trivial) hbegin (event r e u) (Building.firstRoom_word r) rfl
      (show 1 + 1 < 2^64 by norm_num) fun _ _ _ _ => trivial
  have hcount' : b.counter = 2 := hcount
  rw [hcount'] at hcache hlog
  have hmax : 2 < u64Max := by
    rw [u64Max_eq]
    norm_num
  have hfirst := sync_run (fun _ => trivial) happend rfl rfl rfl rfl hcache hlog hmax
    fun _ _ _ _ => trivial
  have hagain := hfirst.step (.begin u d 1 [r]) trivial
  have hsecond := sync_run (fun _ => trivial) hagain rfl rfl rfl rfl hcache hlog hmax
    fun _ _ _ _ => trivial
  refine ⟨_, _, _, hsecond, rfl, rfl, rfl, rfl, ?_, ?_⟩
  · exact ⟨_, List.mem_cons_self, _, List.mem_cons_self, shown_eventId u (.normal 2, event r e u)⟩
  · exact ⟨_, List.mem_cons_self, _, List.mem_cons_self, shown_eventId u (.normal 2, event r e u)⟩

theorem event_twice : ¬ ∀ s, Run s → s.NoneTwice := by
  intro hall
  obtain ⟨s, x, y, hrun, hresp, huser, hdevice, hsince, hx, hy⟩ :=
    twice_run ⟨.ascii "!r:x"⟩ ⟨.ascii "$e"⟩ ⟨.ascii "@u:x"⟩ ⟨.ascii "D"⟩
  have htwice := hall s hrun
  unfold State.NoneTwice at htwice
  rw [hresp] at htwice
  exact (List.pairwise_cons.mp htwice).1 x List.mem_cons_self huser hdevice hsince _ _ hx hy

end SyncTimeline
end Grapevine
