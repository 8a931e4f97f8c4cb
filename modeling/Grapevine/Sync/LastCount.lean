import Grapevine.Lib.Runs
import Grapevine.Lib.Update
import Grapevine.Sync.Timeline

/-!
# The last count of a room

`last_timeline_count` keeps the mutex of its cache from the look at the entry until the entry is
filled, with a scan of the timeline in between.  An append stores its row before it takes the mutex,
so that the row may be there, or not, when another call scans.

* `Call`   a call of `last_timeline_count`, with what its `Query` saw when it began;
* `Stage`   where the append of a room is;
* `Step`   one lock or one access to the tables at a time;
* `Promised`   what a call that returns should have found.

Main result: `lastCount_promised`.  A call for a room that was known when it began keeps its promise
in every run that does not reach the last count of all.  For an unknown room it fails, and a scan does
not see an event under the last count (`lastCount_unknown_and_max`).  No call waits for ever (`call_returns`).
-/

namespace Grapevine
open Kv

namespace LastCount
open SyncTimeline (Has Top lastTimelineCount_hit lastTimelineCount_miss inv_caches)

variable {json : PduJson} {result : Except Error PduCount} {d : PduCount} {i : Nat}

/-! ## states -/

/-- an append has its count, its row, and the count in the cache -/
inductive Stage where
  | called (n : Nat) (json : PduJson)
  | stored (n : Nat) (json : PduJson)
  | cached (n : Nat) (json : PduJson)

/-- what there was when a call began: the counts of the appends that had returned, the counts that were
stored, and whether the room was known -/
structure Query where
  room : RoomId
  user : UserId
  due : List Nat
  before : List PduCount
  known : Bool

inductive Call where
  | called (q : Query)
  /-- has the mutex, and the entry is vacant -/
  | vacant (q : Query)
  /-- has the mutex, and what it will return and put into the entry -/
  | scanned (q : Query) (result : Except Error PduCount) (entry : Option PduCount)
  | returned (q : Query) (result : Except Error PduCount)

structure State where
  store : Building
  /-- appends are serialised per room -/
  appends : RoomId → Option Stage
  /-- the counts of the appends that have returned -/
  completed : RoomId → List Nat
  calls : Nat → Option Call
  /-- the call that has the mutex of the cache -/
  holder : Option Nat

namespace State

def start : State := ⟨.empty, fun _ => none, fun _ => [], fun _ => none, none⟩

def cache (s : State) (r : RoomId) : Option PduCount := s.store.timeline.lasttimelinecountCache r

def stored (s : State) (r : RoomId) : List PduCount :=
  s.store.log.filterMap fun e => if e.1 = r then some e.2.1 else none

def query (s : State) (r : RoomId) (user : UserId) : Query :=
  ⟨r, user, s.completed r, s.stored r, (s.store.roomidShortroomid r).isSome⟩

def setCall (s : State) (i : Nat) (c : Call) : State := { s with calls := Function.update s.calls i (some c) }

def setHolder (s : State) (holder : Option Nat) : State := { s with holder := holder }

def setStage (s : State) (r : RoomId) (stage : Option Stage) : State :=
  { s with appends := Function.update s.appends r stage }

def setCache (s : State) (cache : RoomId → Option PduCount) : State :=
  { s with store := { s.store with timeline := { s.store.timeline with lasttimelinecountCache := cache } } }

/-- the scan behind a vacant entry: what is returned, and what the entry becomes -/
def scan (s : State) (q : Query) : Except Error PduCount × Option PduCount :=
  let out := s.store.timeline.lastTimelineCount (s.store.roomidShortroomid q.room) q.user q.room
  (out.1, out.2.lasttimelinecountCache q.room)

/-- the row of an append -/
def insertRow (s : State) (r : RoomId) (short : Nat) (c : PduCount) (json : PduJson) : State :=
  { s with store := { s.store with
      timeline := { s.store.timeline with pduidPdu := s.store.timeline.pduidPdu.insert (pduId short c) json }
      log := (r, c, json) :: s.store.log } }

/-- `eventid_pduid` and `eventid_outlierpdu` -/
def link (s : State) (e : EventId) (id : Bytes) : State :=
  { s with store := { s.store with timeline := { s.store.timeline with
      eventidPduid := Function.update s.store.timeline.eventidPduid e (some id)
      eventidOutlierpdu := Function.update s.store.timeline.eventidOutlierpdu e none } } }

end State

inductive Act where
  | append (r : RoomId) (n : Nat)
  | other

inductive Step : Act → State → State → Prop
  /-- `get_or_create_shortroomid`, and `next_count` of other code -/
  | room {s : State} {r : RoomId} {b : Building} : s.store.step (.room r) = some b →
      Step .other s { s with store := b }
  | draw {s : State} {n : Nat} {b : Building} : s.store.step (.other n) = some b → Step .other s { s with store := b }
  -- `append_pdu`, with a count that was drawn and is above those of the appends before
  | append {s : State} {r : RoomId} {n : Nat} {json : PduJson} : s.appends r = none →
      s.store.roomidShortroomid r ≠ none → 1 ≤ n → n ≤ s.store.counter →
      (∀ m, Has s.store r (.normal m) → m < n) →
      Step (.append r n) s (s.setStage r (some (.called n json)))
  | row {s : State} {r : RoomId} {n short : Nat} {json : PduJson} : s.appends r = some (.called n json) →
      s.store.roomidShortroomid r = some short →
      Step .other s ((s.insertRow r short (.normal n) json).setStage r (some (.stored n json)))
  | cache {s : State} {r : RoomId} {n : Nat} {json : PduJson} : s.appends r = some (.stored n json) →
      s.holder = none →
      Step .other s ((s.setCache (Function.update s.cache r (some (.normal n)))).setStage r (some (.cached n json)))
  | link {s : State} {r : RoomId} {n short : Nat} {json : PduJson} : s.appends r = some (.cached n json) →
      s.store.roomidShortroomid r = some short →
      Step .other s { (s.link json.pdu.eventId (pduId short (.normal n))).setStage r none with
        completed := Function.update s.completed r (n :: s.completed r) }
  -- `prepend_backfill_pdu`, under a new count
  | prepend {s : State} {r : RoomId} {n short : Nat} {json : PduJson} : s.store.roomidShortroomid r = some short →
      n ≤ s.store.counter → (∀ p, (r, .backfilled n, p) ∉ s.store.log) →
      Step .other s ((s.insertRow r short (.backfilled n) json).link json.pdu.eventId (pduId short (.backfilled n)))
  -- `clear_caches`
  | clear {s : State} : s.holder = none → Step .other s (s.setCache fun _ => none)
  -- `last_timeline_count`
  | call {s : State} {i : Nat} (r : RoomId) (user : UserId) : s.calls i = none →
      Step .other s (s.setCall i (.called (s.query r user)))
  | occupied {s : State} {i : Nat} {q : Query} {d : PduCount} : s.calls i = some (.called q) → s.holder = none →
      s.cache q.room = some d → Step .other s (s.setCall i (.returned q (.ok d)))
  | vacant {s : State} {i : Nat} {q : Query} : s.calls i = some (.called q) → s.holder = none →
      s.cache q.room = none → Step .other s ((s.setCall i (.vacant q)).setHolder (some i))
  | scan {s : State} {i : Nat} {q : Query} : s.calls i = some (.vacant q) →
      Step .other s (s.setCall i (.scanned q (s.scan q).1 (s.scan q).2))
  | finish {s : State} {i : Nat} {q : Query} {result : Except Error PduCount} {entry : Option PduCount} :
      s.calls i = some (.scanned q result entry) →
      Step .other s
        (((s.setCache (Function.update s.cache q.room entry)).setCall i (.returned q result)).setHolder none)

/-- no append has the last count of all -/
def Bounded (a : Act) (_ : State) : Prop := ∀ r n, a = .append r n → n ≠ u64Max

/-- what a call should return, in the state when it does -/
structure Promised (s : State) (q : Query) (result : Except Error PduCount) : Prop where
  appended : (∃ n, .normal n ∈ q.before) → ∃ d, result = .ok d ∧ (∀ n ∈ q.due, ¬ d < .normal n) ∧
    (∃ e, Has s.store q.room e ∧ ¬ e < d) ∧
    (s.appends q.room = none → Has s.store q.room d ∧ ∀ e, Has s.store q.room e → ¬ d < e)
  empty : (∀ e, ¬ Has s.store q.room e) → result = .ok (.normal 0) ∧ s.cache q.room = none

/-! ## the invariant -/

/-- an event was appended, and is not on its way to the cache -/
def Done (s : State) (r : RoomId) (n : Nat) : Prop :=
  Has s.store r (.normal n) ∧ ∀ json, s.appends r ≠ some (.stored n json)

/-- the count is not below those of the events that were appended -/
def Settled (s : State) (r : RoomId) (d : PduCount) : Prop := ∀ n, Done s r n → ¬ d < .normal n

def Stage.Ok (s : State) (r : RoomId) : Stage → Prop
  | .called n _ => 1 ≤ n ∧ n ≤ s.store.counter ∧ n ≠ u64Max ∧ ∀ m, Has s.store r (.normal m) → m < n
  | .stored n _ => Has s.store r (.normal n) ∧ ∀ m, Has s.store r (.normal m) → m ≤ n
  | .cached n _ => Has s.store r (.normal n)

structure Query.Ok (s : State) (q : Query) : Prop where
  due : ∀ n ∈ q.due, n ∈ s.completed q.room
  before : ∀ d ∈ q.before, Has s.store q.room d
  known : q.known = true → s.store.roomidShortroomid q.room ≠ none

/-- a scan has found the greatest count of its time, or nothing -/
structure Scanned (s : State) (q : Query) (result : Except Error PduCount) (entry : Option PduCount) : Prop where
  found : ∀ d, entry = some d → result = .ok d ∧ Has s.store q.room d ∧ Settled s q.room d
  nothing : entry = none → (∀ n, .normal n ∉ q.before) ∧ (q.known = true → result = .ok (.normal 0))

def Call.Ok (s : State) : Call → Prop
  | .called q => q.Ok s
  | .vacant q => q.Ok s ∧ s.cache q.room = none
  | .scanned q result entry => q.Ok s ∧ s.cache q.room = none ∧ Scanned s q result entry
  | .returned _ _ => True

def Call.holds : Call → Bool
  | .vacant _ => true
  | .scanned _ _ _ => true
  | _ => false

structure Inv (s : State) : Prop where
  store : s.store.Inv
  bounded : ∀ r n, Has s.store r (.normal n) → n ≠ u64Max
  appends : ∀ r stage, s.appends r = some stage → stage.Ok s r
  cache : ∀ r d, s.cache r = some d → Has s.store r d ∧ Settled s r d
  completed : ∀ r, ∀ n ∈ s.completed r, Done s r n
  holder : ∀ i, s.holder = some i ↔ ∃ c, s.calls i = some c ∧ c.holds = true
  call : ∀ i c, s.calls i = some c → c.Ok s

theorem inv_start : Inv .start where
  store := Building.inv_empty
  bounded r n h := by
    obtain ⟨p, hp⟩ := h
    cases hp
  appends r stage h := by cases h
  cache r d h := by cases h
  completed r n h := by cases h
  holder i := ⟨nofun, fun ⟨c, hc, _⟩ => by cases hc⟩
  call i c h := by cases h

/-! ### steps that leave the cache as it is -/

structure Grow (s s' : State) : Prop where
  cache : s'.cache = s.cache
  room : ∀ r, s.store.roomidShortroomid r ≠ none → s'.store.roomidShortroomid r ≠ none
  has : ∀ r d, Has s.store r d → Has s'.store r d
  completed : ∀ r, ∀ n ∈ s.completed r, n ∈ s'.completed r
  done : ∀ r n, Done s' r n ↔ Done s r n

section
variable {s s' : State} {r : RoomId}
variable {b : Building} {n short : Nat} {q : Query}

theorem Settled.grow (g : Grow s s') (h : Settled s r d) : Settled s' r d :=
  fun n hn => h n ((g.done r n).mp hn)

theorem Query.Ok.grow (g : Grow s s') (h : q.Ok s) : q.Ok s' where
  due n hn := g.completed _ n (h.due n hn)
  before d hd := g.has _ d (h.before d hd)
  known hk := g.room _ (h.known hk)

theorem Call.Ok.grow (g : Grow s s') {c : Call} (h : c.Ok s) : c.Ok s' := by
  cases c with
  | called q => exact Query.Ok.grow g h
  | vacant q => exact ⟨h.1.grow g, (congrFun g.cache _).trans h.2⟩
  | scanned q result entry =>
    refine ⟨h.1.grow g, (congrFun g.cache _).trans h.2.1, fun d hd => ?_, h.2.2.nothing⟩
    obtain ⟨hres, hhas, hsettled⟩ := h.2.2.found d hd
    exact ⟨hres, g.has _ _ hhas, hsettled.grow g⟩
  | returned q result => trivial

theorem Inv.grow (h : Inv s) (g : Grow s s') (hholder : s'.holder = s.holder) (hcalls : s'.calls = s.calls)
    (hstore : s'.store.Inv)
    (hbounded : ∀ r n, Has s'.store r (.normal n) → n ≠ u64Max)
    (happends : ∀ r stage, s'.appends r = some stage → stage.Ok s' r)
    (hcompleted : ∀ r, ∀ n ∈ s'.completed r, Done s r n) : Inv s' where
  store := hstore
  bounded := hbounded
  appends := happends
  cache r d hd := by
    rw [g.cache] at hd
    obtain ⟨hhas, hsettled⟩ := h.cache r d hd
    exact ⟨g.has r d hhas, hsettled.grow g⟩
  completed r n hn := (g.done r n).mpr (hcompleted r n hn)
  holder i := by
    rw [hholder, hcalls]
    exact h.holder i
  call i c hc := by
    rw [hcalls] at hc
    exact (h.call i c hc).grow g

/-- a room without new appended events -/
theorem Stage.Ok.keep {stage : Stage} (h : stage.Ok s r) (hcounter : s.store.counter ≤ s'.store.counter)
    (hhas : ∀ n, Has s'.store r (.normal n) ↔ Has s.store r (.normal n)) : stage.Ok s' r := by
  cases stage with
  | called n json => exact ⟨h.1, h.2.1.trans hcounter, h.2.2.1, fun m hm => h.2.2.2 m ((hhas m).mp hm)⟩
  | stored n json => exact ⟨(hhas n).mpr h.1, fun m hm => h.2 m ((hhas m).mp hm)⟩
  | cached n json => exact (hhas n).mpr h

/-- a step that appends nothing to a room -/
theorem Inv.keep (h : Inv s) (hb : b.Inv)
    (hcache : b.timeline.lasttimelinecountCache = s.store.timeline.lasttimelinecountCache)
    (hcounter : s.store.counter ≤ b.counter)
    (hroom : ∀ r, s.store.roomidShortroomid r ≠ none → b.roomidShortroomid r ≠ none)
    (hhas : ∀ r d, Has s.store r d → Has b r d)
    (hnormal : ∀ r n, Has b r (.normal n) ↔ Has s.store r (.normal n)) : Inv { s with store := b } := by
  refine h.grow ⟨hcache, hroom, hhas, fun _ _ hn => hn, fun r n => and_congr_left fun _ => hnormal r n⟩
    rfl rfl hb (fun r n hn => h.bounded r n ((hnormal r n).mp hn)) (fun r stage hst => ?_) h.completed
  exact (h.appends r stage hst).keep hcounter (hnormal r)

theorem Inv.sameRows (h : Inv s) (hb : b.Inv) (g : SyncTimeline.Grows s.store b)
    (ht : b.timeline = s.store.timeline) : Inv { s with store := b } :=
  h.keep hb (by rw [ht]) g.counter g.room (fun r d => (g.has r d).mpr) fun r n => g.has r _

/-- a step of one append, which neither stores its row nor fills the cache -/
theorem Inv.setStage (h : Inv s) {stage : Option Stage} (hok : ∀ st, stage = some st → st.Ok s r)
    (hold : ∀ n json, s.appends r ≠ some (.stored n json)) (hnew : ∀ n json, stage ≠ some (.stored n json))
    {completed : RoomId → List Nat} (hkeep : ∀ r, ∀ n ∈ s.completed r, n ∈ completed r)
    (hcompleted : ∀ r, ∀ n ∈ completed r, Done s r n) : Inv { s.setStage r stage with completed := completed } := by
  refine h.grow ⟨rfl, fun _ hr => hr, fun _ _ hd => hd, hkeep, fun q n => and_congr_right fun _ => ?_⟩
    rfl rfl h.store h.bounded (fun q st hst => ?_) hcompleted
  · show (∀ json, Function.update s.appends r stage q ≠ some (.stored n json)) ↔ _
    by_cases hq : q = r
    · rw [hq, Function.update_self]
      exact iff_of_true (hnew n) (hold n)
    · rw [Function.update_of_ne hq]
  · cases stage with
    | none => exact update_none_entries h.appends q st hst
    | some stage => exact update_some_entries h.appends (hok stage rfl) q st hst

theorem has_insertRow {c : PduCount} {q : RoomId} :
    Has (s.insertRow r short c json).store q d ↔ q = r ∧ d = c ∨ Has s.store q d := by
  constructor
  · rintro ⟨p, hp⟩
    rcases List.mem_cons.mp hp with heq | hp
    · cases heq
      exact Or.inl ⟨rfl, rfl⟩
    · exact Or.inr ⟨p, hp⟩
  · rintro (⟨rfl, rfl⟩ | ⟨p, hp⟩)
    · exact ⟨json, List.mem_cons_self⟩
    · exact ⟨p, List.mem_cons_of_mem _ hp⟩

/-- the row of an append is stored, and the cache is behind -/
theorem Inv.row (h : Inv s) {n short : Nat} {json : PduJson} (hstage : s.appends r = some (.called n json))
    (hr : s.store.roomidShortroomid r = some short) :
    Inv ((s.insertRow r short (.normal n) json).setStage r (some (.stored n json))) := by
  obtain ⟨hpos, hle, hmax, habove⟩ := h.appends r _ hstage
  have hstore : (s.insertRow r short (.normal n) json).store.Inv := by
    have hvalid : (PduCount.normal n).Valid := ⟨hpos, hle.trans_lt h.store.counter_lt⟩
    refine h.store.insertRow hr hvalid hle (fun p hp => ?_) json rfl
    exact absurd (habove n ⟨p, hp⟩) (lt_irrefl n)
  have hother : ∀ q, q ≠ r → ∀ m, Has (s.insertRow r short (.normal n) json).store q (.normal m) ↔
      Has s.store q (.normal m) := by
    intro q hq m
    rw [has_insertRow]
    exact or_iff_right fun heq => hq heq.1
  have hdone : ∀ q m, Done ((s.insertRow r short (.normal n) json).setStage r (some (.stored n json))) q m ↔
      Done s q m := by
    intro q m
    unfold Done
    show Has (s.insertRow r short (.normal n) json).store q (.normal m) ∧
      (∀ json', Function.update s.appends r (some (.stored n json)) q ≠ some (.stored m json')) ↔ _
    by_cases hq : q = r
    · rw [hq, Function.update_self, has_insertRow, hstage]
      constructor
      · rintro ⟨⟨_, heq⟩ | hhas, hnot⟩
        · cases heq
          exact absurd rfl (hnot json)
        · exact ⟨hhas, nofun⟩
      · rintro ⟨hhas, _⟩
        refine ⟨Or.inr hhas, fun json' heq => ?_⟩
        cases heq
        exact absurd (habove n hhas) (lt_irrefl n)
    · rw [Function.update_of_ne hq, hother q hq]
  refine h.grow ⟨rfl, fun _ hr => hr, fun _ _ hd => has_insertRow.mpr (Or.inr hd), fun _ _ hn => hn, hdone⟩
    rfl rfl hstore (fun q m hm => ?_) (fun q st hst => ?_) h.completed
  · rcases has_insertRow.mp hm with ⟨_, heq⟩ | hm
    · cases heq
      exact hmax
    · exact h.bounded q m hm
  · rcases update_some_eq_some.mp hst with ⟨rfl, rfl⟩ | ⟨hq, hst⟩
    · refine ⟨has_insertRow.mpr (Or.inl ⟨rfl, rfl⟩), fun m hm => ?_⟩
      rcases has_insertRow.mp hm with ⟨_, heq⟩ | hm
      · cases heq
        exact le_rfl
      · exact (habove m hm).le
    · exact (h.appends q st hst).keep le_rfl (hother q hq)

theorem Inv.link (h : Inv s) (e : EventId) (id : Bytes) : Inv (s.link e id) :=
  h.keep (inv_caches h.store rfl) rfl le_rfl (fun _ hr => hr) (fun _ _ hd => hd) fun _ _ => Iff.rfl

theorem Inv.prepend (h : Inv s) (hr : s.store.roomidShortroomid r = some short) (hle : n ≤ s.store.counter)
    (hfresh : ∀ p, (r, .backfilled n, p) ∉ s.store.log) :
    Inv (s.insertRow r short (.backfilled n) json) := by
  have hvalid : (PduCount.backfilled n).Valid := hle.trans_lt h.store.counter_lt
  refine h.keep (h.store.insertRow hr hvalid hle hfresh json rfl) rfl le_rfl
    (fun _ hr => hr) (fun _ _ hd => has_insertRow.mpr (Or.inr hd)) fun q m => ?_
  refine has_insertRow.trans (or_iff_right ?_)
  rintro ⟨_, heq⟩
  cases heq

/-! ### steps of the cache -/

/-- no call has the mutex -/
theorem Inv.setCache (h : Inv s) (hfree : ∀ i c, s.calls i = some c → c.holds = false)
    {cache : RoomId → Option PduCount} {appends : RoomId → Option Stage}
    (happends : ∀ r stage, appends r = some stage → stage.Ok s r)
    (hcache : ∀ r d, cache r = some d → Has s.store r d ∧ Settled { s with appends := appends } r d)
    (hcompleted : ∀ r, ∀ n ∈ s.completed r, Done { s with appends := appends } r n) :
    Inv { s.setCache cache with appends := appends } where
  store := inv_caches h.store rfl
  bounded := h.bounded
  appends r stage hst := (happends r stage hst).keep le_rfl fun _ => Iff.rfl
  cache := hcache
  completed := hcompleted
  holder := h.holder
  call i c hc := by
    have hok := h.call i c hc
    have hholds := hfree i c hc
    cases c with
    | called q => exact ⟨hok.due, hok.before, hok.known⟩
    | vacant q => cases hholds
    | scanned q result entry => cases hholds
    | returned q result => trivial

theorem Inv.free (h : Inv s) (hholder : s.holder = none) : ∀ i c, s.calls i = some c → c.holds = false := by
  intro i c hc
  by_contra hholds
  have hi := (h.holder i).mpr ⟨c, hc, by simpa using hholds⟩
  rw [hholder] at hi
  cases hi

theorem Inv.cacheCount (h : Inv s) (hholder : s.holder = none) (hstage : s.appends r = some (.stored n json)) :
    Inv ((s.setCache (Function.update s.cache r (some (.normal n)))).setStage r (some (.cached n json))) := by
  obtain ⟨hhas, hgreatest⟩ := h.appends r _ hstage
  have hother : ∀ q m, q ≠ r → (Done { s with appends := Function.update s.appends r (some (.cached n json)) } q m ↔
      Done s q m) := by
    intro q m hq
    refine and_congr_right fun _ => ?_
    show (∀ json', Function.update s.appends r (some (.cached n json)) q ≠ some (.stored m json')) ↔ _
    rw [Function.update_of_ne hq]
  refine h.setCache (h.free hholder) (update_some_entries h.appends hhas) (fun q d hd => ?_) fun q m hm => ?_
  · rcases update_some_eq_some.mp hd with ⟨rfl, rfl⟩ | ⟨hq, hd⟩
    · refine ⟨hhas, fun m hm hlt => ?_⟩
      rw [PduCount.normal_lt_normal] at hlt
      exact absurd (hgreatest m hm.1) (by omega)
    · obtain ⟨hold, hsettled⟩ := h.cache q d hd
      exact ⟨hold, fun m hm => hsettled m ((hother q m hq).mp hm)⟩
  · by_cases hq : q = r
    · refine ⟨(h.completed q m hm).1, fun json' heq => ?_⟩
      rcases update_some_eq_some.mp heq with ⟨-, heq⟩ | ⟨hne, -⟩
      · cases heq
      · exact hne hq
    · exact (hother q m hq).mpr (h.completed q m hm)

/-! ### steps of a call -/

theorem calls_self (s : State) (i : Nat) (c : Call) : (s.setCall i c).calls i = some c :=
  Function.update_self _ _ _

theorem calls_setHolder (s : State) (i : Nat) (c : Call) (holder : Option Nat) :
    ((s.setCall i c).setHolder holder).calls i = some c := Function.update_self _ _ _

/-- a call goes on, and may take or give back the mutex -/
theorem Inv.setCall (h : Inv s) (i : Nat) (c : Call) (hok : c.Ok s) {holder : Option Nat}
    (hself : holder = some i ↔ c.holds = true) (hother : ∀ j, j ≠ i → (holder = some j ↔ s.holder = some j)) :
    Inv ((s.setCall i c).setHolder holder) where
  store := h.store
  bounded := h.bounded
  appends := h.appends
  cache := h.cache
  completed := h.completed
  holder j := by
    show holder = some j ↔ ∃ c', Function.update s.calls i (some c) j = some c' ∧ c'.holds = true
    by_cases hj : j = i
    · rw [hj, Function.update_self, hself]
      refine ⟨fun hh => ⟨c, rfl, hh⟩, ?_⟩
      rintro ⟨c', hc', hh⟩
      rwa [Option.some.inj hc']
    · rw [Function.update_of_ne hj, hother j hj]
      exact h.holder j
  call j c' hc' := by
    have g : Grow s ((s.setCall i c).setHolder holder) :=
      ⟨rfl, fun _ hr => hr, fun _ _ hd => hd, fun _ _ hn => hn, fun _ _ => Iff.rfl⟩
    rcases update_some_eq_some.mp hc' with ⟨-, rfl⟩ | ⟨-, hc'⟩
    · exact hok.grow g
    · exact (h.call j c' hc').grow g

theorem lt_max (h : b.Inv) (hhas : Has b r (.normal n)) (hn : n ≠ u64Max) :
    PduCount.normal n < .max := by
  obtain ⟨p, hp⟩ := hhas
  have hlt := (h.log_le _ _ _ hp).1.2
  refine (PduCount.normal_lt_normal _ _).mpr ?_
  rw [u64Max_eq] at hn ⊢
  omega

theorem Inv.scanned (h : Inv s) (hq : q.Ok s) (hcache : s.cache q.room = none) :
    Scanned s q (s.scan q).1 (s.scan q).2 := by
  cases hr : s.store.roomidShortroomid q.room with
  | none =>
    have hscan : s.scan q = (.error (.badDatabase "Looked for bad shortroomid in timeline"), none) := by
      unfold State.scan TimelineTables.lastTimelineCount
      rw [show s.store.timeline.lasttimelinecountCache q.room = none from hcache, hr]
      exact Prod.ext rfl hcache
    rw [hscan]
    refine ⟨nofun, fun _ => ⟨fun n hn => ?_, fun hknown => absurd hr (hq.known hknown)⟩⟩
    obtain ⟨p, hp⟩ := hq.before _ hn
    exact h.store.log_room _ _ _ hp hr
  | some short =>
    have hmiss := lastTimelineCount_miss h.store hr q.user hcache
    rw [← hr] at hmiss
    unfold State.scan
    rcases hmiss with ⟨last, ⟨hhas, htop⟩, hscan⟩ | ⟨hnone, hscan⟩
    · rw [hscan]
      refine ⟨fun d hd => ?_, fun hd => ?_⟩
      · change Function.update s.cache q.room (some last) q.room = some d at hd
        rw [Function.update_self] at hd
        cases hd
        exact ⟨rfl, hhas, fun n hn => htop _ hn.1 (lt_max h.store hn.1 (h.bounded _ n hn.1))⟩
      · change Function.update s.cache q.room (some last) q.room = none at hd
        rw [Function.update_self] at hd
        cases hd
    · rw [hscan]
      refine ⟨fun d hd => ?_, fun _ => ⟨fun n hn => ?_, fun _ => rfl⟩⟩
      · cases hcache.symm.trans hd
      · have hhas := hq.before _ hn
        exact hnone _ hhas (lt_max h.store hhas (h.bounded _ n hhas))

theorem Inv.finish (h : Inv s) {i : Nat} {q : Query} {result : Except Error PduCount} {entry : Option PduCount}
    (hc : s.calls i = some (.scanned q result entry)) :
    Inv (((s.setCache (Function.update s.cache q.room entry)).setCall i (.returned q result)).setHolder none) := by
  have hholder := (h.holder i).mpr ⟨_, hc, rfl⟩
  have hreturned : Inv ((s.setCall i (.returned q result)).setHolder none) := by
    refine h.setCall i (.returned q result) trivial (iff_of_false nofun nofun) fun j hj =>
      iff_of_false nofun fun hs => ?_
    exact hj (Option.some.inj (hs.symm.trans hholder))
  refine hreturned.setCache (hreturned.free rfl) h.appends ?_ h.completed
  cases entry with
  | none => exact update_none_entries h.cache
  | some d =>
    obtain ⟨-, hhas, hsettled⟩ := (h.call i _ hc).2.2.found d rfl
    exact update_some_entries h.cache ⟨hhas, hsettled⟩

theorem query_ok (s : State) (r : RoomId) (user : UserId) : (s.query r user).Ok s where
  due n hn := hn
  before d hd := by
    obtain ⟨⟨q, c, p⟩, hp, he⟩ := List.mem_filterMap.mp hd
    dsimp only at he
    split at he
    · next hq =>
      cases he
      exact ⟨p, hq ▸ hp⟩
    · cases he
  known hk := by
    intro hnone
    change (s.store.roomidShortroomid r).isSome = true at hk
    change s.store.roomidShortroomid r = none at hnone
    rw [hnone] at hk
    cases hk

end

theorem Inv.step {a : Act} {s s' : State} (h : Inv s) (hs : Step a s s') (hb : Bounded a s) : Inv s' := by
  cases hs with
  | room hstep =>
    obtain ⟨g, ht⟩ := SyncTimeline.grows_room hstep
    exact h.sameRows (h.store.step _ hstep) g ht
  | draw hstep =>
    obtain ⟨g, ht⟩ := SyncTimeline.grows_nextCount hstep
    exact h.sameRows (h.store.step _ hstep) g ht
  | @append _ r n json hnone hr hpos hle habove =>
    refine h.setStage (fun st hst => ?_) (fun n json heq => ?_) (fun _ _ heq => by cases heq) (fun _ _ hn => hn)
      h.completed
    · cases hst
      exact ⟨hpos, hle, hb r n rfl, habove⟩
    · cases hnone.symm.trans heq
  | row hstage hr => exact h.row hstage hr
  | cache hstage hholder => exact h.cacheCount hholder hstage
  | @link _ r n short json hstage hr =>
    have hhas : Has s.store r (.normal n) := h.appends r _ hstage
    refine (h.link json.pdu.eventId (pduId short (.normal n))).setStage (fun _ heq => by cases heq)
      (fun _ _ heq => by cases hstage.symm.trans heq) (fun _ _ heq => by cases heq) (fun q m hm => ?_)
      fun q m hm => ?_
    · by_cases hq : q = r
      · rw [hq, Function.update_self]
        exact List.mem_cons_of_mem _ (hq ▸ hm)
      · rwa [Function.update_of_ne hq]
    · by_cases hq : q = r
      · rw [hq, Function.update_self] at hm
        subst hq
        rcases List.mem_cons.mp hm with rfl | hm
        · exact ⟨hhas, fun json' heq => by cases hstage.symm.trans heq⟩
        · exact h.completed _ m hm
      · rw [Function.update_of_ne hq] at hm
        exact h.completed q m hm
  | prepend hr hle hfresh => exact (h.prepend hr hle hfresh).link _ _
  | clear hholder => exact h.setCache (h.free hholder) h.appends nofun h.completed
  | @call _ i r user hc =>
    refine h.setCall i (.called (s.query r user)) (query_ok s r user) (iff_of_false (fun hi => ?_) nofun)
      fun _ _ => Iff.rfl
    obtain ⟨c, hsome, _⟩ := (h.holder i).mp hi
    cases hc.symm.trans hsome
  | @occupied _ i q d hc hholder hd =>
    refine h.setCall i (.returned q (.ok d)) trivial (iff_of_false (fun hi => ?_) nofun) fun _ _ => Iff.rfl
    cases hholder.symm.trans hi
  | @vacant _ i q hc hholder hd =>
    refine h.setCall i (.vacant q) ⟨h.call i _ hc, hd⟩ (iff_of_true rfl rfl) fun j hj => ?_
    rw [hholder]
    exact iff_of_false (fun heq => hj (Option.some.inj heq).symm) nofun
  | @scan _ i q hc =>
    obtain ⟨hq, hd⟩ := h.call i _ hc
    have hholder := (h.holder i).mpr ⟨_, hc, rfl⟩
    exact h.setCall i (.scanned q _ _) ⟨hq, hd, h.scanned hq hd⟩ (iff_of_true hholder rfl) fun _ _ => Iff.rfl
  | finish hc => exact h.finish hc

theorem inv_of_run {s : State} (h : RunsTo (· = .start) Step Bounded s) : Inv s := by
  have hstep : ∀ a s s', Inv s → Step a s s' → Bounded a s → Inv s' := fun _ _ _ h hs hb => h.step hs hb
  exact h.inv Inv (fun s (he : s = .start) => he ▸ inv_start) hstep

/-! ## the promise -/

section
variable {s : State} {q : Query}

theorem promised_of_settled (h : Inv s) (hq : q.Ok s) (hhas : Has s.store q.room d)
    (hsettled : Settled s q.room d) : Promised s q (.ok d) where
  appended := by
    rintro ⟨n, hn⟩
    refine ⟨d, rfl, fun m hm => hsettled m (h.completed _ m (hq.due m hm)), ⟨d, hhas, ?_⟩, fun hquiet => ⟨hhas, ?_⟩⟩
    · rw [PduCount.lt_iff_rank]
      exact lt_irrefl _
    · have hdone : ∀ m, Has s.store q.room (.normal m) → ¬ d < .normal m := fun m hm =>
        hsettled m ⟨hm, fun json heq => by cases hquiet.symm.trans heq⟩
      have habove := hdone n (hq.before _ hn)
      intro e he
      cases e with
      | normal m => exact hdone m he
      | backfilled m =>
        -- the greatest count is not below an appended one
        cases d with
        | normal k => exact PduCount.not_normal_lt_backfilled k m
        | backfilled k => exact absurd (PduCount.backfilled_lt_normal k n) habove
  empty hnone := absurd hhas (hnone d)

theorem promised_of_nothing (hcache : s.cache q.room = none)
    (h : (∀ n, .normal n ∉ q.before) ∧ (q.known = true → result = .ok (.normal 0))) (hknown : q.known = true) :
    Promised s q result where
  appended := fun ⟨n, hn⟩ => absurd hn (h.1 n)
  empty _ := ⟨h.2 hknown, hcache⟩

end

/-- what a call was about to do when it returned -/
theorem Step.returned {a : Act} {s s' : State} (hs : Step a s s') {q : Query}
    (hbefore : s.calls i ≠ some (.returned q result)) (hreturn : s'.calls i = some (.returned q result)) :
    (∃ d, s.calls i = some (.called q) ∧ s.cache q.room = some d ∧ result = .ok d ∧
      s' = s.setCall i (.returned q (.ok d))) ∨
    ∃ entry, s.calls i = some (.scanned q result entry) ∧
      s' = ((s.setCache (Function.update s.cache q.room entry)).setCall i (.returned q result)).setHolder none := by
  have hcall : ∀ {j c}, Function.update s.calls j (some c) i = some (.returned q result) →
      i = j ∧ c = .returned q result := fun h =>
    (update_some_eq_some.mp h).resolve_right fun hold => hbefore hold.2
  cases hs with
  | room | draw | append | row | cache | link | prepend | clear => exact absurd hreturn hbefore
  | call | vacant | scan => cases (hcall hreturn).2
  | occupied hc _ hd =>
    obtain ⟨rfl, heq⟩ := hcall hreturn
    cases heq
    exact Or.inl ⟨_, hc, hd, rfl, rfl⟩
  | finish hc =>
    obtain ⟨rfl, heq⟩ := hcall hreturn
    cases heq
    exact Or.inr ⟨_, hc, rfl⟩

/-- the step in which a call returns -/
theorem lastCount_promised {s s' : State} {a : Act} {i : Nat} {q : Query} {result : Except Error PduCount}
    (hrun : RunsTo (· = .start) Step Bounded s) (hs : Step a s s')
    (hbefore : s.calls i ≠ some (.returned q result)) (hreturn : s'.calls i = some (.returned q result))
    (hknown : q.known = true) : Promised s' q result := by
  have h := inv_of_run hrun
  rcases hs.returned hbefore hreturn with ⟨d, hc, hd, rfl, rfl⟩ | ⟨entry, hc, rfl⟩
  · obtain ⟨hhas, hsettled⟩ := h.cache _ d hd
    have hp := promised_of_settled h (h.call i _ hc) hhas hsettled
    exact ⟨hp.appended, hp.empty⟩
  · obtain ⟨hq, _, hscanned⟩ := h.call i _ hc
    cases entry with
    | none =>
      refine promised_of_nothing ?_ (hscanned.nothing rfl) hknown
      exact Function.update_self _ _ _
    | some d =>
      obtain ⟨rfl, hhas, hsettled⟩ := hscanned.found d rfl
      have hp := promised_of_settled h hq hhas hsettled
      exact ⟨hp.appended, fun hnone => absurd hhas (hnone d)⟩

/-! ### calls return -/

theorem holder_returns {s₀ s : State} (hs : Steps Step s₀ s) {c : Call} (hc : s.calls i = some c)
    (hholds : c.holds = true) : ∃ s' q result, Steps Step s₀ s' ∧ s'.calls i = some (.returned q result) ∧
      s'.holder = none ∧ ∀ j, j ≠ i → s'.calls j = s.calls j := by
  have hscanned : ∀ s₁ q result entry, Steps Step s₀ s₁ → s₁.calls i = some (.scanned q result entry) →
      (∀ j, j ≠ i → s₁.calls j = s.calls j) → ∃ s' q result, Steps Step s₀ s' ∧
        s'.calls i = some (.returned q result) ∧ s'.holder = none ∧ ∀ j, j ≠ i → s'.calls j = s.calls j :=
    fun s₁ q result entry hs₁ hc₁ hsame => ⟨_, q, result, hs₁.step (.finish hc₁), Function.update_self _ _ _, rfl,
      fun j hj => (Function.update_of_ne hj _ _).trans (hsame j hj)⟩
  cases c with
  | called q => cases hholds
  | vacant q =>
    exact hscanned _ q _ _ (hs.step (.scan hc)) (Function.update_self _ _ _)
      fun j hj => Function.update_of_ne hj _ _
  | scanned q result entry => exact hscanned s q result entry hs hc fun _ _ => rfl
  | returned q result => cases hholds

theorem called_returns {s₀ s : State} (hs : Steps Step s₀ s) {q : Query} (hc : s.calls i = some (.called q))
    (hholder : s.holder = none) :
    ∃ s' q result, Steps Step s₀ s' ∧ s'.calls i = some (.returned q result) := by
  cases hd : s.cache q.room with
  | some d => exact ⟨_, q, .ok d, hs.step (.occupied hc hholder hd), Function.update_self _ _ _⟩
  | none =>
    have hvacant := hs.step (.vacant hc hholder hd)
    obtain ⟨s', q', result, hs', hreturned, _⟩ :=
      holder_returns (i := i) (c := .vacant q) hvacant (Function.update_self _ _ _) rfl
    exact ⟨s', q', result, hs', hreturned⟩

/-- no call waits for ever: the one that has the mutex gives it back -/
theorem call_returns {s : State} (hrun : RunsTo (· = .start) Step Bounded s) {i : Nat} {c : Call}
    (hc : s.calls i = some c) : ∃ s' q result, Steps Step s s' ∧ s'.calls i = some (.returned q result) := by
  have h := inv_of_run hrun
  cases hholds : c.holds with
  | true =>
    obtain ⟨s', q, result, hs', hreturned, _⟩ := holder_returns (.refl s) hc hholds
    exact ⟨s', q, result, hs', hreturned⟩
  | false =>
    cases c with
    | called q =>
      cases hholder : s.holder with
      | none => exact called_returns (.refl s) hc hholder
      | some j =>
        obtain ⟨c', hc', hholds'⟩ := (h.holder j).mp hholder
        have hij : i ≠ j := by
          rintro rfl
          cases hc.symm.trans hc'
          cases hholds'
        obtain ⟨s', _, _, hs', _, hfree, hsame⟩ := holder_returns (.refl s) hc' hholds'
        exact called_returns hs' ((hsame i hij).trans hc) hfree
    | returned q result => exact ⟨s, q, result, .refl s, hc⟩
    | vacant q => cases hholds
    | scanned q result entry => cases hholds

/-! ## an append, a clear and a call -/

/-- the room has one event, of this count, and nothing is cached -/
theorem appended_run {P : Act → State → Prop} (hother : ∀ s, P .other s) (r : RoomId) (json : PduJson)
    (m : Nat) (hm : 1 + m < 2^64) (happend : ∀ s, P (.append r (1 + m)) s) : ∃ s, RunsTo (· = .start) Step P s ∧
      s.holder = none ∧ s.calls 0 = none ∧ s.completed r = [1 + m] ∧ s.store.log = [(r, .normal (1 + m), json)] ∧
      s.store.roomidShortroomid r = some 1 ∧ s.cache r = none ∧
      s.store.timeline.pduidPdu = Tree.empty.insert (pduId 1 (.normal (1 + m))) json := by
  have hstart : RunsTo (· = .start) Step P .start := .start rfl
  have hroom := hstart.step (Step.room (r := r) (b := Building.firstRoom r) rfl) (hother _)
  have hdraw := hroom.step (.draw (n := m) (if_pos hm)) (hother _)
  have hword := Building.firstRoom_word r
  have happended := hdraw.step (@Step.append _ r (1 + m) json rfl
    (fun heq => by cases hword.symm.trans heq) (Nat.le_add_right 1 m) le_rfl
    (fun _ ⟨p, hp⟩ => by cases hp)) (happend _)
  have hrow := happended.step (.row (Function.update_self _ _ _) hword) (hother _)
  have hcached := hrow.step (.cache (Function.update_self _ _ _) rfl) (hother _)
  have hlinked := hcached.step (.link (Function.update_self _ _ _) hword) (hother _)
  exact ⟨_, hlinked.step (.clear rfl) (hother _), rfl, rfl, Function.update_self _ _ _, rfl, hword, rfl, rfl⟩

/-- and a call scans -/
theorem scanned_run {P : Act → State → Prop} (hother : ∀ s, P .other s) (r : RoomId) (user : UserId)
    (json : PduJson) (m : Nat) (hm : 1 + m < 2^64) (happend : ∀ s, P (.append r (1 + m)) s) :
    ∃ (s : State) (q : Query), RunsTo (· = .start) Step P (s.setCall 0 (.scanned q (s.scan q).1 (s.scan q).2)) ∧
      q = ⟨r, user, [1 + m], [.normal (1 + m)], true⟩ ∧ Has s.store r (.normal (1 + m)) ∧
      s.store.roomidShortroomid r = some 1 ∧ s.cache r = none ∧
      s.store.timeline.pduidPdu = Tree.empty.insert (pduId 1 (.normal (1 + m))) json := by
  obtain ⟨s, hrun, hholder, hc, hcompleted, hlog, hword, hcache, hrows⟩ :=
    appended_run hother r json m hm happend
  have hcall := hrun.step (.call r user hc) (hother _)
  have hvacant := hcall.step (.vacant (calls_self s 0 _) hholder hcache) (hother _)
  have hscan := hvacant.step (.scan (calls_setHolder _ 0 _ _)) (hother _)
  refine ⟨_, _, hscan, ?_, ⟨json, ?_⟩, hword, hcache, hrows⟩
  · have hstored : s.stored r = [.normal (1 + m)] := by
      unfold State.stored
      rw [hlog]
      exact List.filterMap_cons_some (if_pos rfl)
    unfold State.query
    rw [hcompleted, hstored, hword]
    rfl
  · show _ ∈ s.store.log
    rw [hlog]
    exact List.mem_cons_self

/-- the bound of the scan is the last id of the room, and is not part of it -/
theorem scan_last {s : State} {q : Query} (hcache : s.cache q.room = none)
    (hr : s.store.roomidShortroomid q.room = some 1)
    (hrows : s.store.timeline.pduidPdu = Tree.empty.insert (pduId 1 .max) json) :
    (s.scan q).1 = .ok (.normal 0) := by
  have hbound : ¬ pduId 1 .max ≤ (countToId 1 .max 1 true).2 := by decide
  have hnone : s.store.timeline.pdusUntil (some 1) q.user .max = .ok [] := by
    show Except.ok (((s.store.timeline.pduidPdu.iterFrom (countToId 1 .max 1 true).2 true).takeWhile _).map _) = _
    rw [hrows]
    show Except.ok ((((([(pduId 1 .max, json)] : List (Bytes × PduJson)).filter
      (fun row => row.1 ≤ (countToId 1 .max 1 true).2)).reverse).takeWhile _).map _) = _
    rw [List.filter_cons_of_neg (by simpa using hbound)]
    rfl
  unfold State.scan TimelineTables.lastTimelineCount
  rw [show s.store.timeline.lasttimelinecountCache q.room = none from hcache, hr]
  simp only [hnone]
  rfl

theorem lastCount_promised_cleared :
    let r : RoomId := ⟨.ascii "!r:x"⟩
    ∃ s q result, q.room = r ∧ .normal 2 ∈ q.before ∧ q.known = true ∧ Promised s q result := by
  obtain ⟨s, q, hrun, hq, _, _, _, _⟩ := scanned_run (P := Bounded) (fun _ _ _ heq => by cases heq)
    ⟨.ascii "!r:x"⟩ ⟨.ascii "@u:x"⟩ (SyncTimeline.event ⟨.ascii "!r:x"⟩ ⟨.ascii "$e"⟩ ⟨.ascii "@u:x"⟩) 1 (by decide)
    fun _ r n heq => by
      cases heq
      decide
  have hc := calls_self s 0 (.scanned q (s.scan q).1 (s.scan q).2)
  have hp := lastCount_promised hrun (.finish hc) (fun heq => by cases hc.symm.trans heq) (calls_setHolder _ 0 _ _) (by rw [hq])
  refine ⟨_, q, _, by rw [hq], ?_, by rw [hq], hp⟩
  rw [hq]
  exact List.mem_cons_self

/-- a call that has scanned the room returns -/
theorem call_returns_scanned : ∃ s s' q q' found result entry, s.calls 0 = some (.scanned q found entry) ∧
    Steps Step s s' ∧ s'.calls 0 = some (.returned q' result) := by
  obtain ⟨s, q, hrun, _⟩ := scanned_run (P := Bounded) (fun _ _ _ heq => by cases heq)
    ⟨.ascii "!r:x"⟩ ⟨.ascii "@u:x"⟩ (SyncTimeline.event ⟨.ascii "!r:x"⟩ ⟨.ascii "$e"⟩ ⟨.ascii "@u:x"⟩) 1 (by decide)
    fun _ r n heq => by
      cases heq
      decide
  have hc := calls_self s 0 (.scanned q (s.scan q).1 (s.scan q).2)
  obtain ⟨s', q', result, hsteps, hreturned⟩ := call_returns hrun hc
  exact ⟨_, s', q, q', _, result, _, hc, hsteps, hreturned⟩

/-- for a room that is not known a call fails, and an event with the last count is not seen -/
theorem lastCount_unknown_and_max :
    (¬ ∀ s s' a i q result, RunsTo (· = .start) Step Bounded s → Step a s s' → Bounded a s →
      s.calls i ≠ some (.returned q result) → s'.calls i = some (.returned q result) → Promised s' q result) ∧
    ¬ ∀ s s' a i q result, Runs (· = .start) Step s → Step a s s' →
      s.calls i ≠ some (.returned q result) → s'.calls i = some (.returned q result) → q.known = true →
      Promised s' q result := by
  constructor
  · intro hall
    have hother : ∀ s, Bounded .other s := fun _ _ _ heq => by cases heq
    have hstart : RunsTo (· = .start) Step Bounded .start := .start rfl
    have hcall := hstart.step (.call (i := 0) ⟨.ascii "!r:x"⟩ ⟨.ascii "@u:x"⟩ rfl) (hother _)
    have hvacant := hcall.step (.vacant (calls_self _ 0 _) rfl rfl) (hother _)
    have hscanned := hvacant.step (.scan (calls_setHolder _ 0 _ _)) (hother _)
    have hp := hall _ _ _ 0 _ _ hscanned (.finish (calls_self _ 0 _)) (hother _)
      (fun heq => by cases heq) (calls_setHolder _ 0 _ _)
    obtain ⟨hok, _⟩ := hp.empty fun e ⟨p, hp⟩ => by cases hp
    cases hok
  · intro hall
    obtain ⟨s, q, hrun, hq, hhas, hr, hcache, hrows⟩ := scanned_run (P := fun _ _ => True) (fun _ => trivial)
      ⟨.ascii "!r:x"⟩ ⟨.ascii "@u:x"⟩ (SyncTimeline.event ⟨.ascii "!r:x"⟩ ⟨.ascii "$e"⟩ ⟨.ascii "@u:x"⟩)
      (u64Max - 1) (by decide) fun _ => trivial
    have hc := calls_self s 0 (.scanned q (s.scan q).1 (s.scan q).2)
    have hp := hall _ _ _ 0 q (s.scan q).1 hrun (.finish hc) (fun heq => by cases hc.symm.trans heq)
      (calls_setHolder _ 0 _ _) (by rw [hq])
    obtain ⟨d, hok, hdue, _⟩ := hp.appended ⟨u64Max, by rw [hq]; exact List.mem_cons_self⟩
    rw [scan_last (by rw [hq]; exact hcache) (by rw [hq]; exact hr) hrows] at hok
    cases hok
    refine hdue u64Max ?_ (by decide)
    rw [hq]
    exact List.mem_cons_self

end LastCount
end Grapevine
