import Grapevine.Sending.Handler

/-!
# Rows of the send queue

A row is read back by its own bytes alone: the first byte of the key tells the kind of destination,
the destination goes up to its separators, all that follows is the id of the event, and an empty value
stands for an event of a timeline.  An id may contain the separator.

* `Request`              a request as it is queued;
* `requestKey_parses`    its row, as both tables have it, parses to it;
* `requestKey_under`     the row is under the prefix of its own destination only;
* `Coded`                the tables have rows of requests only (`Coded.call`, `coded_run`).

Main result: `requests_coded`, for the rows that are written and, over every run of the calls on the
tables, for what the scans and deletions of a destination see.
-/

namespace Grapevine
open Kv

namespace Sending

variable (I : Ids)
variable {rows : Tree Bytes Bytes} {d : Destination} {t : Tables}

/-! ## one request -/

/-- an event for a destination, with the count that its key is made with if it is ephemeral -/
structure Request where
  destination : Destination
  event : SendingEventType
  count : Nat
  wellNamed : WellNamed destination
  notEmpty : event ≠ .edu []

def Request.key (q : Request) : Bytes := requestKey q.destination q.event q.count

/-- the row of the request, in either table -/
def Request.row (q : Request) : Bytes × Bytes := (q.key, q.event.value)

theorem Request.rowOf (q : Request) : RowOf I q.destination q.event q.row :=
  rowOf_request I q.wellNamed q.event q.notEmpty q.count

theorem requestKey_parses (q : Request) :
    parseServercurrentevent I q.row = .ok (q.destination, q.event) := (q.rowOf I).parses

theorem requestKey_under (q : Request) (hd : WellNamed d) :
    getPrefix d <+: q.key ↔ d = q.destination := by
  constructor
  · intro hp
    exact (q.rowOf Ids.bytewise).dest_eq hd hp
  · rintro rfl
    exact List.prefix_append _ _

/-! ## the writes -/

/-- what `queue_requests` writes for a list of requests is one row for each, in order -/
theorem queueRequests_rows (counter : Nat) (requests : List (Destination × SendingEventType))
    (h : ∀ q ∈ requests, WellNamed q.1 ∧ q.2 ≠ .edu []) :
    ∃ qs : List Request, qs.map (fun q => (q.destination, q.event)) = requests ∧
      queueRequests (requestData counter requests) = qs.map (fun q => .queueRow q.key q.event.value) := by
  induction requests generalizing counter with
  | nil => exact ⟨[], rfl, rfl⟩
  | cons q requests ih =>
    obtain ⟨d, event⟩ := q
    obtain ⟨hd, he⟩ := h _ List.mem_cons_self
    have hrest := fun counter => ih counter fun q hq => h q (List.mem_cons_of_mem _ hq)
    cases event with
    | pdu id =>
      obtain ⟨qs, hqs, hwrites⟩ := hrest counter
      refine ⟨⟨d, .pdu id, counter, hd, he⟩ :: qs, ?_, ?_⟩
      · rw [List.map_cons, hqs]
      · rw [List.map_cons, ← hwrites]
        rfl
    | edu json =>
      obtain ⟨qs, hqs, hwrites⟩ := hrest (counter + 1)
      refine ⟨⟨d, .edu json, counter + 1, hd, he⟩ :: qs, ?_, ?_⟩
      · rw [List.map_cons, hqs]
      · rw [List.map_cons, ← hwrites]
        rfl

theorem mem_markAsActive (events : List (SendingEventType × Bytes)) (key value : Bytes) :
    .activeRow key value ∈ markAsActive events ↔ ∃ e ∈ events, key = e.2 ∧ value = e.1.value := by
  induction events with
  | nil => simp [markAsActive]
  | cons e events ih =>
    obtain ⟨event, k⟩ := e
    simp only [markAsActive, List.mem_cons, reduceCtorEq, false_or, ih, exists_eq_or_imp, Write.activeRow.injEq]

/-- the requests, with the keys that `queue_requests` returned for them -/
def marked (qs : List Request) : List (SendingEventType × Bytes) := qs.map (fun q => (q.event, q.key))

theorem markAsActive_rows (qs : List Request) (key value : Bytes) :
    .activeRow key value ∈ markAsActive (marked qs) ↔ ∃ q ∈ qs, (key, value) = q.row := by
  rw [mem_markAsActive]
  unfold marked
  simp only [List.mem_map, exists_exists_and_eq_and, Request.row, Prod.mk.injEq]

/-! ## runs of the calls -/

/-- a call on the tables -/
inductive Call where
  | queueRequests (qs : List Request)
  | markAsActive (qs : List Request)
  | deleteActiveRequest (key : Bytes)
  | deleteAllActiveRequestsFor (d : Destination)

def Call.writes (t : Tables) : Call → List Write
  | queueRequests qs => qs.map (fun q => .queueRow q.key q.event.value)
  | markAsActive qs => Sending.markAsActive (marked qs)
  | deleteActiveRequest key => [.deleteRow key]
  | deleteAllActiveRequestsFor d => t.deleteAllActiveRequestsFor d

def Call.apply (t : Tables) (c : Call) : Tables := t.writeAll (c.writes t)

def runCalls (cs : List Call) : Tables := cs.foldl Call.apply .empty

/-- every row is the row of a request -/
structure Coded (t : Tables) : Prop where
  active : ∀ row ∈ t.servercurrentevent.rows, ∃ q : Request, row = q.row
  queued : ∀ row ∈ t.servernameevent.rows, ∃ q : Request, row = q.row

/-- a write that puts rows of requests only -/
def Write.Coded : Write → Prop
  | .queueRow key value => ∃ q : Request, (key, value) = q.row
  | .activeRow key value => ∃ q : Request, (key, value) = q.row
  | .unqueueRow _ => True
  | .deleteRow _ => True

theorem coded_empty : Coded .empty :=
  ⟨fun _ h => absurd h List.not_mem_nil, fun _ h => absurd h List.not_mem_nil⟩

theorem coded_insert (h : ∀ row ∈ rows.rows, ∃ q : Request, row = q.row) {key value : Bytes}
    (hnew : ∃ q : Request, (key, value) = q.row) :
    ∀ row ∈ (rows.insert key value).rows, ∃ q : Request, row = q.row := by
  intro row hrow
  rcases (Tree.mem_insert _ _ _ _).mp hrow with rfl | ⟨hold, -⟩
  · exact hnew
  · exact h row hold

theorem coded_remove (h : ∀ row ∈ rows.rows, ∃ q : Request, row = q.row) (key : Bytes) :
    ∀ row ∈ (rows.remove key).rows, ∃ q : Request, row = q.row :=
  fun row hrow => h row ((Tree.mem_remove _ _ _).mp hrow).1

theorem Coded.write (h : Coded t) {w : Write} (hw : w.Coded) : Coded (t.write w) := by
  cases w with
  | queueRow key value => exact ⟨h.active, coded_insert h.queued hw⟩
  | unqueueRow key => exact ⟨h.active, coded_remove h.queued key⟩
  | activeRow key value => exact ⟨coded_insert h.active hw, h.queued⟩
  | deleteRow key => exact ⟨coded_remove h.active key, h.queued⟩

theorem Coded.writeAll (h : Coded t) {ws : List Write} (hws : ∀ w ∈ ws, w.Coded) :
    Coded (t.writeAll ws) := by
  induction ws generalizing t with
  | nil => exact h
  | cons w ws ih =>
    exact ih (h.write (hws w List.mem_cons_self)) fun w' hw' => hws w' (List.mem_cons_of_mem _ hw')

theorem markAsActive_coded (qs : List Request) : ∀ w ∈ markAsActive (marked qs), w.Coded := by
  intro w hw
  cases w with
  | queueRow key value =>
    induction qs with
    | nil => exact absurd hw List.not_mem_nil
    | cons q qs ih =>
      simp only [marked, List.map_cons, markAsActive, List.mem_cons, reduceCtorEq, false_or] at hw
      exact ih hw
  | unqueueRow key => trivial
  | activeRow key value =>
    obtain ⟨q, -, hrow⟩ := (markAsActive_rows qs key value).mp hw
    exact ⟨q, hrow⟩
  | deleteRow key => trivial

theorem Coded.call {t : Tables} (h : Coded t) (c : Call) : Coded (c.apply t) := by
  refine h.writeAll fun w hw => ?_
  cases c with
  | queueRequests qs =>
    obtain ⟨q, -, rfl⟩ := List.mem_map.mp hw
    exact ⟨q, rfl⟩
  | markAsActive qs => exact markAsActive_coded qs w hw
  | deleteActiveRequest key =>
    rw [List.mem_singleton.mp hw]
    trivial
  | deleteAllActiveRequestsFor d =>
    obtain ⟨row, -, rfl⟩ := List.mem_map.mp hw
    trivial

theorem coded_run (cs : List Call) : Coded (runCalls cs) := by
  suffices hfrom : ∀ t, Coded t → Coded (cs.foldl Call.apply t) from hfrom .empty coded_empty
  induction cs with
  | nil => exact fun t h => h
  | cons c cs ih => exact fun t h => ih (c.apply t) (h.call c)

/-! ## what a destination sees -/

/-- the row parses to an event for the destination -/
def RowFor (d : Destination) (row : Bytes × Bytes) : Prop :=
  ∃ event, parseServercurrentevent I row = .ok (d, event)

theorem Request.rowFor_iff (q : Request) (d : Destination) : RowFor I d q.row ↔ d = q.destination := by
  unfold RowFor
  rw [requestKey_parses I q]
  constructor
  · rintro ⟨event, he⟩
    exact (congrArg Prod.fst (Except.ok.inj he)).symm
  · rintro rfl
    exact ⟨q.event, rfl⟩

/-- the scan of a destination has its own rows, all of them and no others -/
theorem mem_scan_destination (h : ∀ row ∈ rows.rows, ∃ q : Request, row = q.row) (hd : WellNamed d)
    (row : Bytes × Bytes) :
    row ∈ rows.scanPrefix (getPrefix d) ↔ row ∈ rows.rows ∧ RowFor I d row := by
  rw [rows.mem_scanPrefix]
  refine and_congr_right fun hrow => ?_
  obtain ⟨q, rfl⟩ := h row hrow
  rw [q.rowFor_iff]
  exact requestKey_under q hd

/-- the deletion takes its own rows away, all of them and no others -/
theorem mem_delete_destination (h : Coded t) (hd : WellNamed d) (row : Bytes × Bytes) :
    row ∈ ((Call.deleteAllActiveRequestsFor d).apply t).servercurrentevent.rows ↔
      row ∈ t.servercurrentevent.rows ∧ ¬ RowFor I d row := by
  have hkeys : t.deleteAllActiveRequestsFor d
      = ((t.servercurrentevent.scanPrefix (getPrefix d)).map Prod.fst).map .deleteRow := by
    rw [List.map_map]
    rfl
  show row ∈ (t.writeAll (t.deleteAllActiveRequestsFor d)).servercurrentevent.rows ↔ _
  rw [hkeys, (t.writeAll_deletes _).2 row]
  refine and_congr_right fun hrow => not_congr ?_
  rw [List.mem_map]
  constructor
  · rintro ⟨other, hother, hkey⟩
    obtain ⟨hin, hfor⟩ := (mem_scan_destination I h.active hd other).mp hother
    obtain ⟨key, value⟩ := row
    obtain ⟨key', value'⟩ := other
    change key' = key at hkey
    subst hkey
    rw [t.servercurrentevent.eq_of_mem hrow hin]
    exact hfor
  · intro hfor
    exact ⟨row, (mem_scan_destination I h.active hd row).mpr ⟨hrow, hfor⟩, rfl⟩

/-- **The rows of the send queue decode to what was queued, and each destination sees its own.** -/
theorem requests_coded :
    (∀ counter requests, (∀ q ∈ requests, WellNamed q.1 ∧ q.2 ≠ .edu []) →
      ∃ qs : List Request, qs.map (fun q => (q.destination, q.event)) = requests ∧
        queueRequests (requestData counter requests) = qs.map (fun q => .queueRow q.key q.event.value) ∧
        ∀ q ∈ qs, parseServercurrentevent I (q.key, q.event.value) = .ok (q.destination, q.event)) ∧
    (∀ (qs : List Request) key value, .activeRow key value ∈ markAsActive (marked qs) →
      ∃ q ∈ qs, key = q.key ∧ parseServercurrentevent I (key, value) = .ok (q.destination, q.event)) ∧
    (∀ (q : Request) d, WellNamed d → d ≠ q.destination → ¬ getPrefix d <+: q.key) ∧
    (∀ (cs : List Call) d, WellNamed d → ∀ row,
      (row ∈ (runCalls cs).servernameevent.scanPrefix (getPrefix d) ↔
        row ∈ (runCalls cs).servernameevent.rows ∧ RowFor I d row) ∧
      (row ∈ (runCalls cs).servercurrentevent.scanPrefix (getPrefix d) ↔
        row ∈ (runCalls cs).servercurrentevent.rows ∧ RowFor I d row) ∧
      (row ∈ (runCalls (cs ++ [.deleteAllActiveRequestsFor d])).servercurrentevent.rows ↔
        row ∈ (runCalls cs).servercurrentevent.rows ∧ ¬ RowFor I d row)) := by
  refine ⟨fun counter requests h => ?_, fun qs key value hw => ?_, fun q d hd hne hp => ?_, fun cs d hd row => ?_⟩
  · obtain ⟨qs, hqs, hwrites⟩ := queueRequests_rows counter requests h
    exact ⟨qs, hqs, hwrites, fun q _ => requestKey_parses I q⟩
  · obtain ⟨q, hq, hrow⟩ := (markAsActive_rows qs key value).mp hw
    rw [hrow]
    exact ⟨q, hq, congrArg Prod.fst hrow, requestKey_parses I q⟩
  · exact hne ((requestKey_under q hd).mp hp)
  · have hcoded := coded_run cs
    refine ⟨mem_scan_destination I hcoded.queued hd row, mem_scan_destination I hcoded.active hd row, ?_⟩
    unfold runCalls
    rw [List.foldl_append]
    exact mem_delete_destination I hcoded hd row

/-- an event with separators in its id, for a pusher -/
def separatorsOnly : Request :=
  ⟨.push ⟨.ascii "@u:x"⟩ "key", .pdu (List.replicate 16 sep), 0, trivial, by simp⟩

theorem separatorsOnly_coded :
    (∃ q ∈ [separatorsOnly], separatorsOnly.key = q.key ∧
      parseServercurrentevent .bytewise (separatorsOnly.key, []) = .ok (q.destination, q.event)) ∧
    ¬ getPrefix (.normal ⟨.ascii "x"⟩) <+: separatorsOnly.key := by
  obtain ⟨-, hactive, hapart, -⟩ := requests_coded .bytewise
  refine ⟨hactive [separatorsOnly] separatorsOnly.key [] List.mem_cons_self, hapart separatorsOnly _ ?_ (by decide)⟩
  exact ⟨by decide, by decide⟩

end Sending
end Grapevine
