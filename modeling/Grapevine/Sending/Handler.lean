import Grapevine.Sending.Requests

/-!
# The sending handler

One task owns the status of the destinations and the pending transactions.  It reacts to messages
(`handleReceiver`) and to the responses of its transactions (`handleResponse`), and after a
restart it takes up the active rows again (`restart`).

A `Step` is one reaction, a call that queues requests, a transaction that returns, or a crash,
which may come between any two writes.  Clocks, ephemeral events and results are arbitrary.  A
`Run` is what the program does from an empty database on, with all its restarts.
-/

namespace Grapevine
open Kv

namespace Sending

variable (I : Ids)

/-! ## the handler -/

inductive TransactionStatus where
  | running
  /-- number of times failed, time of last failure -/
  | failed (tries time : Nat)
  /-- number of times failed -/
  | retrying (tries : Nat)

abbrev TransactionStatusMap := Destination → Option TransactionStatus

structure RequestData where
  destination : Destination
  eventType : SendingEventType
  key : Bytes

structure HandlerInputs where
  destination : Destination
  events : List SendingEventType
  /-- the keys of the rows that the events were read from; the code does not keep them -/
  keys : List Bytes

/-- what a reaction does: writes, the new statuses, and a transaction to start -/
structure Effect where
  writes : List Write
  status : TransactionStatusMap
  next : Option HandlerInputs

/-- the status of a destination whose transaction has failed.  A failure of a request that was not
even running is only logged -/
def markFailed (now : Nat) : TransactionStatus → TransactionStatus
  | .running => .failed 1 now
  | .retrying n => .failed (n + 1) now
  | .failed tries time => .failed tries time

def handleResponse (t : Tables) (status : TransactionStatusMap) (now : Nat) (d : Destination)
    (ok : Bool) : Effect :=
  if ok then
    let deletes := t.deleteAllActiveRequestsFor d
    -- events that have been added since starting the last request
    let newEvents := ((t.writeAll deletes).queuedRequests I d).take 30
    if newEvents.isEmpty then ⟨deletes, Function.update status d none, none⟩
    else ⟨deletes ++ markAsActive newEvents, status,
      some ⟨d, newEvents.map Prod.fst, newEvents.map Prod.snd⟩⟩
  else ⟨[], Function.update status d ((status d).map (markFailed now)), none⟩

/-- exponential backoff, up to a day -/
def minElapsedDuration (tries : Nat) : Nat := min (30 * tries * tries) (60 * 60 * 24)

/-- the ephemeral events that go with a new transaction to a server -/
def withEdus (d : Destination) (edus : Option (List Bytes)) : List SendingEventType :=
  match d, edus with
  | .normal _, some edus => edus.map .edu
  | _, _ => []

/-- `select_events`; `edus` is what `select_edus` finds, if it does not fail -/
def selectEvents (t : Tables) (status : TransactionStatusMap) (now : Nat)
    (edus : Option (List Bytes)) (d : Destination) (newEvents : List (SendingEventType × Bytes)) :
    Effect :=
  match status d with
  | some (.failed tries time) =>
    if now - time < minElapsedDuration tries then ⟨[], status, none⟩
    else
      -- we retry the previous transaction
      let events := t.activeRequestsFor I d
      ⟨[], Function.update status d (some (.retrying tries)),
        some ⟨d, events.map Prod.fst, events.map Prod.snd⟩⟩
  | some .running => ⟨[], status, none⟩
  | some (.retrying _) => ⟨[], status, none⟩
  | none => ⟨markAsActive newEvents, Function.update status d (some .running),
      some ⟨d, newEvents.map Prod.fst ++ withEdus d edus, newEvents.map Prod.snd⟩⟩

def handleReceiver (t : Tables) (status : TransactionStatusMap) (now : Nat)
    (edus : Option (List Bytes)) (data : RequestData) : Effect :=
  selectEvents I t status now edus data.destination [(data.eventType, data.key)]

/-! ## start-up -/

/-- the transactions that are taken up again, and the rows that are dropped -/
structure InitialTransactions where
  destinations : List Destination
  events : Destination → List (SendingEventType × Bytes)
  dropped : List Bytes

namespace InitialTransactions

def empty : InitialTransactions := ⟨[], fun _ => [], []⟩

/-- one active row; what does not parse is skipped -/
def add (x : InitialTransactions) (row : Bytes × Bytes) : InitialTransactions :=
  match parseServercurrentevent I row with
  | .error _ => x
  | .ok (d, event) =>
    let destinations := if d ∈ x.destinations then x.destinations else x.destinations ++ [d]
    if (x.events d).length > 30 then
      -- dropping some current events
      { x with destinations := destinations, dropped := x.dropped ++ [row.1] }
    else
      { x with
        destinations := destinations
        events := Function.update x.events d (x.events d ++ [(event, row.1)]) }

def load (rows : List (Bytes × Bytes)) : InitialTransactions := rows.foldl (add I) empty

end InitialTransactions

structure Sender where
  tables : Tables
  status : TransactionStatusMap
  /-- the transactions, with their results once they have returned -/
  futures : List (HandlerInputs × Option Bool)
  /-- messages of queued requests that have not reached the channel yet -/
  unsent : List RequestData
  channel : List RequestData
  counter : Nat

/-- the handler after a start on these tables -/
def restart (t : Tables) (counter : Nat) : Sender :=
  let x := InitialTransactions.load I t.servercurrentevent.rows
  { tables := t.writeAll (x.dropped.map .deleteRow)
    status := fun d => if d ∈ x.destinations then some .running else none
    futures := x.destinations.map
      (fun d => (⟨d, (x.events d).map Prod.fst, (x.events d).map Prod.snd⟩, none))
    unsent := []
    channel := []
    counter := counter }

namespace Sender

def perform (s : Sender) (e : Effect) : Sender :=
  { s with
    tables := s.tables.writeAll e.writes
    status := e.status
    futures := s.futures ++ e.next.toList.map (fun f => (f, none)) }

end Sender

/-- the messages of requests, with a count of its own for each ephemeral event -/
def requestData (counter : Nat) : List (Destination × SendingEventType) → List RequestData
  | [] => []
  | (d, .pdu id) :: requests =>
    ⟨d, .pdu id, requestKey d (.pdu id) counter⟩ :: requestData counter requests
  | (d, .edu json) :: requests =>
    ⟨d, .edu json, requestKey d (.edu json) (counter + 1)⟩ :: requestData (counter + 1) requests

def countEdus (requests : List (Destination × SendingEventType)) : Nat :=
  requests.countP (fun q => match q.2 with | .edu _ => true | .pdu _ => false)

def queueRequests (data : List RequestData) : List Write :=
  data.map (fun m => .queueRow m.key m.eventType.value)

/-! ## steps -/

inductive Event where
  | queued (keys : List Bytes)
  | received (m : RequestData)
  | finished (f : HandlerInputs) (ok : Bool)
  /-- the keys of requests that were queued when the crash came -/
  | crashed (keys : List Bytes)
  | quiet

/-- the writes of a reaction that the handler may be at -/
inductive Reaction (s : Sender) : List Write → Prop
  | receive {m : RequestData} {rest : List RequestData} (now : Nat) (edus : Option (List Bytes)) :
      s.channel = m :: rest → Reaction s (handleReceiver I s.tables s.status now edus m).writes
  | respond {f : HandlerInputs} {ok : Bool} (now : Nat) : (f, some ok) ∈ s.futures →
      Reaction s (handleResponse I s.tables s.status now f.destination ok).writes

inductive Step : Sender → Event → Sender → Prop
  | queue {s : Sender} (requests : List (Destination × SendingEventType)) :
      (∀ q ∈ requests, WellNamed q.1 ∧ q.2 ≠ .edu []) →
      Step s (.queued ((requestData s.counter requests).map RequestData.key)) { s with
        tables := s.tables.writeAll (queueRequests (requestData s.counter requests))
        unsent := s.unsent ++ requestData s.counter requests
        counter := s.counter + countEdus requests }
  /-- the messages reach the channel in any order -/
  | send {s : Sender} {l₁ l₂ : List RequestData} {m : RequestData} : s.unsent = l₁ ++ m :: l₂ →
      Step s .quiet { s with unsent := l₁ ++ l₂, channel := s.channel ++ [m] }
  | receive {s : Sender} {m : RequestData} {rest : List RequestData} (now : Nat)
      (edus : Option (List Bytes)) : s.channel = m :: rest →
      Step s (.received m) (({ s with channel := rest } : Sender).perform
        (handleReceiver I s.tables s.status now edus m))
  | finish {s : Sender} {l₁ l₂ : List (HandlerInputs × Option Bool)} {f : HandlerInputs} (ok : Bool) :
      s.futures = l₁ ++ (f, none) :: l₂ →
      Step s (.finished f ok) { s with futures := l₁ ++ (f, some ok) :: l₂ }
  | respond {s : Sender} {l₁ l₂ : List (HandlerInputs × Option Bool)} {f : HandlerInputs} {ok : Bool}
      (now : Nat) : s.futures = l₁ ++ (f, some ok) :: l₂ →
      Step s .quiet (({ s with futures := l₁ ++ l₂ } : Sender).perform
        (handleResponse I s.tables s.status now f.destination ok))
  /-- other parts of the program draw counts, too -/
  | draw {s : Sender} (n : Nat) : Step s .quiet { s with counter := s.counter + n }
  | crash {s : Sender} {ws : List Write} (n : Nat) : Reaction I s ws →
      Step s (.crashed []) (restart I (s.tables.writeAll (ws.take n)) s.counter)
  | crashQueueing {s : Sender} (requests : List (Destination × SendingEventType)) (n : Nat) :
      (∀ q ∈ requests, WellNamed q.1 ∧ q.2 ≠ .edu []) →
      Step s (.crashed (((requestData s.counter requests).take n).map RequestData.key))
        (restart I (s.tables.writeAll (queueRequests ((requestData s.counter requests).take n)))
          (s.counter + countEdus requests))

/-- a run from the first start on, with its events, the last one first -/
inductive Run : List Event → Sender → Prop
  | start (counter : Nat) : Run [] (restart I .empty counter)
  | step {es : List Event} {s s' : Sender} {e : Event} : Run es s → Step I s e s' → Run (e :: es) s'

end Sending
end Grapevine
