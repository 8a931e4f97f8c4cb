import Grapevine.Lib.Faults
import Grapevine.Sending.Flights

/-!
# Selections that fail

`select_events` sets the status of a destination first, and then writes: the rows of the new events,
and the count of the ephemeral events of a server.  Any of these writes may fail; the handler logs
the error and starts no transaction.

* `Store.selectEvents`   the code, with the writes that fail given by a plan;
* `Spared`               the condition: the destination has a status, or no write fails;
* `FaultyRun`            runs of the handler in which the writes of selections may fail.  The writes
                         of the responses do not.

Main result: `failed_selection_iff`.  Where the first write for a destination without a status fails,
the status says that a transaction is running, and none is.
-/

namespace Grapevine
open Kv Kv.Comp

namespace Sending

variable (I : Ids)

/-! ## the code -/

/-- what a selection writes -/
inductive Op where
  | row (w : Write)
  | educount (server : ServerName) (last : Nat)

/-- what the handler has at hand: its tables, and the statuses -/
structure Store where
  tables : Tables
  servernameEducount : Tree Bytes Nat
  status : TransactionStatusMap

inductive SelectedEvents where
  | retries (events : List SendingEventType) (keys : List Bytes)
  | new (events : List SendingEventType) (keys : List Bytes)
  | none

/-- what `select_edus` returns, if it does not fail: events, and the count of the last one -/
abbrev SelectedEdus := Option (List Bytes × Nat)

/-- the write of `set_latest_educount` -/
def setLatestEducount : Destination → SelectedEdus → List Op
  | .normal server, some (_, last) => [.educount server last]
  | _, _ => []

/-- the writes for a destination without a status -/
def selectOps (d : Destination) (edus : SelectedEdus) (newEvents : List (SendingEventType × Bytes)) :
    List Op :=
  (markAsActive newEvents).map .row ++ setLatestEducount d edus

namespace Store

def write (s : Store) : Op → Store
  | .row w => { s with tables := s.tables.write w }
  | .educount server last =>
    { s with servernameEducount := s.servernameEducount.insert server.bytes last }

def setStatus (s : Store) (d : Destination) (st : TransactionStatus) : Store :=
  { s with status := Function.update s.status d (some st) }

variable (fails : Nat → Op → Bool) (e : Error)

/-- the writes of a new transaction -/
def selectNew (edus : SelectedEdus) (d : Destination) (newEvents : List (SendingEventType × Bytes)) :
    Comp (Store × Nat) Error SelectedEvents := do
  attempts fails e write ((markAsActive newEvents).map .row)
  attempts fails e write (setLatestEducount d edus)
  pure (.new (newEvents.map Prod.fst ++ withEdus d (edus.map Prod.fst)) (newEvents.map Prod.snd))

/-- the branches of `select_events`, by the status that it finds -/
def selectWith (now : Nat) (edus : SelectedEdus) (d : Destination)
    (newEvents : List (SendingEventType × Bytes)) :
    Option TransactionStatus → Comp (Store × Nat) Error SelectedEvents
  | some .running => pure .none
  | some (.retrying _) => pure .none
  | some (.failed tries time) =>
    if now - time < minElapsedDuration tries then pure .none
    else do
      modify (fun s => (s.1.setStatus d (.retrying tries), s.2))
      let events ← gets (fun s => s.1.tables.activeRequestsFor I d)
      pure (.retries (events.map Prod.fst) (events.map Prod.snd))
  | none => do
    modify (fun s => (s.1.setStatus d .running, s.2))
    selectNew fails e edus d newEvents

/-- `select_events`, whose writes fail as the plan says, each with the error `e` -/
def selectEvents (now : Nat) (edus : SelectedEdus) (d : Destination)
    (newEvents : List (SendingEventType × Bytes)) : Comp Store Error SelectedEvents :=
  fromFirst (do
    let st ← gets (fun s => s.1.status d)
    selectWith I fails e now edus d newEvents st)

end Store

/-- `handle_receiver`: an error is only logged -/
def received (m : RequestData) : Except Error SelectedEvents → Option HandlerInputs
  | .ok (.retries events keys) => some ⟨m.destination, events, keys⟩
  | .ok (.new events keys) => some ⟨m.destination, events, keys⟩
  | .ok .none => none
  | .error _ => none

/-! ## one selection -/

namespace Store

theorem foldl_write_status (ops : List Op) (s : Store) : (ops.foldl write s).status = s.status := by
  induction ops generalizing s with
  | nil => rfl
  | cons op ops ih =>
    rw [List.foldl_cons, ih]
    cases op <;> rfl

theorem foldl_write_rows (ws : List Write) (s : Store) :
    ((ws.map Op.row).foldl write s).tables = s.tables.writeAll ws := by
  induction ws generalizing s with
  | nil => rfl
  | cons w ws ih => exact ih _

theorem foldl_write_educount (d : Destination) (edus : SelectedEdus) (s : Store) :
    ((setLatestEducount d edus).foldl write s).tables = s.tables := by
  unfold setLatestEducount
  split <;> rfl

section
variable {fails : Nat → Op → Bool} (e : Error) {s : Store} (edus : SelectedEdus) (d : Destination)
  (newEvents : List (SendingEventType × Bytes))

/-- the writes of a selection, one after the other -/
theorem selectNew_eq : selectNew fails e edus d newEvents = (do
    attempts fails e write (selectOps d edus newEvents)
    pure (.new (newEvents.map Prod.fst ++ withEdus d (edus.map Prod.fst)) (newEvents.map Prod.snd))) := by
  unfold selectNew selectOps
  rw [attempts_append, bind_assoc]

/-- no write fails: the store is written, and the events are sent -/
theorem selectNew_spared (h : Spares fails 0 (selectOps d edus newEvents)) :
    fromFirst (selectNew fails e edus d newEvents) s =
      (.ok (.new (newEvents.map Prod.fst ++ withEdus d (edus.map Prod.fst)) (newEvents.map Prod.snd)),
        (selectOps d edus newEvents).foldl write s) := by
  unfold fromFirst
  rw [selectNew_eq, bind_ok (attempts_spared fails e write h)]
  rfl

/-- a write fails: those before it are in the store -/
theorem selectNew_failed (h : ¬ Spares fails 0 (selectOps d edus newEvents)) :
    ∃ k, fromFirst (selectNew fails e edus d newEvents) s =
      (.error e, ((selectOps d edus newEvents).take k).foldl write s) := by
  obtain ⟨k, hk⟩ := @attempts_failed _ _ _ fails e write _ s 0 h
  refine ⟨k, ?_⟩
  unfold fromFirst
  rw [selectNew_eq, bind_error hk]

variable (fails) (now : Nat)

/-- a destination with a status: nothing is written, and nothing can fail -/
theorem selectEvents_of_some {st : TransactionStatus} (h : s.status d = some st) :
    ∃ selected, selectEvents I fails e now edus d newEvents s = (.ok selected,
        { s with status :=
          (Sending.selectEvents I s.tables s.status now (edus.map Prod.fst) d newEvents).status }) ∧
      (Sending.selectEvents I s.tables s.status now (edus.map Prod.fst) d newEvents).writes = [] ∧
      ∀ m, m.destination = d → received m (.ok selected) =
        (Sending.selectEvents I s.tables s.status now (edus.map Prod.fst) d newEvents).next := by
  have hrun : selectEvents I fails e now edus d newEvents s
      = fromFirst (selectWith I fails e now edus d newEvents (some st)) s := by
    rw [← h]
    rfl
  rw [hrun]
  unfold Sending.selectEvents
  rw [h]
  cases st with
  | running => exact ⟨.none, rfl, rfl, fun _ _ => rfl⟩
  | retrying tries => exact ⟨.none, rfl, rfl, fun _ _ => rfl⟩
  | failed tries time =>
    unfold selectWith
    by_cases helapsed : now - time < minElapsedDuration tries
    · simp only [if_pos helapsed]
      exact ⟨.none, rfl, trivial, fun _ _ => rfl⟩
    · simp only [if_neg helapsed]
      exact ⟨_, rfl, trivial, fun m hm => by rw [← hm]; rfl⟩

theorem selectEvents_of_none (h : s.status d = none) :
    selectEvents I fails e now edus d newEvents s
      = fromFirst (selectNew fails e edus d newEvents) (s.setStatus d .running) := by
  show fromFirst (selectWith I fails e now edus d newEvents (s.status d)) s = _
  rw [h]
  rfl

/-- **a failed selection leaves the statuses as they were exactly where** the destination has one, or
none of its writes fails -/
theorem selectEvents_status_iff :
    (∀ e' s', selectEvents I fails e now edus d newEvents s = (.error e', s') → s'.status = s.status) ↔
      s.status d ≠ none ∨ Spares fails 0 (selectOps d edus newEvents) := by
  refine ⟨fun h => ?_, fun h e' s' hrun => ?_⟩
  · by_contra hnot
    obtain ⟨hnone, hfails⟩ := not_or.mp hnot
    obtain ⟨k, hk⟩ := @selectNew_failed fails e (s.setStatus d .running) edus d newEvents hfails
    have hstatus := h e _ ((selectEvents_of_none I fails e edus d newEvents now (not_not.mp hnone)).trans hk)
    rw [foldl_write_status] at hstatus
    have hd : some TransactionStatus.running = s.status d := by
      rw [← congrFun hstatus d]
      exact (Function.update_self d _ s.status).symm
    rw [not_not.mp hnone] at hd
    cases hd
  · cases hs : s.status d with
    | some st =>
      obtain ⟨selected, hok, -⟩ := selectEvents_of_some I fails e edus d newEvents now hs
      rw [hok] at hrun
      cases hrun
    | none =>
      have hspared := h.resolve_left (not_not.mpr hs)
      rw [selectEvents_of_none I fails e edus d newEvents now hs, selectNew_spared e edus d newEvents hspared]
        at hrun
      cases hrun

end

end Store

/-! ## runs -/

/-- the handler, and the counts of the ephemeral events -/
structure Selector where
  sender : Sender
  servernameEducount : Tree Bytes Nat

/-- what a step meets: the message of a selection, with what `select_edus` returns, the clock, and the
plan of failures -/
inductive Cause where
  | received (m : RequestData) (edus : SelectedEdus) (now : Nat) (fails : Nat → Op → Bool) (e : Error)
  | other

namespace Selector

/-- the reaction to a message, whose writes fail as the plan says -/
def receive (x : Selector) (m : RequestData) (rest : List RequestData) (edus : SelectedEdus) (now : Nat)
    (fails : Nat → Op → Bool) (e : Error) : Selector :=
  let result := Store.selectEvents I fails e now edus m.destination [(m.eventType, m.key)]
    ⟨x.sender.tables, x.servernameEducount, x.sender.status⟩
  { sender := { x.sender with
      tables := result.2.tables
      status := result.2.status
      channel := rest
      futures := x.sender.futures ++ (Sending.received m result.1).toList.map (fun f => (f, none)) }
    servernameEducount := result.2.servernameEducount }

/-- every destination that is running or retrying has a pending transaction -/
def Live (x : Selector) : Prop :=
  ∀ d, busy (x.sender.status d) = true → ∃ f ∈ x.sender.inFlight, f.destination = d

end Selector

/-- the destination has a status, or none of the writes of its selection fails -/
def Spared (x : Selector) : Cause → Prop
  | .received m edus _ fails _ => x.sender.status m.destination ≠ none ∨
      Spares fails 0 (selectOps m.destination edus [(m.eventType, m.key)])
  | .other => True

inductive FaultyStep : Selector → Cause → Selector → Prop
  | receive {x : Selector} {m : RequestData} {rest : List RequestData} (edus : SelectedEdus) (now : Nat)
      (fails : Nat → Op → Bool) (e : Error) : x.sender.channel = m :: rest →
      FaultyStep x (.received m edus now fails e) (x.receive I m rest edus now fails e)
  | other {x : Selector} {s' : Sender} {event : Event} : Step I x.sender event s' →
      (∀ m, event ≠ .received m) → FaultyStep x .other { x with sender := s' }

/-- a run from the first start on, with the states before its steps and what the steps met, the last
one first -/
inductive FaultyRun : List (Selector × Cause) → Selector → Prop
  | start (counter : Nat) : FaultyRun [] ⟨restart I .empty counter, .empty⟩
  | step {cs : List (Selector × Cause)} {x x' : Selector} {c : Cause} : FaultyRun cs x →
      FaultyStep I x c x' → FaultyRun ((x, c) :: cs) x'

section
variable {I} {x x' : Selector}
variable {cs : List (Selector × Cause)} {c : Cause}

/-- a reaction whose writes are spared is the ordinary one -/
theorem Selector.receive_spared {m : RequestData} {rest : List RequestData} {edus : SelectedEdus} {now : Nat}
    {fails : Nat → Op → Bool} {e : Error} (h : Spared x (.received m edus now fails e)) :
    (x.receive I m rest edus now fails e).sender = ({ x.sender with channel := rest } : Sender).perform
      (handleReceiver I x.sender.tables x.sender.status now (edus.map Prod.fst) m) := by
  unfold Selector.receive handleReceiver
  cases hs : x.sender.status m.destination with
  | some st =>
    obtain ⟨selected, hok, hwrites, hnext⟩ := @Store.selectEvents_of_some I fails e
      ⟨x.sender.tables, x.servernameEducount, x.sender.status⟩ edus m.destination [(m.eventType, m.key)]
      now st hs
    rw [hok]
    dsimp only
    rw [hnext m rfl]
    unfold Sender.perform
    rw [hwrites]
    rfl
  | none =>
    have hspared := h.resolve_left (not_not.mpr hs)
    rw [@Store.selectEvents_of_none I fails e
        ⟨x.sender.tables, x.servernameEducount, x.sender.status⟩ edus m.destination [(m.eventType, m.key)]
        now hs,
      Store.selectNew_spared e edus m.destination [(m.eventType, m.key)] hspared]
    dsimp only
    rw [selectOps, List.foldl_append, Store.foldl_write_status, Store.foldl_write_educount,
      Store.foldl_write_rows, Store.foldl_write_status]
    unfold Sending.selectEvents Sender.perform
    rw [hs]
    rfl

/-- a reaction with a write that fails leaves the destination running, and starts nothing -/
theorem Selector.receive_failed {m : RequestData} {rest : List RequestData} {edus : SelectedEdus} {now : Nat}
    {fails : Nat → Op → Bool} {e : Error} (h : ¬ Spared x (.received m edus now fails e)) :
    (x.receive I m rest edus now fails e).sender.status m.destination = some .running ∧
      (x.receive I m rest edus now fails e).sender.inFlight = x.sender.inFlight := by
  obtain ⟨hnone, hfails⟩ := not_or.mp h
  have hrun := @Store.selectEvents_of_none I fails e
    ⟨x.sender.tables, x.servernameEducount, x.sender.status⟩ edus m.destination [(m.eventType, m.key)]
    now (not_not.mp hnone)
  obtain ⟨k, hk⟩ := @Store.selectNew_failed fails e
    (Store.setStatus ⟨x.sender.tables, x.servernameEducount, x.sender.status⟩ m.destination .running)
    edus m.destination [(m.eventType, m.key)] hfails
  rw [hk] at hrun
  unfold Selector.receive Sender.inFlight
  rw [hrun]
  dsimp only
  refine ⟨?_, congrArg (List.map Prod.fst) (List.append_nil _)⟩
  rw [Store.foldl_write_status]
  exact Function.update_self _ _ _

theorem Inv.live (h : Inv I x.sender) : x.Live := by
  intro d hb
  have hone := h.single d
  rw [hb] at hone
  obtain ⟨f, hf, hd⟩ := List.countP_pos_iff.mp (hone ▸ Nat.one_pos : 0 < pending x.sender.inFlight d)
  exact ⟨f, hf, of_decide_eq_true hd⟩

theorem FaultyStep.inv (h : Inv I x.sender) (hstep : FaultyStep I x c x') (hc : Spared x c) :
    Inv I x'.sender := by
  cases hstep with
  | receive edus now fails e hch =>
    rw [Selector.receive_spared hc]
    exact step_inv h (Step.receive now (edus.map Prod.fst) hch)
  | other hstep _ => exact step_inv h hstep

/-- where a write fails, the destination is blocked -/
theorem FaultyStep.blocks (h : Inv I x.sender) (hstep : FaultyStep I x c x') (hc : ¬ Spared x c) :
    ¬ x'.Live := by
  intro hlive
  cases hstep with
  | @receive m rest edus now fails e hch =>
    obtain ⟨hstatus, hflight⟩ :=
      @Selector.receive_failed I _ m rest _ _ _ _ hc
    obtain ⟨f, hf, hd⟩ := hlive m.destination (by rw [hstatus]; rfl)
    rw [hflight] at hf
    refine ne_of_not_pending (h.not_pending ?_) hf hd
    rw [not_not.mp (not_or.mp hc).1]
    rfl
  | other hstep _ => exact hc trivial

theorem FaultyRun.inv (hrun : FaultyRun I cs x) (h : ∀ p ∈ cs, Spared p.1 p.2) : Inv I x.sender := by
  induction hrun with
  | start counter => exact inv_restart I (sound_empty I) counter
  | step _ hstep ih =>
    exact hstep.inv (ih fun p hp => h p (List.mem_cons_of_mem _ hp)) (h _ List.mem_cons_self)

/-- every state of a run is live exactly where all its selections are spared -/
theorem FaultyRun.live_iff (hrun : FaultyRun I cs x) :
    (∀ y ∈ x :: cs.map Prod.fst, y.Live) ↔ ∀ p ∈ cs, Spared p.1 p.2 := by
  induction hrun with
  | start counter =>
    refine ⟨fun _ p hp => absurd hp List.not_mem_nil, fun _ y hy => ?_⟩
    rw [List.mem_singleton.mp hy]
    exact (inv_restart I (sound_empty I) counter).live
  | @step cs y y' c hrun hstep ih =>
    refine ⟨fun h => ?_, fun h z hz => ?_⟩
    · have hcs := ih.mp fun z hz => h z (List.mem_cons_of_mem _ hz)
      refine List.forall_mem_cons.mpr ⟨?_, hcs⟩
      by_contra hc
      exact hstep.blocks (hrun.inv hcs) hc (h y' List.mem_cons_self)
    · have hcs : ∀ p ∈ cs, Spared p.1 p.2 := fun p hp => h p (List.mem_cons_of_mem _ hp)
      rcases List.mem_cons.mp hz with hz | hz
      · rw [hz]
        exact (hstep.inv (hrun.inv hcs) (h _ List.mem_cons_self)).live
      · exact ih.mpr hcs z hz

end

/-- **failed selections**: an error leaves the statuses as they were exactly where the destination
has a status or no write fails; and exactly the runs in which all selections are so never leave a
destination running or retrying without a pending transaction -/
theorem failed_selection_iff :
    (∀ (fails : Nat → Op → Bool) (e : Error) (s : Store) (now : Nat) (edus : SelectedEdus)
      (d : Destination) (newEvents : List (SendingEventType × Bytes)),
      (∀ e' s', Store.selectEvents I fails e now edus d newEvents s = (.error e', s') →
          s'.status = s.status) ↔
        s.status d ≠ none ∨ Spares fails 0 (selectOps d edus newEvents)) ∧
    ∀ (cs : List (Selector × Cause)) (x : Selector), FaultyRun I cs x →
      ((∀ y ∈ x :: cs.map Prod.fst, y.Live) ↔ ∀ p ∈ cs, Spared p.1 p.2) :=
  ⟨fun fails e _ now edus d newEvents => Store.selectEvents_status_iff I fails e edus d newEvents now,
    fun _ _ hrun => hrun.live_iff⟩

/-- no write goes through -/
def full : Nat → Op → Bool := fun _ _ => true

/-- a request is queued, and the first write of its selection fails: the server is blocked -/
theorem failed_selection_iff_blocked : ∃ (cs : List (Selector × Cause)) (x : Selector),
    FaultyRun .bytewise cs x ∧ ¬ ∀ y ∈ x :: cs.map Prod.fst, y.Live := by
  have hqueue := (FaultyRun.start 1).step (FaultyStep.other (Step.queue (I := .bytewise)
    [(remote, .pdu [7])] (List.forall_mem_singleton.mpr ⟨⟨by decide, by decide⟩, nofun⟩)) nofun)
  have hsend := hqueue.step (FaultyStep.other (@Step.send _ _ [] [] _ rfl) nofun)
  have hreceive := hsend.step (FaultyStep.receive none 0 full (.badDatabase "RocksDB") rfl)
  refine ⟨_, _, hreceive, fun hlive => ?_⟩
  rcases ((failed_selection_iff .bytewise).2 _ _ hreceive).mp hlive _ List.mem_cons_self with h | h
  · exact h rfl
  · exact absurd (h 0 _ rfl) Bool.true_eq_false.mp

/-- the status of a server without one changes, although the selection fails -/
theorem failed_selection_not_undone : ¬ ∀ (fails : Nat → Op → Bool) (e : Error) (s : Store) (now : Nat)
    (edus : SelectedEdus) (d : Destination) (newEvents : List (SendingEventType × Bytes)) (e' : Error)
    (s' : Store), Store.selectEvents .bytewise fails e now edus d newEvents s = (.error e', s') →
      s'.status = s.status := by
  intro h
  have hstatus := congrFun (h full (.badDatabase "RocksDB") ⟨.empty, .empty, fun _ => none⟩ 0 none remote
    [(.pdu [7], requestKey remote (.pdu [7]) 1)] _ _ rfl) remote
  have hrunning : Function.update (fun _ => none) remote (some TransactionStatus.running) remote
      = (none : Option TransactionStatus) := hstatus
  rw [Function.update_self] at hrunning
  cases hrunning

end Sending
end Grapevine
