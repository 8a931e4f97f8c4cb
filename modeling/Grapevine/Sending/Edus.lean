import Grapevine.Sending.Delivery
import Grapevine.Members.Roster
import Grapevine.Sync.Writers

/-!
# Ephemeral events of a transaction

A new transaction to a server takes the read receipts and changes of device keys along that lie
behind the stored count of the server (`selectEdus`), and the count moves past them when the
transaction is built.  They have no rows of their own, so a retry, which is made from the active
rows, does not contain them.

* `EduStep`     the steps of the handler with these tables, without restarts;
* `Accounted`   an ephemeral event is in a transaction that returned `Ok` or has not returned, or
                `selectEdus` still finds it;
* `Traced`      where the ephemeral events of the transactions come from.

Main results: `edus_accounted`, and `delivered_or_pending_iff`: nothing else delivers an ephemeral event
than the transaction that it was selected for.  `failed_edu_lost` is a run in which the first attempt
fails, and the retry succeeds without the receipt.
-/

namespace Grapevine
open Kv

namespace Sending

variable {json : Bytes}

/-! ## the selection -/

/-- what of the encodings of `ruma` is used -/
structure EduCodec where
  /-- the federation event of a stored receipt, if it is a receipt -/
  receipt : RoomId → UserId → JsonObject → Except Error (Option Bytes)
  deviceListUpdate : UserId → Bytes

/-- an ephemeral event, with the counts of the rows that it reports.  The code keeps the JSON only -/
structure Edu where
  json : Bytes
  counts : List Nat
deriving DecidableEq

/-- what `select_edus` has collected.  The code keeps the users of `deviceListChanges` as a set,
without the counts of their rows -/
structure Selection where
  events : List Edu
  maxEduCount : Nat
  deviceListChanges : List (UserId × Nat)

structure World where
  sender : Sender
  servernameEducount : Tree Bytes Nat
  rooms : Db
  edus : SyncUpdates.Db

variable (env : Env) (C : EduCodec)

/-- a row of `readreceipts_since` -/
def receiptOfRow (r : RoomId) (row : Bytes × JsonObject) : Except Error (UserId × Nat × JsonObject) := do
  let rest := row.1.drop (SyncUpdates.receiptRows r).length
  let user ← orError (textFromBytes env.ids (rest.drop 9))
    (.badDatabase "Invalid readreceiptid userid bytes in db.")
  let userId ← orError (env.ids.parseUserId user)
    (.badDatabase "Invalid readreceiptid userid in db.")
  pure (userId, ofBe (rest.take 8), JsonObject.remove row.2 "room_id")

/-- a row is read as what was stored -/
theorem receiptOfRow_readreceiptid (r : RoomId) {count : Nat} (hcount : count < 2^64) (u : UserId) (event : JsonObject) :
    receiptOfRow env r (SyncUpdates.readreceiptid r count u, event) =
      .ok (u, count, JsonObject.remove event "room_id") := by
  obtain ⟨hword, huser⟩ := SyncUpdates.readreceiptid_parts r count u
  unfold receiptOfRow
  dsimp only
  rw [huser, hword, textFromBytes_text env.ids u.toText, orError_some, env.ids.parseUserId_bytes u,
    orError_some, ofBe_be_of_lt (two64 ▸ hcount)]
  rfl

def receiptsSince (db : SyncUpdates.Db) (r : RoomId) (since : Nat) :
    List (Except Error (UserId × Nat × JsonObject)) :=
  (db.readreceipts.above (SyncUpdates.receiptRows r) 8 (SyncUpdates.afterToken since)).map
    (receiptOfRow env r)

/-- `keys_changed`, with the counts of the rows -/
def changesSince (db : SyncUpdates.Db) (r : RoomId) (since : Nat) : List (UserId × Nat) :=
  ((db.keychanges.above (SyncUpdates.keyRows r.toText) 8 (SyncUpdates.afterToken since)).takeWhile
    (fun row => SyncUpdates.countWithin (2^64 - 1) row.1)).map
    (fun row => (row.2, ofBe (row.1.drop (SyncUpdates.keyRows r.toText).length)))

namespace Selection

def raise (x : Selection) (count : Nat) : Selection :=
  { x with maxEduCount := max x.maxEduCount count }

def push (x : Selection) (edu : Edu) : Selection := { x with events := x.events ++ [edu] }

def changed (x : Selection) (changes : List (UserId × Nat)) : Selection :=
  { x with deviceListChanges := x.deviceListChanges ++ changes }

/-- the receipts of a room, and whether the limit of twenty events ends the search -/
def readReceipts (r : RoomId) : List (Except Error (UserId × Nat × JsonObject)) → Selection →
    Except Error (Selection × Bool)
  | [], x => .ok (x, false)
  | .error e :: _, _ => .error e
  | .ok (userId, count, readReceipt) :: rows, x =>
    let x := x.raise count
    if env.ids.serverName userId ≠ env.serverName then readReceipts r rows x
    else
      match C.receipt r userId readReceipt with
      | .error e => .error e
      | .ok none => readReceipts r rows x
      | .ok (some json) =>
        let x := x.push ⟨json, [count]⟩
        if 20 ≤ x.events.length then .ok (x, true) else readReceipts r rows x

def readRooms (db : SyncUpdates.Db) (since : Nat) : List (Except Error RoomId) → Selection →
    Except Error Selection
  | [], x => .ok x
  | .error e :: _, _ => .error e
  | .ok r :: rooms, x =>
    let changes := (changesSince db r since).filter
      (fun change => env.ids.serverName change.1 = env.serverName)
    match readReceipts env C r (receiptsSince env db r since) (x.changed changes) with
    | .error e => .error e
    | .ok (x, true) => .ok x
    | .ok (x, false) => readRooms db since rooms x

def users (x : Selection) : List UserId := x.deviceListChanges.map Prod.fst

/-- the events, with those of the users in the order of the set -/
def all (x : Selection) (order : List UserId) : List Edu :=
  x.events ++ order.map (fun u =>
    ⟨C.deviceListUpdate u, (x.deviceListChanges.filter (fun change => change.1 = u)).map Prod.snd⟩)

/-- an order in which the set of users may be gone through -/
def Orders (x : Selection) (order : List UserId) : Prop :=
  order.Nodup ∧ ∀ u, u ∈ order ↔ u ∈ x.users

end Selection

namespace World

def latestEducount (w : World) (server : ServerName) : Nat :=
  (w.servernameEducount.get server.bytes).getD 0

def selectEdus (w : World) (server : ServerName) : Except Error Selection :=
  let since := w.latestEducount server
  Selection.readRooms env C w.edus since (w.rooms.serverRooms env server) ⟨[], since, []⟩

end World

/-- the queries are those of the syncs, but for the rows that they skip -/
theorem receiptsSince_toOption (db : SyncUpdates.Db) (r : RoomId) (since : Nat) :
    (receiptsSince env db r since).filterMap Except.toOption =
      db.readreceiptsSince env.ids r since := by
  unfold receiptsSince SyncUpdates.Db.readreceiptsSince
  rw [List.filterMap_map]
  apply List.filterMap_congr
  intro row _
  show (receiptOfRow env r row).toOption = _
  unfold receiptOfRow textFromBytes
  dsimp only
  by_cases hutf : env.ids.utf8 ((row.1.drop (SyncUpdates.receiptRows r).length).drop 9) = true
  · rw [if_pos hutf, if_pos hutf, orError_some]
    cases env.ids.parseUserId ((row.1.drop (SyncUpdates.receiptRows r).length).drop 9) with
    | none => rfl
    | some u => rfl
  · rw [if_neg hutf, if_neg hutf]
    rfl

theorem changesSince_users (db : SyncUpdates.Db) (r : RoomId) (since : Nat) :
    (changesSince db r since).map Prod.fst = db.keysChanged r.toText since none := by
  unfold changesSince SyncUpdates.Db.keysChanged
  rw [List.map_map]
  rfl

/-! ### the counts of receipts -/

namespace Selection

/-- the count of every event is at most the highest one that was seen -/
def Bounded (x : Selection) : Prop := ∀ e ∈ x.events, ∀ c ∈ e.counts, c ≤ x.maxEduCount

section
variable {env C} {x y : Selection}

theorem Bounded.raise (h : x.Bounded) (count : Nat) : (x.raise count).Bounded :=
  fun e he c hc => (h e he c hc).trans (le_max_left _ _)

theorem Bounded.changed (h : x.Bounded) (changes : List (UserId × Nat)) :
    (x.changed changes).Bounded := h

theorem Bounded.push (h : (x.raise c).Bounded) (json : Bytes) :
    ((x.raise c).push ⟨json, [c]⟩).Bounded := by
  intro e he c' hc
  rcases List.mem_append.mp he with he | he
  · exact h e he c' hc
  · rw [List.mem_singleton.mp he] at hc
    rw [List.mem_singleton.mp hc]
    exact le_max_right _ _

theorem readReceipts_bounded {r : RoomId} {rows : List (Except Error (UserId × Nat × JsonObject))}
    {full : Bool} (h : x.Bounded) (hread : readReceipts env C r rows x = .ok (y, full)) :
    y.Bounded := by
  induction rows generalizing x with
  | nil =>
    cases hread
    exact h
  | cons row rows ih =>
    cases row with
    | error e => cases hread
    | ok row =>
      obtain ⟨userId, count, readReceipt⟩ := row
      have hraised := h.raise count
      unfold readReceipts at hread
      dsimp only at hread
      split at hread
      · exact ih hraised hread
      · split at hread
        · cases hread
        · exact ih hraised hread
        · next json hjson =>
          split at hread
          · cases hread
            exact hraised.push json
          · exact ih (hraised.push json) hread

theorem readRooms_bounded {db : SyncUpdates.Db} {since : Nat} {rooms : List (Except Error RoomId)}
    (h : x.Bounded) (hread : readRooms env C db since rooms x = .ok y) : y.Bounded := by
  induction rooms generalizing x with
  | nil =>
    cases hread
    exact h
  | cons room rooms ih =>
    cases room with
    | error e => cases hread
    | ok r =>
      unfold readRooms at hread
      dsimp only at hread
      split at hread
      · cases hread
      · next z hz =>
        cases hread
        exact readReceipts_bounded (h.changed _) hz
      · next z hz => exact ih (readReceipts_bounded (h.changed _) hz) hread

end

end Selection

/-- the count moves past every receipt that is selected -/
theorem World.selectEdus_bounded {w : World} {server : ServerName} {x : Selection}
    (h : w.selectEdus env C server = .ok x) : x.Bounded :=
  Selection.readRooms_bounded (fun _ he => absurd he List.not_mem_nil) h

/-! ## steps -/

/-- an ephemeral event that was selected for a transaction -/
structure Selected where
  server : ServerName
  transaction : HandlerInputs
  edu : Edu

inductive Act where
  | queued (requests : List (Destination × SendingEventType))
  | received (m : RequestData) (selected : List Selected)
  | finished (f : HandlerInputs) (ok : Bool)
  | quiet

namespace Act

def requests : Act → List (Destination × SendingEventType)
  | .queued requests => requests
  | _ => []

def selected : Act → List Selected
  | .received _ selected => selected
  | _ => []

end Act

namespace World

/-- what `select_events` takes along, for a destination without a status -/
def selection (w : World) (m : RequestData) : Option Selection :=
  match m.destination, w.sender.status m.destination with
  | .normal server, none => (w.selectEdus env C server).toOption
  | _, _ => none

/-- the reaction to a message -/
def effect (w : World) (now : Nat) (order : List UserId) (m : RequestData) : Effect :=
  handleReceiver env.ids w.sender.tables w.sender.status now
    ((w.selection env C m).map (fun x => (x.all C order).map Edu.json)) m

def receive (w : World) (now : Nat) (order : List UserId) (m : RequestData)
    (rest : List RequestData) : World :=
  { w with
    sender := ({ w.sender with channel := rest } : Sender).perform (w.effect env C now order m)
    servernameEducount :=
      match m.destination, w.selection env C m with
      | .normal server, some x => w.servernameEducount.insert server.bytes x.maxEduCount
      | _, _ => w.servernameEducount }

/-- the ephemeral events that the reaction puts into a transaction -/
def selectedBy (w : World) (now : Nat) (order : List UserId) (m : RequestData) : List Selected :=
  match m.destination, w.selection env C m, (w.effect env C now order m).next with
  | .normal server, some x, some f => (x.all C order).map (fun edu => ⟨server, f, edu⟩)
  | _, _, _ => []

end World

/-- a step of the handler, or of another part of the program, without restarts -/
inductive EduStep : World → Act → World → Prop
  | queue {w : World} (requests : List (Destination × SendingEventType)) :
      (∀ q ∈ requests, WellNamed q.1 ∧ q.2 ≠ .edu []) →
      EduStep w (.queued requests) { w with sender := { w.sender with
        tables := w.sender.tables.writeAll (queueRequests (requestData w.sender.counter requests))
        unsent := w.sender.unsent ++ requestData w.sender.counter requests
        counter := w.sender.counter + countEdus requests } }
  | receive {w : World} {m : RequestData} {rest : List RequestData} (now : Nat)
      (order : List UserId) : w.sender.channel = m :: rest →
      (∀ x, w.selection env C m = some x → x.Orders order) →
      EduStep w (.received m (w.selectedBy env C now order m)) (w.receive env C now order m rest)
  | finish {w : World} {s' : Sender} {f : HandlerInputs} {ok : Bool} :
      Step env.ids w.sender (.finished f ok) s' →
      EduStep w (.finished f ok) { w with sender := s' }
  /-- a message reaches the channel, a transaction that returned is handled, or a count drawn -/
  | quiet {w : World} {s' : Sender} : Step env.ids w.sender .quiet s' →
      EduStep w .quiet { w with sender := s' }
  /-- joins, receipts and key changes -/
  | write {w : World} (rooms : Db) (edus : SyncUpdates.Db) :
      EduStep w .quiet { w with rooms := rooms, edus := edus }

/-- runs, with their acts, the last one first, whose steps all meet a condition on the acts before
them.  The first act stands for the requests that an earlier run left in the tables -/
inductive EduRun (P : List Act → Act → Prop) : List Act → World → Prop
  | start {t : Tables} (counter : Nat) (educount : Tree Bytes Nat) (rooms : Db)
      (edus : SyncUpdates.Db) {requests : List (Destination × SendingEventType)} :
      Sound env.ids t →
      (∀ d event row, RowOf env.ids d event row →
        row ∈ t.servernameevent.rows ∨ row ∈ t.servercurrentevent.rows → (d, event) ∈ requests) →
      EduRun P [.queued requests] ⟨restart env.ids t counter, educount, rooms, edus⟩
  | step {as : List Act} {w w' : World} {a : Act} : EduRun P as w → EduStep env C w a w' → P as a →
      EduRun P (a :: as) w'

/-! ## what becomes of an ephemeral event -/

/-- a transaction with the event returned `Ok` -/
def EduDelivered (as : List Act) (server : ServerName) (json : Bytes) : Prop :=
  ∃ f, .finished f true ∈ as ∧ f.destination = .normal server ∧ .edu json ∈ f.events

/-- a transaction with the event has not returned -/
def EduPending (w : World) (server : ServerName) (json : Bytes) : Prop :=
  ∃ f, (f, none) ∈ w.sender.futures ∧ f.destination = .normal server ∧ .edu json ∈ f.events

/-- `select_edus` finds the event now -/
def Selectable (w : World) (server : ServerName) (json : Bytes) : Prop :=
  ∃ x order, w.selectEdus env C server = .ok x ∧ x.Orders order ∧
    json ∈ (x.all C order).map Edu.json

def Accounted (as : List Act) (w : World) (server : ServerName) (json : Bytes) : Prop :=
  EduDelivered as server json ∨ EduPending w server json ∨ Selectable env C w server json

/-- no transaction that ephemeral events were selected for returns an error -/
def Returns (as : List Act) (a : Act) : Prop :=
  ∀ s ∈ as.flatMap Act.selected, a ≠ .finished s.transaction false

/-- the transaction of the event has not returned, or returned `Ok` -/
def Carried (as : List Act) (w : World) (s : Selected) : Prop :=
  (s.transaction, none) ∈ w.sender.futures ∨ .finished s.transaction true ∈ as

/-- the stored count has moved past the event -/
def Passed (w : World) (s : Selected) : Prop := ∃ c ∈ s.edu.counts, c ≤ w.latestEducount s.server

section
variable {env C} {w w' : World} {m : RequestData} {now : Nat} {order : List UserId}
variable {P : List Act → Act → Prop} {row : Bytes × Bytes} {as : List Act} {f : HandlerInputs}
  {a : Act} {t : Tables} {d : Destination}

theorem selectedBy_spec {s : Selected} (h : s ∈ w.selectedBy env C now order m) :
    m.destination = .normal s.server ∧ (w.effect env C now order m).next = some s.transaction ∧
      s.transaction.destination = .normal s.server ∧ .edu s.edu.json ∈ s.transaction.events := by
  unfold World.selectedBy at h
  split at h
  · next server x f hd hx hf =>
    obtain ⟨edu, hedu, rfl⟩ := List.mem_map.mp h
    have hstatus : w.sender.status m.destination = none := by
      unfold World.selection at hx
      split at hx
      · next hs => exact hs
      · cases hx
    refine ⟨hd, hf, ?_⟩
    unfold World.effect at hf
    rcases handleReceiver_cases env.ids w.sender.tables w.sender.status now
        ((w.selection env C m).map (fun x => (x.all C order).map Edu.json)) m with
      ⟨-, hs⟩ | ⟨tries, time, hs, -⟩ | ⟨-, he⟩
    · exact absurd hstatus hs
    · rw [hstatus] at hs
      cases hs
    · rw [he, hx, hd] at hf
      rw [← Option.some.inj hf]
      refine ⟨rfl, List.mem_cons_of_mem _ ?_⟩
      exact List.mem_map_of_mem (List.mem_map_of_mem hedu)
  · exact absurd h List.not_mem_nil

/-- where an ephemeral event of a transaction that a message starts comes from -/
theorem edu_of_next (hf : (w.effect env C now order m).next = some f) (hedu : .edu json ∈ f.events) :
    f.destination = m.destination ∧ (m.eventType = .edu json ∨
      (∃ s ∈ w.selectedBy env C now order m, s.transaction = f ∧ s.edu.json = json) ∨
      ∃ key, (.edu json, key) ∈ w.sender.tables.activeRequestsFor env.ids m.destination) := by
  have hnext := hf
  unfold World.effect at hf
  rcases handleReceiver_cases env.ids w.sender.tables w.sender.status now
      ((w.selection env C m).map (fun x => (x.all C order).map Edu.json)) m with
    ⟨he, -⟩ | ⟨tries, time, -, he⟩ | ⟨-, he⟩
  · rw [he] at hf
    cases hf
  · rw [he] at hf
    cases hf
    obtain ⟨⟨event, key⟩, hmem, rfl⟩ := List.mem_map.mp hedu
    exact ⟨rfl, Or.inr (Or.inr ⟨key, hmem⟩)⟩
  · rw [he] at hf
    cases hf
    refine ⟨rfl, ?_⟩
    rcases List.mem_cons.mp hedu with hedu | hedu
    · exact Or.inl hedu.symm
    · refine Or.inr (Or.inl ?_)
      cases hd : m.destination with
      | appservice id =>
        rw [hd] at hedu
        exact absurd hedu List.not_mem_nil
      | push user pushkey =>
        rw [hd] at hedu
        exact absurd hedu List.not_mem_nil
      | normal server =>
        cases hx : w.selection env C m with
        | none =>
          rw [hd, hx] at hedu
          exact absurd hedu List.not_mem_nil
        | some x =>
          rw [hd, hx] at hedu
          obtain ⟨json', hjson, he⟩ := List.mem_map.mp hedu
          cases he
          obtain ⟨edu, hmem, rfl⟩ := List.mem_map.mp hjson
          refine ⟨⟨server, _, edu⟩, ?_, rfl, rfl⟩
          unfold World.selectedBy
          rw [hx, hnext]
          simp only [hd, hx]
          exact List.mem_map_of_mem hmem

/-- the selected events are in their transactions -/
theorem eduRun_selected (hrun : EduRun env C P as w) :
    ∀ s ∈ as.flatMap Act.selected,
      s.transaction.destination = .normal s.server ∧ .edu s.edu.json ∈ s.transaction.events := by
  induction hrun with
  | start counter educount rooms edus _ _ => exact fun s hs => absurd hs List.not_mem_nil
  | step hrun hstep _ ih =>
    intro s hs
    rw [List.flatMap_cons] at hs
    rcases List.mem_append.mp hs with hs | hs
    · cases hstep with
      | receive now order hch _ => exact (selectedBy_spec hs).2.2
      | queue requests hreq => exact absurd hs List.not_mem_nil
      | finish hstep => exact absurd hs List.not_mem_nil
      | quiet hstep => exact absurd hs List.not_mem_nil
      | write rooms edus => exact absurd hs List.not_mem_nil
    · exact ih s hs

/-! ### carried to the end -/

/-- a transaction is pending until it returns -/
theorem EduStep.pending (h : EduStep env C w a w') (hf : (f, none) ∈ w.sender.futures) :
    (f, none) ∈ w'.sender.futures ∨ ∃ ok, a = .finished f ok := by
  cases h with
  | queue requests hreq => exact Or.inl hf
  | receive now order hch _ => exact Or.inl (List.mem_append_left _ hf)
  | @finish _ g ok hstep =>
    cases hstep with
    | finish _ hfs =>
      rw [hfs] at hf
      rcases List.mem_append.mp hf with hf | hf
      · exact Or.inl (List.mem_append_left _ hf)
      · rcases List.mem_cons.mp hf with hf | hf
        · exact Or.inr ⟨ok, by rw [(Prod.mk.inj hf).1]⟩
        · exact Or.inl (List.mem_append_right _ (List.mem_cons_of_mem _ hf))
  | quiet hstep =>
    cases hstep with
    | send hun => exact Or.inl hf
    | draw n => exact Or.inl hf
    | respond now hfs =>
      rw [hfs] at hf
      refine Or.inl (List.mem_append_left _ ?_)
      rcases List.mem_append.mp hf with hf | hf
      · exact List.mem_append_left _ hf
      · exact List.mem_append_right _ ((List.mem_cons.mp hf).resolve_left nofun)
  | write rooms edus => exact Or.inl hf

theorem eduRun_carried (hrun : EduRun env C Returns as w) :
    ∀ s ∈ as.flatMap Act.selected, Carried as w s := by
  induction hrun with
  | start counter educount rooms edus _ _ => exact fun s hs => absurd hs List.not_mem_nil
  | @step as w w' a hrun hstep hp ih =>
    intro s hs
    rw [List.flatMap_cons] at hs
    rcases List.mem_append.mp hs with hs | hs
    · cases hstep with
      | receive now order hch _ =>
        refine Or.inl (List.mem_append_right _ ?_)
        rw [(selectedBy_spec hs).2.1]
        exact List.mem_singleton_self _
      | queue requests hreq => exact absurd hs List.not_mem_nil
      | finish hstep => exact absurd hs List.not_mem_nil
      | quiet hstep => exact absurd hs List.not_mem_nil
      | write rooms edus => exact absurd hs List.not_mem_nil
    · rcases ih s hs with hf | hok
      · rcases hstep.pending hf with hf | ⟨ok, rfl⟩
        · exact Or.inl hf
        · cases ok with
          | false => exact absurd rfl (hp s hs)
          | true => exact Or.inr List.mem_cons_self
      · exact Or.inr (List.mem_cons_of_mem _ hok)

/-! ### where the events of a transaction come from -/

/-- every ephemeral event of the transaction was queued as a request, or selected for it -/
def Explained (as : List Act) (f : HandlerInputs) : Prop :=
  ∀ json, .edu json ∈ f.events → (f.destination, .edu json) ∈ as.flatMap Act.requests ∨
    ∃ s ∈ as.flatMap Act.selected, s.transaction = f ∧ s.edu.json = json

theorem Explained.cons (h : Explained as f) (a : Act) :
    Explained (a :: as) f := by
  intro json hjson
  rw [List.flatMap_cons, List.flatMap_cons]
  rcases h json hjson with hreq | ⟨s, hs, he⟩
  · exact Or.inl (List.mem_append_right _ hreq)
  · exact Or.inr ⟨s, List.mem_append_right _ hs, he⟩

/-- the row is in one of the tables of requests -/
def Tables.Has (t : Tables) (row : Bytes × Bytes) : Prop :=
  row ∈ t.servernameevent.rows ∨ row ∈ t.servercurrentevent.rows

variable (env) in
structure Traced (as : List Act) (s : Sender) : Prop where
  rows : ∀ d event row, RowOf env.ids d event row → s.tables.Has row →
    (d, event) ∈ as.flatMap Act.requests
  messages : ∀ m ∈ s.unsent ++ s.channel, (m.destination, m.eventType) ∈ as.flatMap Act.requests
  flights : ∀ f ∈ s.inFlight, Explained as f
  finished : ∀ f ok, .finished f ok ∈ as → Explained as f

theorem RowOf.same {d' : Destination} {event event' : SendingEventType} (h : RowOf env.ids d event row)
    (h' : RowOf env.ids d' event' row) : (d, event) = (d', event') :=
  Except.ok.inj (h.parses.symm.trans h'.parses)

section
variable {as : List Act} {s s₁ : Sender}

/-- a reaction that starts no transaction, or one whose events are explained -/
theorem Traced.perform (h : Traced env as s) {e : Effect} (ha : ∀ f ok, a ≠ .finished f ok)
    (htables : s₁.tables = s.tables) (hmessages : ∀ m ∈ s₁.unsent ++ s₁.channel, m ∈ s.unsent ++ s.channel)
    (hfutures : ∀ x ∈ s₁.futures, x ∈ s.futures)
    (hrows : ∀ row, (s.tables.writeAll e.writes).Has row → s.tables.Has row ∨
      ∃ d event, RowOf env.ids d event row ∧ (d, event) ∈ as.flatMap Act.requests)
    (hnext : ∀ f, e.next = some f → Explained (a :: as) f) : Traced env (a :: as) (s₁.perform e) := by
  have hrequests : ∀ q ∈ as.flatMap Act.requests, q ∈ (a :: as).flatMap Act.requests := by
    intro q hq
    rw [List.flatMap_cons]
    exact List.mem_append_right _ hq
  refine ⟨fun d event row hrow hhas => ?_, fun m hm => ?_, fun f hf => ?_, fun f ok hf => ?_⟩
  · apply hrequests
    have hhas' : (s.tables.writeAll e.writes).Has row := htables ▸ hhas
    rcases hrows row hhas' with hold | ⟨d', event', hrow', hreq⟩
    · exact h.rows d event row hrow hold
    · rw [hrow.same hrow']
      exact hreq
  · exact hrequests _ (h.messages m (hmessages m hm))
  · obtain ⟨x, hx, rfl⟩ := List.mem_map.mp hf
    rcases mem_perform hx with hx | ⟨-, hx⟩
    · exact (h.flights _ (List.mem_map_of_mem (hfutures x hx))).cons a
    · exact hnext _ hx
  · rcases List.mem_cons.mp hf with hf | hf
    · exact absurd hf.symm (ha f ok)
    · exact (h.finished f ok hf).cons a

/-- what `mark_as_active` leaves in the tables -/
theorem has_markAsActive {events : List (SendingEventType × Bytes)}
    (h : (t.writeAll (markAsActive events)).Has row) :
    t.Has row ∨ ∃ e ∈ events, row = (e.2, e.1.value) := by
  have hmoves := t.markAsActive_all events
  rcases h with h | h
  · exact Or.inl (Or.inl (hmoves.queued row h))
  · exact (hmoves.active row h).imp_left Or.inr

theorem has_deletes (h : (t.writeAll (t.deleteAllActiveRequestsFor d)).Has row) : t.Has row := by
  obtain ⟨hqueued, hactive⟩ := t.writeAll_deletes (activeKeys t d)
  rw [deleteAll_eq] at h
  rcases h with h | h
  · rw [hqueued] at h
    exact Or.inl h
  · exact Or.inr ((hactive row).mp h).1

end

section
variable {as : List Act}

theorem Traced.receive (h : Traced env as w.sender) (hinv : Inv env.ids w.sender)
    {rest : List RequestData} (now : Nat) (order : List UserId) (hch : w.sender.channel = m :: rest) :
    Traced env (.received m (w.selectedBy env C now order m) :: as)
      (w.receive env C now order m rest).sender := by
  have hmem : m ∈ w.sender.unsent ++ w.sender.channel := by
    rw [hch]
    exact List.mem_append_right _ List.mem_cons_self
  refine h.perform nofun rfl (fun m' hm' => ?_) (fun _ hx => hx) (fun row hrow => ?_)
    (fun f hf json hjson => ?_)
  · rw [hch]
    rcases List.mem_append.mp hm' with hm' | hm'
    · exact List.mem_append_left _ hm'
    · exact List.mem_append_right _ (List.mem_cons_of_mem _ hm')
  · unfold World.effect at hrow
    rcases handleReceiver_cases env.ids w.sender.tables w.sender.status now
        ((w.selection env C m).map (fun x => (x.all C order).map Edu.json)) m with
      ⟨he, -⟩ | ⟨tries, time, -, he⟩ | ⟨-, he⟩
    · rw [he] at hrow
      exact Or.inl hrow
    · rw [he] at hrow
      exact Or.inl hrow
    · rw [he] at hrow
      rcases has_markAsActive hrow with hrow | ⟨e, he, rfl⟩
      · exact Or.inl hrow
      · rw [List.mem_singleton.mp he]
        exact Or.inr ⟨_, _, hinv.messages m hmem, h.messages m hmem⟩
  · obtain ⟨hd, hfrom⟩ := edu_of_next hf hjson
    rw [List.flatMap_cons, List.flatMap_cons, hd]
    rcases hfrom with htype | ⟨s, hs, he⟩ | ⟨key, hkey⟩
    · rw [← htype]
      exact Or.inl (List.mem_append_right _ (h.messages m hmem))
    · exact Or.inr ⟨s, List.mem_append_left _ hs, he⟩
    · obtain ⟨hrow, hof⟩ :=
        (mem_parsed env.ids hinv.tables.active (hinv.messages m hmem).wellNamed).mp hkey
      exact Or.inl (List.mem_append_right _ (h.rows _ _ _ hof (Or.inr hrow)))

theorem Traced.respond (h : Traced env as w.sender) (hinv : Inv env.ids w.sender)
    {l₁ l₂ : List (HandlerInputs × Option Bool)} {f : HandlerInputs} {ok : Bool} (now : Nat)
    (hfs : w.sender.futures = l₁ ++ (f, some ok) :: l₂) :
    Traced env (.quiet :: as) (({ w.sender with futures := l₁ ++ l₂ } : Sender).perform
      (handleResponse env.ids w.sender.tables w.sender.status now f.destination ok)) := by
  have hmem : (f, some ok) ∈ w.sender.futures := by
    rw [hfs]
    exact List.mem_append_right _ List.mem_cons_self
  have hd := hinv.named f (List.mem_map_of_mem hmem)
  refine h.perform nofun rfl (fun _ hm => hm) (fun x hx => ?_) (fun row hrow => ?_)
    (fun g hg json hjson => ?_)
  · rw [hfs]
    rcases List.mem_append.mp hx with hx | hx
    · exact List.mem_append_left _ hx
    · exact List.mem_append_right _ (List.mem_cons_of_mem _ hx)
  · rcases handleResponse_cases env.ids w.sender.tables w.sender.status now f.destination ok with
      ⟨-, he⟩ | ⟨-, -, he⟩ | ⟨-, he⟩
    · rw [he] at hrow
      exact Or.inl hrow
    · rw [he] at hrow
      exact Or.inl (has_deletes hrow)
    · rw [he] at hrow
      have hrow' : ((w.sender.tables.writeAll
          (w.sender.tables.deleteAllActiveRequestsFor f.destination)).writeAll
            (markAsActive (newEvents env.ids w.sender.tables f.destination))).Has row := by
        rw [← Tables.writeAll_append]
        exact hrow
      rcases has_markAsActive hrow' with hrow | ⟨e, he, rfl⟩
      · exact Or.inl (has_deletes hrow)
      · exact Or.inl (Or.inl (hinv.tables.mem_newEvents hd he).1)
  · rcases handleResponse_cases env.ids w.sender.tables w.sender.status now f.destination ok with
      ⟨-, he⟩ | ⟨-, -, he⟩ | ⟨-, he⟩
    · rw [he] at hg
      cases hg
    · rw [he] at hg
      cases hg
    · rw [he] at hg
      cases hg
      obtain ⟨e, he, hevent⟩ := List.mem_map.mp hjson
      obtain ⟨hrow, hof⟩ := hinv.tables.mem_newEvents hd he
      rw [List.flatMap_cons, ← hevent]
      exact Or.inl (List.mem_append_right _ (h.rows _ _ _ hof (Or.inl hrow)))

end

end

/-- **ephemeral events are not skipped as long as their transactions succeed**: an event that was
selected, and that the stored count has moved past, is accounted for -/
theorem edus_accounted {as : List Act} {w : World} (hrun : EduRun env C Returns as w) :
    ∀ s ∈ as.flatMap Act.selected, Passed w s → Accounted env C as w s.server s.edu.json := by
  intro s hs _
  have hs' := eduRun_selected hrun s hs
  rcases eduRun_carried hrun s hs with hf | hf
  · exact Or.inr (Or.inl ⟨s.transaction, hf, hs'⟩)
  · exact Or.inl ⟨s.transaction, hf, hs'⟩

/-! ### the first attempt fails -/

namespace Receipt

def codec : EduCodec where
  receipt r u _ := .ok (some (r.bytes ++ u.bytes))
  deviceListUpdate u := u.bytes

theorem sep_not_mem_server : sep ∉ ([115] : Bytes) := by decide

def server : ServerName := ⟨⟨[115], sep_not_mem_server⟩⟩

def room : RoomId := ⟨.ascii "!r:x"⟩

def reader : UserId := ⟨.ascii "@u:x"⟩

/-- the server is in the room -/
def rooms : Db := { Db.empty with roster := { Db.empty.roster with
  serverroomids := Tree.empty.insert (server.bytes ++ sep :: room.bytes) () } }

/-- a user of this server has read an event of the room -/
def edus : SyncUpdates.Db :=
  ((SyncUpdates.readreceiptUpdate reader room []).alone
    (0, ⟨.empty, .empty, .empty, .empty, .empty, fun _ => .ok none⟩)).2

/-- the receipt as it is sent -/
def edu : Bytes := room.bytes ++ reader.bytes

theorem sound_start : ∀ d event row, RowOf Env.plain.ids d event row → Tables.empty.Has row →
    (d, event) ∈ ([] : List (Destination × SendingEventType)) :=
  fun _ _ _ _ hhas => hhas.elim (absurd · List.not_mem_nil) (absurd · List.not_mem_nil)

/-- without key changes the set of users is empty -/
theorem orders_nil {o : Option Selection} (h : o.map Selection.users = some []) :
    ∀ x, o = some x → x.Orders [] := by
  intro x hx
  rw [hx] at h
  have hnil : x.users = [] := Option.some.inj h
  refine ⟨List.nodup_nil, fun u => ?_⟩
  rw [hnil]

/-- a search that finds nothing -/
theorem not_selectable {w : World}
    (h : (w.selectEdus Env.plain codec server).toOption.map (fun x => (x.events, x.users)) =
      some ([], [])) : ¬ Selectable Env.plain codec w server json := by
  rintro ⟨x, order, hx, ⟨-, horder⟩, hjson⟩
  rw [hx] at h
  obtain ⟨hevents, husers⟩ := Prod.mk.inj (Option.some.inj h)
  have hnone : order = [] := List.eq_nil_iff_forall_not_mem.mpr fun u hu => by
    have hmem := (horder u).mp hu
    rw [husers] at hmem
    exact absurd hmem List.not_mem_nil
  unfold Selection.all at hjson
  rw [hevents, hnone] at hjson
  exact absurd hjson List.not_mem_nil

end Receipt

open Receipt in
/-- a receipt is selected for the transaction of a request, which returns `Ok` -/
theorem edus_accounted_once : ∃ (as : List Act) (w : World), EduRun Env.plain codec Returns as w ∧
    w.latestEducount server = 1 ∧
    ∀ s ∈ as.flatMap Act.selected, Passed w s → Accounted Env.plain codec as w s.server s.edu.json := by
  have hstart : EduRun Env.plain codec Returns _ _ :=
    .start 1 .empty rooms edus (sound_empty _) sound_start
  have hqueue := hstart.step (.queue _ (named_remote [[7]])) (fun _ _ => nofun)
  have hsend := hqueue.step (.quiet (@Step.send _ _ [] [] _ rfl)) (fun _ _ => nofun)
  have hreceive := hsend.step (.receive 0 [] rfl
    (orders_nil (by decide +kernel))) (fun _ _ => nofun)
  exact ⟨_, _, hreceive, by decide +kernel, edus_accounted Env.plain codec hreceive⟩

open Receipt in
/-- the first attempt with the receipt fails; the retry returns `Ok` without it, and the transaction
after it finds no receipt behind the stored count -/
theorem failed_edu_lost : ¬ ∀ (env : Env) (C : EduCodec) (as : List Act) (w : World),
    EduRun env C (fun _ _ => True) as w →
      ∀ s ∈ as.flatMap Act.selected, Passed w s → Accounted env C as w s.server s.edu.json := by
  intro h
  have hstart : EduRun Env.plain codec (fun _ _ => True) _ _ :=
    .start 1 .empty rooms edus (sound_empty _) sound_start
  have hqueue := hstart.step (.queue _ (named_remote [[7]])) trivial
  have hsend := hqueue.step (.quiet (@Step.send _ _ [] [] _ rfl)) trivial
  have hreceive := hsend.step (.receive 0 [] rfl (orders_nil (by decide +kernel))) trivial
  have hfail := hreceive.step (.finish (@Step.finish _ _ [] []
    ⟨remote, [.pdu [7], .edu edu], [requestKey remote (.pdu [7]) 1]⟩ false (by rfl))) trivial
  have hfailed := hfail.step (.quiet (@Step.respond _ _ [] [] _ _ 0 rfl)) trivial
  have hagain := hfailed.step (.queue _ (named_remote [[8]])) trivial
  have hsend' := hagain.step (.quiet (@Step.send _ _ [] [] _ rfl)) trivial
  have hretry := hsend'.step (.receive 30 [] rfl nofun) trivial
  have hfinish := hretry.step (.finish (@Step.finish _ _ [] []
    ⟨remote, [.pdu [7]], [requestKey remote (.pdu [7]) 1]⟩ true (by rfl))) trivial
  have hrespond := hfinish.step (.quiet (@Step.respond _ _ [] [] _ _ 30 rfl)) trivial
  have hfinish' := hrespond.step (.finish (@Step.finish _ _ [] []
    ⟨remote, [.pdu [8]], [requestKey remote (.pdu [8]) 1]⟩ true (by rfl))) trivial
  have hdone := hfinish'.step (.quiet (@Step.respond _ _ [] [] _ _ 30 rfl)) trivial
  have haccounted := h _ _ _ _ hdone
    ⟨server, ⟨remote, [.pdu [7], .edu edu], [requestKey remote (.pdu [7]) 1]⟩, ⟨edu, [1]⟩⟩
    List.mem_cons_self ⟨1, List.mem_cons_self, by decide +kernel⟩
  rcases haccounted with ⟨f, hf, -, hjson⟩ | ⟨f, hf, -⟩ | hselectable
  · simp only [List.mem_cons, reduceCtorEq, Act.finished.injEq, Bool.true_eq_false, and_false, and_true,
      false_or, or_false, List.not_mem_nil] at hf
    rcases hf with rfl | rfl
    · exact absurd hjson (by decide)
    · exact absurd hjson (by decide)
  · exact absurd hf List.not_mem_nil
  · exact not_selectable (by decide +kernel) hselectable

end Sending
end Grapevine
