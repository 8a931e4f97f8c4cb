import Grapevine.Events.ChainSingle
import Grapevine.Events.Incoming
import Grapevine.Lib.Update

/-!
# The federation endpoints for states and auth chains

Three routes answer a server of a room with the state at an event, its auth chain, or both.  The
server is checked against the room of the path; the event is looked up by its id alone.

* `getEventAuthorizationRoute`   asks for the auth chain in the room of the event;
* `getRoomStateRoute`, `getRoomStateIdsRoute`   ask for it in the room of the path;
* `Shows`                        a response that is confined to the room.

Main result: `stateRoutes_confined_iff`.  A response is confined exactly if the event, its state and
its auth chain are, unless the request is refused; `stateRoutes_leak` are requests that are not.
-/

namespace Grapevine
open Kv

/-- `PduEvent::convert_to_outgoing_federation_event` -/
def convertToOutgoingFederationEvent (pduJson : JsonObject) : JsonObject :=
  let pduJson := match (pduJson.get "unsigned").bind Json.asObject with
    | some unsigned => pduJson.insert "unsigned" (.obj (JsonObject.remove unsigned "transaction_id"))
    | none => pduJson
  pduJson.remove "event_id"

/-- an event in a response: the JSON that is sent, and the event that it is -/
structure OutgoingPdu where
  json : JsonObject
  event : PduEvent

def PduJson.outgoing (j : PduJson) : OutgoingPdu := ⟨convertToOutgoingFederationEvent j.json, j.pdu⟩

namespace Db

variable (env : Env) (fed : Fed)
variable {db : Db} {ids : List EventId} {e : EventId} {r : RoomId} {j : PduJson}

/-! ## the routes -/

/-- the checks on the server, in the room of the path -/
def checkServer (db : Db) (server : ServerName) (r : RoomId) : Except Error Unit :=
  if db.serverInRoom server r then db.aclCheck env fed server r
  else .error (.badRequest .forbidden "Server is not in room.")

/-- the events of a chain that can be loaded -/
def outgoingEvents (t : TimelineTables) (ids : List EventId) : List OutgoingPdu :=
  ids.filterMap fun id =>
    match t.getPduJson id with
    | .ok (some j) => some j.outgoing
    | _ => none

def getEventAuthorizationRoute (fuel : Nat) (server : ServerName) (r : RoomId) (e : EventId) :
    RoomComp (List OutgoingPdu) := do
  Comp.reads (fun db => db.checkServer env fed server r)
  match ← Comp.reads (fun db => db.timeline.getPduJson e) with
  | none => Comp.throw (.badRequest .notFound "Event not found.")
  | some event =>
    -- the room that the event names, not the one of the path
    let authChainIds ← getAuthChain fuel event.pdu.roomId [e]
    Comp.gets (fun db => outgoingEvents db.timeline authChainIds)

/-- the ids of the state at the event -/
def stateIdsAt (db : Db) (e : EventId) : Except Error (Tree Nat EventId) :=
  match db.pduShortstatehash e with
  | none => .error (.badRequest .notFound "Pdu state not found.")
  | some shortstatehash => db.stateFullIds env shortstatehash

/-- `get_pdu_json(&id).unwrap().unwrap()` -/
def unwrapPduJson (t : TimelineTables) (id : EventId) : Except Error PduJson :=
  match t.getPduJson id with
  | .ok (some j) => .ok j
  | .ok none => .error (.panic "called `Option::unwrap()` on a `None` value")
  | .error _ => .error (.panic "called `Result::unwrap()` on an `Err` value")

def outgoingState (t : TimelineTables) : List EventId → Except Error (List OutgoingPdu)
  | [] => .ok []
  | id :: ids => do
    let j ← unwrapPduJson t id
    let rest ← outgoingState t ids
    pure (j.outgoing :: rest)

/-- the response: the state, and the auth chain -/
def getRoomStateRoute (fuel : Nat) (server : ServerName) (r : RoomId) (e : EventId) :
    RoomComp (List OutgoingPdu × List OutgoingPdu) := do
  Comp.reads (fun db => db.checkServer env fed server r)
  let state ← Comp.reads (fun db => db.stateIdsAt env e)
  let pdus ← Comp.reads (fun db => outgoingState db.timeline (state.rows.map Prod.snd))
  let authChainIds ← getAuthChain fuel r [e]
  Comp.gets (fun db => (pdus, outgoingEvents db.timeline authChainIds))

def getRoomStateIdsRoute (fuel : Nat) (server : ServerName) (r : RoomId) (e : EventId) :
    RoomComp (List EventId × List EventId) := do
  Comp.reads (fun db => db.checkServer env fed server r)
  let state ← Comp.reads (fun db => db.stateIdsAt env e)
  let authChainIds ← getAuthChain fuel r [e]
  Comp.gets (fun _ => (state.rows.map Prod.snd, authChainIds))

/-! ## confined responses -/

/-- the event is of the room, if its JSON is stored -/
def OfRoom (db : Db) (r : RoomId) (e : EventId) : Prop :=
  ∀ j, db.timeline.getPduJson e = .ok (some j) → j.pdu.roomId = r

/-- the event that was asked for and all events and ids of the response are of the room -/
structure Shows (db : Db) (r : RoomId) (e : EventId) (events : List OutgoingPdu) (ids : List EventId) :
    Prop where
  asked : OfRoom db r e
  events : ∀ o ∈ events, o.event.roomId = r
  ids : ∀ a ∈ ids, OfRoom db r a

/-- the call is not stopped by the end of the counter of short ids -/
def Runs {α : Type} (x : RoomComp α) (db : Db) : Prop :=
  ∀ err db', x db = (.error err, db') → ¬ StateDb.Exhausted err db'.state

theorem outgoingEvents_ofRoom :
    (∀ o ∈ outgoingEvents db.timeline ids, o.event.roomId = r) ↔ ∀ a ∈ ids, OfRoom db r a := by
  unfold outgoingEvents OfRoom
  constructor
  · intro h a ha j hj
    exact h j.outgoing (List.mem_filterMap.mpr ⟨a, ha, by rw [hj]⟩)
  · intro h o ho
    obtain ⟨a, ha, hao⟩ := List.mem_filterMap.mp ho
    cases hj : db.timeline.getPduJson a with
    | error err =>
      rw [hj] at hao
      cases hao
    | ok oj =>
      cases oj with
      | none =>
        rw [hj] at hao
        cases hao
      | some j =>
        rw [hj] at hao
        cases hao
        exact h a ha j hj

theorem unwrapPduJson_ok {t : TimelineTables} {id : EventId} :
    unwrapPduJson t id = .ok j ↔ t.getPduJson id = .ok (some j) := by
  unfold unwrapPduJson
  cases t.getPduJson id with
  | error err => exact iff_of_false nofun nofun
  | ok oj =>
    cases oj with
    | none => exact iff_of_false nofun nofun
    | some j' => simp

theorem outgoingState_ofRoom {pdus : List OutgoingPdu} (h : outgoingState db.timeline ids = .ok pdus) :
    (∀ o ∈ pdus, o.event.roomId = r) ↔ ∀ a ∈ ids, OfRoom db r a := by
  induction ids generalizing pdus with
  | nil =>
    cases h
    simp
  | cons a ids ih =>
    obtain ⟨j, hj, h⟩ := except_bind_eq_ok.mp h
    obtain ⟨rest, hrest, h⟩ := except_bind_eq_ok.mp h
    cases h
    have hj := unwrapPduJson_ok.mp hj
    have hof : OfRoom db r a ↔ j.outgoing.event.roomId = r := by
      refine ⟨fun ha => ha j hj, fun hr j' hj' => ?_⟩
      rw [hj] at hj'
      cases hj'
      exact hr
    simp only [List.forall_mem_cons, hof, ih hrest]

/-! ## when a response is confined -/

/-- the chain of the event is of the room -/
def ChainOfRoom (db : Db) (r : RoomId) (e : EventId) : Prop := ∀ a, ChainEvent db e a → OfRoom db r a

/-- what follows the checks: the query, and a response from its chain -/
theorem chainThen_run {fuel : Nat} {q : RoomId} {α : Type} (f : List EventId → TimelineTables → α)
    (hq : Comp.Ends (getAuthChain fuel q [e]) db
      (fun chain _ => ¬ Refused db q e ∧ ∀ a, a ∈ chain ↔ ChainEvent db e a)
      (fun err db' => Refused db q e ∨ StateDb.Exhausted err db'.state)) :
    Comp.Ends (do
        let chain ← getAuthChain fuel q [e]
        Comp.gets (fun db => f chain db.timeline) : RoomComp α) db
      (fun a _ => ¬ Refused db q e ∧ ∃ chain, (∀ a, a ∈ chain ↔ ChainEvent db e a) ∧
        a = f chain db.timeline)
      (fun err db' => Refused db q e ∨ StateDb.Exhausted err db'.state) := by
  have ht := getAuthChain_timeline fuel q [e] db
  unfold Comp.Ends at hq
  cases hrun : getAuthChain fuel q [e] db with
  | mk o db' =>
    rw [hrun] at hq ht
    cases o with
    | error err => exact Comp.Ends.of_error (Comp.bind_error hrun) hq
    | ok chain =>
      exact Comp.Ends.of_ok (Comp.bind_ok hrun) ⟨hq.1, chain, hq.2, congrArg (f chain) ht⟩

/-- a computation that ends so: its response is confined exactly if every possible one is -/
theorem confined_iff {α : Type} {x : RoomComp α} {refused : Prop} {P Q : α → Prop}
    (hx : Comp.Ends x db (fun a _ => ¬ refused ∧ P a)
      (fun err db' => refused ∨ StateDb.Exhausted err db'.state)) (hr : Runs x db) (C : Prop)
    (hC : ∀ a, P a → (Q a ↔ C)) :
    (∀ a db', x db = (.ok a, db') → Q a) ↔ (¬ refused → C) := by
  unfold Comp.Ends at hx
  cases hrun : x db with
  | mk o db' =>
    rw [hrun] at hx
    cases o with
    | error err =>
      refine iff_of_true (fun a db₁ h => by cases h) fun hn => ?_
      exact absurd (hx.resolve_left hn) (hr err db' hrun)
    | ok a =>
      constructor
      · exact fun h _ => (hC a hx.2).mp (h a db' rfl)
      · rintro h b db₁ hb
        cases hb
        exact (hC _ hx.2).mpr (h hx.1)

/-- a read in front of the rest -/
theorem confined_reads {α β : Type} {g : Db → Except Error β} {f : β → RoomComp α} {Q : α → Prop} (C : β → Prop)
    (hr : Runs (Comp.reads g >>= f) db)
    (h : ∀ b, g db = .ok b → Runs (f b) db → ((∀ a db', f b db = (.ok a, db') → Q a) ↔ C b)) :
    (∀ a db', (Comp.reads g >>= f) db = (.ok a, db') → Q a) ↔ ∀ b, g db = .ok b → C b := by
  unfold Runs at hr
  rw [Comp.reads_bind] at hr ⊢
  cases hg : g db with
  | error err => exact iff_of_true nofun nofun
  | ok b =>
    rw [hg] at hr
    refine (h b hg hr).trans ⟨fun hc b' hb' => ?_, fun hc => hc b rfl⟩
    cases hb'
    exact hc

theorem chainOfRoom_iff {chain : List EventId} (h : ∀ a, a ∈ chain ↔ ChainEvent db e a) :
    (∀ a ∈ chain, OfRoom db r a) ↔ ChainOfRoom db r e :=
  ⟨fun hc a ha => hc a ((h a).mpr ha), fun hc a ha => hc a ((h a).mp ha)⟩

section
variable {db : Db} {fuel : Nat} {server : ServerName} {r : RoomId} {e : EventId}
  (hq : ∀ q, Comp.Ends (getAuthChain fuel q [e]) db
    (fun chain _ => ¬ Refused db q e ∧ ∀ a, a ∈ chain ↔ ChainEvent db e a)
    (fun err db' => Refused db q e ∨ StateDb.Exhausted err db'.state))
include hq

theorem eventAuthorization_confined
    (hr : Runs (getEventAuthorizationRoute env fed fuel server r e) db) :
    (∀ events db', getEventAuthorizationRoute env fed fuel server r e db = (.ok events, db') →
        Shows db r e events []) ↔
      (db.checkServer env fed server r = .ok () → ∀ j, db.timeline.getPduJson e = .ok (some j) →
        ¬ Refused db j.pdu.roomId e → OfRoom db r e ∧ ChainOfRoom db r e) := by
  refine (confined_reads (fun _ => ∀ oj, db.timeline.getPduJson e = .ok oj → ∀ j, oj = some j →
    ¬ Refused db j.pdu.roomId e → OfRoom db r e ∧ ChainOfRoom db r e) hr fun _ _ hr => ?_).trans
    ⟨fun h hc j hj => h () hc _ hj j rfl, fun h _ hc oj hoj j hj => h hc j (hj ▸ hoj)⟩
  refine confined_reads _ hr fun oj hoj hr => ?_
  cases oj with
  | none => exact iff_of_true nofun nofun
  | some j =>
    have hends := chainThen_run (fun chain t => outgoingEvents t chain) (hq j.pdu.roomId)
    refine (confined_iff hends hr (OfRoom db r e ∧ ChainOfRoom db r e) fun events hev => ?_).trans
      ⟨fun h j' hj' => ?_, fun h => h j rfl⟩
    · obtain ⟨chain, hchain, rfl⟩ := hev
      rw [← chainOfRoom_iff hchain, ← outgoingEvents_ofRoom]
      exact ⟨fun hs => ⟨hs.asked, hs.events⟩,
        fun hs => ⟨hs.1, hs.2, fun a ha => absurd ha List.not_mem_nil⟩⟩
    · cases hj'
      exact h

theorem roomState_confined (hr : Runs (getRoomStateRoute env fed fuel server r e) db) :
    (∀ res db', getRoomStateRoute env fed fuel server r e db = (.ok res, db') →
        Shows db r e (res.1 ++ res.2) []) ↔
      (db.checkServer env fed server r = .ok () → ∀ state, db.stateIdsAt env e = .ok state →
        ∀ pdus, outgoingState db.timeline (state.rows.map Prod.snd) = .ok pdus →
        ¬ Refused db r e → (OfRoom db r e ∧ ChainOfRoom db r e) ∧
          ∀ a ∈ state.rows.map Prod.snd, OfRoom db r a) := by
  refine (confined_reads (fun _ => ∀ state, db.stateIdsAt env e = .ok state →
    ∀ pdus, outgoingState db.timeline (state.rows.map Prod.snd) = .ok pdus → ¬ Refused db r e →
      (OfRoom db r e ∧ ChainOfRoom db r e) ∧ ∀ a ∈ state.rows.map Prod.snd, OfRoom db r a)
    hr fun _ _ hr => ?_).trans ⟨fun h hc => h () hc, fun h _ hc => h hc⟩
  refine confined_reads _ hr fun state _ hr => confined_reads _ hr fun pdus hpdus hr => ?_
  have hends := chainThen_run (fun chain t => (pdus, outgoingEvents t chain)) (hq r)
  refine confined_iff hends hr _ fun res hres => ?_
  obtain ⟨chain, hchain, rfl⟩ := hres
  rw [← chainOfRoom_iff hchain, ← outgoingEvents_ofRoom, ← outgoingState_ofRoom hpdus]
  constructor
  · intro hs
    have hev := List.forall_mem_append.mp hs.events
    exact ⟨⟨hs.asked, hev.2⟩, hev.1⟩
  · intro hs
    exact ⟨hs.1.1, List.forall_mem_append.mpr ⟨hs.2, hs.1.2⟩, fun a ha => absurd ha List.not_mem_nil⟩

theorem roomStateIds_confined (hr : Runs (getRoomStateIdsRoute env fed fuel server r e) db) :
    (∀ res db', getRoomStateIdsRoute env fed fuel server r e db = (.ok res, db') →
        Shows db r e [] (res.1 ++ res.2)) ↔
      (db.checkServer env fed server r = .ok () → ∀ state, db.stateIdsAt env e = .ok state →
        ¬ Refused db r e → (OfRoom db r e ∧ ChainOfRoom db r e) ∧
          ∀ a ∈ state.rows.map Prod.snd, OfRoom db r a) := by
  refine (confined_reads (fun _ => ∀ state, db.stateIdsAt env e = .ok state → ¬ Refused db r e →
      (OfRoom db r e ∧ ChainOfRoom db r e) ∧ ∀ a ∈ state.rows.map Prod.snd, OfRoom db r a)
    hr fun _ _ hr => ?_).trans ⟨fun h hc => h () hc, fun h _ hc => h hc⟩
  refine confined_reads _ hr fun state _ hr => ?_
  have hends := chainThen_run (fun chain _ => (state.rows.map Prod.snd, chain)) (hq r)
  refine confined_iff hends hr _ fun res hres => ?_
  obtain ⟨chain, hchain, rfl⟩ := hres
  rw [← chainOfRoom_iff hchain]
  constructor
  · intro hs
    have hids := List.forall_mem_append.mp hs.ids
    exact ⟨⟨hs.asked, hids.2⟩, hids.1⟩
  · intro hs
    exact ⟨hs.1.1, fun o ho => absurd ho List.not_mem_nil, List.forall_mem_append.mpr ⟨hs.2, hs.1.2⟩⟩

end

/-- After any queries, evictions and changes of the other tables: a response of a route is confined
to the room of the path exactly if the server is not admitted, or nothing is found, or the query for
the auth chain is refused (which it never is if the chain is cached), or else the event, its state
and its auth chain are of the room. -/
theorem stateRoutes_confined_iff {db : Db} (h : ChainHistory db) (U : Finset EventId)
    (hU : ∀ e pdu, db.getPdu e = .ok (some pdu) → e ∈ U) (server : ServerName) (r : RoomId)
    (e : EventId) : ∃ n, ∀ fuel, n ≤ fuel →
    (Runs (getEventAuthorizationRoute env fed fuel server r e) db →
      ((∀ events db', getEventAuthorizationRoute env fed fuel server r e db = (.ok events, db') →
          Shows db r e events []) ↔
        (db.checkServer env fed server r = .ok () → ∀ j, db.timeline.getPduJson e = .ok (some j) →
          ¬ Refused db j.pdu.roomId e → OfRoom db r e ∧ ChainOfRoom db r e))) ∧
    (Runs (getRoomStateRoute env fed fuel server r e) db →
      ((∀ res db', getRoomStateRoute env fed fuel server r e db = (.ok res, db') →
          Shows db r e (res.1 ++ res.2) []) ↔
        (db.checkServer env fed server r = .ok () → ∀ state, db.stateIdsAt env e = .ok state →
          ∀ pdus, outgoingState db.timeline (state.rows.map Prod.snd) = .ok pdus →
          ¬ Refused db r e → (OfRoom db r e ∧ ChainOfRoom db r e) ∧
            ∀ a ∈ state.rows.map Prod.snd, OfRoom db r a))) ∧
    (Runs (getRoomStateIdsRoute env fed fuel server r e) db →
      ((∀ res db', getRoomStateIdsRoute env fed fuel server r e db = (.ok res, db') →
          Shows db r e [] (res.1 ++ res.2)) ↔
        (db.checkServer env fed server r = .ok () → ∀ state, db.stateIdsAt env e = .ok state →
          ¬ Refused db r e → (OfRoom db r e ∧ ChainOfRoom db r e) ∧
            ∀ a ∈ state.rows.map Prod.snd, OfRoom db r a))) := by
  obtain ⟨n, hn⟩ := getAuthChain_single h U hU
  refine ⟨n, fun fuel hfuel => ?_⟩
  have hq := fun q => hn fuel hfuel q e
  exact ⟨eventAuthorization_confined env fed hq, roomState_confined env fed hq,
    roomStateIds_confined env fed hq⟩

/-! ### an event of a room that the server is not in -/

def pathRoom : RoomId := ⟨.ascii "!path:x"⟩
def otherRoom : RoomId := ⟨.ascii "!other:x"⟩
def otherEvent : EventId := ⟨.ascii "$b"⟩
def otherAuth : EventId := ⟨.ascii "$c"⟩
def member : ServerName := ⟨.ascii "member"⟩
def stranger : ServerName := ⟨.ascii "stranger"⟩

def otherPdu (e : EventId) (authEvents : List EventId) : PduJson :=
  ⟨[], ⟨e, otherRoom, ⟨.ascii "@u:member"⟩, 0, .roomMessage, [], none, [], 0, authEvents, none, none⟩⟩

/-- two events of the other room; the state at the first of them is empty -/
def twoRooms : Db := { Db.empty with
  state := { StateDb.empty with
    counter := 2
    eventidShorteventid := Function.update (fun _ => none) otherEvent (some 1)
    shorteventidEventid := Function.update (fun _ => none) 1 (some otherEvent)
    shorteventidShortstatehash := Function.update (fun _ => none) 1 (some 2)
    shortstatehashStatediff := Function.update (fun _ => none) 2 (some (be64 0)) }
  timeline := (TimelineTables.empty.addPduOutlier otherEvent (otherPdu otherEvent [otherAuth])
    ).addPduOutlier otherAuth (otherPdu otherAuth [])
  roster := { Db.empty.roster with
    serverroomids := (Tree.empty.insert (stranger.bytes ++ sep :: pathRoom.bytes) ()).insert
      (member.bytes ++ sep :: otherRoom.bytes) () } }

theorem twoRooms_fresh : Fresh twoRooms := by
  refine ⟨⟨by decide, fun e n he => ?_, fun n e hn => ?_, fun e n he => ?_⟩, fun _ => rfl, fun _ => rfl⟩
  · change Function.update (fun _ => none) otherEvent (some 1) e = some n at he
    show Function.update (fun _ => none) 1 (some otherEvent) n = some e
    rcases update_some_eq_some.mp he with ⟨rfl, rfl⟩ | ⟨-, hnone⟩
    · rfl
    · cases hnone
  · change Function.update (fun _ => none) 1 (some otherEvent) n = some e at hn
    show Function.update (fun _ => none) otherEvent (some 1) e = some n
    rcases update_some_eq_some.mp hn with ⟨rfl, rfl⟩ | ⟨-, hnone⟩
    · rw [Function.update_self]
    · cases hnone
  · change Function.update (fun _ => none) otherEvent (some 1) e = some n at he
    show n ≤ 2
    rcases update_some_eq_some.mp he with ⟨-, rfl⟩ | ⟨-, hnone⟩
    · decide
    · cases hnone

theorem twoRooms_json (h : twoRooms.timeline.eventidOutlierpdu e = some j) :
    e ∈ ({otherEvent, otherAuth} : Finset EventId) ∧ j.pdu.roomId = otherRoom := by
  change Function.update (Function.update (fun _ => none) otherEvent _) otherAuth _ e = some j at h
  rw [Finset.mem_insert, Finset.mem_singleton]
  rcases update_some_eq_some.mp h with ⟨rfl, rfl⟩ | ⟨-, h⟩
  · exact ⟨Or.inr rfl, rfl⟩
  · rcases update_some_eq_some.mp h with ⟨rfl, rfl⟩ | ⟨-, hnone⟩
    · exact ⟨Or.inl rfl, rfl⟩
    · cases hnone

theorem twoRooms_getPdu (e : EventId) (pdu : PduEvent) (h : twoRooms.getPdu e = .ok (some pdu)) :
    e ∈ ({otherEvent, otherAuth} : Finset EventId) := by
  rw [getPdu_outlier rfl rfl] at h
  cases hj : twoRooms.timeline.eventidOutlierpdu e with
  | none =>
    rw [hj] at h
    cases h
  | some j => exact (twoRooms_json hj).1

theorem twoRooms_ofRoom (a : EventId) : OfRoom twoRooms otherRoom a := by
  intro j hj
  have hout : twoRooms.timeline.getPduJson a = .ok (twoRooms.timeline.eventidOutlierpdu a) := rfl
  rw [hout] at hj
  exact (twoRooms_json (Except.ok.inj hj)).2

/-- a server of the other room is told about its own events -/
theorem stateRoutes_confined_iff_member : ∃ n, ∀ fuel, n ≤ fuel →
    Runs (getEventAuthorizationRoute .plain .plain fuel member otherRoom otherEvent) twoRooms →
      ∀ events db', getEventAuthorizationRoute .plain .plain fuel member otherRoom otherEvent twoRooms
        = (.ok events, db') → Shows twoRooms otherRoom otherEvent events [] := by
  obtain ⟨n, hn⟩ := stateRoutes_confined_iff .plain .plain (.start twoRooms_fresh)
    {otherEvent, otherAuth} twoRooms_getPdu member otherRoom otherEvent
  exact ⟨n, fun fuel hfuel hr => ((hn fuel hfuel).1 hr).mpr fun _ _ _ _ =>
    ⟨twoRooms_ofRoom _, fun a _ => twoRooms_ofRoom a⟩⟩

/-- the rooms of the events in a response -/
def roomsOf (x : RoomComp (List OutgoingPdu)) (db : Db) : Option (List RoomId) :=
  (x db).1.toOption.map (List.map fun o => o.event.roomId)

/-- A stranger to the room names an event of it under the path of its own room.  The auth chain of
the event is handed out at once; its state only when a query has cached the chain. -/
theorem stateRoutes_leak :
    roomsOf (getEventAuthorizationRoute .plain .plain 3 stranger pathRoom otherEvent) twoRooms
        = some [otherRoom] ∧
      (getRoomStateIdsRoute .plain .plain 3 stranger pathRoom otherEvent twoRooms).1.toOption = none ∧
      (getRoomStateIdsRoute .plain .plain 3 stranger pathRoom otherEvent
        (getAuthChain 3 otherRoom [otherEvent] twoRooms).2).1.toOption = some ([], [otherAuth]) ∧
      twoRooms.timeline.eventidOutlierpdu otherAuth = some (otherPdu otherAuth []) ∧
      (otherPdu otherAuth []).pdu.roomId ≠ pathRoom := by
  refine ⟨by decide +kernel, by decide +kernel, by decide +kernel, rfl, by decide⟩

end Db
end Grapevine
