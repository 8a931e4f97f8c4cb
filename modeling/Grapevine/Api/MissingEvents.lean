import Grapevine.Api.StateRoutes
import Grapevine.Lib.Walks

/-!
# The events that a server is missing

`get_missing_events_route` walks from the latest events along `prev_events`, breadth first, and sends what it
finds.  It passes over events that are not stored, that the server has, or that the server may not see.

* `getMissingEventsRoute`   the route;
* `Shown`                   an event that it does not pass over;
* `Missing`                 an event that is reached along events that are shown;
* `MissingExact`            the response is the set of the missing events, up to the limit.

Main result: `getMissingEventsRoute_exact_iff`.  The route remembers no event: an event is sent once for each walk
to it.
-/

namespace Grapevine
open Kv

/-- an event in the response, with the id that it was loaded by.  The code sends the JSON only -/
structure SentPdu where
  id : EventId
  json : JsonObject

namespace Db

/-! ## the route -/

section
variable (t : TimelineTables) (r : RoomId) (earliestEvents : List EventId)
variable (see : EventId → Except Error Bool)

/-- one event of the queue: the events that are queued behind it, if it is sent.  `see` is what
`server_can_see_event` answers -/
def visitMissing (e : EventId) : Except Error (Option (List EventId)) :=
  match t.getPduJson e with
  | .error err => .error err
  | .ok none => .ok none
  | .ok (some pdu) =>
    if pdu.pdu.roomId ≠ r then .error (.badRequest .invalidParam "Evil event detected")
    else if e ∈ earliestEvents then .ok none
    else
      match see e with
      | .error err => .error err
      | .ok false => .ok none
      | .ok true => .ok (some pdu.pdu.prevEvents)

def sentPdu (e : EventId) : Option SentPdu :=
  match t.getPduJson e with
  | .ok (some pdu) => some ⟨e, convertToOutgoingFederationEvent pdu.json⟩
  | _ => none

end

def getMissingEventsRoute (env : Env) (fed : Fed) (see : EventId → Except Error Bool) (db : Db) (server : ServerName)
    (r : RoomId) (earliestEvents latestEvents : List EventId) (limit : Nat) : Except Error (List SentPdu) :=
  if db.serverInRoom server r then do
    db.aclCheck env fed server r
    let ids ← Walks.loop (visitMissing db.timeline r earliestEvents see) limit 0 latestEvents []
    pure (ids.filterMap (sentPdu db.timeline))
  else .error (.badRequest .forbidden "Server is not in room")

/-! ## what is missing -/

section
variable (t : TimelineTables) (r : RoomId) (earliestEvents latestEvents : List EventId)
variable (see : EventId → Except Error Bool)
variable {e : EventId}

/-- stored, of the room, not one that the server has, and not hidden from it -/
def Shown (e : EventId) : Prop :=
  (∃ j, t.getPduJson e = .ok (some j) ∧ j.pdu.roomId = r) ∧ e ∉ earliestEvents ∧ see e = .ok true

inductive Missing : EventId → Prop
  | latest {e : EventId} : e ∈ latestEvents → Shown t r earliestEvents see e → Missing e
  | prev {e prev : EventId} {j : PduJson} : Missing e → t.getPduJson e = .ok (some j) → prev ∈ j.pdu.prevEvents →
      Shown t r earliestEvents see prev → Missing prev

/-- no event twice, only missing ones, and all of them below the limit -/
def MissingExact (limit : Nat) (events : List SentPdu) : Prop :=
  (events.map SentPdu.id).Nodup ∧
    (∀ o ∈ events, Missing t r earliestEvents latestEvents see o.id) ∧
    (events.length < limit → ∀ e, Missing t r earliestEvents latestEvents see e → e ∈ events.map SentPdu.id)

/-- a walk from the latest events along events that are shown, by the places that it takes -/
def MissingWalk (p : List Nat) (e : EventId) : Prop :=
  Walks.Walk (visitMissing t r earliestEvents see) latestEvents p e

/-- of two walks to one event, the later one has `limit` walks before it -/
def NoMeeting (limit : Nat) : Prop :=
  ∀ p q e, Walks.Before p q → MissingWalk t r earliestEvents latestEvents see p e →
    MissingWalk t r earliestEvents latestEvents see q e →
      Walks.Crowded (visitMissing t r earliestEvents see) latestEvents limit q

variable {t r earliestEvents latestEvents see}

theorem visitMissing_eq_some {next : List EventId} :
    visitMissing t r earliestEvents see e = .ok (some next) ↔
      Shown t r earliestEvents see e ∧ ∃ j, t.getPduJson e = .ok (some j) ∧ next = j.pdu.prevEvents := by
  unfold visitMissing Shown
  cases t.getPduJson e with
  | error err =>
    refine iff_of_false (fun h => by cases h) fun h => ?_
    obtain ⟨⟨⟨j, hj, -⟩, -⟩, -⟩ := h
    cases hj
  | ok o =>
    cases o with
    | none =>
      refine iff_of_false (fun h => by cases h) fun h => ?_
      obtain ⟨⟨⟨j, hj, -⟩, -⟩, -⟩ := h
      cases hj
    | some pdu =>
      show (if pdu.pdu.roomId ≠ r then _ else if e ∈ earliestEvents then _ else match see e with
        | .error err => _ | .ok false => _ | .ok true => _) = _ ↔ _
      by_cases hroom : pdu.pdu.roomId = r
      · rw [if_neg (not_not.mpr hroom)]
        by_cases hearliest : e ∈ earliestEvents
        · rw [if_pos hearliest]
          exact iff_of_false (fun h => by cases h) fun h => h.1.2.1 hearliest
        · rw [if_neg hearliest]
          rcases hsee : see e with err | visible
          · exact iff_of_false (fun h => by cases h) fun h => by cases h.1.2.2
          · cases visible with
            | false => exact iff_of_false (fun h => by cases h) fun h => by cases h.1.2.2
            | true =>
              refine ⟨fun h => ⟨⟨⟨pdu, rfl, hroom⟩, hearliest, rfl⟩, pdu, rfl, ?_⟩, fun h => ?_⟩
              · cases h
                rfl
              · obtain ⟨-, j, hj, rfl⟩ := h
                cases hj
                rfl
      · rw [if_pos hroom]
        refine iff_of_false (fun h => by cases h) fun h => ?_
        obtain ⟨⟨⟨j, hj, hr⟩, -⟩, -⟩ := h
        cases hj
        exact hroom hr

theorem sends_iff_shown : Walks.sends (visitMissing t r earliestEvents see) e = true ↔
    Shown t r earliestEvents see e := by
  rw [Walks.sends_iff, visitMissing_eq_some]
  refine ⟨And.left, fun h => ⟨h, ?_⟩⟩
  obtain ⟨j, hj, -⟩ := h.1
  have hvisit := visitMissing_eq_some.mpr ⟨h, j, hj, rfl⟩
  refine ⟨j, hj, ?_⟩
  unfold Walks.nexts
  rw [hvisit]

theorem nexts_eq {j : PduJson} (h : Shown t r earliestEvents see e) (hj : t.getPduJson e = .ok (some j)) :
    Walks.nexts (visitMissing t r earliestEvents see) e = j.pdu.prevEvents := by
  unfold Walks.nexts
  rw [visitMissing_eq_some.mpr ⟨h, j, hj, rfl⟩]

theorem missing_iff : Missing t r earliestEvents latestEvents see e ↔
    ∃ p, MissingWalk t r earliestEvents latestEvents see p e := by
  refine ⟨fun h => ?_, fun h => ?_⟩
  · induction h with
    | latest hmem hshown =>
      obtain ⟨i, hi⟩ := List.mem_iff_getElem?.mp hmem
      exact ⟨[i], .first hi (sends_iff_shown.mpr hshown)⟩
    | prev _ hj hmem hshown ih =>
      obtain ⟨p, hwalk⟩ := ih
      have hsent := sends_iff_shown.mp hwalk.sent
      obtain ⟨i, hi⟩ := List.mem_iff_getElem?.mp hmem
      exact ⟨p ++ [i], .next hwalk (by rw [nexts_eq hsent hj]; exact hi) (sends_iff_shown.mpr hshown)⟩
  · obtain ⟨p, hwalk⟩ := h
    induction hwalk with
    | first hget hsend => exact .latest (List.mem_of_getElem? hget) (sends_iff_shown.mp hsend)
    | next hwalk hget hsend ih =>
      have hsent := sends_iff_shown.mp hwalk.sent
      obtain ⟨j, hj, -⟩ := hsent.1
      rw [nexts_eq hsent hj] at hget
      exact .prev ih hj (List.mem_of_getElem? hget) (sends_iff_shown.mp hsend)

/-- every event that is sent is stored -/
theorem sentPdu_ids {ids : List EventId} (h : ∀ e ∈ ids, ∃ j, t.getPduJson e = .ok (some j)) :
    (ids.filterMap (sentPdu t)).map SentPdu.id = ids := by
  induction ids with
  | nil => rfl
  | cons e ids ih =>
    obtain ⟨⟨j, hj⟩, hrest⟩ := List.forall_mem_cons.mp h
    have hsent : sentPdu t e = some ⟨e, convertToOutgoingFederationEvent j.json⟩ := by
      unfold sentPdu
      rw [hj]
    rw [List.filterMap_cons_some hsent, List.map_cons, ih hrest]

end

section
variable {env : Env} {fed : Fed} {see : EventId → Except Error Bool} {db : Db} {server : ServerName} {r : RoomId}
variable {earliestEvents latestEvents : List EventId} {limit : Nat} {events : List SentPdu}

/-- a response is what the loop has sent -/
theorem getMissingEventsRoute_ok
    (h : getMissingEventsRoute env fed see db server r earliestEvents latestEvents limit = .ok events) :
    ∃ ids, Walks.loop (visitMissing db.timeline r earliestEvents see) limit 0 latestEvents [] = .ok ids ∧
      events.map SentPdu.id = ids := by
  unfold getMissingEventsRoute at h
  by_cases hin : db.serverInRoom server r = true
  · rw [if_pos hin] at h
    obtain ⟨-, -, h⟩ := except_bind_eq_ok.mp h
    obtain ⟨ids, hids, h⟩ := except_bind_eq_ok.mp h
    cases h
    refine ⟨ids, hids, sentPdu_ids fun e he => ?_⟩
    obtain ⟨p, hwalk⟩ := Walks.loop_sound hids he
    obtain ⟨j, hj, -⟩ := (sends_iff_shown.mp hwalk.sent).1
    exact ⟨j, hj⟩
  · rw [if_neg hin] at h
    cases h

/-- **the missing events**: a response is the set of them, up to the limit, iff of two walks to one event the later
one has `limit` walks before it -/
theorem getMissingEventsRoute_exact_iff
    (h : getMissingEventsRoute env fed see db server r earliestEvents latestEvents limit = .ok events) :
    MissingExact db.timeline r earliestEvents latestEvents see limit events ↔
      NoMeeting db.timeline r earliestEvents latestEvents see limit := by
  obtain ⟨ids, hids, rfl⟩ := getMissingEventsRoute_ok h
  refine ⟨fun hexact => (Walks.loop_nodup_iff hids).mp hexact.1, fun hmeet => ?_⟩
  refine ⟨(Walks.loop_nodup_iff hids).mpr hmeet, fun o ho => ?_, fun hless e hmissing => ?_⟩
  · exact missing_iff.mpr (Walks.loop_sound hids (List.mem_map_of_mem ho))
  · obtain ⟨p, hwalk⟩ := missing_iff.mp hmissing
    exact Walks.loop_complete hids ((List.length_map _).trans_lt hless) hwalk

end

/-! ## a diamond -/

namespace Diamond

def eventA : EventId := ⟨.ascii "$a"⟩
def eventB : EventId := ⟨.ascii "$b"⟩
def eventC : EventId := ⟨.ascii "$c"⟩
def eventD : EventId := ⟨.ascii "$d"⟩

def pdu (e : EventId) (prevEvents : List EventId) : PduJson :=
  ⟨[], ⟨e, pathRoom, ⟨.ascii "@u:member"⟩, 0, .roomMessage, [], none, prevEvents, 0, [], none, none⟩⟩

/-- two events behind the first one, and an event behind both -/
def db : Db := { Db.empty with
  timeline := (((TimelineTables.empty.addPduOutlier eventA (pdu eventA [])).addPduOutlier eventB
    (pdu eventB [eventA])).addPduOutlier eventC (pdu eventC [eventA])).addPduOutlier eventD (pdu eventD [eventB, eventC])
  roster := { Db.empty.roster with
    serverroomids := Tree.empty.insert (stranger.bytes ++ sep :: pathRoom.bytes) () } }

def ask (latest : EventId) (limit : Nat) : Except Error (List SentPdu) :=
  getMissingEventsRoute .plain .plain (fun _ => .ok true) db stranger pathRoom [] [latest] limit

theorem ask_ids (latest : EventId) (limit : Nat) {ids : List EventId}
    (h : Walks.collect (visitMissing db.timeline pathRoom [] fun _ => .ok true) limit [latest] = .ok ids) :
    ∃ events, ask latest limit = .ok events ∧ events.map SentPdu.id = ids := by
  have hloop : Walks.loop (visitMissing db.timeline pathRoom [] fun _ => .ok true) limit 0 [latest] [] = .ok ids := by
    rw [Walks.loop_eq]
    show (Walks.collect _ limit [latest]).map _ = _
    rw [h]
    rfl
  have hroute : ask latest limit = .ok (ids.filterMap (sentPdu db.timeline)) := by
    unfold ask getMissingEventsRoute
    rw [hloop]
    rfl
  obtain ⟨ids', hids', hmap⟩ := getMissingEventsRoute_ok hroute
  rw [hloop] at hids'
  exact ⟨_, hroute, hmap.trans (Except.ok.inj hids').symm⟩

end Diamond

/-- behind one side of the diamond no event is reached twice -/
theorem getMissingEventsRoute_exact_iff_side : ∃ events, Diamond.ask Diamond.eventB 10 = .ok events ∧
    (MissingExact Diamond.db.timeline pathRoom [] [Diamond.eventB] (fun _ => .ok true) 10 events ↔
      NoMeeting Diamond.db.timeline pathRoom [] [Diamond.eventB] (fun _ => .ok true) 10) := by
  obtain ⟨events, hok, -⟩ := @Diamond.ask_ids Diamond.eventB 10 [Diamond.eventB, Diamond.eventA] (by rfl)
  exact ⟨events, hok, getMissingEventsRoute_exact_iff hok⟩

/-- the first event is sent twice, once for each side -/
theorem getMissingEventsRoute_repeats : ∃ events, Diamond.ask Diamond.eventD 10 = .ok events ∧
    ¬ MissingExact Diamond.db.timeline pathRoom [] [Diamond.eventD] (fun _ => .ok true) 10 events := by
  obtain ⟨events, hok, hids⟩ := @Diamond.ask_ids Diamond.eventD 10
    [Diamond.eventD, Diamond.eventB, Diamond.eventC, Diamond.eventA, Diamond.eventA] (by rfl)
  refine ⟨events, hok, fun hexact => ?_⟩
  have hnodup := hexact.1
  rw [hids] at hnodup
  exact absurd hnodup (by decide)

end Db
end Grapevine
