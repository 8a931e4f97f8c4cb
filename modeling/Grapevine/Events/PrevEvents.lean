import Grapevine.Lib.Sorting
import Grapevine.Events.Incoming

/-!
# The order of missing prev events

`fetchUnknownPrevEvents` walks from the prev events of an event to theirs, over a stack, and sorts
what it has seen.

* `Look`, `Walk`   the rounds of the walk, one after the other, with what was fetched in each;
* `Served`         the prev events that the walk was told of;
* `Noted`          what the walk has noted between two rounds: every event it refers to is noted or
                   still on the stack, and a newer event keeps its prev events unless it was looked
                   at again in vain.

An event may lie on the stack twice.  If the limit was reached in between, or if it cannot be found
again, the second look takes its prev events away, and leaves it in the map.
-/

namespace Grapevine
open Kv

/-- one event of the stack, with what the loop got for it -/
structure Look where
  event : EventId
  /-- the number of events that were followed before -/
  amount : Nat
  fetched : Option (PduEvent × Option JsonObject)
  outlier : Option JsonObject

namespace Look

/-- what the loop goes on from, unless the limit was reached or something is missing -/
def noted (maxFetchPrevEvents : Nat) (l : Look) : Option PduJson :=
  if l.amount > maxFetchPrevEvents then none
  else l.fetched.bind fun f => (f.2.orElse fun _ => l.outlier).map fun json => ⟨json, f.1⟩

def InVain (maxFetchPrevEvents : Nat) (l : Look) : Prop := l.noted maxFetchPrevEvents = none

theorem fetched_of_noted {m : Nat} {l : Look} {j : PduJson} (h : l.noted m = some j) :
    ∃ f, l.fetched = some f ∧ f.1 = j.pdu := by
  unfold noted at h
  split at h
  · cases h
  · obtain ⟨f, hf, hj⟩ := Option.bind_eq_some_iff.mp h
    obtain ⟨json, -, rfl⟩ := Option.map_eq_some_iff.mp hj
    exact ⟨f, hf, rfl⟩

end Look

/-- the event `a` was received with the prev event `b` -/
def Served (looks : List Look) (a b : EventId) : Prop :=
  ∃ l ∈ looks, ∃ f, l.event = a ∧ l.fetched = some f ∧ b ∈ f.1.prevEvents

/-- the event was noted, and then looked at again in vain -/
def CutOff (m : Nat) (looks : List Look) (e : EventId) : Prop :=
  ∃ before l rest, looks = before ++ l :: rest ∧ l.event = e ∧ l.InVain m ∧
    ∃ k ∈ before, k.event = e ∧ ¬ k.InVain m

theorem CutOff.append {m : Nat} {looks : List Look} {e : EventId} (h : CutOff m looks e)
    (more : List Look) : CutOff m (looks ++ more) e := by
  obtain ⟨before, l, rest, rfl, hl⟩ := h
  exact ⟨before, l, rest ++ more, List.append_assoc _ _ _, hl⟩

theorem Served.mono {looks looks' : List Look} (hsub : ∀ l ∈ looks, l ∈ looks') {a b : EventId}
    (h : Served looks a b) : Served looks' a b := by
  obtain ⟨l, hl, f, hf⟩ := h
  exact ⟨l, hsub l hl, f, hf⟩

namespace Db

variable {p : PrevEvents} {looks : List Look} {initial s sorted todo : List EventId}
  {info : List (EventId × PduJson)} {db : Db} {version : RoomVersionId} {createEvent : PduEvent}
  {origin : ServerName} {a e : EventId} {fuel m : Nat} {r : RoomId} {env : Env} {fed : Fed}

namespace PrevEvents

variable {p : PrevEvents} {first : PduEvent} {e : EventId} {refs : List EventId}
variable {i : EventId × PduJson} {j : PduJson}

theorem mem_insertNode {x : EventId × List EventId} :
    x ∈ (p.insertNode e refs).graph ↔ x = (e, refs) ∨ x ∈ p.graph ∧ x.1 ≠ e := by
  rw [insertNode, List.mem_cons, List.mem_filter, decide_eq_true_iff]

theorem mem_nodes_insertNode :
    a ∈ Sorting.nodes (p.insertNode e refs).graph ↔ a = e ∨ a ∈ Sorting.nodes p.graph := by
  constructor
  · intro h
    obtain ⟨x, hx, rfl⟩ := List.mem_map.mp h
    rcases mem_insertNode.mp hx with rfl | ⟨hx, _⟩
    · exact Or.inl rfl
    · exact Or.inr (List.mem_map_of_mem hx)
  · intro h
    by_cases ha : a = e
    · rw [ha]
      exact List.mem_map_of_mem (mem_insertNode.mpr (Or.inl rfl))
    · obtain ⟨x, hx, rfl⟩ := List.mem_map.mp (h.resolve_left ha)
      exact List.mem_map_of_mem (mem_insertNode.mpr (Or.inr ⟨hx, ha⟩))

theorem nodes_insertNode_nodup (h : (Sorting.nodes p.graph).Nodup) :
    (Sorting.nodes (p.insertNode e refs).graph).Nodup := by
  refine List.nodup_cons.mpr ⟨fun hmem => ?_, h.sublist (List.filter_sublist.map Prod.fst)⟩
  obtain ⟨x, hx, hxe⟩ := List.mem_map.mp hmem
  exact of_decide_eq_true (List.mem_filter.mp hx).2 hxe

theorem edge_insertNode {b : EventId} :
    Sorting.Edge (p.insertNode e refs).graph a b ↔
      (a = e ∧ b ∈ refs) ∨ (a ≠ e ∧ Sorting.Edge p.graph a b) := by
  constructor
  · intro h
    obtain ⟨x, hx, rfl, hb⟩ := h
    rcases mem_insertNode.mp hx with rfl | ⟨hx, hne⟩
    · exact Or.inl ⟨rfl, hb⟩
    · exact Or.inr ⟨hne, x, hx, rfl, hb⟩
  · intro h
    rcases h with ⟨rfl, hb⟩ | ⟨hne, x, hx, rfl, hb⟩
    · exact ⟨_, mem_insertNode.mpr (Or.inl rfl), rfl, hb⟩
    · exact ⟨x, mem_insertNode.mpr (Or.inr ⟨hx, hne⟩), rfl, hb⟩

theorem mem_insertInfo :
    i ∈ (p.insertInfo e j).eventidInfo ↔ i = (e, j) ∨ i ∈ p.eventidInfo ∧ i.1 ≠ e := by
  rw [insertInfo, List.mem_cons, List.mem_filter, decide_eq_true_iff]

theorem knows_iff : p.knows e = true ↔ e ∈ Sorting.nodes p.graph := by
  rw [knows, List.any_eq_true]
  constructor
  · intro h
    obtain ⟨x, hx, hxe⟩ := h
    exact List.mem_map.mpr ⟨x, hx, of_decide_eq_true hxe⟩
  · intro h
    obtain ⟨x, hx, hxe⟩ := List.mem_map.mp h
    exact ⟨x, hx, decide_eq_true hxe⟩

/-- a round, and the prev events that are to be looked at because of it -/
def after (m : Nat) (first : PduEvent) (p : PrevEvents) (l : Look) : PrevEvents × List EventId :=
  match l.noted m with
  | some j => p.note first l.event j
  | none => (p.insertNode l.event [], [])

/-- what is noted after the looks, with the stack `todo` -/
structure Noted (m : Nat) (first : PduEvent) (looks : List Look) (todo : List EventId)
    (p : PrevEvents) : Prop where
  nodup : (Sorting.nodes p.graph).Nodup
  served : ∀ a b, Sorting.Edge p.graph a b → Grapevine.Served looks a b
  closed : ∀ a b, Sorting.Edge p.graph a b → b ∈ Sorting.nodes p.graph ∨ b ∈ todo
  known : ∀ i ∈ p.eventidInfo, i.1 ∈ Sorting.nodes p.graph
  seen : ∀ i ∈ p.eventidInfo, ∃ l ∈ looks, l.event = i.1 ∧ ¬ l.InVain m
  kept : ∀ i ∈ p.eventidInfo, (i.1, i.2.pdu.prevEvents) ∈ p.graph ∨
    ¬ first.originServerTs < i.2.pdu.originServerTs ∨ CutOff m looks i.1

theorem noted_empty (m : Nat) (first : PduEvent) (todo : List EventId) :
    Noted m first [] todo .empty where
  nodup := List.nodup_nil
  served a b h := by
    obtain ⟨x, hx, _⟩ := h
    cases hx
  closed a b h := by
    obtain ⟨x, hx, _⟩ := h
    cases hx
  known i h := absurd h List.not_mem_nil
  seen i h := absurd h List.not_mem_nil
  kept i h := absurd h List.not_mem_nil

section
variable {m : Nat} {looks : List Look} {todo new : List EventId} {l : Look}
  (h : Noted m first looks (l.event :: todo) p)
include h

/-- the part of a round that concerns the graph and the events noted before -/
theorem Noted.insertNode (href : ∀ b ∈ refs, Grapevine.Served (looks ++ [l]) l.event b)
    (hnew : ∀ b ∈ refs, b ∈ Sorting.nodes p.graph ∨ b ∈ new) :
    (Sorting.nodes (p.insertNode l.event refs).graph).Nodup ∧
    (∀ a b, Sorting.Edge (p.insertNode l.event refs).graph a b → Grapevine.Served (looks ++ [l]) a b) ∧
    (∀ a b, Sorting.Edge (p.insertNode l.event refs).graph a b →
      b ∈ Sorting.nodes (p.insertNode l.event refs).graph ∨ b ∈ new ++ todo) ∧
    (∀ i ∈ p.eventidInfo, i.1 ∈ Sorting.nodes (p.insertNode l.event refs).graph) := by
  refine ⟨nodes_insertNode_nodup h.nodup, fun a b hab => ?_, fun a b hab => ?_, fun i hi => ?_⟩
  · rcases edge_insertNode.mp hab with ⟨rfl, hb⟩ | ⟨-, hab⟩
    · exact href b hb
    · exact (h.served a b hab).mono fun _ => List.mem_append_left _
  · rw [mem_nodes_insertNode, List.mem_append]
    rcases edge_insertNode.mp hab with ⟨-, hb⟩ | ⟨-, hab⟩
    · rcases hnew b hb with hb | hb
      · exact Or.inl (Or.inr hb)
      · exact Or.inr (Or.inl hb)
    · rcases h.closed a b hab with hb | hb
      · exact Or.inl (Or.inr hb)
      · rcases List.mem_cons.mp hb with hb | hb
        · exact Or.inl (Or.inl hb)
        · exact Or.inr (Or.inr hb)
  · exact mem_nodes_insertNode.mpr (Or.inr (h.known i hi))

/-- the events other than that of the round are kept as they were -/
theorem Noted.kept_other (hi : i ∈ p.eventidInfo) (hne : i.1 ≠ l.event) :
    (i.1, i.2.pdu.prevEvents) ∈ (p.insertNode l.event refs).graph ∨
      ¬ first.originServerTs < i.2.pdu.originServerTs ∨ CutOff m (looks ++ [l]) i.1 := by
  rcases h.kept i hi with hg | ho | hcut
  · exact Or.inl (mem_insertNode.mpr (Or.inr ⟨hg, hne⟩))
  · exact Or.inr (Or.inl ho)
  · exact Or.inr (Or.inr (hcut.append [l]))

theorem Noted.seen_append (hi : i ∈ p.eventidInfo) :
    ∃ k ∈ looks ++ [l], k.event = i.1 ∧ ¬ k.InVain m := by
  obtain ⟨k, hk, hke⟩ := h.seen i hi
  exact ⟨k, List.mem_append_left _ hk, hke⟩

theorem Noted.after_vain (hv : l.InVain m) :
    Noted m first (looks ++ [l]) todo (p.insertNode l.event []) := by
  obtain ⟨hn, hs, hc, hk⟩ := @Noted.insertNode p first [] m looks todo [] l h
    (fun b hb => absurd hb List.not_mem_nil) (fun b hb => absurd hb List.not_mem_nil)
  refine ⟨hn, hs, hc, hk, fun i hi => h.seen_append hi, fun i hi => ?_⟩
  by_cases hne : i.1 = l.event
  · exact Or.inr (Or.inr ⟨looks, l, [], rfl, hne.symm, hv, h.seen i hi⟩)
  · exact h.kept_other hi hne

/-- an object that was noted, with the prev events that it is left with -/
theorem Noted.after_known {q : PrevEvents} (hl : l.noted m = some j)
    (hgraph : q.graph = (p.insertNode l.event refs).graph)
    (hinfo : q.eventidInfo = (p.insertInfo l.event j).eventidInfo)
    (href : ∀ b ∈ refs, Grapevine.Served (looks ++ [l]) l.event b)
    (hnew : ∀ b ∈ refs, b ∈ Sorting.nodes p.graph ∨ b ∈ new)
    (hj : refs = j.pdu.prevEvents ∨ ¬ first.originServerTs < j.pdu.originServerTs) :
    Noted m first (looks ++ [l]) (new ++ todo) q := by
  obtain ⟨hn, hs, hc, hk⟩ := h.insertNode href hnew
  rw [← hgraph] at hn hs hc hk
  refine ⟨hn, hs, hc, fun i hi => ?_, fun i hi => ?_, fun i hi => ?_⟩
  · rw [hinfo] at hi
    rcases mem_insertInfo.mp hi with rfl | ⟨hi, -⟩
    · rw [hgraph]
      exact mem_nodes_insertNode.mpr (Or.inl rfl)
    · exact hk i hi
  · rw [hinfo] at hi
    rcases mem_insertInfo.mp hi with rfl | ⟨hi, -⟩
    · refine ⟨l, List.mem_append_right _ (List.mem_singleton.mpr rfl), rfl, fun hvain => ?_⟩
      cases hl.symm.trans hvain
    · exact h.seen_append hi
  · rw [hinfo] at hi
    rw [hgraph]
    rcases mem_insertInfo.mp hi with rfl | ⟨hi, hne⟩
    · rcases hj with rfl | ho
      · exact Or.inl (mem_insertNode.mpr (Or.inl rfl))
      · exact Or.inr (Or.inl ho)
    · exact h.kept_other hi hne

theorem Noted.after :
    Noted m first (looks ++ [l]) ((p.after m first l).2.reverse ++ todo) (p.after m first l).1 := by
  unfold PrevEvents.after
  cases hl : l.noted m with
  | none => exact h.after_vain hl
  | some j =>
    obtain ⟨f, hf, hfj⟩ := Look.fetched_of_noted hl
    show Noted m first _ ((p.note first l.event j).2.reverse ++ todo) (p.note first l.event j).1
    unfold note
    by_cases ho : first.originServerTs < j.pdu.originServerTs
    · rw [if_pos ho]
      refine h.after_known hl rfl rfl (fun b hb => ?_) (fun b hb => ?_) (Or.inl rfl)
      · refine ⟨l, List.mem_append_right _ (List.mem_singleton.mpr rfl), f, rfl, hf, ?_⟩
        rw [hfj]
        exact hb
      · by_cases hknown : p.knows b = true
        · exact Or.inl (knows_iff.mp hknown)
        · refine Or.inr (List.mem_reverse.mpr (List.mem_filter.mpr ⟨hb, ?_⟩))
          rw [Bool.eq_false_iff.mpr hknown]
          rfl
    · rw [if_neg ho]
      exact h.after_known hl rfl rfl (fun b hb => absurd hb List.not_mem_nil)
        (fun b hb => absurd hb List.not_mem_nil) (Or.inr ho)

end

end PrevEvents

/-! ## the walk -/

section
variable (env : Env) (fed : Fed) (fuel : Nat) (origin : ServerName) (createEvent : PduEvent)
  (r : RoomId) (version : RoomVersionId) (first : PduEvent)
variable {pdus : List (PduEvent × Option JsonObject)}

/-- what the loop gets for the event at the top of the stack, in the store after the fetch -/
def look (db : Db) (e : EventId) (amount : Nat) (pdus : List (PduEvent × Option JsonObject)) : Look :=
  ⟨e, amount, pdus.getLast?, (db.timeline.eventidOutlierpdu e).map PduJson.json⟩

/-- the rounds of the loop from a store and a stack on, and what is noted at the end -/
inductive Walk : Db → List EventId → PrevEvents → List Look → PrevEvents → Prop
  | done (db : Db) (p : PrevEvents) : Walk db [] p [] p
  | round {db db' : Db} {e : EventId} {todo : List EventId} {p p' : PrevEvents} {looks : List Look}
      {pdus : List (PduEvent × Option JsonObject)} :
      fetchAndHandleOutliers env fed fuel origin createEvent r version [e] db = (.ok pdus, db') →
      Walk db' ((p.after fed.maxFetchPrevEvents first (look db' e p.amount pdus)).2.reverse ++ todo)
        (p.after fed.maxFetchPrevEvents first (look db' e p.amount pdus)).1 looks p' →
      Walk db (e :: todo) p (look db' e p.amount pdus :: looks) p'

variable {env fed fuel origin createEvent r version first}

theorem notePrevEvent_eq {fetched : PduEvent × Option JsonObject} (h : pdus.getLast? = some fetched) :
    db.notePrevEvent fed first e p fetched =
      p.after fed.maxFetchPrevEvents first (look db e p.amount pdus) := by
  unfold notePrevEvent PrevEvents.after Look.noted look
  rw [h]
  by_cases hlimit : p.amount > fed.maxFetchPrevEvents
  · rw [if_pos hlimit, if_pos hlimit]
  · rw [if_neg hlimit, if_neg hlimit]
    show _ = match Option.map _ (fetched.2.orElse fun _ =>
        (db.timeline.eventidOutlierpdu e).map PduJson.json) with
      | some j => p.note first e j
      | none => _
    cases fetched.2.orElse fun _ => (db.timeline.eventidOutlierpdu e).map PduJson.json with
    | none => rfl
    | some json => rfl

theorem after_of_none (h : pdus.getLast? = none) :
    p.after fed.maxFetchPrevEvents first (look db e p.amount pdus) = (p.insertNode e [], []) := by
  unfold PrevEvents.after Look.noted look
  rw [h]
  by_cases hlimit : p.amount > fed.maxFetchPrevEvents
  · rw [if_pos hlimit]
  · rw [if_neg hlimit]
    rfl

/-- a loop that ended well is a walk -/
theorem walk_of_run (rounds : Nat) (todo : List EventId) (p p' : PrevEvents) (db db' : Db)
    (h : fetchPrevEvents env fed fuel origin createEvent r version first rounds todo p db
      = (.ok p', db')) :
    ∃ looks, Walk env fed fuel origin createEvent r version first db todo p looks p' := by
  induction rounds generalizing todo p db with
  | zero =>
    cases todo with
    | nil =>
      cases h
      exact ⟨[], .done _ _⟩
    | cons e todo => cases h
  | succ rounds ih =>
    cases todo with
    | nil =>
      cases h
      exact ⟨[], .done _ _⟩
    | cons e todo =>
      unfold fetchPrevEvents at h
      obtain ⟨pdus, db₁, hfetch, h⟩ := Comp.bind_eq_ok.mp h
      cases hlast : pdus.getLast? with
      | none =>
        rw [hlast] at h
        obtain ⟨looks, hwalk⟩ := ih todo _ db₁ h
        refine ⟨look db₁ e p.amount pdus :: looks, .round hfetch ?_⟩
        rw [after_of_none hlast]
        exact hwalk
      | some fetched =>
        rw [hlast] at h
        obtain ⟨_, db₂, hroom, h⟩ := Comp.bind_eq_ok.mp h
        obtain ⟨-, rfl⟩ := Prod.mk.inj hroom
        obtain ⟨looks, hwalk⟩ := ih _ _ _ h
        rw [show (fun db => notePrevEvent fed db first e p fetched) db₁ = _ from notePrevEvent_eq hlast]
          at hwalk
        exact ⟨_, .round hfetch hwalk⟩

/-- what a walk has noted at its end -/
theorem Walk.noted {p' : PrevEvents}
    (h : Walk env fed fuel origin createEvent r version first db todo p looks p') (before : List Look)
    (hp : PrevEvents.Noted fed.maxFetchPrevEvents first before todo p) :
    PrevEvents.Noted fed.maxFetchPrevEvents first (before ++ looks) [] p' := by
  induction h generalizing before with
  | done db p =>
    rw [List.append_nil]
    exact hp
  | round hfetch hwalk ih =>
    rw [List.append_cons]
    exact ih _ hp.after

/-- what a call returns is what its walk has noted, sorted -/
theorem fetchUnknownPrevEvents_cases {db' : Db}
    (h : fetchUnknownPrevEvents env fed fuel origin createEvent r version initial db
      = (.ok (sorted, info), db')) :
    ∃ first looks p ts, db.firstPduInRoom r = .ok first ∧
      Walk env fed fuel origin createEvent r version first db initial.reverse .empty looks p ∧
      p.eventidInfo = info ∧ fed.sortEvents p.graph ts = some sorted := by
  unfold fetchUnknownPrevEvents at h
  obtain ⟨first, hfirst, h⟩ := Comp.reads_eq_ok h
  obtain ⟨p, db₁, hfetch, h⟩ := Comp.bind_eq_ok.mp h
  obtain ⟨looks, hwalk⟩ := walk_of_run fuel _ _ p db db₁ hfetch
  cases hs : fed.sortEvents p.graph
      (fun e => ((p.eventidInfo.lookup e).map (fun j => j.pdu.originServerTs)).getD 0) with
  | none =>
    rw [hs] at h
    cases h
  | some l =>
    rw [hs] at h
    obtain ⟨rfl, rfl⟩ := Prod.mk.inj (Except.ok.inj (Prod.mk.inj h).1)
    exact ⟨first, looks, p, _, hfirst, hwalk, rfl, hs⟩

end

/-! ## parents first -/

/-- the list holds the events of the map, and those with the property `P` behind their prev events -/
structure ParentsFirst (P : EventId × PduJson → Prop) (sorted : List EventId)
    (info : List (EventId × PduJson)) : Prop where
  mem : ∀ i ∈ info, i.1 ∈ sorted
  order : ∀ i ∈ info, P i → ∀ k ∈ info, k.1 ∈ i.2.pdu.prevEvents →
    ∀ front rest, sorted = front ++ i.1 :: rest → k.1 ∈ front

/-- the event is newer than the first one of the room, and was not looked at again in vain -/
def Followed (maxFetchPrevEvents : Nat) (first : PduEvent) (looks : List Look)
    (i : EventId × PduJson) : Prop :=
  first.originServerTs < i.2.pdu.originServerTs ∧ ¬ CutOff maxFetchPrevEvents looks i.1

theorem PrevEvents.Noted.parentsFirst {first : PduEvent} (h : Noted m first looks [] p)
    (ha : Sorting.Acyclic (Grapevine.Served looks)) {sort : Sorting.Graph EventId →
      Option (List EventId)} (hsort : Sorting.Sorts sort) (hs : sort p.graph = some sorted) :
    ParentsFirst (Followed m first looks) sorted p.eventidInfo := by
  have hclosed : Sorting.Closed p.graph := fun a b hab =>
    (h.closed a b hab).resolve_right List.not_mem_nil
  have horder := hsort p.graph sorted hs h.nodup hclosed (ha.mono h.served)
  refine ⟨fun i hi => horder.perm.mem_iff.mpr (h.known i hi), fun i hi hfollowed k hk hprev => ?_⟩
  rcases h.kept i hi with hg | hold | hcut
  · exact horder.ordered i.1 k.1 ⟨_, hg, rfl, hprev⟩
  · exact absurd hfollowed.1 hold
  · exact absurd hcut hfollowed.2

/-- if the prev events that the origin served have no cycle, the events that were followed come
behind those of their prev events that are known -/
theorem fetchUnknownPrevEvents_parentsFirst (env : Env) (fed : Fed) (fuel : Nat) (origin : ServerName)
    (createEvent : PduEvent) (r : RoomId) (version : RoomVersionId)
    (hsort : ∀ ts, Sorting.Sorts (fun g => fed.sortEvents g ts)) {initial sorted : List EventId}
    {info : List (EventId × PduJson)} {db db' : Db}
    (h : fetchUnknownPrevEvents env fed fuel origin createEvent r version initial db
      = (.ok (sorted, info), db')) :
    ∃ first looks p, db.firstPduInRoom r = .ok first ∧
      Walk env fed fuel origin createEvent r version first db initial.reverse .empty looks p ∧
      p.eventidInfo = info ∧ (Sorting.Acyclic (Grapevine.Served looks) →
        ParentsFirst (Followed fed.maxFetchPrevEvents first looks) sorted info) := by
  obtain ⟨first, looks, p, ts, hfirst, hwalk, rfl, hs⟩ := fetchUnknownPrevEvents_cases h
  have hnoted := hwalk.noted [] (PrevEvents.noted_empty _ first _)
  exact ⟨first, looks, p, hfirst, hwalk, rfl, fun ha => hnoted.parentsFirst ha (hsort ts) hs⟩

/-! ### walks over stored events -/

theorem fetchAndHandleOutliers_local {pdu : PduEvent} (h : db.getPdu e = .ok (some pdu)) :
    fetchAndHandleOutliers env fed fuel origin createEvent r version [e] db
      = (.ok [(pdu, none)], db) := by
  have hone : fetchOutlier env fed fuel origin createEvent r version e db = (.ok [(pdu, none)], db) := by
    unfold fetchOutlier
    rw [Comp.bind_ok (Comp.get_run db), h]
    rfl
  unfold fetchAndHandleOutliers
  rw [Comp.bind_ok hone]
  rfl

/-- the events of `s` are stored, and their prev events are among them, of a lower rank -/
def Stores (db : Db) (rank : EventId → Nat) (s : List EventId) : Prop :=
  ∀ e ∈ s, ∃ pdu, db.getPdu e = .ok (some pdu) ∧ ∀ b ∈ pdu.prevEvents, b ∈ s ∧ rank b < rank e

def stores (db : Db) (rank : EventId → Nat) (s : List EventId) : Bool :=
  s.all fun e => ((db.getPdu e).toOption.bind id).any fun pdu =>
    pdu.prevEvents.all fun b => decide (b ∈ s ∧ rank b < rank e)

theorem stores_iff {rank : EventId → Nat} (h : db.stores rank s = true) :
    Stores db rank s := by
  intro e he
  have hone := List.all_eq_true.mp h e he
  obtain ⟨pdu, hpdu, hall⟩ := (Option.any_eq_true _ _).mp hone
  refine ⟨pdu, ?_, fun b hb => of_decide_eq_true (List.all_eq_true.mp hall b hb)⟩
  obtain ⟨o, ho, rfl⟩ := Option.bind_eq_some_iff.mp hpdu
  exact toOption_eq_some.mp ho

theorem PrevEvents.after_new {first : PduEvent} {l : Look} {b : EventId} (h : b ∈ (p.after m first l).2) :
    ∃ f, l.fetched = some f ∧ b ∈ f.1.prevEvents := by
  unfold PrevEvents.after at h
  cases hl : l.noted m with
  | none =>
    rw [hl] at h
    exact absurd h List.not_mem_nil
  | some j =>
    rw [hl] at h
    obtain ⟨f, hf, hfj⟩ := Look.fetched_of_noted hl
    refine ⟨f, hf, ?_⟩
    rw [hfj]
    change b ∈ (p.note first l.event j).2 at h
    unfold note at h
    split at h
    · exact List.mem_of_mem_filter h
    · exact absurd h List.not_mem_nil

/-- a walk among stored events is told of nothing but them -/
theorem Walk.served_stored {first : PduEvent} {rank : EventId → Nat} {p' : PrevEvents}
    (h : Walk env fed fuel origin createEvent r version first db todo p looks p') (hs : Stores db rank s)
    (htodo : ∀ e ∈ todo, e ∈ s) {b : EventId} (hab : Grapevine.Served looks a b) :
    rank b < rank a := by
  induction h with
  | done db p =>
    obtain ⟨l, hl, _⟩ := hab
    exact absurd hl List.not_mem_nil
  | @round db db' e todo p p' looks pdus hfetch hwalk ih =>
    obtain ⟨pdu, hpdu, hprev⟩ := hs e (htodo e List.mem_cons_self)
    rw [fetchAndHandleOutliers_local hpdu] at hfetch
    obtain ⟨hpdus, rfl⟩ := Prod.mk.inj hfetch
    obtain rfl := Except.ok.inj hpdus
    obtain ⟨l, hl, f, hla, hlf, hb⟩ := hab
    rcases List.mem_cons.mp hl with rfl | hl
    · obtain rfl : e = a := hla
      obtain rfl : (pdu, none) = f := Option.some.inj hlf
      exact (hprev b hb).2
    · refine ih hs (fun x hx => ?_) ⟨l, hl, f, hla, hlf, hb⟩
      rcases List.mem_append.mp hx with hx | hx
      · obtain ⟨f, hf, hxf⟩ := PrevEvents.after_new (List.mem_reverse.mp hx)
        obtain rfl : (pdu, none) = f := Option.some.inj hf
        exact (hprev x hxf).1
      · exact htodo x (List.mem_cons_of_mem _ hx)

theorem acyclic_of_rank {edge : EventId → EventId → Prop} (rank : EventId → Nat)
    (h : ∀ a b, edge a b → rank b < rank a) : Sorting.Acyclic edge := by
  have hlt : ∀ a b, Relation.TransGen edge a b → rank b < rank a := by
    intro a b hab
    induction hab with
    | single hab => exact h _ _ hab
    | tail _ hbc ih => exact lt_trans (h _ _ hbc) ih
  exact fun a ha => lt_irrefl _ (hlt a a ha)

namespace Walked

variable {ks : List (EventId × Nat × List EventId)}

/-- the prev events are followed up to a limit, and the least time goes first -/
def sorting (maxFetchPrevEvents : Nat) : Fed := { Fed.plain with
  sortEvents := fun graph ts => Sorting.kahn (List.argmin ts) graph
  maxFetchPrevEvents := maxFetchPrevEvents }

def event (e : String) (ts : Nat) (prev : List EventId) : PduJson :=
  ⟨[], ⟨⟨.ascii e⟩, ⟨.ascii "!r:x"⟩, ⟨.ascii "@bob:y"⟩, ts, .roomMessage, [], none, prev, 0, [], none, none⟩⟩

def first : PduJson := event "$a" 10 []
def b : PduJson := event "$b" 13 [⟨.ascii "$c"⟩]
def c : PduJson := event "$c" 11 [⟨.ascii "$d"⟩]
def d : PduJson := event "$d" 12 [⟨.ascii "$a"⟩]

/-- two events from before the first one of the room -/
def f : PduJson := event "$f" 1 [⟨.ascii "$g"⟩]
def g : PduJson := event "$g" 2 [⟨.ascii "$a"⟩]

def ids (js : List PduJson) : List EventId := js.map fun j => j.pdu.eventId

def timeline : TimelineTables :=
  ((((((TimelineTables.empty.appendPdu (pduId 1 (.normal 1)) first.pdu first 1).addPduOutlier
    b.pdu.eventId b).addPduOutlier c.pdu.eventId c).addPduOutlier d.pdu.eventId d).addPduOutlier
    f.pdu.eventId f).addPduOutlier g.pdu.eventId g)

def store : Db := { Db.empty with roomidShortroomid := fun _ => some 1, timeline := timeline }

/-- behind the one before -/
def rank (e : EventId) : Nat := (ids [first, d, c, b, g, f]).idxOf e

theorem stores_store : Stores store rank (ids [first, d, c, b, g, f]) := stores_iff (by decide +kernel)

theorem sorting_sorts (m : Nat) : ∀ ts, Sorting.Sorts (fun graph => (sorting m).sortEvents graph ts) :=
  Sorting.kahn_argmin_sorts

abbrev fetch (m : Nat) (initial : List EventId) :
    Except Error (List EventId × List (EventId × PduJson)) × Db :=
  fetchUnknownPrevEvents .plain (sorting m) 100 ⟨.ascii "y"⟩ first.pdu ⟨.ascii "!r:x"⟩ .v10 initial store

/-- the sorted events, and the known ones with their times and their prev events -/
def shape (o : List EventId × List (EventId × PduJson)) :
    List EventId × List (EventId × Nat × List EventId) :=
  (o.1, o.2.map fun i => (i.1, i.2.pdu.originServerTs, i.2.pdu.prevEvents))

def row (j : PduJson) : EventId × Nat × List EventId :=
  (j.pdu.eventId, j.pdu.originServerTs, j.pdu.prevEvents)

theorem fetch_all : (fetch 100 (ids [c, b])).1.toOption.map shape
    = some (ids [first, d, c, b], [c, d, b].map row) := by decide +kernel

/-- the limit is reached before `c` is looked at again -/
theorem fetch_limit : (fetch 2 (ids [c, b])).1.toOption.map shape
    = some (ids [first, c, d, b], [d, c, b].map row) := by decide +kernel

theorem fetch_old : (fetch 100 (ids [f, g])).1.toOption.map shape
    = some (ids [f, g], [f, g].map row) := by decide +kernel

theorem exists_info {x : Except Error (List EventId × List (EventId × PduJson)) × Db}
    (h : x.1.toOption.map shape = some (sorted, ks)) :
    ∃ info db', x = (.ok (sorted, info), db') ∧
      info.map (fun i => (i.1, i.2.pdu.originServerTs, i.2.pdu.prevEvents)) = ks := by
  obtain ⟨out, db'⟩ := x
  obtain ⟨o, ho, hshape⟩ := Option.map_eq_some_iff.mp h
  obtain rfl : out = .ok o := toOption_eq_some.mp ho
  obtain ⟨rfl, hks⟩ := Prod.mk.inj hshape
  exact ⟨o.2, db', rfl, hks⟩

/-- an event that is not behind one of its prev events -/
theorem not_parentsFirst {P : EventId × PduJson → Prop} {front rest : List EventId} (j k : PduJson)
    (hks : info.map (fun i => (i.1, i.2.pdu.originServerTs, i.2.pdu.prevEvents)) = ks) (hj : row j ∈ ks)
    (hk : row k ∈ ks) (hP : ∀ i, i.2.pdu.originServerTs = j.pdu.originServerTs → P i)
    (hprev : k.pdu.eventId ∈ j.pdu.prevEvents) (hsplit : sorted = front ++ j.pdu.eventId :: rest)
    (hn : k.pdu.eventId ∉ front) : ¬ ParentsFirst P sorted info := by
  intro h
  rw [← hks] at hj hk
  obtain ⟨i, hi, hij⟩ := List.mem_map.mp hj
  obtain ⟨hid, hrest⟩ := Prod.mk.inj hij
  obtain ⟨ht, hp⟩ := Prod.mk.inj hrest
  obtain ⟨i', hi', hik⟩ := List.mem_map.mp hk
  obtain ⟨hid', -⟩ := Prod.mk.inj hik
  rw [← hid'] at hprev hn
  rw [← hid] at hsplit
  exact hn (h.order i hi (hP i ht) i' hi' (hp ▸ hprev) front rest hsplit)

theorem acyclic {first' : PduEvent}
    (h : Walk .plain (sorting m) 100 ⟨.ascii "y"⟩ first.pdu ⟨.ascii "!r:x"⟩ .v10 first' store
      initial.reverse .empty looks p) (hsub : ∀ e ∈ initial, e ∈ ids [first, d, c, b, g, f]) :
    Sorting.Acyclic (Grapevine.Served looks) :=
  acyclic_of_rank rank fun _ _ hab =>
    h.served_stored stores_store (fun e he => hsub e (List.mem_reverse.mp he)) hab

end Walked

/-- without a limit that is reached, the parents of `b` and `c` come first -/
theorem fetchUnknownPrevEvents_parentsFirst_all : ∃ info db' first looks,
    Walked.fetch 100 (Walked.ids [Walked.c, Walked.b])
      = (.ok (Walked.ids [Walked.first, Walked.d, Walked.c, Walked.b], info), db') ∧
    ParentsFirst (Followed 100 first looks) (Walked.ids [Walked.first, Walked.d, Walked.c, Walked.b]) info := by
  obtain ⟨info, db', hrun, -⟩ := Walked.exists_info Walked.fetch_all
  obtain ⟨first, looks, p, -, hwalk, -, horder⟩ :=
    fetchUnknownPrevEvents_parentsFirst .plain (Walked.sorting 100) 100 _ _ _ _ (Walked.sorting_sorts 100) hrun
  exact ⟨info, db', first, looks, hrun, horder (Walked.acyclic hwalk (by decide))⟩

/-- `f` is from before the first event of the room, and comes before its prev event `g` -/
theorem fetchUnknownPrevEvents_old : ¬ ∀ (env : Env) (fed : Fed) (fuel : Nat) (origin : ServerName)
    (createEvent : PduEvent) (r : RoomId) (version : RoomVersionId) (initial sorted : List EventId)
    (info : List (EventId × PduJson)) (db db' : Db),
    (∀ ts, Sorting.Sorts (fun g => fed.sortEvents g ts)) →
    fetchUnknownPrevEvents env fed fuel origin createEvent r version initial db = (.ok (sorted, info), db') →
    (∀ first looks p, Walk env fed fuel origin createEvent r version first db initial.reverse .empty looks p →
      Sorting.Acyclic (Grapevine.Served looks)) → ParentsFirst (fun _ => True) sorted info := by
  intro hall
  obtain ⟨info, db', hrun, hks⟩ := Walked.exists_info Walked.fetch_old
  have h := hall _ _ _ _ _ _ _ _ _ _ _ _ (Walked.sorting_sorts 100) hrun
    fun _ _ _ hwalk => Walked.acyclic hwalk (by decide)
  exact Walked.not_parentsFirst Walked.f Walked.g hks (by decide) (by decide) (fun _ _ => trivial)
    (by decide) (List.nil_append _).symm (by decide) h

/-- `c` is a newer event, and comes before its prev event `d`: it was looked at again at the limit -/
theorem fetchUnknownPrevEvents_cutOff : ¬ ∀ (env : Env) (fed : Fed) (fuel : Nat) (origin : ServerName)
    (createEvent : PduEvent) (r : RoomId) (version : RoomVersionId) (initial sorted : List EventId)
    (info : List (EventId × PduJson)) (db db' : Db),
    (∀ ts, Sorting.Sorts (fun g => fed.sortEvents g ts)) →
    fetchUnknownPrevEvents env fed fuel origin createEvent r version initial db = (.ok (sorted, info), db') →
    (∀ first looks p, Walk env fed fuel origin createEvent r version first db initial.reverse .empty looks p →
      Sorting.Acyclic (Grapevine.Served looks)) →
    ParentsFirst (fun i => 10 < i.2.pdu.originServerTs) sorted info := by
  intro hall
  obtain ⟨info, db', hrun, hks⟩ := Walked.exists_info Walked.fetch_limit
  have h := hall _ _ _ _ _ _ _ _ _ _ _ _ (Walked.sorting_sorts 2) hrun
    fun _ _ _ hwalk => Walked.acyclic hwalk (by decide)
  have hsplit : Walked.ids [Walked.first, Walked.c, Walked.d, Walked.b]
      = [Walked.first.pdu.eventId] ++ Walked.c.pdu.eventId :: Walked.ids [Walked.d, Walked.b] := rfl
  refine Walked.not_parentsFirst Walked.c Walked.d hks (by decide) (by decide) (fun i hi => ?_)
    (by decide) hsplit (by decide) h
  show 10 < i.2.pdu.originServerTs
  rw [hi]
  decide

end Db
end Grapevine
