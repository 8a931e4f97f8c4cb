import Grapevine.Events.Upgrade
import Grapevine.Lib.Update

/-!
# Soft failures

A soft failed event is no timeline event, and it is no extremity of its room.  Its prev events
are extremities no longer, though: they are marked as referenced, and the extremities of the room
are those that nothing references, this event included.  A state event takes part in the
resolution before it is soft failed.

* `Fetched`            what any call may move on its way;
* `Outcome`            what a soft failure always does;
* `Confined`           what it leaves alone, if the resolution gives the room's state back.

Main result: `upgrade_softFail_outcome`.  The soft failure of a redaction can take the last
extremity from a room, and that of a state event can move the room's pointer
(`upgrade_softFail_not_inert`).
-/

namespace Grapevine
open Kv

namespace Db

variable (env : Env) (fed : Fed)
variable {createEvent : PduEvent} {r : RoomId} {state : Tree Nat EventId} {version : RoomVersionId}
  {new : Finset CompressedStateEvent} {j : PduJson} {origin : ServerName} {fuel p : Nat}
  {db db' : Db}

/-! ## what may be fetched -/

/-- the stores differ in short ids, outliers, caches and rate limits only -/
structure Fetched (db db' : Db) : Prop where
  state : StateDb.Later db.state db'.state
  rest : db' = { db with
    state := db'.state
    timeline := { db.timeline with eventidOutlierpdu := db'.timeline.eventidOutlierpdu }
    authChainCache := db'.authChainCache
    shorteventidAuthchain := db'.shorteventidAuthchain
    badEventRatelimiter := db'.badEventRatelimiter
    ticks := db'.ticks }

theorem Fetched.refl (db : Db) : Fetched db db := ⟨StateDb.Later.refl _, rfl⟩

theorem Fetched.trans (a b c : Db) (h : Fetched a b) (h' : Fetched b c) : Fetched a c := by
  refine ⟨StateDb.Later.trans _ _ _ h.state h'.state, ?_⟩
  rw [h'.rest, h.rest]

theorem fetched_quiet : Quiet Fetched where
  refl := Fetched.refl
  trans := Fetched.trans
  state _ _ hs := ⟨hs, rfl⟩
  chains db _ _ := ⟨StateDb.Later.refl db.state, rfl⟩
  ratelimiter db _ := ⟨StateDb.Later.refl db.state, rfl⟩
  ticks db _ := ⟨StateDb.Later.refl db.state, rfl⟩

theorem fetched_adds (createEvent : PduEvent) (r : RoomId) (e : EventId) (value : JsonObject) :
    Adds env fed Fetched createEvent r e value :=
  fun db _ _ _ _ _ => ⟨StateDb.Later.refl db.state, rfl⟩

theorem Fetched.graph (h : Fetched db db') : db'.graph = db.graph := by rw [h.rest]

section
variable (G : EventId → PduJson → Prop)

theorem outliersFrom_adds {e : EventId} {value : JsonObject}
    (hG : ∀ j version, createVersion env fed createEvent = .ok version →
      OutlierOf fed version e value j → j.pdu.roomId = r → G e j) :
    Adds env fed (OutliersFrom G) createEvent r e value := by
  intro db j version hv hj hr e' j' hj'
  rcases update_some_eq_some.mp hj' with ⟨rfl, rfl⟩ | ⟨-, hj'⟩
  · exact Or.inr (hG j version hv hj hr)
  · exact Or.inl hj'

end

/-! ## the marks of soft failures -/

/-- no event is marked as soft failed -/
def SameMarks (db db' : Db) : Prop := db'.graph.softfailedeventids = db.graph.softfailedeventids

theorem sameMarks_quiet : Quiet SameMarks := .events fun _ g => g.softfailedeventids

theorem sameMarks_blind : Blind SameMarks := .events fun _ g => g.softfailedeventids

theorem replacePdu_sameMarks (id : Bytes) (json : PduJson) (pdu : PduEvent) :
    Comp.Keeps SameMarks (replacePdu id json pdu) := by
  intro db
  unfold replacePdu
  split <;> rfl

/-- an append that returns an error marks nothing -/
theorem appendPdu_error_sameMarks {leaves : List EventId} {e : Error}
    (h : appendPdu env j leaves db = (.error e, db')) (hp : e.isPanic = false) :
    SameMarks db db' := by
  obtain ⟨s, json, _, _, hstored, hafter⟩ := appendPdu_error env h hp
  have hmarks := afterInsert_keeps sameMarks_blind env (fun _ _ => rfl) (fun _ _ => rfl)
    (fun _ _ => rfl) (fun db i _ json p _ _ => replacePdu_sameMarks i json p db) j.pdu s (db.newId s) (db.state.counter + 4)
    (db.stored env j leaves)
  rw [hafter, hstored] at hmarks
  exact hmarks

/-- the derivation touches no event -/
def SameEvents (db db' : Db) : Prop := db'.timeline = db.timeline ∧ db'.graph = db.graph

theorem sameEvents_quiet : Quiet SameEvents := (Quiet.events fun t _ => t).and (.events fun _ g => g)

theorem sameEvents_blind : Blind SameEvents := (Blind.events fun t _ => t).and (.events fun _ g => g)

theorem deriveState_sameEvents (fuel : Nat) (r : RoomId) (version : RoomVersionId) (pdu : PduEvent)
    (state : Tree Nat EventId) :
    Comp.Keeps SameEvents (deriveState env fed fuel r version pdu state) :=
  deriveState_keeps env fed sameEvents_blind (fun _ _ => ⟨rfl, rfl⟩) (fun _ _ => ⟨rfl, rfl⟩)
    sameEvents_quiet (fun _ _ _ => ⟨rfl, rfl⟩) fuel r version pdu state

/-! ## the steps of a soft failure -/

/-- the call newly marks its event as soft failed -/
structure EndsSoftFailed (fuel : Nat) (j : PduJson) (createEvent : PduEvent) (origin : ServerName)
    (r : RoomId) (db db' : Db) : Prop where
  run : upgradeOutlierToTimelinePdu env fed fuel j createEvent origin r db = (.error softFailed, db')
  new : db.isEventSoftFailed j.pdu.eventId = false
  marked : db'.isEventSoftFailed j.pdu.eventId = true

/-- the writes of the soft fail branch: the state at the event, and the graph -/
def softened (r : RoomId) (pdu : PduEvent) (extremities : Finset EventId) (s : StateDb) (db : Db) :
    Db :=
  { db with
    state := s
    graph := {
      referencedevents := pdu.prevEvents.foldl
        (fun t e => Function.update t (referencedKey r e) true) db.graph.referencedevents
      softfailedeventids := Function.update db.graph.softfailedeventids pdu.eventId true
      roomidPduleaves := Function.update db.graph.roomidPduleaves r extremities } }

/-- the soft fail branch of a call on checked events -/
theorem settle_marks {softFail : Bool}
    (h : settle env fed fuel r version j state softFail db = (.error softFailed, db')) (hm : ¬ SameMarks db db') :
    softFail = true ∧ ∃ compressed db₁ db₂ n s, compressState (fed.entries state) db = (.ok compressed, db₁) ∧
      deriveState env fed fuel r version j.pdu state db₁ = (.ok (), db₂) ∧ j.pdu.roomId = r ∧
      StateDb.setEventState env.digest env.ord j.pdu.eventId r compressed db₂.state = (.ok n, s) ∧
      db' = softened r j.pdu (db.newExtremities r j.pdu) s db₂ := by
  have hread : (Comp.gets (fun db => db.newExtremities r j.pdu) : RoomComp _) db
      = (.ok (db.newExtremities r j.pdu), db) := rfl
  unfold settle at h
  rw [Comp.bind_ok hread] at h
  have hcompress := compressState_quiet sameMarks_quiet (fed.entries state) db
  rcases Comp.bind_eq_error.mp h with h | ⟨compressed, db₁, h1, h⟩
  · rw [h] at hcompress
    exact absurd hcompress hm
  rw [h1] at hcompress
  have hderive := deriveState_sameEvents env fed fuel r version j.pdu state db₁
  have hmarks : ∀ b, SameEvents db₁ b → SameMarks db b := fun b hb =>
    Eq.trans (congrArg GraphTables.softfailedeventids hb.2) hcompress
  rcases Comp.bind_eq_error.mp h with h | ⟨_, db₂, h2, h⟩
  · rw [h] at hderive
    exact absurd (hmarks _ hderive) hm
  rw [h2] at hderive
  have hsofar := hmarks _ hderive
  cases softFail with
  | false =>
    rw [if_neg Bool.false_ne_true] at h
    unfold appendIncomingPdu at h
    split at h
    · cases h
    · rcases Comp.bind_eq_error.mp h with h | ⟨n, db₃, h3, h⟩
      · have hs : db'.graph = db₂.graph := by rw [← (Prod.mk.inj h).2]
        exact absurd (Eq.trans (congrArg GraphTables.softfailedeventids hs) hsofar) hm
      · have hs : db₃.graph = db₂.graph := by rw [← (Prod.mk.inj h3).2]
        rcases Comp.bind_eq_error.mp h with h | ⟨id, db₄, _, h⟩
        · have happ := appendPdu_error_sameMarks env h rfl
          exact absurd (Eq.trans happ (Eq.trans (congrArg GraphTables.softfailedeventids hs) hsofar)) hm
        · cases h
  | true =>
    rw [if_pos rfl] at h
    by_cases hr : j.pdu.roomId = r
    · rcases Comp.bind_eq_error.mp h with h | ⟨o, db₃, h3, h⟩
      · unfold appendIncomingPdu at h
        rw [if_neg (not_not.mpr hr)] at h
        rcases Comp.bind_eq_error.mp h with h | ⟨n, db₄, h4, h⟩
        · have hs : db'.graph = db₂.graph := by rw [← (Prod.mk.inj h).2]
          exact absurd (Eq.trans (congrArg GraphTables.softfailedeventids hs) hsofar) hm
        · cases h
      · unfold appendIncomingPdu at h3
        rw [if_neg (not_not.mpr hr)] at h3
        obtain ⟨n, db₄, h4, h3⟩ := Comp.bind_eq_ok.mp h3
        cases hset : StateDb.setEventState env.digest env.ord j.pdu.eventId j.pdu.roomId compressed
            db₂.state with
        | mk o' s =>
          have h4' : (o', ({ db₂ with state := s } : Db)) = (.ok n, db₄) := by
            rw [← h4]
            unfold onState
            rw [hset]
          obtain ⟨rfl, rfl⟩ := Prod.mk.inj h4'
          refine ⟨rfl, compressed, db₁, db₂, n, s, h1, h2, hr, hr ▸ hset, ?_⟩
          cases h3
          cases h
          have hl := fed.listing_toFinset (db.newExtremities r j.pdu)
          show softened r j.pdu (fed.listing (db.newExtremities r j.pdu)).toFinset s db₂ = _
          rw [hl]
    · rcases Comp.bind_eq_error.mp h with h | ⟨o, db₃, h3, h⟩
      · unfold appendIncomingPdu at h
        rw [if_pos hr] at h
        cases h
      · unfold appendIncomingPdu at h3
        rw [if_pos hr] at h3
        cases h3

/-- the steps of a call that soft fails its event -/
structure SoftFailSteps (fuel : Nat) (j : PduJson) (createEvent : PduEvent) (origin : ServerName)
    (r : RoomId) (db db' : Db) (version : RoomVersionId) (state : Tree Nat EventId)
    (db₁ db₂ db₃ : Db) : Prop where
  ofVersion : createVersion env fed createEvent = .ok version
  ofState : stateAtIncomingEvent env fed fuel origin createEvent r version j.pdu db = (.ok state, db₁)
  compress : ∃ compressed, compressState (fed.entries state) db₁ = (.ok compressed, db₂)
  derive : deriveState env fed fuel r version j.pdu state db₂ = (.ok (), db₃)
  writes : ∃ s, StateDb.Later db₃.state s ∧
    db' = softened r j.pdu (db.newExtremities r j.pdu) s db₃

/-- the state at the event is found, the event is checked, and the rest of the call marks it -/
theorem EndsSoftFailed.settled (h : EndsSoftFailed env fed fuel j createEvent origin r db db') :
    db.timeline.getPduId j.pdu.eventId = none ∧ ∃ version state db₁ softFail,
      createVersion env fed createEvent = .ok version ∧
      stateAtIncomingEvent env fed fuel origin createEvent r version j.pdu db = (.ok state, db₁) ∧
      db₁.softFails env fed version r j.pdu = .ok softFail ∧
      settle env fed fuel r version j state softFail db₁ = (.error softFailed, db') ∧ ¬ SameMarks db₁ db' := by
  obtain ⟨hrun, hnew, hmarked⟩ := h
  have hm : ∀ a b, Fetched db a → b.graph = a.graph → b ≠ db' := by
    intro a b ha hb e
    subst e
    unfold isEventSoftFailed at hnew hmarked
    rw [hb, ha.graph, hnew] at hmarked
    cases hmarked
  have hrefl := Fetched.refl db
  unfold upgradeOutlierToTimelinePdu at hrun
  rw [Comp.bind_ok (Comp.get_run db)] at hrun
  cases hid : db.timeline.getPduId j.pdu.eventId with
  | some id =>
    rw [hid] at hrun
    cases hrun
  | none =>
    rw [hid] at hrun
    change (Comp.get >>= _) db = _ at hrun
    rw [Comp.bind_ok (Comp.get_run db), hnew, if_neg Bool.false_ne_true] at hrun
    rcases Comp.bind_eq_error.mp hrun with h | ⟨version, db₁, h1, hrun⟩
    · exact absurd (Prod.mk.inj h).2 (hm db db hrefl rfl)
    obtain ⟨hv, rfl⟩ := Prod.mk.inj h1
    have hfetch := stateAtIncomingEvent_keeps env fed fetched_quiet
      (fun e value (_ : Answered fed origin version e value) => fetched_adds env fed createEvent r e value) fuel
      j.pdu db
    rcases Comp.bind_eq_error.mp hrun with h | ⟨state, db₁, h1, hrun⟩
    · rw [h] at hfetch
      exact absurd rfl (hm db' db' hfetch rfl)
    rw [h1] at hfetch
    rcases Comp.bind_eq_error.mp hrun with h | ⟨_, db₂, h2, hrun⟩
    · exact absurd (Prod.mk.inj h).2 (hm db₁ db₁ hfetch rfl)
    obtain ⟨_, rfl⟩ := Prod.mk.inj h2
    rcases Comp.bind_eq_error.mp hrun with h | ⟨softFail, db₂, h2, hrun⟩
    · exact absurd (Prod.mk.inj h).2 (hm db₁ db₁ hfetch rfl)
    obtain ⟨hsoft, rfl⟩ := Prod.mk.inj h2
    refine ⟨rfl, version, state, db₁, softFail, hv, h1, hsoft, hrun, fun hs => ?_⟩
    unfold isEventSoftFailed at hnew hmarked
    rw [hs, hfetch.graph, hnew] at hmarked
    cases hmarked

theorem EndsSoftFailed.steps (h : EndsSoftFailed env fed fuel j createEvent origin r db db') :
    ∃ version state db₁ db₂ db₃,
      SoftFailSteps env fed fuel j createEvent origin r db db' version state db₁ db₂ db₃ := by
  obtain ⟨-, version, state, db₁, softFail, hv, h1, -, hrun, hmarks⟩ := h.settled
  have hfetch := stateAtIncomingEvent_keeps env fed fetched_quiet
    (fun e value (_ : Answered fed origin version e value) => fetched_adds env fed createEvent r e value) fuel j.pdu db
  rw [h1] at hfetch
  obtain ⟨-, compressed, db₂, db₃, n, s, hc, hd, _, hset, hw⟩ := settle_marks env fed hrun hmarks
  have hlater := StateDb.setEventState_later env.digest env.ord j.pdu.eventId r compressed db₃.state
  rw [hset] at hlater
  refine ⟨version, state, db₁, db₂, db₃, hv, h1, ⟨compressed, hc⟩, hd, s, hlater, ?_⟩
  have hext : db₁.newExtremities r j.pdu = db.newExtremities r j.pdu := by
    unfold newExtremities getForwardExtremities isEventReferenced
    rw [hfetch.graph]
  rw [hw, hext]

/-! ## what a soft failure does -/

/-- new outliers are answers of the origin -/
def FromOrigin (origin : ServerName) (e : EventId) (j : PduJson) : Prop :=
  ∃ version value, Answered fed origin version e value ∧ OutlierOf fed version e value j

/-- what a soft failure always does: the event is no row and no extremity, and it has referenced
its prev events -/
structure Outcome (origin : ServerName) (r : RoomId) (pdu : PduEvent) (db db' : Db) : Prop where
  rows : db'.timeline.pduidPdu = db.timeline.pduidPdu
  ids : db'.timeline.eventidPduid = db.timeline.eventidPduid
  outliers : OutliersFrom (FromOrigin fed origin) db db'
  leaves : db'.graph.roomidPduleaves
    = Function.update db.graph.roomidPduleaves r (db.newExtremities r pdu)
  referenced : db'.graph.referencedevents = pdu.prevEvents.foldl
    (fun t e => Function.update t (referencedKey r e) true) db.graph.referencedevents
  marks : db'.graph.softfailedeventids = Function.update db.graph.softfailedeventids pdu.eventId true

/-- the pointers of the rooms and all tables but those of an outcome, of the states and of what
may be fetched stay; the roster of the room may have been counted again -/
structure Confined (db db' : Db) : Prop where
  pointers : db'.state.roomidShortstatehash = db.state.roomidShortstatehash
  rest : db' = { db with
    state := db'.state
    timeline := { db.timeline with eventidOutlierpdu := db'.timeline.eventidOutlierpdu }
    graph := db'.graph
    roster := db'.roster
    authChainCache := db'.authChainCache
    shorteventidAuthchain := db'.shorteventidAuthchain
    badEventRatelimiter := db'.badEventRatelimiter
    ticks := db'.ticks }

theorem Fetched.confined (h : Fetched db db') : Confined db db' := by
  refine ⟨h.state.pointers, ?_⟩
  rw [h.rest]

theorem Confined.trans {a b c : Db} (h : Confined a b) (h' : Confined b c) : Confined a c := by
  refine ⟨h'.pointers.trans h.pointers, ?_⟩
  rw [h'.rest, h.rest]

/-- the short state hash of the state that the resolution makes, if this state was hashed before -/
def resolvedHash (fuel : Nat) (origin : ServerName) (createEvent : PduEvent) (r : RoomId)
    (version : RoomVersionId) (pdu : PduEvent) : RoomComp (Option Nat) := do
  let state ← stateAtIncomingEvent env fed fuel origin createEvent r version pdu
  let _ ← compressState (fed.entries state)
  let stateAfter ← insertEvent pdu pdu.eventId state
  let new ← resolveState env fed fuel r version stateAfter
  Comp.gets (fun db =>
    db.state.statehashShortstatehash (StateDb.calculateHash env.digest (env.ord.enum new)))

/-- the resolution gives the room's current state back -/
def Resolves (fuel : Nat) (origin : ServerName) (createEvent : PduEvent) (r : RoomId)
    (pdu : PduEvent) (db : Db) : Prop :=
  ∀ version hash db', createVersion env fed createEvent = .ok version →
    resolvedHash env fed fuel origin createEvent r version pdu db = (.ok hash, db') →
      hash = db.state.roomidShortstatehash r

theorem resolveState_pointer (h : resolveState env fed fuel r version state db = (.ok new, db')) :
    ∃ p, db.state.roomidShortstatehash r = some p := by
  obtain ⟨pointer, db₁, h1, h⟩ := Comp.bind_eq_ok.mp h
  obtain ⟨hp, rfl⟩ := Prod.mk.inj h1
  obtain ⟨p, db₂, h2, _⟩ := Comp.bind_eq_ok.mp h
  cases pointer with
  | none => cases h2
  | some p' => exact ⟨p', Except.ok.inj hp⟩

theorem enum_empty (ord : Order) : ord.enum ∅ = [] := by
  rw [← List.toFinset_eq_empty_iff]
  exact ord.toFinset ∅

/-- forcing a room to the state it is at counts its members again -/
theorem forceState_same (r : RoomId) (hp : db.state.roomidShortstatehash r = some p) :
    forceState env r p ∅ db = (.ok (), { db with roster := (updateJoinedCount env r db).2.roster }) := by
  unfold forceState forceEvents
  rw [enum_empty]
  show onState (StateDb.setRoomState r p) (updateJoinedCount env r db).2 = _
  have hstate : (StateDb.setRoomState r p db.state) = (.ok (), db.state) := by
    show (Except.ok (), { db.state with
      roomidShortstatehash := Function.update db.state.roomidShortstatehash r (some p) }) = _
    rw [← hp, Function.update_eq_self]
  show ((StateDb.setRoomState r p db.state).1, ({ db with
    state := (StateDb.setRoomState r p db.state).2
    roster := (updateJoinedCount env r db).2.roster } : Db)) = _
  rw [hstate]

theorem saveState_same {digest : Bytes → Bytes} {ord : Order} {s : StateDb}
    (hp : s.roomidShortstatehash r = some p)
    (hh : s.statehashShortstatehash (StateDb.calculateHash digest (ord.enum new)) = some p) :
    StateDb.saveState digest ord r new s = (.ok (p, ∅, ∅), s) := by
  unfold StateDb.saveState
  have hread : (StateDb.getRoomShortstatehash r) s = (.ok (some p), s) := by rw [← hp]; rfl
  have hget : StateDb.getOrCreateShortstatehash (StateDb.calculateHash digest (ord.enum new)) s
      = (.ok (p, true), s) := by
    unfold StateDb.getOrCreateShortstatehash
    rw [Comp.bind_ok (Comp.get_run s), hh]
    rfl
  rw [Comp.bind_ok hread, Comp.bind_ok hget]
  show (if some p = some p then (pure (p, ∅, ∅) : StateComp _) else _) s = _
  rw [if_pos rfl]
  rfl

/-- a resolution that gives the state back moves nothing -/
theorem deriveState_confined {db₁ db₂ db₃ : Db}
    (hs : SoftFailSteps env fed fuel j createEvent origin r db db' version state db₁ db₂ db₃)
    (hdb : Fetched db db₂) (h : j.pdu.stateKey = none ∨ Resolves env fed fuel origin createEvent r j.pdu db) :
    Confined db₂ db₃ := by
  have hd := hs.derive
  unfold deriveState at hd
  cases hk : j.pdu.stateKey with
  | none =>
    simp only [hk, Option.isSome_none, Bool.false_eq_true, if_false] at hd
    obtain ⟨_, rfl⟩ := Prod.mk.inj hd
    exact (Fetched.refl db₂).confined
  | some stateKey =>
    have hres : Resolves env fed fuel origin createEvent r j.pdu db := by
      rcases h with h | h
      · rw [hk] at h
        cases h
      · exact h
    simp only [hk, Option.isSome_some, if_true] at hd
    obtain ⟨stateAfter, db₄, h4, hd⟩ := Comp.bind_eq_ok.mp hd
    obtain ⟨new, db₅, h5, hd⟩ := Comp.bind_eq_ok.mp hd
    obtain ⟨p, hp⟩ := resolveState_pointer env fed h5
    have hf4 := insertEvent_quiet fetched_quiet.fetching j.pdu j.pdu.eventId state db₂
    have hf5 := resolveState_quiet env fed fetched_quiet.fetching fuel r version stateAfter db₄
    rw [h4] at hf4
    rw [h5] at hf5
    have hf : Fetched db₂ db₅ := Fetched.trans _ _ _ hf4 hf5
    have hp5 : db₅.state.roomidShortstatehash r = some p := by rw [hf5.state.pointers, hp]
    obtain ⟨compressed, hc⟩ := hs.compress
    have hhash := hres version _ db₅ hs.ofVersion (by
      unfold resolvedHash
      rw [Comp.bind_ok hs.ofState, Comp.bind_ok hc, Comp.bind_ok h4, Comp.bind_ok h5]
      rfl)
    have hdp : db.state.roomidShortstatehash r = some p := by
      rw [← hp5, hf.state.pointers, hdb.state.pointers]
    rw [hdp] at hhash
    have hsave : onState (StateDb.saveState env.digest env.ord r new) db₅ = (.ok (p, ∅, ∅), db₅) := by
      unfold onState
      rw [saveState_same hp5 hhash]
    rw [Comp.bind_ok hsave] at hd
    have hforce := (forceState_same env r hp5).symm.trans hd
    obtain ⟨_, rfl⟩ := Prod.mk.inj hforce
    exact hf.confined.trans ⟨rfl, rfl⟩

/-- a soft failure keeps its event out of the timeline and out of the extremities, and references
its prev events; beyond that it is inert, unless a state event moves the room's state -/
theorem upgrade_softFail_outcome {fuel : Nat} {j : PduJson} {createEvent : PduEvent}
    {origin : ServerName} {r : RoomId} {db db' : Db}
    (h : EndsSoftFailed env fed fuel j createEvent origin r db db') :
    Outcome fed origin r j.pdu db db' ∧
      (j.pdu.stateKey = none ∨ Resolves env fed fuel origin createEvent r j.pdu db →
        Confined db db') := by
  obtain ⟨version, state, db₁, db₂, db₃, hs⟩ := h.steps
  obtain ⟨compressed, hc⟩ := hs.compress
  obtain ⟨s, hlater, hw⟩ := hs.writes
  have hf1 := stateAtIncomingEvent_keeps env fed fetched_quiet
    (fun e value (_ : Answered fed origin version e value) => fetched_adds env fed createEvent r e value) fuel j.pdu db
  have hf2 := compressState_quiet fetched_quiet (fed.entries state) db₁
  have ho1 := stateAtIncomingEvent_keeps env fed (outliersFrom_quiet (FromOrigin fed origin))
    (fun e value (ha : Answered fed origin version e value) =>
      show Adds env fed _ createEvent r e value from outliersFrom_adds env fed _ fun j' v hv hj _ => by
        obtain rfl := Except.ok.inj (hs.ofVersion.symm.trans hv)
        exact ⟨version, value, ha, hj⟩) fuel j.pdu db
  have ho2 := compressState_quiet (outliersFrom_quiet (FromOrigin fed origin)) (fed.entries state) db₁
  have hd := deriveState_sameEvents env fed fuel r version j.pdu state db₂
  rw [hs.ofState] at hf1 ho1
  rw [hc] at hf2 ho2
  rw [hs.derive] at hd
  have hf : Fetched db db₂ := Fetched.trans _ _ _ hf1 hf2
  have hg : db₃.graph = db.graph := hd.2.trans hf.graph
  have hrows : db₃.timeline = { db.timeline with eventidOutlierpdu := db₃.timeline.eventidOutlierpdu } := by
    rw [hd.1, hf.rest]
  refine ⟨⟨?_, ?_, fun e j' hj' => ?_, ?_, ?_, ?_⟩, fun hcond => ?_⟩
  · rw [hw]
    show db₃.timeline.pduidPdu = _
    rw [hrows]
  · rw [hw]
    show db₃.timeline.eventidPduid = _
    rw [hrows]
  · rw [hw] at hj'
    change db₃.timeline.eventidOutlierpdu e = some j' at hj'
    rw [hd.1] at hj'
    exact OutliersFrom.trans _ _ _ _ ho1 ho2 e j' hj'
  · rw [hw]
    show Function.update db₃.graph.roomidPduleaves r _ = _
    rw [hg]
  · rw [hw]
    show j.pdu.prevEvents.foldl _ db₃.graph.referencedevents = _
    rw [hg]
  · rw [hw]
    show Function.update db₃.graph.softfailedeventids j.pdu.eventId true = _
    rw [hg]
  · have hconf := hf.confined.trans (deriveState_confined env fed hs hf hcond)
    have hlast : Confined db₃ db' := by
      rw [hw]
      exact ⟨hlater.pointers, rfl⟩
    exact hconf.trans hlast

/-! ## two soft failures -/

namespace Sends

def bob : UserId := ⟨.ascii "@bob:y"⟩

def bobsEvent (e : String) (kind : EventType) (content : JsonObject) (stateKey : Option String)
    (prev : EventId) (redacts : Option EventId) : PduJson :=
  ⟨[], ⟨⟨.ascii e⟩, room, bob, 0, kind, content, stateKey, [prev], 0, [], redacts, none⟩⟩

abbrev upgrade (j : PduJson) : RoomComp (Option Bytes) :=
  upgradeOutlierToTimelinePdu .plain .plain 100 j create.pdu ⟨.ascii "y"⟩ room

def bobsJoin : PduJson :=
  bobsEvent "$bob" .roomMember [("membership", .str "join")] (some "@bob:y") join.pdu.eventId none

/-- bob of another server has joined alice's room -/
def withBob : Db := (upgrade bobsJoin store).2

/-- bob redacts alice's membership, which he may not -/
def bobsRedaction : PduJson :=
  bobsEvent "$redaction" .roomRedaction [] none bobsJoin.pdu.eventId (some join.pdu.eventId)

/-- alice bans bob -/
def withoutBob : Db :=
  (buildAndAppendPdu .plain (event "$ban" .roomMember [("membership", .str "ban")] (some "@bob:y")
    [bobsJoin.pdu.eventId]) withBob).2

/-- bob's topic does not know of the ban -/
def bobsTopic : PduJson :=
  bobsEvent "$topic" (.other "m.room.topic") [] (some "") bobsJoin.pdu.eventId none

/-- what is computed of the redaction and of the topic -/
theorem softFails_computed : (((upgrade bobsRedaction withBob).1 = .error softFailed ∧
        (upgrade bobsRedaction withBob).2.isEventSoftFailed bobsRedaction.pdu.eventId = true ∧
        withBob.isEventSoftFailed bobsRedaction.pdu.eventId = false) ∧
      withBob.graph.roomidPduleaves room = {bobsJoin.pdu.eventId} ∧
      (upgrade bobsRedaction withBob).2.graph.roomidPduleaves room = ∅) ∧
    ((upgrade bobsTopic withoutBob).1 = .error softFailed ∧
        (upgrade bobsTopic withoutBob).2.isEventSoftFailed bobsTopic.pdu.eventId = true ∧
        withoutBob.isEventSoftFailed bobsTopic.pdu.eventId = false) ∧
      withoutBob.state.roomidShortstatehash room = some 24 ∧
      (upgrade bobsTopic withoutBob).2.state.roomidShortstatehash room = some 32 := by decide +kernel

theorem redaction_ends : EndsSoftFailed .plain .plain 100 bobsRedaction create.pdu ⟨.ascii "y"⟩ room
    withBob (upgrade bobsRedaction withBob).2 := by
  obtain ⟨hfails, hmarked, hfresh⟩ := softFails_computed.1.1
  exact ⟨Comp.run_of_fst hfails, hfresh, hmarked⟩

theorem topic_ends : EndsSoftFailed .plain .plain 100 bobsTopic create.pdu ⟨.ascii "y"⟩ room
    withoutBob (upgrade bobsTopic withoutBob).2 := by
  obtain ⟨hfails, hmarked, hfresh⟩ := softFails_computed.2.1
  exact ⟨Comp.run_of_fst hfails, hfresh, hmarked⟩

end Sends

/-- the soft failure of the redaction touches no membership -/
theorem upgrade_softFail_outcome_redaction :
    Outcome Fed.plain ⟨.ascii "y"⟩ Sends.room Sends.bobsRedaction.pdu Sends.withBob
        (Sends.upgrade Sends.bobsRedaction Sends.withBob).2 ∧
      Confined Sends.withBob (Sends.upgrade Sends.bobsRedaction Sends.withBob).2 := by
  obtain ⟨houtcome, hconfined⟩ := upgrade_softFail_outcome .plain .plain Sends.redaction_ends
  exact ⟨houtcome, hconfined (Or.inl rfl)⟩

/-- the redaction takes the room's last extremity, and the topic moves the room's pointer -/
theorem upgrade_softFail_not_inert :
    (¬ ∀ (env : Env) (fed : Fed) (fuel : Nat) (j : PduJson) (createEvent : PduEvent)
      (origin : ServerName) (r : RoomId) (db db' : Db),
      EndsSoftFailed env fed fuel j createEvent origin r db db' →
        db'.graph.roomidPduleaves r = db.graph.roomidPduleaves r) ∧
    (¬ ∀ (env : Env) (fed : Fed) (fuel : Nat) (j : PduJson) (createEvent : PduEvent)
      (origin : ServerName) (r : RoomId) (db db' : Db),
      EndsSoftFailed env fed fuel j createEvent origin r db db' →
        db'.state.roomidShortstatehash r = db.state.roomidShortstatehash r) := by
  refine ⟨fun hall => ?_, fun hall => ?_⟩
  · have h := hall .plain .plain 100 _ _ _ _ _ _ Sends.redaction_ends
    obtain ⟨hbefore, hafter⟩ := Sends.softFails_computed.1.2
    rw [hbefore, hafter] at h
    exact absurd h.symm (Finset.singleton_ne_empty _)
  · have h := hall .plain .plain 100 _ _ _ _ _ _ Sends.topic_ends
    obtain ⟨hbefore, hafter⟩ := Sends.softFails_computed.2.2
    rw [hbefore, hafter] at h
    cases h

end Db
end Grapevine
