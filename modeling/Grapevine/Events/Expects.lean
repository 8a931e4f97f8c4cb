import Grapevine.Events.AuthFetch
import Grapevine.Events.Join
import Grapevine.Events.Redactions

/-!
# Events that crash the handler

Two expectations of the code are about the state keys of events: that of an auth event that becomes the
key of a map (`keyless`), and that of a member event that is appended (`memberTarget`).

* `MeetsKeyless`   among the auth events is one without a state key, and those before it are taken;
* `Checks`         the events whose auth events a call comes to, with the store at that moment.

The handler crashes exactly if one of its checks meets an auth event without a state key
(`handleOutlierPdu_crashes_iff`).  The other expectation holds, for an auth check that refuses member
events without a user.
-/

set_option linter.unusedSectionVars false

namespace Grapevine
open Kv

namespace Db

variable {db : Db} {e : EventId} {version : RoomVersionId} {r : RoomId} {answer : SendJoinAnswer}
  {env : Env} {fed : Fed} {pdu : PduEvent} {err : Error}

def keyless : Error := .panic "all auth events have state keys"

/-- from the store, the computation runs into the expectation -/
abbrev Crashes {α : Type} (x : RoomComp α) (db : Db) : Prop := Comp.FailsIn (fun e => e = keyless) x db

abbrev NeverCrashes {α : Type} (x : RoomComp α) : Prop := Comp.Never (fun e => e = keyless) x

theorem crashes_reads {α : Type} {f : Db → Except Error α} :
    Crashes (Comp.reads f) db ↔ f db = .error keyless := by
  constructor
  · intro h
    obtain ⟨e, db', he, rfl⟩ := h
    exact (Prod.mk.inj he).1
  · intro h
    exact ⟨keyless, db, Prod.ext h rfl, rfl⟩

theorem neverCrashes_ofExcept {α : Type} {x : Except Error α} (h : x ≠ .error keyless) :
    NeverCrashes (Comp.ofExcept x) := by
  intro db hc
  exact h ((crashes_reads (f := fun _ => x)).mp hc)

theorem neverCrashes_throw {α : Type} {e : Error} (h : e ≠ keyless) :
    NeverCrashes (Comp.throw e : RoomComp α) := by
  intro db hc
  obtain ⟨e', db', he, rfl⟩ := hc
  exact h (Except.error.inj (Prod.mk.inj he).1)

theorem neverCrashes_pure {α : Type} (a : α) : NeverCrashes (pure a : RoomComp α) :=
  Comp.Never.of_ok fun db => ⟨a, db, rfl⟩

theorem neverCrashes_tick : NeverCrashes tick := Comp.Never.of_ok fun _ => ⟨_, _, rfl⟩

theorem crashes_attempt {α : Type} {x : RoomComp α} : Crashes (attempt x) db ↔ Crashes x db := by
  unfold Crashes Comp.FailsIn attempt
  cases hx : x db with
  | mk o db' =>
    cases o with
    | ok a =>
      refine iff_of_false ?_ ?_
      · rintro ⟨e, s, he, -⟩
        cases he
      · rintro ⟨e, s, he, -⟩
        cases he
    | error err =>
      dsimp only
      by_cases hp : err.isPanic = true
      · rw [if_pos hp]
        constructor
        · rintro ⟨e, s, he, rfl⟩
          cases he
          exact ⟨_, _, rfl, rfl⟩
        · rintro ⟨e, s, he, rfl⟩
          cases he
          exact ⟨_, _, rfl, rfl⟩
      · rw [if_neg hp]
        refine iff_of_false ?_ ?_
        · rintro ⟨e, s, he, -⟩
          cases he
        · rintro ⟨e, s, he, rfl⟩
          cases he
          exact hp rfl

/-- a first part that does not crash -/
theorem crashes_after {α β : Type} {x : RoomComp α} {f : α → RoomComp β} (hx : ¬ Crashes x db) :
    Crashes (x >>= f) db ↔ ∃ a db', x db = (.ok a, db') ∧ Crashes (f a) db' :=
  Comp.failsIn_bind.trans (or_iff_right hx)

/-- a first part that is known -/
theorem crashes_run {α β : Type} {x : RoomComp α} {f : α → RoomComp β} {db' : Db} {a : α}
    (h : x db = (.ok a, db')) : Crashes (x >>= f) db ↔ Crashes (f a) db' := by
  unfold Crashes Comp.FailsIn
  rw [Comp.bind_ok h]

/-- a last part that does not crash -/
theorem crashes_then_pure {α β : Type} {x : RoomComp α} (f : α → β) :
    Crashes (x >>= fun a => pure (f a)) db ↔ Crashes x db := by
  refine Comp.failsIn_bind.trans (or_iff_left ?_)
  rintro ⟨a, db', -, h⟩
  exact neverCrashes_pure (f a) db' h

/-! ## the map of the auth events -/

theorem getPdu_not_panic (h : db.getPdu e = .error err) :
    err.isPanic = false := by
  unfold getPdu TimelineTables.getPdu at h
  cases hc : db.timeline.pduCache e with
  | some p =>
    rw [hc] at h
    cases h
  | none =>
    rw [hc] at h
    unfold TimelineTables.getPduJson TimelineTables.getNonOutlierPduJson at h
    cases hid : db.timeline.eventidPduid e with
    | none =>
      simp only [hid] at h
      cases ho : db.timeline.eventidOutlierpdu e with
      | none =>
        simp only [ho] at h
        cases h
      | some j =>
        simp only [ho] at h
        cases h
    | some id =>
      cases hrow : db.timeline.pduidPdu.get id with
      | none =>
        simp only [hid, hrow] at h
        cases h
        rfl
      | some j =>
        simp only [hid, hrow] at h
        cases h

/-- among the auth events is one of the room without a state key, and those before it are taken -/
def MeetsKeyless (db : Db) (r : RoomId) (es : List EventId) (found : AuthEvents) : Prop :=
  ∃ before e rest known pdu, es = before ++ e :: rest ∧ db.authEventsMap r before found = .ok known ∧
    db.getPdu e = .ok (some pdu) ∧ pdu.roomId = r ∧ pdu.stateKey = none

section
variable {db : Db} {r : RoomId} {e : EventId} {es : List EventId} {found : AuthEvents}

theorem authEventsMap_nil : db.authEventsMap r [] found = .ok found := by
  unfold authEventsMap
  rfl

theorem authEventsMap_cons : db.authEventsMap r (e :: es) found =
    (db.authEventsMap r [e] found >>= fun known => db.authEventsMap r es known) := by
  rw [authEventsMap, authEventsMap]
  cases db.getPdu e with
  | error err => rfl
  | ok o =>
    cases o with
    | none =>
      show db.authEventsMap r es found = (db.authEventsMap r [] found >>= _)
      rw [authEventsMap_nil]
      rfl
    | some pdu =>
      show (checkRoomId r pdu >>= _) = ((checkRoomId r pdu >>= _) >>= _)
      cases checkRoomId r pdu with
      | error err => rfl
      | ok u =>
        rw [except_ok_bind, except_ok_bind]
        cases pdu.stateKey with
        | none => rfl
        | some stateKey =>
          show (if found.any (fun a => a.1 = (pdu.kind, stateKey)) then _ else _)
            = ((if found.any (fun a => a.1 = (pdu.kind, stateKey)) then _ else _) >>= _)
          split
          · rfl
          · rw [authEventsMap_nil]
            rfl

/-- one auth event -/
theorem authEventsMap_single : db.authEventsMap r [e] found = .error keyless ↔
    ∃ pdu, db.getPdu e = .ok (some pdu) ∧ pdu.roomId = r ∧ pdu.stateKey = none := by
  unfold authEventsMap
  cases hget : db.getPdu e with
  | error err =>
    refine iff_of_false (fun h => ?_) ?_
    · have hnot := getPdu_not_panic hget
      rw [show err = keyless from Except.error.inj h] at hnot
      cases hnot
    · rintro ⟨pdu, hpdu, -⟩
      cases hpdu
  | ok o =>
    cases o with
    | none =>
      refine iff_of_false (fun h => ?_) ?_
      · cases h
      · rintro ⟨pdu, hpdu, -⟩
        cases hpdu
    | some pdu =>
      have hself : (∃ pdu', (.ok (some pdu) : Except Error (Option PduEvent)) = .ok (some pdu') ∧
          pdu'.roomId = r ∧ pdu'.stateKey = none) ↔ pdu.roomId = r ∧ pdu.stateKey = none := by
        constructor
        · rintro ⟨pdu', hpdu, h⟩
          cases hpdu
          exact h
        · exact fun h => ⟨pdu, rfl, h⟩
      rw [hself]
      show (checkRoomId r pdu >>= _) = _ ↔ _
      unfold checkRoomId
      by_cases hroom : pdu.roomId = r
      · rw [if_pos hroom, and_iff_right hroom, except_ok_bind]
        cases hkey : pdu.stateKey with
        | none => exact iff_of_true rfl rfl
        | some stateKey =>
          refine iff_of_false (fun h => ?_) nofun
          change (if found.any (fun a => a.1 = (pdu.kind, stateKey)) then _ else _) = _ at h
          split at h
          · cases h
          · cases h
      · rw [if_neg hroom]
        exact iff_of_false nofun fun h => hroom h.1

theorem meetsKeyless_cons : MeetsKeyless db r (e :: es) found ↔
    db.authEventsMap r [e] found = .error keyless ∨
      ∃ known, db.authEventsMap r [e] found = .ok known ∧ MeetsKeyless db r es known := by
  constructor
  · rintro ⟨before, e', rest, known, pdu, heq, hmap, hpdu⟩
    cases before with
    | nil =>
      obtain ⟨rfl, rfl⟩ := List.cons.inj heq
      exact Or.inl (authEventsMap_single.mpr ⟨pdu, hpdu⟩)
    | cons b before =>
      obtain ⟨rfl, rfl⟩ := List.cons.inj heq
      rw [authEventsMap_cons] at hmap
      obtain ⟨known', hone, hrest⟩ := except_bind_eq_ok.mp hmap
      exact Or.inr ⟨known', hone, before, e', rest, known, pdu, rfl, hrest, hpdu⟩
  · rintro (h | ⟨known', hone, before, e', rest, known, pdu, rfl, hrest, hpdu⟩)
    · obtain ⟨pdu, hpdu⟩ := authEventsMap_single.mp h
      refine ⟨[], e, es, found, pdu, rfl, ?_, hpdu⟩
      unfold authEventsMap
      rfl
    · refine ⟨e :: before, e', rest, known, pdu, rfl, ?_, hpdu⟩
      rw [authEventsMap_cons]
      exact except_bind_eq_ok.mpr ⟨known', hone, hrest⟩

end

/-- the map runs into the expectation exactly at such an event -/
theorem authEventsMap_keyless_iff (es : List EventId) (found : AuthEvents) :
    db.authEventsMap r es found = .error keyless ↔ MeetsKeyless db r es found := by
  induction es generalizing found with
  | nil =>
    refine iff_of_false (fun h => ?_) ?_
    · unfold authEventsMap at h
      cases h
    · rintro ⟨before, e, rest, known, pdu, heq, -⟩
      exact List.append_ne_nil_of_right_ne_nil before (List.cons_ne_nil e rest) heq.symm
  | cons e es ih =>
    rw [meetsKeyless_cons, authEventsMap_cons]
    cases hone : db.authEventsMap r [e] found with
    | error err =>
      constructor
      · intro h
        exact Or.inl h
      · rintro (h | ⟨known, h, -⟩)
        · exact h
        · cases h
    | ok known =>
      show db.authEventsMap r es known = _ ↔ _
      rw [ih known]
      constructor
      · exact fun h => Or.inr ⟨known, rfl, h⟩
      · rintro (h | ⟨known', h, hmeets⟩)
        · cases h
        · cases h
          exact hmeets

/-! ## what comes before the map -/

section
variable {env : Env} {fed : Fed}

theorem createVersion_ne_keyless (createEvent : PduEvent) :
    createVersion env fed createEvent ≠ .error keyless := by
  intro h
  unfold createVersion at h
  split at h
  · cases h
  · split at h
    · cases h
    · exact absurd (Error.panic.inj (Except.error.inj h)) (by decide)

theorem checkRoomId_ne_keyless (r : RoomId) (pdu : PduEvent) : checkRoomId r pdu ≠ .error keyless := by
  intro h
  unfold checkRoomId at h
  split at h
  · cases h
  · cases h

theorem checkOriginServerTs_ne_keyless (value : JsonObject) : checkOriginServerTs value ≠ .error keyless := by
  intro h
  unfold checkOriginServerTs at h
  split at h
  · cases h
  · split at h
    · cases h
    · cases h
  · cases h

theorem getPduJson_not_panic {t : TimelineTables} (h : t.getPduJson e = .error err) : err.isPanic = false := by
  unfold TimelineTables.getPduJson TimelineTables.getNonOutlierPduJson at h
  cases hid : t.eventidPduid e with
  | none =>
    simp only [hid] at h
    cases h
  | some id =>
    cases hrow : t.pduidPdu.get id with
    | none =>
      simp only [hid, hrow] at h
      cases h
      rfl
    | some j =>
      simp only [hid, hrow] at h
      cases h

theorem redactUnknown_ne_keyless (db : Db) (e : EventId) (value : JsonObject) (version : RoomVersionId) :
    db.redactUnknown fed e value version ≠ .error keyless := by
  intro h
  unfold redactUnknown at h
  cases hr : fed.redactObject value version with
  | none =>
    simp only [hr] at h
    cases h
  | some obj =>
    cases hg : db.timeline.getPduJson e with
    | error err =>
      simp only [hr, hg] at h
      have hnot := getPduJson_not_panic hg
      rw [show err = keyless from Except.error.inj h] at hnot
      cases hnot
    | ok o =>
      cases o with
      | some j =>
        simp only [hr, hg] at h
        cases h
      | none =>
        simp only [hr, hg] at h
        cases h

theorem incomingPdu_ne_keyless (e : EventId) (r : RoomId) (value : JsonObject) :
    incomingPdu fed e r value ≠ .error keyless := by
  intro h
  unfold incomingPdu at h
  cases hp : fed.pduOfJson (value.insert "event_id" (.str (fed.eventIdStr e))) with
  | none =>
    simp only [hp] at h
    cases h
  | some pdu =>
    simp only [hp] at h
    cases hroom : checkRoomId r pdu with
    | error err =>
      rw [hroom] at h
      have herr : err = keyless := Except.error.inj h
      exact checkRoomId_ne_keyless r pdu (herr ▸ hroom)
    | ok u =>
      rw [hroom] at h
      cases h

variable (hkeys : ∀ n value, fed.fetchRequiredSigningKeys n value ≠ .error keyless)
include hkeys

theorem verifyPdu_neverCrashes (createEvent : PduEvent) (e : EventId) (r : RoomId) (value : JsonObject) :
    NeverCrashes (verifyPdu env fed createEvent e r value) := by
  refine (neverCrashes_ofExcept (createVersion_ne_keyless createEvent)).bind fun version => ?_
  refine Comp.Never.bind ?_ fun value => neverCrashes_ofExcept (incomingPdu_ne_keyless e r value)
  refine neverCrashes_tick.bind fun n => (neverCrashes_ofExcept (hkeys n _)).bind fun _ =>
    (neverCrashes_ofExcept (checkOriginServerTs_ne_keyless _)).bind fun _ => ?_
  cases fed.verifyEvent n (value.remove "unsigned") version with
  | none => exact neverCrashes_throw nofun
  | some v =>
    cases v with
    | signatures => exact fun db h => redactUnknown_ne_keyless db e _ version (crashes_reads.mp h)
    | all => exact neverCrashes_pure _

theorem backOff_neverCrashes (e : EventId) : NeverCrashes (backOff fed e) :=
  neverCrashes_tick.bind fun _ => Comp.Never.of_ok fun _ => ⟨_, _, rfl⟩

theorem fetchEvent_neverCrashes (origin : ServerName) (version : RoomVersionId) (n : Nat) (e : EventId) :
    NeverCrashes (fetchEvent fed origin version n e) := by
  have hoff : NeverCrashes (do
      backOff fed e
      pure none : RoomComp (Option JsonObject)) :=
    (backOff_neverCrashes hkeys e).bind fun _ => neverCrashes_pure _
  unfold fetchEvent
  cases fed.getEvent n origin e with
  | none => exact hoff
  | some raw =>
    dsimp only
    cases hgen : fed.genEventIdCanonicalJson raw version with
    | ok p => exact neverCrashes_pure _
    | error err =>
      have hne : err ≠ keyless := by
        rintro rfl
        unfold Fed.genEventIdCanonicalJson at hgen
        split at hgen
        · cases hgen
        · split at hgen
          · cases hgen
          · exact absurd (Error.panic.inj (Except.error.inj hgen)) (by decide)
      show NeverCrashes (if err.isPanic then _ else _)
      split
      · exact neverCrashes_throw hne
      · exact hoff

theorem fetchAuthChain_neverCrashes (origin : ServerName) (version : RoomVersionId) (fuel : Nat)
    (todo : List EventId) (fetched : List (EventId × JsonObject)) :
    NeverCrashes (fetchAuthChain fed origin version fuel todo fetched) := by
  induction fuel generalizing todo fetched with
  | zero =>
    cases todo with
    | nil => exact neverCrashes_pure _
    | cons e todo => exact neverCrashes_throw (by decide)
  | succ fuel ih =>
    cases todo with
    | nil => exact neverCrashes_pure _
    | cons e todo =>
      unfold fetchAuthChain
      refine neverCrashes_tick.bind fun n =>
        Comp.Never.bind (Comp.Never.of_ok fun db => ⟨db, db, rfl⟩) fun db => ?_
      split
      · exact ih _ _
      · refine (fetchEvent_neverCrashes hkeys origin version n e).bind fun o => ?_
        cases o with
        | some value => exact ih _ _
        | none => exact ih _ _

end

/-! ## the checks of a call -/

section
variable (env : Env) (fed : Fed) (fuel : Nat) (origin : ServerName) (createEvent : PduEvent) (r : RoomId)

/-- one of the fetched events comes to its auth events -/
inductive ChecksFetched : List (EventId × JsonObject) → Db → PduJson → Db → Prop
  | here {db db' : Db} {e : EventId} {value : JsonObject} {fetched : List (EventId × JsonObject)}
      {j : PduJson} : db.ticked.backsOff (fed.now db.ticks) e = false →
      verifyPdu env fed createEvent e r value db.ticked = (.ok j, db') →
      ChecksFetched ((e, value) :: fetched) db j db'
  | later {db db₁ db' : Db} {e : EventId} {value : JsonObject}
      {fetched : List (EventId × JsonObject)} {o : Option PduJson} {j : PduJson} :
      handleFetched env fed createEvent r e value db = (.ok o, db₁) →
      ChecksFetched fetched db₁ j db' → ChecksFetched ((e, value) :: fetched) db j db'

inductive ChecksOutliers (version : RoomVersionId) : List EventId → Db → PduJson → Db → Prop
  | here {db db₁ db' : Db} {e : EventId} {es : List EventId} {fetched : List (EventId × JsonObject)}
      {j : PduJson} : (∀ pdu, db.getPdu e ≠ .ok (some pdu)) →
      fetchAuthChain fed origin version fuel [e] [] db = (.ok fetched, db₁) →
      ChecksFetched env fed createEvent r fetched db₁ j db' → ChecksOutliers version (e :: es) db j db'
  | later {db db₁ db' : Db} {e : EventId} {es : List EventId} {j : PduJson}
      {pdus : List (PduEvent × Option JsonObject)} :
      fetchOutlier env fed fuel origin createEvent r version e db = (.ok pdus, db₁) →
      ChecksOutliers version es db₁ j db' → ChecksOutliers version (e :: es) db j db'

/-- the events whose auth events `handleOutlierPdu` comes to, with the store at that moment -/
inductive Checks (e : EventId) (value : JsonObject) : Db → PduJson → Db → Prop
  | fetched {db db₁ db' : Db} {incoming j : PduJson} {version : RoomVersionId} :
      verifyPdu env fed createEvent e r value db = (.ok incoming, db₁) →
      createVersion env fed createEvent = .ok version →
      ChecksOutliers env fed fuel origin createEvent r version incoming.pdu.authEvents db₁ j db' →
      Checks e value db j db'
  | itself {db db₁ db' : Db} {j : PduJson} {version : RoomVersionId}
      {pdus : List (PduEvent × Option JsonObject)} :
      verifyPdu env fed createEvent e r value db = (.ok j, db₁) →
      createVersion env fed createEvent = .ok version →
      fetchAndHandleOutliers env fed fuel origin createEvent r version j.pdu.authEvents db₁
        = (.ok pdus, db') → Checks e value db j db'

end

section
variable {env : Env} {fed : Fed} {fuel : Nat} {origin : ServerName} {createEvent : PduEvent} {r : RoomId}
variable {value : JsonObject}

theorem persistOutlier_crashes {j : PduJson} (hversion : createVersion env fed createEvent = .ok version) :
    Crashes (persistOutlier env fed createEvent r j) db ↔ MeetsKeyless db r j.pdu.authEvents [] := by
  have hlast : ∀ u : Unit, NeverCrashes (do
      onTimeline (fun t => t.addPduOutlier j.pdu.eventId j)
      pure j : RoomComp PduJson) := fun _ => Comp.Never.of_ok fun _ => ⟨_, _, rfl⟩
  have hread : Crashes (persistOutlier env fed createEvent r j) db ↔
      db.checkAuthEvents env fed createEvent r j.pdu = .error keyless := by
    refine Iff.trans ?_ (crashes_reads (f := fun db => db.checkAuthEvents env fed createEvent r j.pdu))
    constructor
    · intro h
      rcases Comp.failsIn_bind.mp h with h | ⟨u, db', -, h⟩
      · exact h
      · exact absurd h (hlast u db')
    · exact fun h => Comp.failsIn_bind.mpr (Or.inl h)
  rw [hread, ← authEventsMap_keyless_iff]
  unfold checkAuthEvents
  rw [hversion]
  show (db.authEventsMap r j.pdu.authEvents [] >>= _) = _ ↔ _
  cases db.authEventsMap r j.pdu.authEvents [] with
  | error err =>
    constructor
    · exact fun h => congrArg Except.error (Except.error.inj h)
    · exact fun h => congrArg Except.error (Except.error.inj h)
  | ok authEvents =>
    refine iff_of_false (fun h => ?_) nofun
    rw [except_ok_bind] at h
    split at h
    · cases h
    · cases h

variable (hkeys : ∀ n value, fed.fetchRequiredSigningKeys n value ≠ .error keyless)
include hkeys

theorem handleKnownOutlier_crashes :
    Crashes (handleKnownOutlier env fed createEvent e r value) db ↔
      ∃ j db', verifyPdu env fed createEvent e r value db = (.ok j, db') ∧
        MeetsKeyless db' r j.pdu.authEvents [] := by
  unfold handleKnownOutlier
  rw [crashes_after (verifyPdu_neverCrashes hkeys createEvent e r value db)]
  refine exists_congr fun j => exists_congr fun db' => and_congr_right fun hj => ?_
  obtain ⟨version, hversion, -⟩ := verifyPdu_ok env fed hj
  exact persistOutlier_crashes hversion

theorem handleFetched_crashes :
    Crashes (handleFetched env fed createEvent r e value) db ↔
      db.ticked.backsOff (fed.now db.ticks) e = false ∧
        ∃ j db', verifyPdu env fed createEvent e r value db.ticked = (.ok j, db') ∧
          MeetsKeyless db' r j.pdu.authEvents [] := by
  unfold handleFetched
  rw [crashes_run (show tick db = (.ok db.ticks, db.ticked) from rfl), crashes_run (Comp.get_run _)]
  cases hback : db.ticked.backsOff (fed.now db.ticks) e with
  | true =>
    rw [if_pos rfl]
    exact iff_of_false (neverCrashes_pure _ _) fun h => by cases h.1
  | false =>
    rw [if_neg Bool.false_ne_true, and_iff_right rfl, ← handleKnownOutlier_crashes hkeys]
    refine Iff.trans ?_ crashes_attempt
    constructor
    · intro h
      rcases Comp.failsIn_bind.mp h with h | ⟨o, db', -, h⟩
      · exact h
      · cases o with
        | some j => exact absurd h (neverCrashes_pure _ _)
        | none => exact absurd h ((backOff_neverCrashes hkeys e).bind (fun _ => neverCrashes_pure _) db')
    · exact fun h => Comp.failsIn_bind.mpr (Or.inl h)

theorem handleAllFetched_crashes {wanted : EventId} (fetched : List (EventId × JsonObject)) (db : Db) :
    Crashes (handleAllFetched env fed createEvent r wanted fetched) db ↔
      ∃ j db', ChecksFetched env fed createEvent r fetched db j db' ∧
        MeetsKeyless db' r j.pdu.authEvents [] := by
  induction fetched generalizing db with
  | nil =>
    refine iff_of_false (neverCrashes_pure _ _) ?_
    rintro ⟨j, db', hchecks, -⟩
    cases hchecks
  | cons f fetched ih =>
    obtain ⟨e, value⟩ := f
    constructor
    · intro h
      rcases Comp.failsIn_bind.mp h with h | ⟨o, db₁, ho, h⟩
      · obtain ⟨hback, j, db', hj, hmeets⟩ := (handleFetched_crashes hkeys).mp h
        exact ⟨j, db', .here hback hj, hmeets⟩
      · obtain ⟨j, db', hchecks, hmeets⟩ := (ih db₁).mp ((crashes_then_pure _).mp h)
        exact ⟨j, db', .later ho hchecks, hmeets⟩
    · rintro ⟨j, db', hchecks, hmeets⟩
      cases hchecks with
      | here hback hj =>
        exact Comp.failsIn_bind.mpr (Or.inl ((handleFetched_crashes hkeys).mpr ⟨hback, j, db', hj, hmeets⟩))
      | @later _ db₁ _ _ _ _ o _ ho hchecks =>
        exact Comp.failsIn_bind.mpr (Or.inr ⟨o, db₁, ho,
          (crashes_then_pure _).mpr ((ih db₁).mpr ⟨j, db', hchecks, hmeets⟩)⟩)

variable {version : RoomVersionId}

theorem fetchOutlier_crashes :
    Crashes (fetchOutlier env fed fuel origin createEvent r version e) db ↔
      (∀ pdu, db.getPdu e ≠ .ok (some pdu)) ∧ ∃ fetched db₁ j db',
        fetchAuthChain fed origin version fuel [e] [] db = (.ok fetched, db₁) ∧
        ChecksFetched env fed createEvent r fetched db₁ j db' ∧ MeetsKeyless db' r j.pdu.authEvents [] := by
  have hfetch : Crashes (do
      let fetched ← fetchAuthChain fed origin version fuel [e] []
      handleAllFetched env fed createEvent r e fetched) db ↔ ∃ fetched db₁ j db',
        fetchAuthChain fed origin version fuel [e] [] db = (.ok fetched, db₁) ∧
        ChecksFetched env fed createEvent r fetched db₁ j db' ∧ MeetsKeyless db' r j.pdu.authEvents [] := by
    rw [crashes_after (fetchAuthChain_neverCrashes hkeys origin version fuel [e] [] db)]
    refine exists_congr fun fetched => exists_congr fun db₁ => ?_
    rw [handleAllFetched_crashes hkeys]
    constructor
    · rintro ⟨hf, j, db', h⟩
      exact ⟨j, db', hf, h⟩
    · rintro ⟨j, db', hf, h⟩
      exact ⟨hf, j, db', h⟩
  unfold fetchOutlier
  rw [crashes_run (Comp.get_run db)]
  cases hget : db.getPdu e with
  | error err => exact hfetch.trans (and_iff_right nofun).symm
  | ok o =>
    cases o with
    | none => exact hfetch.trans (and_iff_right nofun).symm
    | some pdu => exact iff_of_false (neverCrashes_pure _ _) fun h => h.1 pdu rfl

theorem fetchAndHandleOutliers_crashes (es : List EventId) (db : Db) :
    Crashes (fetchAndHandleOutliers env fed fuel origin createEvent r version es) db ↔
      ∃ j db', ChecksOutliers env fed fuel origin createEvent r version es db j db' ∧
        MeetsKeyless db' r j.pdu.authEvents [] := by
  induction es generalizing db with
  | nil =>
    refine iff_of_false (neverCrashes_pure _ _) ?_
    rintro ⟨j, db', hchecks, -⟩
    cases hchecks
  | cons e es ih =>
    have hrest : ∀ (pdus : List (PduEvent × Option JsonObject)) (db₁ : Db), Crashes (do
        let rest ← fetchAndHandleOutliers env fed fuel origin createEvent r version es
        pure (pdus ++ rest)) db₁ ↔
          Crashes (fetchAndHandleOutliers env fed fuel origin createEvent r version es) db₁ :=
      fun _ _ => crashes_then_pure _
    constructor
    · intro h
      rcases Comp.failsIn_bind.mp h with h | ⟨pdus, db₁, hpdus, h⟩
      · obtain ⟨hnew, fetched, db₁, j, db', hf, hchecks, hmeets⟩ := (fetchOutlier_crashes hkeys).mp h
        exact ⟨j, db', .here hnew hf hchecks, hmeets⟩
      · obtain ⟨j, db', hchecks, hmeets⟩ := (ih db₁).mp ((hrest pdus db₁).mp h)
        exact ⟨j, db', .later hpdus hchecks, hmeets⟩
    · rintro ⟨j, db', hchecks, hmeets⟩
      cases hchecks with
      | @here _ db₁ _ _ _ fetched _ hnew hf hchecks =>
        exact Comp.failsIn_bind.mpr (Or.inl ((fetchOutlier_crashes hkeys).mpr
          ⟨hnew, fetched, db₁, j, db', hf, hchecks, hmeets⟩))
      | @later _ db₁ _ _ _ _ pdus hpdus hchecks =>
        exact Comp.failsIn_bind.mpr (Or.inr ⟨pdus, db₁, hpdus,
          (hrest pdus db₁).mpr ((ih db₁).mpr ⟨j, db', hchecks, hmeets⟩)⟩)

/-- the handler crashes exactly if one of its checks meets an auth event without a state key -/
theorem handleOutlierPdu_meets :
    Crashes (handleOutlierPdu env fed fuel origin createEvent e r value) db ↔
      ∃ j db', Checks env fed fuel origin createEvent r e value db j db' ∧
        MeetsKeyless db' r j.pdu.authEvents [] := by
  unfold handleOutlierPdu
  rw [crashes_after (verifyPdu_neverCrashes hkeys createEvent e r value db)]
  constructor
  · rintro ⟨incoming, db₁, hverify, h⟩
    obtain ⟨version, hversion, -⟩ := verifyPdu_ok env fed hverify
    rw [crashes_run (show Comp.ofExcept (createVersion env fed createEvent) db₁ = (.ok version, db₁) by
      rw [Comp.ofExcept_run, hversion])] at h
    rcases Comp.failsIn_bind.mp h with h | ⟨pdus, db₂, hpdus, h⟩
    · obtain ⟨j, db', hchecks, hmeets⟩ := (fetchAndHandleOutliers_crashes hkeys _ _).mp h
      exact ⟨j, db', .fetched hverify hversion hchecks, hmeets⟩
    · exact ⟨incoming, db₂, .itself hverify hversion hpdus, (persistOutlier_crashes hversion).mp h⟩
  · rintro ⟨j, db', hchecks, hmeets⟩
    cases hchecks with
    | @fetched db₁ _ incoming _ version hverify hversion hchecks =>
      refine ⟨incoming, db₁, hverify, ?_⟩
      rw [crashes_run (show Comp.ofExcept (createVersion env fed createEvent) db₁ = (.ok version, db₁) by
        rw [Comp.ofExcept_run, hversion])]
      exact Comp.failsIn_bind.mpr (Or.inl ((fetchAndHandleOutliers_crashes hkeys _ _).mpr
        ⟨j, db', hchecks, hmeets⟩))
    | @itself db₁ _ _ version pdus hverify hversion hpdus =>
      refine ⟨j, db₁, hverify, ?_⟩
      rw [crashes_run (show Comp.ofExcept (createVersion env fed createEvent) db₁ = (.ok version, db₁) by
        rw [Comp.ofExcept_run, hversion])]
      exact Comp.failsIn_bind.mpr (Or.inr ⟨pdus, db', hpdus, (persistOutlier_crashes hversion).mpr hmeets⟩)

end

/-! ## member events -/

/-- the auth check refuses a member event unless its state key is a user -/
def ChecksMembers (env : Env) (fed : Fed) : Prop := ∀ version (pdu : PduEvent) lookup,
  fed.authCheck version pdu lookup = some true → pdu.kind = .roomMember →
    ∃ stateKey u, pdu.stateKey = some stateKey ∧ env.ids.userIdOfStr stateKey = some u

/-- a member event about a user -/
def AboutUser (env : Env) (pdu : PduEvent) : Prop :=
  pdu.kind = .roomMember → ∀ stateKey, pdu.stateKey = some stateKey → ∃ u, memberTarget env stateKey = .ok u

theorem ChecksMembers.aboutUser (h : ChecksMembers env fed) {lookup : EventType → String → Option PduEvent}
    (hcheck : fed.authCheck version pdu lookup = some true) : AboutUser env pdu := by
  intro hkind stateKey hkey
  obtain ⟨stateKey', u, hkey', hu⟩ := h version pdu lookup hcheck hkind
  obtain rfl : stateKey = stateKey' := Option.some.inj (hkey.symm.trans hkey')
  refine ⟨u, ?_⟩
  unfold memberTarget
  rw [hu]

theorem authCheck_of_softFails (h : db.softFails env fed version r pdu = .ok false) :
    ∃ lookup, fed.authCheck version pdu lookup = some true := by
  unfold softFails at h
  obtain ⟨authEvents, -, h⟩ := except_bind_eq_ok.mp h
  split at h
  · cases h
  · cases h
  · next hcheck => exact ⟨_, hcheck⟩

theorem sameIds_quiet : Quiet SameIds := .events fun t _ => t.eventidPduid

theorem getOrCreateShortroomid_sameIds (r : RoomId) : Comp.Keeps SameIds (getOrCreateShortroomid r) := by
  unfold getOrCreateShortroomid
  refine sameIds_quiet.get fun db => ?_
  split
  · exact sameIds_quiet.pure _
  · exact sameIds_quiet.bind (fun _ => rfl) fun _ =>
      sameIds_quiet.bind (Comp.Keeps.modify fun _ => rfl) fun _ => sameIds_quiet.pure _

theorem prepareJoin_authCheck {db' : Db} {s : Nat} (h : prepareJoin env fed r answer db = (.ok s, db')) :
    ∃ lookup, fed.authCheck answer.version answer.joinEvent.pdu lookup = some true := by
  unfold prepareJoin at h
  obtain ⟨_, db₁, -, h⟩ := Comp.bind_eq_ok.mp h
  obtain ⟨state, db₂, -, h⟩ := Comp.bind_eq_ok.mp h
  obtain ⟨_, db₃, -, h⟩ := Comp.bind_eq_ok.mp h
  obtain ⟨_, hcheck, -⟩ := Comp.reads_eq_ok h
  unfold checkJoinAuth at hcheck
  split at hcheck
  · next hpass => exact ⟨_, hpass⟩
  · cases hcheck

/-- a join event that enters the timeline has passed the auth check -/
theorem join_appends (hnew : db.timeline.eventidPduid answer.joinEvent.pdu.eventId = none)
    (henters : (joinOverFederation env fed r answer db).2.timeline.eventidPduid
      answer.joinEvent.pdu.eventId ≠ none) :
    ∃ lookup, fed.authCheck answer.version answer.joinEvent.pdu lookup = some true := by
  have hstay : ¬ SameIds db (joinOverFederation env fed r answer db).2 := fun hs =>
    henters ((congrFun hs _).trans hnew)
  have hprepare : Comp.Keeps SameIds (prepareJoin env fed r answer) :=
    prepareJoin_keeps env fed sameIds_quiet blind_sameIds (fun _ _ => rfl) (fun _ _ => rfl)
      (fun _ _ _ => rfl) (fun _ _ => rfl) r answer
  rcases (getOrCreateShortroomid_sameIds r).bind_run (show joinOverFederation env fed r answer db
    = (_, (joinOverFederation env fed r answer db).2) from rfl) with hs | ⟨_, db₁, h1, -, h⟩
  · exact absurd hs hstay
  · rcases hprepare.bind_run h with hs | ⟨s, db₂, h2, hrun, -⟩
    · exact absurd (hs.trans h1) hstay
    · exact prepareJoin_authCheck hrun

/-! ## both expectations -/

/-- the handler does not crash, and what is appended because of another server is about a user if it is a
member event -/
structure Unfailing (env : Env) (fed : Fed) (fuel : Nat) (origin : ServerName) (createEvent : PduEvent)
    (r : RoomId) (e : EventId) (value : JsonObject) (db : Db) : Prop where
  outlier : ¬ Crashes (handleOutlierPdu env fed fuel origin createEvent e r value) db
  /-- the row is written before the expectation, so the event is new to the timeline in either case -/
  appended : ∀ (j : PduJson) (before : Db), before.timeline.eventidPduid j.pdu.eventId = none →
    (upgradeOutlierToTimelinePdu env fed fuel j createEvent origin r before).2.timeline.eventidPduid
      j.pdu.eventId ≠ none → AboutUser env j.pdu
  joined : ∀ (answer : SendJoinAnswer) (before : Db),
    before.timeline.eventidPduid answer.joinEvent.pdu.eventId = none →
    (joinOverFederation env fed r answer before).2.timeline.eventidPduid
      answer.joinEvent.pdu.eventId ≠ none → AboutUser env answer.joinEvent.pdu

/-- the expectations hold exactly if no check of the call meets an auth event without a state key -/
theorem handleOutlierPdu_crashes_iff (env : Env) (fed : Fed) (fuel : Nat) (origin : ServerName)
    (createEvent : PduEvent) (r : RoomId)
    (hkeys : ∀ n value, fed.fetchRequiredSigningKeys n value ≠ .error keyless)
    (hmembers : ChecksMembers env fed) (e : EventId) (value : JsonObject) (db : Db) :
    Unfailing env fed fuel origin createEvent r e value db ↔
      ∀ j db', Checks env fed fuel origin createEvent r e value db j db' →
        ¬ MeetsKeyless db' r j.pdu.authEvents [] := by
  constructor
  · intro h j db' hchecks hmeets
    exact h.outlier ((handleOutlierPdu_meets hkeys).mpr ⟨j, db', hchecks, hmeets⟩)
  · intro h
    refine ⟨fun hcrash => ?_, fun j before hnew henters => ?_, fun answer before hnew henters => ?_⟩
    · obtain ⟨j, db', hchecks, hmeets⟩ := (handleOutlierPdu_meets hkeys).mp hcrash
      exact h j db' hchecks hmeets
    · obtain ⟨version, seen, _, _, -, hsoft, -⟩ := upgrade_appends hnew rfl henters
      obtain ⟨lookup, hcheck⟩ := authCheck_of_softFails hsoft
      exact hmembers.aboutUser hcheck
    · obtain ⟨lookup, hcheck⟩ := join_appends hnew henters
      exact hmembers.aboutUser hcheck

/-! ### a message among the auth events -/

namespace Keyless
open Sends

/-- messages of alice -/
def messageOfJson (o : JsonObject) : Option PduEvent :=
  match o.get "event_id" with
  | some (.str s) => (Bytewise.ofStr s).map fun e =>
      ⟨⟨e.toText⟩, room, alice, 1, .roomMessage, [], none, [], 0, authEventIds .plain o, none, none⟩
  | _ => none

theorem messageOfJson_eventId (o : JsonObject) (e : EventId) (pdu : PduEvent)
    (h : messageOfJson (o.insert "event_id" (.str (Bytewise.toStr ⟨e.toText⟩))) = some pdu) :
    pdu.eventId = e := by
  have hget : (o.insert "event_id" (.str (Bytewise.toStr ⟨e.toText⟩))).get "event_id"
      = some (.str (Bytewise.toStr ⟨e.toText⟩)) := rfl
  unfold messageOfJson at h
  simp only [hget, Bytewise.ofStr_toStr] at h
  cases h
  rfl

/-- a world in which member events need a user, and all else is authorized -/
def world : Fed := { Fed.plain with
  eventIdStr := fun e => Bytewise.toStr ⟨e.toText⟩
  pduOfJson := messageOfJson
  pduOfJson_eventId := messageOfJson_eventId
  authCheck := fun _ pdu _ =>
    some (pdu.kind ≠ .roomMember || (pdu.stateKey.bind Env.plain.ids.userIdOfStr).isSome) }

theorem world_checks : ChecksMembers .plain world := by
  intro version pdu lookup h hkind
  change some (pdu.kind ≠ .roomMember || (pdu.stateKey.bind Env.plain.ids.userIdOfStr).isSome) = some true at h
  rw [decide_eq_false (not_not.mpr hkind), Bool.false_or] at h
  obtain ⟨u, hu⟩ := Option.isSome_iff_exists.mp (Option.some.inj h)
  obtain ⟨stateKey, hkey, hu⟩ := Option.bind_eq_some_iff.mp hu
  exact ⟨stateKey, u, hkey, hu⟩

theorem world_keys (n : Nat) (value : JsonObject) : world.fetchRequiredSigningKeys n value ≠ .error keyless := by
  intro h
  cases h

def message : PduJson := event "$message" .roomMessage [] none []

/-- the message is stored -/
def store : Db := { Db.empty with timeline := TimelineTables.empty.addPduOutlier message.pdu.eventId message }

def incoming : JsonObject := [("origin_server_ts", .num 1), ("auth_events", .arr [.str "$message"])]

/-- the same without auth events -/
def harmless : JsonObject := [("origin_server_ts", .num 1), ("auth_events", .arr [])]

abbrev handle (value : JsonObject) (db : Db) : Except Error PduJson × Db :=
  handleOutlierPdu .plain world 100 ⟨.ascii "y"⟩ create.pdu ⟨.ascii "$e"⟩ room value db

theorem handle_incoming : (handle incoming store).1.map (fun _ => ()) = .error keyless := by decide +kernel

theorem handle_harmless : (handle harmless store).1.map (fun _ => ()) = .ok () := by decide +kernel

theorem crashes_of_map {α : Type} {x : RoomComp α} (h : (x db).1.map (fun _ => ()) = .error keyless) :
    Crashes x db := by
  cases hx : x db with
  | mk o db' =>
    rw [hx] at h
    cases o with
    | ok a => cases h
    | error err => exact ⟨err, db', hx, Except.error.inj h⟩

theorem not_crashes_of_map {α : Type} {x : RoomComp α} (h : (x db).1.map (fun _ => ()) = .ok ()) :
    ¬ Crashes x db := by
  rintro ⟨err, db', hx, -⟩
  rw [hx] at h
  cases h

end Keyless

/-- an event without auth events -/
theorem handleOutlierPdu_crashes_iff_harmless :
    ¬ Crashes (handleOutlierPdu .plain Keyless.world 100 ⟨.ascii "y"⟩ Sends.create.pdu ⟨.ascii "$e"⟩ Sends.room
        Keyless.harmless) Keyless.store ∧
    (Unfailing .plain Keyless.world 100 ⟨.ascii "y"⟩ Sends.create.pdu Sends.room ⟨.ascii "$e"⟩
        Keyless.harmless Keyless.store ↔
      ∀ j db', Checks .plain Keyless.world 100 ⟨.ascii "y"⟩ Sends.create.pdu Sends.room ⟨.ascii "$e"⟩
        Keyless.harmless Keyless.store j db' → ¬ MeetsKeyless db' Sends.room j.pdu.authEvents []) :=
  ⟨Keyless.not_crashes_of_map Keyless.handle_harmless,
    handleOutlierPdu_crashes_iff _ _ _ _ _ _ Keyless.world_keys Keyless.world_checks _ _ _⟩

/-- an event whose auth event is a message crashes the handler -/
theorem handleOutlierPdu_crashes : ¬ ∀ (env : Env) (fed : Fed) (fuel : Nat) (origin : ServerName)
    (createEvent : PduEvent) (r : RoomId) (e : EventId) (value : JsonObject) (db : Db),
    (∀ n value, fed.fetchRequiredSigningKeys n value ≠ .error keyless) → ChecksMembers env fed →
      Unfailing env fed fuel origin createEvent r e value db := by
  intro hall
  have h := hall .plain Keyless.world 100 ⟨.ascii "y"⟩ Sends.create.pdu Sends.room ⟨.ascii "$e"⟩
    Keyless.incoming Keyless.store Keyless.world_keys Keyless.world_checks
  exact h.outlier (Keyless.crashes_of_map Keyless.handle_incoming)

end Db
end Grapevine
