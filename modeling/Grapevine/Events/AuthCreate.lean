import Grapevine.Events.Expects

/-!
# The create event among the auth events

`handle_outlier_pdu` means to refuse an event whose auth events do not hold the create event of the room.
Its guard takes every entry of the map, and a missing one, so nothing but the auth check is left
(`checkAuthEvents`).

* `Arrives`            the event of a call comes to the auth check;
* `DescendsFromCreate` what the call accepts has the room's create event among its auth events.

This is so exactly if the auth check refuses every other event that arrives
(`handle_descends_iff`).
-/

namespace Grapevine
open Kv

namespace Db

variable (env : Env) (fed : Fed) (fuel : Nat) (origin : ServerName) (createEvent : PduEvent) (r : RoomId)
  (e : EventId) (value : JsonObject)
variable {db : Db} {j : PduJson} {b : Bool}

/-- `handle_outlier_pdu` by its parameter `auth_events_known` -/
def handle : Bool → RoomComp PduJson
  | true => handleKnownOutlier env fed createEvent e r value
  | false => handleOutlierPdu env fed fuel origin createEvent e r value

/-- the event of the call comes to the auth check, with the store at that moment -/
inductive Arrives : Bool → Db → PduJson → Db → Prop
  | known {db db' : Db} {j : PduJson} : verifyPdu env fed createEvent e r value db = (.ok j, db') →
      Arrives true db j db'
  | fetched {db db₁ db' : Db} {j : PduJson} {version : RoomVersionId}
      {pdus : List (PduEvent × Option JsonObject)} :
      verifyPdu env fed createEvent e r value db = (.ok j, db₁) →
      createVersion env fed createEvent = .ok version →
      fetchAndHandleOutliers env fed fuel origin createEvent r version j.pdu.authEvents db₁
        = (.ok pdus, db') → Arrives false db j db'

variable {env fed fuel origin createEvent r e value}

theorem Arrives.unique {db₁ db₂ : Db} {j' : PduJson}
    (h : Arrives env fed fuel origin createEvent r e value b db j db₁)
    (h' : Arrives env fed fuel origin createEvent r e value b db j' db₂) : j = j' ∧ db₁ = db₂ := by
  cases h with
  | known hv =>
    cases h' with
    | known hv' =>
      obtain ⟨hj, hdb⟩ := Prod.mk.inj (hv.symm.trans hv')
      exact ⟨Except.ok.inj hj, hdb⟩
  | fetched hv hversion hf =>
    cases h' with
    | fetched hv' hversion' hf' =>
      obtain ⟨hj, rfl⟩ := Prod.mk.inj (hv.symm.trans hv')
      obtain rfl := Except.ok.inj hj
      obtain rfl := Except.ok.inj (hversion.symm.trans hversion')
      exact ⟨rfl, (Prod.mk.inj (hf.symm.trans hf')).2⟩

/-- what the auth check needs to let the event through -/
theorem checkAuthEvents_ok_iff {pdu : PduEvent} :
    db.checkAuthEvents env fed createEvent r pdu = .ok () ↔ ∃ version known,
      createVersion env fed createEvent = .ok version ∧ db.authEventsMap r pdu.authEvents [] = .ok known ∧
        fed.authCheck version pdu (fun kind stateKey => known.lookup (kind, stateKey)) = some true := by
  unfold checkAuthEvents
  constructor
  · intro h
    obtain ⟨version, hversion, h⟩ := except_bind_eq_ok.mp h
    obtain ⟨known, hknown, h⟩ := except_bind_eq_ok.mp h
    split at h
    · next hcheck => exact ⟨version, known, hversion, hknown, hcheck⟩
    · cases h
  · intro h
    obtain ⟨version, known, hversion, hknown, hcheck⟩ := h
    refine except_bind_eq_ok.mpr ⟨version, hversion, except_bind_eq_ok.mpr ⟨known, hknown, ?_⟩⟩
    rw [hcheck]
    rfl

theorem persistOutlier_ok_iff {j' : PduJson} :
    (∃ db', persistOutlier env fed createEvent r j db = (.ok j', db')) ↔
      db.checkAuthEvents env fed createEvent r j.pdu = .ok () ∧ j = j' := by
  unfold persistOutlier
  constructor
  · intro h
    obtain ⟨db', h⟩ := h
    obtain ⟨u, hcheck, h⟩ := Comp.reads_eq_ok h
    exact ⟨hcheck, Except.ok.inj (Prod.mk.inj h).1⟩
  · intro h
    obtain ⟨hcheck, rfl⟩ := h
    rw [Comp.reads_bind, hcheck]
    exact ⟨_, rfl⟩

/-- a call accepts what arrives and is let through -/
theorem handle_ok_iff :
    (∃ db', handle env fed fuel origin createEvent r e value b db = (.ok j, db')) ↔
      ∃ db₁, Arrives env fed fuel origin createEvent r e value b db j db₁ ∧
        db₁.checkAuthEvents env fed createEvent r j.pdu = .ok () := by
  cases b with
  | true =>
    constructor
    · intro h
      obtain ⟨db', h⟩ := h
      obtain ⟨j', db₁, hv, h⟩ := Comp.bind_eq_ok.mp h
      obtain ⟨hcheck, rfl⟩ := persistOutlier_ok_iff.mp ⟨db', h⟩
      exact ⟨db₁, .known hv, hcheck⟩
    · intro h
      obtain ⟨db₁, harrives, hcheck⟩ := h
      cases harrives with
      | known hv =>
        obtain ⟨db', h⟩ := persistOutlier_ok_iff.mpr ⟨hcheck, rfl⟩
        exact ⟨db', Comp.bind_eq_ok.mpr ⟨j, db₁, hv, h⟩⟩
  | false =>
    constructor
    · intro h
      obtain ⟨db', h⟩ := h
      obtain ⟨j', db₁, hv, h⟩ := Comp.bind_eq_ok.mp h
      obtain ⟨version, hversion, h⟩ := ofExcept_ok h
      obtain ⟨pdus, db₂, hf, h⟩ := Comp.bind_eq_ok.mp h
      obtain ⟨hcheck, rfl⟩ := persistOutlier_ok_iff.mp ⟨db', h⟩
      exact ⟨db₂, .fetched hv hversion hf, hcheck⟩
    · intro h
      obtain ⟨db₂, harrives, hcheck⟩ := h
      cases harrives with
      | @fetched _ db₁ _ _ version pdus hv hversion hf =>
        obtain ⟨db', h⟩ := persistOutlier_ok_iff.mpr ⟨hcheck, rfl⟩
        refine ⟨db', Comp.bind_eq_ok.mpr ⟨j, db₁, hv, ?_⟩⟩
        have hok : (Comp.ofExcept (createVersion env fed createEvent) : RoomComp RoomVersionId) db₁
            = (.ok version, db₁) := by rw [Comp.ofExcept_run, hversion]
        rw [Comp.bind_ok hok]
        exact Comp.bind_eq_ok.mpr ⟨pdus, db₂, hf, h⟩

/-- the entry of the create event -/
def createEntry (known : AuthEvents) : Option PduEvent := known.lookup (.roomCreate, "")

/-- every event but a create event that the call accepts has the given create event among its auth events -/
def DescendsFromCreate (env : Env) (fed : Fed) (fuel : Nat) (origin : ServerName) (createEvent : PduEvent)
    (r : RoomId) (e : EventId) (value : JsonObject) (b : Bool) (db : Db) : Prop :=
  ∀ j db', handle env fed fuel origin createEvent r e value b db = (.ok j, db') →
    j.pdu.kind ≠ .roomCreate → ∃ db₁ known, Arrives env fed fuel origin createEvent r e value b db j db₁ ∧
      db₁.authEventsMap r j.pdu.authEvents [] = .ok known ∧ createEntry known = some createEvent

/-- nothing but the auth check refuses an event without the room's create event -/
theorem handle_descends_iff (env : Env) (fed : Fed) (fuel : Nat) (origin : ServerName)
    (createEvent : PduEvent) (r : RoomId) (e : EventId) (value : JsonObject) (b : Bool) (db : Db) :
    DescendsFromCreate env fed fuel origin createEvent r e value b db ↔
      ∀ j db₁ version known, Arrives env fed fuel origin createEvent r e value b db j db₁ →
        j.pdu.kind ≠ .roomCreate → createVersion env fed createEvent = .ok version →
        db₁.authEventsMap r j.pdu.authEvents [] = .ok known → createEntry known ≠ some createEvent →
        fed.authCheck version j.pdu (fun kind stateKey => known.lookup (kind, stateKey)) ≠ some true := by
  constructor
  · intro h j db₁ version known harrives hkind hversion hknown hentry hcheck
    obtain ⟨db', hrun⟩ := handle_ok_iff.mpr
      ⟨db₁, harrives, checkAuthEvents_ok_iff.mpr ⟨version, known, hversion, hknown, hcheck⟩⟩
    obtain ⟨db₂, known', harrives', hknown', hentry'⟩ := h j db' hrun hkind
    obtain ⟨-, rfl⟩ := harrives.unique harrives'
    obtain rfl := Except.ok.inj (hknown.symm.trans hknown')
    exact hentry hentry'
  · intro h j db' hrun hkind
    obtain ⟨db₁, harrives, hcheck⟩ := handle_ok_iff.mp ⟨db', hrun⟩
    obtain ⟨version, known, hversion, hknown, hcheck⟩ := checkAuthEvents_ok_iff.mp hcheck
    refine ⟨db₁, known, harrives, hknown, ?_⟩
    by_contra hentry
    exact h j db₁ version known harrives hkind hversion hknown hentry hcheck

/-! ### another create event -/

namespace Foreign
open Sends

variable {x : Except Error PduJson × Db}

/-- an auth check that asks for a create event -/
def world : Fed := { Keyless.world with
  authCheck := fun _ _ lookup => some (lookup .roomCreate "").isSome }

/-- another create event with the id of the room -/
def other : PduJson := event "$other" .roomCreate [] (some "") []

def store : Db := { Db.empty with timeline := TimelineTables.empty.addPduOutlier other.pdu.eventId other }

/-- a message with this create event among its auth events -/
def incoming : JsonObject := [("origin_server_ts", .num 1), ("auth_events", .arr [.str "$other"])]

abbrev verified : Except Error PduJson × Db :=
  verifyPdu .plain world create.pdu ⟨.ascii "$e"⟩ room incoming store

theorem handle_accepts : (handle .plain world 100 ⟨.ascii "y"⟩ create.pdu room ⟨.ascii "$e"⟩ incoming true
    store).1.toOption.map (fun j => decide (j.pdu.kind = .roomCreate)) = some false := by decide +kernel

/-- the create event among the auth events of the event that arrives -/
def arrived (x : Except Error PduJson × Db) : Option EventId :=
  x.1.toOption.bind fun j => (x.2.authEventsMap room j.pdu.authEvents []).toOption.bind fun known =>
    (createEntry known).map PduEvent.eventId

theorem arrived_verified : arrived verified = some ⟨.ascii "$other"⟩ := by decide +kernel

theorem arrived_eq {known : AuthEvents} (hx : x = (.ok j, db))
    (hknown : db.authEventsMap room j.pdu.authEvents [] = .ok known) :
    arrived x = (createEntry known).map PduEvent.eventId := by
  rw [hx]
  show (db.authEventsMap room j.pdu.authEvents []).toOption.bind _ = _
  rw [hknown]
  rfl

theorem exists_accepted (h : x.1.toOption.map (fun j => decide (j.pdu.kind = .roomCreate)) = some false) :
    ∃ j db', x = (.ok j, db') ∧ j.pdu.kind ≠ .roomCreate := by
  obtain ⟨out, db'⟩ := x
  obtain ⟨j, hj, hkind⟩ := Option.map_eq_some_iff.mp h
  obtain rfl : out = .ok j := toOption_eq_some.mp hj
  exact ⟨j, db', rfl, of_decide_eq_false hkind⟩

end Foreign

/-- a message whose auth events hold another create event is accepted -/
theorem handle_foreign : ¬ ∀ (env : Env) (fed : Fed) (fuel : Nat) (origin : ServerName)
    (createEvent : PduEvent) (r : RoomId) (e : EventId) (value : JsonObject) (b : Bool) (db : Db),
    DescendsFromCreate env fed fuel origin createEvent r e value b db := by
  intro hall
  obtain ⟨j, db', hrun, hkind⟩ := Foreign.exists_accepted Foreign.handle_accepts
  obtain ⟨db₁, known, harrives, hknown, hentry⟩ :=
    hall .plain Foreign.world 100 ⟨.ascii "y"⟩ Sends.create.pdu Sends.room ⟨.ascii "$e"⟩ Foreign.incoming
      true Foreign.store j db' hrun hkind
  cases harrives with
  | known hv =>
    have hother := (Foreign.arrived_eq hv hknown).symm.trans Foreign.arrived_verified
    rw [hentry] at hother
    exact absurd hother (by decide)

end Db
end Grapevine
