import Grapevine.Events.AuthChain

/-!
# Outliers

The event handler takes an event over federation, checks it, and persists it as an outlier
(`handleOutlierPdu`).  The auth events that are missing are fetched from the origin, with theirs,
by a loop over a stack, and go through the same checks (`fetchAndHandleOutliers`).

`World` is any behaviour of the outside: the clock, the signatures and the answers of the other
servers, the `n`-th of which is a function of `n`.  `Fed` adds what the handler takes from ruma.

`OutlierOf` is what a received object is persisted as.  The lemmas `_quiet` say that the handler
moves nothing but short ids, caches, rate limits and the outliers it persists.
-/

set_option linter.unusedSectionVars false

namespace Grapevine
open Kv

/-! ## what comes from elsewhere -/

/-- a `RawJsonValue`, by the canonical object it parses to -/
abbrev RawPdu := Option JsonObject

/-- a `StateMap`: one event per type and state key -/
structure StateMap where
  rows : List ((EventType × String) × EventId)
  nodup : (rows.map Prod.fst).Nodup

/-- `Verified`: do the signatures hold, or the content hash too? -/
inductive Verified where
  | signatures
  | all
deriving DecidableEq

/-- the clock, the signatures, and the answers of the other servers -/
structure World where
  /-- the clock, in seconds -/
  now : Nat → Nat
  fetchRequiredSigningKeys : Nat → JsonObject → Except Error Unit
  /-- `verify_event` with the keys that are known by then -/
  verifyEvent : Nat → JsonObject → RoomVersionId → Option Verified
  getEvent : Nat → ServerName → EventId → Option RawPdu
  getRoomStateIds : Nat → ServerName → RoomId → EventId → Except Error (List EventId)

/-- a world, and the functions of ruma -/
structure Fed extends World where
  /-- the event id with the reference hash of an object -/
  referenceHash : JsonObject → RoomVersionId → Option EventId
  /-- `canonical_json::redact` -/
  redactObject : JsonObject → RoomVersionId → Option JsonObject
  eventIdStr : EventId → String
  eventIdOfJson : Json → Option EventId
  roomIdOfStr : String → Option RoomId
  /-- `serde_json::from_value::<PduEvent>` -/
  pduOfJson : JsonObject → Option PduEvent
  pduOfJson_eventId : ∀ o e pdu,
    pduOfJson (JsonObject.insert o "event_id" (.str (eventIdStr e))) = some pdu → pdu.eventId = e
  /-- `RoomVersion::new` knows the version -/
  supported : RoomVersionId → Bool
  authCheck : RoomVersionId → PduEvent → (EventType → String → Option PduEvent) → Option Bool
  authTypesForEvent : EventType → UserId → Option String → JsonObject →
    Option (List (EventType × String))
  /-- `state_res::resolve`: the fork states, their auth chains, and a way to fetch events -/
  resolve : RoomVersionId → List StateMap → List (Finset EventId) → (EventId → Option PduEvent) →
    Option StateMap
  /-- `lexicographical_topological_sort` of a graph, with the times of the events -/
  sortEvents : List (EventId × List EventId) → (EventId → Nat) → Option (List EventId)
  /-- `RoomServerAclEventContent`, by its `allow.is_empty()` and `is_allowed` -/
  serverAcl : JsonObject → Option (Bool × (ServerName → Bool))
  maxFetchPrevEvents : Nat
  /-- the order in which a hash map with these keys is iterated -/
  shuffle : List Nat → List Nat
  shuffle_perm : ∀ l, (shuffle l).Perm l
  /-- the order in which a hash set is iterated -/
  listing : Finset EventId → List EventId
  listing_toFinset : ∀ s, (listing s).toFinset = s

/-! ### a concrete outside

Concrete runs take place in a world whose servers are silent.  Events of members are authorized,
and so is every membership change. -/

namespace Plain

def isJoin : Option PduEvent → Bool
  | some pdu => extractMembership pdu.content = some .join
  | none => false

def authCheck (pdu : PduEvent) (lookup : EventType → String → Option PduEvent) : Option Bool :=
  some (pdu.kind = .roomMember || isJoin (lookup .roomMember (text pdu.sender.toText)))

def eventIdOfJson : Json → Option EventId
  | .str s => some ⟨.ascii s⟩
  | _ => none

end Plain

/-- a resolution keeps the first of the states -/
def Fed.plain : Fed where
  now n := n
  fetchRequiredSigningKeys _ _ := .ok ()
  verifyEvent _ _ _ := some .all
  getEvent _ _ _ := none
  getRoomStateIds _ _ _ _ := .error (.badServerResponse "Server did not answer")
  referenceHash _ _ := none
  redactObject _ _ := none
  eventIdStr e := Plain.text e.toText
  eventIdOfJson := Plain.eventIdOfJson
  roomIdOfStr s := some ⟨.ascii s⟩
  pduOfJson _ := none
  pduOfJson_eventId _ _ _ h := by cases h
  supported _ := true
  authCheck _ := Plain.authCheck
  authTypesForEvent _ sender _ _ := some [(.roomMember, Plain.text sender.toText)]
  resolve _ forks _ _ := forks.head?
  sortEvents graph _ := some (graph.map Prod.fst)
  serverAcl _ := none
  maxFetchPrevEvents := 100
  shuffle l := l
  shuffle_perm l := List.Perm.refl l
  listing := ascending
  listing_toFinset s := by
    apply Finset.ext
    intro x
    rw [List.mem_toFinset, mem_ascending]

namespace Fed

variable (fed : Fed)

/-- the entries of a hash map in the order of its iteration -/
def entries {α : Type} (t : Tree Nat α) : List (Nat × α) :=
  (fed.shuffle (t.rows.map Prod.fst)).filterMap (fun k => (t.get k).map (fun a => (k, a)))

/-- `gen_event_id_canonical_json` -/
def genEventIdCanonicalJson (raw : RawPdu) (version : RoomVersionId) :
    Except Error (EventId × JsonObject) :=
  match raw with
  | none => .error (.badServerResponse "Invalid PDU in server response")
  | some value =>
    match fed.referenceHash value version with
    | some e => .ok (e, value)
    | none => .error (.panic "ruma can calculate reference hashes")

end Fed

namespace Db

variable (env : Env) (fed : Fed)
variable {value : JsonObject} {createEvent : PduEvent} {e : EventId} {version : RoomVersionId}
  {r : RoomId} {origin : ServerName} {j : PduJson} {db db' : Db}

/-! ## clocks and failures -/

/-- the number of the next answer -/
def tick : RoomComp Nat := fun db => (.ok db.ticks, { db with ticks := db.ticks + 1 })

/-- an error that is caught; a panic is not an error that can be caught -/
def attempt {α : Type} (x : RoomComp α) : RoomComp (Option α) := fun db =>
  match x db with
  | (.ok a, db) => (.ok (some a), db)
  | (.error e, db) => if e.isPanic then (.error e, db) else (.ok none, db)

/-- the exponential backoff of an event that failed, at the time `now` -/
def backsOff (db : Db) (now : Nat) (e : EventId) : Bool :=
  match db.badEventRatelimiter e with
  | some (time, tries) => now - time < min (5 * 60 * tries * tries) (60 * 60 * 24)
  | none => false

def backOff (e : EventId) : RoomComp Unit := do
  let n ← tick
  Comp.modify (fun db => { db with
    badEventRatelimiter := Function.update db.badEventRatelimiter e
      (some (fed.now n, ((db.badEventRatelimiter e).map Prod.snd).getD 0 + 1)) })

/-! ## checking one event -/

def checkRoomId (r : RoomId) (pdu : PduEvent) : Except Error Unit :=
  if pdu.roomId = r then .ok () else .error (.badRequest .invalidParam "Event has wrong room id")

/-- the version that a create event names -/
def createVersion (createEvent : PduEvent) : Except Error RoomVersionId :=
  match env.createContent createEvent.content with
  | none => .error (.badDatabase "Invalid create event in db")
  | some content =>
    if fed.supported content.roomVersion then .ok content.roomVersion
    else .error (.panic "room version is supported")

def checkOriginServerTs (value : JsonObject) : Except Error Unit :=
  match value.get "origin_server_ts" with
  | none => .error (.badRequest .missingParam "Invalid PDU, no origin_server_ts field")
  | some (.num ts) =>
    if 0 ≤ ts then .ok ()
    else .error (.badRequest .invalidParam "Time must be after the unix epoch")
  | some _ => .error (.badRequest .invalidParam "origin_server_ts must be an integer")

/-- what is left of an object whose content hash does not match -/
def redactUnknown (db : Db) (e : EventId) (value : JsonObject) (version : RoomVersionId) :
    Except Error JsonObject :=
  match fed.redactObject value version with
  | none => .error (.badRequest .invalidParam "Redaction failed")
  | some obj => do
    match ← db.timeline.getPduJson e with
    | some _ => .error (.badRequest .invalidParam "Event was redacted and we already knew about it")
    | none => pure obj

/-- the object whose signatures and hashes were checked -/
def verifiedValue (e : EventId) (value : JsonObject) (version : RoomVersionId) :
    RoomComp JsonObject := do
  let n ← tick
  Comp.ofExcept (fed.fetchRequiredSigningKeys n value)
  Comp.ofExcept (checkOriginServerTs value)
  match fed.verifyEvent n value version with
  | none => Comp.throw (.badRequest .invalidParam "Signature verification failed")
  | some .signatures => Comp.reads (fun db => db.redactUnknown fed e value version)
  | some .all => pure value

/-- the event of a checked object, under the event id of the call -/
def incomingPdu (e : EventId) (r : RoomId) (value : JsonObject) : Except Error PduJson :=
  let val := value.insert "event_id" (.str (fed.eventIdStr e))
  match fed.pduOfJson val with
  | none => .error (.badDatabase "Event is not a valid PDU.")
  | some pdu => do
    checkRoomId r pdu
    pure ⟨val, pdu⟩

/-- `handle_outlier_pdu` up to the auth events -/
def verifyPdu (createEvent : PduEvent) (e : EventId) (r : RoomId) (value : JsonObject) :
    RoomComp PduJson := do
  let version ← Comp.ofExcept (createVersion env fed createEvent)
  let value ← verifiedValue fed e (value.remove "unsigned") version
  Comp.ofExcept (incomingPdu fed e r value)

abbrev AuthEvents := List ((EventType × String) × PduEvent)

/-- the map of the auth events that are known, on top of those before -/
def authEventsMap (db : Db) (r : RoomId) : List EventId → AuthEvents → Except Error AuthEvents
  | [], found => .ok found
  | e :: es, found => do
    match ← db.getPdu e with
    | none => authEventsMap db r es found
    | some authEvent => do
      checkRoomId r authEvent
      match authEvent.stateKey with
      | none => .error (.panic "all auth events have state keys")
      | some stateKey =>
        if found.any (fun a => a.1 = (authEvent.kind, stateKey)) then
          .error (.badRequest .invalidParam
            "Auth event's type and state_key combination exists multiple times.")
        else authEventsMap db r es (((authEvent.kind, stateKey), authEvent) :: found)

/-- the check against the auth events.  The code also looks up the create event among them, but
takes it and its absence alike -/
def checkAuthEvents (db : Db) (createEvent : PduEvent) (r : RoomId) (pdu : PduEvent) :
    Except Error Unit := do
  let version ← createVersion env fed createEvent
  let authEvents ← db.authEventsMap r pdu.authEvents []
  match fed.authCheck version pdu (fun kind stateKey => authEvents.lookup (kind, stateKey)) with
  | some true => pure ()
  | _ => .error (.badRequest .invalidParam "Auth check failed")

/-- `handle_outlier_pdu` from the auth events on -/
def persistOutlier (createEvent : PduEvent) (r : RoomId) (j : PduJson) : RoomComp PduJson := do
  Comp.reads (fun db => db.checkAuthEvents env fed createEvent r j.pdu)
  onTimeline (fun t => t.addPduOutlier j.pdu.eventId j)
  pure j

/-- `handle_outlier_pdu` with `auth_events_known` -/
def handleKnownOutlier (createEvent : PduEvent) (e : EventId) (r : RoomId) (value : JsonObject) :
    RoomComp PduJson := do
  let j ← verifyPdu env fed createEvent e r value
  persistOutlier env fed createEvent r j

/-! ## fetching -/

/-- the auth events that an object names; what is no event id is skipped -/
def authEventIds (value : JsonObject) : List EventId :=
  match value.get "auth_events" with
  | some (.arr ids) => ids.filterMap fed.eventIdOfJson
  | _ => []

/-- the answer of the origin to the request for an event, if it makes an object -/
def fetchEvent (origin : ServerName) (version : RoomVersionId) (n : Nat) (e : EventId) :
    RoomComp (Option JsonObject) :=
  match fed.getEvent n origin e with
  | none => do
    backOff fed e
    pure none
  | some raw =>
    match fed.genEventIdCanonicalJson raw version with
    -- another event id than the requested one is only logged
    | .ok (_, value) => pure (some value)
    | .error err =>
      if err.isPanic then Comp.throw err
      else do
        backOff fed e
        pure none

/-- `if let Ok(Some(_)) = get_pdu(e)` -/
def knows (db : Db) (e : EventId) : Bool :=
  match db.getPdu e with
  | .ok (some _) => true
  | _ => false

/-- the events that the loop does not ask for -/
def skips (db : Db) (now : Nat) (fetched : List (EventId × JsonObject)) (e : EventId) : Bool :=
  db.backsOff now e || fetched.any (fun f => f.1 = e) || db.knows e

/-- the loop over `todo_auth_events`, to the given number of rounds: the top of the stack is the
head of `todo`, and the last event that was fetched is the head of `fetched` -/
def fetchAuthChain (origin : ServerName) (version : RoomVersionId) :
    Nat → List EventId → List (EventId × JsonObject) → RoomComp (List (EventId × JsonObject))
  | _, [], fetched => pure fetched
  | 0, _ :: _, _ => Comp.throw (.panic "the loop does not end")
  | fuel + 1, e :: todo, fetched => do
    let n ← tick
    if (← Comp.get).skips (fed.now n) fetched e then
      fetchAuthChain origin version fuel todo fetched
    else
      match ← fetchEvent fed origin version n e with
      | some value =>
        fetchAuthChain origin version fuel ((authEventIds fed value).reverse ++ todo)
          ((e, value) :: fetched)
      | none => fetchAuthChain origin version fuel todo fetched

/-- one of the fetched events: what it is persisted as -/
def handleFetched (createEvent : PduEvent) (r : RoomId) (e : EventId) (value : JsonObject) :
    RoomComp (Option PduJson) := do
  let n ← tick
  if (← Comp.get).backsOff (fed.now n) e then pure none
  else
    match ← attempt (handleKnownOutlier env fed createEvent e r value) with
    | some j => pure (some j)
    | none => do
      backOff fed e
      pure none

/-- the loop over `events_in_reverse_order`: what the wanted event is persisted as -/
def handleAllFetched (createEvent : PduEvent) (r : RoomId) (wanted : EventId) :
    List (EventId × JsonObject) → RoomComp (List (PduEvent × Option JsonObject))
  | [] => pure []
  | (e, value) :: fetched => do
    let j ← handleFetched env fed createEvent r e value
    let rest ← handleAllFetched createEvent r wanted fetched
    pure (match j with
      | some j => if e = wanted then (j.pdu, some j.json) :: rest else rest
      | none => rest)

/-- one round of `fetch_and_handle_outliers` -/
def fetchOutlier (fuel : Nat) (origin : ServerName) (createEvent : PduEvent) (r : RoomId)
    (version : RoomVersionId) (e : EventId) : RoomComp (List (PduEvent × Option JsonObject)) := do
  match (← Comp.get).getPdu e with
  | .ok (some localPdu) => pure [(localPdu, none)]
  | _ =>
    let fetched ← fetchAuthChain fed origin version fuel [e] []
    handleAllFetched env fed createEvent r e fetched

def fetchAndHandleOutliers (fuel : Nat) (origin : ServerName) (createEvent : PduEvent) (r : RoomId)
    (version : RoomVersionId) : List EventId → RoomComp (List (PduEvent × Option JsonObject))
  | [] => pure []
  | e :: es => do
    let pdus ← fetchOutlier env fed fuel origin createEvent r version e
    let rest ← fetchAndHandleOutliers fuel origin createEvent r version es
    pure (pdus ++ rest)

/-- `handle_outlier_pdu` of an event whose auth events may be missing -/
def handleOutlierPdu (fuel : Nat) (origin : ServerName) (createEvent : PduEvent) (e : EventId)
    (r : RoomId) (value : JsonObject) : RoomComp PduJson := do
  let j ← verifyPdu env fed createEvent e r value
  let version ← Comp.ofExcept (createVersion env fed createEvent)
  let _ ← fetchAndHandleOutliers env fed fuel origin createEvent r version j.pdu.authEvents
  persistOutlier env fed createEvent r j

/-! ## what is persisted -/

/-- what the received object is persisted as: without its unsigned part, perhaps redacted, and with
the event id of the call -/
structure OutlierOf (version : RoomVersionId) (e : EventId) (received : JsonObject) (j : PduJson) :
    Prop where
  form : ∃ value, (value = received.remove "unsigned" ∨
      fed.redactObject (received.remove "unsigned") version = some value) ∧
    j.json = value.insert "event_id" (.str (fed.eventIdStr e))
  pdu : fed.pduOfJson j.json = some j.pdu

theorem redactUnknown_ok {obj : JsonObject} (h : db.redactUnknown fed e value version = .ok obj) :
    fed.redactObject value version = some obj := by
  unfold redactUnknown at h
  cases hr : fed.redactObject value version with
  | none =>
    rw [hr] at h
    cases h
  | some obj' =>
    rw [hr] at h
    cases hg : db.timeline.getPduJson e with
    | error err =>
      simp only [hg] at h
      cases h
    | ok o =>
      cases o with
      | some j =>
        simp only [hg] at h
        cases h
      | none =>
        simp only [hg] at h
        cases h
        rfl

/-- an object is taken as it is only if its hash matches -/
theorem verifiedValue_cases {out : JsonObject} (h : verifiedValue fed e value version db = (.ok out, db')) :
    (out = value ∧ ∃ n, fed.verifyEvent n value version = some .all) ∨
      fed.redactObject value version = some out := by
  obtain ⟨n, db₁, _, h⟩ := Comp.bind_eq_ok.mp h
  obtain ⟨_, db₂, _, h⟩ := Comp.bind_eq_ok.mp h
  obtain ⟨_, db₃, _, h⟩ := Comp.bind_eq_ok.mp h
  cases hv : fed.verifyEvent n value version with
  | none =>
    rw [hv] at h
    cases h
  | some v =>
    rw [hv] at h
    cases v with
    | all =>
      cases h
      exact Or.inl ⟨rfl, n, hv⟩
    | signatures => exact Or.inr (redactUnknown_ok fed (Prod.mk.inj h).1)

theorem verifiedValue_ok {out : JsonObject} (h : verifiedValue fed e value version db = (.ok out, db')) :
    out = value ∨ fed.redactObject value version = some out :=
  (verifiedValue_cases fed h).imp_left And.left

theorem incomingPdu_ok (h : incomingPdu fed e r value = .ok j) :
    j.json = value.insert "event_id" (.str (fed.eventIdStr e)) ∧
      fed.pduOfJson j.json = some j.pdu ∧ j.pdu.roomId = r := by
  unfold incomingPdu at h
  cases hp : fed.pduOfJson (value.insert "event_id" (.str (fed.eventIdStr e))) with
  | none =>
    simp only [hp] at h
    cases h
  | some pdu =>
    simp only [hp, checkRoomId] at h
    by_cases hr : pdu.roomId = r
    · rw [if_pos hr] at h
      cases h
      exact ⟨rfl, hp, hr⟩
    · rw [if_neg hr] at h
      cases h

/-- the event that the checks let through -/
theorem verifyPdu_ok (h : verifyPdu env fed createEvent e r value db = (.ok j, db')) :
    ∃ version, createVersion env fed createEvent = .ok version ∧ OutlierOf fed version e value j ∧
      j.pdu.eventId = e ∧ j.pdu.roomId = r := by
  obtain ⟨version, hv, h⟩ := ofExcept_ok h
  obtain ⟨val, db₁, h1, h⟩ := Comp.bind_eq_ok.mp h
  obtain ⟨hjson, hpdu, hroom⟩ := incomingPdu_ok fed (Prod.mk.inj h).1
  refine ⟨version, hv, ⟨⟨val, verifiedValue_ok fed h1, hjson⟩, hpdu⟩, ?_, hroom⟩
  rw [hjson] at hpdu
  exact fed.pduOfJson_eventId _ e _ hpdu

/-- a server's answer to the request for the event `e` -/
def Answered (origin : ServerName) (version : RoomVersionId) (e : EventId) (value : JsonObject) :
    Prop :=
  ∃ n id, fed.getEvent n origin e = some (some value) ∧ fed.referenceHash value version = some id

theorem fetchEvent_ok {n : Nat} (h : fetchEvent fed origin version n e db = (.ok (some value), db')) :
    Answered fed origin version e value := by
  unfold fetchEvent at h
  cases hg : fed.getEvent n origin e with
  | none =>
    simp only [hg] at h
    obtain ⟨_, db₁, _, h⟩ := Comp.bind_eq_ok.mp h
    cases h
  | some raw =>
    simp only [hg] at h
    unfold Fed.genEventIdCanonicalJson at h
    cases raw with
    | none =>
      obtain ⟨_, db₁, _, h⟩ := Comp.bind_eq_ok.mp h
      cases h
    | some v =>
      cases hh : fed.referenceHash v version with
      | none =>
        simp only [hh] at h
        cases h
      | some id =>
        simp only [hh] at h
        cases h
        exact ⟨n, id, hg, hh⟩

/-- everything that the loop fetched is an answer -/
theorem fetchAuthChain_ok (fuel : Nat) (todo : List EventId) (fetched out : List (EventId × JsonObject))
    (db db' : Db) (hf : ∀ f ∈ fetched, Answered fed origin version f.1 f.2)
    (h : fetchAuthChain fed origin version fuel todo fetched db = (.ok out, db')) :
    ∀ f ∈ out, Answered fed origin version f.1 f.2 := by
  induction fuel generalizing todo fetched db with
  | zero =>
    cases todo with
    | nil =>
      cases h
      exact hf
    | cons e todo => cases h
  | succ fuel ih =>
    cases todo with
    | nil =>
      cases h
      exact hf
    | cons e todo =>
      unfold fetchAuthChain at h
      obtain ⟨n, db₁, _, h⟩ := Comp.bind_eq_ok.mp h
      rw [Comp.bind_ok (Comp.get_run db₁)] at h
      by_cases hs : db₁.skips (fed.now n) fetched e = true
      · rw [if_pos hs] at h
        exact ih _ _ _ hf h
      · rw [if_neg hs] at h
        obtain ⟨o, db₂, h2, h⟩ := Comp.bind_eq_ok.mp h
        cases o with
        | none => exact ih _ _ _ hf h
        | some value =>
          refine ih _ _ _ (fun f hmem => ?_) h
          rcases List.mem_cons.mp hmem with rfl | hmem
          · exact fetchEvent_ok fed h2
          · exact hf f hmem

/-! ## what the handler moves -/

section
variable {R : Db → Db → Prop} (h : Fetching R)
include h

theorem tick_quiet : Comp.Keeps R tick := fun db => h.ticks db _

theorem attempt_keeps {α : Type} {x : RoomComp α} (hx : Comp.Keeps R x) :
    Comp.Keeps R (attempt x) := by
  intro db
  have hdb := hx db
  unfold attempt
  split
  · next heq =>
    rw [heq] at hdb
    exact hdb
  · next heq =>
    rw [heq] at hdb
    split
    · exact hdb
    · exact hdb

theorem backOff_quiet (e : EventId) : Comp.Keeps R (backOff fed e) :=
  h.bind (tick_quiet h) fun _ => Comp.Keeps.modify fun db => h.ratelimiter db _

theorem verifyPdu_quiet (createEvent : PduEvent) (e : EventId) (r : RoomId) (value : JsonObject) :
    Comp.Keeps R (verifyPdu env fed createEvent e r value) := by
  refine h.bind (h.read fun _ => rfl) fun version => h.bind ?_ fun _ => h.read fun _ => rfl
  refine h.bind (tick_quiet h) fun n => h.bind (h.read fun _ => rfl) fun _ =>
    h.bind (h.read fun _ => rfl) fun _ => ?_
  cases fed.verifyEvent n (value.remove "unsigned") version with
  | none => exact h.read fun _ => rfl
  | some v =>
    cases v with
    | all => exact h.pure _
    | signatures => exact h.read fun _ => rfl

/-- the relation takes what the received object may be persisted as -/
def Adds (env : Env) (fed : Fed) (R : Db → Db → Prop) (createEvent : PduEvent) (r : RoomId)
    (e : EventId) (value : JsonObject) : Prop :=
  ∀ (db : Db) j version, createVersion env fed createEvent = .ok version →
    OutlierOf fed version e value j → j.pdu.roomId = r →
    R db { db with timeline := db.timeline.addPduOutlier e j }

/-- the checks let the event through, as `j` -/
def Passes (env : Env) (fed : Fed) (createEvent : PduEvent) (r : RoomId) (e : EventId)
    (value : JsonObject) (j : PduJson) : Prop :=
  ∃ db db', verifyPdu env fed createEvent e r value db = (.ok j, db')

/-- the relation takes what the checks let through -/
def Admits (env : Env) (fed : Fed) (R : Db → Db → Prop) (createEvent : PduEvent) (r : RoomId)
    (e : EventId) (value : JsonObject) : Prop :=
  ∀ (db : Db) j, Passes env fed createEvent r e value j →
    R db { db with timeline := db.timeline.addPduOutlier e j }

omit h in
theorem Adds.admits (hadd : Adds env fed R createEvent r e value) : Admits env fed R createEvent r e value := by
  rintro db j ⟨db₁, db₂, hj⟩
  obtain ⟨version, hv, hform, _, hr⟩ := verifyPdu_ok env fed hj
  exact hadd db j version hv hform hr

theorem persistOutlier_keeps (hadd : Admits env fed R createEvent r e value)
    (hj : Passes env fed createEvent r e value j) :
    Comp.Keeps R (persistOutlier env fed createEvent r j) := by
  refine h.bind (h.read fun _ => rfl) fun _ => h.bind (Comp.Keeps.modify fun db => ?_) fun _ => h.pure _
  obtain ⟨_, _, hrun⟩ := hj
  obtain ⟨_, _, _, he, _⟩ := verifyPdu_ok env fed hrun
  rw [he]
  exact hadd db j ⟨_, _, hrun⟩

theorem handleKnownOutlier_keeps (hadd : Admits env fed R createEvent r e value) :
    Comp.Keeps R (handleKnownOutlier env fed createEvent e r value) := by
  intro db
  refine Comp.keeps_bind_at h.trans (verifyPdu_quiet env fed h createEvent e r value db)
    fun j db₁ h1 => ?_
  exact persistOutlier_keeps env fed h hadd ⟨db, db₁, h1⟩ db₁

theorem fetchEvent_quiet (origin : ServerName) (version : RoomVersionId) (n : Nat) (e : EventId) :
    Comp.Keeps R (fetchEvent fed origin version n e) := by
  have hoff : Comp.Keeps R (do
      backOff fed e
      pure none : RoomComp (Option JsonObject)) := h.bind (backOff_quiet fed h e) fun _ => h.pure _
  unfold fetchEvent
  cases fed.getEvent n origin e with
  | none => exact hoff
  | some raw =>
    show Comp.Keeps R (match fed.genEventIdCanonicalJson raw version with
      | .ok (_, value) => _
      | .error err => _)
    cases fed.genEventIdCanonicalJson raw version with
    | ok p => exact h.pure _
    | error err =>
      show Comp.Keeps R (if err.isPanic then _ else _)
      split
      · exact h.read fun _ => rfl
      · exact hoff

theorem fetchAuthChain_quiet (origin : ServerName) (version : RoomVersionId) (fuel : Nat)
    (todo : List EventId) (fetched : List (EventId × JsonObject)) :
    Comp.Keeps R (fetchAuthChain fed origin version fuel todo fetched) := by
  induction fuel generalizing todo fetched with
  | zero =>
    cases todo with
    | nil => exact h.pure _
    | cons e todo => exact h.read fun _ => rfl
  | succ fuel ih =>
    cases todo with
    | nil => exact h.pure _
    | cons e todo =>
      refine h.bind (tick_quiet h) fun n => h.get fun db => ?_
      by_cases hs : db.skips (fed.now n) fetched e = true
      · rw [if_pos hs]
        exact ih _ _
      · rw [if_neg hs]
        refine h.bind (fetchEvent_quiet fed h origin version n e) fun o => ?_
        cases o with
        | some value => exact ih _ _
        | none => exact ih _ _

theorem handleAllFetched_keeps (wanted : EventId) {fetched : List (EventId × JsonObject)}
    (hadd : ∀ f ∈ fetched, Admits env fed R createEvent r f.1 f.2) :
    Comp.Keeps R (handleAllFetched env fed createEvent r wanted fetched) := by
  induction fetched with
  | nil => exact h.pure _
  | cons f fetched ih =>
    refine h.bind ?_ fun _ => h.bind (ih fun g hg => hadd g (List.mem_cons_of_mem _ hg)) fun _ => h.pure _
    refine h.bind (tick_quiet h) fun n => h.get fun db => ?_
    split
    · exact h.pure _
    · refine h.bind (attempt_keeps h (handleKnownOutlier_keeps env fed h
        (hadd f List.mem_cons_self))) fun o => ?_
      cases o with
      | some j => exact h.pure _
      | none => exact h.bind (backOff_quiet fed h f.1) fun _ => h.pure _

section
variable {origin : ServerName} {createEvent : PduEvent} {r : RoomId} {version : RoomVersionId}
  (hans : ∀ e value, Answered fed origin version e value → Admits env fed R createEvent r e value)
include hans

theorem fetchOutlier_keeps (fuel : Nat) (e : EventId) :
    Comp.Keeps R (fetchOutlier env fed fuel origin createEvent r version e) := by
  intro db
  unfold fetchOutlier
  rw [Comp.bind_ok (Comp.get_run db)]
  have hfetch : R db ((do
      let fetched ← fetchAuthChain fed origin version fuel [e] []
      handleAllFetched env fed createEvent r e fetched) db).2 := by
    refine Comp.keeps_bind_at h.trans (fetchAuthChain_quiet fed h origin version fuel [e] [] db)
      fun fetched db₁ h1 => ?_
    refine handleAllFetched_keeps env fed h e (fun f hf => hans f.1 f.2 ?_) db₁
    exact fetchAuthChain_ok fed fuel [e] [] fetched db db₁ (fun f hf => absurd hf List.not_mem_nil)
      h1 f hf
  cases db.getPdu e with
  | error err => exact hfetch
  | ok o =>
    cases o with
    | none => exact hfetch
    | some pdu => exact h.refl db

theorem fetchAndHandleOutliers_keeps (fuel : Nat) (es : List EventId) :
    Comp.Keeps R (fetchAndHandleOutliers env fed fuel origin createEvent r version es) := by
  induction es with
  | nil => exact h.pure _
  | cons e es ih =>
    exact h.bind (fetchOutlier_keeps env fed h hans fuel e) fun _ => h.bind ih fun _ => h.pure _

end

theorem handleOutlierPdu_keeps (hadd : Admits env fed R createEvent r e value)
    (hans : ∀ version, createVersion env fed createEvent = .ok version → ∀ e value,
      Answered fed origin version e value → Admits env fed R createEvent r e value) (fuel : Nat) :
    Comp.Keeps R (handleOutlierPdu env fed fuel origin createEvent e r value) := by
  intro db
  refine Comp.keeps_bind_at h.trans (verifyPdu_quiet env fed h createEvent e r value db)
    fun j db₁ h1 => ?_
  obtain ⟨version, hv, _⟩ := verifyPdu_ok env fed h1
  have hok : (Comp.ofExcept (createVersion env fed createEvent) : RoomComp RoomVersionId) db₁
      = (.ok version, db₁) := by rw [Comp.ofExcept_run, hv]
  rw [Comp.bind_ok hok]
  exact h.bind (fetchAndHandleOutliers_keeps env fed h (hans version hv) fuel _)
    (fun _ => persistOutlier_keeps env fed h hadd ⟨db, db₁, h1⟩) db₁

end

/-! ## which outliers there are -/

/-- the outliers are old, or of the kind `G` -/
def OutliersFrom (G : EventId → PduJson → Prop) (db db' : Db) : Prop :=
  ∀ e j, db'.timeline.eventidOutlierpdu e = some j →
    db.timeline.eventidOutlierpdu e = some j ∨ G e j

section
variable (G : EventId → PduJson → Prop)

theorem OutliersFrom.of_same (h : db'.timeline.eventidOutlierpdu = db.timeline.eventidOutlierpdu) :
    OutliersFrom G db db' :=
  fun _ _ hj => Or.inl (h ▸ hj)

theorem OutliersFrom.trans (a b c : Db) (h : OutliersFrom G a b) (h' : OutliersFrom G b c) :
    OutliersFrom G a c := by
  intro e j hj
  rcases h' e j hj with hj | hg
  · exact h e j hj
  · exact Or.inr hg

theorem outliersFrom_quiet : Quiet (OutliersFrom G) where
  refl _ := OutliersFrom.of_same G rfl
  trans := OutliersFrom.trans G
  state _ _ _ := OutliersFrom.of_same G rfl
  chains _ _ _ := OutliersFrom.of_same G rfl
  ratelimiter _ _ := OutliersFrom.of_same G rfl
  ticks _ _ := OutliersFrom.of_same G rfl

end

end Db
end Grapevine
