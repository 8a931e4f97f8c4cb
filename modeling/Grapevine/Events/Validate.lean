import Grapevine.Events.Join
import Grapevine.Lib.Update

/-!
# What is received and persisted

Two paths make outliers of the objects that other servers send.  `handleOutlierPdu` takes single
events; a join takes the state and the auth chain of the `send_join` response (`ingestSendJoin`).  Both
verify the signatures and the content hash of each object.  An object whose hash does not match is
redacted by the first path, and taken as it is by the second (`validateAndAddEventId`).

* `Intake`    the store, with the outliers that are no PDUs;
* `Genuine`   the hash of a persisted object matches, or the object is a redaction;
* `Step`      both paths, in any order, with anything that adds no outlier in between.

Main result: `outliers_genuine`.  As long as no join receives an object whose hash does not match and
which is not redacted, all outliers are genuine; otherwise a join persists a forgery
(`forgery_persisted`).
-/

namespace Grapevine
open Kv

namespace Db

variable (fed : Fed)

/-- the backoff of an event in a `send_join` response -/
def stillBackingOff (db : Db) (now : Nat) (e : EventId) : Bool :=
  match db.badEventRatelimiter e with
  | some (time, tries) => now - time < min (30 * tries * tries) (60 * 60 * 24)
  | none => false

/-- any verification that does not fail is enough -/
def validateAndAddEventId (version : RoomVersionId) (raw : RawPdu) : RoomComp (EventId × JsonObject) := do
  let (e, value) ← Comp.ofExcept (fed.genEventIdCanonicalJson raw version)
  let n ← tick
  if (← Comp.get).stillBackingOff (fed.now n) e then
    Comp.throw (.badServerResponse "bad event, still backing off")
  else
    Comp.ofExcept (checkOriginServerTs value)
    match fed.verifyEvent n value version with
    | none => do
      backOff fed e
      Comp.throw (.badServerResponse "Event failed verification.")
    | some _ => pure (e, value.insert "event_id" (.str (fed.eventIdStr e)))

/-- what is taken from a response is an object of it, which was verified at this time -/
theorem validateAndAddEventId_ok {version : RoomVersionId} {raw : RawPdu} {e : EventId}
    {out : JsonObject} {db db' : Db}
    (h : validateAndAddEventId fed version raw db = (.ok (e, out), db')) :
    ∃ value v, raw = some value ∧ fed.referenceHash value version = some e ∧
      fed.verifyEvent db.ticks value version = some v ∧
      out = value.insert "event_id" (.str (fed.eventIdStr e)) := by
  obtain ⟨⟨e', value⟩, hgen, h⟩ := ofExcept_ok h
  obtain ⟨n, db₁, htick, h⟩ := Comp.bind_eq_ok.mp h
  cases htick
  rw [Comp.bind_ok (Comp.get_run _)] at h
  split at h
  · cases h
  obtain ⟨_, db₂, _, h⟩ := Comp.bind_eq_ok.mp h
  cases hv : fed.verifyEvent db.ticks value version with
  | none =>
    simp only [hv] at h
    obtain ⟨_, _, _, h⟩ := Comp.bind_eq_ok.mp h
    cases h
  | some v =>
    simp only [hv] at h
    cases h
    unfold Fed.genEventIdCanonicalJson at hgen
    cases raw with
    | none => cases hgen
    | some value' =>
      cases hh : fed.referenceHash value' version with
      | none =>
        simp only [hh] at hgen
        cases hgen
      | some id =>
        simp only [hh] at hgen
        cases hgen
        exact ⟨_, v, rfl, hh, hv, rfl⟩

theorem validateAndAddEventId_quiet {R : Db → Db → Prop} (h : Quiet R) (version : RoomVersionId)
    (raw : RawPdu) : Comp.Keeps R (validateAndAddEventId fed version raw) := by
  refine h.bind (h.read fun _ => rfl) fun p => h.bind (tick_quiet h.fetching) fun n => h.get fun db => ?_
  split
  · exact h.read fun _ => rfl
  · refine h.bind (h.read fun _ => rfl) fun _ => ?_
    split
    · exact h.bind (backOff_quiet fed h.fetching _) fun _ => h.read fun _ => rfl
    · exact h.pure _

end Db

/-! ## the two paths -/

/-- the store; the objects among the outliers that are no PDUs stand apart -/
structure Intake where
  db : Db
  unreadable : EventId → Option JsonObject

abbrev IntakeComp (α : Type) := Comp Intake Error α

/-- a `send_join` response, by what is persisted of it -/
structure SendJoinResponse where
  state : List RawPdu
  authChain : List RawPdu

namespace Intake

variable (env : Env) (fed : Fed)
variable {version : RoomVersionId} {s s' : Intake} {raw : RawPdu} {e x : EventId}
  {v value : JsonObject}

/-- a row of `eventid_outlierpdu` -/
def outlier (s : Intake) (e : EventId) : Option JsonObject :=
  match s.db.timeline.eventidOutlierpdu e with
  | some j => some j.json
  | none => s.unreadable e

/-- the rows of another store; an object that is no PDU stays where there is no other row -/
def setDb (s : Intake) (db : Db) : Intake where
  db := db
  unreadable x := if (s.db.timeline.eventidOutlierpdu x).isSome then none else s.unreadable x

def onDb {α : Type} (x : RoomComp α) : IntakeComp α := fun s => ((x s.db).1, { s with db := (x s.db).2 })

def addPduOutlier (s : Intake) (e : EventId) (value : JsonObject) : Intake :=
  match fed.pduOfJson value with
  | some pdu =>
    { db := { s.db with timeline := s.db.timeline.addPduOutlier e ⟨value, pdu⟩ }
      unreadable := Function.update s.unreadable e none }
  | none =>
    { db := { s.db with timeline := { s.db.timeline with
        eventidOutlierpdu := Function.update s.db.timeline.eventidOutlierpdu e none } }
      unreadable := Function.update s.unreadable e (some value) }

/-- an event that does not validate is left out -/
def validate (version : RoomVersionId) (raw : RawPdu) : IntakeComp (Option (EventId × JsonObject)) :=
  onDb (Db.attempt (Db.validateAndAddEventId fed version raw))

/-- `PduEvent::from_id_val` -/
def fromIdVal (e : EventId) (value : JsonObject) : Option PduEvent :=
  fed.pduOfJson (value.insert "event_id" (.str (fed.eventIdStr e)))

def ingestState (version : RoomVersionId) :
    List RawPdu → Tree Nat EventId → IntakeComp (Tree Nat EventId)
  | [], state => pure state
  | raw :: raws, state => do
    match ← validate fed version raw with
    | none => ingestState version raws state
    | some (e, value) =>
      match fromIdVal fed e value with
      | none => Comp.throw (.badServerResponse "Invalid PDU in send_join response.")
      | some pdu => do
        Comp.modify (fun s => s.addPduOutlier fed e value)
        let state ← onDb (Db.insertEvent pdu pdu.eventId state)
        ingestState version raws state

def ingestAuthChain (version : RoomVersionId) : List RawPdu → IntakeComp Unit
  | [] => pure ()
  | raw :: raws => do
    match ← validate fed version raw with
    | none => ingestAuthChain version raws
    | some (e, value) => do
      Comp.modify (fun s => s.addPduOutlier fed e value)
      ingestAuthChain version raws

/-- a join goes through the state of the response, and then through its auth chain -/
def ingestSendJoin (version : RoomVersionId) (response : SendJoinResponse) :
    IntakeComp (Tree Nat EventId) := do
  let state ← ingestState fed version response.state .empty
  ingestAuthChain fed version response.authChain
  pure state

/-! ## what is genuine -/

/-- the content hash of the object matches -/
def Intact (version : RoomVersionId) (value : JsonObject) : Prop :=
  ∃ n, fed.verifyEvent n value version = some .all

def Redacted (version : RoomVersionId) (value : JsonObject) : Prop :=
  ∃ obj, fed.redactObject obj version = some value

/-- what is persisted is an intact or a redacted object, with its event id -/
def Genuine (json : JsonObject) : Prop :=
  ∃ version e value, json = JsonObject.insert value "event_id" (.str (fed.eventIdStr e)) ∧
    (Intact fed version value ∨ Redacted fed version value)

inductive Label where
  /-- an object of a `send_join` response is validated -/
  | join (version : RoomVersionId) (raw : RawPdu)
  | other

inductive Step : Label → Intake → Intake → Prop
  /-- `handle_outlier_pdu` -/
  | handle (fuel : Nat) (origin : ServerName) (createEvent : PduEvent) (e : EventId) (r : RoomId)
      (value : JsonObject) {s : Intake} :
      Step .other s (s.setDb (Db.handleOutlierPdu env fed fuel origin createEvent e r value s.db).2)
  /-- an object of a `send_join` response validates, and is persisted -/
  | persist {version : RoomVersionId} {raw : RawPdu} {s s' : Intake} {e : EventId} {value : JsonObject} :
      validate fed version raw s = (.ok (some (e, value)), s') →
      Step (.join version raw) s (s'.addPduOutlier fed e value)
  /-- anything else: it may remove outliers, and adds none -/
  | other {s s' : Intake} : (∀ x v, s'.outlier x = some v → s.outlier x = some v) → Step .other s s'

/-- runs on whose steps a condition on the label and the state before holds -/
inductive RunWith (P : Label → Intake → Prop) : Intake → Prop
  | start {s : Intake} : (∀ x, s.outlier x = none) → RunWith P s
  | step {l : Label} {s s' : Intake} : RunWith P s → Step env fed l s s' → P l s → RunWith P s'

/-- the objects of `send_join` responses are redacted if their hashes do not match -/
def Clean : Label → Intake → Prop
  | .join version raw, s => ∀ value, raw = some value →
      fed.verifyEvent s.db.ticks value version = some .signatures → Redacted fed version value
  | .other, _ => True

/-! ## the loops take steps -/

section
variable {P : Label → Intake → Prop}

/-- a part of the store that does not touch the timeline -/
theorem onDb_outlier {α : Type} {x : RoomComp α}
    (hx : Comp.Keeps (fun db db' : Db => db'.timeline = db.timeline) x) (s : Intake) :
    (onDb x s).2.outlier = s.outlier := by
  have htl : (onDb x s).2.db.timeline = s.db.timeline := hx s.db
  funext e
  unfold outlier
  rw [htl]
  rfl

theorem validate_outlier (version : RoomVersionId) (raw : RawPdu) (s : Intake) :
    (validate fed version raw s).2.outlier = s.outlier :=
  onDb_outlier (Db.attempt_keeps Db.sameTimeline_quiet.fetching
    (Db.validateAndAddEventId_quiet fed Db.sameTimeline_quiet version raw)) s

/-- the run goes on -/
def GoesOn (env : Env) (fed : Fed) (P : Label → Intake → Prop) (s s' : Intake) : Prop :=
  RunWith env fed P s → RunWith env fed P s'

theorem GoesOn.trans (a b c : Intake) (h : GoesOn env fed P a b) (h' : GoesOn env fed P b c) :
    GoesOn env fed P a c := fun hrun => h' (h hrun)

section
variable (hother : ∀ s, P .other s)
variable {raws : List RawPdu}
include hother

theorem goesOn_same (h : s'.outlier = s.outlier) : GoesOn env fed P s s' := fun hrun =>
  hrun.step (.other fun x v hv => by rwa [h] at hv) (hother s)

/-- an object is validated, and goes on if it is left out -/
theorem validate_goesOn {o : Except Error (Option (EventId × JsonObject))}
    (h : validate fed version raw s = (o, s')) : GoesOn env fed P s s' := by
  have hsame := validate_outlier fed version raw s
  rw [h] at hsame
  exact goesOn_same env fed hother hsame

theorem validate_then {α : Type} {f : Option (EventId × JsonObject) → IntakeComp α}
    (hnone : ∀ s₁, GoesOn env fed P s₁ (f none s₁).2)
    (hsome : ∀ p s₁, validate fed version raw s = (.ok (some p), s₁) → GoesOn env fed P s (f (some p) s₁).2) :
    GoesOn env fed P s ((validate fed version raw >>= f) s).2 := by
  cases hv : validate fed version raw s with
  | mk o s₁ =>
    cases o with
    | error err =>
      rw [Comp.bind_error hv]
      exact validate_goesOn env fed hother hv
    | ok o =>
      rw [Comp.bind_ok hv]
      cases o with
      | none => exact GoesOn.trans env fed _ _ _ (validate_goesOn env fed hother hv) (hnone s₁)
      | some p => exact hsome p s₁ hv

theorem ingestState_goesOn (hP : ∀ raw ∈ raws, ∀ s, P (.join version raw) s) (state : Tree Nat EventId) :
    Comp.Keeps (GoesOn env fed P) (ingestState fed version raws state) := by
  induction raws generalizing state with
  | nil => exact fun _ => id
  | cons raw raws ih =>
    intro s
    have hrest := ih fun q hq => hP q (List.mem_cons_of_mem _ hq)
    unfold ingestState
    refine validate_then env fed hother (hrest state) fun p s₁ hv => ?_
    obtain ⟨e, value⟩ := p
    show GoesOn env fed P s ((match fromIdVal fed e value with
      | none => _
      | some pdu => _ : IntakeComp (Tree Nat EventId)) s₁).2
    cases fromIdVal fed e value with
    | none => exact validate_goesOn env fed hother hv
    | some pdu =>
      intro hrun
      have hadded := hrun.step (.persist hv) (hP raw List.mem_cons_self s)
      refine Comp.Keeps.bind (GoesOn.trans env fed) (fun s => ?_) hrest _ hadded
      exact goesOn_same env fed hother
        (onDb_outlier (Db.insertEvent_quiet Db.sameTimeline_quiet.fetching pdu pdu.eventId state) s)

theorem ingestAuthChain_goesOn (hP : ∀ raw ∈ raws, ∀ s, P (.join version raw) s) :
    Comp.Keeps (GoesOn env fed P) (ingestAuthChain fed version raws) := by
  induction raws with
  | nil => exact fun _ => id
  | cons raw raws ih =>
    intro s
    have hrest := ih fun q hq => hP q (List.mem_cons_of_mem _ hq)
    unfold ingestAuthChain
    refine validate_then env fed hother hrest fun p s₁ hv hrun => ?_
    exact hrest _ (hrun.step (.persist hv) (hP raw List.mem_cons_self s))

/-- a join only takes steps -/
theorem ingestSendJoin_goesOn {response : SendJoinResponse}
    (hP : ∀ raw ∈ response.state ++ response.authChain, ∀ s, P (.join version raw) s) :
    Comp.Keeps (GoesOn env fed P) (ingestSendJoin fed version response) :=
  Comp.Keeps.bind (GoesOn.trans env fed)
    (ingestState_goesOn env fed hother (fun raw hraw => hP raw (List.mem_append_left _ hraw)) _)
    fun _ => Comp.Keeps.bind (GoesOn.trans env fed)
      (ingestAuthChain_goesOn env fed hother fun raw hraw => hP raw (List.mem_append_right _ hraw))
      fun _ => fun _ => id

end
end

/-! ## what is persisted is genuine -/

/-- the checks of the event handler let genuine objects through -/
theorem passes_genuine {createEvent : PduEvent} {r : RoomId} {j : PduJson}
    (h : Db.Passes env fed createEvent r e value j) : Genuine fed j.json := by
  obtain ⟨db, db', hrun⟩ := h
  obtain ⟨version, _, hrun⟩ := Db.ofExcept_ok hrun
  obtain ⟨out, db₁, hverified, hrun⟩ := Comp.bind_eq_ok.mp hrun
  obtain ⟨hjson, _⟩ := Db.incomingPdu_ok fed (Prod.mk.inj hrun).1
  refine ⟨version, e, out, hjson, ?_⟩
  rcases Db.verifiedValue_cases fed hverified with ⟨rfl, hintact⟩ | hredacted
  · exact Or.inl hintact
  · exact Or.inr ⟨_, hredacted⟩

theorem handleOutlierPdu_genuine (fuel : Nat) (origin : ServerName) (createEvent : PduEvent)
    (e : EventId) (r : RoomId) (value : JsonObject) :
    Comp.Keeps (Db.OutliersFrom fun _ j => Genuine fed j.json)
      (Db.handleOutlierPdu env fed fuel origin createEvent e r value) := by
  have hadmits : ∀ e value, Db.Admits env fed (Db.OutliersFrom fun _ j => Genuine fed j.json)
      createEvent r e value := by
    intro e value db j hj x j' hj'
    rcases update_some_eq_some.mp hj' with ⟨rfl, rfl⟩ | ⟨-, hj'⟩
    · exact Or.inr (passes_genuine env fed hj)
    · exact Or.inl hj'
  exact Db.handleOutlierPdu_keeps env fed (Db.outliersFrom_quiet _).fetching (hadmits e value)
    (fun _ _ e value _ => hadmits e value) fuel

/-- a row is the object that was added, or an old row -/
theorem addPduOutlier_outlier (h : (s.addPduOutlier fed e value).outlier x = some v) :
    v = value ∨ s.outlier x = some v := by
  unfold addPduOutlier outlier at h
  by_cases hx : x = e
  · subst hx
    cases hp : fed.pduOfJson value with
    | some pdu =>
      simp only [hp, TimelineTables.addPduOutlier, Function.update_self] at h
      exact Or.inl (Option.some.inj h).symm
    | none =>
      simp only [hp, Function.update_self] at h
      exact Or.inl (Option.some.inj h).symm
  · right
    unfold outlier
    cases hp : fed.pduOfJson value with
    | some pdu => simpa only [hp, TimelineTables.addPduOutlier, Function.update_of_ne hx] using h
    | none => simpa only [hp, Function.update_of_ne hx] using h

theorem validate_genuine {out : JsonObject} (h : validate fed version raw s = (.ok (some (e, out)), s'))
    (hclean : Clean fed (.join version raw) s) : Genuine fed out := by
  have hok : ∃ db', Db.validateAndAddEventId fed version raw s.db = (.ok (e, out), db') := by
    have hattempt := (Prod.mk.inj h).1
    unfold Db.attempt at hattempt
    cases hrun : Db.validateAndAddEventId fed version raw s.db with
    | mk o db' =>
      simp only [hrun] at hattempt
      cases o with
      | ok p =>
        cases hattempt
        exact ⟨db', rfl⟩
      | error err =>
        cases hpanic : err.isPanic <;> simp [hpanic] at hattempt
  obtain ⟨db', hok⟩ := hok
  obtain ⟨value, v, hraw, _, hverify, rfl⟩ := Db.validateAndAddEventId_ok fed hok
  refine ⟨version, e, value, rfl, ?_⟩
  cases v with
  | all => exact Or.inl ⟨_, hverify⟩
  | signatures => exact Or.inr (hclean value hraw hverify)

theorem setDb_outlier {db : Db} (h : (s.setDb db).outlier x = some v) :
    (∃ j, db.timeline.eventidOutlierpdu x = some j ∧ j.json = v) ∨ s.outlier x = some v := by
  unfold outlier setDb at h
  cases hj : db.timeline.eventidOutlierpdu x with
  | some j =>
    simp only [hj] at h
    exact Or.inl ⟨j, rfl, Option.some.inj h⟩
  | none =>
    simp only [hj] at h
    split at h
    · cases h
    · next hnone =>
      right
      unfold outlier
      rw [Option.not_isSome_iff_eq_none.mp hnone]
      exact h

theorem genuine_step {l : Label} (h : ∀ e v, s.outlier e = some v → Genuine fed v) (hs : Step env fed l s s')
    (hclean : Clean fed l s) :
    ∀ e v, s'.outlier e = some v → Genuine fed v := by
  cases hs with
  | handle fuel origin createEvent e r value =>
    intro x v hv
    have hkeeps := handleOutlierPdu_genuine env fed fuel origin createEvent e r value s.db x
    rcases setDb_outlier hv with ⟨j, hj, rfl⟩ | hold
    · rcases hkeeps j hj with hold | hnew
      · exact h x j.json (by unfold outlier; rw [hold])
      · exact hnew
    · exact h x v hold
  | @persist version raw _ s₁ e value hvalidate =>
    intro x v hv
    rcases addPduOutlier_outlier fed hv with rfl | hold
    · exact validate_genuine fed hvalidate hclean
    · have hsame := validate_outlier fed version raw s
      rw [hvalidate] at hsame
      exact h x v (hsame ▸ hold)
  | other hless => exact fun x v hv => h x v (hless x v hv)

theorem outliers_genuine (env : Env) (fed : Fed) (s : Intake) (hs : RunWith env fed (Clean fed) s) :
    ∀ e v, s.outlier e = some v → Genuine fed v := by
  induction hs with
  | start hnone =>
    intro e v hv
    rw [hnone e] at hv
    cases hv
  | step _ hs hclean ih => exact genuine_step env fed ih hs hclean

/-! ## a forged body -/

namespace Forged

/-- the hash of a content is its body -/
def hashMatches (o : JsonObject) : Bool :=
  match o.get "hash", o.get "content" with
  | some (.str hash), some (.obj content) =>
    match JsonObject.get content "body" with
    | some (.str body) => hash = body
    | _ => false
  | _, _ => false

/-- messages of alice -/
def messageOfJson (o : JsonObject) : Option PduEvent :=
  match o.get "event_id" with
  | some (.str s) => (Bytewise.ofStr s).map fun e =>
      Building.message ⟨.ascii "!r:x"⟩ ⟨e.toText⟩ ⟨.ascii "@alice:x"⟩
  | _ => none

theorem messageOfJson_eventId (o : JsonObject) (e : EventId) (pdu : PduEvent)
    (h : messageOfJson (o.insert "event_id" (.str (Bytewise.toStr ⟨e.toText⟩))) = some pdu) :
    pdu.eventId = e := by
  have hget : (o.insert "event_id" (.str (Bytewise.toStr ⟨e.toText⟩))).get "event_id"
      = some (.str (Bytewise.toStr ⟨e.toText⟩)) := rfl
  unfold messageOfJson at h
  simp only [hget, Bytewise.ofStr_toStr] at h
  cases h
  rfl

/-- all signatures hold; a redaction takes the content -/
def signing : Fed := { Fed.plain with
  verifyEvent _ o _ := some (if hashMatches o then .all else .signatures)
  referenceHash _ _ := some ⟨.ascii "$e"⟩
  redactObject o _ := some (o.insert "content" (.obj []))
  eventIdStr e := Bytewise.toStr ⟨e.toText⟩
  pduOfJson := messageOfJson
  pduOfJson_eventId := messageOfJson_eventId }

def message (hash body : String) : JsonObject :=
  [("origin_server_ts", .num 1), ("hash", .str hash), ("content", .obj [("body", .str body)])]

def stored (hash body : String) : JsonObject := (message hash body).insert "event_id" (.str "$e")

def start : Intake := ⟨Db.empty, fun _ => none⟩

theorem run_message (hash body : String) {P : Label → Intake → Prop}
    (hP : P (.join .v10 (some (message hash body))) start) :
    ∃ s, RunWith .plain signing P s ∧ s.outlier ⟨.ascii "$e"⟩ = some (stored hash body) := by
  have hvalidate : ∃ s', validate signing .v10 (some (message hash body)) start
      = (.ok (some (⟨.ascii "$e"⟩, stored hash body)), s') := ⟨_, rfl⟩
  obtain ⟨s', hvalidate⟩ := hvalidate
  exact ⟨_, (RunWith.start fun _ => rfl).step (.persist hvalidate) hP, rfl⟩

theorem not_genuine (hash body : String) (h : hash ≠ body) : ¬ Genuine signing (stored hash body) := by
  rintro ⟨version, e, value, hvalue, hgenuine⟩
  have hget : ∀ name, name ≠ "event_id" → value.get name = (stored hash body).get name := by
    intro name hname
    rw [hvalue, JsonObject.get_insert_of_ne _ _ hname]
  rcases hgenuine with ⟨n, hall⟩ | ⟨obj, hredacted⟩
  · have hmatches : hashMatches value = false := by
      unfold hashMatches
      rw [hget "hash" (by decide), hget "content" (by decide)]
      exact decide_eq_false h
    change some (if hashMatches value = true then Verified.all else .signatures) = some .all at hall
    rw [hmatches] at hall
    cases hall
  · cases hredacted
    have hcontent := hget "content" (by decide)
    cases hcontent

end Forged

theorem outliers_genuine_message :
    ∃ s : Intake, s.outlier ⟨.ascii "$e"⟩ = some (Forged.stored "a" "a") ∧
      ∀ e v, s.outlier e = some v → Genuine Forged.signing v := by
  obtain ⟨s, hrun, hrow⟩ := Forged.run_message "a" "a" (P := Clean Forged.signing) fun value hraw hv => by
    cases hraw
    exact absurd hv (by decide)
  exact ⟨s, hrow, outliers_genuine .plain Forged.signing s hrun⟩

/-- a join persists an event whose body is not the one that was hashed -/
theorem forgery_persisted :
    ¬ ∀ (env : Env) (fed : Fed) (s : Intake), RunWith env fed (fun _ _ => True) s →
      ∀ e v, s.outlier e = some v → Genuine fed v := by
  intro hall
  obtain ⟨s, hrun, hrow⟩ := Forged.run_message "a" "b" (P := fun _ _ => True) trivial
  exact Forged.not_genuine "a" "b" (by decide) (hall .plain Forged.signing s hrun _ _ hrow)

end Intake
end Grapevine
