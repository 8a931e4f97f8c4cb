import Grapevine.Events.Outliers

/-!
# Outliers become timeline events

`upgradeOutlierToTimelinePdu` finds the state at the event (from its prev events, or by asking the
origin), checks the event against it and against the current state, resolves the current state
with the state behind a state event, and appends the event.

An event that fails the check against the current state is soft failed (`softFails`): it stays an
outlier.  By then the rest of the call has run all the same (`settle`).

* `stateAtIncomingEvent`   the state before the event;
* `deriveState`            the new current state, for a state event;
* `forceState`             a room is set to a state, and its memberships follow.
-/

namespace Grapevine
open Kv

namespace StateMap

theorem nodup_insert (m : StateMap) (k : EventType × String) (e : EventId) :
    (((k, e) :: m.rows.filter (fun row => row.1 ≠ k)).map Prod.fst).Nodup := by
  rw [List.map_cons, List.nodup_cons]
  refine ⟨fun h => ?_, m.nodup.sublist (List.filter_sublist.map _)⟩
  obtain ⟨row, hrow, hk⟩ := List.mem_map.mp h
  have hne := (List.mem_filter.mp hrow).2
  simp [hk] at hne

def insert (m : StateMap) (k : EventType × String) (e : EventId) : StateMap :=
  ⟨(k, e) :: m.rows.filter (fun row => row.1 ≠ k), m.nodup_insert k e⟩

def empty : StateMap := ⟨[], List.nodup_nil⟩

end StateMap

namespace Db

variable (env : Env) (fed : Fed)
variable {version : RoomVersionId} {createEvent : PduEvent} {origin : ServerName} {r : RoomId}

def softFailed : Error := .badRequest .invalidParam "Event has been soft failed"

/-- `get_pdu(e).ok().flatten()` -/
def findPdu (db : Db) (e : EventId) : Option PduEvent :=
  match db.getPdu e with
  | .ok pdu => pdu
  | .error _ => none

def stateFullIds (db : Db) (shortstatehash : Nat) : Except Error (Tree Nat EventId) := do
  let full ← db.fullState shortstatehash
  (env.ord.enum full).foldlM (fun t c => do
    let p ← db.parseCompressedStateEvent c
    pure (t.insert p.1 p.2)) .empty

/-! ## the state at the event -/

/-- the state behind an event -/
def insertEvent (pdu : PduEvent) (e : EventId) (state : Tree Nat EventId) :
    RoomComp (Tree Nat EventId) :=
  match pdu.stateKey with
  | some stateKey => do
    let shortstatekey ← onState (StateDb.getOrCreateShortstatekey pdu.kind stateKey)
    pure (state.insert shortstatekey e)
  | none => pure state

/-- the state behind the only prev event, if the state at this is known -/
def stateAfterPrev (e : EventId) : RoomComp (Option (Tree Nat EventId)) := do
  match (← Comp.get).pduShortstatehash e with
  | none => pure none
  | some shortstatehash =>
    match ← attempt (Comp.reads (fun db => db.stateFullIds env shortstatehash)) with
    | none => pure none
    | some state =>
      match (← Comp.get).findPdu e with
      | none => Comp.throw (.badDatabase "Could not find prev event, but we know the state.")
      | some prev => some <$> insertEvent prev e state

/-- the prev events by the state at each, if all are known -/
def extremitySstatehashes (db : Db) : List EventId → Tree Nat PduEvent → Option (Tree Nat PduEvent)
  | [], t => some t
  | e :: es, t =>
    match db.findPdu e, db.pduShortstatehash e with
    | some prev, some shortstatehash => extremitySstatehashes db es (t.insert shortstatehash prev)
    | _, _ => none

/-- the entries by type and state key; a short state key without these is skipped -/
def stateMapOf (db : Db) (entries : List (Nat × EventId)) : StateMap :=
  entries.foldl (fun m row =>
    match db.state.shortstatekeyStatekey row.1 with
    | some key => m.insert key row.2
    | none => m) .empty

/-- the state behind one prev event, and its auth chain -/
def forkState (fuel : Nat) (r : RoomId) (shortstatehash : Nat) (prev : PduEvent) :
    RoomComp (StateMap × Finset EventId) := do
  let leaf ← Comp.reads (fun db => db.stateFullIds env shortstatehash)
  let leaf ← insertEvent prev prev.eventId leaf
  let state ← Comp.gets (fun db => db.stateMapOf (fed.entries leaf))
  let chain ← getAuthChain fuel r ((fed.entries leaf).map Prod.snd)
  pure (state, chain.toFinset)

def forkStates (fuel : Nat) (r : RoomId) :
    List (Nat × PduEvent) → RoomComp (List (StateMap × Finset EventId))
  | [] => pure []
  | (shortstatehash, prev) :: extremities => do
    let fork ← forkState env fed fuel r shortstatehash prev
    let rest ← forkStates fuel r extremities
    pure (fork :: rest)

/-- a resolved state, by short state keys -/
def shortStateKeys : List ((EventType × String) × EventId) → RoomComp (Tree Nat EventId)
  | [] => pure .empty
  | ((eventType, stateKey), e) :: rows => do
    let shortstatekey ← onState (StateDb.getOrCreateShortstatekey eventType stateKey)
    let rest ← shortStateKeys rows
    pure (rest.insert shortstatekey e)

def stateOfPrevs (fuel : Nat) (r : RoomId) (version : RoomVersionId) (prevEvents : List EventId) :
    RoomComp (Option (Tree Nat EventId)) := do
  match (← Comp.get).extremitySstatehashes prevEvents .empty with
  | none => pure none
  | some extremities =>
    let forks ← forkStates env fed fuel r (fed.entries extremities)
    let db ← Comp.get
    match fed.resolve version (forks.map Prod.fst) (forks.map Prod.snd) db.findPdu with
    | some state => some <$> shortStateKeys state.rows
    -- a failed resolution is only logged
    | none => pure none

/-- the state that the origin's events make -/
def collectState : List PduEvent → Tree Nat EventId → RoomComp (Tree Nat EventId)
  | [], state => pure state
  | pdu :: pdus, state =>
    match pdu.stateKey with
    | none => Comp.throw (.badDatabase "Found non-state pdu in state events.")
    | some stateKey => do
      let shortstatekey ← onState (StateDb.getOrCreateShortstatekey pdu.kind stateKey)
      if (state.get shortstatekey).isSome then
        Comp.throw (.badDatabase
          "State event's type and state_key combination exists multiple times.")
      else collectState pdus (state.insert shortstatekey pdu.eventId)

/-- the create event must still be in the state -/
def checkCreate (db : Db) (createEvent : PduEvent) (state : Tree Nat EventId) : Except Error Unit :=
  match db.state.statekeyShortstatekey (.roomCreate, "") with
  | none => .error (.panic "Room exists")
  | some shortstatekey =>
    if state.get shortstatekey = some createEvent.eventId then .ok ()
    else .error (.badDatabase "Incoming event refers to wrong create event.")

def stateFromOrigin (fuel : Nat) (origin : ServerName) (createEvent : PduEvent) (r : RoomId)
    (version : RoomVersionId) (e : EventId) : RoomComp (Tree Nat EventId) := do
  let n ← tick
  let ids ← Comp.ofExcept (fed.getRoomStateIds n origin r e)
  let pdus ← fetchAndHandleOutliers env fed fuel origin createEvent r version ids
  let state ← collectState (pdus.map Prod.fst) .empty
  Comp.reads (fun db => db.checkCreate createEvent state)
  pure state

/-- the state before the event, as far as it is known here -/
def knownState (fuel : Nat) (r : RoomId) (version : RoomVersionId) (prevEvents : List EventId) :
    RoomComp (Option (Tree Nat EventId)) :=
  match prevEvents with
  | [e] => stateAfterPrev env e
  | _ => stateOfPrevs env fed fuel r version prevEvents

def stateAtIncomingEvent (fuel : Nat) (origin : ServerName) (createEvent : PduEvent) (r : RoomId)
    (version : RoomVersionId) (pdu : PduEvent) : RoomComp (Tree Nat EventId) := do
  match ← knownState env fed fuel r version pdu.prevEvents with
  | some state => pure state
  | none => stateFromOrigin env fed fuel origin createEvent r version pdu.eventId

/-! ## the checks -/

def checkStateAuth (db : Db) (version : RoomVersionId) (pdu : PduEvent) (state : Tree Nat EventId) :
    Except Error Unit :=
  match fed.authCheck version pdu (fun kind stateKey =>
      ((db.state.statekeyShortstatekey (kind, stateKey)).bind state.get).bind db.findPdu) with
  | none => .error (.badRequest .invalidParam "Auth check failed.")
  | some false => .error (.badDatabase "Event has failed auth check with state at the event.")
  | some true => .ok ()

/-- the entries of the current state among those wanted, each wanted once -/
def takeAuthEvents (db : Db) :
    List CompressedStateEvent → List (Nat × EventType × String) → AuthEvents
  | [], _ => []
  | c :: cs, wanted =>
    match db.parseCompressedStateEvent c with
    | .error _ => takeAuthEvents db cs wanted
    | .ok (shortstatekey, e) =>
      match wanted.lookup shortstatekey with
      | none => takeAuthEvents db cs wanted
      | some key =>
        let rest := takeAuthEvents db cs (wanted.filter (fun w => w.1 ≠ shortstatekey))
        match db.findPdu e with
        | some pdu => (key, pdu) :: rest
        | none => rest

/-- `get_auth_events`: the auth events of an event in the current state -/
def getAuthEvents (db : Db) (r : RoomId) (pdu : PduEvent) : Except Error AuthEvents :=
  match db.state.roomidShortstatehash r with
  | none => .ok []
  | some shortstatehash =>
    match fed.authTypesForEvent pdu.kind pdu.sender pdu.stateKey pdu.content with
    | none => .error (.panic "content is a valid JSON object")
    | some types => do
      let wanted := types.filterMap
        (fun key => (db.state.statekeyShortstatekey key).map (fun s => (s, key)))
      let full ← db.fullState shortstatehash
      pure (db.takeAuthEvents (env.ord.enum full) wanted)

/-- may the sender not redact, as far as the current state goes? -/
def redactionFails (db : Db) (version : RoomVersionId) (pdu : PduEvent) : Except Error Bool :=
  if pdu.kind = .roomRedaction then do
    match ← redactionTarget env version pdu with
    | some redactId =>
      let allowed ← db.userCanRedact env redactId pdu.sender pdu.roomId true
      pure (!allowed)
    | none => pure false
  else .ok false

/-- the event does not pass the check against the current state -/
def softFails (db : Db) (version : RoomVersionId) (r : RoomId) (pdu : PduEvent) :
    Except Error Bool := do
  let authEvents ← db.getAuthEvents env fed r pdu
  match fed.authCheck version pdu (fun kind stateKey => authEvents.lookup (kind, stateKey)) with
  | none => .error (.badRequest .invalidParam "Auth check failed.")
  | some false => pure true
  | some true => db.redactionFails env version pdu

/-! ## the new state -/

/-- the extremities without the events that are referenced, by this event or by others -/
def newExtremities (db : Db) (r : RoomId) (pdu : PduEvent) : Finset EventId :=
  (db.getForwardExtremities r).filter (fun e => e ∉ pdu.prevEvents ∧ db.isEventReferenced r e = false)

def compressState : List (Nat × EventId) → RoomComp (Finset CompressedStateEvent)
  | [] => pure ∅
  | (shortstatekey, e) :: entries => do
    let c ← onState (StateDb.compressStateEvent shortstatekey e)
    let rest ← compressState entries
    pure (insert c rest)

def compressResolved :
    List ((EventType × String) × EventId) → RoomComp (Finset CompressedStateEvent)
  | [] => pure ∅
  | ((eventType, stateKey), e) :: rows => do
    let shortstatekey ← onState (StateDb.getOrCreateShortstatekey eventType stateKey)
    let c ← onState (StateDb.compressStateEvent shortstatekey e)
    let rest ← compressResolved rows
    pure (insert c rest)

/-- the layer of a state with its auth chain, for `resolve_state` -/
def resolveState (fuel : Nat) (r : RoomId) (version : RoomVersionId)
    (incomingState : Tree Nat EventId) : RoomComp (Finset CompressedStateEvent) := do
  let pointer ← Comp.gets (fun db => db.state.roomidShortstatehash r)
  let shortstatehash ← Comp.expect pointer (.panic "every room has state")
  let current ← Comp.reads (fun db => db.stateFullIds env shortstatehash)
  let currentChain ← getAuthChain fuel r ((fed.entries current).map Prod.snd)
  let incomingChain ← getAuthChain fuel r ((fed.entries incomingState).map Prod.snd)
  let db ← Comp.get
  match fed.resolve version
      [db.stateMapOf (fed.entries current), db.stateMapOf (fed.entries incomingState)]
      [currentChain.toFinset, incomingChain.toFinset] db.findPdu with
  | some state => compressResolved state.rows
  | none => Comp.throw (.badDatabase
      "State resolution failed, either an event could not be found or deserialization")

/-- the membership that a state event of the room stands for -/
def forceMember (r : RoomId) (pdu : PduEvent) : RoomComp Unit :=
  match extractMembership pdu.content, pdu.stateKey.bind env.ids.userIdOfStr with
  | some membership, some u => updateMembership env r u membership pdu.sender none false
  | _, _ => pure ()

/-- one new entry of the state; what cannot be read is skipped -/
def forceEvent (r : RoomId) (e : EventId) : RoomComp Unit := do
  match ← Comp.reads (fun db => db.timeline.getPduJson e) with
  | none => pure ()
  | some j =>
    match j.pdu.kind with
    | .roomMember => forceMember env r j.pdu
    | .spaceChild => Comp.modify (fun db => { db with
        roomidSpacechunkCache := Function.update db.roomidSpacechunkCache j.pdu.roomId false })
    | _ => pure ()

def forceEvents (r : RoomId) (new : List CompressedStateEvent) : RoomComp Unit :=
  new.forM (fun c => do
    match (← Comp.get).parseCompressedStateEvent c with
    | .ok p => forceEvent env r p.2
    | .error _ => pure ())

/-- `force_state`; the entries that the state loses are ignored -/
def forceState (r : RoomId) (shortstatehash : Nat) (new : Finset CompressedStateEvent) :
    RoomComp Unit := do
  forceEvents env r (env.ord.enum new)
  updateJoinedCount env r
  onState (StateDb.setRoomState r shortstatehash)

/-- the room's state with a state event in it -/
def deriveState (fuel : Nat) (r : RoomId) (version : RoomVersionId) (pdu : PduEvent)
    (state : Tree Nat EventId) : RoomComp Unit :=
  if pdu.stateKey.isSome then do
    let stateAfter ← insertEvent pdu pdu.eventId state
    let newRoomState ← resolveState env fed fuel r version stateAfter
    let (shortstatehash, new, _) ← onState (StateDb.saveState env.digest env.ord r newRoomState)
    forceState env r shortstatehash new
  else pure ()

/-! ## the upgrade -/

def appendIncomingPdu (r : RoomId) (j : PduJson) (leaves : List EventId)
    (compressed : Finset CompressedStateEvent) (softFail : Bool) : RoomComp (Option Bytes) :=
  if j.pdu.roomId ≠ r then Comp.throw (.panic "Token for incorrect room passed")
  else do
    -- the state comes first, because `append_pdu` can't fail
    let _ ← onState (StateDb.setEventState env.digest env.ord j.pdu.eventId j.pdu.roomId compressed)
    if softFail then
      markAsReferenced r j.pdu.prevEvents
      setForwardExtremities r leaves
      pure none
    else
      some <$> appendPdu env j leaves

/-- the call once the event is checked -/
def settle (fuel : Nat) (r : RoomId) (version : RoomVersionId) (j : PduJson)
    (state : Tree Nat EventId) (softFail : Bool) : RoomComp (Option Bytes) := do
  let extremities ← Comp.gets (fun db => db.newExtremities r j.pdu)
  let compressed ← compressState (fed.entries state)
  deriveState env fed fuel r version j.pdu state
  if softFail then
    let _ ← appendIncomingPdu env r j (fed.listing extremities) compressed true
    markEventSoftFailed j.pdu.eventId
    Comp.throw softFailed
  else
    appendIncomingPdu env r j (fed.listing (insert j.pdu.eventId extremities)) compressed false

def upgradeOutlierToTimelinePdu (fuel : Nat) (j : PduJson) (createEvent : PduEvent)
    (origin : ServerName) (r : RoomId) : RoomComp (Option Bytes) := do
  match (← Comp.get).timeline.getPduId j.pdu.eventId with
  | some id => pure (some id)
  | none =>
    if (← Comp.get).isEventSoftFailed j.pdu.eventId then Comp.throw softFailed
    else
      let version ← Comp.ofExcept (createVersion env fed createEvent)
      let state ← stateAtIncomingEvent env fed fuel origin createEvent r version j.pdu
      Comp.reads (fun db => db.checkStateAuth fed version j.pdu state)
      let softFail ← Comp.reads (fun db => db.softFails env fed version r j.pdu)
      settle env fed fuel r version j state softFail

/-! ## what the state takes -/

section
variable {R : Db → Db → Prop} (h : Fetching R)
include h

theorem Fetching.map {α β : Type} {x : RoomComp α} (f : α → β) (hx : Comp.Keeps R x) :
    Comp.Keeps R (f <$> x) := h.bind hx fun _ => h.pure _

theorem insertEvent_quiet (pdu : PduEvent) (e : EventId) (state : Tree Nat EventId) :
    Comp.Keeps R (insertEvent pdu e state) := by
  unfold insertEvent
  cases pdu.stateKey with
  | some stateKey =>
    exact h.bind (h.getOrCreateShortstatekey _ _) fun _ => h.pure _
  | none => exact h.pure _

theorem stateAfterPrev_quiet (e : EventId) : Comp.Keeps R (stateAfterPrev env e) := by
  refine h.get fun db => ?_
  cases db.pduShortstatehash e with
  | none => exact h.pure _
  | some shortstatehash =>
    refine h.bind (attempt_keeps h (h.read fun _ => rfl)) fun o => ?_
    cases o with
    | none => exact h.pure _
    | some state =>
      refine h.get fun db => ?_
      cases db.findPdu e with
      | none => exact h.read fun _ => rfl
      | some prev => exact h.map _ (insertEvent_quiet h prev e state)

theorem forkStates_quiet (fuel : Nat) (r : RoomId) (extremities : List (Nat × PduEvent)) :
    Comp.Keeps R (forkStates env fed fuel r extremities) := by
  induction extremities with
  | nil => exact h.pure _
  | cons x extremities ih =>
    refine h.bind ?_ fun _ => h.bind ih fun _ => h.pure _
    exact h.bind (h.read fun _ => rfl) fun _ => h.bind (insertEvent_quiet h _ _ _) fun _ =>
      h.bind (h.read fun _ => rfl) fun _ => h.bind (getAuthChain_keeps h.toShortening fuel r _) fun _ => h.pure _

theorem shortStateKeys_quiet (rows : List ((EventType × String) × EventId)) :
    Comp.Keeps R (shortStateKeys rows) := by
  induction rows with
  | nil => exact h.pure _
  | cons row rows ih =>
    exact h.bind (h.getOrCreateShortstatekey _ _) fun _ =>
      h.bind ih fun _ => h.pure _

theorem stateOfPrevs_quiet (fuel : Nat) (r : RoomId) (version : RoomVersionId) (es : List EventId) :
    Comp.Keeps R (stateOfPrevs env fed fuel r version es) := by
  refine h.get fun db => ?_
  cases db.extremitySstatehashes es .empty with
  | none => exact h.pure _
  | some extremities =>
    refine h.bind (forkStates_quiet env fed h fuel r _) fun forks => h.get fun db => ?_
    cases fed.resolve version (forks.map Prod.fst) (forks.map Prod.snd) db.findPdu with
    | none => exact h.pure _
    | some state => exact h.map _ (shortStateKeys_quiet h state.rows)

theorem knownState_quiet (fuel : Nat) (r : RoomId) (version : RoomVersionId) (es : List EventId) :
    Comp.Keeps R (knownState env fed fuel r version es) := by
  unfold knownState
  split
  · exact stateAfterPrev_quiet env h _
  · exact stateOfPrevs_quiet env fed h fuel r version es

theorem collectState_quiet (pdus : List PduEvent) (state : Tree Nat EventId) :
    Comp.Keeps R (collectState pdus state) := by
  induction pdus generalizing state with
  | nil => exact h.pure _
  | cons pdu pdus ih =>
    unfold collectState
    cases pdu.stateKey with
    | none => exact h.read fun _ => rfl
    | some stateKey =>
      refine h.bind (h.getOrCreateShortstatekey _ _) fun k => ?_
      cases (state.get k).isSome with
      | true => exact h.read fun _ => rfl
      | false => exact ih _

theorem stateAtIncomingEvent_fetching
    (hans : ∀ e value, Answered fed origin version e value → Adds env fed R createEvent r e value) (fuel : Nat)
    (pdu : PduEvent) :
    Comp.Keeps R (stateAtIncomingEvent env fed fuel origin createEvent r version pdu) := by
  refine h.bind (knownState_quiet env fed h fuel r version _) fun o => ?_
  cases o with
  | some state => exact h.pure _
  | none =>
    exact h.bind (tick_quiet h) fun _ => h.bind (h.read fun _ => rfl) fun _ =>
      h.bind (fetchAndHandleOutliers_keeps env fed h
          (fun e value ha => (hans e value ha).admits env fed) fuel _) fun _ =>
        h.bind (collectState_quiet h _ _) fun _ => h.bind (h.read fun _ => rfl) fun _ => h.pure _

theorem compressStateEvent_quiet (k : Nat) (e : EventId) :
    Comp.Keeps R (onState (StateDb.compressStateEvent k e)) := by
  intro db
  show R db { db with state := (StateDb.compressStateEvent k e db.state).2 }
  rw [StateDb.compressStateEvent_snd]
  exact h.short db e

theorem compressState_fetching (entries : List (Nat × EventId)) :
    Comp.Keeps R (compressState entries) := by
  induction entries with
  | nil => exact h.pure _
  | cons x entries ih =>
    exact h.bind (compressStateEvent_quiet h _ _) fun _ => h.bind ih fun _ => h.pure _

theorem compressResolved_quiet (rows : List ((EventType × String) × EventId)) :
    Comp.Keeps R (compressResolved rows) := by
  induction rows with
  | nil => exact h.pure _
  | cons row rows ih =>
    exact h.bind (h.getOrCreateShortstatekey _ _) fun _ =>
      h.bind (compressStateEvent_quiet h _ _) fun _ => h.bind ih fun _ => h.pure _

theorem resolveState_quiet (fuel : Nat) (r : RoomId) (version : RoomVersionId)
    (incoming : Tree Nat EventId) : Comp.Keeps R (resolveState env fed fuel r version incoming) := by
  refine h.bind (h.read fun _ => rfl) fun pointer => h.bind ?_ fun shortstatehash =>
    h.bind (h.read fun _ => rfl) fun current => h.bind (getAuthChain_keeps h.toShortening fuel r _) fun chain =>
      h.bind (getAuthChain_keeps h.toShortening fuel r _) fun chain' => h.get fun db => ?_
  · exact h.read fun db => by cases pointer <;> rfl
  · show Comp.Keeps R (match fed.resolve version _ [chain.toFinset, chain'.toFinset] db.findPdu with
      | some state => compressResolved state.rows
      | none => _)
    split
    · exact compressResolved_quiet h _
    · exact h.read fun _ => rfl

end

section
variable {R : Db → Db → Prop} (h : Quiet R)
include h

theorem stateAtIncomingEvent_keeps
    (hans : ∀ e value, Answered fed origin version e value → Adds env fed R createEvent r e value) (fuel : Nat)
    (pdu : PduEvent) :
    Comp.Keeps R (stateAtIncomingEvent env fed fuel origin createEvent r version pdu) :=
  stateAtIncomingEvent_fetching env fed h.fetching hans fuel pdu

theorem compressState_quiet (entries : List (Nat × EventId)) : Comp.Keeps R (compressState entries) :=
  compressState_fetching h.fetching entries

end

/-! ## what the memberships take -/

section
variable {R : Db → Db → Prop} (h : Blind R)
include h

section
variable {r : RoomId} (hu : ∀ u membership sender, Comp.Keeps R (updateMembership env r u membership sender none false))
include hu

theorem forceEvent_keeps_of (e : EventId) : Comp.Keeps R (forceEvent env r e) := by
  refine h.readsThen _ fun o => ?_
  cases o with
  | none => exact h.pure _
  | some j =>
    show Comp.Keeps R (match j.pdu.kind with
      | .roomMember => _
      | .spaceChild => _
      | _ => _)
    split
    · unfold forceMember
      split
      · exact hu _ _ _
      · exact h.pure _
    · exact Comp.Keeps.modify fun db => h.roomidSpacechunkCache db _
    · exact h.pure _

theorem forceEvents_keeps_of (new : List CompressedStateEvent) : Comp.Keeps R (forceEvents env r new) := by
  refine Comp.Keeps.forM h.refl h.trans _ fun c _ => h.get fun db => ?_
  cases db.parseCompressedStateEvent c with
  | ok p => exact forceEvent_keeps_of env h hu p.2
  | error e => exact h.pure _

end

variable (hm : ∀ (db : Db) t, R db { db with members := t }) (ha : ∀ (db : Db) t, R db { db with accounts := t })
include hm ha

theorem forceEvents_keeps (r : RoomId) (new : List CompressedStateEvent) :
    Comp.Keeps R (forceEvents env r new) :=
  forceEvents_keeps_of env h (fun u _ _ => updateMembership_keeps h env ha hm r u _ _ _ _) new

theorem forceState_keeps
    (hp : ∀ (db : Db) r s, R db { db with state := { db.state with
      roomidShortstatehash := Function.update db.state.roomidShortstatehash r s } })
    (r : RoomId) (shortstatehash : Nat) (new : Finset CompressedStateEvent) :
    Comp.Keeps R (forceState env r shortstatehash new) :=
  h.bind (forceEvents_keeps env h hm ha r _) fun _ =>
    h.bind (updateJoinedCount_keeps h env r) fun _ db => hp db r (some shortstatehash)

theorem deriveState_keeps (hq : Quiet R)
    (hp : ∀ (db : Db) r s, R db { db with state := { db.state with
      roomidShortstatehash := Function.update db.state.roomidShortstatehash r s } })
    (fuel : Nat) (r : RoomId) (version : RoomVersionId) (pdu : PduEvent) (state : Tree Nat EventId) :
    Comp.Keeps R (deriveState env fed fuel r version pdu state) := by
  unfold deriveState
  split
  · exact hq.bind (insertEvent_quiet hq.fetching _ _ _) fun _ =>
      hq.bind (resolveState_quiet env fed hq.fetching fuel r version _) fun _ =>
        hq.bind (hq.onState (StateDb.saveState_later _ _ _ _)) fun p =>
          forceState_keeps env h hm ha hp r p.1 p.2.1
  · exact hq.pure _

end

end Db
end Grapevine
