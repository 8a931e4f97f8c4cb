import Grapevine.Rooms.Failures

/-!
# Local sends

`buildAndAppendPdu` takes the event that `create_hash_and_sign_event` made and signed: it looks
the event over (`checkAdminRoom`, `checkRedaction`), appends it to the state, appends it to the
timeline, moves the room's pointer, and queues the event for the other servers.

`AllOrNothing` is what the callers of `append_pdu` count on, and `NoStray` what follows for a local
send: no event stays in the timeline that its room's state does not have and no server was sent.

Main result: `appendPdu_allOrNothing_iff`.  Both hold of the calls whose event is accepted, and of
no other call that returns (`appendPdu_leaves_row`).
-/

namespace Grapevine
open Kv

/-! ## states that keep the pointers -/

namespace StateDb

/-- the pointers stay, and the counter does not run backwards -/
structure Later (db db' : StateDb) : Prop where
  pointers : db'.roomidShortstatehash = db.roomidShortstatehash
  counter : db.counter ≤ db'.counter
  counter_lt : db.counter < 2^64 → db'.counter < 2^64

theorem Later.refl (db : StateDb) : Later db db := ⟨rfl, le_refl _, id⟩

theorem Later.trans (a b c : StateDb) (h : Later a b) (h' : Later b c) : Later a c :=
  ⟨h'.pointers.trans h.pointers, h.counter.trans h'.counter, fun hc => h'.counter_lt (h.counter_lt hc)⟩

/-- a write to the other tables -/
theorem Later.of_same {db db' : StateDb} (hp : db'.roomidShortstatehash = db.roomidShortstatehash)
    (hc : db'.counter = db.counter) : Later db db' :=
  ⟨hp, hc.ge, fun h => hc ▸ h⟩

section
variable {α β : Type}

theorem later_bind {x : StateComp α} {f : α → StateComp β} (hx : Comp.Keeps Later x)
    (hf : ∀ a, Comp.Keeps Later (f a)) : Comp.Keeps Later (x >>= f) :=
  Comp.Keeps.bind Later.trans hx hf

theorem later_pure (a : α) : Comp.Keeps Later (pure a : StateComp α) :=
  Comp.Keeps.pure Later.refl a

theorem later_get {f : StateDb → StateComp β} (hf : ∀ db, Comp.Keeps Later (f db)) :
    Comp.Keeps Later (Comp.get >>= f) :=
  later_bind (Comp.Keeps.of_read Later.refl fun _ => rfl) hf

theorem later_expect (o : Option α) (e : Error) : Comp.Keeps Later (Comp.expect o e : StateComp α) := by
  intro db
  cases o with
  | some a => exact Later.refl db
  | none => exact Later.refl db

end

theorem nextCount_later : Comp.Keeps Later nextCount := by
  intro db
  unfold nextCount
  by_cases h : db.counter + 1 < 2^64
  · rw [if_pos h]
    exact ⟨rfl, Nat.le_succ _, fun _ => h⟩
  · rw [if_neg h]
    exact Later.refl db

theorem getOrCreateShorteventid_later (e : EventId) : Comp.Keeps Later (getOrCreateShorteventid e) := by
  refine later_get fun db => ?_
  cases db.eventidShorteventid e with
  | some n => exact later_pure n
  | none =>
    exact later_bind nextCount_later fun _ =>
      later_bind (Comp.Keeps.modify fun _ => Later.of_same rfl rfl) fun _ => later_pure _

theorem getOrCreateShortstatekey_later (eventType : EventType) (stateKey : String) :
    Comp.Keeps Later (getOrCreateShortstatekey eventType stateKey) := by
  refine later_get fun db => ?_
  cases db.statekeyShortstatekey (eventType, stateKey) with
  | some n => exact later_pure n
  | none =>
    exact later_bind nextCount_later fun _ =>
      later_bind (Comp.Keeps.modify fun _ => Later.of_same rfl rfl) fun _ => later_pure _

theorem getOrCreateShortstatehash_later (stateHash : Bytes) :
    Comp.Keeps Later (getOrCreateShortstatehash stateHash) := by
  refine later_get fun db => ?_
  cases db.statehashShortstatehash stateHash with
  | some n => exact later_pure _
  | none =>
    exact later_bind nextCount_later fun _ =>
      later_bind (Comp.Keeps.modify fun _ => Later.of_same rfl rfl) fun _ => later_pure _

theorem loadInfo_later (fuel h : Nat) : Comp.Keeps Later (loadInfo fuel h) := by
  induction fuel generalizing h with
  | zero => exact Comp.Keeps.of_read Later.refl fun _ => rfl
  | succ fuel ih =>
    unfold loadInfo
    refine later_get fun db => ?_
    cases db.stateinfoCache h with
    | some r => exact later_pure r
    | none =>
      refine later_bind (Comp.Keeps.of_read Later.refl fun _ => rfl) fun d => ?_
      refine later_bind ?_ fun _ =>
        later_bind (Comp.Keeps.modify fun _ => Later.of_same rfl rfl) fun _ => later_pure _
      unfold onParent
      cases d.parent with
      | none => exact later_pure _
      | some p => exact later_bind (ih p) fun _ => later_bind (later_expect _ _) fun _ => later_pure _

theorem statesParents_later (previous : Option Nat) : Comp.Keeps Later (statesParents previous) := by
  cases previous with
  | none => exact later_pure []
  | some p => exact loadInfo_later (p + 1) p

theorem saveStateFromDiff_later (ord : Order) (h : Nat) (parents : List CompressedStateLayer)
    (d : Diff CompressedStateEvent) (n : Nat) :
    Comp.Keeps Later (saveStateFromDiff ord h parents d n) := by
  induction parents generalizing d n with
  | nil => exact Comp.Keeps.modify fun _ => Later.of_same rfl rfl
  | cons parent parents ih =>
    unfold saveStateFromDiff
    split
    · exact ih _ _
    · split
      · exact ih _ _
      · exact Comp.Keeps.modify fun _ => Later.of_same rfl rfl

theorem setEventShortstatehash_later (e h : Nat) : Comp.Keeps Later (setEventShortstatehash e h) :=
  Comp.Keeps.modify fun _ => Later.of_same rfl rfl

theorem appendStateEvent_later (ord : Order) (pdu : PduEvent) (stateKey : String)
    (previous : Option Nat) : Comp.Keeps Later (appendStateEvent ord pdu stateKey previous) := by
  refine later_bind (statesParents_later previous) fun parents => ?_
  refine later_bind (getOrCreateShortstatekey_later _ _) fun key => ?_
  refine later_bind (later_bind (getOrCreateShorteventid_later _) fun _ => later_pure _) fun new => ?_
  by_cases h : some new = replaces ord parents key
  · rw [if_pos h]
    exact later_bind (later_expect _ _) fun _ => later_pure _
  · rw [if_neg h]
    exact later_bind nextCount_later fun _ =>
      later_bind (saveStateFromDiff_later ord _ _ _ _) fun _ => later_pure _

theorem appendToState_later (ord : Order) (pdu : PduEvent) : Comp.Keeps Later (appendToState ord pdu) := by
  refine later_bind (later_bind (getOrCreateShorteventid_later _) fun shorteventid => ?_)
    fun _ => later_pure _
  refine later_bind (Comp.Keeps.of_read Later.refl fun _ => rfl) fun previous => ?_
  refine later_bind ?_ fun _ => ?_
  · cases previous with
    | some p => exact setEventShortstatehash_later _ p
    | none => exact later_pure ()
  · cases pdu.stateKey with
    | some stateKey => exact appendStateEvent_later ord pdu stateKey previous
    | none => exact later_bind (later_expect _ _) fun _ => later_pure _

theorem saveState_later (digest : Bytes → Bytes) (ord : Order) (r : RoomId)
    (new : Finset CompressedStateEvent) : Comp.Keeps Later (saveState digest ord r new) := by
  refine later_bind (Comp.Keeps.of_read Later.refl fun _ => rfl) fun previous =>
    later_bind (getOrCreateShortstatehash_later _) fun p => ?_
  obtain ⟨shortstatehash, existed⟩ := p
  show Comp.Keeps Later (if some shortstatehash = previous then _ else _)
  split
  · exact later_pure _
  · refine later_bind (statesParents_later previous) fun parents => ?_
    cases existed with
    | true => exact later_pure _
    | false => exact later_bind (saveStateFromDiff_later ord _ _ _ _) fun _ => later_pure _

theorem setEventState_later (digest : Bytes → Bytes) (ord : Order) (e : EventId) (r : RoomId)
    (new : Finset CompressedStateEvent) : Comp.Keeps Later (setEventState digest ord e r new) := by
  refine later_bind (getOrCreateShorteventid_later e) fun shorteventid =>
    later_bind (Comp.Keeps.of_read Later.refl fun _ => rfl) fun previous =>
      later_bind (getOrCreateShortstatehash_later _) fun p => ?_
  obtain ⟨shortstatehash, existed⟩ := p
  have hset := later_bind (setEventShortstatehash_later shorteventid shortstatehash)
    fun _ => later_pure shortstatehash
  cases existed with
  | true => exact hset
  | false =>
    exact later_bind (statesParents_later previous) fun _ =>
      later_bind (saveStateFromDiff_later ord _ _ _ _) fun _ => hset

end StateDb

namespace Db

variable (env : Env)
variable {leaves : List EventId} {j : PduJson} {db db' : Db} {e : Error}

/-! ## the checks -/

/-- the members of this server that stay in the room when the target goes -/
def otherMembers (db : Db) (r : RoomId) (target : String) : Nat :=
  (((db.members.roomMembers env.ids r).filterMap Except.toOption).filter (fun m =>
    env.ids.serverName m = env.serverName && env.ids.userIdStr m ≠ target)).length

/-- the bot and the last admin stay in the admin room -/
def checkAdminGoes (db : Db) (r : RoomId) (target bot last : String) : Except Error Unit :=
  if target = env.ids.userIdStr env.adminBot then .error (.badRequest .forbidden bot)
  else if db.otherMembers env r target < 2 then .error (.badRequest .forbidden last)
  else .ok ()

def checkAdminMember (db : Db) (pdu : PduEvent) : Except Error Unit :=
  let target := (pdu.stateKey.filter (fun v => v.startsWith "@")).getD (env.ids.userIdStr pdu.sender)
  match extractMembership pdu.content with
  | none => .error (.badDatabase "Invalid content in pdu.")
  | some .leave => db.checkAdminGoes env pdu.roomId target
      "Grapevine user cannot leave from admins room." "Last admin cannot leave from admins room."
  | some .ban =>
    if pdu.stateKey.isSome then db.checkAdminGoes env pdu.roomId target
      "Grapevine user cannot be banned in admins room." "Last admin cannot be banned in admins room."
    else .ok ()
  | some _ => .ok ()

def checkAdminRoom (db : Db) (pdu : PduEvent) : Except Error Unit :=
  if db.adminRoom = some pdu.roomId then
    match pdu.kind with
    | .roomEncryption =>
      .error (.badRequest .forbidden "Encryption is not allowed in the admins room.")
    | .roomMember => db.checkAdminMember env pdu
    | _ => .ok ()
  else .ok ()

/-- the event that a redaction names; other versions than in `redactionTarget` are refused here -/
def sentRedactionTarget (roomVersion : RoomVersionId) (pdu : PduEvent) :
    Except Error (Option EventId) :=
  match roomVersion with
  | .v11 =>
    match env.redactionContent pdu.content with
    | some redacts => .ok redacts
    | none => .error (.badDatabase "Invalid content in redaction pdu.")
  | .custom _ => .error (.badRequest .unsupportedRoomVersion "Unsupported room version")
  | _ => .ok pdu.redacts

def checkRedaction (db : Db) (pdu : PduEvent) : Except Error Unit :=
  if pdu.kind = .roomRedaction then do
    let roomVersion ← db.getRoomVersion env pdu.roomId
    match ← sentRedactionTarget env roomVersion pdu with
    | some redactId =>
      if ← db.userCanRedact env redactId pdu.sender pdu.roomId false then pure ()
      else .error (.badRequest .forbidden "User cannot redact this event.")
    | none => pure ()
  else .ok ()

/-! ## the send -/

/-- the servers that a new event goes to -/
def otherServers (db : Db) (pdu : PduEvent) : List ServerName :=
  let servers := (db.roomServers env pdu.roomId).filterMap Except.toOption
  -- in case of a kick or a ban the user's server is to know of it
  let target := if pdu.kind = .roomMember then pdu.stateKey.bind env.ids.userIdOfStr else none
  (servers ++ (target.map env.ids.serverName).toList).dedup.filter (fun s => s ≠ env.serverName)

/-- what happens before the event is appended: the short state hash it will have -/
def prepare (pdu : PduEvent) : RoomComp Nat := do
  let _ ← onState (StateDb.getOrCreateShorteventid pdu.eventId)
  Comp.reads (fun db => db.checkAdminRoom env pdu)
  Comp.reads (fun db => db.checkRedaction env pdu)
  onState (StateDb.appendToState env.ord pdu)

def sendPdu (pdu : PduEvent) (id : Bytes) : RoomComp Unit := do
  let servers ← Comp.gets (fun db => db.otherServers env pdu)
  queueRequests (servers.map (fun s => (.normal s, id)))

/-- `build_and_append_pdu` of a signed event -/
def buildAndAppendPdu (j : PduJson) : RoomComp EventId := do
  -- the event is appended to the state first, because `append_pdu` can't fail
  let statehashid ← prepare env j.pdu
  let id ← appendPdu env j [j.pdu.eventId]
  onState (StateDb.setRoomState j.pdu.roomId statehashid)
  sendPdu env j.pdu id
  pure j.pdu.eventId

/-! ## what an error leaves behind -/

/-- the tables that a failed append should not have touched -/
structure Untouched (db db' : Db) : Prop where
  rows : db'.timeline.pduidPdu = db.timeline.pduidPdu
  ids : db'.timeline.eventidPduid = db.timeline.eventidPduid
  leaves : db'.graph.roomidPduleaves = db.graph.roomidPduleaves
  referenced : db'.graph.referencedevents = db.graph.referencedevents

/-- an append that returns an error has done nothing -/
def AllOrNothing (db : Db) (j : PduJson) (leaves : List EventId) : Prop :=
  ∀ e db', appendPdu env j leaves db = (.error e, db') → e.isPanic = false → Untouched db db'

/-- the event is new in the timeline, its room's state has not moved, and no other server was sent
anything -/
structure Stray (db db' : Db) (e : EventId) : Prop where
  row : ∃ id, db.timeline.pduidPdu.get id = none ∧ (db'.timeline.pduidPdu.get id).isSome = true ∧
    db'.timeline.eventidPduid e = some id
  pointers : db'.state.roomidShortstatehash = db.state.roomidShortstatehash
  unsent : ∀ s id, (.normal s, id) ∈ db'.queue → (.normal s, id) ∈ db.queue

/-- a local send that returns an error leaves no stray event -/
def NoStray (db : Db) (j : PduJson) : Prop :=
  ∀ e db', buildAndAppendPdu env j db = (.error e, db') → e.isPanic = false →
    ¬ Stray db db' j.pdu.eventId

/-- the append does not panic -/
def Returns (db : Db) (j : PduJson) (leaves : List EventId) : Prop :=
  ∀ e db', appendPdu env j leaves db = (.error e, db') → e.isPanic = false

/-- the pointers stay, and only pushers and appservices are sent something -/
structure Unsent (db db' : Db) : Prop where
  pointers : db'.state.roomidShortstatehash = db.state.roomidShortstatehash
  queue : ∀ s id, (.normal s, id) ∈ db'.queue → (.normal s, id) ∈ db.queue

theorem blind_unsent : Blind Unsent := by
  refine .of_aside (fun _ _ _ h h' => ⟨h'.pointers.trans h.pointers, fun s id hq => h.queue s id (h'.queue s id hq)⟩)
    (fun _ _ => ⟨rfl, fun _ _ hq => hq⟩) fun _ _ _ _ _ _ _ _ hq => ⟨rfl, fun s id hmem => ?_⟩
  rcases hq _ hmem with hold | hlocal
  · exact hold
  · cases hlocal

theorem replacePdu_unsent (id : Bytes) (json : PduJson) (pdu : PduEvent) :
    Comp.Keeps Unsent (replacePdu id json pdu) := by
  intro db
  unfold replacePdu
  split
  · exact ⟨rfl, fun _ _ hq => hq⟩
  · exact blind_unsent.refl db

theorem afterInsert_unsent (pdu : PduEvent) (s : Nat) (id : Bytes) (count : Nat) :
    Comp.Keeps Unsent (afterInsert env pdu s id count) :=
  afterInsert_keeps blind_unsent env (fun _ _ => ⟨rfl, fun _ _ hq => hq⟩)
    (fun _ _ => ⟨rfl, fun _ _ hq => hq⟩) (fun _ _ => ⟨rfl, fun _ _ hq => hq⟩)
    (fun db i _ json p _ _ => replacePdu_unsent i json p db) pdu s id count

/-- the row that an append writes -/
def newId (db : Db) (s : Nat) : Bytes := pduId s (.normal (db.state.counter + 4))

/-- an append ends with a panic, or gets as far as the row -/
theorem appendPdu_run (db : Db) (j : PduJson) (leaves : List EventId) :
    (∃ e db', appendPdu env j leaves db = (.error e, db') ∧ e.isPanic = true) ∨
      ∃ s json, db.roomidShortroomid j.pdu.roomId = some s ∧ db.state.counter + 4 < 2^64 ∧
        db.stored env j leaves = db.withRow j.pdu json leaves s ∧
        appendPdu env j leaves db = (do
          afterInsert env j.pdu s (db.newId s) (db.state.counter + 4)
          pure (db.newId s) : RoomComp Bytes) (db.stored env j leaves) := by
  unfold stored
  cases hw : db.roomidShortroomid j.pdu.roomId with
  | none =>
    refine Or.inl ⟨.panic "room exists", db, ?_, rfl⟩
    unfold appendPdu
    rw [Comp.bind_ok (Comp.get_run db), hw]
    rfl
  | some s =>
    rw [appendPdu_room env hw leaves]
    rcases storePdu_run env db j leaves s with ⟨json, -, hlt, hrun⟩ | ⟨e, db', hrun, hpanic, -⟩
    · simp only [hrun]
      exact Or.inr ⟨s, json, rfl, hlt, rfl, Comp.bind_ok hrun⟩
    · exact Or.inl ⟨e, db', Comp.bind_error hrun, hpanic⟩

/-- an append that returns an error got as far as the row, and the rest refused -/
theorem appendPdu_error (h : appendPdu env j leaves db = (.error e, db')) (hp : e.isPanic = false) :
    ∃ s json, db.roomidShortroomid j.pdu.roomId = some s ∧ db.state.counter + 4 < 2^64 ∧
      db.stored env j leaves = db.withRow j.pdu json leaves s ∧
      afterInsert env j.pdu s (db.newId s) (db.state.counter + 4) (db.stored env j leaves)
        = (.error e, db') := by
  rcases appendPdu_run env db j leaves with ⟨e', db₁, hrun, hpanic⟩ | ⟨s, json, hw, hlt, hstored, hrun⟩
  · rw [hrun] at h
    cases h
    rw [hpanic] at hp
    cases hp
  · rw [hrun] at h
    rcases Comp.bind_eq_error.mp h with h | ⟨_, _, _, h⟩
    · exact ⟨s, json, hw, hlt, hstored, h⟩
    · cases h

/-- an append that ends well has stored the row and gone through the rest -/
theorem appendPdu_ok {id : Bytes} (h : appendPdu env j leaves db = (.ok id, db')) :
    ∃ s, db.roomidShortroomid j.pdu.roomId = some s ∧
      afterInsert env j.pdu s (db.newId s) (db.state.counter + 4) (db.stored env j leaves)
        = (.ok (), db') := by
  rcases appendPdu_run env db j leaves with ⟨e, db₁, hrun, -⟩ | ⟨s, -, hw, -, -, hrun⟩
  · rw [hrun] at h
    cases h
  · rw [hrun] at h
    obtain ⟨_, _, hafter, h⟩ := Comp.bind_eq_ok.mp h
    cases h
    exact ⟨s, hw, hafter⟩

/-- an accepted event is not refused -/
theorem appendPdu_not_refuses (h : Accepts env (db.stored env j leaves) j.pdu) :
    ¬ Refuses (appendPdu env j leaves) db := by
  intro hf
  obtain ⟨e, db', he, hp⟩ := hf
  obtain ⟨s, json, _, _, _, hafter⟩ := appendPdu_error env he hp
  exact afterInsert_not_refuses env h s _ _ ⟨e, db', hafter, hp⟩

/-- a call that returns and refuses nothing has accepted the event -/
theorem accepts_of_not_refuses (hret : Returns env db j leaves) (h : ¬ Refuses (appendPdu env j leaves) db) :
    Accepts env (db.stored env j leaves) j.pdu := by
  cases hrun : appendPdu env j leaves db with
  | mk r db' =>
    cases r with
    | error e => exact absurd ⟨e, db', hrun, hret e db' hrun⟩ h
    | ok id =>
      obtain ⟨s, _, hafter⟩ := appendPdu_ok env hrun
      exact afterInsert_ok env hafter

/-- a refused event has its new row, and its room's pointer and the other servers know nothing of
it -/
theorem appendPdu_stray (hs : Sound db) (h : appendPdu env j leaves db = (.error e, db'))
    (hp : e.isPanic = false) :
    Stray db db' j.pdu.eventId := by
  obtain ⟨s, json, hw, hlt, hstored, hafter⟩ := appendPdu_error env h hp
  have hrows := afterInsert_sameRows env j.pdu s (db.newId s) (db.state.counter + 4)
    (db.stored env j leaves)
  have hunsent := afterInsert_unsent env j.pdu s (db.newId s) (db.state.counter + 4)
    (db.stored env j leaves)
  rw [hafter, hstored] at hrows hunsent
  refine ⟨⟨db.newId s, ?_, ?_, ?_⟩, hunsent.pointers, hunsent.queue⟩
  · refine hs.fresh hw ⟨by omega, hlt⟩ ?_
    show db.state.counter < db.state.counter + 4
    omega
  · rw [hrows.rows]
    show ((db.timeline.pduidPdu.insert (db.newId s) json).get (db.newId s)).isSome = true
    rw [Tree.get_insert_self]
    rfl
  · rw [hrows.ids]
    exact Function.update_self _ _ _

theorem Stray.not_untouched {e : EventId} (h : Stray db db' e) : ¬ Untouched db db' := by
  intro hu
  obtain ⟨id, hnone, hsome, _⟩ := h.row
  rw [hu.rows, hnone] at hsome
  cases hsome

/-- only the tables of the state move, and they keep the pointers -/
def OnlyState (db db' : Db) : Prop :=
  StateDb.Later db.state db'.state ∧ db' = { db with state := db'.state }

theorem OnlyState.refl (db : Db) : OnlyState db db := ⟨StateDb.Later.refl _, rfl⟩

theorem OnlyState.trans (a b c : Db) (h : OnlyState a b) (h' : OnlyState b c) : OnlyState a c := by
  refine ⟨StateDb.Later.trans _ _ _ h.1 h'.1, ?_⟩
  rw [h'.2, h.2]

theorem onState_onlyState {α : Type} {x : StateComp α} (hx : Comp.Keeps StateDb.Later x) :
    Comp.Keeps OnlyState (onState x) := fun db => ⟨hx db.state, rfl⟩

theorem prepare_onlyState (pdu : PduEvent) : Comp.Keeps OnlyState (prepare env pdu) := by
  have hread : ∀ f : Db → Except Error Unit, Comp.Keeps OnlyState (Comp.reads f) := fun f =>
    Comp.Keeps.of_read OnlyState.refl fun _ => rfl
  have ht := OnlyState.trans
  exact Comp.Keeps.bind ht (onState_onlyState (StateDb.getOrCreateShorteventid_later _)) fun _ =>
    Comp.Keeps.bind ht (hread _) fun _ => Comp.Keeps.bind ht (hread _) fun _ =>
      onState_onlyState (StateDb.appendToState_later env.ord pdu)

theorem OnlyState.sound (h : OnlyState db db') (hs : Sound db) : Sound db' := by
  refine hs.congr h.1.counter (h.1.counter_lt hs.counter_lt) ?_ ?_
  · rw [h.2]
  · rw [h.2]

theorem OnlyState.not_stray (h : OnlyState db db') (e : EventId) : ¬ Stray db db' e := by
  intro hs
  obtain ⟨id, hnone, hsome, _⟩ := hs.row
  rw [h.2] at hsome
  change (db.timeline.pduidPdu.get id).isSome = true at hsome
  rw [hnone] at hsome
  cases hsome

theorem OnlyState.then_stray {a b c : Db} {e : EventId} (h : OnlyState a b) (hs : Stray b c e) :
    Stray a c e := by
  obtain ⟨id, hnone, hsome, hid⟩ := hs.row
  have hq : b.queue = a.queue := by rw [h.2]
  have hr : b.timeline = a.timeline := by rw [h.2]
  refine ⟨⟨id, ?_, hsome, hid⟩, hs.pointers.trans h.1.pointers, fun s k hk => ?_⟩
  · rw [← hr]
    exact hnone
  · rw [← hq]
    exact hs.unsent s k hk

/-- a send fails in the checks or in the append, and not behind it -/
theorem buildAndAppendPdu_error (h : buildAndAppendPdu env j db = (.error e, db')) :
    prepare env j.pdu db = (.error e, db') ∨ ∃ s db₁, prepare env j.pdu db = (.ok s, db₁) ∧
      appendPdu env j [j.pdu.eventId] db₁ = (.error e, db') := by
  rcases Comp.bind_eq_error.mp h with h | ⟨s, db₁, h1, h⟩
  · exact Or.inl h
  · rcases Comp.bind_eq_error.mp h with h | ⟨id, db₂, _, h⟩
    · exact Or.inr ⟨s, db₁, h1, h⟩
    · cases h

/-- what the append refuses, the send leaves stray -/
theorem buildAndAppendPdu_stray {db₁ : Db} (hs : Sound db) {s : Nat} (h1 : prepare env j.pdu db = (.ok s, db₁))
    (h2 : appendPdu env j [j.pdu.eventId] db₁ = (.error e, db')) (hp : e.isPanic = false) :
    buildAndAppendPdu env j db = (.error e, db') ∧ Stray db db' j.pdu.eventId := by
  have hprep := prepare_onlyState env j.pdu db
  rw [h1] at hprep
  refine ⟨?_, hprep.then_stray (appendPdu_stray env (hprep.sound hs) h2 hp)⟩
  unfold buildAndAppendPdu
  rw [Comp.bind_ok h1, Comp.bind_error h2]

/-! ## all or nothing -/

/-- an append is all or nothing, and a local send leaves no stray event, if the event is accepted
by the time of the call; and of the calls that return, no other is -/
theorem appendPdu_allOrNothing_iff {db : Db} (h : Reachable db) (j : PduJson)
    (leaves : List EventId) :
    (Accepts env (db.stored env j leaves) j.pdu → AllOrNothing env db j leaves) ∧
    (Returns env db j leaves → AllOrNothing env db j leaves →
      Accepts env (db.stored env j leaves) j.pdu) ∧
    ((∀ s db₁, prepare env j.pdu db = (.ok s, db₁) →
      Accepts env (db₁.stored env j [j.pdu.eventId]) j.pdu) → NoStray env db j) ∧
    (NoStray env db j → ∀ s db₁, prepare env j.pdu db = (.ok s, db₁) →
      Returns env db₁ j [j.pdu.eventId] → Accepts env (db₁.stored env j [j.pdu.eventId]) j.pdu) := by
  refine ⟨fun hok e db' he hp => ?_, fun hret hall => ?_, fun hok e db' he hp => ?_,
    fun hno s db₁ h1 hret => ?_⟩
  · exact absurd ⟨e, db', he, hp⟩ (appendPdu_not_refuses env hok)
  · refine accepts_of_not_refuses env hret fun hf => ?_
    obtain ⟨e, db', he, hp⟩ := hf
    exact (appendPdu_stray env h.sound he hp).not_untouched (hall e db' he hp)
  · rcases buildAndAppendPdu_error env he with h1 | ⟨s, db₁, h1, happ⟩
    · have hprep := prepare_onlyState env j.pdu db
      rw [h1] at hprep
      exact hprep.not_stray _
    · exact absurd ⟨e, db', happ, hp⟩ (appendPdu_not_refuses env (hok s db₁ h1))
  · refine accepts_of_not_refuses env hret fun hf => ?_
    obtain ⟨e, db', he, hp⟩ := hf
    obtain ⟨hrun, hstray⟩ := buildAndAppendPdu_stray env h.sound h1 he hp
    exact hno e db' hrun hp hstray

/-! ## a room -/

theorem Reachable.build (h : Reachable db) (j : PduJson) :
    Reachable (buildAndAppendPdu env j db).2 := by
  have hprep := prepare_onlyState env j.pdu db
  have hafter : Reachable (prepare env j.pdu db).2 := by
    refine h.other hprep.1.counter (hprep.1.counter_lt h.sound.counter_lt) ?_ ?_
    · rw [hprep.2]
    · rw [hprep.2]
  unfold buildAndAppendPdu
  cases h1 : prepare env j.pdu db with
  | mk r db₁ =>
    rw [h1] at hafter
    cases r with
    | error e =>
      rw [Comp.bind_error h1]
      exact hafter
    | ok s =>
      rw [Comp.bind_ok h1]
      have happ := hafter.append env j [j.pdu.eventId]
      cases h2 : appendPdu env j [j.pdu.eventId] db₁ with
      | mk r db₂ =>
        rw [h2] at happ
        cases r with
        | error e =>
          rw [Comp.bind_error h2]
          exact happ
        | ok id =>
          rw [Comp.bind_ok h2]
          exact happ.other (le_refl _) happ.sound.counter_lt rfl rfl

namespace Sends

def room : RoomId := ⟨.ascii "!r:x"⟩
def alice : UserId := ⟨.ascii "@alice:x"⟩

def event (e : String) (kind : EventType) (content : JsonObject) (stateKey : Option String)
    (prev : List EventId) : PduJson :=
  ⟨[], ⟨⟨.ascii e⟩, room, alice, 0, kind, content, stateKey, prev, 0, [], none, none⟩⟩

def create : PduJson := event "$create" .roomCreate [] (some "") []

def join : PduJson :=
  event "$join" .roomMember [("membership", .str "join")] (some "@alice:x") [create.pdu.eventId]

/-- alice has created the room and joined it -/
def store : Db :=
  (buildAndAppendPdu .plain join (buildAndAppendPdu .plain create
    (getOrCreateShortroomid room empty).2).2).2

theorem reachable_store : Reachable store := .build _ (.build _ (.room _ .empty) _) _

def message (body : Json) : PduJson :=
  event "$message" .roomMessage [("body", body)] none [join.pdu.eventId]

/-- a body that is not a string -/
def broken : PduJson := message (.num 1)

/-- what is computed of a message that is taken, and of the broken one -/
theorem broken_computed : (appendPdu .plain (message (.str "hi")) [] store).1.toBool = true ∧
    (prepare .plain broken.pdu store).1.toBool = true ∧
    (appendPdu .plain broken [broken.pdu.eventId] store).1 = .error (.badDatabase "Invalid content in pdu.") ∧
    (buildAndAppendPdu .plain broken store).1 = .error (.badDatabase "Invalid content in pdu.") := by decide +kernel

end Sends

/-- a message with a body is accepted -/
theorem appendPdu_allOrNothing_iff_message :
    Accepts .plain (Sends.store.stored .plain (Sends.message (.str "hi")) [])
      (Sends.message (.str "hi")).pdu := by
  have hok : ∀ e db', appendPdu .plain (Sends.message (.str "hi")) [] Sends.store ≠ (.error e, db') := by
    intro e db' he
    have h := Sends.broken_computed.1
    rw [he] at h
    cases h
  exact (appendPdu_allOrNothing_iff .plain Sends.reachable_store (Sends.message (.str "hi")) []).2.1
    (fun e db' he => absurd he (hok e db')) (fun e db' he => absurd he (hok e db'))

/-- a message whose body is a number is refused, and stays -/
theorem appendPdu_leaves_row :
    Reachable Sends.store ∧ ¬ AllOrNothing .plain Sends.store Sends.broken [Sends.broken.pdu.eventId] ∧
      ¬ NoStray .plain Sends.store Sends.broken := by
  refine ⟨Sends.reachable_store, fun hall => ?_, fun hno => ?_⟩
  · obtain ⟨db', hrun⟩ := Comp.exists_run Sends.broken_computed.2.2.1
    exact (appendPdu_stray .plain Sends.reachable_store.sound hrun rfl).not_untouched
      (hall _ db' hrun rfl)
  · obtain ⟨db', hrun⟩ := Comp.exists_run Sends.broken_computed.2.2.2
    rcases buildAndAppendPdu_error .plain hrun with h1 | ⟨s, db₁, h1, h2⟩
    · have h := Sends.broken_computed.2.1
      rw [h1] at h
      cases h
    · exact hno _ db' hrun rfl (buildAndAppendPdu_stray .plain Sends.reachable_store.sound h1 h2 rfl).2

end Db
end Grapevine
