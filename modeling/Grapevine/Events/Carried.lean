import Grapevine.Events.Told
import Grapevine.Rooms.CurrentState
import Grapevine.Rooms.Isolation
import Grapevine.Rooms.Seats

/-!
# What the calls carry along

What a room's state makes of an event goes with the id of the event (`Gist`), as long as every event
comes under its own id.  The calls on a room keep what is known so, and most parts of them move no seat and
point no room to another state.

* `Ready`     rows, stored events and stored states are in order;
* `Kept`      they are in order still, and what was stored is;
* `Carried`   besides, no room was pointed elsewhere, and only seats that `may` were given or taken;
* `carries_blind`, `carries_fetching`   the parts that are walked through elsewhere;
* `appendPdu_carries`   an append of an event that comes under its own id.
-/

namespace Grapevine
open Kv

/-- what a state makes of an event: the key that it stands under, its sender, and its membership if it is one -/
structure Gist where
  key : Option (EventType × String)
  sender : UserId
  membership : Option MembershipState

def PduEvent.gist (pdu : PduEvent) : Gist where
  key := pdu.stateKey.map (fun stateKey => (pdu.kind, stateKey))
  sender := pdu.sender
  membership := if pdu.kind = .roomMember then extractMembership pdu.content else none

/-- a redaction leaves a membership what it is -/
def KeepsMembership (env : Env) : Prop :=
  ∀ content v redacted, env.redactContentInPlace content v .roomMember = some redacted →
    extractMembership redacted = extractMembership content

theorem gist_revises {p q : PduEvent} (hr : Db.Revises p q) (hc : q.content = p.content) : q.gist = p.gist := by
  unfold Db.Revises at hr
  unfold PduEvent.gist
  rw [hr, hc]

theorem gist_redrafts {env : Env} (henv : KeepsMembership env) {p q : PduEvent} (h : Db.Redrafts env p q) :
    q.gist = p.gist := by
  obtain ⟨hr, hc | ⟨v, hc⟩⟩ := h
  · exact gist_revises hr hc
  · unfold Db.Revises at hr
    unfold PduEvent.gist
    rw [hr]
    by_cases hk : p.kind = .roomMember
    · rw [hk] at hc
      simp only [hk, if_true]
      rw [henv _ _ _ hc]
    · simp only [if_neg hk]

namespace Db
open StateDb (Intact Wider Widens Extends NumbersGrow)

variable (env : Env) (own : EventId → Gist)
variable {pdu : PduEvent} {j : PduJson} {u : UserId}

/-- rows, stored events and stored states are in order -/
structure Ready (db : Db) : Prop where
  sound : Sound db
  told : Told PduEvent.gist own db.timeline
  intact : Intact env.digest db.state

structure Kept (db db' : Db) : Prop where
  ready : Ready env own db'
  stays : ∀ e, HasPdu db.timeline e → HasPdu db'.timeline e
  rows : Extends db.state.shortstatehashStatediff db'.state.shortstatehashStatediff
  numbers : NumbersGrow db.state db'.state

/-- the seats that `may` change, and no others -/
structure Carried (may : UserId → RoomId → Prop) (db db' : Db) : Prop extends Kept env own db db' where
  pointers : db'.state.roomidShortstatehash = db.state.roomidShortstatehash
  seats : ∀ u r, ¬ may u r → db'.members.isJoined u r = db.members.isJoined u r
  ignored : SameIgnored db.accounts db'.accounts

/-- the same as a relation on stores that are in order, with the short id of the room `a` -/
def Carries (a : RoomId) (s : Option Nat) (may : UserId → RoomId → Prop) (db db' : Db) : Prop :=
  db.roomidShortroomid a = s → Ready env own db →
    Carried env own may db db' ∧ db'.roomidShortroomid = db.roomidShortroomid

/-- no seat changes -/
def noSeat (_ : UserId) (_ : RoomId) : Prop := False

variable {env own} {may : UserId → RoomId → Prop} {a : RoomId} {s : Option Nat} {db db' : Db}

theorem Kept.trans {x y z : Db} (h : Kept env own x y) (h' : Kept env own y z) : Kept env own x z :=
  ⟨h'.ready, fun e he => h'.stays e (h.stays e he), h.rows.trans h'.rows, .trans _ _ _ h.numbers h'.numbers⟩

theorem Carried.trans {x y z : Db} (h : Carried env own may x y) (h' : Carried env own may y z) :
    Carried env own may x z where
  toKept := h.toKept.trans h'.toKept
  pointers := h'.pointers.trans h.pointers
  seats u r hn := (h'.seats u r hn).trans (h.seats u r hn)
  ignored u := (h'.ignored u).trans (h.ignored u)

theorem Carried.wider (h : Carried env own may db db') : Wider env.digest db.state db'.state :=
  ⟨h.ready.intact, h.pointers, h.rows, h.numbers⟩

theorem Carried.mono {may' : UserId → RoomId → Prop} (h : Carried env own may db db')
    (hm : ∀ u r, may u r → may' u r) : Carried env own may' db db' :=
  { h with seats := fun u r hn => h.seats u r fun hmay => hn (hm u r hmay) }

theorem Carried.refl (h : Ready env own db) : Carried env own may db db where
  ready := h
  stays _ he := he
  rows _ _ hv := hv
  numbers := .refl _
  pointers := rfl
  seats _ _ _ := rfl
  ignored _ := rfl

/-- what was read of a room's state is read still -/
theorem Carried.current_iff (h : Carried env own may db db') (hr : Ready env own db) (r : RoomId)
    (key : EventType × String) (e : EventId) :
    StateDb.Stands db'.state r key e ↔ StateDb.Stands db.state r key e := h.wider.current_iff hr.intact r key e

/-! ## writes to the other tables -/

theorem Carries.of_same (hs : db'.state = db.state) (hw : db'.roomidShortroomid = db.roomidShortroomid)
    (ht : db'.timeline = db.timeline)
    (hm : ∀ u r, ¬ may u r → db'.members.isJoined u r = db.members.isJoined u r)
    (ha : SameIgnored db.accounts db'.accounts) : Carries env own a s may db db' := by
  intro _ hr
  have hready : Ready env own db' := by
    refine ⟨hr.sound.congr (by rw [hs]) (by rw [hs]; exact hr.sound.counter_lt) hw (by rw [ht]), ?_, ?_⟩
    · rw [ht]
      exact hr.told
    · rw [hs]
      exact hr.intact
  refine ⟨⟨⟨hready, ?_, ?_, ?_⟩, by rw [hs], hm, ha⟩, hw⟩
  · rw [ht]
    exact fun _ he => he
  · rw [hs]
    exact fun _ _ hv => hv
  · rw [hs]
    exact .refl _

theorem Carries.of_tables (hs : db'.state = db.state) (hw : db'.roomidShortroomid = db.roomidShortroomid)
    (ht : db'.timeline = db.timeline) (hm : db'.members = db.members) (ha : db'.accounts = db.accounts) :
    Carries env own a s may db db' :=
  .of_same hs hw ht (fun _ _ _ => by rw [hm]) fun _ => by rw [ha]

theorem Carries.of_state {σ : StateDb} (hl : StateDb.Later db.state σ) (hw : Widens env.digest db.state σ) :
    Carries env own a s may db { db with state := σ } := by
  intro _ hr
  have hwider := hw hr.intact
  refine ⟨⟨⟨⟨?_, hr.told, hwider.intact⟩, fun _ he => he, hwider.rows, hwider.numbers⟩, hwider.pointers,
    fun _ _ _ => rfl, fun _ => rfl⟩, rfl⟩
  exact hr.sound.congr hl.counter (hl.counter_lt hr.sound.counter_lt) rfl rfl

theorem onState_carries {α : Type} {x : StateComp α} (hl : Comp.Keeps StateDb.Later x)
    (hw : Comp.Keeps (Widens env.digest) x) : Comp.Keeps (Carries env own a s may) (onState x) := fun db =>
  .of_state (hl db.state) (hw db.state)

theorem carries_refl (db : Db) : Carries env own a s may db db := .of_tables rfl rfl rfl rfl rfl

theorem carries_trans (x y z : Db) (h : Carries env own a s may x y) (h' : Carries env own a s may y z) :
    Carries env own a s may x z := by
  intro hw hr
  obtain ⟨hc, hwords⟩ := h hw hr
  obtain ⟨hc', hwords'⟩ := h' (by rw [hwords]; exact hw) hc.ready
  exact ⟨hc.trans hc', hwords'.trans hwords⟩

theorem carries_blind : Blind (Carries env own a s may) := by
  refine .of_aside carries_trans (fun db hlt => ?_) fun _ _ _ _ _ _ _ _ _ => .of_tables rfl rfl rfl rfl rfl
  have hcount : Carries env own a s may db (onState StateDb.nextCount db).2 :=
    onState_carries StateDb.nextCount_later StateDb.nextCount_widens db
  have hrun : StateDb.nextCount db.state = (.ok (db.state.counter + 1),
      { db.state with counter := db.state.counter + 1 }) := by
    unfold StateDb.nextCount
    rw [if_pos hlt]
  unfold onState at hcount
  rw [hrun] at hcount
  exact hcount

theorem carries_fetching : Fetching (Carries env own a s may) where
  refl := carries_refl
  trans := carries_trans
  short db e := onState_carries (StateDb.getOrCreateShorteventid_later e)
    (StateDb.getOrCreateShorteventid_widens e) db
  chains _ _ _ := .of_tables rfl rfl rfl rfl rfl
  shortkey db ty sk := onState_carries (StateDb.getOrCreateShortstatekey_later ty sk)
    (StateDb.getOrCreateShortstatekey_widens ty sk) db
  ratelimiter _ _ := .of_tables rfl rfl rfl rfl rfl
  ticks _ _ := .of_tables rfl rfl rfl rfl rfl

/-- a part of a call, taken on its own -/
theorem carries_run {α : Type} {x : RoomComp α} (hx : Comp.Keeps (Carries env own a s may) x) {o : Except Error α}
    (h : x db = (o, db')) (hw : db.roomidShortroomid a = s) (hr : Ready env own db) :
    Carried env own may db db' ∧ db'.roomidShortroomid = db.roomidShortroomid := by
  have hc := hx db
  rw [h] at hc
  exact hc hw hr

/-- a part that does not ask for a short id -/
theorem carried_run {α : Type} {x : RoomComp α} (hx : ∀ a s, Comp.Keeps (Carries env own a s may) x)
    {o : Except Error α} (h : x db = (o, db')) (hr : Ready env own db) : Carried env own may db db' :=
  (carries_run (hx ⟨.ascii ""⟩ _) h rfl hr).1

theorem onState_ok {α : Type} {x : StateComp α} {a : α} (h : onState x db = (.ok a, db')) :
    x db.state = (.ok a, db'.state) := by
  unfold onState at h
  obtain ⟨ho, rfl⟩ := Prod.mk.inj h
  exact Prod.ext ho rfl

theorem onState_carried {α : Type} {x : StateComp α} (hl : StateDb.Later db.state (x db.state).2)
    (hw : Widens env.digest db.state (x db.state).2) {o : Except Error α} (h : onState x db = (o, db'))
    (hr : Ready env own db) : Carried env own may db db' := by
  obtain rfl : { db with state := (x db.state).2 } = db' := (Prod.mk.inj h).2
  have hc : Carries env own ⟨.ascii ""⟩ (db.roomidShortroomid ⟨.ascii ""⟩) may db
      { db with state := (x db.state).2 } := .of_state hl hw
  exact (hc rfl hr).1

/-- such a part, and what comes behind it -/
theorem carried_step {α β : Type} {x : RoomComp α} {f : α → RoomComp β} {Q : β → Db → Prop} {R : Error → Db → Prop}
    (hx : ∀ a s, Comp.Keeps (Carries env own a s may) x) (hr : Ready env own db)
    (hok : ∀ a db₁, x db = (.ok a, db₁) → Carried env own may db db₁ → Comp.Ends (f a) db₁ Q R)
    (herror : ∀ e db₁, Carried env own may db db₁ → R e db₁) : Comp.Ends (x >>= f) db Q R :=
  .step (fun a db₁ h => hok a db₁ h (carried_run hx h hr)) fun e db₁ h => herror e db₁ (carried_run hx h hr)

/-! ## seats -/

theorem updateMembership_carries {r : RoomId} (hmay : may u r) (membership : MembershipState) (sender : UserId)
    (lastState : Option (List Json)) (updateCount : Bool) :
    Comp.Keeps (Carries env own a s may) (updateMembership env r u membership sender lastState updateCount) :=
  updateMembership_keeps_of carries_blind env (fun _ _ ht => .of_same rfl rfl rfl (fun _ _ _ => rfl) ht)
    (fun _ _ ht => .of_same rfl rfl rfl (fun v q hn => ht v q fun h => hn (by rw [h.1, h.2]; exact hmay))
      fun _ => rfl) membership sender lastState updateCount

/-! ## stored events -/

theorem addPduOutlier_carries {e : EventId} (hj : j.pdu.gist = own e) (db : Db) :
    Carries env own a s may db { db with timeline := db.timeline.addPduOutlier e j } := by
  intro _ hr
  refine ⟨⟨⟨⟨?_, hr.told.addPduOutlier hj, hr.intact⟩, fun _ he => hasPdu_addPduOutlier.mpr (Or.inl he),
    fun _ _ hv => hv, .refl _⟩, rfl, fun _ _ _ => rfl, fun _ => rfl⟩, rfl⟩
  exact hr.sound.congr (Nat.le_refl _) hr.sound.counter_lt rfl rfl

theorem replacePdu_carries (henv : KeepsMembership env) {id : Bytes} {v json : PduJson} (pdu : PduEvent)
    (hv : db.timeline.pduidPdu.get id = some v) (hr : Redrafts env v.pdu json.pdu) :
    Carries env own a s may db (replacePdu id json pdu db).2 := by
  intro _ h
  have htold := h.told.replacePdu pdu hv hr.1.eventId (gist_redrafts henv hr)
  have hstays := fun e => (hasPdu_replacePdu hv json pdu e).mpr
  rw [replacePdu_run hv] at htold hstays ⊢
  exact ⟨⟨⟨⟨h.sound.replaceRow hv rfl rfl rfl, htold, h.intact⟩, hstays, fun _ _ hv => hv, .refl _⟩, rfl,
    fun _ _ _ => rfl, fun _ => rfl⟩, rfl⟩

section
variable {pdu : PduEvent} {stored : PduJson} {shortroomid : Nat}

/-- a count is drawn, and the row of the event is inserted under it -/
theorem newRow_carries (hid : stored.pdu.eventId = pdu.eventId) (hown : stored.pdu.gist = own pdu.eventId) :
    Comp.Keeps (Carries env own a (some shortroomid) may) (do
      let count ← nextCount
      onTimeline (fun t => t.appendPdu (pduId shortroomid (.normal count)) pdu stored count)
      pure (pduId shortroomid (.normal count), count) : RoomComp (Bytes × Nat)) := by
  intro db
  by_cases hlt : db.state.counter + 1 < 2^64
  · rw [Comp.bind_ok (nextCount_run hlt)]
    intro hw hr
    have hcount : Carries env own a (some shortroomid) may db { db with
      state := { db.state with counter := db.state.counter + 1 } } := carries_blind.count db hlt
    obtain ⟨hcount, -⟩ := hcount hw hr
    have hvalid : PduCount.Valid (.normal (db.state.counter + 1)) := ⟨Nat.succ_pos _, hlt⟩
    have hfresh := hr.sound.fresh hw hvalid (Nat.lt_succ_self _)
    have hsound : Sound { db with
      state := { db.state with counter := db.state.counter + 1 }
      timeline := db.timeline.appendPdu (pduId shortroomid (.normal (db.state.counter + 1))) pdu stored
        (db.state.counter + 1) } := hr.sound.newRow hlt hw hvalid rfl stored rfl rfl rfl
    exact ⟨⟨⟨⟨hsound, hr.told.appendPdu hfresh hid hown _, hcount.ready.intact⟩,
      fun e he => (hasPdu_appendPdu e).mpr (Or.inl he), hcount.rows, hcount.numbers⟩, rfl,
      fun _ _ _ => rfl, fun _ => rfl⟩, rfl⟩
  · rw [Comp.bind_error (nextCount_overflow hlt)]
    exact carries_refl db

end

variable (env) in
theorem storePdu_carries (hj : j.pdu.gist = own j.pdu.eventId) (leaves : List EventId) (shortroomid : Nat) :
    Comp.Keeps (Carries env own a (some shortroomid) may) (storePdu env j leaves shortroomid) := by
  have hb : Blind (Carries env own a (some shortroomid) may) := carries_blind
  intro db
  refine Comp.keeps_bind_at hb.trans (hb.refl db) fun stored db₁ h1 => ?_
  obtain ⟨unsigned, hpdu⟩ := correctUnsigned_pdu env (Prod.mk.inj h1).1
  have hid : stored.pdu.eventId = j.pdu.eventId := by rw [hpdu]
  have hown : stored.pdu.gist = own j.pdu.eventId := by
    rw [← hj, hpdu]
    rfl
  have hwrites : Comp.Keeps (Carries env own a (some shortroomid) may) (do
      markAsReferenced j.pdu.roomId j.pdu.prevEvents
      setForwardExtremities j.pdu.roomId leaves
      insertPdu stored j.pdu shortroomid) :=
    hb.bind (Comp.Keeps.modify fun _ => .of_tables rfl rfl rfl rfl rfl) fun _ =>
      hb.bind (Comp.Keeps.modify fun _ => .of_tables rfl rfl rfl rfl rfl) fun _ =>
      hb.bind (nextCount_keeps hb) fun _ => hb.bind (privateReadSet_keeps hb _ _ _) fun _ =>
      hb.bind (resetNotificationCounts_keeps hb _ _) fun _ => newRow_carries hid hown
  exact hwrites db₁

/-! ## an append -/

/-- what a state event makes of the seat of the user -/
def seat (env : Env) (db : Db) (g : Gist) (u : UserId) : Option Bool :=
  if g.key = some (.roomMember, env.ids.userIdStr u) then g.membership.bind (fun m => db.seatOf env u m g.sender)
  else none

theorem seat_congr (h : SameIgnored db.accounts db'.accounts) (g : Gist) (u : UserId) :
    seat env db' g u = seat env db g u := by
  have hseat : ∀ m, db'.seatOf env u m g.sender = db.seatOf env u m g.sender := fun m =>
    seatOf_congr env h u m g.sender
  unfold seat
  simp only [hseat]

/-- the user whom a member event is about -/
def about (env : Env) (g : Gist) (r : RoomId) (u : UserId) (q : RoomId) : Prop :=
  g.key = some (.roomMember, env.ids.userIdStr u) ∧ q = r

theorem gist_key {ty : EventType} {stateKey : String} :
    pdu.gist.key = some (ty, stateKey) ↔ pdu.kind = ty ∧ pdu.stateKey = some stateKey := by
  unfold PduEvent.gist
  cases pdu.stateKey with
  | none => exact iff_of_false nofun fun h => nomatch h.2
  | some k =>
    show some (pdu.kind, k) = some (ty, stateKey) ↔ _
    rw [Option.some_inj, Prod.mk.injEq, Option.some_inj]

theorem gist_membership (h : pdu.kind = .roomMember) :
    pdu.gist.membership = extractMembership pdu.content := if_pos h

section
variable (henv : KeepsMembership env)
variable {leaves : List EventId} {shortroomid : Nat} {x : Unit}
include henv

omit henv in
theorem applyMember_carries (hkind : pdu.kind = .roomMember) :
    Comp.Keeps (Carries env own a s (about env pdu.gist pdu.roomId)) (applyMember env pdu) := by
  refine applyMember_keeps_of carries_blind env fun stateKey u membership state hk hu => ?_
  refine updateMembership_carries ⟨gist_key.mpr ⟨hkind, ?_⟩, rfl⟩ membership _ _ _
  rw [env.ids.userIdStr_of stateKey u hu, hk]

theorem applyKind_carries (shortroomid : Nat) (id : Bytes) :
    Comp.Keeps (Carries env own a s (about env pdu.gist pdu.roomId)) (applyKind env pdu shortroomid id) :=
  applyKind_keeps_of carries_blind env (fun _ _ => .of_tables rfl rfl rfl rfl rfl)
    (fun _ _ _ _ pdu hv hr => replacePdu_carries henv pdu hv hr) applyMember_carries shortroomid id

theorem afterInsert_carries (shortroomid : Nat) (id : Bytes) (count : Nat) :
    Comp.Keeps (Carries env own a s (about env pdu.gist pdu.roomId)) (afterInsert env pdu shortroomid id count) :=
  afterInsert_keeps_of carries_blind env (fun _ _ => .of_tables rfl rfl rfl rfl rfl)
    (fun _ _ _ _ pdu hv hr => replacePdu_carries henv pdu hv hr) applyMember_carries shortroomid id count

theorem appendPdu_carries (hj : j.pdu.gist = own j.pdu.eventId) (leaves : List EventId) (db : Db) :
    Carries env own j.pdu.roomId (db.roomidShortroomid j.pdu.roomId) (about env j.pdu.gist j.pdu.roomId) db
      (appendPdu env j leaves db).2 := by
  unfold appendPdu
  rw [Comp.bind_ok (Comp.get_run db)]
  cases hw : db.roomidShortroomid j.pdu.roomId with
  | none => exact carries_refl db
  | some shortroomid =>
    exact carries_blind.bind (storePdu_carries env hj leaves shortroomid) (fun row =>
      carries_blind.bind (afterInsert_carries henv shortroomid row.1 row.2) fun _ => carries_blind.pure row.1) db

theorem appendPdu_carried (hj : j.pdu.gist = own j.pdu.eventId) {o : Except Error Bytes}
    (h : appendPdu env j leaves db = (o, db')) (hr : Ready env own db) :
    Carried env own (about env j.pdu.gist j.pdu.roomId) db db' := by
  have hc := appendPdu_carries henv hj leaves db
  rw [h] at hc
  exact (hc rfl hr).1

omit henv in
/-- the seat behind the kind of the event -/
theorem applyKind_seat (hkey : pdu.gist.key = some (.roomMember, env.ids.userIdStr u)) {id : Bytes}
    (h : applyKind env pdu shortroomid id db = (.ok x, db')) :
    db'.members.isJoined u pdu.roomId = (seat env db pdu.gist u).getD (db.members.isJoined u pdu.roomId) := by
  obtain ⟨hkind, hk⟩ := gist_key.mp hkey
  unfold applyKind at h
  rw [hkind] at h
  obtain ⟨v, membership, hv, hm, hseat⟩ := applyMember_seat env hk h
  rw [env.ids.userIdOfStr_str] at hv
  cases hv
  unfold seat
  rw [if_pos hkey, gist_membership hkind, hm]
  exact hseat

theorem afterInsert_seat (hkey : pdu.gist.key = some (.roomMember, env.ids.userIdStr u)) {id : Bytes}
    {count : Nat} (hw : db.roomidShortroomid a = s) (hr : Ready env own db)
    (h : afterInsert env pdu shortroomid id count db = (.ok x, db')) :
    db'.members.isJoined u pdu.roomId = (seat env db pdu.gist u).getD (db.members.isJoined u pdu.roomId) := by
  have hb : Blind (Carries env own a s noSeat) := carries_blind
  obtain ⟨_, db₁, hpush, h⟩ := Comp.bind_eq_ok.mp h
  obtain ⟨_, db₂, hkind, h⟩ := Comp.bind_eq_ok.mp h
  obtain ⟨hc₁, hw₁⟩ := carries_run (pushPdu_keeps hb env pdu id) hpush hw hr
  obtain ⟨hc₂, hw₂⟩ := carries_run (applyKind_carries henv shortroomid id) hkind (by rw [hw₁, hw]) hc₁.ready
  have hrest : Comp.Keeps (Carries env own a s noSeat)
      (addRelations env pdu count >>= fun _ => sendAppservices env pdu id) :=
    hb.bind (addRelations_keeps hb env (fun _ _ => .of_tables rfl rfl rfl rfl rfl)
      (fun _ _ _ _ pdu hv hr => replacePdu_carries henv pdu hv hr) pdu count) fun _ =>
      sendAppservices_keeps hb env pdu id
  obtain ⟨hc₃, -⟩ := carries_run hrest h (by rw [hw₂, hw₁, hw]) hc₂.ready
  rw [hc₃.seats u pdu.roomId not_false, applyKind_seat hkey hkind, hc₁.seats u pdu.roomId not_false,
    seat_congr hc₁.ignored]

/-- an append that returns: the event is stored, and its seat is what the event makes of it -/
theorem appendPdu_seat (hj : j.pdu.gist = own j.pdu.eventId) {id : Bytes} (hr : Ready env own db)
    (h : appendPdu env j leaves db = (.ok id, db')) :
    HasPdu db'.timeline j.pdu.eventId ∧ ∀ u, db'.members.isJoined u j.pdu.roomId =
      (seat env db j.pdu.gist u).getD (db.members.isJoined u j.pdu.roomId) := by
  have hwhole := appendPdu_carried henv hj h hr
  cases hw : db.roomidShortroomid j.pdu.roomId with
  | none =>
    unfold appendPdu at h
    rw [Comp.bind_ok (Comp.get_run db), hw] at h
    cases h
  | some shortroomid =>
    rw [appendPdu_room env hw] at h
    obtain ⟨row, db₁, hstore, h⟩ := Comp.bind_eq_ok.mp h
    obtain ⟨_, db₂, hafter, h⟩ := Comp.bind_eq_ok.mp h
    obtain rfl : db₂ = db' := (Prod.mk.inj h).2
    have hstored : Comp.Keeps (Carries env own j.pdu.roomId (some shortroomid) noSeat)
        (storePdu env j leaves shortroomid) := storePdu_carries env hj leaves shortroomid
    obtain ⟨hc₁, hw₁⟩ := carries_run hstored hstore hw hr
    replace hw₁ : db₁.roomidShortroomid j.pdu.roomId = some shortroomid := by rw [hw₁, hw]
    obtain ⟨hc₂, -⟩ := carries_run (afterInsert_carries henv shortroomid row.1 row.2) hafter hw₁ hc₁.ready
    refine ⟨hc₂.stays _ ?_, fun u => ?_⟩
    · obtain ⟨stored, -, -, hrun⟩ | ⟨e, db', hrun, -⟩ := storePdu_run env db j leaves shortroomid
      · rw [hrun] at hstore
        cases hstore
        exact (hasPdu_appendPdu _).mpr (Or.inr rfl)
      · rw [hrun] at hstore
        cases hstore
    · by_cases hkey : j.pdu.gist.key = some (.roomMember, env.ids.userIdStr u)
      · rw [afterInsert_seat henv hkey hw₁ hc₁.ready hafter, hc₁.seats u j.pdu.roomId not_false, seat_congr hc₁.ignored]
      · rw [hwhole.seats u j.pdu.roomId fun hn => hkey hn.1]
        unfold seat
        rw [if_neg hkey]
        rfl

end

end Db
end Grapevine
