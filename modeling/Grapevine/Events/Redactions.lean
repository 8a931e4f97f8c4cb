import Grapevine.Events.Upgrade
import Grapevine.Rooms.Build

/-!
# Redactions that are let in, and redactions that are applied

The permission to redact is asked for twice: by the soft fail, where a redaction by any user of the
target's server counts, and behind the row of the redaction, where it does not.  In between the
room's state may have moved.

* `MayRedact`          the sender has a right of his own: the events of others, or this one as his;
* `content`            what an append does to the content of a row (`applyRedaction_content`);
* `Still`              what leaves the timeline alone, and the order of its ids.

Main result: `redaction_applied_iff`.  `neighbour_not_redacted` is a redaction by another user of the
target's server: it is let in, and the target stays as it is.
-/

namespace Grapevine
open Kv

namespace Db

variable (env : Env)
variable {db : Db} {v : PduJson}

/-! ## the two checks -/

/-- the room's state lets the sender redact the events of others, or his own, and he sent this one -/
def MayRedact (db : Db) (r : RoomId) (sender : UserId) (e : EventId) : Prop :=
  match db.roomStateGet env r .roomPowerLevels "" with
  | .ok (some pl) => ∃ c, env.powerLevels pl.content = some c ∧
      (c.userCanRedactEventOfOther sender = true ∨
        c.userCanRedactOwnEvent sender = true ∧ db.pduSender e (fun u => u = sender) = true)
  | .ok none => ∃ create, db.roomStateGet env r .roomCreate "" = .ok (some create) ∧
      (create.sender = sender ∨ db.pduSender e (fun u => u = sender) = true)
  | .error _ => False

/-- the second check lets the sender through exactly if he has a right of his own -/
theorem userCanRedact_iff {e : EventId} {sender : UserId} {r : RoomId} :
    db.userCanRedact env e sender r false = .ok true ↔ MayRedact env db r sender e := by
  unfold Db.userCanRedact MayRedact
  cases db.roomStateGet env r .roomPowerLevels "" with
  | error err => exact iff_of_false nofun id
  | ok o =>
    cases o with
    | some pl =>
      rw [except_ok_bind]
      dsimp only
      cases env.powerLevels pl.content with
      | none => exact iff_of_false nofun nofun
      | some c =>
        show Except.ok (c.userCanRedactEventOfOther sender || c.userCanRedactOwnEvent sender &&
          db.pduSender e (fun u => u = sender)) = .ok true ↔ _
        rw [Except.ok.injEq, Bool.or_eq_true, Bool.and_eq_true]
        constructor
        · exact fun h => ⟨c, rfl, h⟩
        · rintro ⟨c', hc, h⟩
          rw [Option.some.inj hc]
          exact h
    | none =>
      rw [except_ok_bind]
      dsimp only
      cases db.roomStateGet env r .roomCreate "" with
      | error err => exact iff_of_false nofun nofun
      | ok o =>
        cases o with
        | none => exact iff_of_false nofun nofun
        | some create =>
          show Except.ok (decide (create.sender = sender) || db.pduSender e (fun u => u = sender))
            = .ok true ↔ _
          rw [Except.ok.injEq, Bool.or_eq_true, decide_eq_true_eq]
          constructor
          · exact fun h => ⟨create, rfl, h⟩
          · rintro ⟨create', hc, h⟩
            rw [Option.some.inj (Except.ok.inj hc)]
            exact h

/-! ## the contents of rows -/

def content (db : Db) (id : Bytes) : Option JsonObject :=
  (db.timeline.pduidPdu.get id).map (fun j => j.pdu.content)

/-- the redacted form of an event's content, by the rules of its room's version -/
def redactedContent (db : Db) (pdu : PduEvent) : Option JsonObject :=
  match db.getRoomVersion env pdu.roomId with
  | .ok version => env.redactContentInPlace pdu.content version pdu.kind
  | .error _ => none

def SameContents (db db' : Db) : Prop := db'.content = db.content

theorem blind_sameContents : Blind SameContents := by
  have hblind := Blind.events fun t _ id => (t.pduidPdu.get id).map fun j => j.pdu.content
  exact hblind

theorem Sees.content {db' : Db} (h : Sees db db') : db'.content = db.content := by
  funext id
  unfold Db.content
  rw [h.timeline]

theorem replacePdu_content {id : Bytes} (hv : db.timeline.pduidPdu.get id = some v) (json : PduJson)
    (pdu : PduEvent) (k : Bytes) :
    (replacePdu id json pdu db).2.content k = if k = id then some json.pdu.content else db.content k := by
  rw [replacePdu_run hv]
  show ((db.timeline.pduidPdu.insert id json).get k).map _ = _
  rw [Tree.get_insert]
  by_cases he : k = id
  · rw [if_pos he, if_pos he]
    rfl
  · rw [if_neg he, if_neg he]
    rfl

theorem bundleThread_sameContents {id : Bytes} (hv : db.timeline.pduidPdu.get id = some v) (pdu : PduEvent) :
    SameContents db (bundleThread env id v pdu db).2 := by
  unfold bundleThread
  cases unsignedEntry v.json with
  | none => rfl
  | some unsigned =>
    funext k
    show (replacePdu id _ v.pdu db).2.content k = _
    rw [replacePdu_content hv]
    by_cases he : k = id
    · rw [if_pos he, he]
      unfold Db.content
      rw [hv]
      rfl
    · rw [if_neg he]

theorem addToThread_sameContents (root : EventId) (pdu : PduEvent) :
    Comp.Keeps SameContents (addToThread env root pdu) := by
  intro db
  cases hid : db.timeline.eventidPduid root with
  | none =>
    rw [addToThread_unknown env hid]
    rfl
  | some id =>
    cases hv : db.timeline.pduidPdu.get id with
    | none =>
      rw [addToThread_dangling env hid hv]
      rfl
    | some v =>
      rw [addToThread_known env hid hv]
      exact Comp.keeps_bind_at blind_sameContents.trans (bundleThread_sameContents env hv pdu)
        fun _ db₁ _ => updateParticipants_keeps blind_sameContents id v.pdu pdu db₁

theorem addRelations_sameContents (pdu : PduEvent) (count : Nat) :
    Comp.Keeps SameContents (addRelations env pdu count) := by
  have hb := blind_sameContents
  refine hb.bind (addRelatedEvent_keeps hb env pdu count) fun _ => ?_
  unfold addRelated
  split
  · exact addRelationTo_keeps hb count _
  · exact addToThread_sameContents env _ pdu
  · exact hb.pure _
  · exact hb.pure _

/-! ## the redaction -/

section
variable {env} {db db' : Db} {e : EventId} {id : Bytes} {t : PduJson} {reason : PduEvent} {s : Nat}
variable {o : Except Error (Option Bytes)} {pdu : PduEvent} {err : Error} {fuel : Nat}

/-- a row is redacted if its redacted form is known -/
theorem redactRow_content (hrow : db.timeline.pduidPdu.get id = some t) :
    (redactRow env id t.pdu reason s db).2.content id
      = some ((db.redactedContent env t.pdu).getD t.pdu.content) := by
  obtain ⟨tokenids, ht⟩ := deindexBody_run env id t.pdu s db
  have hsees : Sees db { db with tokenids := tokenids } := ⟨rfl, _, rfl⟩
  have hrow' : ({ db with tokenids := tokenids } : Db).timeline.pduidPdu.get id = some t := hrow
  have hold : ({ db with tokenids := tokenids } : Db).content id = some t.pdu.content := by
    unfold Db.content
    rw [hrow']
    rfl
  unfold redactRow
  rw [Comp.bind_ok ht, Comp.reads_bind, hsees.getRoomVersion env]
  cases hv : db.getRoomVersion env t.pdu.roomId with
  | error err =>
    have hform : db.redactedContent env t.pdu = none := by
      unfold redactedContent
      rw [hv]
    rw [hform]
    exact hold
  | ok version =>
    have hform : db.redactedContent env t.pdu
        = env.redactContentInPlace t.pdu.content version t.pdu.kind := by
      unfold redactedContent
      rw [hv]
    rw [hform]
    dsimp only
    unfold redact
    rw [Comp.ofExcept_bind]
    cases env.redactContentInPlace t.pdu.content version t.pdu.kind with
    | none => exact hold
    | some form =>
      show (replacePdu id _ _ _).2.content id = some form
      rw [replacePdu_content hrow', if_pos rfl]

variable {version : RoomVersionId}

/-- what the redaction leaves of its target -/
theorem applyRedaction_content (hversion : db.getRoomVersion env reason.roomId = .ok version)
    (htarget : redactionTarget env version reason = .ok (some e))
    (hid : db.timeline.eventidPduid e = some id) (hrow : db.timeline.pduidPdu.get id = some t) :
    (db.userCanRedact env e reason.sender reason.roomId false = .ok true →
      (applyRedaction env reason s db).2.content id
        = some ((db.redactedContent env t.pdu).getD t.pdu.content)) ∧
    (db.userCanRedact env e reason.sender reason.roomId false ≠ .ok true →
      (applyRedaction env reason s db).2.content id = some t.pdu.content) := by
  have hold : db.content id = some t.pdu.content := by
    unfold Db.content
    rw [hrow]
    rfl
  unfold applyRedaction
  rw [Comp.reads_bind, hversion]
  dsimp only
  rw [htarget, Comp.ofExcept_bind]
  dsimp only
  rw [Comp.reads_bind]
  cases db.userCanRedact env e reason.sender reason.roomId false with
  | error err => exact ⟨nofun, fun _ => hold⟩
  | ok allowed =>
    cases allowed with
    | false => exact ⟨nofun, fun _ => hold⟩
    | true =>
      refine ⟨fun _ => ?_, fun h => absurd rfl h⟩
      show (redactPdu env e reason s db).2.content id = _
      rw [redactPdu_known env hid hrow]
      exact redactRow_content hrow

/-! ## the stages before and behind it -/

theorem pushUsers_goes (pl : PowerLevels) (pdu : PduEvent) (rowId : Bytes) (us : List UserId)
    (db : Db) (h : ∀ u ∈ us, u ≠ pdu.sender → Succeeds (db.pushRules env u)) :
    ∃ out db', pushUsers env pl pdu rowId us db = (.ok out, db') := by
  induction us generalizing db with
  | nil => exact ⟨_, _, rfl⟩
  | cons u us ih =>
    unfold pushUsers
    by_cases hu : u = pdu.sender
    · rw [if_pos hu]
      exact ih db fun v hv => h v (List.mem_cons_of_mem _ hv)
    · rw [if_neg hu]
      have hactions : Succeeds (db.pushActions env pl pdu u) :=
        (pushActions_ok env).mpr (h u List.mem_cons_self hu)
      obtain ⟨actions, hact⟩ := hactions
      rw [Comp.reads_bind, hact]
      have hal := queueRequests_alike
        ((db.accounts.senderkeyPusher u).map (fun key => (Destination.push u key, rowId))) db
      obtain ⟨out, db', hrun⟩ := ih _ fun v hv hne => by
        rw [hal.pushRules env]
        exact h v (List.mem_cons_of_mem _ hv) hne
      refine ⟨(if Action.notify ∈ actions then u :: out.1 else out.1,
        if Action.highlight ∈ actions then u :: out.2 else out.2), db', ?_⟩
      dsimp only
      rw [Comp.bind_ok (show Comp.gets _ db = (.ok _, db) from rfl),
        Comp.bind_ok (show queueRequests _ db = (.ok (), (queueRequests _ db).2) from rfl),
        Comp.bind_ok hrun]
      rfl

theorem pushPdu_goes {db : Db} (h : PushesOk env db pdu) (hkind : pdu.kind = .roomRedaction) (rowId : Bytes) :
    ∃ db', pushPdu env pdu rowId db = (.ok (), db') := by
  obtain ⟨pl, hpl⟩ := h.powerLevels
  obtain ⟨db₁, hreal⟩ := getOurRealUsers_run env db pdu.roomId
  have hal := getOurRealUsers_keeps blind_alike env pdu.roomId db
  rw [hreal] at hal
  have htargets : pushTargets env pdu (db.realUsers env pdu.roomId)
      = .ok (db.realUsers env pdu.roomId) := by
    unfold pushTargets
    rw [hkind]
    rfl
  obtain ⟨out, db₂, hrun⟩ := pushUsers_goes pl pdu rowId
    (db.realUsers env pdu.roomId) db₁ fun u hu hne => by
      rw [hal.pushRules env]
      exact h.rules _ htargets u hu hne
  have hpush : pushPdu env pdu rowId db = incrementNotificationCounts pdu.roomId out.1 out.2 db₂ := by
    unfold pushPdu
    rw [Comp.reads_bind, hpl]
    dsimp only
    rw [Comp.bind_ok hreal, htargets, Comp.ofExcept_bind]
    dsimp only
    rw [Comp.bind_ok hrun]
  exact ⟨_, hpush⟩

/-- what runs behind a stage leaves the contents as the stage left them -/
theorem content_bind {α β : Type} {x : RoomComp α} {f : α → RoomComp β}
    (hf : ∀ a, Comp.Keeps SameContents (f a)) (db : Db) :
    ((x >>= f) db).2.content = (x db).2.content := by
  cases hx : x db with
  | mk o db₁ =>
    cases o with
    | error err => rw [Comp.bind_error hx]
    | ok a =>
      rw [Comp.bind_ok hx]
      exact hf a db₁

theorem Sees.redactedContent (h : Sees db db') (pdu : PduEvent) :
    db'.redactedContent env pdu = db.redactedContent env pdu := by
  unfold Db.redactedContent
  rw [h.getRoomVersion env]

/-- what the stages behind the row leave of the target -/
theorem afterInsert_content (hkind : reason.kind = .roomRedaction)
    (hversion : db.getRoomVersion env reason.roomId = .ok version)
    (htarget : redactionTarget env version reason = .ok (some e))
    (hid : db.timeline.eventidPduid e = some id) (hrow : db.timeline.pduidPdu.get id = some t)
    (rowId : Bytes) (count : Nat) :
    (PushesOk env db reason ∧ db.userCanRedact env e reason.sender reason.roomId false = .ok true →
      (afterInsert env reason s rowId count db).2.content id
        = some ((db.redactedContent env t.pdu).getD t.pdu.content)) ∧
    (¬ (PushesOk env db reason ∧
        db.userCanRedact env e reason.sender reason.roomId false = .ok true) →
      (afterInsert env reason s rowId count db).2.content id = some t.pdu.content) := by
  have hsees := pushPdu_keeps blind_sees env reason rowId db
  have hold : db.content id = some t.pdu.content := by
    unfold Db.content
    rw [hrow]
    rfl
  cases hpush : pushPdu env reason rowId db with
  | mk o db₁ =>
    rw [hpush] at hsees
    cases o with
    | error err =>
      constructor
      · rintro ⟨hok, -⟩
        obtain ⟨db₂, hgoes⟩ := pushPdu_goes hok hkind rowId
        rw [hpush] at hgoes
        cases hgoes
      · intro _
        unfold afterInsert
        rw [Comp.bind_error hpush, hsees.content]
        exact hold
    | ok _ =>
      have hafter : (afterInsert env reason s rowId count db).2.content
          = (applyRedaction env reason s db₁).2.content := by
        unfold afterInsert
        rw [Comp.bind_ok hpush]
        have hkinds : applyKind env reason s rowId = applyRedaction env reason s := by
          unfold applyKind
          rw [hkind]
        rw [hkinds]
        exact content_bind (fun _ => blind_sameContents.bind (addRelations_sameContents env reason count)
          fun _ => sendAppservices_keeps blind_sameContents env reason rowId) db₁
      obtain ⟨hdone, hleft⟩ := applyRedaction_content (s := s)
        ((hsees.getRoomVersion env reason.roomId).trans hversion) htarget
        (show db₁.timeline.eventidPduid e = some id by rw [hsees.timeline]; exact hid)
        (show db₁.timeline.pduidPdu.get id = some t by rw [hsees.timeline]; exact hrow)
      rw [hafter]
      rw [hsees.userCanRedact env, hsees.redactedContent] at hdone
      rw [hsees.userCanRedact env] at hleft
      exact ⟨fun h => hdone h.2, fun h => hleft fun hallowed => h ⟨pushPdu_ok env hpush, hallowed⟩⟩

/-! ## the append -/

variable {j : PduJson} {leaves : List EventId}

def SameTimeline (db db' : Db) : Prop := db'.timeline = db.timeline

theorem blind_sameTimeline : Blind SameTimeline := .events fun t _ => t

theorem error_bind {α β : Type} {x : RoomComp α} {f : α → RoomComp β} (hx : Comp.Keeps SameTimeline x)
    (hf : ∀ a db₁, f a db₁ = (.error err, db') → SameTimeline db₁ db') (h : (x >>= f) db = (.error err, db')) :
    SameTimeline db db' := by
  rcases hx.bind_run h with hkept | ⟨a, db₁, hkept, -, h⟩
  · exact hkept
  · exact blind_sameTimeline.trans _ _ _ hkept (hf a db₁ h)

/-- a row that is not stored leaves the timeline as it is -/
theorem storePdu_error (h : storePdu env j leaves s db = (.error err, db')) :
    SameTimeline db db' := by
  have hb := blind_sameTimeline
  refine error_bind (hb.read fun _ => rfl) (fun stored db₁ h => ?_) h
  refine error_bind (show Comp.Keeps SameTimeline (markAsReferenced _ _) from fun _ => rfl)
    (fun _ db₂ h => ?_) h
  refine error_bind (show Comp.Keeps SameTimeline (setForwardExtremities _ _) from fun _ => rfl)
    (fun _ db₃ h => ?_) h
  refine error_bind (nextCount_keeps hb) (fun count db₄ h => ?_) h
  refine error_bind (privateReadSet_keeps hb _ _ _) (fun _ db₅ h => ?_) h
  refine error_bind (resetNotificationCounts_keeps hb _ _) (fun _ db₆ h => ?_) h
  refine error_bind (nextCount_keeps hb) (fun count db₇ h => ?_) h
  cases h

/-- what an append of a redaction leaves of its target, if it gets as far as the row -/
theorem appendPdu_content (hsound : Sound db) (hkind : j.pdu.kind = .roomRedaction)
    (hid : db.timeline.eventidPduid e = some id) (hrow : db.timeline.pduidPdu.get id = some t)
    (hnew : db.timeline.eventidPduid j.pdu.eventId = none)
    (henters : (appendPdu env j leaves db).2.timeline.eventidPduid j.pdu.eventId ≠ none)
    (hversion : (db.stored env j leaves).getRoomVersion env j.pdu.roomId = .ok version)
    (htarget : redactionTarget env version j.pdu = .ok (some e)) :
    (PushesOk env (db.stored env j leaves) j.pdu ∧
        (db.stored env j leaves).userCanRedact env e j.pdu.sender j.pdu.roomId false = .ok true →
      (appendPdu env j leaves db).2.content id
        = some (((db.stored env j leaves).redactedContent env t.pdu).getD t.pdu.content)) ∧
    (¬ (PushesOk env (db.stored env j leaves) j.pdu ∧
        (db.stored env j leaves).userCanRedact env e j.pdu.sender j.pdu.roomId false = .ok true) →
      (appendPdu env j leaves db).2.content id = some t.pdu.content) := by
  cases hw : db.roomidShortroomid j.pdu.roomId with
  | none =>
    have hrun : (appendPdu env j leaves db).2 = db := by
      unfold appendPdu
      rw [Comp.bind_ok (Comp.get_run db), hw]
      rfl
    rw [hrun] at henters
    exact absurd hnew henters
  | some s =>
    have happend := appendPdu_room env hw leaves
    have hstored : db.stored env j leaves = (storePdu env j leaves s db).2 := by
      unfold stored
      rw [hw]
    rcases storePdu_run env db j leaves s with ⟨json, -, hlt, hrun⟩ | ⟨err, db', hrun, -⟩
    · rw [happend]
      rw [hstored, hrun] at hversion ⊢
      have hne : e ≠ j.pdu.eventId := by
        intro he
        rw [he, hnew] at hid
        cases hid
      have hfresh : db.timeline.pduidPdu.get (db.newId s) = none :=
        hsound.fresh hw ⟨by omega, hlt⟩ (show db.state.counter < db.state.counter + 4 by omega)
      have hid' : (db.withRow j.pdu json leaves s).timeline.eventidPduid e = some id :=
        (Function.update_of_ne hne _ _).trans hid
      have hrow' : (db.withRow j.pdu json leaves s).timeline.pduidPdu.get id = some t := by
        refine (Tree.get_insert_of_ne _ _ fun hidn => ?_).trans hrow
        have hrown : db.timeline.pduidPdu.get (db.newId s) = some t := by
          rw [show db.newId s = id from hidn.symm]
          exact hrow
        rw [hfresh] at hrown
        cases hrown
      rw [Comp.bind_ok hrun]
      dsimp only
      rw [content_bind (fun _ => blind_sameContents.pure _)]
      exact afterInsert_content (s := s) hkind hversion htarget hid' hrow'
        (pduId s (.normal (db.state.counter + 4))) (db.state.counter + 4)
    · rw [happend, Comp.bind_error hrun] at henters
      have hsame : db'.timeline = db.timeline := storePdu_error hrun
      exact absurd ((congrFun (congrArg TimelineTables.eventidPduid hsame) _).trans hnew) henters

/-! ## up to the append -/

/-- the timeline stays, and the order of its ids -/
structure Still (db db' : Db) : Prop where
  grows : Grows db db'
  rows : db'.timeline.pduidPdu = db.timeline.pduidPdu
  ids : db'.timeline.eventidPduid = db.timeline.eventidPduid

theorem Still.refl (db : Db) : Still db db := ⟨fun h => h, rfl, rfl⟩

theorem Still.trans (a b c : Db) (h : Still a b) (h' : Still b c) : Still a c :=
  ⟨fun hs => h'.grows (h.grows hs), h'.rows.trans h.rows, h'.ids.trans h.ids⟩

/-- only other tables are written -/
theorem Still.of_same {db db' : Db} (hc : db'.state.counter = db.state.counter)
    (hw : db'.roomidShortroomid = db.roomidShortroomid)
    (hr : db'.timeline.pduidPdu = db.timeline.pduidPdu)
    (hi : db'.timeline.eventidPduid = db.timeline.eventidPduid) : Still db db' :=
  ⟨Grows.of_same hc hw hr, hr, hi⟩

theorem still_quiet : Quiet Still where
  refl := Still.refl
  trans := Still.trans
  state _ _ hs := ⟨fun h => h.congr hs.counter (hs.counter_lt h.counter_lt) rfl rfl, rfl, rfl⟩
  chains _ _ _ := Still.of_same rfl rfl rfl rfl
  ratelimiter _ _ := Still.of_same rfl rfl rfl rfl
  ticks _ _ := Still.of_same rfl rfl rfl rfl

theorem still_blind : Blind Still :=
  .of_aside Still.trans (fun db hlt => ⟨blind_grows.count db hlt, rfl, rfl⟩)
    fun _ _ _ _ _ _ _ _ _ => .of_same rfl rfl rfl rfl

variable {fed : Fed} {r : RoomId} {before : Db}

theorem deriveState_still (fuel : Nat) (version : RoomVersionId) (pdu : PduEvent)
    (state : Tree Nat EventId) : Comp.Keeps Still (deriveState env fed fuel r version pdu state) :=
  deriveState_keeps env fed still_blind (fun _ _ => Still.of_same rfl rfl rfl rfl)
    (fun _ _ => Still.of_same rfl rfl rfl rfl) still_quiet (fun _ _ _ => Still.of_same rfl rfl rfl rfl)
    fuel r version pdu state

theorem stateAtIncomingEvent_still (fuel : Nat) (origin : ServerName) (createEvent : PduEvent)
    (version : RoomVersionId) (pdu : PduEvent) :
    Comp.Keeps Still (stateAtIncomingEvent env fed fuel origin createEvent r version pdu) :=
  stateAtIncomingEvent_keeps env fed still_quiet
    (fun e value (_ : Answered fed origin version e value) _ _ _ _ _ _ => Still.of_same rfl rfl rfl rfl)
    fuel pdu

/-- a redaction that is let in passes the first check -/
theorem userCanRedact_of_softFails {r : RoomId} (hkind : pdu.kind = .roomRedaction)
    (htarget : redactionTarget env version pdu = .ok (some e))
    (hpass : before.softFails env fed version r pdu = .ok false) :
    before.userCanRedact env e pdu.sender pdu.roomId true = .ok true := by
  unfold softFails at hpass
  obtain ⟨authEvents, -, hpass⟩ := except_bind_eq_ok.mp hpass
  split at hpass
  · cases hpass
  · cases hpass
  · unfold redactionFails at hpass
    rw [if_pos hkind, htarget] at hpass
    obtain ⟨_, hok, hpass⟩ := except_bind_eq_ok.mp hpass
    cases hok
    obtain ⟨allowed, hallowed, hpass⟩ := except_bind_eq_ok.mp hpass
    cases allowed with
    | true => exact hallowed
    | false => cases hpass

/-- the branch of an accepted event ends with its append, or before it -/
theorem settle_appends {state : Tree Nat EventId} {softFail : Bool} {before : Db} (hc : Still db before)
    (hstill : ¬ Still db db') (h : settle env fed fuel r version j state softFail before = (o, db')) :
    softFail = false ∧ j.pdu.roomId = r ∧ ∃ (appended : Db) (leaves : List EventId),
      Still db appended ∧ (appendPdu env j leaves appended).2 = db' := by
  have hread : (Comp.gets (fun db => db.newExtremities r j.pdu) : RoomComp _) before
      = (.ok (before.newExtremities r j.pdu), before) := rfl
  unfold settle at h
  rw [Comp.bind_ok hread] at h
  rcases (compressState_quiet still_quiet (fed.entries state)).bind_run h with
    hc' | ⟨compressed, db₁, h1, -, h⟩
  · exact absurd (Still.trans _ _ _ hc hc') hstill
  rcases (deriveState_still fuel version j.pdu state).bind_run h with hc' | ⟨_, db₂, h2, -, h⟩
  · exact absurd (Still.trans _ _ _ hc (Still.trans _ _ _ h1 hc')) hstill
  have hc₂ := Still.trans _ _ _ hc (Still.trans _ _ _ h1 h2)
  have hset := still_quiet.onState (StateDb.setEventState_later env.digest env.ord j.pdu.eventId
    j.pdu.roomId compressed)
  have hgraph : ∀ (db : Db) g, Still db { db with graph := g } := fun _ _ =>
    Still.of_same rfl rfl rfl rfl
  cases softFail with
  | true =>
    rw [if_pos rfl] at h
    have hend : Comp.Keeps Still (do
        let _ ← appendIncomingPdu env r j (fed.listing (before.newExtremities r j.pdu)) compressed true
        markEventSoftFailed j.pdu.eventId
        Comp.throw softFailed : RoomComp (Option Bytes)) := by
      refine still_quiet.bind ?_ fun _ => still_quiet.bind (fun db => hgraph db _) fun _ =>
        still_quiet.read fun _ => rfl
      unfold appendIncomingPdu
      split
      · exact still_quiet.read fun _ => rfl
      · exact still_quiet.bind hset fun _ => still_quiet.bind (fun db => hgraph db _) fun _ =>
          still_quiet.bind (fun db => hgraph db _) fun _ => still_quiet.pure _
    have hkept := hend db₂
    rw [h] at hkept
    exact absurd (Still.trans _ _ _ hc₂ hkept) hstill
  | false =>
    rw [if_neg Bool.false_ne_true] at h
    unfold appendIncomingPdu at h
    split at h
    · rw [← (Prod.mk.inj h).2] at hstill
      exact absurd hc₂ hstill
    · next hroom =>
      rcases hset.bind_run h with hc' | ⟨_, db₃, h3, -, h⟩
      · exact absurd (Still.trans _ _ _ hc₂ hc') hstill
      · have hmap : ∀ x : RoomComp Bytes, ((some <$> x) db₃).2 = (x db₃).2 := by
          intro x
          show ((x >>= fun a => pure (some a)) db₃).2 = _
          cases hx : x db₃ with
          | mk o s =>
            cases o with
            | error err => rw [Comp.bind_error hx]
            | ok a =>
              rw [Comp.bind_ok hx]
              rfl
        rw [if_neg Bool.false_ne_true] at h
        exact ⟨rfl, not_not.mp hroom, db₃, _, Still.trans _ _ _ hc₂ h3,
          (hmap _).symm.trans (congrArg Prod.snd h)⟩

/-- an event that enters the timeline with a call was let in before its append -/
theorem upgrade_appends {createEvent : PduEvent} {origin : ServerName}
    (hnew : db.timeline.eventidPduid j.pdu.eventId = none)
    (h : upgradeOutlierToTimelinePdu env fed fuel j createEvent origin r db = (o, db'))
    (henters : db'.timeline.eventidPduid j.pdu.eventId ≠ none) :
    ∃ (version : RoomVersionId) (before appended : Db) (leaves : List EventId),
      createVersion env fed createEvent = .ok version ∧
      before.softFails env fed version r j.pdu = .ok false ∧ j.pdu.roomId = r ∧
      Still db appended ∧ (appendPdu env j leaves appended).2 = db' := by
  have hstill : ¬ Still db db' := fun hs => henters ((congrFun hs.ids _).trans hnew)
  have hread : ∀ {α : Type} (x : RoomComp α), (∀ db, (x db).2 = db) → Comp.Keeps Still x :=
    fun x hx => still_quiet.read hx
  unfold upgradeOutlierToTimelinePdu TimelineTables.getPduId at h
  rw [Comp.bind_ok (Comp.get_run db), hnew] at h
  dsimp only at h
  rw [Comp.bind_ok (Comp.get_run db)] at h
  split at h
  · rw [← (Prod.mk.inj h).2] at hstill
    exact absurd (Still.refl db) hstill
  rcases (hread (Comp.ofExcept (createVersion env fed createEvent)) fun _ => rfl).bind_run h with
    hc | ⟨version, db₀, -, h0, h⟩
  · exact absurd hc hstill
  obtain ⟨hversion, rfl⟩ := Prod.mk.inj h0
  rcases (stateAtIncomingEvent_still fuel origin createEvent version j.pdu).bind_run h with
    hc | ⟨state, before, hc, -, h⟩
  · exact absurd hc hstill
  rcases (hread (Comp.reads fun db => db.checkStateAuth fed version j.pdu state)
    fun _ => rfl).bind_run h with hc' | ⟨_, db₂, -, h2, h⟩
  · exact absurd (Still.trans _ _ _ hc hc') hstill
  obtain ⟨-, rfl⟩ := Prod.mk.inj h2
  rcases (hread (Comp.reads fun db => db.softFails env fed version r j.pdu)
    fun _ => rfl).bind_run h with hc' | ⟨softFail, db₂, -, h2, h⟩
  · exact absurd (Still.trans _ _ _ hc hc') hstill
  obtain ⟨hsoft, rfl⟩ := Prod.mk.inj h2
  obtain ⟨rfl, hroom, appended, leaves, hsame, happend⟩ := settle_appends hc hstill h
  exact ⟨version, before, appended, leaves, hversion, hsoft, hroom, hsame, happend⟩

end

/-- **a redaction that is let in is applied by right only**: once it has entered the timeline, its
target in the timeline has its redacted form exactly if everyone could be notified and the sender
has, in the room state of the append, a right of his own to it, or the target had this form before -/
theorem redaction_applied_iff (fed : Fed) {fuel : Nat} {j t : PduJson} {createEvent : PduEvent}
    {origin : ServerName} {r : RoomId} {db : Db} {e : EventId} {id : Bytes} (hsound : Sound db)
    (hkind : j.pdu.kind = .roomRedaction) (hid : db.timeline.eventidPduid e = some id)
    (hrow : db.timeline.pduidPdu.get id = some t)
    (hnew : db.timeline.eventidPduid j.pdu.eventId = none)
    (henters : (upgradeOutlierToTimelinePdu env fed fuel j createEvent origin r db
      ).2.timeline.eventidPduid j.pdu.eventId ≠ none) :
    ∃ (before appended : Db) (leaves : List EventId),
      (∀ version, createVersion env fed createEvent = .ok version →
        redactionTarget env version j.pdu = .ok (some e) →
        before.userCanRedact env e j.pdu.sender r true = .ok true) ∧
      (appendPdu env j leaves appended).2
        = (upgradeOutlierToTimelinePdu env fed fuel j createEvent origin r db).2 ∧
      ∀ version, (appended.stored env j leaves).getRoomVersion env r = .ok version →
        redactionTarget env version j.pdu = .ok (some e) →
        ((∃ form, (appended.stored env j leaves).redactedContent env t.pdu = some form ∧
            (appendPdu env j leaves appended).2.content id = some form) ↔
          ∃ form, (appended.stored env j leaves).redactedContent env t.pdu = some form ∧
            (form = t.pdu.content ∨ PushesOk env (appended.stored env j leaves) j.pdu ∧
              MayRedact env (appended.stored env j leaves) r j.pdu.sender e)) := by
  obtain ⟨version, before, appended, leaves, hversion, hsoft, hroom, hstill, happend⟩ :=
    upgrade_appends (o := _) hnew rfl henters
  subst hroom
  refine ⟨before, appended, leaves, fun version' hversion' htarget => ?_, happend, ?_⟩
  · rw [← Except.ok.inj (hversion.symm.trans hversion')] at htarget
    exact userCanRedact_of_softFails hkind htarget hsoft
  · intro version' hversion' htarget
    have hrows : (appendPdu env j leaves appended).2.timeline.eventidPduid j.pdu.eventId ≠ none := by
      rw [happend]
      exact henters
    obtain ⟨hdone, hleft⟩ := appendPdu_content (hstill.grows hsound) hkind
      ((congrFun hstill.ids e).trans hid) ((congrArg (Kv.Tree.get · id) hstill.rows).trans hrow)
      ((congrFun hstill.ids _).trans hnew) hrows hversion' htarget
    rw [userCanRedact_iff] at hdone hleft
    refine exists_congr fun form => and_congr_right fun hform => ?_
    rw [hform] at hdone
    by_cases hall : PushesOk env (appended.stored env j leaves) j.pdu ∧
        MayRedact env (appended.stored env j leaves) j.pdu.roomId j.pdu.sender e
    · exact iff_of_true (hdone hall) (Or.inr hall)
    · rw [hleft hall]
      constructor
      · exact fun he => Or.inl (Option.some.inj he).symm
      · rintro (rfl | h)
        · rfl
        · exact absurd h hall

/-! ## two users of another server -/

namespace Neighbours

def room : RoomId := ⟨.ascii "!r:x"⟩
def alice : UserId := ⟨.ascii "@alice:x"⟩
def bob : UserId := ⟨.ascii "@bob:y"⟩
def eve : UserId := ⟨.ascii "@eve:y"⟩

def event (e : String) (u : UserId) (kind : EventType) (content : JsonObject)
    (stateKey : Option String) (prevEvents : List EventId) (redacts : Option EventId) : PduJson :=
  ⟨[], ⟨⟨.ascii e⟩, room, u, 0, kind, content, stateKey, prevEvents, 0, [], redacts, none⟩⟩

def create : PduJson := event "$create" alice .roomCreate [] (some "") [] none
def levels : PduJson := event "$levels" alice .roomPowerLevels [] (some "") [] none

def join (e user : String) (u : UserId) : PduJson :=
  event e u .roomMember [("membership", .str "join")] (some user) [] none

/-- the room's state: it has power levels, and all three are members -/
def states : List PduJson :=
  [create, join "$alice" "@alice:x" alice, levels, join "$bob" "@bob:y" bob,
    join "$eve" "@eve:y" eve]

def message : PduJson := event "$message" bob .roomMessage [("body", .str "hi")] none [] none

def store : Db :=
  (appendPdu .plain message [] (states.foldl (fun db j => (buildAndAppendPdu .plain j db).2)
    (getOrCreateShortroomid room empty).2)).2

theorem reachable_store : Reachable store :=
  .append _ _ _ (.build _ (.build _ (.build _ (.build _ (.build _ (.room _ .empty) _) _) _) _) _)

/-- the row of the message -/
def messageId : Bytes := pduId 1 (.normal 40)

def redaction (u : UserId) : PduJson :=
  event "$redaction" u .roomRedaction [] none [⟨.ascii "$eve"⟩] (some message.pdu.eventId)

abbrev upgrade (u : UserId) : RoomComp (Option Bytes) :=
  upgradeOutlierToTimelinePdu .plain .plain 1 (redaction u) create.pdu ⟨.ascii "y"⟩ room

/-! ### what the store holds -/

/-- what is computed of the store, and of the two redactions; the runs share their beginning -/
theorem computed : (store.timeline.eventidPduid message.pdu.eventId = some messageId ∧
      (store.timeline.pduidPdu.get messageId).map (fun t => (t.pdu.roomId, t.pdu.content.isEmpty)) =
        some (room, false) ∧
      store.timeline.eventidPduid (redaction bob).pdu.eventId = none) ∧
    ((upgradeOutlierToTimelinePdu .plain .plain 1 (redaction bob) create.pdu ⟨.ascii "y"⟩ room store
        ).2.timeline.eventidPduid (redaction bob).pdu.eventId ≠ none ∧
      ((upgrade bob store).2.content messageId).map List.isEmpty = some true) ∧
    (upgrade eve store).1 = .ok (some (pduId 1 (.normal 46))) ∧
      (upgrade eve store).2.getRoomVersion .plain room = .ok .v10 ∧
      ((upgrade eve store).2.content messageId).map List.isEmpty = some false := by decide +kernel

theorem message_id : store.timeline.eventidPduid message.pdu.eventId = some messageId := computed.1.1

theorem message_row : ∃ t, store.timeline.pduidPdu.get messageId = some t ∧ t.pdu.roomId = room ∧
    t.pdu.content.isEmpty = false := by
  obtain ⟨t, ht, hpair⟩ := Option.map_eq_some_iff.mp computed.1.2.1
  exact ⟨t, ht, congrArg Prod.fst hpair, congrArg Prod.snd hpair⟩

/-- the redacted form of an event of the room is empty -/
theorem redactedContent_room {t : PduJson} (hroom : t.pdu.roomId = room)
    (hversion : db.getRoomVersion .plain room = .ok .v10) :
    db.redactedContent .plain t.pdu = some [] := by
  unfold redactedContent
  rw [hroom, hversion]
  rfl

theorem content_eq_nil {c : Option JsonObject} (h : c.map List.isEmpty = some true) :
    c = some [] := by
  obtain ⟨o, rfl, ho⟩ := Option.map_eq_some_iff.mp h
  rw [List.isEmpty_iff.mp ho]

theorem bob_redacts : (upgrade bob store).2.content messageId = some [] := content_eq_nil computed.2.1.2

end Neighbours

/-- bob redacts his own message -/
theorem redaction_applied_iff_own :
    (Neighbours.upgrade Neighbours.bob Neighbours.store).2.content Neighbours.messageId = some [] ∧
      ∃ (t : PduJson) (appended : Db) (leaves : List EventId),
        (appendPdu .plain (Neighbours.redaction Neighbours.bob) leaves appended).2
          = (Neighbours.upgrade Neighbours.bob Neighbours.store).2 ∧
        ((appended.stored .plain (Neighbours.redaction Neighbours.bob) leaves).getRoomVersion .plain
            Neighbours.room = .ok .v10 →
          ∃ form, (appended.stored .plain (Neighbours.redaction Neighbours.bob) leaves).redactedContent
              .plain t.pdu = some form ∧ (form = t.pdu.content ∨
            PushesOk .plain (appended.stored .plain (Neighbours.redaction Neighbours.bob) leaves)
              (Neighbours.redaction Neighbours.bob).pdu ∧
            MayRedact .plain (appended.stored .plain (Neighbours.redaction Neighbours.bob) leaves)
              Neighbours.room Neighbours.bob Neighbours.message.pdu.eventId)) := by
  obtain ⟨t, hrow, hroom, -⟩ := Neighbours.message_row
  obtain ⟨-, -, hnew⟩ := Neighbours.computed.1
  have henters := Neighbours.computed.2.1.1
  have hform := Neighbours.bob_redacts
  obtain ⟨_, appended, leaves, -, happend, hiff⟩ := @redaction_applied_iff .plain .plain 1
    (Neighbours.redaction Neighbours.bob) t Neighbours.create.pdu ⟨.ascii "y"⟩ Neighbours.room
    Neighbours.store Neighbours.message.pdu.eventId Neighbours.messageId
    Neighbours.reachable_store.sound rfl Neighbours.message_id hrow hnew henters
  refine ⟨hform, t, appended, leaves, happend, fun hversion => ?_⟩
  refine (hiff .v10 hversion rfl).mp ⟨[], Neighbours.redactedContent_room hroom hversion, ?_⟩
  rw [happend]
  exact hform

/-- eve redacts the message of bob: the redaction enters the timeline, and the message stays -/
theorem neighbour_not_redacted :
    ¬ ∀ (env : Env) (fed : Fed) (fuel : Nat) (db db' : Db) (j t : PduJson) (createEvent : PduEvent)
      (origin : ServerName) (r : RoomId) (rowId id : Bytes) (version : RoomVersionId) (e : EventId)
      (form : JsonObject), Reachable db → j.pdu.kind = .roomRedaction →
      db.timeline.eventidPduid e = some id → db.timeline.pduidPdu.get id = some t →
      createVersion env fed createEvent = .ok version →
      redactionTarget env version j.pdu = .ok (some e) →
      upgradeOutlierToTimelinePdu env fed fuel j createEvent origin r db = (.ok (some rowId), db') →
      db'.redactedContent env t.pdu = some form → db'.content id = some form := by
  intro hall
  obtain ⟨t, hrow, hroom, -⟩ := Neighbours.message_row
  obtain ⟨hout, hversion, hleft⟩ := Neighbours.computed.2.2
  have hform := Neighbours.redactedContent_room (t := t) hroom hversion
  have h := hall .plain .plain 1 _ _ (Neighbours.redaction Neighbours.eve) t _ _ _ _ _ .v10 _ _
    Neighbours.reachable_store rfl Neighbours.message_id hrow rfl rfl
    (Comp.run_of_fst hout) hform
  rw [h] at hleft
  cases hleft

end Db
end Grapevine
