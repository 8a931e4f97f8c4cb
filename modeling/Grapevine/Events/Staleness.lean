import Grapevine.Lib.Runs
import Grapevine.Events.SoftFail

/-!
# The check against the current state

`upgrade_outlier_to_timeline_pdu` checks the event against the current state of the room, and takes the
lock of this state afterwards.  A send from here takes the same lock and no other, so it may change the
state in between.

* `Judged`       a call between its check and the lock;
* `Step`         checks, appends under the lock, sends from here, and whatever else writes;
* `Authorized`   an event that is appended passes the check against the state that the lock was taken on.

Main result: `appended_authorized`.  The appended events are authorized if each is appended on a state with
the auth events that it was checked against (`appended_unauthorized`).
-/

namespace Grapevine
open Kv

namespace Staleness

variable (env : Env) (fed : Fed)
variable {version : RoomVersionId} {r : RoomId} {db db' : Db} {pdu : PduEvent} {j : PduJson}
  {fuel : Nat}

/-! ## calls at work -/

/-- a call that has checked its event, with the store that it saw -/
structure Judged where
  j : PduJson
  room : RoomId
  version : RoomVersionId
  state : Tree Nat EventId
  softFail : Bool
  seen : Db

/-- an event in the timeline, with the store on which the lock was taken -/
structure Appended where
  j : PduJson
  room : RoomId
  version : RoomVersionId
  current : Db

structure World where
  db : Db
  judged : List Judged
  log : List Appended

inductive Act where
  /-- `build_and_append_pdu`, under the lock of the state -/
  | send (j : PduJson)
  /-- whatever else writes -/
  | other (db : Db)
  | judge (j : PduJson)
  /-- the rest of the call, under the lock of the state -/
  | settle (x : Judged)

inductive Step : Act → World → World → Prop
  | send {w : World} (j : PduJson) :
      Step (.send j) w { w with db := (Db.buildAndAppendPdu env j w.db).2 }
  | other {w : World} (db : Db) : Step (.other db) w { w with db := db }
  | judge {w : World} {j : PduJson} {room : RoomId} {version : RoomVersionId} {softFail : Bool}
      (state : Tree Nat EventId) : w.db.softFails env fed version room j.pdu = .ok softFail →
      Step (.judge j) w { w with judged := ⟨j, room, version, state, softFail, w.db⟩ :: w.judged }
  | append {w : World} {before behind : List Judged} {x : Judged} {fuel : Nat} {id : Bytes} {db : Db} :
      w.judged = before ++ x :: behind → x.softFail = false →
      Db.settle env fed fuel x.room x.version x.j x.state false w.db = (.ok (some id), db) →
      Step (.settle x) w ⟨db, before ++ behind, ⟨x.j, x.room, x.version, w.db⟩ :: w.log⟩
  | refuse {w : World} {before behind : List Judged} {x : Judged} {fuel : Nat} {e : Error} {db : Db} :
      w.judged = before ++ x :: behind →
      Db.settle env fed fuel x.room x.version x.j x.state x.softFail w.db = (.error e, db) →
      Step (.settle x) w ⟨db, before ++ behind, w.log⟩

abbrev Run (P : Act → World → Prop) : World → Prop := RunsTo (fun w => ∃ db, w = ⟨db, [], []⟩) (Step env fed) P

/-- the event passes the check against the auth events of the state -/
def Passes (db : Db) (version : RoomVersionId) (room : RoomId) (pdu : PduEvent) : Prop :=
  ∃ authEvents, db.getAuthEvents env fed room pdu = .ok authEvents ∧
    fed.authCheck version pdu (fun kind stateKey => authEvents.lookup (kind, stateKey)) = some true

def Authorized (w : World) : Prop := ∀ x ∈ w.log, Passes env fed x.current x.version x.room x.j.pdu

/-- an event is settled on a state that has the auth events that it was checked against -/
def Steady : Act → World → Prop
  | .settle x, w => w.db.getAuthEvents env fed x.room x.j.pdu = x.seen.getAuthEvents env fed x.room x.j.pdu
  | _, _ => True

variable {env fed}

/-! ## one call alone -/

/-- the settlement of a soft failure ends in an error -/
theorem settle_softFail {state : Tree Nat EventId} {o : Option Bytes} :
    Db.settle env fed fuel r version j state true db ≠ (.ok o, db') := by
  intro h
  obtain ⟨extremities, db₁, _, h⟩ := Comp.bind_eq_ok.mp h
  obtain ⟨compressed, db₂, _, h⟩ := Comp.bind_eq_ok.mp h
  obtain ⟨_, db₃, _, h⟩ := Comp.bind_eq_ok.mp h
  obtain ⟨_, db₄, _, h⟩ := Comp.bind_eq_ok.mp h
  obtain ⟨_, db₅, _, h⟩ := Comp.bind_eq_ok.mp h
  cases h

/-- a call that is alone checks its event and appends it at once -/
theorem upgrade_steps {createEvent : PduEvent} {origin : ServerName} {id : Bytes}
    (hnew : db.timeline.getPduId j.pdu.eventId = none)
    (h : Db.upgradeOutlierToTimelinePdu env fed fuel j createEvent origin r db = (.ok (some id), db')) :
    ∃ version current, Steps (Step env fed) ⟨db, [], []⟩ ⟨db', [], [⟨j, r, version, current⟩]⟩ := by
  unfold Db.upgradeOutlierToTimelinePdu at h
  rw [Comp.bind_ok (Comp.get_run db), hnew] at h
  change (Comp.get >>= fun _ => _) db = _ at h
  rw [Comp.bind_ok (Comp.get_run db)] at h
  cases hsoft : db.isEventSoftFailed j.pdu.eventId with
  | true =>
    rw [hsoft] at h
    cases h
  | false =>
    rw [hsoft] at h
    obtain ⟨version, db₁, _, h⟩ := Comp.bind_eq_ok.mp h
    obtain ⟨state, db₂, _, h⟩ := Comp.bind_eq_ok.mp h
    obtain ⟨_, _, h⟩ := Comp.reads_eq_ok h
    obtain ⟨softFail, hjudge, h⟩ := Comp.reads_eq_ok h
    cases softFail with
    | true => exact absurd h settle_softFail
    | false =>
      have hother : Step env fed (.other db₂) ⟨db, [], []⟩ ⟨db₂, [], []⟩ := .other db₂
      have hcheck : Step env fed (.judge j) ⟨db₂, [], []⟩ ⟨db₂, [⟨j, r, version, state, false, db₂⟩], []⟩ :=
        .judge state hjudge
      have hsettle : Step env fed (.settle ⟨j, r, version, state, false, db₂⟩)
          ⟨db₂, [⟨j, r, version, state, false, db₂⟩], []⟩ ⟨db', [] ++ [], [⟨j, r, version, db₂⟩]⟩ :=
        .append (List.nil_append _).symm rfl h
      exact ⟨version, db₂, (((Steps.refl _).step hother).step hcheck).step hsettle⟩

/-! ## all calls -/

variable (env fed) in
/-- what is kept of a call is what its check said -/
structure Inv (w : World) : Prop where
  judged : ∀ x ∈ w.judged, x.seen.softFails env fed x.version x.room x.j.pdu = .ok x.softFail
  authorized : Authorized env fed w

/-- an event that does not fail the check against a state passes it -/
theorem passes_of_softFails (h : db.softFails env fed version r pdu = .ok false) :
    Passes env fed db version r pdu := by
  unfold Db.softFails at h
  obtain ⟨authEvents, hauth, h⟩ := except_bind_eq_ok.mp h
  refine ⟨authEvents, hauth, ?_⟩
  cases hcheck : fed.authCheck version pdu (fun kind stateKey => authEvents.lookup (kind, stateKey)) with
  | none =>
    rw [hcheck] at h
    cases h
  | some b =>
    rw [hcheck] at h
    cases b with
    | true => rfl
    | false => cases h

theorem Passes.congr (h : Passes env fed db version r pdu)
    (hsame : db'.getAuthEvents env fed r pdu = db.getAuthEvents env fed r pdu) :
    Passes env fed db' version r pdu := by
  obtain ⟨authEvents, hauth, hcheck⟩ := h
  exact ⟨authEvents, hsame.trans hauth, hcheck⟩

theorem mem_of_rest {l before behind : List Judged} {x y : Judged} (h : l = before ++ x :: behind)
    (hy : y ∈ before ++ behind) : y ∈ l := by
  rw [h]
  rcases List.mem_append.mp hy with hy | hy
  · exact List.mem_append_left _ hy
  · exact List.mem_append_right _ (List.mem_cons_of_mem _ hy)

theorem step_inv {a : Act} {w w' : World} (h : Inv env fed w) (hstep : Step env fed a w w')
    (hsteady : Steady env fed a w) : Inv env fed w' := by
  cases hstep with
  | send j => exact ⟨h.judged, h.authorized⟩
  | other db => exact ⟨h.judged, h.authorized⟩
  | judge state hjudge =>
    refine ⟨fun x hx => ?_, h.authorized⟩
    rcases List.mem_cons.mp hx with rfl | hx
    · exact hjudge
    · exact h.judged x hx
  | @append _ before behind x fuel id db hsplit hsoft hsettle =>
    refine ⟨fun y hy => h.judged y (mem_of_rest hsplit hy), fun y hy => ?_⟩
    rcases List.mem_cons.mp hy with rfl | hy
    · have hx : x ∈ w.judged := hsplit ▸ List.mem_append_right _ List.mem_cons_self
      have hjudged := h.judged x hx
      rw [hsoft] at hjudged
      exact (passes_of_softFails hjudged).congr hsteady
    · exact h.authorized y hy
  | refuse hsplit hsettle => exact ⟨fun y hy => h.judged y (mem_of_rest hsplit hy), h.authorized⟩

/-- **what is appended is authorized by the state it is appended on**, as long as the state has not lost or changed
the auth events since the check -/
theorem appended_authorized {w : World} (h : Run env fed (Steady env fed) w) : Authorized env fed w := by
  have hinv : Inv env fed w := by
    induction h with
    | start hstart =>
      obtain ⟨db, rfl⟩ := hstart
      exact ⟨fun x hx => absurd hx List.not_mem_nil, fun x hx => absurd hx List.not_mem_nil⟩
    | step _ hstep hsteady ih => exact step_inv ih hstep hsteady
  exact hinv.authorized

/-! ## a ban behind the check -/

theorem softFails_of_passes (h : Passes env fed db version r pdu) :
    db.softFails env fed version r pdu = db.redactionFails env version pdu := by
  obtain ⟨authEvents, hauth, hcheck⟩ := h
  unfold Db.softFails
  rw [hauth, except_ok_bind, hcheck]

namespace Banned
open Db.Sends

/-- a resolution takes the last of the states -/
def latest : Fed := { Fed.plain with resolve := fun _ forks _ _ => forks.getLast? }

/-- bob of another server has joined alice's room -/
def inside : Db :=
  (Db.upgradeOutlierToTimelinePdu .plain latest 100 bobsJoin create.pdu ⟨.ascii "y"⟩ room store).2

def bobsMessage : PduJson :=
  bobsEvent "$message" .roomMessage [("body", .str "hi")] none bobsJoin.pdu.eventId none

def ban : PduJson :=
  event "$ban" .roomMember [("membership", .str "ban")] (some "@bob:y") [bobsJoin.pdu.eventId]

/-- alice bans him -/
def banned (db : Db) : Db := (Db.buildAndAppendPdu .plain ban db).2

/-- the state at his message -/
def state : Tree Nat EventId :=
  match (Db.stateAtIncomingEvent .plain latest 100 ⟨.ascii "y"⟩ create.pdu room .v10 bobsMessage.pdu inside).1 with
  | .ok state => state
  | .error _ => .empty

abbrev settle (db : Db) : Except Error (Option Bytes) × Db :=
  Db.settle .plain latest 100 room .v10 bobsMessage state false db

/-- what is computed of the two stores -/
theorem computed : (inside.softFails .plain latest .v10 room bobsMessage.pdu = .ok false ∧
      (banned inside).softFails .plain latest .v10 room bobsMessage.pdu = .ok true) ∧
    ((settle inside).1.toOption.bind id).isSome = true ∧
      ((settle (banned inside)).1.toOption.bind id).isSome = true := by decide +kernel

theorem redactionFails_message (db : Db) : db.redactionFails .plain .v10 bobsMessage.pdu = .ok false := rfl

theorem exists_settled (x : Except Error (Option Bytes) × Db) (h : (x.1.toOption.bind id).isSome = true) :
    ∃ id db', x = (.ok (some id), db') := by
  obtain ⟨out, db'⟩ := x
  match out, h with
  | .ok (some id), _ => exact ⟨id, db', rfl⟩

/-- bob's message has passed the check against the store `seen` -/
abbrev judged (state : Tree Nat EventId) (seen : Db) : Judged := ⟨bobsMessage, room, .v10, state, false, seen⟩

theorem step_settle {seen : Db} {state : Tree Nat EventId} {id : Bytes}
    (h : Db.settle .plain latest 100 room .v10 bobsMessage state false db = (.ok (some id), db')) :
    Step .plain latest (.settle (judged state seen)) ⟨db, [judged state seen], []⟩
      ⟨db', [] ++ [], [⟨bobsMessage, room, .v10, db⟩]⟩ :=
  .append (List.nil_append _).symm rfl h

/-- he is alone -/
theorem run_alone {state : Tree Nat EventId} {id : Bytes}
    (hcheck : db.softFails .plain latest .v10 room bobsMessage.pdu = .ok false)
    (hsettle : Db.settle .plain latest 100 room .v10 bobsMessage state false db = (.ok (some id), db')) :
    Run .plain latest (Steady .plain latest) ⟨db', [] ++ [], [⟨bobsMessage, room, .v10, db⟩]⟩ := by
  have hjudge : Step .plain latest (.judge bobsMessage) ⟨db, [], []⟩ ⟨db, [judged state db], []⟩ := .judge state hcheck
  exact .step (.step (.start ⟨db, rfl⟩) hjudge trivial) (step_settle hsettle) rfl

/-- alice bans him behind the check -/
theorem run_banned {state : Tree Nat EventId} {id : Bytes}
    (hcheck : db.softFails .plain latest .v10 room bobsMessage.pdu = .ok false)
    (hsettle : Db.settle .plain latest 100 room .v10 bobsMessage state false (banned db) = (.ok (some id), db')) :
    Run .plain latest (fun _ _ => True) ⟨db', [] ++ [], [⟨bobsMessage, room, .v10, banned db⟩]⟩ := by
  have hjudge : Step .plain latest (.judge bobsMessage) ⟨db, [], []⟩ ⟨db, [judged state db], []⟩ := .judge state hcheck
  have hban : Step .plain latest (.send ban) ⟨db, [judged state db], []⟩ ⟨banned db, [judged state db], []⟩ :=
    .send ban
  exact .step (.step (.step (.start ⟨db, rfl⟩) hjudge trivial) hban trivial) (step_settle hsettle) trivial

theorem not_authorized (hcheck : db.softFails .plain latest .v10 room bobsMessage.pdu = .ok true) :
    ¬ Authorized .plain latest ⟨db', [] ++ [], [⟨bobsMessage, room, .v10, db⟩]⟩ := by
  intro hauthorized
  have hpasses := hauthorized ⟨bobsMessage, room, .v10, db⟩ List.mem_cons_self
  have hnone := (softFails_of_passes hpasses).trans (redactionFails_message db)
  rw [hcheck] at hnone
  cases hnone

end Banned

/-- the message is appended on the state that it was checked against -/
theorem appended_authorized_alone : ∃ w, w.log ≠ [] ∧ Authorized .plain Banned.latest w := by
  obtain ⟨id, db', hsettle⟩ := Banned.exists_settled (Banned.settle Banned.inside) Banned.computed.2.1
  have hrun := Banned.run_alone Banned.computed.1.1 hsettle
  exact ⟨_, List.cons_ne_nil _ _, appended_authorized hrun⟩

/-- bob is banned behind the check, and the message is appended all the same -/
theorem appended_unauthorized : ¬ ∀ (env : Env) (fed : Fed) (w : World), Run env fed (fun _ _ => True) w →
    Authorized env fed w := by
  intro hall
  obtain ⟨id, db', hsettle⟩ := Banned.exists_settled (Banned.settle (Banned.banned Banned.inside)) Banned.computed.2.2
  have hrun := Banned.run_banned Banned.computed.1.1 hsettle
  exact Banned.not_authorized Banned.computed.1.2 (hall .plain Banned.latest _ hrun)

end Staleness
end Grapevine
