import Grapevine.Events.Upgrade

/-!
# Joins over federation

`joinOverFederation` is `join_room_by_id_helper` once another server has answered the `send_join`
request: the events of the answer become outliers, the state among them becomes the state of the
room, and the join event is appended behind it.

* `SendJoinAnswer`     what the other server has answered;
* `prepareJoin`        everything up to the append, with the state that the join makes.
-/

namespace Grapevine
open Kv

/-- the answer to a `send_join` request, and the event it is about -/
structure SendJoinAnswer where
  version : RoomVersionId
  joinEvent : PduJson
  /-- `fetch_join_signing_keys` -/
  signingKeys : Except Error Unit
  /-- the validated events of the state; `none` stands for an object that is no event -/
  state : List (Option PduJson)
  /-- the validated events of the auth chain -/
  authChain : List PduJson

namespace Db

variable (env : Env) (fed : Fed)

def addPduOutlier (j : PduJson) : RoomComp Unit := onTimeline (fun t => t.addPduOutlier j.pdu.eventId j)

/-- the state that the answer's events make; a later event goes before an earlier one -/
def addJoinState : List (Option PduJson) → Tree Nat EventId → RoomComp (Tree Nat EventId)
  | [], state => pure state
  | none :: _, _ => Comp.throw (.badServerResponse "Invalid PDU in send_join response.")
  | some j :: events, state => do
    addPduOutlier j
    let state ← insertEvent j.pdu j.pdu.eventId state
    addJoinState events state

def checkJoinAuth (db : Db) (version : RoomVersionId) (pdu : PduEvent) (state : Tree Nat EventId) :
    Except Error Unit :=
  match fed.authCheck version pdu (fun kind stateKey =>
      ((db.state.statekeyShortstatekey (kind, stateKey)).bind state.get).bind db.findPdu) with
  | some true => .ok ()
  | _ => .error (.badRequest .invalidParam "Auth check failed")

/-- what happens before the join event is appended: the short state hash behind it -/
def prepareJoin (r : RoomId) (answer : SendJoinAnswer) : RoomComp Nat := do
  Comp.ofExcept answer.signingKeys
  let state ← addJoinState answer.state .empty
  answer.authChain.forM addPduOutlier
  Comp.reads (fun db => db.checkJoinAuth fed answer.version answer.joinEvent.pdu state)
  let compressed ← compressState (fed.entries state)
  let (statehashBeforeJoin, new, _) ← onState (StateDb.saveState env.digest env.ord r compressed)
  forceState env r statehashBeforeJoin new
  updateJoinedCount env r
  -- the state comes first, because `append_pdu` can't fail
  onState (StateDb.appendToState env.ord answer.joinEvent.pdu)

def joinOverFederation (r : RoomId) (answer : SendJoinAnswer) : RoomComp Unit := do
  let _ ← getOrCreateShortroomid r
  let statehashAfterJoin ← prepareJoin env fed r answer
  if answer.joinEvent.pdu.roomId ≠ r then Comp.throw (.panic "Token for incorrect room passed")
  else
    let _ ← appendPdu env answer.joinEvent [answer.joinEvent.pdu.eventId]
    onState (StateDb.setRoomState r statehashAfterJoin)

/-! ## what the preparation takes -/

theorem addJoinState_keeps {R : Db → Db → Prop} (hf : Fetching R) {events : List (Option PduJson)}
    (ho : ∀ j, some j ∈ events → ∀ db, R db (addPduOutlier j db).2) (state : Tree Nat EventId) :
    Comp.Keeps R (addJoinState events state) := by
  induction events generalizing state with
  | nil => exact hf.pure _
  | cons o events ih =>
    cases o with
    | none => exact hf.read fun _ => rfl
    | some j =>
      exact hf.bind (ho j List.mem_cons_self) fun _ =>
        hf.bind (insertEvent_quiet hf j.pdu j.pdu.eventId state) fun state =>
          ih (fun x hx => ho x (List.mem_cons_of_mem _ hx)) state

section
variable {R : Db → Db → Prop} (hq : Quiet R) (hb : Blind R)
  (hm : ∀ (db : Db) t, R db { db with members := t })
  (ha : ∀ (db : Db) t, R db { db with accounts := t })
  (hp : ∀ (db : Db) r s, R db { db with state := { db.state with
    roomidShortstatehash := Function.update db.state.roomidShortstatehash r s } })
  (ho : ∀ (db : Db) (j : PduJson), R db (addPduOutlier j db).2)
include hq hb hm ha hp ho

theorem prepareJoin_keeps (r : RoomId) (answer : SendJoinAnswer) :
    Comp.Keeps R (prepareJoin env fed r answer) :=
  hq.bind (hq.read fun _ => rfl) fun _ =>
    hq.bind (addJoinState_keeps hq.fetching (fun j _ db => ho db j) _) fun _ =>
      hq.bind (Comp.Keeps.forM hq.refl hq.trans _ fun j _ db => ho db j) fun _ =>
        hq.bind (hq.read fun _ => rfl) fun _ =>
          hq.bind (compressState_quiet hq _) fun _ =>
            hq.bind (hq.onState (StateDb.saveState_later _ _ _ _)) fun p =>
              hq.bind (forceState_keeps env hb hm ha hp r p.1 p.2.1) fun _ =>
                hq.bind (updateJoinedCount_keeps hb env r) fun _ =>
                  hq.onState (StateDb.appendToState_later _ _)

end

end Db
end Grapevine
