import Grapevine.Events.SeatedCalls
import Mathlib.Logic.Relation

/-!
# Memberships follow the room state

The seats of a room are written in two places: an append gives or takes the seat that its event is about, and a
forced state the seats of the entries that are new in it.  Nothing compares them with the state that the room is
pointed to.  A call that gets through keeps them in step if and only if it is steady, and steady calls keep them so
over all rooms and all interleavings.

* `RoomCall.Steady`        what a call has to meet;
* `RoomCall.seated`        it has to meet it, and nothing more;
* `RoomSteps`              what follows on a store by calls on any rooms, with anything else in between;
* `MemberRun`              runs of steady calls.

Main results: `memberships_follow`; whatever is called, `history_stays` and `rooms_apart`.
-/

namespace Grapevine
open Kv

namespace Db
open StateDb (Stands)

variable (env : Env) (fed : Fed) (own : EventId → Gist)
variable {o : Except Error Unit} {r : RoomId}

namespace RoomCall

/-- the events of the call come under their own ids -/
def Owned (r : RoomId) : RoomCall → Prop
  | buildAndAppendPdu j => j.pdu.gist = own j.pdu.eventId ∧ j.pdu.roomId = r
  | joinOverFederation answer => OwnAnswer own answer
  | upgradeOutlierToTimelinePdu _ j _ origin => j.pdu.gist = own j.pdu.eventId ∧ OwnAnswers fed own origin

/-- the resolved state has stored events under their own keys -/
def Places (r : RoomId) (db : Db) : RoomCall → Prop
  | upgradeOutlierToTimelinePdu fuel j createEvent origin =>
    PlacedState own j.pdu (resolvedState env fed fuel j createEvent origin r db)
  | _ => True

/-- what a call has to meet.  A local event decides about the seat of its user if he has one; the state of an answer
and a resolved state decide about all seats that are taken, but for those that the event itself decides about; and an
event that is let in is at one with the resolved state -/
def Steady (r : RoomId) (db : Db) : RoomCall → Prop
  | buildAndAppendPdu j => Decides env db r j.pdu.gist
  | joinOverFederation answer => FirmAnswer env own db r answer
  | upgradeOutlierToTimelinePdu fuel j createEvent origin =>
    db.timeline.getPduId j.pdu.eventId = none →
      FirmState env own db r j.pdu (SoftFailsAt env fed fuel j createEvent origin r db)
        (resolvedState env fed fuel j createEvent origin r db)

/-- the call gets through: it returns, or it soft fails its event -/
def Completes (r : RoomId) (o : Except Error Unit) (db db' : Db) : RoomCall → Prop
  | upgradeOutlierToTimelinePdu fuel j createEvent origin =>
    o = .ok () ∨ EndsSoftFailed env fed fuel j createEvent origin r db db'
  | _ => o = .ok ()

variable {env fed own} {r : RoomId} {db db' : Db}

/-- a computation whose value is dropped -/
theorem ends_unit {α : Type} {x : RoomComp α} {P Q : Db → Prop} (hx : Comp.Ends x db (fun _ => P) fun _ => Q)
    (h : (do let _ ← x : RoomComp Unit) db = (o, db')) :
    (o = .ok () → P db') ∧ (P db' ∨ Q db') := by
  unfold Comp.Ends at hx
  cases hrun : x db with
  | mk o₁ db₁ =>
    rw [hrun] at hx
    cases o₁ with
    | ok a =>
      rw [Comp.bind_ok hrun] at h
      cases h
      exact ⟨fun _ => hx, Or.inl hx⟩
    | error e =>
      rw [Comp.bind_error hrun] at h
      cases h
      exact ⟨nofun, Or.inr hx⟩

/-- what a call leaves: the other rooms as they were, and the seats of its own room in step with its state if they
were and it is steady, and only then -/
theorem seated (hcf : ∀ lists, StateDb.CollisionFree env.digest lists) (henv : KeepsMembership env)
    {c : RoomCall} (hown : c.Owned fed own r) (hr : Ready env own db) (h : c.run env fed r db = (o, db')) :
    Apart env own r db db' ∧ (c.Completes env fed r o db db' → c.Places env fed own r db → Seated env own db r →
      FollowsIff env own db' r (c.Steady env fed own r db)) := by
  cases c with
  | buildAndAppendPdu j =>
    obtain ⟨hj, rfl⟩ := hown
    obtain ⟨hok, hany⟩ := ends_unit (buildAndAppendPdu_seated henv hj hr) h
    exact ⟨hany.elim And.left id, fun hc _ => (hok hc).2⟩
  | joinOverFederation answer =>
    have hends : Comp.Ends (Db.joinOverFederation env fed r answer) db _ _ :=
      joinOverFederation_seated hcf henv hown hr
    unfold Comp.Ends at hends
    change Db.joinOverFederation env fed r answer db = (o, db') at h
    rw [h] at hends
    cases o with
    | ok x => exact ⟨hends.1, fun _ _ => hends.2⟩
    | error e => exact ⟨hends, nofun⟩
  | upgradeOutlierToTimelinePdu fuel j createEvent origin =>
    obtain ⟨hj, hans⟩ := hown
    obtain ⟨hok, hany⟩ := ends_unit (upgradeOutlierToTimelinePdu_seated hcf hans henv hj hr) h
    refine ⟨hany.elim And.left id, fun hc hplaced hs => ?_⟩
    rcases hc with hc | hsoft
    · exact (hok hc).2 hs hplaced
    · exact hsoft.seated hcf hans hr hs hplaced

end RoomCall

/-! ## runs -/

/-- the room is left where it was -/
structure Unmoved (r : RoomId) (db db' : Db) : Prop where
  pointer : db'.state.roomidShortstatehash r = db.state.roomidShortstatehash r
  seats : ∀ u, db'.members.isJoined u r = db.members.isJoined u r

/-- a call on a room that meets `ok`, whatever comes of it; or an outlier comes, a short id is made, or the tables
beside the rooms change -/
inductive RoomStep (ok : RoomId → RoomCall → Except Error Unit → Db → Db → Prop) : Db → Db → Prop where
  | call {db db' : Db} {r : RoomId} {c : RoomCall} {o : Except Error Unit} (hown : c.Owned fed own r)
      (hrun : c.run env fed r db = (o, db')) (hok : ok r c o db db') : RoomStep ok db db'
  | room (db : Db) (r : RoomId) : RoomStep ok db (getOrCreateShortroomid r db).2
  | outlier (db : Db) {e : EventId} {j : PduJson} (hj : j.pdu.gist = own e) :
      RoomStep ok db { db with timeline := db.timeline.addPduOutlier e j }
  | aside {α : Type} {x : RoomComp α} (db : Db) (hx : ∀ R : Db → Db → Prop, Fetching R → Blind R → Comp.Keeps R x) :
      RoomStep ok db (x db).2
  | accounts (db : Db) (t : AccountTables) : RoomStep ok db { db with accounts := t }

def RoomSteps (ok : RoomId → RoomCall → Except Error Unit → Db → Db → Prop) : Db → Db → Prop :=
  Relation.ReflTransGen (RoomStep env fed own ok)

/-- whatever is called -/
def anyCall : RoomId → RoomCall → Except Error Unit → Db → Db → Prop := fun _ _ _ _ _ => True

/-- the call is steady and gets through, or it leaves its room where it was -/
def Goes (r : RoomId) (c : RoomCall) (o : Except Error Unit) (db db' : Db) : Prop :=
  c.Completes env fed r o db db' ∧ c.Places env fed own r db ∧ c.Steady env fed own r db ∨ Unmoved r db db'

def MemberRun : Db → Prop := RoomSteps env fed own (Goes env fed own) Db.empty

variable {env fed own} {ok : RoomId → RoomCall → Except Error Unit → Db → Db → Prop} {db db' : Db}

theorem ready_empty : Ready env own Db.empty := ⟨sound_empty, told_empty, .start⟩

theorem seated_empty (r : RoomId) : Seated env own Db.empty r := by
  have hnone : ∀ key e, ¬ Stands Db.empty.state r key e := by
    rintro key e ⟨S, hS, _, _, _, _, hc⟩
    rw [hS.empty rfl] at hc
    exact Finset.notMem_empty _ hc
  refine ⟨⟨fun key e he => absurd he (hnone key e), fun k e he => absurd he (hnone _ e)⟩, fun u => ?_⟩
  exact iff_of_false nofun fun ⟨e, he, _⟩ => hnone _ e he

theorem RoomSteps.mono {ok' : RoomId → RoomCall → Except Error Unit → Db → Db → Prop}
    (hok : ∀ r c o x y, ok r c o x y → ok' r c o x y) (h : RoomSteps env fed own ok db db') :
    RoomSteps env fed own ok' db db' := by
  refine Relation.ReflTransGen.mono (fun x y hstep => ?_) _ _ h
  cases hstep with
  | call hown hrun h => exact .call hown hrun (hok _ _ _ _ _ h)
  | room _ r => exact .room x r
  | outlier _ hj => exact .outlier x hj
  | aside _ hx => exact .aside x hx
  | accounts _ t => exact .accounts x t

/-- one call -/
theorem RoomSteps.call {r : RoomId} {c : RoomCall} (hown : c.Owned fed own r)
    (hok : ok r c (c.run env fed r db).1 db (c.run env fed r db).2) :
    RoomSteps env fed own ok db (c.run env fed r db).2 := .single (.call hown rfl hok)

section
variable (hcf : ∀ lists, StateDb.CollisionFree env.digest lists) (henv : KeepsMembership env)
include hcf henv

/-- a step keeps what is stored, and moves no room but by a call on it -/
theorem RoomStep.effect (h : RoomStep env fed own ok db db') (hr : Ready env own db) : Kept env own db db' ∧
    ∀ q, Unmoved q db db' ∨ ∃ c o, c.Owned fed own q ∧ c.run env fed q db = (o, db') ∧ ok q c o db db' := by
  have hcarried : Carried env own noSeat db db' → Kept env own db db' ∧
      ∀ q, Unmoved q db db' ∨ ∃ c o, c.Owned fed own q ∧ c.run env fed q db = (o, db') ∧ ok q c o db db' :=
    fun hc => ⟨hc.toKept, fun q => Or.inl ⟨congrFun hc.pointers q, fun u => hc.seats u q not_false⟩⟩
  cases h with
  | @call _ _ r c o hown hrun hok =>
    obtain ⟨hapart, -⟩ := RoomCall.seated hcf henv hown hr hrun
    refine ⟨hapart.toKept, fun q => ?_⟩
    by_cases hq : q = r
    · subst hq
      exact Or.inr ⟨c, o, hown, hrun, hok⟩
    · exact Or.inl ⟨hapart.pointers q hq, fun u => hapart.seats u q hq⟩
  | room _ r => exact hcarried (getOrCreateShortroomid_carried hr r)
  | @outlier _ e j hj =>
    have hc : Carries env own ⟨.ascii ""⟩ (db.roomidShortroomid ⟨.ascii ""⟩) noSeat db
        { db with timeline := db.timeline.addPduOutlier e j } := addPduOutlier_carries hj db
    exact hcarried (hc rfl hr).1
  | @aside α x _ hx =>
    have hc : Comp.Keeps (Carries env own ⟨.ascii ""⟩ (db.roomidShortroomid ⟨.ascii ""⟩) noSeat) x :=
      hx _ carries_fetching carries_blind
    exact hcarried (hc db rfl hr).1
  | accounts _ t =>
    exact ⟨⟨⟨hr.sound, hr.told, hr.intact⟩, fun _ he => he, fun _ _ hv => hv, .refl _⟩,
      fun q => Or.inl ⟨rfl, fun _ => rfl⟩⟩

theorem RoomSteps.kept (h : RoomSteps env fed own ok db db') (hr : Ready env own db) : Kept env own db db' := by
  induction h with
  | refl => exact (Carried.refl hr : Carried env own noSeat _ _).toKept
  | tail _ hstep ih => exact ih.trans (hstep.effect hcf henv ih.ready).1

/-- in every room the seats are those that its state gives -/
theorem MemberRun.seated (h : MemberRun env fed own db) : Ready env own db ∧ ∀ r, Seated env own db r := by
  induction h with
  | refl => exact ⟨ready_empty, seated_empty⟩
  | tail _ hstep ih =>
    obtain ⟨hkept, hmoves⟩ := hstep.effect hcf henv ih.1
    have hstill := fun q (hun : Unmoved q _ _) => hkept.seated ih.1 hun.pointer hun.seats (ih.2 q)
    refine ⟨hkept.ready, fun q => ?_⟩
    rcases hmoves q with hun | ⟨c, o, hown, hrun, ⟨hcompletes, hplaced, hsteady⟩ | hun⟩
    · exact hstill q hun
    · exact ((RoomCall.seated hcf henv hown ih.1 hrun).2 hcompletes hplaced (ih.2 q)).iff.mpr hsteady
    · exact hstill q hun

end

/-- the member event that is read of a room's state gives a seat -/
def ReadsJoined (env : Env) (db : Db) (u : UserId) (r : RoomId) : Prop :=
  ∃ pdu, db.roomStateGet env r .roomMember (env.ids.userIdStr u) = .ok (some pdu) ∧
    extractMembership pdu.content = some .join

theorem gives_iff_reads (hr : Ready env own db) (hplaced : Placed own db.timeline (Stands db.state r))
    (u : UserId) : Gives own (Stands db.state r) (env.ids.userIdStr u) ↔ ReadsJoined env db u r := by
  unfold ReadsJoined
  rcases roomStateGet_current hr.intact env r .roomMember (env.ids.userIdStr u) with ⟨e, he, hget⟩ | ⟨hnone, hget⟩
  · obtain ⟨pdu, hpdu, hgist⟩ := hr.told.getPdu_stored (hplaced.stored _ e he)
    have hkind : pdu.kind = .roomMember := (gist_key.mp (hgist ▸ hplaced.key _ e he)).1
    rw [hget, hpdu]
    constructor
    · rintro ⟨e', he', hm⟩
      obtain ⟨S, hS⟩ := StateDb.exists_isCurrent hr.intact.core r
      rw [hS.current_iff] at he he'
      rw [← hr.intact.maps.entry_unique (hS.made hr.intact) he he', ← hgist, gist_membership hkind] at hm
      exact ⟨pdu, rfl, hm⟩
    · rintro ⟨pdu', heq, hm⟩
      cases heq
      exact ⟨e, he, by rw [← hgist, gist_membership hkind, hm]⟩
  · rw [hget]
    exact iff_of_false (fun ⟨e, he, _⟩ => hnone e he) fun ⟨pdu, hpdu, _⟩ => by cases hpdu

/-- **memberships follow the state**: after every step of a run, a user has joined a room if and only if the
member event that is read of the room's state says so -/
theorem memberships_follow (hcf : ∀ lists, StateDb.CollisionFree env.digest lists) (henv : KeepsMembership env)
    (h : MemberRun env fed own db) (u : UserId) (r : RoomId) :
    db.members.isJoined u r = true ↔ ReadsJoined env db u r := by
  obtain ⟨hr, hs⟩ := h.seated hcf henv
  rw [(hs r).seats u, gives_iff_reads hr (hs r).placed u]

/-- **and only in such runs**: a call that gets through keeps the memberships of its room in step with the state if
and only if it is steady -/
theorem memberships_follow_iff (hcf : ∀ lists, StateDb.CollisionFree env.digest lists) (henv : KeepsMembership env)
    (h : MemberRun env fed own db) {r : RoomId} {c : RoomCall} (hown : c.Owned fed own r) {o : Except Error Unit}
    (hrun : c.run env fed r db = (o, db')) (hc : c.Completes env fed r o db db') (hplaced : c.Places env fed own r db) :
    (∀ u, db'.members.isJoined u r = true ↔ ReadsJoined env db' u r) ↔ c.Steady env fed own r db := by
  obtain ⟨hr, hs⟩ := h.seated hcf henv
  obtain ⟨hapart, hfollows⟩ := RoomCall.seated hcf henv hown hr hrun
  obtain ⟨hplaced', hiff⟩ := hfollows hc hplaced (hs r)
  rw [← hiff, seated_iff hplaced']
  exact forall_congr' fun u => by rw [gives_iff_reads hapart.ready hplaced' u]

/-- **what is stored stays**: whatever is called on any rooms, an event that is found is found later, with the key,
the sender and the membership it had, and a saved state is loaded and read as before -/
theorem history_stays (hcf : ∀ lists, StateDb.CollisionFree env.digest lists) (henv : KeepsMembership env)
    (h : RoomSteps env fed own anyCall Db.empty db) (h' : RoomSteps env fed own anyCall db db') :
    (∀ e p, db.getPdu e = .ok (some p) → ∃ p', db'.getPdu e = .ok (some p') ∧ p'.gist = p.gist) ∧
      ∀ n S, db.fullState n = .ok S → db'.fullState n = .ok S ∧
        ∀ ty stateKey, db'.stateGetId env n ty stateKey = db.stateGetId env n ty stateKey := by
  have hr := (h.kept hcf henv ready_empty).ready
  have hkept := h'.kept hcf henv hr
  refine ⟨fun e p hp => ?_, fun n S hS => ?_⟩
  · obtain ⟨hstored, hp⟩ := hr.told.getPdu_told hp
    obtain ⟨p', hp', hgist⟩ := hkept.ready.told.getPdu_stored (hkept.stays e hstored)
    exact ⟨p', hp', hgist.trans hp.symm⟩
  · have hfull := (fullState_iff hr.intact.maps.layers).mp hS
    have hS' : db'.fullState n = .ok S :=
      (fullState_iff hkept.ready.intact.maps.layers).mpr (hfull.extends hkept.rows)
    refine ⟨hS', fun ty stateKey => ?_⟩
    obtain ⟨o, ho, hiff⟩ := stateGetId_entry hr.intact env hS ty stateKey
    obtain ⟨o', ho', hiff'⟩ := stateGetId_entry hkept.ready.intact env hS' ty stateKey
    have hsame : o' = o := Option.ext fun e => by
      rw [hiff, hiff', hr.intact.maps.entry_grow hkept.ready.intact.maps hkept.numbers (hr.intact.maps.made n S hfull)]
    rw [ho, ho', hsame]

namespace Sends

/-- a redaction that leaves the content what it is -/
def keeping : Env := { Env.plain with redactContentInPlace := fun content _ _ => some content }

/-- the creation and alice's join -/
def ownOf (e : EventId) : Gist := if e = create.pdu.eventId then create.pdu.gist else join.pdu.gist

/-- alice has created the room -/
def founded : Db :=
  ((RoomCall.buildAndAppendPdu create).run keeping .plain room (getOrCreateShortroomid room empty).2).2

/-- and joined it -/
def seatedStore : Db := ((RoomCall.buildAndAppendPdu join).run keeping .plain room founded).2

theorem ok_of_toBool (h : o.toBool = true) : o = .ok () := by
  cases o with
  | ok x => rfl
  | error e => cases h

theorem run_of_toBool {x : RoomComp Unit} {db : Db} (h : (x db).1.toBool = true) : x db = (.ok (), (x db).2) :=
  Prod.ext (ok_of_toBool h) rfl

/-- a steady call that returns -/
theorem run_steady {env : Env} {fed : Fed} {own : EventId → Gist} {db : Db} {j : PduJson}
    (h : MemberRun env fed own db) (hown : j.pdu.gist = own j.pdu.eventId ∧ j.pdu.roomId = r)
    (hb : ((RoomCall.buildAndAppendPdu j).run env fed r db).1.toBool = true)
    (hdec : Decides env db r j.pdu.gist) :
    MemberRun env fed own ((RoomCall.buildAndAppendPdu j).run env fed r db).2 :=
  h.trans (RoomSteps.call (c := .buildAndAppendPdu j) hown (Or.inl ⟨ok_of_toBool hb, trivial, hdec⟩))

/-- what is computed of the two calls -/
theorem seated_computed :
    ((RoomCall.buildAndAppendPdu create).run keeping .plain room
        (getOrCreateShortroomid room empty).2).1.toBool = true ∧
      ((RoomCall.buildAndAppendPdu join).run keeping .plain room founded).1.toBool = true := by decide +kernel

theorem run_founded : MemberRun keeping .plain ownOf founded := by
  refine run_steady (.single (.room empty room)) ⟨(if_pos rfl).symm, rfl⟩ seated_computed.1 fun u hkey => ?_
  have hkind := (gist_key.mp hkey).1
  cases hkind

theorem owned_join : RoomCall.Owned .plain ownOf room (.buildAndAppendPdu join) := ⟨(if_neg (by decide)).symm, rfl⟩

theorem decides_join : Decides keeping founded room join.pdu.gist := by
  intro u hkey _
  have hjoin : join.pdu.gist.membership = some .join := by decide
  rw [seat_join hkey hjoin]
  exact nofun

theorem run_seatedStore : MemberRun keeping .plain ownOf seatedStore :=
  run_steady run_founded owned_join seated_computed.2 decides_join

theorem run_join : (RoomCall.buildAndAppendPdu join).run keeping .plain room founded = (.ok (), seatedStore) :=
  run_of_toBool seated_computed.2

theorem exists_found {x : Except Error (Option PduEvent)} (h : (x.toOption.bind id).isSome = true) :
    ∃ p, x = .ok (some p) := by
  rcases x with _ | _ | p
  · cases h
  · cases h
  · exact ⟨p, rfl⟩

/-- no digest is taken, so that none is taken twice -/
theorem keeping_collisionFree (lists : List (List CompressedStateEvent)) :
    StateDb.CollisionFree keeping.digest lists := fun _ _ _ _ h => h

theorem keeping_membership : KeepsMembership keeping := fun content _ redacted h => by rw [Option.some.inj h]

end Sends

/-- alice creates the room and joins it; her membership is read of the state -/
theorem memberships_follow_join : ReadsJoined Sends.keeping Sends.seatedStore Sends.alice Sends.room :=
  (memberships_follow Sends.keeping_collisionFree Sends.keeping_membership Sends.run_seatedStore Sends.alice
    Sends.room).mp (by decide +kernel)

/-- her join is steady -/
theorem memberships_follow_iff_join :
    Sends.seatedStore.members.isJoined Sends.alice Sends.room = true ↔
      ReadsJoined Sends.keeping Sends.seatedStore Sends.alice Sends.room :=
  (memberships_follow_iff Sends.keeping_collisionFree Sends.keeping_membership Sends.run_founded Sends.owned_join
    Sends.run_join rfl trivial).mpr Sends.decides_join Sends.alice

/-- the creation of the room is found behind her join -/
theorem history_stays_join : ∃ p p', Sends.founded.getPdu Sends.create.pdu.eventId = .ok (some p) ∧
    Sends.seatedStore.getPdu Sends.create.pdu.eventId = .ok (some p') ∧ p'.gist = p.gist := by
  obtain ⟨p, hp⟩ := Sends.exists_found (x := Sends.founded.getPdu Sends.create.pdu.eventId) (by decide +kernel)
  have hany : ∀ r c o x y, Goes Sends.keeping .plain Sends.ownOf r c o x y → anyCall r c o x y :=
    fun _ _ _ _ _ _ => trivial
  obtain ⟨p', hp', hgist⟩ := (history_stays Sends.keeping_collisionFree Sends.keeping_membership
    (Sends.run_founded.mono hany) (.single (.call Sends.owned_join Sends.run_join trivial))).1 _ p hp
  exact ⟨p, p', hp, hp', hgist⟩

end Db
end Grapevine
