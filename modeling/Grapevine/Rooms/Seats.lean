import Grapevine.Rooms.Frames

/-!
# Seats

A user has a seat in a room if the table of the joined users has a row for the two (`isJoined`).
`update_membership` is what gives and takes seats.

* `seatOf`                       what a membership makes of a seat, if anything;
* `updateMembership_seat`        a call that returns has done this to the seat, and nothing to the others;
* `applyMember_seat`             the same of a member event that is appended.
-/

namespace Grapevine
open Kv

namespace Db

variable (env : Env)
variable {x : Unit} {updateCount : Bool} {db db' : Db} {r : RoomId} {u : UserId}

/-- what a membership makes of the seat of the user: an invite that is ignored, a knock, and what is not
known as a membership leave it as it is -/
def seatOf (db : Db) (u : UserId) (membership : MembershipState) (sender : UserId) : Option Bool :=
  match membership with
  | .join => some true
  | .invite =>
    match db.isIgnored env u sender with
    | .ok false => some false
    | _ => none
  | .leave => some false
  | .ban => some false
  | .knock => none
  | .custom _ => none

/-- the seat depends on who is ignored alone -/
theorem seatOf_congr (h : SameIgnored db.accounts db'.accounts) (u : UserId) (membership : MembershipState)
    (sender : UserId) :
    db'.seatOf env u membership sender = db.seatOf env u membership sender := by
  have hignored : db'.isIgnored env u sender = db.isIgnored env u sender := by
    unfold isIgnored
    rw [h u]
  unfold seatOf
  rw [hignored]

/-- the count of the joined users is not the table -/
theorem countSeats_members
    (h : (if updateCount then updateJoinedCount env r else pure () : RoomComp Unit) db = (.ok x, db')) :
    db'.members = db.members := by
  cases updateCount with
  | true =>
    cases h
    rfl
  | false =>
    cases h
    rfl

theorem trackRemoteUser_ok (h : trackRemoteUser env u db = (.ok x, db')) :
    db'.members = db.members ∧ SameIgnored db.accounts db'.accounts := by
  unfold trackRemoteUser at h
  split at h
  · cases h
    exact ⟨rfl, fun _ => rfl⟩
  · cases h
    exact ⟨rfl, fun _ => rfl⟩

/-- a call that returns has done to the seat what the membership makes of it -/
theorem updateMembership_seat {membership : MembershipState} {sender : UserId} {lastState : Option (List Json)}
    (h : updateMembership env r u membership sender lastState updateCount db = (.ok x, db')) :
    db'.members.isJoined u r = (db.seatOf env u membership sender).getD (db.members.isJoined u r) := by
  obtain ⟨_, db₁, htrack, h⟩ := Comp.bind_eq_ok.mp h
  obtain ⟨hmembers, hignored⟩ := trackRemoteUser_ok env htrack
  rw [← hmembers, ← seatOf_congr env hignored]
  obtain ⟨done, db₂, happly, h⟩ := Comp.bind_eq_ok.mp h
  have hlast : db'.members = db₂.members := by
    cases done with
    | true => exact countSeats_members env h
    | false =>
      cases h
      rfl
  rw [hlast]
  have hleft : ∀ {a b : Db} {y : Bool}, (markAsLeft u r >>= fun _ => pure true : RoomComp Bool) a = (.ok y, b) →
      b.members.isJoined u r = false := by
    intro a b y hrun
    obtain ⟨_, a₁, hmark, hrun⟩ := Comp.bind_eq_ok.mp hrun
    cases hrun
    obtain ⟨count, a₂, -, hmark⟩ := Comp.bind_eq_ok.mp hmark
    cases hmark
    exact a₂.members.isJoined_markAsLeft u r count
  cases membership with
  | join =>
    obtain ⟨_, db₃, hjoin, happly⟩ := Comp.bind_eq_ok.mp happly
    cases happly
    obtain ⟨_, db₄, -, hjoin⟩ := Comp.bind_eq_ok.mp hjoin
    cases hjoin
    exact db₄.members.isJoined_markAsJoined u r
  | invite =>
    obtain ⟨ignored, hread, happly⟩ := Comp.reads_eq_ok happly
    unfold seatOf
    rw [hread]
    cases ignored with
    | true =>
      cases happly
      rfl
    | false =>
      obtain ⟨_, db₃, hmark, happly⟩ := Comp.bind_eq_ok.mp happly
      cases happly
      obtain ⟨count, db₄, -, hmark⟩ := Comp.bind_eq_ok.mp hmark
      cases hmark
      exact db₄.members.isJoined_markAsInvited u r lastState count
  | leave => exact hleft happly
  | ban => exact hleft happly
  | knock =>
    cases happly
    rfl
  | custom s =>
    cases happly
    rfl

/-- a member event that was applied -/
theorem applyMember_seat {pdu : PduEvent} {stateKey : String} (hk : pdu.stateKey = some stateKey)
    (h : applyMember env pdu db = (.ok x, db')) : ∃ u membership,
      env.ids.userIdOfStr stateKey = some u ∧ extractMembership pdu.content = some membership ∧
      db'.members.isJoined u pdu.roomId =
        (db.seatOf env u membership pdu.sender).getD (db.members.isJoined u pdu.roomId) := by
  unfold applyMember at h
  rw [hk] at h
  obtain ⟨u, db₁, hu, h⟩ := Comp.bind_eq_ok.mp h
  obtain ⟨htarget, rfl⟩ := Prod.mk.inj hu
  obtain ⟨membership, db₂, hmembership, h⟩ := Comp.bind_eq_ok.mp h
  obtain ⟨hcontent, rfl⟩ := Prod.mk.inj hmembership
  obtain ⟨state, -, h⟩ := Comp.reads_eq_ok h
  refine ⟨u, membership, memberTarget_ok env htarget, ?_, updateMembership_seat env h⟩
  unfold contentMembership at hcontent
  cases hm : extractMembership pdu.content with
  | none =>
    rw [hm] at hcontent
    cases hcontent
  | some m =>
    rw [hm] at hcontent
    cases hcontent
    rfl

end Db
end Grapevine
