import Grapevine.Rooms.Frames

/-!
# Membership tables over runs

`updateMembership` and `forget` write up to six tables for a user and a room.  However the calls
follow each other, and also where one fails on its way, a pair is joined, invited or left at most.

* `Op.About`        the user and the room of a write; a call writes for one pair only (`Touches`);
* `ConsistentAt`    a pair is in one of the three states, and the tables agree about it;
* `MembershipRun`   the stores that calls reach, whatever happens to the other tables between them.

Main result: `membership_consistent`.
-/

namespace Grapevine
open Kv

/-! ## two texts in a key -/

/-- a key of two texts -/
def glue (a b : Text) : Bytes := a.bytes ++ sep :: b.bytes

theorem Text.ext_of_bytes {a b : Text} (h : a.bytes = b.bytes) : a = b := by
  obtain ⟨a, _⟩ := a
  obtain ⟨b, _⟩ := b
  cases h
  rfl

theorem glue_inj {a b a' b' : Text} (h : glue a b = glue a' b') : a = a' ∧ b = b' := by
  obtain ⟨h1, h2⟩ := sep_append_inj a.noSep a'.noSep h
  exact ⟨Text.ext_of_bytes h1, Text.ext_of_bytes h2⟩

section
variable {ν : Type}

/-- every key is one of two texts of these kinds -/
def Glued (α β : Type) (f : α → Text) (g : β → Text) (t : Tree Bytes ν) : Prop :=
  ∀ row ∈ t.rows, ∃ (a : α) (b : β), row.1 = glue (f a) (g b)

variable {α β : Type} {f : α → Text} {g : β → Text} {t : Tree Bytes ν}

theorem glued_empty : Glued α β f g (.empty : Tree Bytes ν) := fun _ h => absurd h List.not_mem_nil

theorem Glued.insert (h : Glued α β f g t) (a : α) (b : β) (v : ν) :
    Glued α β f g (t.insert (glue (f a) (g b)) v) := by
  intro row hrow
  rcases (t.mem_insert _ _ _).mp hrow with rfl | ⟨hrow, _⟩
  · exact ⟨a, b, rfl⟩
  · exact h row hrow

theorem Glued.remove (h : Glued α β f g t) (k : Bytes) : Glued α β f g (t.remove k) :=
  fun row hrow => h row ((t.mem_remove _ _).mp hrow).1

/-- the rows under a first text -/
theorem mem_scan_glued (h : Glued α β f g t) (a : α) (row : Bytes × ν) :
    row ∈ t.scanPrefix ((f a).bytes ++ [sep]) ↔ row ∈ t.rows ∧ ∃ b, row.1 = glue (f a) (g b) := by
  rw [t.mem_scanPrefix]
  refine and_congr_right fun hrow => ⟨fun hp => ?_, fun ⟨b, hb⟩ => ?_⟩
  · obtain ⟨a', b, hk⟩ := h row hrow
    rw [hk] at hp
    have e := Text.ext_of_bytes ((sep_prefix_iff (f a).noSep (f a').noSep (g b).bytes).mp hp)
    exact ⟨b, by rw [hk, e]⟩
  · rw [hb]
    exact (sep_prefix_iff (f a).noSep (f a).noSep (g b).bytes).mpr rfl

end

namespace MemberTables

variable {t : MemberTables} {u v : UserId} {q r : RoomId} {op : Op}

/-! ## one write -/

/-- the write is for this user and this room -/
def Op.About (u : UserId) (r : RoomId) : Op → Prop
  | .markAsOnceJoined v q => v = u ∧ q = r
  | .markAsJoined v q => v = u ∧ q = r
  | .markAsInvited v q _ _ => v = u ∧ q = r
  | .markAsLeft v q _ => v = u ∧ q = r
  | .forget q v => v = u ∧ q = r

/-- a pair is in one state at most, and the tables of users and of rooms agree about it -/
structure ConsistentAt (t : MemberTables) (u : UserId) (r : RoomId) : Prop where
  joined : (t.roomuseridJoined.get (roomuserId r u)).isSome = t.isJoined u r
  invited : (t.roomuseridInvitecount.get (roomuserId r u)).isSome = t.isInvited u r
  left : (t.roomuseridLeftcount.get (roomuserId r u)).isSome = t.isLeft u r
  joined_invited : ¬ (t.isJoined u r = true ∧ t.isInvited u r = true)
  joined_left : ¬ (t.isJoined u r = true ∧ t.isLeft u r = true)
  invited_left : ¬ (t.isInvited u r = true ∧ t.isLeft u r = true)

/-- the six rows of a pair -/
structure SameRows (t t' : MemberTables) (u : UserId) (r : RoomId) : Prop where
  userroomidJoined : t'.userroomidJoined.get (userroomId u r) = t.userroomidJoined.get (userroomId u r)
  roomuseridJoined : t'.roomuseridJoined.get (roomuserId r u) = t.roomuseridJoined.get (roomuserId r u)
  userroomidInvitestate :
    t'.userroomidInvitestate.get (userroomId u r) = t.userroomidInvitestate.get (userroomId u r)
  roomuseridInvitecount :
    t'.roomuseridInvitecount.get (roomuserId r u) = t.roomuseridInvitecount.get (roomuserId r u)
  userroomidLeftstate :
    t'.userroomidLeftstate.get (userroomId u r) = t.userroomidLeftstate.get (userroomId u r)
  roomuseridLeftcount :
    t'.roomuseridLeftcount.get (roomuserId r u) = t.roomuseridLeftcount.get (roomuserId r u)

theorem SameRows.refl (t : MemberTables) (u : UserId) (r : RoomId) : SameRows t t u r :=
  ⟨rfl, rfl, rfl, rfl, rfl, rfl⟩

theorem SameRows.trans {t' t'' : MemberTables} (h : SameRows t t' u r) (h' : SameRows t' t'' u r) :
    SameRows t t'' u r where
  userroomidJoined := h'.userroomidJoined.trans h.userroomidJoined
  roomuseridJoined := h'.roomuseridJoined.trans h.roomuseridJoined
  userroomidInvitestate := h'.userroomidInvitestate.trans h.userroomidInvitestate
  roomuseridInvitecount := h'.roomuseridInvitecount.trans h.roomuseridInvitecount
  userroomidLeftstate := h'.userroomidLeftstate.trans h.userroomidLeftstate
  roomuseridLeftcount := h'.roomuseridLeftcount.trans h.roomuseridLeftcount

theorem ConsistentAt.of_same {t' : MemberTables} (h : ConsistentAt t u r) (hs : SameRows t t' u r) :
    ConsistentAt t' u r := by
  have hjoined : t'.isJoined u r = t.isJoined u r := congrArg Option.isSome hs.userroomidJoined
  have hinvited : t'.isInvited u r = t.isInvited u r := congrArg Option.isSome hs.userroomidInvitestate
  have hleft : t'.isLeft u r = t.isLeft u r := congrArg Option.isSome hs.userroomidLeftstate
  constructor
  · rw [hs.roomuseridJoined, hjoined, h.joined]
  · rw [hs.roomuseridInvitecount, hinvited, h.invited]
  · rw [hs.roomuseridLeftcount, hleft, h.left]
  · rw [hjoined, hinvited]
    exact h.joined_invited
  · rw [hjoined, hleft]
    exact h.joined_left
  · rw [hinvited, hleft]
    exact h.invited_left

theorem consistentAt_empty (u : UserId) (r : RoomId) : ConsistentAt empty u r :=
  ⟨rfl, rfl, rfl, nofun, nofun, nofun⟩

theorem roomuserId_inj (h : roomuserId r u = roomuserId q v) :
    u = v ∧ r = q := by
  obtain ⟨h1, h2⟩ := sep_append_inj r.noSep q.noSep h
  exact ⟨UserId.ext_bytes h2, RoomId.ext_bytes h1⟩

/-- a write leaves the rows of the other pairs alone -/
theorem Op.apply_other (h : op.About u r) (hne : ¬ (v = u ∧ q = r)) (t : MemberTables) :
    SameRows t (op.apply t) v q := by
  have huser : userroomId v q ≠ userroomId u r := fun he => hne (userroomId_inj he)
  have hroom : roomuserId q v ≠ roomuserId r u := fun he => hne (roomuserId_inj he)
  cases op with
  | markAsOnceJoined v' q' => exact ⟨rfl, rfl, rfl, rfl, rfl, rfl⟩
  | markAsJoined v' q' =>
    obtain ⟨rfl, rfl⟩ := h
    constructor <;> simp [Op.apply, MemberTables.markAsJoined, huser, hroom]
  | markAsInvited v' q' st c =>
    obtain ⟨rfl, rfl⟩ := h
    constructor <;> simp [Op.apply, MemberTables.markAsInvited, huser, hroom]
  | markAsLeft v' q' c =>
    obtain ⟨rfl, rfl⟩ := h
    constructor <;> simp [Op.apply, MemberTables.markAsLeft, huser, hroom]
  | forget q' v' =>
    obtain ⟨rfl, rfl⟩ := h
    constructor <;> simp [Op.apply, MemberTables.forget, huser, hroom]

/-- a write leaves its own pair consistent -/
theorem Op.apply_self (h : op.About u r) (ht : ConsistentAt t u r) : ConsistentAt (op.apply t) u r := by
  cases op with
  | markAsOnceJoined v q => exact ht.of_same ⟨rfl, rfl, rfl, rfl, rfl, rfl⟩
  | markAsJoined v q =>
    obtain ⟨rfl, rfl⟩ := h
    constructor <;> simp [Op.apply, MemberTables.markAsJoined, isJoined, isInvited, isLeft]
  | markAsInvited v q st c =>
    obtain ⟨rfl, rfl⟩ := h
    constructor <;> simp [Op.apply, MemberTables.markAsInvited, isJoined, isInvited, isLeft]
  | markAsLeft v q c =>
    obtain ⟨rfl, rfl⟩ := h
    constructor <;> simp [Op.apply, MemberTables.markAsLeft, isJoined, isInvited, isLeft]
  | forget q v =>
    obtain ⟨rfl, rfl⟩ := h
    have hinvited := ht.joined_invited
    unfold isJoined isInvited at hinvited
    constructor
    · exact ht.joined
    · exact ht.invited
    · simp [Op.apply, MemberTables.forget, isLeft]
    · exact hinvited
    · simp [Op.apply, MemberTables.forget, isLeft]
    · simp [Op.apply, MemberTables.forget, isLeft]

theorem Op.apply_consistent (h : op.About u r) (ht : ∀ v q, ConsistentAt t v q) (v : UserId) (q : RoomId) :
    ConsistentAt (op.apply t) v q := by
  by_cases hvq : v = u ∧ q = r
  · obtain ⟨rfl, rfl⟩ := hvq
    exact Op.apply_self h (ht v q)
  · exact (ht v q).of_same (Op.apply_other h hvq t)

/-! ### several writes for one pair -/

section
variable {u : UserId} {r : RoomId} {ops : List Op} (hops : ∀ op ∈ ops, op.About u r)
include hops

theorem run_other (t : MemberTables) (hne : ¬ (v = u ∧ q = r)) :
    SameRows t (t.run ops) v q := by
  induction ops generalizing t with
  | nil => exact .refl t v q
  | cons op ops ih =>
    exact (Op.apply_other (hops op List.mem_cons_self) hne t).trans
      (ih (fun op hop => hops op (List.mem_cons_of_mem _ hop)) _)

theorem run_consistent (ht : ∀ v q, ConsistentAt t v q) (v : UserId) (q : RoomId) :
    ConsistentAt (t.run ops) v q := by
  induction ops generalizing t with
  | nil => exact ht v q
  | cons op ops ih =>
    exact ih (fun op hop => hops op (List.mem_cons_of_mem _ hop))
      (Op.apply_consistent (hops op List.mem_cons_self) ht)

end
/-! ### keys -/

/-- the keys of the six tables -/
structure Paired (t : MemberTables) : Prop where
  userroomidJoined : Glued UserId RoomId UserId.toText RoomId.toText t.userroomidJoined
  roomuseridJoined : Glued RoomId UserId RoomId.toText UserId.toText t.roomuseridJoined
  userroomidInvitestate : Glued UserId RoomId UserId.toText RoomId.toText t.userroomidInvitestate
  roomuseridInvitecount : Glued RoomId UserId RoomId.toText UserId.toText t.roomuseridInvitecount
  userroomidLeftstate : Glued UserId RoomId UserId.toText RoomId.toText t.userroomidLeftstate
  roomuseridLeftcount : Glued RoomId UserId RoomId.toText UserId.toText t.roomuseridLeftcount

theorem paired_empty : Paired empty :=
  ⟨glued_empty, glued_empty, glued_empty, glued_empty, glued_empty, glued_empty⟩

theorem Paired.apply (h : Paired t) (op : Op) : Paired (op.apply t) := by
  cases op with
  | markAsOnceJoined u r => exact ⟨h.1, h.2, h.3, h.4, h.5, h.6⟩
  | markAsJoined u r =>
    exact ⟨h.1.insert u r (), h.2.insert r u (), h.3.remove _, h.4.remove _, h.5.remove _, h.6.remove _⟩
  | markAsInvited u r st c =>
    exact ⟨h.1.remove _, h.2.remove _, h.3.insert u r _, h.4.insert r u c, h.5.remove _, h.6.remove _⟩
  | markAsLeft u r c =>
    exact ⟨h.1.remove _, h.2.remove _, h.3.remove _, h.4.remove _, h.5.insert u r [], h.6.insert r u c⟩
  | forget r u => exact ⟨h.1, h.2, h.3, h.4, h.5.remove _, h.6.remove _⟩

theorem Paired.run (h : Paired t) (ops : List Op) : Paired (t.run ops) := by
  induction ops generalizing t with
  | nil => exact h
  | cons op ops ih => exact ih (h.apply op)

end MemberTables

/-! ## calls -/

namespace Db

open MemberTables

variable (env : Env)

/-- the membership tables are written for one pair only, and the roster is left alone -/
def Touches (u : UserId) (r : RoomId) (db db' : Db) : Prop :=
  db'.roster = db.roster ∧
    ∃ ops : List Op, (∀ op ∈ ops, op.About u r) ∧ db'.members = db.members.run ops

section
variable {u : UserId} {r : RoomId}

theorem touches_same {db db' : Db} (hr : db'.roster = db.roster) (hm : db'.members = db.members) :
    Touches u r db db' := ⟨hr, [], nofun, hm⟩

theorem Touches.trans (a b c : Db) (h : Touches u r a b) (h' : Touches u r b c) : Touches u r a c := by
  obtain ⟨hr, ops, hops, hm⟩ := h
  obtain ⟨hr', ops', hops', hm'⟩ := h'
  refine ⟨hr'.trans hr, ops ++ ops', fun op hop => ?_, ?_⟩
  · rcases List.mem_append.mp hop with hop | hop
    · exact hops op hop
    · exact hops' op hop
  · rw [hm', hm]
    exact (List.foldl_append ..).symm

theorem touches_bind {α β : Type} {x : RoomComp α} {f : α → RoomComp β}
    (hx : Comp.Keeps (Touches u r) x) (hf : ∀ a, Comp.Keeps (Touches u r) (f a)) :
    Comp.Keeps (Touches u r) (x >>= f) := Comp.Keeps.bind Touches.trans hx hf

theorem touches_read {α : Type} {x : RoomComp α} (h : ∀ db, (x db).2 = db) :
    Comp.Keeps (Touches u r) x := Comp.Keeps.of_read (fun _ => touches_same rfl rfl) h

theorem touches_op (op : Op) (h : op.About u r) : Comp.Keeps (Touches u r) (onMembers op.apply) :=
  Comp.Keeps.modify fun _ => ⟨rfl, [op], fun op' hop => by
    rw [List.mem_singleton.mp hop]
    exact h, rfl⟩

theorem touches_nextCount : Comp.Keeps (Touches u r) nextCount := fun _ => touches_same rfl rfl

theorem touches_onAccounts (f : AccountTables → AccountTables) :
    Comp.Keeps (Touches u r) (onAccounts f) := Comp.Keeps.modify fun _ => touches_same rfl rfl

theorem touches_updateAccountData (q : Option RoomId) (v : UserId) (eventType : String) (data : Json) :
    Comp.Keeps (Touches u r) (warned (updateAccountData q v eventType data)) := by
  have hupdate : Comp.Keeps (Touches u r) (updateAccountData q v eventType data) := by
    refine touches_bind touches_nextCount fun _ => ?_
    split
    · exact touches_onAccounts _
    · exact touches_read fun _ => rfl
  intro db
  have h := hupdate db
  unfold warned
  cases hrun : updateAccountData q v eventType data db with
  | mk o db' =>
    rw [hrun] at h
    cases o with
    | ok a => exact h
    | error e =>
      show Touches u r db (if e.isPanic then (.error e, db') else (.ok (), db') :
        Except Error Unit × Db).2
      split <;> exact h

theorem touches_copyUpgradedAccountData (fromRoom toRoom : RoomId) :
    Comp.Keeps (Touches u r) (copyUpgradedAccountData env u fromRoom toRoom) := by
  refine touches_bind (touches_bind (touches_read fun _ => rfl) fun db => ?_) fun _ =>
    touches_bind (touches_read fun _ => rfl) fun db => ?_
  · split
    · exact touches_updateAccountData _ _ _ _
    · exact touches_read fun _ => rfl
  · split
    · split
      · exact touches_updateAccountData _ _ _ _
      · exact touches_read fun _ => rfl
    · exact touches_read fun _ => rfl

theorem touches_applyJoin : Comp.Keeps (Touches u r) (applyJoin env u r) := by
  refine touches_bind (touches_bind (touches_read fun _ => rfl) fun db => ?_) fun _ =>
    touches_op (.markAsJoined u r) ⟨rfl, rfl⟩
  split
  · exact touches_read fun _ => rfl
  · refine touches_bind (touches_op (.markAsOnceJoined u r) ⟨rfl, rfl⟩) fun _ =>
      touches_bind (touches_read fun _ => rfl) fun p => ?_
    cases p with
    | some p => exact touches_copyUpgradedAccountData env p r
    | none => exact touches_read fun _ => rfl

theorem touches_applyMembership (membership : MembershipState) (sender : UserId)
    (lastState : Option (List Json)) :
    Comp.Keeps (Touches u r) (applyMembership env r u membership sender lastState) := by
  have hleft : Comp.Keeps (Touches u r) (markAsLeft u r) :=
    touches_bind touches_nextCount fun count => touches_op (.markAsLeft u r count) ⟨rfl, rfl⟩
  cases membership with
  | join => exact touches_bind (touches_applyJoin env) fun _ => touches_read fun _ => rfl
  | invite =>
    refine touches_bind (touches_read fun _ => rfl) fun ignored => ?_
    split
    · exact touches_read fun _ => rfl
    · refine touches_bind (touches_bind touches_nextCount fun count => ?_) fun _ =>
        touches_read fun _ => rfl
      exact touches_op (.markAsInvited u r lastState count) ⟨rfl, rfl⟩
  | leave => exact touches_bind hleft fun _ => touches_read fun _ => rfl
  | ban => exact touches_bind hleft fun _ => touches_read fun _ => rfl
  | knock => exact touches_read fun _ => rfl
  | custom s => exact touches_read fun _ => rfl

theorem touches_trackRemoteUser : Comp.Keeps (Touches u r) (trackRemoteUser env u) := by
  unfold trackRemoteUser
  split
  · exact touches_onAccounts _
  · exact touches_read fun _ => rfl

end

/-! ### the calls -/

/-- the memberships change as by writes for one pair -/
def Writes (u : UserId) (r : RoomId) (db db' : Db) : Prop :=
  ∃ ops : List Op, (∀ op ∈ ops, op.About u r) ∧ db'.members = db.members.run ops

theorem updateJoinedCount_members (r : RoomId) (db : Db) :
    (updateJoinedCount env r db).2.members = db.members := rfl

theorem Touches.writes {u : UserId} {r : RoomId} {db db' db'' : Db} (h : Touches u r db db')
    (hm : db''.members = db'.members) : Writes u r db db'' := by
  obtain ⟨_, ops, hops, h⟩ := h
  exact ⟨ops, hops, hm.trans h⟩

/-- the writes for the pair, and `updateJoinedCount` or nothing after them -/
theorem updateMembership_split (r : RoomId) (u : UserId) (membership : MembershipState)
    (sender : UserId) (lastState : Option (List Json)) (updateCount : Bool) (db : Db) :
    ∃ db', Touches u r db db' ∧
      ((updateMembership env r u membership sender lastState updateCount db).2 = db' ∨
        (updateMembership env r u membership sender lastState updateCount db).2 =
          (updateJoinedCount env r db').2) := by
  have htrack := touches_trackRemoteUser (r := r) env (u := u) db
  unfold updateMembership
  cases hx : trackRemoteUser env u db with
  | mk o db₁ =>
    rw [hx] at htrack
    cases o with
    | error e =>
      rw [Comp.bind_error hx]
      exact ⟨db₁, htrack, .inl rfl⟩
    | ok _ =>
      rw [Comp.bind_ok hx]
      have happly := touches_applyMembership env (r := r) (u := u) membership sender lastState db₁
      cases hy : applyMembership env r u membership sender lastState db₁ with
      | mk o db₂ =>
        rw [hy] at happly
        refine ⟨db₂, Touches.trans _ _ _ htrack happly, ?_⟩
        cases o with
        | error e =>
          rw [Comp.bind_error hy]
          exact .inl rfl
        | ok b =>
          rw [Comp.bind_ok hy]
          cases b with
          | false => exact .inl rfl
          | true =>
            cases updateCount with
            | false => exact .inl rfl
            | true => exact .inr rfl

end Db

/-! ## runs -/

/-- a call on the memberships -/
inductive MembershipCall where
  | update (r : RoomId) (u : UserId) (membership : MembershipState) (sender : UserId)
      (lastState : Option (List Json)) (updateCount : Bool)
  | forget (r : RoomId) (u : UserId)
  | updateJoinedCount (r : RoomId)

namespace MembershipCall

open MemberTables Db

variable (env : Env)

def comp : MembershipCall → RoomComp Unit
  | .update r u membership sender lastState updateCount =>
    updateMembership env r u membership sender lastState updateCount
  | .forget r u => onMembers (fun t => t.forget r u)
  | .updateJoinedCount r => Db.updateJoinedCount env r

/-- the call is about the membership of this user in this room -/
def IsFor (u : UserId) (r : RoomId) : MembershipCall → Prop
  | .update q v _ _ _ _ => v = u ∧ q = r
  | .forget q v => v = u ∧ q = r
  | .updateJoinedCount _ => False

/-- a call writes for one pair, which it is about, or for none -/
theorem writes (c : MembershipCall) (db : Db) :
    (c.comp env db).2.members = db.members ∨ ∃ u r, c.IsFor u r ∧ Writes u r db (c.comp env db).2 := by
  cases c with
  | update r u membership sender lastState updateCount =>
    obtain ⟨db', h, he | he⟩ :=
      updateMembership_split env r u membership sender lastState updateCount db
    · exact .inr ⟨u, r, ⟨rfl, rfl⟩, h.writes (congrArg Db.members he)⟩
    · exact .inr ⟨u, r, ⟨rfl, rfl⟩, h.writes ((congrArg Db.members he).trans
        (updateJoinedCount_members env r db'))⟩
  | forget r u =>
    refine .inr ⟨u, r, ⟨rfl, rfl⟩, [.forget r u], fun op hop => ?_, rfl⟩
    rw [List.mem_singleton.mp hop]
    exact ⟨rfl, rfl⟩
  | updateJoinedCount r => exact .inl rfl

/-- a call leaves the rows of the pairs alone that it is not about -/
theorem sameRows (c : MembershipCall) (db : Db) {u : UserId} {r : RoomId} (h : ¬ c.IsFor u r) :
    SameRows db.members (c.comp env db).2.members u r := by
  rcases c.writes env db with he | ⟨v, q, hc, ops, hops, he⟩
  · rw [he]
    exact .refl _ u r
  · rw [he]
    refine run_other hops _ fun huv => h ?_
    obtain ⟨rfl, rfl⟩ := huv
    exact hc

end MembershipCall

/-- the stores that the calls reach, from the empty tables; between two calls the other tables
may change -/
inductive MembershipRun (env : Env) : Db → Prop where
  | start (db : Db) (hm : db.members = .empty) (hr : db.roster = Db.empty.roster) :
    MembershipRun env db
  | call (db : Db) (c : MembershipCall) (h : MembershipRun env db) :
    MembershipRun env (c.comp env db).2
  | other (db db' : Db) (hm : db'.members = db.members) (hr : db'.roster = db.roster)
    (h : MembershipRun env db) : MembershipRun env db'

namespace MembershipRun

open MemberTables

variable {env : Env} {db : Db}

theorem paired (h : MembershipRun env db) : Paired db.members := by
  induction h with
  | start db hm _ =>
    rw [hm]
    exact paired_empty
  | call db c _ ih =>
    rcases c.writes env db with he | ⟨_, _, _, ops, _, he⟩
    · rw [he]
      exact ih
    · rw [he]
      exact ih.run ops
  | other db db' hm _ _ ih =>
    rw [hm]
    exact ih

theorem consistentAt (h : MembershipRun env db) (u : UserId) (r : RoomId) :
    ConsistentAt db.members u r := by
  induction h generalizing u r with
  | start db hm _ =>
    rw [hm]
    exact consistentAt_empty u r
  | call db c _ ih =>
    rcases c.writes env db with he | ⟨_, _, _, ops, hops, he⟩
    · rw [he]
      exact ih u r
    · rw [he]
      exact run_consistent hops ih u r
  | other db db' hm _ _ ih =>
    rw [hm]
    exact ih u r

/-- the tables have one row at most for a user and a room, kept by the user and by the room, and
a call changes the rows of no other pair -/
theorem membership_consistent (h : MembershipRun env db) :
    Paired db.members ∧ (∀ u r, ConsistentAt db.members u r) ∧
      ∀ (c : MembershipCall) u r, ¬ c.IsFor u r →
        SameRows db.members (c.comp env db).2.members u r :=
  ⟨h.paired, h.consistentAt, fun c _ _ hc => c.sameRows env db hc⟩

/-- an invite that is followed by a join -/
theorem membership_consistent_join :
    let db := ((MembershipCall.update ⟨.ascii "!r:a"⟩ ⟨.ascii "@u:b"⟩ .join ⟨.ascii "@u:b"⟩ none
      false).comp Env.plain ((MembershipCall.update ⟨.ascii "!r:a"⟩ ⟨.ascii "@u:b"⟩ .invite
        ⟨.ascii "@v:a"⟩ none true).comp Env.plain Db.empty).2).2
    db.members.isJoined ⟨.ascii "@u:b"⟩ ⟨.ascii "!r:a"⟩ = true ∧
      ConsistentAt db.members ⟨.ascii "@u:b"⟩ ⟨.ascii "!r:a"⟩ :=
  ⟨by decide, (membership_consistent (((start Db.empty rfl rfl).call _ _).call _ _)).2.1 _ _⟩

end MembershipRun
end Grapevine
