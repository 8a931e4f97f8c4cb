import Grapevine.Lib.Update
import Grapevine.Rooms.Append

/-!
# What the stages of an append leave alone

A relation on stores is `Blind` if it does not look at the small tables (read markers, queues,
rosters, relations) and lets the counter grow.  The stages that write only small tables move the
store along every blind relation, so each stage is walked through once, here, and a frame
condition is then checked on the writes it is about.

* `pushPdu_keeps`, `sendAppservices_keeps`   for every blind relation;
* `applyMember_keeps`                        if it does not look at memberships and accounts;
* `afterInsert_keeps`                        if it accepts a replaced row and a changed index;
* `Sees`                                     what the reads of a store depend on;
* `storePdu_run`                             the writes up to the row, all or (by a panic) not.
-/

set_option linter.unusedSectionVars false

namespace Grapevine
open Kv

namespace StateDb

/-- loading does not look at the counter -/
theorem loadInfo_counter (n fuel h : Nat) :
    Comp.Commutes (fun db : StateDb => { db with counter := n }) (loadInfo fuel h) :=
  loadInfo_commutes_of (g := fun db => { db with counter := n }) (fun _ => rfl) (fun _ => rfl) (fun _ _ => rfl) fuel h

end StateDb

/-- a destination on this side of the federation -/
def Destination.IsLocal : Destination → Prop
  | .normal _ => False
  | _ => True

namespace Db

variable {db : Db} {eventType stateKey : String} {x : RoomComp Unit} {R : Db → Db → Prop}

theorem deindexBody_timeline (env : Env) (id : Bytes) (pdu : PduEvent) (shortroomid : Nat) (db : Db) :
    (deindexBody env id pdu shortroomid db).2.timeline = db.timeline := by
  unfold deindexBody
  cases extractBodyStr pdu.content <;> rfl

structure Blind (R : Db → Db → Prop) : Prop where
  refl : ∀ db, R db db
  trans : ∀ a b c, R a b → R b c → R a c
  count : ∀ db : Db, db.state.counter + 1 < 2^64 →
    R db { db with state := { db.state with counter := db.state.counter + 1 } }
  reads : ∀ (db : Db) t, R db { db with reads := t }
  roster : ∀ (db : Db) t, R db { db with roster := t }
  tofromRelation : ∀ (db : Db) t, R db { db with tofromRelation := t }
  threadidUserids : ∀ (db : Db) t, R db { db with threadidUserids := t }
  roomidSpacechunkCache : ∀ (db : Db) t, R db { db with roomidSpacechunkCache := t }
  /-- requests to pushers and appservices, not to other servers -/
  queue : ∀ (db : Db) requests, (∀ q ∈ requests, q.1.IsLocal) →
    R db { db with queue := db.queue ++ requests }
  adminMessages : ∀ (db : Db) t, R db { db with adminMessages := t }

/-- what the tables beside the rooms have no part in -/
theorem Blind.of_aside (htrans : ∀ a b c, R a b → R b c → R a c)
    (hcount : ∀ db : Db, db.state.counter + 1 < 2^64 →
      R db { db with state := { db.state with counter := db.state.counter + 1 } })
    (haside : ∀ (db : Db) reads roster relations participants chunks queue messages,
      (∀ q ∈ queue, q ∈ db.queue ∨ q.1.IsLocal) → R db { db with
        reads := reads, roster := roster, tofromRelation := relations, threadidUserids := participants
        roomidSpacechunkCache := chunks, queue := queue, adminMessages := messages }) : Blind R where
  refl db := haside db _ _ _ _ _ _ _ fun _ => Or.inl
  trans := htrans
  count := hcount
  reads db _ := haside db _ _ _ _ _ _ _ fun _ => Or.inl
  roster db _ := haside db _ _ _ _ _ _ _ fun _ => Or.inl
  tofromRelation db _ := haside db _ _ _ _ _ _ _ fun _ => Or.inl
  threadidUserids db _ := haside db _ _ _ _ _ _ _ fun _ => Or.inl
  roomidSpacechunkCache db _ := haside db _ _ _ _ _ _ _ fun _ => Or.inl
  queue db _ hl := haside db _ _ _ _ _ _ _ fun q hq => (List.mem_append.mp hq).imp_right (hl q)
  adminMessages db _ := haside db _ _ _ _ _ _ _ fun _ => Or.inl

/-- what depends on the events alone stays the same -/
theorem Blind.events {α : Type} (f : TimelineTables → GraphTables → α) :
    Blind fun db db' => f db'.timeline db'.graph = f db.timeline db.graph :=
  .of_aside (fun _ _ _ h h' => h'.trans h) (fun _ _ => rfl) fun _ _ _ _ _ _ _ _ _ => rfl

theorem Blind.and {S : Db → Db → Prop} (h : Blind R) (h' : Blind S) : Blind fun db db' => R db db' ∧ S db db' where
  refl db := ⟨h.refl db, h'.refl db⟩
  trans a b c hab hbc := ⟨h.trans a b c hab.1 hbc.1, h'.trans a b c hab.2 hbc.2⟩
  count db hlt := ⟨h.count db hlt, h'.count db hlt⟩
  reads db t := ⟨h.reads db t, h'.reads db t⟩
  roster db t := ⟨h.roster db t, h'.roster db t⟩
  tofromRelation db t := ⟨h.tofromRelation db t, h'.tofromRelation db t⟩
  threadidUserids db t := ⟨h.threadidUserids db t, h'.threadidUserids db t⟩
  roomidSpacechunkCache db t := ⟨h.roomidSpacechunkCache db t, h'.roomidSpacechunkCache db t⟩
  queue db requests hlocal := ⟨h.queue db requests hlocal, h'.queue db requests hlocal⟩
  adminMessages db t := ⟨h.adminMessages db t, h'.adminMessages db t⟩

/-- nobody ignores others than before -/
def SameIgnored (t t' : AccountTables) : Prop :=
  ∀ u, t'.accountData none u "m.ignored_user_list" = t.accountData none u "m.ignored_user_list"

theorem sameIgnored_update (t : AccountTables) (r : Option RoomId) (u : UserId)
    (hne : eventType ≠ "m.ignored_user_list") (data : Json) : SameIgnored t { t with
      accountData := Function.update t.accountData r (Function.update (t.accountData r) u
        (Function.update (t.accountData r u) eventType (some data))) } := by
  intro v
  show Function.update t.accountData r _ none v _ = _
  rw [update_update_apply]
  split
  · next h =>
    rw [Function.update_of_ne hne.symm, h.1, h.2]
  · rfl

section
variable {R : Db → Db → Prop} (h : Blind R) (env : Env)
include h

theorem Blind.bind {α β : Type} {x : RoomComp α} {f : α → RoomComp β} (hx : Comp.Keeps R x)
    (hf : ∀ a, Comp.Keeps R (f a)) : Comp.Keeps R (x >>= f) := Comp.Keeps.bind h.trans hx hf

theorem Blind.pure {α : Type} (a : α) : Comp.Keeps R (Pure.pure a : RoomComp α) :=
  Comp.Keeps.pure h.refl a

/-- a computation that only reads -/
theorem Blind.read {α : Type} {x : RoomComp α} (hx : ∀ db, (x db).2 = db) : Comp.Keeps R x :=
  Comp.Keeps.of_read h.refl hx

/-- reading the store and going on with what was read -/
theorem Blind.get {β : Type} {f : Db → RoomComp β} (hf : ∀ db, Comp.Keeps R (f db)) :
    Comp.Keeps R (Comp.get >>= f) := h.bind (h.read fun _ => rfl) hf

theorem Blind.readsThen {α β : Type} (g : Db → Except Error α) {f : α → RoomComp β}
    (hf : ∀ a, Comp.Keeps R (f a)) : Comp.Keeps R (Comp.reads g >>= f) :=
  h.bind (h.read fun _ => rfl) hf

theorem Blind.ofExceptThen {α β : Type} (x : Except Error α) {f : α → RoomComp β}
    (hf : ∀ a, Comp.Keeps R (f a)) : Comp.Keeps R (Comp.ofExcept x >>= f) :=
  h.bind (h.read fun _ => rfl) hf

/-! ## counters, markers and queues -/

theorem nextCount_keeps : Comp.Keeps R nextCount := by
  intro db
  show R db (onState StateDb.nextCount db).2
  unfold onState StateDb.nextCount
  by_cases hlt : db.state.counter + 1 < 2^64
  · rw [if_pos hlt]
    exact h.count db hlt
  · rw [if_neg hlt]
    exact h.refl db

theorem onReads_keeps (f : ReadTables → ReadTables) : Comp.Keeps R (onReads f) :=
  Comp.Keeps.modify fun db => h.reads db _

theorem queueRequests_keeps {requests : List (Destination × Bytes)}
    (hq : ∀ q ∈ requests, q.1.IsLocal) : Comp.Keeps R (queueRequests requests) :=
  Comp.Keeps.modify fun db => h.queue db _ hq

theorem queueAppservice_keeps (a : Appservice) (id : Bytes) :
    Comp.Keeps R (queueRequests [(.appservice a.id, id)]) := by
  refine queueRequests_keeps h fun q hq => ?_
  rw [List.mem_singleton.mp hq]
  trivial

theorem privateReadSet_keeps (r : RoomId) (u : UserId) (count : Nat) :
    Comp.Keeps R (privateReadSet r u count) :=
  h.bind (onReads_keeps h _) fun _ => h.bind (nextCount_keeps h) fun _ => onReads_keeps h _

theorem resetNotificationCounts_keeps (u : UserId) (r : RoomId) :
    Comp.Keeps R (resetNotificationCounts u r) :=
  h.bind (onReads_keeps h _) fun _ => h.bind (nextCount_keeps h) fun _ => onReads_keeps h _

theorem updateJoinedCount_keeps (r : RoomId) : Comp.Keeps R (updateJoinedCount env r) :=
  Comp.Keeps.modify fun db => h.roster db _

theorem getOurRealUsers_keeps (r : RoomId) : Comp.Keeps R (getOurRealUsers env r) := by
  refine h.get fun db => ?_
  cases db.roster.ourRealUsersCache r with
  | some users => exact h.pure users
  | none => exact h.bind (updateJoinedCount_keeps h env r) fun _ => h.read fun _ => rfl

theorem appserviceInRoom_keeps (r : RoomId) (a : Appservice) :
    Comp.Keeps R (appserviceInRoom env r a) := by
  refine h.get fun db => ?_
  cases db.roster.appserviceInRoomCache r a.id with
  | some b => exact h.pure b
  | none =>
    refine h.bind (h.read fun _ => rfl) fun inRoom => h.bind ?_ fun _ => h.pure inRoom
    exact Comp.Keeps.modify fun db => h.roster db _

/-! ## push rules and appservices -/

theorem pushUsers_keeps (powerLevels : PowerLevels) (pdu : PduEvent) (id : Bytes)
    (us : List UserId) : Comp.Keeps R (pushUsers env powerLevels pdu id us) := by
  induction us with
  | nil => exact h.pure _
  | cons u us ih =>
    unfold pushUsers
    by_cases hu : u = pdu.sender
    · rw [if_pos hu]
      exact ih
    · rw [if_neg hu]
      refine h.readsThen _ fun _ => h.bind (h.read fun _ => rfl) fun keys =>
        h.bind (queueRequests_keeps h fun q hq => ?_) fun _ => h.bind ih fun _ => h.pure _
      obtain ⟨key, _, rfl⟩ := List.mem_map.mp hq
      trivial

theorem pushPdu_keeps (pdu : PduEvent) (id : Bytes) : Comp.Keeps R (pushPdu env pdu id) :=
  h.readsThen _ fun _ => h.bind (getOurRealUsers_keeps h env _) fun _ => h.ofExceptThen _ fun _ =>
    h.bind (pushUsers_keeps h env _ pdu id _) fun _ => onReads_keeps h _

theorem sendAppservice_keeps (pdu : PduEvent) (id : Bytes) (a : Appservice) :
    Comp.Keeps R (sendAppservice env pdu id a) := by
  refine h.bind (appserviceInRoom_keeps h env _ a) fun inRoom => ?_
  cases inRoom with
  | true => exact queueAppservice_keeps h a id
  | false =>
    cases aboutAppserviceUser env pdu a with
    | true => exact queueAppservice_keeps h a id
    | false =>
      simp only [Bool.false_eq_true, if_false]
      refine h.get fun db => ?_
      cases db.appserviceMatches env pdu a with
      | true => exact queueAppservice_keeps h a id
      | false => exact h.pure _

theorem sendAppservices_keeps (pdu : PduEvent) (id : Bytes) :
    Comp.Keeps R (sendAppservices env pdu id) :=
  Comp.Keeps.forM h.refl h.trans _ fun a _ => sendAppservice_keeps h env pdu id a

/-! ## relations -/

theorem addRelation_keeps (c d : PduCount) : Comp.Keeps R (addRelation c d) := by
  unfold addRelation
  split
  · exact Comp.Keeps.modify fun db => h.tofromRelation db _
  · exact h.pure _

theorem addRelationTo_keeps (count : Nat) (e : EventId) : Comp.Keeps R (addRelationTo count e) := by
  refine h.readsThen _ fun related => ?_
  cases related with
  | some c => exact addRelation_keeps h _ c
  | none => exact h.pure _

theorem addRelatedEvent_keeps (pdu : PduEvent) (count : Nat) :
    Comp.Keeps R (addRelatedEvent env pdu count) := by
  unfold addRelatedEvent
  split
  · exact addRelationTo_keeps h count _
  · exact h.pure _

theorem updateParticipants_keeps (rootId : Bytes) (root pdu : PduEvent) :
    Comp.Keeps R (updateParticipants rootId root pdu) :=
  Comp.Keeps.modify fun db => h.threadidUserids db _

/-! ## the kinds that touch no event -/

theorem processAdminMessage_keeps (pdu : PduEvent) (body : String) :
    Comp.Keeps R (processAdminMessage env pdu body) := by
  refine Comp.Keeps.modify fun db => ?_
  split
  · split
    · exact h.adminMessages db _
    · exact h.refl db
  · exact h.refl db

theorem applySpaceChild_keeps (pdu : PduEvent) : Comp.Keeps R (applySpaceChild pdu) := by
  unfold applySpaceChild
  split
  · exact Comp.Keeps.modify fun db => h.roomidSpacechunkCache db _
  · exact h.pure _

section
variable (ht : ∀ (db : Db) t, R db { db with tokenids := t })
  (hr : ∀ (db : Db) id v json pdu, db.timeline.pduidPdu.get id = some v → Redrafts env v.pdu json.pdu →
    R db (replacePdu id json pdu db).2)
include ht hr

theorem redactRow_keeps {id : Bytes} {v : PduJson} (hv : db.timeline.pduidPdu.get id = some v)
    (reason : PduEvent) (shortroomid : Nat) :
    R db (redactRow env id v.pdu reason shortroomid db).2 := by
  have hbody : R db (deindexBody env id v.pdu shortroomid db).2 := by
    unfold deindexBody
    cases extractBodyStr v.pdu.content with
    | some body => exact ht db _
    | none => exact h.refl db
  unfold redactRow
  refine Comp.keeps_bind_at h.trans hbody fun _ db₁ h1 => ?_
  have htimeline := deindexBody_timeline env id v.pdu shortroomid db
  rw [h1] at htimeline
  refine Comp.keeps_bind_at h.trans (h.refl _) fun version db₂ h2 => ?_
  obtain ⟨_, rfl⟩ := Prod.mk.inj h2
  refine Comp.keeps_bind_at h.trans (h.refl _) fun redacted db₃ h3 => ?_
  obtain ⟨hred, rfl⟩ := Prod.mk.inj h3
  refine hr _ id v _ _ ?_ (redact_redrafts env hred)
  rw [htimeline]
  exact hv

theorem redactPdu_keeps (e : EventId) (reason : PduEvent) (shortroomid : Nat) :
    Comp.Keeps R (redactPdu env e reason shortroomid) := by
  intro db
  cases hid : db.timeline.eventidPduid e with
  | none =>
    rw [redactPdu_unknown env hid]
    exact h.refl db
  | some id =>
    cases hv : db.timeline.pduidPdu.get id with
    | none =>
      rw [redactPdu_dangling env hid hv]
      exact h.refl db
    | some v =>
      rw [redactPdu_known env hid hv]
      exact redactRow_keeps h env ht hr hv reason shortroomid

theorem applyRedaction_keeps (pdu : PduEvent) (shortroomid : Nat) :
    Comp.Keeps R (applyRedaction env pdu shortroomid) := by
  refine h.readsThen _ fun _ => h.ofExceptThen _ fun target => ?_
  cases target with
  | some e =>
    refine h.readsThen _ fun allowed => ?_
    cases allowed with
    | true => exact redactPdu_keeps h env ht hr e pdu shortroomid
    | false => exact h.pure _
  | none => exact h.pure _

theorem applyMessage_keeps (pdu : PduEvent) (shortroomid : Nat) (id : Bytes) :
    Comp.Keeps R (applyMessage env pdu shortroomid id) := by
  unfold applyMessage
  split
  · exact h.read fun _ => rfl
  · exact h.pure _
  · exact h.bind (Comp.Keeps.modify fun db => ht db _) fun _ => processAdminMessage_keeps h env _ _

/-- what the kind of an event asks for; a membership is left to the caller -/
theorem applyKind_keeps_of {pdu : PduEvent} (hmember : pdu.kind = .roomMember → Comp.Keeps R (applyMember env pdu))
    (shortroomid : Nat) (id : Bytes) : Comp.Keeps R (applyKind env pdu shortroomid id) := by
  unfold applyKind
  split
  · exact applyRedaction_keeps h env ht hr pdu shortroomid
  · exact applySpaceChild_keeps h pdu
  · next hkind => exact hmember hkind
  · exact applyMessage_keeps h env ht hr pdu shortroomid id
  · exact h.pure _

theorem addToThread_keeps (root : EventId) (pdu : PduEvent) :
    Comp.Keeps R (addToThread env root pdu) := by
  intro db
  cases hid : db.timeline.eventidPduid root with
  | none =>
    rw [addToThread_unknown env hid]
    exact h.refl db
  | some id =>
    cases hv : db.timeline.pduidPdu.get id with
    | none =>
      rw [addToThread_dangling env hid hv]
      exact h.refl db
    | some v =>
      rw [addToThread_known env hid hv]
      refine Comp.keeps_bind_at h.trans ?_ fun _ db₁ _ => updateParticipants_keeps h _ _ _ db₁
      unfold bundleThread
      cases unsignedEntry v.json with
      | some unsigned => exact hr db id v _ _ hv ⟨rfl, .inl rfl⟩
      | none => exact h.refl db

theorem addRelations_keeps (pdu : PduEvent) (count : Nat) :
    Comp.Keeps R (addRelations env pdu count) := by
  refine h.bind (addRelatedEvent_keeps h env pdu count) fun _ => ?_
  unfold addRelated
  split
  · exact addRelationTo_keeps h count _
  · exact addToThread_keeps h env ht hr _ pdu
  · exact h.pure _
  · exact h.pure _

theorem afterInsert_keeps_of {pdu : PduEvent} (hmember : pdu.kind = .roomMember → Comp.Keeps R (applyMember env pdu))
    (shortroomid : Nat) (id : Bytes) (count : Nat) : Comp.Keeps R (afterInsert env pdu shortroomid id count) :=
  h.bind (pushPdu_keeps h env pdu id) fun _ =>
    h.bind (applyKind_keeps_of h env ht hr hmember shortroomid id) fun _ =>
      h.bind (addRelations_keeps h env ht hr pdu count) fun _ => sendAppservices_keeps h env pdu id

end

theorem warned_keeps (hx : Comp.Keeps R x) : Comp.Keeps R (warned x) := by
  intro db
  have h1 := hx db
  unfold warned
  cases hdb : x db with
  | mk o db' =>
    rw [hdb] at h1
    cases o with
    | ok a => exact h1
    | error e =>
      show R db (if e.isPanic then (.error e, db') else (.ok (), db') : Except Error Unit × Db).2
      split <;> exact h1

/-! ## memberships -/

section
variable (ha : ∀ (db : Db) t, SameIgnored db.accounts t → R db { db with accounts := t })
include ha

theorem updateAccountData_keeps (r : Option RoomId) (u : UserId) (hne : eventType ≠ "m.ignored_user_list")
    (data : Json) :
    Comp.Keeps R (updateAccountData r u eventType data) := by
  refine h.bind (nextCount_keeps h) fun _ => ?_
  split
  · exact Comp.Keeps.modify fun db => ha db _ (sameIgnored_update db.accounts r u hne _)
  · exact h.read fun _ => rfl

theorem copyUpgradedAccountData_keeps (u : UserId) (fromRoom toRoom : RoomId) :
    Comp.Keeps R (copyUpgradedAccountData env u fromRoom toRoom) := by
  refine h.bind (h.get fun db => ?_) fun _ => h.get fun db => ?_
  · split
    · exact warned_keeps h (updateAccountData_keeps h ha _ _ (by decide) _)
    · exact h.pure _
  · split
    · split
      · exact warned_keeps h (updateAccountData_keeps h ha _ _ (by decide) _)
      · exact h.pure _
    · exact h.pure _

theorem trackRemoteUser_keeps (u : UserId) : Comp.Keeps R (trackRemoteUser env u) := by
  unfold trackRemoteUser
  split
  · exact Comp.Keeps.modify fun db => ha db _ fun _ => rfl
  · exact h.pure _

variable {r : RoomId} {u : UserId} (hm : ∀ (db : Db) t, db.members.Reseats u r t → R db { db with members := t })
include hm

theorem checkOnceJoined_keeps : Comp.Keeps R (checkOnceJoined env u r) := by
  refine h.get fun db => ?_
  cases db.members.onceJoined u r with
  | true => exact h.pure _
  | false =>
    refine h.bind (Comp.Keeps.modify fun db => hm db _ fun _ _ _ => rfl) fun _ => h.readsThen _ fun p => ?_
    cases p with
    | some p => exact copyUpgradedAccountData_keeps h env ha u p r
    | none => exact h.pure _

theorem applyMembership_keeps (membership : MembershipState) (sender : UserId)
    (lastState : Option (List Json)) :
    Comp.Keeps R (applyMembership env r u membership sender lastState) := by
  have hleft : Comp.Keeps R (markAsLeft u r) := h.bind (nextCount_keeps h) fun count =>
    Comp.Keeps.modify fun db => hm db _ (db.members.reseats_markAsLeft u r count)
  cases membership with
  | join =>
    refine h.bind (h.bind (checkOnceJoined_keeps h env ha hm) fun _ => ?_) fun _ => h.pure _
    exact Comp.Keeps.modify fun db => hm db _ (db.members.reseats_markAsJoined u r)
  | invite =>
    refine h.readsThen _ fun ignored => ?_
    cases ignored with
    | true => exact h.pure _
    | false =>
      refine h.bind (h.bind (nextCount_keeps h) fun count => ?_) fun _ => h.pure _
      exact Comp.Keeps.modify fun db => hm db _ (db.members.reseats_markAsInvited u r lastState count)
  | leave => exact h.bind hleft fun _ => h.pure _
  | ban => exact h.bind hleft fun _ => h.pure _
  | knock => exact h.pure _
  | custom s => exact h.pure _

/-- one membership: the other seats, and who is ignored, may be looked at -/
theorem updateMembership_keeps_of (membership : MembershipState) (sender : UserId)
    (lastState : Option (List Json)) (updateCount : Bool) :
    Comp.Keeps R (updateMembership env r u membership sender lastState updateCount) := by
  refine h.bind (trackRemoteUser_keeps h env ha u) fun _ =>
    h.bind (applyMembership_keeps h env ha hm membership sender lastState) fun done => ?_
  cases done with
  | true =>
    cases updateCount with
    | true => exact updateJoinedCount_keeps h env r
    | false => exact h.pure _
  | false => exact h.pure _

end

omit h in
theorem memberTarget_ok {u : UserId} (hu : memberTarget env stateKey = .ok u) :
    env.ids.userIdOfStr stateKey = some u := by
  unfold memberTarget at hu
  cases hid : env.ids.userIdOfStr stateKey with
  | none =>
    rw [hid] at hu
    cases hu
  | some v =>
    rw [hid] at hu
    cases hu
    rfl

theorem applyMember_keeps_of {pdu : PduEvent} (hu : ∀ stateKey u membership state, pdu.stateKey = some stateKey →
    env.ids.userIdOfStr stateKey = some u →
      Comp.Keeps R (updateMembership env pdu.roomId u membership pdu.sender state true)) :
    Comp.Keeps R (applyMember env pdu) := by
  unfold applyMember
  cases hk : pdu.stateKey with
  | none => exact h.pure _
  | some stateKey =>
    intro db
    refine Comp.keeps_bind_at h.trans (h.refl db) fun u db₁ h1 => ?_
    have hid := memberTarget_ok env (Prod.mk.inj h1).1
    exact h.ofExceptThen _ (fun _ => h.readsThen _ fun _ => hu stateKey u _ _ hk hid) db₁

section
variable (ha : ∀ (db : Db) t, R db { db with accounts := t }) (hm : ∀ (db : Db) t, R db { db with members := t })
include ha hm

theorem updateMembership_keeps (r : RoomId) (u : UserId) (membership : MembershipState)
    (sender : UserId) (lastState : Option (List Json)) (updateCount : Bool) :
    Comp.Keeps R (updateMembership env r u membership sender lastState updateCount) :=
  updateMembership_keeps_of h env (fun db t _ => ha db t) (fun db t _ => hm db t) membership sender lastState updateCount

theorem applyMember_keeps (pdu : PduEvent) : Comp.Keeps R (applyMember env pdu) :=
  applyMember_keeps_of h env fun _ _ _ _ _ _ => updateMembership_keeps h env ha hm _ _ _ _ _ _

section
variable (ht : ∀ (db : Db) t, R db { db with tokenids := t })
  (hr : ∀ (db : Db) id v json pdu, db.timeline.pduidPdu.get id = some v → Redrafts env v.pdu json.pdu →
    R db (replacePdu id json pdu db).2)
include ht hr

theorem applyKind_keeps (pdu : PduEvent) (shortroomid : Nat) (id : Bytes) :
    Comp.Keeps R (applyKind env pdu shortroomid id) :=
  applyKind_keeps_of h env ht hr (fun _ => applyMember_keeps h env ha hm pdu) shortroomid id

theorem afterInsert_keeps (pdu : PduEvent) (shortroomid : Nat) (id : Bytes) (count : Nat) :
    Comp.Keeps R (afterInsert env pdu shortroomid id count) :=
  afterInsert_keeps_of h env ht hr (fun _ => applyMember_keeps h env ha hm pdu) shortroomid id count

end
end
end

/-! ## reads -/

/-- the store as the reads see it: the same timeline, and the same states up to the counter -/
structure Sees (db db' : Db) : Prop where
  timeline : db'.timeline = db.timeline
  state : ∃ n, db'.state = { db.state with counter := n }

section
variable {db db' : Db} (h : Sees db db') (env : Env)
include h

theorem Sees.getPdu (e : EventId) : db'.getPdu e = db.getPdu e := by
  unfold Db.getPdu
  rw [h.timeline]

theorem Sees.fullState (shortstatehash : Nat) :
    db'.fullState shortstatehash = db.fullState shortstatehash := by
  obtain ⟨n, hn⟩ := h.state
  have hload : (StateDb.loadShortstatehashInfo shortstatehash db'.state).1
      = (StateDb.loadShortstatehashInfo shortstatehash db.state).1 := by
    have hc := congrArg Prod.fst
      (StateDb.loadInfo_counter n (shortstatehash + 1) shortstatehash db.state)
    rw [hn]
    exact hc
  unfold Db.fullState
  rw [hload]

theorem Sees.parse : db'.parseCompressedStateEvent = db.parseCompressedStateEvent := by
  obtain ⟨n, hn⟩ := h.state
  funext c
  unfold parseCompressedStateEvent
  rw [hn]

theorem Sees.stateGetId (shortstatehash : Nat) (eventType : EventType) (stateKey : String) :
    db'.stateGetId env shortstatehash eventType stateKey
      = db.stateGetId env shortstatehash eventType stateKey := by
  have hkey : db'.state.statekeyShortstatekey = db.state.statekeyShortstatekey := by
    obtain ⟨n, hn⟩ := h.state
    rw [hn]
  unfold Db.stateGetId
  rw [h.parse, hkey, h.fullState]

theorem Sees.stateGet (shortstatehash : Nat) (eventType : EventType) (stateKey : String) :
    db'.stateGet env shortstatehash eventType stateKey
      = db.stateGet env shortstatehash eventType stateKey := by
  have hget : db'.getPdu = db.getPdu := funext h.getPdu
  unfold Db.stateGet
  rw [h.stateGetId env, hget]

theorem Sees.roomStateGet (r : RoomId) (eventType : EventType) (stateKey : String) :
    db'.roomStateGet env r eventType stateKey = db.roomStateGet env r eventType stateKey := by
  have hroom : db'.state.roomidShortstatehash = db.state.roomidShortstatehash := by
    obtain ⟨n, hn⟩ := h.state
    rw [hn]
  have hget : db'.stateGet env = db.stateGet env := by
    funext k t s
    exact h.stateGet env k t s
  unfold Db.roomStateGet
  rw [hroom, hget]

theorem Sees.userCanRedact (e : EventId) (sender : UserId) (r : RoomId) (federation : Bool) :
    db'.userCanRedact env e sender r federation = db.userCanRedact env e sender r federation := by
  have hsender : db'.pduSender = db.pduSender := by
    funext e P
    unfold pduSender
    rw [h.getPdu]
  unfold Db.userCanRedact
  rw [h.roomStateGet env, h.roomStateGet env, hsender]

theorem Sees.predecessor (r : RoomId) : db'.predecessor env r = db.predecessor env r := by
  unfold Db.predecessor
  rw [h.roomStateGet env]

theorem Sees.getRoomVersion (r : RoomId) : db'.getRoomVersion env r = db.getRoomVersion env r := by
  unfold Db.getRoomVersion
  rw [h.roomStateGet env]

end

theorem blind_sees : Blind Sees := by
  refine .of_aside (fun a b c h h' => ?_) (fun _ _ => ⟨rfl, _, rfl⟩) fun _ _ _ _ _ _ _ _ _ => ⟨rfl, _, rfl⟩
  obtain ⟨n, hn⟩ := h.state
  obtain ⟨m, hm⟩ := h'.state
  exact ⟨h'.timeline.trans h.timeline, m, by rw [hm, hn]⟩

section
variable (env : Env)
variable {e : Error} {j : PduJson}

/-! ## the row -/

theorem nextCount_run (h : db.state.counter + 1 < 2^64) :
    nextCount db = (.ok (db.state.counter + 1),
      { db with state := { db.state with counter := db.state.counter + 1 } }) := by
  show onState StateDb.nextCount db = _
  unfold onState StateDb.nextCount
  rw [if_pos h]

theorem nextCount_overflow (h : ¬ db.state.counter + 1 < 2^64) :
    nextCount db = (.error StateDb.counterOverflow, db) := by
  show onState StateDb.nextCount db = _
  unfold onState StateDb.nextCount
  rw [if_neg h]

theorem correctUnsigned_pdu {stored : PduJson} (h : db.correctUnsigned env j = .ok stored) :
    ∃ unsigned, stored.pdu = { j.pdu with unsigned := unsigned } := by
  unfold correctUnsigned at h
  cases hk : j.pdu.stateKey with
  | none =>
    simp only [hk] at h
    cases h
    exact ⟨_, rfl⟩
  | some stateKey =>
    cases hu : unsignedEntry j.json with
    | none =>
      simp only [hk, hu] at h
      cases h
      exact ⟨_, rfl⟩
    | some unsigned =>
      simp only [hk, hu] at h
      cases hp : db.prevContent env j.pdu stateKey with
      | error e =>
        rw [hp] at h
        cases h
      | ok content =>
        rw [hp] at h
        cases h
        exact ⟨_, rfl⟩

theorem correctUnsigned_revises {stored : PduJson} (h : db.correctUnsigned env j = .ok stored) :
    Revises j.pdu stored.pdu := by
  obtain ⟨unsigned, hpdu⟩ := correctUnsigned_pdu env h
  unfold Revises
  rw [hpdu]

theorem orPanic_error {α : Type} {msg : String} {x : Except Error α} (h : orPanic msg x = .error e) :
    e.isPanic = true := by
  unfold orPanic at h
  split at h <;> cases h
  rfl

theorem prevContent_error {pdu : PduEvent} (h : db.prevContent env pdu stateKey = .error e) : e.isPanic = true := by
  unfold prevContent at h
  cases hp : db.pduShortstatehash pdu.eventId with
  | none =>
    simp only [hp] at h
    cases h
  | some shortstatehash =>
    simp only [hp] at h
    cases ho : orPanic "called `Result::unwrap()` on an `Err` value"
        (db.stateGet env shortstatehash pdu.kind stateKey) with
    | ok x =>
      rw [ho] at h
      cases h
    | error e' =>
      rw [ho] at h
      cases h
      exact orPanic_error ho

theorem correctUnsigned_error (h : db.correctUnsigned env j = .error e) : e.isPanic = true := by
  unfold correctUnsigned at h
  cases hk : j.pdu.stateKey with
  | none =>
    simp only [hk] at h
    cases h
  | some stateKey =>
    cases hu : unsignedEntry j.json with
    | none =>
      simp only [hk, hu] at h
      cases h
    | some unsigned =>
      simp only [hk, hu] at h
      cases hp : db.prevContent env j.pdu stateKey with
      | error e' =>
        rw [hp] at h
        cases h
        exact prevContent_error env hp
      | ok content =>
        rw [hp] at h
        cases h

/-- the read markers that go with a row -/
def readMarks (db : Db) (pdu : PduEvent) : ReadTables :=
  (((db.reads.setPrivateread pdu.roomId pdu.sender (db.state.counter + 1)).setLastprivatereadupdate
    pdu.roomId pdu.sender (db.state.counter + 2)).resetCounts pdu.sender pdu.roomId
    ).setLastnotificationread pdu.roomId pdu.sender (db.state.counter + 3)

/-- the store with the row of the event -/
def withRow (db : Db) (pdu : PduEvent) (stored : PduJson) (leaves : List EventId)
    (shortroomid : Nat) : Db :=
  { db with
    state := { db.state with counter := db.state.counter + 4 }
    reads := db.readMarks pdu
    graph := { db.graph with
      referencedevents := pdu.prevEvents.foldl
        (fun t e => Function.update t (referencedKey pdu.roomId e) true) db.graph.referencedevents
      roomidPduleaves := Function.update db.graph.roomidPduleaves pdu.roomId leaves.toFinset }
    timeline := db.timeline.appendPdu (pduId shortroomid (.normal (db.state.counter + 4)))
      pdu stored (db.state.counter + 4) }

/-- the counter at `n`, and the read markers `t` -/
def marked (db : Db) (n : Nat) (t : ReadTables) : Db :=
  { db with state := { db.state with counter := n }, reads := t }

/-- a write, a count, a write -/
theorem markRead_run (f : ReadTables → ReadTables) (g : Nat → ReadTables → ReadTables) (hx : x = do
      onReads f
      let n ← nextCount
      onReads (g n)) (db : Db) (n : Nat) (t : ReadTables) :
    if n + 1 < 2^64 then x (db.marked n t) = (.ok (), db.marked (n + 1) (g (n + 1) (f t)))
    else ∃ db', x (db.marked n t) = (.error StateDb.counterOverflow, db') := by
  have hf : onReads f (db.marked n t) = (.ok (), db.marked n (f t)) := rfl
  rw [hx, Comp.bind_ok hf]
  split
  · next h =>
    rw [Comp.bind_ok (nextCount_run (show (db.marked n (f t)).state.counter + 1 < 2^64 from h))]
    rfl
  · next h =>
    exact ⟨_, Comp.bind_error
      (nextCount_overflow (show ¬ (db.marked n (f t)).state.counter + 1 < 2^64 from h))⟩

theorem insertPdu_goes (h : db.state.counter + 4 < 2^64) (stored : PduJson) (pdu : PduEvent) (s : Nat) :
    insertPdu stored pdu s db
      = (.ok (pduId s (.normal (db.state.counter + 4)), db.state.counter + 4), { db with
          state := { db.state with counter := db.state.counter + 4 }
          reads := db.readMarks pdu
          timeline := db.timeline.appendPdu (pduId s (.normal (db.state.counter + 4)))
            pdu stored (db.state.counter + 4) }) := by
  let c := db.state.counter
  have hc : c + 4 < 2^64 := h
  let t₁ := (db.reads.setPrivateread pdu.roomId pdu.sender (c + 1)).setLastprivatereadupdate
    pdu.roomId pdu.sender (c + 2)
  have hpriv := markRead_run (x := privateReadSet pdu.roomId pdu.sender (c + 1)) _ _ rfl db (c + 1) db.reads
  have hreset := markRead_run (x := resetNotificationCounts pdu.sender pdu.roomId) _ _ rfl db (c + 2) t₁
  have hn : nextCount db = (.ok (c + 1), db.marked (c + 1) db.reads) := nextCount_run (by omega)
  rw [if_pos (by omega)] at hpriv hreset
  unfold insertPdu
  rw [Comp.bind_ok hn, Comp.bind_ok hpriv, Comp.bind_ok hreset,
    Comp.bind_ok (nextCount_run (show (db.marked (c + 3) _).state.counter + 1 < 2^64 from hc))]
  rfl

theorem insertPdu_run (db : Db) (stored : PduJson) (pdu : PduEvent) (s : Nat) :
    (db.state.counter + 4 < 2^64 ∧ insertPdu stored pdu s db
      = (.ok (pduId s (.normal (db.state.counter + 4)), db.state.counter + 4), { db with
          state := { db.state with counter := db.state.counter + 4 }
          reads := db.readMarks pdu
          timeline := db.timeline.appendPdu (pduId s (.normal (db.state.counter + 4)))
            pdu stored (db.state.counter + 4) })) ∨
    ∃ db', insertPdu stored pdu s db = (.error StateDb.counterOverflow, db') := by
  by_cases h4 : db.state.counter + 4 < 2^64
  · exact Or.inl ⟨h4, insertPdu_goes h4 stored pdu s⟩
  right
  let c := db.state.counter
  let t₁ := (db.reads.setPrivateread pdu.roomId pdu.sender (c + 1)).setLastprivatereadupdate
    pdu.roomId pdu.sender (c + 2)
  have hpriv := markRead_run (x := privateReadSet pdu.roomId pdu.sender (c + 1)) _ _ rfl db (c + 1) db.reads
  have hreset := markRead_run (x := resetNotificationCounts pdu.sender pdu.roomId) _ _ rfl db (c + 2) t₁
  unfold insertPdu
  by_cases h1 : c + 1 < 2^64
  swap
  · exact ⟨_, Comp.bind_error (nextCount_overflow h1)⟩
  have hn : nextCount db = (.ok (c + 1), db.marked (c + 1) db.reads) := nextCount_run h1
  rw [Comp.bind_ok hn]
  by_cases h2 : c + 2 < 2^64
  swap
  · rw [if_neg h2] at hpriv
    obtain ⟨db', hr⟩ := hpriv
    exact ⟨db', Comp.bind_error hr⟩
  rw [if_pos h2] at hpriv
  rw [Comp.bind_ok hpriv]
  by_cases h3 : c + 3 < 2^64
  swap
  · rw [if_neg h3] at hreset
    obtain ⟨db', hr⟩ := hreset
    exact ⟨db', Comp.bind_error hr⟩
  rw [if_pos h3] at hreset
  rw [Comp.bind_ok hreset]
  exact ⟨_, Comp.bind_error
    (nextCount_overflow (show ¬ (db.marked (c + 3) _).state.counter + 1 < 2^64 from h4))⟩

/-- the writes up to the row either all happen, or the call panics: before the first of them, or
because the counter runs out -/
theorem storePdu_run (db : Db) (j : PduJson) (leaves : List EventId) (s : Nat) :
    (∃ stored, db.correctUnsigned env j = .ok stored ∧ db.state.counter + 4 < 2^64 ∧
      storePdu env j leaves s db = (.ok (pduId s (.normal (db.state.counter + 4)),
        db.state.counter + 4), db.withRow j.pdu stored leaves s)) ∨
    ∃ e db', storePdu env j leaves s db = (.error e, db') ∧ e.isPanic = true ∧
      (e = StateDb.counterOverflow ∨ db' = db) := by
  unfold storePdu
  cases hc : db.correctUnsigned env j with
  | error e =>
    right
    have hr : (Comp.reads (fun db => db.correctUnsigned env j) : RoomComp PduJson) db
        = (.error e, db) := by rw [Comp.reads_run, hc]
    exact ⟨e, db, Comp.bind_error hr, correctUnsigned_error env hc, Or.inr rfl⟩
  | ok stored =>
    have hr : (Comp.reads (fun db => db.correctUnsigned env j) : RoomComp PduJson) db
        = (.ok stored, db) := by rw [Comp.reads_run, hc]
    let db₁ : Db := { db with graph := { db.graph with
      referencedevents := j.pdu.prevEvents.foldl
        (fun t e => Function.update t (referencedKey j.pdu.roomId e) true) db.graph.referencedevents
      roomidPduleaves := Function.update db.graph.roomidPduleaves j.pdu.roomId leaves.toFinset } }
    have hrun : (do
        let stored ← Comp.reads (fun db => db.correctUnsigned env j)
        markAsReferenced j.pdu.roomId j.pdu.prevEvents
        setForwardExtremities j.pdu.roomId leaves
        insertPdu stored j.pdu s : RoomComp (Bytes × Nat)) db = insertPdu stored j.pdu s db₁ := by
      rw [Comp.bind_ok hr]
      rfl
    rw [hrun]
    obtain ⟨h4, hins⟩ | ⟨db', hins⟩ := insertPdu_run db₁ stored j.pdu s
    · exact Or.inl ⟨stored, rfl, h4, hins⟩
    · exact Or.inr ⟨_, db', hins, rfl, Or.inl rfl⟩

end

end Db
end Grapevine
