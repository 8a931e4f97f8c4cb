import Grapevine.Rooms.Isolation

/-!
# Appends that fail

All that `append_pdu` can refuse, it refuses behind the writes: the row of the event, its place
among the leaves and the references are in the store by then.  A panic is not an error that is
returned.

`Accepts` is what has to be right for the call to go through: the power levels and the push rules
of the users, and what the kind of the event and its relations ask for, all read in the store that
has the event's row.

* `afterInsert_not_refuses`   what is accepted goes through;
* `afterInsert_ok`            what went through was accepted.
-/

namespace Grapevine
open Kv

/-- an error that is returned -/
def Refuses {α : Type} (x : RoomComp α) (db : Db) : Prop :=
  Comp.FailsIn (fun e : Error => e.isPanic = false) x db

/-- a computation that returns no error -/
abbrev Calm {α : Type} (x : RoomComp α) : Prop := Comp.Never (fun e : Error => e.isPanic = false) x

def Succeeds {α : Type} (x : Except Error α) : Prop := ∃ a, x = .ok a

namespace Db

variable {db db' : Db} {pdu reason : PduEvent} {m : MembershipState} {sender u : UserId}
  {r : RoomId} {lastState : Option (List Json)} {count s : Nat} {e root : EventId}

section
variable {α β : Type}
variable {g : α → RoomComp β} {f : Db → Except Error α} {x : Except Error α} {b : β}

theorem calm_modify (f : Db → Db) : Calm (Comp.modify f : RoomComp Unit) :=
  Comp.Never.of_ok fun db => ⟨(), f db, rfl⟩

theorem calm_pure (a : α) : Calm (pure a : RoomComp α) := Comp.Never.of_ok fun db => ⟨a, db, rfl⟩

theorem calm_get {f : Db → RoomComp β} (hf : ∀ db, Calm (f db)) : Calm (Comp.get >>= f) :=
  Comp.Never.bind (Comp.Never.of_ok fun db => ⟨db, db, rfl⟩) hf

theorem calm_gets (f : Db → α) : Calm (Comp.gets f : RoomComp α) :=
  Comp.Never.of_ok fun db => ⟨f db, db, rfl⟩

theorem calm_nextCount : Calm nextCount := by
  intro db hf
  obtain ⟨e, db', he, hp⟩ := hf
  by_cases hlt : db.state.counter + 1 < 2^64
  · rw [nextCount_run hlt] at he
    cases he
  · rw [nextCount_overflow hlt] at he
    cases he
    cases hp

/-- a read that succeeds is not what refuses -/
theorem not_refuses_reads (h : Succeeds (f db)) :
    ¬ Refuses (Comp.reads f) db := by
  intro hf
  obtain ⟨e, db', he, _⟩ := hf
  obtain ⟨a, ha⟩ := h
  rw [Comp.reads_run, ha] at he
  cases he

theorem not_refuses_bind {x : RoomComp α} {f : α → RoomComp β} (hx : ¬ Refuses x db)
    (hf : ∀ a db', x db = (.ok a, db') → ¬ Refuses (f a) db') : ¬ Refuses (x >>= f) db := by
  intro h
  rcases Comp.failsIn_bind.mp h with h | ⟨a, db', ha, h⟩
  · exact hx h
  · exact hf a db' ha h

/-- a read that comes first -/
theorem not_refuses_read (h : Succeeds (f db)) (hg : ∀ a, f db = .ok a → ¬ Refuses (g a) db) :
    ¬ Refuses (Comp.reads f >>= g) db := by
  refine not_refuses_bind (not_refuses_reads h) fun a db' ha => ?_
  obtain ⟨hok, rfl⟩ := Prod.mk.inj ha
  exact hg a hok

/-- a computation that ended well, behind a read -/
theorem read_ok (h : (Comp.reads f >>= g) db = (.ok b, db')) : ∃ a, f db = .ok a ∧ g a db = (.ok b, db') :=
  Comp.reads_eq_ok h

theorem ofExcept_ok (h : (Comp.ofExcept x >>= g) db = (.ok b, db')) : ∃ a, x = .ok a ∧ g a db = (.ok b, db') :=
  Comp.reads_eq_ok (f := fun _ => x) h

theorem not_refuses_ofExcept (h : ∀ e, x = .error e → e.isPanic = true)
    (hg : ∀ a, x = .ok a → ¬ Refuses (g a) db) :
    ¬ Refuses (Comp.ofExcept x >>= g) db := by
  refine not_refuses_bind (fun hf => ?_) fun a db' ha => ?_
  · obtain ⟨e, db', he, hp⟩ := hf
    rw [h e (Prod.mk.inj he).1] at hp
    cases hp
  · obtain ⟨hok, rfl⟩ := Prod.mk.inj ha
    exact hg a hok

end

variable (env : Env)

/-! ## what stays the same for the checks -/

/-- the store as the checks see it -/
structure Alike (db db' : Db) : Prop where
  sees : Sees db db'
  members : db'.members = db.members
  accounts : db'.accounts = db.accounts

theorem blind_alike : Blind Alike :=
  .of_aside (fun a b c h h' => ⟨blind_sees.trans a b c h.sees h'.sees, h'.members.trans h.members,
      h'.accounts.trans h.accounts⟩)
    (fun db hlt => ⟨blind_sees.count db hlt, rfl, rfl⟩) fun _ _ _ _ _ _ _ _ _ => ⟨⟨rfl, _, rfl⟩, rfl, rfl⟩

/-- no row comes or goes -/
structure SameRows (db db' : Db) : Prop where
  ids : db'.timeline.eventidPduid = db.timeline.eventidPduid
  rows : ∀ id, (db'.timeline.pduidPdu.get id).isSome = (db.timeline.pduidPdu.get id).isSome

theorem blind_sameRows : Blind SameRows :=
  .of_aside (fun _ _ _ h h' => ⟨h'.ids.trans h.ids, fun id => (h'.rows id).trans (h.rows id)⟩)
    (fun _ _ => ⟨rfl, fun _ => rfl⟩) fun _ _ _ _ _ _ _ _ _ => ⟨rfl, fun _ => rfl⟩

theorem replacePdu_sameRows (id : Bytes) (json : PduJson) (pdu : PduEvent) :
    Comp.Keeps SameRows (replacePdu id json pdu) := by
  intro db
  refine ⟨replacePdu_sameIds id json pdu db, fun k => ?_⟩
  cases hv : db.timeline.pduidPdu.get id with
  | some v =>
    rw [replacePdu_run hv]
    show ((db.timeline.pduidPdu.insert id json).get k).isSome = _
    rw [Tree.get_insert]
    by_cases e : k = id
    · rw [if_pos e, e, hv]
      rfl
    · rw [if_neg e]
  | none =>
    unfold replacePdu TimelineTables.replacePdu
    rw [hv]

theorem afterInsert_sameRows (pdu : PduEvent) (s : Nat) (id : Bytes) (count : Nat) :
    Comp.Keeps SameRows (afterInsert env pdu s id count) :=
  afterInsert_keeps blind_sameRows env (fun _ _ => ⟨rfl, fun _ => rfl⟩) (fun _ _ => ⟨rfl, fun _ => rfl⟩)
    (fun _ _ => ⟨rfl, fun _ => rfl⟩) (fun db i _ json p _ _ => replacePdu_sameRows i json p db)
    pdu s id count

/-! ## push rules -/

/-- the users that `get_our_real_users` returns -/
def realUsers (db : Db) (r : RoomId) : List UserId :=
  match db.roster.ourRealUsersCache r with
  | some users => users
  | none => (((updateJoinedCount env r db).2.roster.ourRealUsersCache r).getD [])

theorem getOurRealUsers_run (db : Db) (r : RoomId) :
    ∃ db', getOurRealUsers env r db = (.ok (db.realUsers env r), db') := by
  unfold getOurRealUsers realUsers
  rw [Comp.bind_ok (Comp.get_run db)]
  cases db.roster.ourRealUsersCache r with
  | some users => exact ⟨db, rfl⟩
  | none => exact ⟨_, rfl⟩

/-- the power levels are readable, and the push rules of everyone who may be notified -/
structure PushesOk (db : Db) (pdu : PduEvent) : Prop where
  powerLevels : Succeeds (db.roomPowerLevels env pdu.roomId)
  rules : ∀ targets, pushTargets env pdu (db.realUsers env pdu.roomId) = .ok targets →
    ∀ u ∈ targets, u ≠ pdu.sender → Succeeds (db.pushRules env u)

theorem Alike.pushRules (h : Alike db db') (u : UserId) :
    db'.pushRules env u = db.pushRules env u := by
  unfold Db.pushRules
  rw [h.accounts]

theorem pushActions_ok {pl : PowerLevels} :
    Succeeds (db.pushActions env pl pdu u) ↔ Succeeds (db.pushRules env u) := by
  unfold pushActions
  cases hr : db.pushRules env u with
  | ok rules => exact ⟨fun _ => ⟨rules, rfl⟩, fun _ => ⟨_, rfl⟩⟩
  | error e =>
    refine ⟨fun h => ?_, fun h => ?_⟩
    · obtain ⟨a, ha⟩ := h
      cases ha
    · obtain ⟨a, ha⟩ := h
      cases ha

theorem queueRequests_alike (requests : List (Destination × Bytes)) (db : Db) :
    Alike db (queueRequests requests db).2 := ⟨⟨rfl, _, rfl⟩, rfl, rfl⟩

theorem pushUsers_not_refuses (pl : PowerLevels) (pdu : PduEvent) (id : Bytes) (us : List UserId)
    (db : Db) (h : ∀ u ∈ us, u ≠ pdu.sender → Succeeds (db.pushRules env u)) :
    ¬ Refuses (pushUsers env pl pdu id us) db := by
  induction us generalizing db with
  | nil => exact calm_pure _ db
  | cons u us ih =>
    unfold pushUsers
    by_cases hu : u = pdu.sender
    · rw [if_pos hu]
      exact ih db fun v hv => h v (List.mem_cons_of_mem _ hv)
    · rw [if_neg hu]
      have hrules := h u List.mem_cons_self hu
      refine not_refuses_read ((pushActions_ok env).mpr hrules) fun actions _ => ?_
      refine not_refuses_bind (calm_gets _ db) fun keys db₁ h1 => ?_
      obtain ⟨_, rfl⟩ := Prod.mk.inj h1
      refine not_refuses_bind (calm_modify _ db) fun _ db₂ h2 => ?_
      have hal := queueRequests_alike (keys.map (fun key => (.push u key, id))) db
      rw [h2] at hal
      refine not_refuses_bind (ih db₂ fun v hv hne => ?_) fun _ db₃ _ => calm_pure _ db₃
      rw [hal.pushRules env]
      exact h v (List.mem_cons_of_mem _ hv) hne

theorem pushUsers_ok (pl : PowerLevels) (pdu : PduEvent) (id : Bytes) (us : List UserId)
    (db db' : Db) (out : List UserId × List UserId)
    (h : pushUsers env pl pdu id us db = (.ok out, db')) :
    ∀ u ∈ us, u ≠ pdu.sender → Succeeds (db.pushRules env u) := by
  induction us generalizing db db' out with
  | nil => exact fun u hu => absurd hu List.not_mem_nil
  | cons u us ih =>
    unfold pushUsers at h
    by_cases hu : u = pdu.sender
    · rw [if_pos hu] at h
      intro v hv hne
      rcases List.mem_cons.mp hv with rfl | hv
      · exact absurd hu hne
      · exact ih db db' out h v hv hne
    · rw [if_neg hu] at h
      obtain ⟨actions, hact, h⟩ := read_ok h
      obtain ⟨keys, db₁, h1, h⟩ := Comp.bind_eq_ok.mp h
      obtain ⟨_, rfl⟩ := Prod.mk.inj h1
      obtain ⟨_, db₂, h2, h⟩ := Comp.bind_eq_ok.mp h
      obtain ⟨out', db₃, h3, _⟩ := Comp.bind_eq_ok.mp h
      have hal := queueRequests_alike (keys.map (fun key => (.push u key, id))) db
      rw [h2] at hal
      intro v hv hne
      rcases List.mem_cons.mp hv with rfl | hv
      · exact (pushActions_ok env).mp ⟨actions, hact⟩
      · rw [← hal.pushRules env]
        exact ih db₂ db₃ out' h3 v hv hne

theorem memberTarget_error {stateKey : String} {e : Error} (h : memberTarget env stateKey = .error e) :
    e.isPanic = true := by
  unfold memberTarget at h
  split at h <;> cases h
  rfl

theorem pushTargets_error {us : List UserId} {e : Error} (h : pushTargets env pdu us = .error e) :
    e.isPanic = true := by
  unfold pushTargets at h
  split at h
  · next stateKey _ _ =>
    cases hm : memberTarget env stateKey with
    | ok u =>
      rw [hm] at h
      cases h
    | error e' =>
      rw [hm] at h
      cases h
      exact memberTarget_error env hm
  · cases h

theorem pushPdu_not_refuses (h : PushesOk env db pdu) (id : Bytes) :
    ¬ Refuses (pushPdu env pdu id) db := by
  refine not_refuses_read h.powerLevels fun pl _ => ?_
  obtain ⟨db₁, hreal⟩ := getOurRealUsers_run env db pdu.roomId
  have hal := getOurRealUsers_keeps blind_alike env pdu.roomId db
  refine not_refuses_bind (fun hf => ?_) fun users db₂ h1 => ?_
  · obtain ⟨e, db', he, _⟩ := hf
    rw [hreal] at he
    cases he
  · rw [h1] at hal
    obtain ⟨hu, rfl⟩ := Prod.mk.inj (hreal.symm.trans h1)
    obtain rfl := Except.ok.inj hu
    refine not_refuses_ofExcept (fun e he => pushTargets_error env he) fun targets ht => ?_
    refine not_refuses_bind (pushUsers_not_refuses env _ _ _ _ _ fun u hu hne => ?_)
      fun _ db₃ _ => calm_modify _ db₃
    rw [hal.pushRules env]
    exact h.rules targets ht u hu hne

theorem pushPdu_ok {id : Bytes} (h : pushPdu env pdu id db = (.ok (), db')) : PushesOk env db pdu := by
  obtain ⟨pl, hpl, h⟩ := read_ok h
  obtain ⟨users, db₁, h1, h⟩ := Comp.bind_eq_ok.mp h
  have hal := getOurRealUsers_keeps blind_alike env pdu.roomId db
  rw [h1] at hal
  obtain ⟨db₂, hreal⟩ := getOurRealUsers_run env db pdu.roomId
  obtain ⟨hu, rfl⟩ := Prod.mk.inj (hreal.symm.trans h1)
  obtain rfl := Except.ok.inj hu
  obtain ⟨targets, ht, h⟩ := ofExcept_ok h
  obtain ⟨out, db₃, h3, _⟩ := Comp.bind_eq_ok.mp h
  refine ⟨⟨pl, hpl⟩, fun targets' ht' u hmem hne => ?_⟩
  obtain rfl := Except.ok.inj (ht.symm.trans ht')
  rw [← hal.pushRules env]
  exact pushUsers_ok env _ _ _ _ _ _ _ h3 u hmem hne

/-! ## redactions -/

/-- the row of the event, if it has one, can be redacted -/
def Redactable (db : Db) (reason : PduEvent) (e : EventId) : Prop :=
  ∀ id, db.timeline.eventidPduid e = some id → ∃ j version, db.timeline.pduidPdu.get id = some j ∧
    db.getRoomVersion env j.pdu.roomId = .ok version ∧ Succeeds (redact env j.pdu version reason)

/-- the room's version is known and has rules for redactions, the target can be read off the event
and the permission off the state, and what may be redacted can be redacted -/
def RedactionOk (db : Db) (pdu : PduEvent) : Prop :=
  ∃ version target, db.getRoomVersion env pdu.roomId = .ok version ∧
    redactionTarget env version pdu = .ok target ∧ ∀ e, target = some e →
      ∃ allowed, db.userCanRedact env e pdu.sender pdu.roomId false = .ok allowed ∧
        (allowed = true → Redactable env db pdu e)

theorem deindexBody_run (id : Bytes) (pdu : PduEvent) (s : Nat) (db : Db) :
    ∃ t, deindexBody env id pdu s db = (.ok (), { db with tokenids := t }) := by
  unfold deindexBody
  cases extractBodyStr pdu.content with
  | some body => exact ⟨_, rfl⟩
  | none => exact ⟨_, rfl⟩

theorem redactRow_not_refuses {id : Bytes} {j : PduJson} {version : RoomVersionId}
    (hj : db.timeline.pduidPdu.get id = some j) (hv : db.getRoomVersion env j.pdu.roomId = .ok version)
    (hr : Succeeds (redact env j.pdu version reason)) (s : Nat) :
    ¬ Refuses (redactRow env id j.pdu reason s) db := by
  obtain ⟨t, ht⟩ := deindexBody_run env id j.pdu s db
  have hsees : Sees db { db with tokenids := t } := ⟨rfl, _, rfl⟩
  refine not_refuses_bind (fun hf => ?_) fun _ db₁ h1 => ?_
  · obtain ⟨e, db', he, _⟩ := hf
    rw [ht] at he
    cases he
  · obtain ⟨_, rfl⟩ := Prod.mk.inj (ht.symm.trans h1)
    have hv' := (hsees.getRoomVersion env j.pdu.roomId).trans hv
    refine not_refuses_read ⟨version, hv'⟩ fun version' h2 => ?_
    obtain rfl := Except.ok.inj (hv'.symm.trans h2)
    refine not_refuses_ofExcept (fun e he => ?_) fun redacted _ => ?_
    · obtain ⟨x, hx⟩ := hr
      rw [hx] at he
      cases he
    · intro hf
      obtain ⟨e, db', he, _⟩ := hf
      rw [replacePdu_run (show ({ db with tokenids := t } : Db).timeline.pduidPdu.get id = some j from hj)]
        at he
      cases he

theorem redactRow_ok {id : Bytes} (h : redactRow env id pdu reason s db = (.ok (), db')) :
    ∃ version, db.getRoomVersion env pdu.roomId = .ok version ∧
      Succeeds (redact env pdu version reason) := by
  obtain ⟨t, ht⟩ := deindexBody_run env id pdu s db
  have hsees : Sees db { db with tokenids := t } := ⟨rfl, _, rfl⟩
  obtain ⟨_, db₁, h1, h⟩ := Comp.bind_eq_ok.mp h
  obtain ⟨_, rfl⟩ := Prod.mk.inj (ht.symm.trans h1)
  obtain ⟨version, hv, h⟩ := read_ok h
  obtain ⟨redacted, hr, _⟩ := ofExcept_ok h
  exact ⟨version, (hsees.getRoomVersion env pdu.roomId).symm.trans hv, redacted, hr⟩

theorem redactPdu_not_refuses (h : Redactable env db reason e) (s : Nat) :
    ¬ Refuses (redactPdu env e reason s) db := by
  cases hid : db.timeline.eventidPduid e with
  | none =>
    intro hf
    obtain ⟨e', db', he, _⟩ := hf
    rw [redactPdu_unknown env hid] at he
    cases he
  | some id =>
    obtain ⟨j, version, hj, hv, hr⟩ := h id hid
    intro hf
    refine redactRow_not_refuses env hj hv hr s ?_
    obtain ⟨e', db', he, hp⟩ := hf
    rw [redactPdu_known env hid hj] at he
    exact ⟨e', db', he, hp⟩

theorem redactPdu_ok (h : redactPdu env e reason s db = (.ok (), db')) : Redactable env db reason e := by
  intro id hid
  cases hj : db.timeline.pduidPdu.get id with
  | none =>
    rw [redactPdu_dangling env hid hj] at h
    cases h
  | some j =>
    rw [redactPdu_known env hid hj] at h
    obtain ⟨version, hv, hr⟩ := redactRow_ok env h
    exact ⟨j, version, rfl, hv, hr⟩

theorem applyRedaction_not_refuses (h : RedactionOk env db pdu) (s : Nat) :
    ¬ Refuses (applyRedaction env pdu s) db := by
  obtain ⟨version, target, hv, ht, he⟩ := h
  refine not_refuses_read ⟨version, hv⟩ fun version' h1 => ?_
  obtain rfl := Except.ok.inj (hv.symm.trans h1)
  refine not_refuses_ofExcept (fun e he => by rw [ht] at he; cases he) fun target' h2 => ?_
  obtain rfl := Except.ok.inj (ht.symm.trans h2)
  cases target with
  | none => exact calm_pure _ db
  | some e =>
    obtain ⟨allowed, ha, hr⟩ := he e rfl
    refine not_refuses_read ⟨allowed, ha⟩ fun allowed' h3 => ?_
    obtain rfl := Except.ok.inj (ha.symm.trans h3)
    cases allowed with
    | true => exact redactPdu_not_refuses env (hr rfl) s
    | false => exact calm_pure _ db

theorem applyRedaction_ok (h : applyRedaction env pdu s db = (.ok (), db')) : RedactionOk env db pdu := by
  obtain ⟨version, hv, h⟩ := read_ok h
  obtain ⟨target, ht, h⟩ := ofExcept_ok h
  refine ⟨version, target, hv, ht, fun e he => ?_⟩
  subst he
  obtain ⟨allowed, ha, h⟩ := read_ok h
  refine ⟨allowed, ha, fun hall => ?_⟩
  subst hall
  exact redactPdu_ok env h

/-! ## memberships -/

/-- the membership can be read off the event, the invite state off the room, and the account data
of the user is in order -/
def MemberOk (db : Db) (pdu : PduEvent) : Prop :=
  ∀ stateKey u, pdu.stateKey = some stateKey → memberTarget env stateKey = .ok u →
    ∃ membership, contentMembership pdu = .ok membership ∧
      Succeeds (db.inviteState env pdu membership) ∧
      (membership = .invite → Succeeds (db.isIgnored env u pdu.sender)) ∧
      (membership = .join → db.members.onceJoined u pdu.roomId = false →
        Succeeds (db.predecessor env pdu.roomId))

theorem calm_warned (x : RoomComp Unit) : Calm (warned x) := by
  intro db hf
  obtain ⟨e, db', he, hp⟩ := hf
  unfold warned at he
  cases hx : x db with
  | mk o db₁ =>
    rw [hx] at he
    cases o with
    | ok a => cases he
    | error e' =>
      simp only at he
      split at he
      · next hpanic =>
        cases he
        rw [hpanic] at hp
        cases hp
      · cases he

theorem calm_copyUpgradedAccountData (u : UserId) (fromRoom toRoom : RoomId) :
    Calm (copyUpgradedAccountData env u fromRoom toRoom) := by
  refine Comp.Never.bind (calm_get fun db => ?_) fun _ => calm_get fun db => ?_
  · split
    · exact calm_warned _
    · exact calm_pure _
  · split
    · split
      · exact calm_warned _
      · exact calm_pure _
    · exact calm_pure _

theorem checkOnceJoined_not_refuses (h : db.members.onceJoined u r = false → Succeeds (db.predecessor env r)) :
    ¬ Refuses (checkOnceJoined env u r) db := by
  refine not_refuses_bind (calm_gets _ db) fun db₀ db₁ h1 => ?_
  obtain ⟨h0, rfl⟩ := Prod.mk.inj h1
  obtain rfl := Except.ok.inj h0
  cases hb : db.members.onceJoined u r with
  | true => exact calm_pure _ db
  | false =>
    refine not_refuses_bind (calm_modify _ db) fun _ db₂ h2 => ?_
    have hsees : Sees db db₂ := by
      obtain ⟨_, rfl⟩ := Prod.mk.inj h2
      exact ⟨rfl, _, rfl⟩
    have hp := hsees.predecessor env r
    refine not_refuses_read (f := fun db => db.predecessor env r) (by rw [hp]; exact h hb) fun p _ => ?_
    cases p with
    | some p => exact calm_copyUpgradedAccountData env u p r db₂
    | none => exact calm_pure _ db₂

theorem checkOnceJoined_ok (h : checkOnceJoined env u r db = (.ok (), db'))
    (hb : db.members.onceJoined u r = false) :
    Succeeds (db.predecessor env r) := by
  obtain ⟨db₀, db₁, h1, h⟩ := Comp.bind_eq_ok.mp h
  obtain ⟨h0, rfl⟩ := Prod.mk.inj h1
  obtain rfl := Except.ok.inj h0
  simp only [hb, Bool.false_eq_true, if_false] at h
  obtain ⟨_, db₂, h2, h⟩ := Comp.bind_eq_ok.mp h
  have hsees : Sees db db₂ := by
    obtain ⟨_, rfl⟩ := Prod.mk.inj h2
    exact ⟨rfl, _, rfl⟩
  obtain ⟨p, hok, _⟩ := read_ok h
  exact ⟨p, (hsees.predecessor env r).symm.trans hok⟩

/-- what a membership change asks of the store -/
def MembershipOk (db : Db) (r : RoomId) (u : UserId) (membership : MembershipState) (sender : UserId) :
    Prop :=
  (membership = .invite → Succeeds (db.isIgnored env u sender)) ∧
    (membership = .join → db.members.onceJoined u r = false → Succeeds (db.predecessor env r))

theorem applyMembership_not_refuses (h : MembershipOk env db r u m sender) (lastState : Option (List Json)) :
    ¬ Refuses (applyMembership env r u m sender lastState) db := by
  have hleft : Calm (do
      markAsLeft u r
      pure true : RoomComp Bool) :=
    Comp.Never.bind (Comp.Never.bind calm_nextCount fun _ => calm_modify _) fun _ => calm_pure _
  cases m with
  | join =>
    refine not_refuses_bind (not_refuses_bind (checkOnceJoined_not_refuses env (h.2 rfl))
      fun _ db₁ _ => calm_modify _ db₁) fun _ db₂ _ => calm_pure _ db₂
  | invite =>
    refine not_refuses_read (h.1 rfl) fun ignored _ => ?_
    cases ignored with
    | true => exact calm_pure _ db
    | false =>
      exact (Comp.Never.bind (Comp.Never.bind calm_nextCount fun _ => calm_modify _)
        fun _ => calm_pure _) db
  | leave => exact hleft db
  | ban => exact hleft db
  | knock => exact calm_pure _ db
  | custom name => exact calm_pure _ db

theorem applyMembership_ok {b : Bool} (h : applyMembership env r u m sender lastState db = (.ok b, db')) :
    MembershipOk env db r u m sender := by
  cases m with
  | join =>
    refine ⟨nofun, fun _ hb => ?_⟩
    obtain ⟨_, db₁, h1, _⟩ := Comp.bind_eq_ok.mp h
    obtain ⟨_, db₂, h2, _⟩ := Comp.bind_eq_ok.mp h1
    exact checkOnceJoined_ok env h2 hb
  | invite =>
    refine ⟨fun _ => ?_, nofun⟩
    obtain ⟨ignored, hi, _⟩ := read_ok h
    exact ⟨ignored, hi⟩
  | leave => exact ⟨nofun, nofun⟩
  | ban => exact ⟨nofun, nofun⟩
  | knock => exact ⟨nofun, nofun⟩
  | custom name => exact ⟨nofun, nofun⟩

theorem trackRemoteUser_run (u : UserId) (db : Db) :
    ∃ t, trackRemoteUser env u db = (.ok (), { db with accounts := t }) ∧
      t.accountData = db.accounts.accountData := by
  unfold trackRemoteUser
  split
  · exact ⟨_, rfl, rfl⟩
  · exact ⟨db.accounts, rfl, rfl⟩

theorem MembershipOk.accounts {t : AccountTables} (ht : t.accountData = db.accounts.accountData) :
    MembershipOk env { db with accounts := t } r u m sender ↔ MembershipOk env db r u m sender := by
  have hsees : Sees db { db with accounts := t } := ⟨rfl, _, rfl⟩
  unfold MembershipOk Db.isIgnored Db.predecessor
  rw [hsees.roomStateGet env, ht]

theorem updateMembership_not_refuses (h : MembershipOk env db r u m sender) (lastState : Option (List Json))
    (updateCount : Bool) : ¬ Refuses (updateMembership env r u m sender lastState updateCount) db := by
  obtain ⟨t, ht, hdata⟩ := trackRemoteUser_run env u db
  refine not_refuses_bind (fun hf => ?_) fun _ db₁ h1 => ?_
  · obtain ⟨e, db', he, _⟩ := hf
    rw [ht] at he
    cases he
  · obtain ⟨_, rfl⟩ := Prod.mk.inj (ht.symm.trans h1)
    refine not_refuses_bind (applyMembership_not_refuses env ((MembershipOk.accounts env hdata).mpr h)
      lastState) fun done db₂ _ => ?_
    cases done with
    | false => exact calm_pure _ db₂
    | true =>
      cases updateCount with
      | true => exact calm_modify _ db₂
      | false => exact calm_pure _ db₂

theorem updateMembership_ok {updateCount : Bool}
    (h : updateMembership env r u m sender lastState updateCount db = (.ok (), db')) :
    MembershipOk env db r u m sender := by
  obtain ⟨t, ht, hdata⟩ := trackRemoteUser_run env u db
  obtain ⟨_, db₁, h1, h⟩ := Comp.bind_eq_ok.mp h
  obtain ⟨_, rfl⟩ := Prod.mk.inj (ht.symm.trans h1)
  obtain ⟨done, db₂, h2, _⟩ := Comp.bind_eq_ok.mp h
  exact (MembershipOk.accounts env hdata).mp (applyMembership_ok env h2)

theorem applyMember_not_refuses (h : MemberOk env db pdu) :
    ¬ Refuses (applyMember env pdu) db := by
  unfold applyMember
  cases hk : pdu.stateKey with
  | none => exact calm_pure _ db
  | some stateKey =>
    refine not_refuses_ofExcept (fun e he => memberTarget_error env he) fun u hu => ?_
    obtain ⟨m, hm, hinv, hok⟩ := h stateKey u hk hu
    refine not_refuses_ofExcept (fun e he => by rw [hm] at he; cases he) fun m' hm' => ?_
    obtain rfl := Except.ok.inj (hm.symm.trans hm')
    exact not_refuses_read hinv fun state _ => updateMembership_not_refuses env hok state true

theorem applyMember_ok (h : applyMember env pdu db = (.ok (), db')) :
    MemberOk env db pdu := by
  intro stateKey u hk hu
  unfold applyMember at h
  rw [hk] at h
  obtain ⟨u', hu', h⟩ := ofExcept_ok h
  obtain rfl := Except.ok.inj (hu.symm.trans hu')
  obtain ⟨m, hm, h⟩ := ofExcept_ok h
  obtain ⟨state, hinv, h⟩ := read_ok h
  exact ⟨m, hm, ⟨state, hinv⟩, updateMembership_ok env h⟩

/-! ## what an append accepts -/

structure Accepts (db : Db) (pdu : PduEvent) : Prop where
  pushes : PushesOk env db pdu
  redaction : pdu.kind = .roomRedaction → RedactionOk env db pdu
  member : pdu.kind = .roomMember → MemberOk env db pdu
  message : pdu.kind = .roomMessage → extractBody pdu.content ≠ none
  thread : ∀ root, relatesTo env pdu.content = some (.thread root) →
    ∃ id, db.timeline.eventidPduid root = some id ∧ (db.timeline.pduidPdu.get id).isSome = true

theorem Alike.redactionOk (h : Alike db db') (pdu : PduEvent) :
    RedactionOk env db' pdu ↔ RedactionOk env db pdu := by
  unfold RedactionOk Redactable
  simp only [h.sees.getRoomVersion env, h.sees.userCanRedact env, h.sees.timeline]

theorem Alike.memberOk (h : Alike db db') (pdu : PduEvent) :
    MemberOk env db' pdu ↔ MemberOk env db pdu := by
  unfold MemberOk Db.inviteState Db.calculateInviteState Db.isIgnored Db.predecessor
  simp only [h.sees.roomStateGet env, h.members, h.accounts]

theorem applyMessage_not_refuses (h : extractBody pdu.content ≠ none) (s : Nat) (id : Bytes) :
    ¬ Refuses (applyMessage env pdu s id) db := by
  unfold applyMessage
  cases hb : extractBody pdu.content with
  | none => exact absurd hb h
  | some body =>
    cases body with
    | none => exact calm_pure _ db
    | some body => exact Comp.Never.bind (calm_modify _) (fun _ => calm_modify _) db

theorem applyKind_not_refuses (hr : pdu.kind = .roomRedaction → RedactionOk env db pdu)
    (hm : pdu.kind = .roomMember → MemberOk env db pdu)
    (hb : pdu.kind = .roomMessage → extractBody pdu.content ≠ none) (s : Nat) (id : Bytes) :
    ¬ Refuses (applyKind env pdu s id) db := by
  unfold applyKind
  split
  · next hk => exact applyRedaction_not_refuses env (hr hk) s
  · unfold applySpaceChild
    cases pdu.stateKey with
    | some key => exact calm_modify _ db
    | none => exact calm_pure _ db
  · next hk => exact applyMember_not_refuses env (hm hk)
  · next hk => exact applyMessage_not_refuses env (hb hk) s id
  · exact calm_pure _ db

theorem applyKind_ok {id : Bytes} (h : applyKind env pdu s id db = (.ok (), db')) :
    (pdu.kind = .roomRedaction → RedactionOk env db pdu) ∧
      (pdu.kind = .roomMember → MemberOk env db pdu) ∧
      (pdu.kind = .roomMessage → extractBody pdu.content ≠ none) := by
  refine ⟨fun hk => ?_, fun hk => ?_, fun hk => ?_⟩
  · unfold applyKind at h
    rw [hk] at h
    exact applyRedaction_ok env h
  · unfold applyKind at h
    rw [hk] at h
    exact applyMember_ok env h
  · intro hb
    unfold applyKind at h
    rw [hk] at h
    unfold applyMessage at h
    rw [hb] at h
    cases h

theorem addRelationTo_not_refuses (count : Nat) (e : EventId) : Calm (addRelationTo count e) := by
  intro db
  refine not_refuses_bind (fun hf => ?_) fun related db₁ _ => ?_
  · obtain ⟨err, db', he, hp⟩ := hf
    have herr : db.timeline.getPduCount e = .error err := (Prod.mk.inj he).1
    unfold TimelineTables.getPduCount at herr
    split at herr
    · cases herr
    · next id _ =>
      unfold pduCount at herr
      split at herr
      · cases herr
        cases hp
      · simp only at herr
        split at herr <;> cases herr
  · cases related with
    | none => exact calm_pure _ db₁
    | some c =>
      cases c with
      | normal t => exact calm_modify _ db₁
      | backfilled t => exact calm_pure _ db₁

/-- the thread root has a row -/
def ThreadOk (db : Db) (pdu : PduEvent) : Prop :=
  ∀ root, relatesTo env pdu.content = some (.thread root) →
    ∃ id, db.timeline.eventidPduid root = some id ∧ (db.timeline.pduidPdu.get id).isSome = true

theorem SameRows.threadOk (h : SameRows db db') (pdu : PduEvent) :
    ThreadOk env db' pdu ↔ ThreadOk env db pdu := by
  unfold ThreadOk
  simp only [h.ids, h.rows]

theorem addToThread_not_refuses {id : Bytes} (hid : db.timeline.eventidPduid root = some id)
    (hrow : (db.timeline.pduidPdu.get id).isSome = true) (pdu : PduEvent) :
    ¬ Refuses (addToThread env root pdu) db := by
  obtain ⟨j, hj⟩ := Option.isSome_iff_exists.mp hrow
  intro hf
  obtain ⟨e, db', he, hp⟩ := hf
  rw [addToThread_known env hid hj] at he
  refine not_refuses_bind ?_ (fun _ db₁ _ => calm_modify _ db₁) ⟨e, db', he, hp⟩
  unfold bundleThread
  cases unsignedEntry j.json with
  | none => exact calm_pure _ db
  | some unsigned =>
    intro hf
    obtain ⟨e, db', he, _⟩ := hf
    have he' : replacePdu id _ j.pdu db = (.error e, db') := he
    rw [replacePdu_run hj] at he'
    cases he'

theorem addToThread_ok (h : addToThread env root pdu db = (.ok (), db')) :
    ∃ id, db.timeline.eventidPduid root = some id ∧ (db.timeline.pduidPdu.get id).isSome = true := by
  cases hid : db.timeline.eventidPduid root with
  | none =>
    rw [addToThread_unknown env hid] at h
    cases h
  | some id =>
    refine ⟨id, rfl, ?_⟩
    cases hj : db.timeline.pduidPdu.get id with
    | some j => rfl
    | none =>
      rw [addToThread_dangling env hid hj] at h
      cases h

theorem addRelations_not_refuses (h : ThreadOk env db pdu) (count : Nat) :
    ¬ Refuses (addRelations env pdu count) db := by
  have hsees := addRelatedEvent_keeps blind_sameRows env pdu count db
  refine not_refuses_bind ?_ fun _ db₁ h1 => ?_
  · unfold addRelatedEvent
    cases relatesToEventId env pdu.content with
    | some e => exact addRelationTo_not_refuses count e db
    | none => exact calm_pure _ db
  · rw [h1] at hsees
    have h' := (hsees.threadOk env pdu).mpr h
    unfold addRelated
    cases hrel : relatesTo env pdu.content with
    | none => exact calm_pure _ db₁
    | some rel =>
      cases rel with
      | reply e => exact addRelationTo_not_refuses count e db₁
      | thread root =>
        obtain ⟨id, hid, hrow⟩ := h' root hrel
        exact addToThread_not_refuses env hid hrow pdu
      | other => exact calm_pure _ db₁

theorem addRelations_ok (h : addRelations env pdu count db = (.ok (), db')) : ThreadOk env db pdu := by
  obtain ⟨_, db₁, h1, h⟩ := Comp.bind_eq_ok.mp h
  have hsees := addRelatedEvent_keeps blind_sameRows env pdu count db
  rw [h1] at hsees
  refine (hsees.threadOk env pdu).mp fun root hrel => ?_
  unfold addRelated at h
  rw [hrel] at h
  exact addToThread_ok env h

theorem calm_sendAppservices (pdu : PduEvent) (id : Bytes) : Calm (sendAppservices env pdu id) := by
  refine Comp.Never.forM _ fun a _ => Comp.Never.bind (calm_get fun db => ?_) fun inRoom => ?_
  · split
    · exact calm_pure _
    · exact Comp.Never.bind (calm_gets _) fun _ => Comp.Never.bind (calm_modify _) fun _ => calm_pure _
  · cases inRoom with
    | true => exact calm_modify _
    | false =>
      cases aboutAppserviceUser env pdu a with
      | true => exact calm_modify _
      | false =>
        simp only [Bool.false_eq_true, if_false]
        refine calm_get fun db => ?_
        cases db.appserviceMatches env pdu a with
        | true => exact calm_modify _
        | false => exact calm_pure _

theorem applyKind_sameRows (pdu : PduEvent) (s : Nat) (id : Bytes) :
    Comp.Keeps SameRows (applyKind env pdu s id) :=
  applyKind_keeps blind_sameRows env (fun _ _ => ⟨rfl, fun _ => rfl⟩) (fun _ _ => ⟨rfl, fun _ => rfl⟩)
    (fun _ _ => ⟨rfl, fun _ => rfl⟩) (fun db i _ json p _ _ => replacePdu_sameRows i json p db)
    pdu s id

theorem afterInsert_not_refuses (h : Accepts env db pdu) (s : Nat) (id : Bytes) (count : Nat) :
    ¬ Refuses (afterInsert env pdu s id count) db := by
  have halike := pushPdu_keeps blind_alike env pdu id db
  have hrows := pushPdu_keeps blind_sameRows env pdu id db
  refine not_refuses_bind (pushPdu_not_refuses env h.pushes id) fun _ db₁ h1 => ?_
  rw [h1] at halike hrows
  have hkind := applyKind_sameRows env pdu s id db₁
  refine not_refuses_bind (applyKind_not_refuses env
    (fun hk => (halike.redactionOk env pdu).mpr (h.redaction hk))
    (fun hk => (halike.memberOk env pdu).mpr (h.member hk)) h.message s id) fun _ db₂ h2 => ?_
  rw [h2] at hkind
  have hthread : ThreadOk env db₂ pdu :=
    (hkind.threadOk env pdu).mpr ((hrows.threadOk env pdu).mpr h.thread)
  exact not_refuses_bind (addRelations_not_refuses env hthread count) fun _ db₃ _ =>
    calm_sendAppservices env pdu id db₃

theorem afterInsert_ok {id : Bytes} (h : afterInsert env pdu s id count db = (.ok (), db')) :
    Accepts env db pdu := by
  obtain ⟨_, db₁, h1, h⟩ := Comp.bind_eq_ok.mp h
  obtain ⟨_, db₂, h2, h⟩ := Comp.bind_eq_ok.mp h
  obtain ⟨_, db₃, h3, _⟩ := Comp.bind_eq_ok.mp h
  have halike := pushPdu_keeps blind_alike env pdu id db
  have hrows := pushPdu_keeps blind_sameRows env pdu id db
  have hkind := applyKind_sameRows env pdu s id db₁
  rw [h1] at halike hrows
  rw [h2] at hkind
  obtain ⟨hr, hm, hb⟩ := applyKind_ok env h2
  exact ⟨pushPdu_ok env h1, fun hk => (halike.redactionOk env pdu).mp (hr hk),
    fun hk => (halike.memberOk env pdu).mp (hm hk), hb,
    (hrows.threadOk env pdu).mp ((hkind.threadOk env pdu).mp (addRelations_ok env h3))⟩

end Db
end Grapevine
