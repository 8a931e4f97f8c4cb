import Grapevine.Events.Incoming
import Grapevine.Lib.Update

/-!
# The ids of received events

A received event is ADDRESSED if its event id is the reference hash of the object that was
received, by the version of its room.  The callers of the handler see to this for the events they
are sent; for an event that was fetched by its id, the answer alone decides, since a different id
is only logged.

* `Filed`            every outlier and every row is an addressed event, or another part's own;
* `Call.filed`       one call, on answers that have the ids they were asked for;
* `run_filed`        the same for a whole run.

Main result: `run_filed`, and a server that answers with another event
(`answer_under_other_id`).
-/

set_option linter.unusedSectionVars false

namespace Grapevine
open Kv

namespace Db

variable (env : Env) (fed : Fed)
variable {e : EventId} {j : PduJson} {value : JsonObject} {createEvent p q : PduEvent} {r : RoomId}
  {version : RoomVersionId} {db db' : Db} {raw : RawPdu} {V : RoomId → RoomVersionId → Prop}

/-! ## what is filed -/

section
variable (own : PduEvent → Prop) (G : EventId → PduJson → Prop)

/-- an event of another part of the program, or one that was received, perhaps rewritten since -/
def Known (p : PduEvent) : Prop :=
  ∃ q, Revises q p ∧ (own q ∨ ∃ j, G q.eventId j ∧ j.pdu = q)

/-- every outlier and every row is an event of another part, or one that was received -/
structure Filed (db : Db) : Prop where
  outliers : ∀ e j, db.timeline.eventidOutlierpdu e = some j →
    j.pdu.eventId = e ∧ (own j.pdu ∨ G e j)
  rows : ∀ id j, db.timeline.pduidPdu.get id = some j → Known own G j.pdu
  ids : ∀ e id, db.timeline.eventidPduid e = some id → ∃ p, p.eventId = e ∧ Known own G p
  cache : ∀ e p, db.timeline.pduCache e = some p → Known own G p

end

section
variable {own : PduEvent → Prop} {G : EventId → PduJson → Prop}
variable {I : Db → Prop}

theorem Known.revises (h : Known own G p) (hr : Revises p q) : Known own G q := by
  obtain ⟨p', hp', hk⟩ := h
  exact ⟨p', hp'.trans hr, hk⟩

theorem Known.of_received (h : G e j) (he : j.pdu.eventId = e) :
    Known own G j.pdu := by
  refine ⟨j.pdu, Revises.refl _, Or.inr ⟨j, ?_, rfl⟩⟩
  rw [he]
  exact h

theorem Filed.of_same (h : Filed own G db) (ht : db'.timeline = db.timeline) :
    Filed own G db' := by
  obtain ⟨h1, h2, h3, h4⟩ := h
  rw [← ht] at h1 h2 h3 h4
  exact ⟨h1, h2, h3, h4⟩

theorem Filed.outlierKnown (h : Filed own G db) (hj : db.timeline.eventidOutlierpdu e = some j) :
    Known own G j.pdu := by
  obtain ⟨he, ho | hg⟩ := h.outliers e j hj
  · exact ⟨j.pdu, Revises.refl _, Or.inl ho⟩
  · exact Known.of_received hg he

theorem Filed.getPduJson (h : Filed own G db) (hj : db.timeline.getPduJson e = .ok (some j)) :
    Known own G j.pdu := by
  unfold TimelineTables.getPduJson TimelineTables.getNonOutlierPduJson at hj
  cases hid : db.timeline.eventidPduid e with
  | none =>
    simp only [hid] at hj
    exact h.outlierKnown (Except.ok.inj hj)
  | some id =>
    cases hrow : db.timeline.pduidPdu.get id with
    | none =>
      simp only [hid, hrow] at hj
      cases hj
    | some v =>
      simp only [hid, hrow] at hj
      cases hj
      exact h.rows id _ hrow

theorem Filed.idKnown (h : Filed own G db) (hj : db.timeline.getPduJson e = .ok (some j)) :
    ∃ p, p.eventId = e ∧ Known own G p := by
  unfold TimelineTables.getPduJson TimelineTables.getNonOutlierPduJson at hj
  cases hid : db.timeline.eventidPduid e with
  | none =>
    simp only [hid] at hj
    exact ⟨j.pdu, (h.outliers e j (Except.ok.inj hj)).1, h.outlierKnown (Except.ok.inj hj)⟩
  | some id => exact h.ids e id hid

theorem Filed.getPdu (h : Filed own G db) (hp : db.getPdu e = .ok (some p)) : Known own G p := by
  unfold Db.getPdu TimelineTables.getPdu at hp
  cases hc : db.timeline.pduCache e with
  | some c =>
    simp only [hc] at hp
    cases hp
    exact h.cache e _ hc
  | none =>
    simp only [hc] at hp
    cases hj : db.timeline.getPduJson e with
    | error err =>
      simp only [hj] at hp
      cases hp
    | ok o =>
      cases o with
      | none =>
        simp only [hj] at hp
        cases hp
      | some j =>
        simp only [hj] at hp
        cases hp
        exact h.getPduJson hj

/-! ### the writes -/

theorem Filed.persist {db : Db} (h : Filed own G db) {e : EventId} {j : PduJson} (hj : G e j)
    (he : j.pdu.eventId = e) : Filed own G { db with timeline := db.timeline.addPduOutlier e j } := by
  refine ⟨fun e' j' hj' => ?_, h.rows, h.ids, h.cache⟩
  exact update_some_entries h.outliers ⟨he, Or.inr hj⟩ e' j' hj'

/-- an event that becomes a row is no outlier any more -/
theorem Filed.row {db db' : Db} (h : Filed own G db) {id : Bytes} {e : EventId} {j : PduJson}
    (hrow : db'.timeline.pduidPdu = db.timeline.pduidPdu.insert id j)
    (hid : db'.timeline.eventidPduid = Function.update db.timeline.eventidPduid e (some id))
    (hout : db'.timeline.eventidOutlierpdu
      = Function.update db.timeline.eventidOutlierpdu e none)
    (hcache : db'.timeline.pduCache = db.timeline.pduCache)
    (hj : Known own G j.pdu) (he : ∃ p, p.eventId = e ∧ Known own G p) : Filed own G db' := by
  refine ⟨fun e' j' hj' => ?_, fun id' j' hj' => ?_, fun e' id' hid' => ?_, ?_⟩
  · rw [hout] at hj'
    exact h.outliers e' j' (update_none_eq_some.mp hj').2
  · rw [hrow, Tree.get_insert] at hj'
    by_cases hi : id' = id
    · rw [if_pos hi] at hj'
      cases hj'
      exact hj
    · rw [if_neg hi] at hj'
      exact h.rows id' j' hj'
  · rw [hid] at hid'
    by_cases hee : e' = e
    · rw [hee]
      exact he
    · rw [Function.update_of_ne hee] at hid'
      exact h.ids e' id' hid'
  · rw [hcache]
    exact h.cache

theorem Filed.replace {db : Db} (h : Filed own G db) {id : Bytes} {v json : PduJson} (pdu : PduEvent)
    (hv : db.timeline.pduidPdu.get id = some v) (hr : Revises v.pdu json.pdu) :
    Filed own G (replacePdu id json pdu db).2 := by
  rw [replacePdu_run hv]
  refine ⟨h.outliers, fun id' j' hj' => ?_, h.ids, fun e p hp => ?_⟩
  · change (db.timeline.pduidPdu.insert id json).get id' = some j' at hj'
    rw [Tree.get_insert] at hj'
    by_cases hi : id' = id
    · rw [if_pos hi] at hj'
      cases hj'
      exact (h.rows id v hv).revises hr
    · rw [if_neg hi] at hj'
      exact h.rows id' j' hj'
  · exact h.cache e p (update_none_eq_some.mp hp).2

/-- a step keeps the filed events -/
abbrev StaysFiled (own : PduEvent → Prop) (G : EventId → PduJson → Prop) (db db' : Db) : Prop :=
  Filed own G db → Filed own G db'

theorem staysFiled_same (ht : db'.timeline = db.timeline) : StaysFiled own G db db' :=
  fun h => h.of_same ht

theorem staysFiled_quiet : Quiet (StaysFiled own G) where
  refl _ h := h
  trans _ _ _ h h' hf := h' (h hf)
  state _ _ _ := staysFiled_same rfl
  chains _ _ _ := staysFiled_same rfl
  ratelimiter _ _ := staysFiled_same rfl
  ticks _ _ := staysFiled_same rfl

theorem staysFiled_blind : Blind (StaysFiled own G) :=
  .of_aside (fun _ _ _ h h' hf => h' (h hf)) (fun _ _ => staysFiled_same rfl)
    fun _ _ _ _ _ _ _ _ _ => staysFiled_same rfl

/-! ## appends -/

theorem storePdu_filed (hj : Known own G j.pdu) (leaves : List EventId) (s : Nat) :
    Comp.Keeps (StaysFiled own G) (storePdu env j leaves s) := by
  have hb : Blind (StaysFiled own G) := staysFiled_blind
  intro db
  refine Comp.keeps_bind_at hb.trans (hb.refl db) fun stored db₁ h1 => ?_
  have hr := correctUnsigned_revises env (Prod.mk.inj h1).1
  have hwrites : Comp.Keeps (StaysFiled own G) (do
      markAsReferenced j.pdu.roomId j.pdu.prevEvents
      setForwardExtremities j.pdu.roomId leaves
      insertPdu stored j.pdu s) :=
    hb.bind (Comp.Keeps.modify fun _ => staysFiled_same rfl) fun _ =>
      hb.bind (Comp.Keeps.modify fun _ => staysFiled_same rfl) fun _ =>
      hb.bind (nextCount_keeps hb) fun _ => hb.bind (privateReadSet_keeps hb _ _ _) fun _ =>
      hb.bind (resetNotificationCounts_keeps hb _ _) fun _ => hb.bind (nextCount_keeps hb) fun _ =>
      hb.bind (Comp.Keeps.modify fun _ h =>
        h.row rfl rfl rfl rfl (hj.revises hr) ⟨j.pdu, rfl, hj⟩) fun _ => hb.pure _
  exact hwrites db₁

theorem appendPdu_filed (hj : Known own G j.pdu) (leaves : List EventId) :
    Comp.Keeps (StaysFiled own G) (appendPdu env j leaves) := by
  have hb : Blind (StaysFiled own G) := staysFiled_blind
  refine hb.get fun db => ?_
  cases db.roomidShortroomid j.pdu.roomId with
  | none => exact hb.read fun _ => rfl
  | some s =>
    exact hb.bind (storePdu_filed env hj leaves s) fun _ =>
      hb.bind (afterInsert_keeps hb env (fun _ _ => staysFiled_same rfl)
        (fun _ _ => staysFiled_same rfl) (fun _ _ => staysFiled_same rfl)
        (fun _ _ _ _ pdu hv hr h => h.replace pdu hv hr.1) _ _ _ _) fun _ => hb.pure _

theorem appendIncomingPdu_filed (hj : Known own G j.pdu) (r : RoomId) (leaves : List EventId)
    (compressed : Finset CompressedStateEvent) (softFail : Bool) :
    Comp.Keeps (StaysFiled own G) (appendIncomingPdu env r j leaves compressed softFail) := by
  have hq : Quiet (StaysFiled own G) := staysFiled_quiet
  unfold appendIncomingPdu
  split
  · exact hq.read fun _ => rfl
  · refine hq.bind (hq.onState (StateDb.setEventState_later _ _ _ _ _)) fun _ => ?_
    cases softFail with
    | true =>
      exact hq.bind (Comp.Keeps.modify fun _ => staysFiled_same rfl) fun _ =>
        hq.bind (Comp.Keeps.modify fun _ => staysFiled_same rfl) fun _ => hq.pure _
    | false => exact hq.fetching.map _ (appendPdu_filed env hj leaves)

theorem settle_filed (hj : Known own G j.pdu) (fuel : Nat) (r : RoomId) (version : RoomVersionId)
    (state : Tree Nat EventId) (softFail : Bool) :
    Comp.Keeps (StaysFiled own G) (settle env fed fuel r version j state softFail) := by
  have hq : Quiet (StaysFiled own G) := staysFiled_quiet
  refine hq.bind (hq.read fun _ => rfl) fun _ => hq.bind (compressState_quiet hq _) fun _ =>
    hq.bind (fun db =>
      staysFiled_same (deriveState_sameEvents env fed fuel r version j.pdu state db).1) fun _ => ?_
  cases softFail with
  | true =>
    exact hq.bind (appendIncomingPdu_filed env hj _ _ _ _) fun _ =>
      hq.bind (Comp.Keeps.modify fun _ => staysFiled_same rfl) fun _ => hq.read fun _ => rfl
  | false => exact appendIncomingPdu_filed env hj _ _ _ _

/-! ## received events -/

/-- what a received object may be persisted as is an event of the kind `G` -/
def Receives (env : Env) (fed : Fed) (G : EventId → PduJson → Prop) (createEvent : PduEvent)
    (r : RoomId) (e : EventId) (value : JsonObject) : Prop :=
  ∀ j version, createVersion env fed createEvent = .ok version → OutlierOf fed version e value j →
    j.pdu.roomId = r → j.pdu.eventId = e ∧ G e j

theorem Receives.adds (h : Receives env fed G createEvent r e value) :
    Adds env fed (StaysFiled own G) createEvent r e value :=
  fun _ j version hv hj hr hf => hf.persist (h j version hv hj hr).2 (h j version hv hj hr).1

theorem verifyPdu_gives (h : Receives env fed G createEvent r e value) :
    Comp.Gives (Filed own G) (verifyPdu env fed createEvent e r value)
      (fun j => j.pdu.eventId = e ∧ G e j) := by
  refine Comp.Gives.of_keeps (verifyPdu_quiet env fed staysFiled_quiet.fetching createEvent e r value)
    fun db j db' hrun => ?_
  obtain ⟨version, hv, hj, _, hr⟩ := verifyPdu_ok env fed hrun
  exact h j version hv hj hr

theorem persistOutlier_gives (he : j.pdu.eventId = e) (hj : G e j) :
    Comp.Gives (Filed own G) (persistOutlier env fed createEvent r j)
      (fun j => Known own G j.pdu) := by
  refine Comp.Gives.bind (Comp.Gives.of_read (P := fun _ => True) (fun _ => rfl)
    fun _ _ _ _ => trivial) fun _ _ => ?_
  refine Comp.Gives.bind (P := fun _ => True) (Comp.Gives.of_keeps ?_ fun _ _ _ _ => trivial)
    fun _ _ => Comp.Gives.pure (Known.of_received hj he)
  refine Comp.Keeps.modify fun db h => ?_
  rw [he]
  exact h.persist hj he

theorem attempt_gives {α : Type} {x : RoomComp α} {P : α → Prop} (h : Comp.Gives I x P) :
    Comp.Gives I (attempt x) (fun o => ∀ a, o = some a → P a) := by
  intro db hdb
  have hx := h db hdb
  unfold Comp.Ends at hx
  cases h1 : x db with
  | mk o db' =>
    rw [h1] at hx
    cases o with
    | ok a =>
      have hrun : attempt x db = (.ok (some a), db') := by
        unfold attempt
        rw [h1]
      refine Comp.Ends.of_ok hrun ⟨hx.1, fun b hb => ?_⟩
      cases hb
      exact hx.2
    | error e =>
      cases hp : e.isPanic with
      | true =>
        have hrun : attempt x db = (.error e, db') := by
          unfold attempt
          rw [h1]
          exact if_pos hp
        exact Comp.Ends.of_error hrun hx
      | false =>
        have hrun : attempt x db = (.ok none, db') := by
          unfold attempt
          rw [h1]
          exact if_neg (by simp [hp])
        exact Comp.Ends.of_ok hrun ⟨hx, fun b hb => by cases hb⟩

theorem handleKnownOutlier_gives (h : Receives env fed G createEvent r e value) :
    Comp.Gives (Filed own G) (handleKnownOutlier env fed createEvent e r value)
      (fun j => Known own G j.pdu) :=
  (verifyPdu_gives env fed h).bind fun _ hj => persistOutlier_gives env fed hj.1 hj.2

theorem handleFetched_gives (h : Receives env fed G createEvent r e value) :
    Comp.Gives (Filed own G) (handleFetched env fed createEvent r e value)
      (fun o => ∀ j, o = some j → Known own G j.pdu) := by
  have hq : Quiet (StaysFiled own G) := staysFiled_quiet
  have hnone : ∀ j, (none : Option PduJson) = some j → Known own G j.pdu := fun j hj => by cases hj
  refine Comp.Gives.bind (P := fun _ => True)
    (Comp.Gives.of_keeps (tick_quiet hq.fetching) fun _ _ _ _ => trivial) fun n _ => Comp.Gives.get fun db _ => ?_
  split
  · exact Comp.Gives.pure hnone
  · refine (attempt_gives (handleKnownOutlier_gives env fed h)).bind fun o ho => ?_
    cases o with
    | some j => exact Comp.Gives.pure ho
    | none =>
      exact Comp.Gives.bind (P := fun _ => True)
        (Comp.Gives.of_keeps (backOff_quiet fed hq.fetching e) fun _ _ _ _ => trivial)
        fun _ _ => Comp.Gives.pure hnone

theorem handleAllFetched_gives (wanted : EventId) {fetched : List (EventId × JsonObject)}
    (h : ∀ f ∈ fetched, Receives env fed G createEvent r f.1 f.2) :
    Comp.Gives (Filed own G) (handleAllFetched env fed createEvent r wanted fetched)
      (fun out => ∀ p ∈ out, Known own G p.1) := by
  induction fetched with
  | nil => exact Comp.Gives.pure fun p hp => absurd hp List.not_mem_nil
  | cons f fetched ih =>
    refine (handleFetched_gives env fed (h f List.mem_cons_self)).bind fun o ho =>
      (ih fun g hg => h g (List.mem_cons_of_mem _ hg)).bind fun rest hrest => Comp.Gives.pure ?_
    cases o with
    | none => exact hrest
    | some j =>
      show ∀ p ∈ (if f.1 = wanted then (j.pdu, some j.json) :: rest else rest), Known own G p.1
      split
      · intro p hp
        rcases List.mem_cons.mp hp with rfl | hp
        · exact ho j rfl
        · exact hrest p hp
      · exact hrest

/-- a computation whose result does not matter here -/
theorem gives_of_quiet {α : Type} {x : RoomComp α} (h : Comp.Keeps (fun db db' => I db → I db') x) :
    Comp.Gives I x (fun _ => True) :=
  Comp.Gives.of_keeps h fun _ _ _ _ => trivial

section
variable {origin : ServerName} {createEvent : PduEvent} {r : RoomId} {version : RoomVersionId}
  (hv : ∀ v, createVersion env fed createEvent = .ok v → v = version)
  (hans : ∀ e value, Answered fed origin version e value →
    Receives env fed G createEvent r e value)
variable {info : List (EventId × PduJson)}
include hv hans

theorem fetchOutlier_gives (fuel : Nat) (e : EventId) :
    Comp.Gives (Filed own G) (fetchOutlier env fed fuel origin createEvent r version e)
      (fun out => ∀ p ∈ out, Known own G p.1) := by
  have hfetch : Comp.Gives (Filed own G) (do
      let fetched ← fetchAuthChain fed origin version fuel [e] []
      handleAllFetched env fed createEvent r e fetched)
      (fun out => ∀ p ∈ out, Known own G p.1) := by
    refine Comp.Gives.bind (P := fun fetched => ∀ f ∈ fetched, Answered fed origin version f.1 f.2)
      (Comp.Gives.of_keeps (fetchAuthChain_quiet fed staysFiled_quiet.fetching origin version fuel [e] [])
        fun db out db' h => fetchAuthChain_ok fed fuel [e] [] out db db'
          (fun f hf => absurd hf List.not_mem_nil) h)
      fun fetched hf => handleAllFetched_gives env fed e fun f hm => hans _ _ (hf f hm)
  refine Comp.Gives.get fun db hdb => ?_
  cases hget : db.getPdu e with
  | error err => exact hfetch
  | ok o =>
    cases o with
    | none => exact hfetch
    | some localPdu =>
      refine Comp.Gives.pure fun p hp => ?_
      rw [List.mem_singleton.mp hp]
      exact hdb.getPdu hget

theorem fetchAndHandleOutliers_gives (fuel : Nat) (es : List EventId) :
    Comp.Gives (Filed own G) (fetchAndHandleOutliers env fed fuel origin createEvent r version es)
      (fun out => ∀ p ∈ out, Known own G p.1) := by
  induction es with
  | nil => exact Comp.Gives.pure fun p hp => absurd hp List.not_mem_nil
  | cons e es ih =>
    refine (fetchOutlier_gives env fed hv hans fuel e).bind fun pdus hpdus =>
      ih.bind fun rest hrest => Comp.Gives.pure fun p hp => ?_
    rcases List.mem_append.mp hp with hp | hp
    · exact hpdus p hp
    · exact hrest p hp

/-- what `handle_outlier_pdu` persists and returns -/
theorem handleOutlierPdu_gives (hrec : Receives env fed G createEvent r e value) (fuel : Nat) :
    Comp.Gives (Filed own G) (handleOutlierPdu env fed fuel origin createEvent e r value)
      (fun j => Known own G j.pdu) := by
  refine (verifyPdu_gives env fed hrec).bind fun j hj => ?_
  refine Comp.Gives.bind (P := fun v => v = version)
    (Comp.Gives.of_read (fun _ => rfl) fun _ v _ h => hv v h) fun v hver => ?_
  rw [hver]
  exact (fetchAndHandleOutliers_gives env fed hv hans fuel _).bind fun _ _ =>
    persistOutlier_gives env fed hj.1 hj.2

theorem upgrade_filed (hj : Known own G j.pdu) (fuel : Nat) :
    Comp.Keeps (StaysFiled own G)
      (upgradeOutlierToTimelinePdu env fed fuel j createEvent origin r) := by
  have hq : Quiet (StaysFiled own G) := staysFiled_quiet
  intro db
  unfold upgradeOutlierToTimelinePdu
  rw [Comp.bind_ok (Comp.get_run db)]
  cases db.timeline.getPduId j.pdu.eventId with
  | some id => exact hq.refl db
  | none =>
    show StaysFiled own G db ((Comp.get >>= _) db).2
    rw [Comp.bind_ok (Comp.get_run db)]
    cases db.isEventSoftFailed j.pdu.eventId with
    | true => exact hq.refl db
    | false =>
      refine Comp.keeps_bind_at hq.trans (hq.refl db) fun v db₁ h1 => ?_
      obtain ⟨hok, rfl⟩ := Prod.mk.inj h1
      obtain rfl := hv v hok
      exact hq.bind (stateAtIncomingEvent_keeps env fed hq
        (fun e value ha => (hans e value ha).adds env fed) fuel j.pdu) (fun _ =>
          hq.bind (hq.read fun _ => rfl) fun _ => hq.bind (hq.read fun _ => rfl) fun _ =>
            settle_filed env fed hj fuel r _ _ _) _

/-! ## missing prev events -/

omit hv hans in
theorem notePrevEvent_known {first : PduEvent} {p : PrevEvents} {fetched : PduEvent × Option JsonObject}
    (hp : ∀ i ∈ p.eventidInfo, Known own G i.2.pdu) (hf : Known own G fetched.1) :
    ∀ i ∈ (db.notePrevEvent fed first e p fetched).1.eventidInfo, Known own G i.2.pdu := by
  have hinsert : ∀ (q : PrevEvents) (json : JsonObject), q.eventidInfo = p.eventidInfo →
      ∀ i ∈ (q.insertInfo e ⟨json, fetched.1⟩).eventidInfo, Known own G i.2.pdu := by
    intro q json hq i hi
    rcases List.mem_cons.mp hi with rfl | hi
    · exact hf
    · rw [hq] at hi
      exact hp i (List.mem_of_mem_filter hi)
  unfold notePrevEvent
  split
  · exact hp
  · dsimp only
    split
    · unfold PrevEvents.note
      split
      · exact hinsert _ _ rfl
      · exact hinsert _ _ rfl
    · exact hp

theorem fetchPrevEvents_gives (fuel rounds : Nat) (first : PduEvent) (todo : List EventId)
    {p : PrevEvents} (hp : ∀ i ∈ p.eventidInfo, Known own G i.2.pdu) :
    Comp.Gives (Filed own G)
      (fetchPrevEvents env fed fuel origin createEvent r version first rounds todo p)
      (fun p => ∀ i ∈ p.eventidInfo, Known own G i.2.pdu) := by
  induction rounds generalizing todo p with
  | zero =>
    cases todo with
    | nil => exact Comp.Gives.pure hp
    | cons e todo => exact Comp.Gives.of_read (fun _ => rfl) fun _ _ _ h => by cases h
  | succ rounds ih =>
    cases todo with
    | nil => exact Comp.Gives.pure hp
    | cons e todo =>
      refine (fetchAndHandleOutliers_gives env fed hv hans fuel [e]).bind fun pdus hpdus => ?_
      cases hlast : pdus.getLast? with
      | none => exact ih todo hp
      | some fetched =>
        have hf : Known own G fetched.1 := hpdus fetched (List.mem_of_getLast? hlast)
        refine Comp.Gives.bind (gives_of_quiet (staysFiled_quiet.read fun _ => rfl)) fun _ _ => ?_
        exact Comp.Gives.bind (P := fun noted : PrevEvents × List EventId =>
            ∀ i ∈ noted.1.eventidInfo, Known own G i.2.pdu)
          (Comp.Gives.of_read (fun _ => rfl) fun db _ _ h =>
            Except.ok.inj h ▸ notePrevEvent_known fed hp hf) fun noted hn => ih _ hn

theorem handlePrevEvent_gives (fuel : Nat) (first : PduEvent) (e : EventId) (errors : Nat)
    (hinfo : ∀ i ∈ info, Known own G i.2.pdu) :
    Comp.Gives (Filed own G)
      (handlePrevEvent env fed fuel origin createEvent r first e errors info)
      (fun out => ∀ i ∈ out.2, Known own G i.2.pdu) := by
  have hq : Quiet (StaysFiled own G) := staysFiled_quiet
  have hrest : ∀ i ∈ info.filter (fun i => i.1 ≠ e), Known own G i.2.pdu :=
    fun i hi => hinfo i (List.mem_of_mem_filter hi)
  refine Comp.Gives.get fun db _ => ?_
  split
  · exact Comp.Gives.of_read (fun _ => rfl) fun _ _ _ h => by cases h
  · refine (gives_of_quiet (tick_quiet hq.fetching)).bind fun n _ => Comp.Gives.get fun db _ => ?_
    split
    · exact Comp.Gives.pure hinfo
    · split
      · exact (gives_of_quiet (backOff_quiet fed hq.fetching e)).bind fun _ _ => Comp.Gives.pure hinfo
      · cases hl : info.lookup e with
        | none => exact Comp.Gives.pure hinfo
        | some j =>
          have hj : Known own G j.pdu := by
            obtain ⟨l₁, l₂, hsplit, _⟩ := List.lookup_eq_some_iff.mp hl
            exact hinfo (e, j) (by simp [hsplit])
          show Comp.Gives _ (if j.pdu.originServerTs < first.originServerTs then _ else _) _
          split
          · exact Comp.Gives.pure hrest
          · refine (gives_of_quiet ?_).bind fun errors _ => Comp.Gives.pure hrest
            refine hq.bind (attempt_keeps hq.fetching (upgrade_filed env fed hv hans hj fuel)) fun o => ?_
            cases o with
            | some id => exact hq.pure _
            | none => exact hq.bind (backOff_quiet fed hq.fetching e) fun _ => hq.pure _

theorem handlePrevEvents_gives (fuel : Nat) (first : PduEvent) (es : List EventId) (errors : Nat)
    (hinfo : ∀ i ∈ info, Known own G i.2.pdu) :
    Comp.Gives (Filed own G)
      (handlePrevEvents env fed fuel origin createEvent r first es errors info)
      (fun _ => True) := by
  induction es generalizing errors info with
  | nil => exact Comp.Gives.pure trivial
  | cons e es ih =>
    exact (handlePrevEvent_gives env fed hv hans fuel first e errors hinfo).bind
      fun out hout => ih out.1 hout

theorem handleTimelineEvent_gives (hj : Known own G j.pdu) (fuel : Nat) (first : PduEvent) :
    Comp.Gives (Filed own G)
      (handleTimelineEvent env fed fuel origin createEvent r version first j) (fun _ => True) := by
  have hq : Quiet (StaysFiled own G) := staysFiled_quiet
  refine Comp.Gives.bind (P := fun out : List EventId × List (EventId × PduJson) =>
      ∀ i ∈ out.2, Known own G i.2.pdu) ?_ fun out hout =>
    (handlePrevEvents_gives env fed hv hans fuel first out.1 0 hout).bind fun _ _ =>
      gives_of_quiet (upgrade_filed env fed hv hans hj fuel)
  refine (gives_of_quiet (hq.read fun _ => rfl)).bind fun firstPdu _ =>
    (fetchPrevEvents_gives env fed hv hans fuel fuel firstPdu _
      fun i hi => absurd hi List.not_mem_nil).bind fun p hp => ?_
  split
  · exact Comp.Gives.pure hp
  · exact Comp.Gives.of_read (fun _ => rfl) fun _ _ _ h => by cases h

end

end

/-! ## the calls -/

/-- the event has the reference hash of what was received, by a version that its room had -/
def Addressed (V : RoomId → RoomVersionId → Prop) (e : EventId) (j : PduJson) : Prop :=
  ∃ version value, V j.pdu.roomId version ∧ fed.referenceHash value version = some e ∧
    OutlierOf fed version e value j

theorem genEventId_ok {p : EventId × JsonObject} (h : fed.genEventIdCanonicalJson raw version = .ok p) :
    raw = some p.2 ∧ fed.referenceHash p.2 version = some p.1 := by
  unfold Fed.genEventIdCanonicalJson at h
  cases raw with
  | none => cases h
  | some value =>
    cases hh : fed.referenceHash value version with
    | none =>
      simp only [hh] at h
      cases h
    | some e =>
      simp only [hh] at h
      cases h
      exact ⟨rfl, hh⟩

/-- a server answers a request for an event with this event -/
def Honest (origin : ServerName) (version : RoomVersionId) : Prop :=
  ∀ n e value id, fed.getEvent n origin e = some (some value) →
    fed.referenceHash value version = some id → id = e

section
variable {own : PduEvent → Prop} {V : RoomId → RoomVersionId → Prop}
variable {fuel : Nat}

theorem roomCreateEvent_ok {c : PduEvent} (h : db.roomCreateEvent env r = .ok (c, version)) :
    db.getRoomVersion env r = .ok version ∧
      ∀ v, createVersion env fed c = .ok v → v = version := by
  unfold roomCreateEvent at h
  unfold getRoomVersion
  cases hget : db.roomStateGet env r .roomCreate "" with
  | error e =>
    rw [hget] at h
    cases h
  | ok o =>
    rw [hget] at h
    cases o with
    | none => cases h
    | some createEvent =>
      rw [except_ok_bind] at h
      dsimp only at h
      cases hc : env.createContent createEvent.content with
      | none =>
        rw [hc] at h
        cases h
      | some content =>
        rw [hc] at h
        cases h
        refine ⟨?_, fun v hv => ?_⟩
        · rw [except_ok_bind]
          dsimp only
          rw [hc]
          rfl
        · unfold createVersion at hv
          simp only [hc] at hv
          by_cases hs : fed.supported content.roomVersion = true
          · rw [if_pos hs] at hv
            exact (Except.ok.inj hv).symm
          · rw [if_neg hs] at hv
            cases hv

theorem addressed_receives (hv : ∀ v, createVersion env fed createEvent = .ok v → v = version)
    (hV : V r version) (hh : fed.referenceHash value version = some e) :
    Receives env fed (Addressed fed V) createEvent r e value := by
  intro j v hok hj hr
  obtain rfl := hv v hok
  refine ⟨?_, v, value, hr ▸ hV, hh, hj⟩
  obtain ⟨_, _, hform⟩ := hj.form
  have hpdu := hj.pdu
  rw [hform] at hpdu
  exact fed.pduOfJson_eventId _ e _ hpdu

theorem Honest.receives {origin : ServerName} (h : Honest fed origin version)
    (hv : ∀ v, createVersion env fed createEvent = .ok v → v = version) (hV : V r version) (e : EventId)
    (value : JsonObject) (ha : Answered fed origin version e value) :
    Receives env fed (Addressed fed V) createEvent r e value := by
  obtain ⟨n, id, hget, hhash⟩ := ha
  obtain rfl := h n e value id hget hhash
  exact addressed_receives env fed hv hV hhash

/-- an event whose id is the reference hash of its object is handled -/
theorem handleIncomingPdu_filed (hdb : Filed own (Addressed fed V) db) {origin : ServerName}
    (h : ∀ version, db.getRoomVersion env r = .ok version → V r version ∧
      fed.referenceHash value version = some e ∧ Honest fed origin version) (isTimelineEvent : Bool) :
    Filed own (Addressed fed V)
      (handleIncomingPdu env fed fuel origin e r value isTimelineEvent db).2 := by
  have hnew : Filed own (Addressed fed V)
      (handleNewPdu env fed fuel origin e r value isTimelineEvent db).2 := by
    unfold handleNewPdu
    cases hc : db.roomCreateEvent env r with
    | error err =>
      rw [Comp.reads_bind, hc]
      exact hdb
    | ok p =>
      obtain ⟨createEvent, version⟩ := p
      rw [Comp.reads_bind, hc]
      obtain ⟨hver, hv⟩ := roomCreateEvent_ok env fed hc
      obtain ⟨hV, hhash, hhonest⟩ := h version hver
      have hans := fun e value => hhonest.receives env fed hv hV e value
      have hrest : Comp.Gives (Filed own (Addressed fed V)) (do
          let first ← Comp.reads (fun db => db.firstPduInRoom r)
          let j ← handleOutlierPdu env fed fuel origin createEvent e r value
          Comp.ofExcept (checkRoomId r j.pdu)
          if !isTimelineEvent || j.pdu.originServerTs < first.originServerTs then pure none
          else handleTimelineEvent env fed fuel origin createEvent r version first j :
            RoomComp (Option Bytes)) (fun _ => True) := by
        refine (gives_of_quiet (staysFiled_quiet.read fun _ => rfl)).bind fun first _ =>
          (handleOutlierPdu_gives env fed hv hans (addressed_receives env fed hv hV hhash) fuel).bind
            fun j hj => (gives_of_quiet (staysFiled_quiet.read fun _ => rfl)).bind fun _ _ => ?_
        split
        · exact Comp.Gives.pure trivial
        · exact handleTimelineEvent_gives env fed hv hans hj fuel first
      exact hrest.keeps db hdb
  unfold handleIncomingPdu
  cases hroom : db.checkRoom env fed origin r with
  | error err =>
    rw [Comp.reads_bind, hroom]
    exact hdb
  | ok u =>
    rw [Comp.reads_bind, hroom, Comp.bind_ok (Comp.get_run db)]
    cases db.timeline.getPduId e with
    | some id => exact hdb
    | none => exact hnew

theorem parseIncomingPdu_ok (h : db.parseIncomingPdu env fed raw = .ok (e, value, r)) :
    raw = some value ∧ roomOf fed value = .ok r ∧ ∃ version, db.getRoomVersion env r = .ok version ∧
      fed.referenceHash value version = some e := by
  unfold parseIncomingPdu at h
  cases raw with
  | none => cases h
  | some value' =>
    obtain ⟨r', hr, h⟩ := except_bind_eq_ok.mp h
    obtain ⟨version, hver, h⟩ := except_bind_eq_ok.mp h
    obtain ⟨p, hgen, h⟩ := except_bind_eq_ok.mp h
    cases h
    obtain ⟨hraw, hhash⟩ := genEventId_ok fed hgen
    cases hraw
    exact ⟨rfl, hr, version, hver, hhash⟩

/-- the ways on which events come in -/
inductive Call where
  | transaction (origin : ServerName) (raw : RawPdu)
  | backfill (origin : ServerName) (raw : RawPdu)
  | membership (origin : ServerName) (r : RoomId) (raw : RawPdu)
  | signedJoin (remoteServer : ServerName) (r : RoomId) (roomVersion : RoomVersionId) (e : EventId)
      (raw : RawPdu)

namespace Call

def run (fuel : Nat) : Call → RoomComp Unit
  | transaction origin raw => receivePdu env fed fuel origin raw
  | backfill origin raw => backfillPdu env fed fuel origin raw
  | membership origin r raw => receiveMembership env fed fuel origin r raw
  | signedJoin origin r roomVersion e raw => receiveSignedJoin env fed fuel origin r roomVersion e raw

def origin : Call → ServerName
  | transaction origin _ => origin
  | backfill origin _ => origin
  | membership origin _ _ => origin
  | signedJoin remoteServer _ _ _ _ => remoteServer

/-- the room that the call is about -/
def room : Call → Option RoomId
  | transaction _ raw => raw.bind (fun value => (roomOf fed value).toOption)
  | backfill _ raw => raw.bind (fun value => (roomOf fed value).toOption)
  | membership _ r _ => some r
  | signedJoin _ r _ _ _ => some r

/-- the version that another server has named for the room -/
def namedVersion : Call → Option RoomVersionId
  | signedJoin _ _ roomVersion _ _ => some roomVersion
  | _ => none

/-- the servers answer with the events that they are asked for, and name the room's version -/
structure Agrees (c : Call) (db : Db) : Prop where
  honest : ∀ r version, c.room fed = some r → db.getRoomVersion env r = .ok version →
    Honest fed c.origin version
  version : ∀ r version v, c.room fed = some r → db.getRoomVersion env r = .ok version →
    c.namedVersion = some v → v = version

section
variable {own : PduEvent → Prop} {V : RoomId → RoomVersionId → Prop} {db : Db}
variable {c : Call}

theorem Agrees.handle (h : c.Agrees env fed db) (hdb : Filed own (Addressed fed V) db)
    (hV : ∀ r version, db.getRoomVersion env r = .ok version → V r version) (hr : c.room fed = some r)
    (hver : db.getRoomVersion env r = .ok version) (hhash : fed.referenceHash value version = some e)
    (isTimelineEvent : Bool) :
    Filed own (Addressed fed V)
      (handleIncomingPdu env fed fuel c.origin e r value isTimelineEvent db).2 := by
  refine handleIncomingPdu_filed env fed hdb (fun v hv => ?_) isTimelineEvent
  obtain rfl := Except.ok.inj (hver.symm.trans hv)
  exact ⟨hV r version hver, hhash, h.honest r version hr hver⟩

/-- an event that is handled as the sender's, and then something that files nothing new -/
theorem after_filed {α β : Type} {x : RoomComp α} {f : α → RoomComp β}
    (hx : Filed own (Addressed fed V) (x db).2)
    (hf : ∀ a, Comp.Keeps (StaysFiled own (Addressed fed V)) (f a)) :
    Filed own (Addressed fed V) ((x >>= f) db).2 := by
  cases h : x db with
  | mk o db' =>
    rw [h] at hx
    cases o with
    | error e =>
      rw [Comp.bind_error h]
      exact hx
    | ok a =>
      rw [Comp.bind_ok h]
      exact hf a db' hx

theorem receivePdu_filed (hdb : Filed own (Addressed fed V) db)
    (hV : ∀ r version, db.getRoomVersion env r = .ok version → V r version) {origin : ServerName}
    (h : (transaction origin raw).Agrees env fed db) :
    Filed own (Addressed fed V) (receivePdu env fed fuel origin raw db).2 := by
  unfold receivePdu
  cases hp : db.parseIncomingPdu env fed raw with
  | error err =>
    rw [Comp.reads_bind, hp]
    exact hdb
  | ok p =>
    obtain ⟨e, value, r⟩ := p
    rw [Comp.reads_bind, hp]
    obtain ⟨rfl, hroom, v, hver, hhash⟩ := parseIncomingPdu_ok env fed hp
    have hr : (transaction origin (some value)).room fed = some r := congrArg Except.toOption hroom
    exact after_filed fed (h.handle env fed hdb hV hr hver hhash true) fun _ => staysFiled_quiet.pure _

theorem backfillKnown_filed (hj : Known own (Addressed fed V) j.pdu)
    (he : ∃ p, p.eventId = e ∧ Known own (Addressed fed V) p) :
    Comp.Keeps (StaysFiled own (Addressed fed V)) (backfillKnown env e j) := by
  have hb : Blind (StaysFiled own (Addressed fed V)) := staysFiled_blind
  refine hb.get fun db => ?_
  cases db.roomidShortroomid j.pdu.roomId with
  | none => exact hb.read fun _ => rfl
  | some s =>
    refine hb.bind (hb.bind (nextCount_keeps hb) fun n => hb.bind
      (Comp.Keeps.modify fun _ h => h.row rfl rfl rfl rfl hj he) fun _ => hb.pure _) fun n => ?_
    unfold backfillIndex
    split
    · exact hb.read fun _ => rfl
    · exact Comp.Keeps.modify fun _ => staysFiled_same rfl
    · exact hb.pure _

theorem backfillPdu_filed (hdb : Filed own (Addressed fed V) db)
    (hV : ∀ r version, db.getRoomVersion env r = .ok version → V r version) {origin : ServerName}
    (h : (backfill origin raw).Agrees env fed db) :
    Filed own (Addressed fed V) (backfillPdu env fed fuel origin raw db).2 := by
  unfold backfillPdu
  cases hp : db.parseIncomingPdu env fed raw with
  | error err =>
    rw [Comp.reads_bind, hp]
    exact hdb
  | ok p =>
    obtain ⟨e, value, r⟩ := p
    rw [Comp.reads_bind, hp]
    obtain ⟨rfl, hroom, v, hver, hhash⟩ := parseIncomingPdu_ok env fed hp
    have hr : (backfill origin (some value)).room fed = some r := congrArg Except.toOption hroom
    show Filed own (Addressed fed V) ((Comp.get >>= _) db).2
    rw [Comp.bind_ok (Comp.get_run db)]
    cases db.timeline.getPduId e with
    | some id => exact hdb
    | none =>
      refine after_filed fed (h.handle env fed hdb hV hr hver hhash false) fun _ => ?_
      refine Comp.Gives.keeps (P := fun _ => True) (Comp.Gives.bind
        (P := fun o => ∀ j, o = some j → Known own (Addressed fed V) j.pdu ∧
          ∃ p, p.eventId = e ∧ Known own (Addressed fed V) p)
        (Comp.Gives.of_read (fun _ => rfl) fun db o hd ho j hj => ?_) fun o ho => ?_)
      · rw [hj] at ho
        exact ⟨hd.getPduJson ho, hd.idKnown ho⟩
      · cases o with
        | some j =>
          obtain ⟨hj, he⟩ := ho j rfl
          exact gives_of_quiet (backfillKnown_filed env fed hj he)
        | none => exact gives_of_quiet (staysFiled_quiet.read fun _ => rfl)

theorem receiveMembership_filed (hdb : Filed own (Addressed fed V) db)
    (hV : ∀ r version, db.getRoomVersion env r = .ok version → V r version) {origin : ServerName}
    (h : (membership origin r raw).Agrees env fed db) :
    Filed own (Addressed fed V) (receiveMembership env fed fuel origin r raw db).2 := by
  unfold receiveMembership
  cases hver : db.getRoomVersion env r with
  | error err =>
    rw [Comp.reads_bind, hver]
    exact hdb
  | ok version =>
    rw [Comp.reads_bind, hver]
    show Filed own (Addressed fed V) ((Comp.ofExcept _ >>= _) db).2
    rw [Comp.ofExcept_bind]
    cases hgen : fed.genEventIdCanonicalJson raw version with
    | error err => exact hdb
    | ok p =>
      obtain ⟨hraw, hhash⟩ := genEventId_ok fed hgen
      refine after_filed fed (h.handle env fed hdb hV rfl hver hhash true) fun o => ?_
      cases o with
      | some id => exact staysFiled_quiet.pure _
      | none => exact staysFiled_quiet.read fun _ => rfl

theorem receiveSignedJoin_filed (hdb : Filed own (Addressed fed V) db)
    (hV : ∀ r version, db.getRoomVersion env r = .ok version → V r version) {origin : ServerName}
    {roomVersion : RoomVersionId} (h : (signedJoin origin r roomVersion e raw).Agrees env fed db) :
    Filed own (Addressed fed V)
      (receiveSignedJoin env fed fuel origin r roomVersion e raw db).2 := by
  unfold receiveSignedJoin
  rw [Comp.ofExcept_bind]
  cases hgen : fed.genEventIdCanonicalJson raw roomVersion with
  | error err => exact hdb
  | ok p =>
    obtain ⟨_, hhash⟩ := genEventId_ok fed hgen
    show Filed own (Addressed fed V) ((if p.1 ≠ e then _ else _ : RoomComp Unit) db).2
    split
    · exact hdb
    · refine after_filed fed (handleIncomingPdu_filed env fed hdb (fun version hver => ?_) true)
        fun _ => staysFiled_quiet.pure _
      obtain rfl := h.version r version roomVersion rfl hver rfl
      exact ⟨hV r _ hver, hhash, h.honest r _ rfl hver⟩

/-- one call, on answers that have the ids they were asked for -/
theorem filed (h : c.Agrees env fed db) (hdb : Filed own (Addressed fed V) db)
    (hV : ∀ r version, db.getRoomVersion env r = .ok version → V r version) (fuel : Nat) :
    Filed own (Addressed fed V) (c.run env fed fuel db).2 := by
  cases c with
  | transaction origin raw => exact receivePdu_filed env fed hdb hV h
  | backfill origin raw => exact backfillPdu_filed env fed hdb hV h
  | membership origin r raw => exact receiveMembership_filed env fed hdb hV h
  | signedJoin origin r version e raw => exact receiveSignedJoin_filed env fed hdb hV h

end

end Call

end

/-! ## other parts of the program -/

section
variable {own own' : PduEvent → Prop} {G G' : EventId → PduJson → Prop}

theorem Known.mono (ho : ∀ p, own p → own' p) (hG : ∀ e j, G e j → G' e j) (h : Known own G p) :
    Known own' G' p := by
  obtain ⟨q, hr, hq | ⟨j, hj, hp⟩⟩ := h
  · exact ⟨q, hr, Or.inl (ho q hq)⟩
  · exact ⟨q, hr, Or.inr ⟨j, hG _ j hj, hp⟩⟩

theorem Filed.mono (h : Filed own G db) (ho : ∀ p, own p → own' p) (hG : ∀ e j, G e j → G' e j) :
    Filed own' G' db := by
  refine ⟨fun e j hj => ?_, fun id j hj => (h.rows id j hj).mono ho hG, fun e id hid => ?_,
    fun e p hp => (h.cache e p hp).mono ho hG⟩
  · obtain ⟨he, hk | hk⟩ := h.outliers e j hj
    · exact ⟨he, Or.inl (ho _ hk)⟩
    · exact ⟨he, Or.inr (hG e j hk)⟩
  · obtain ⟨p, he, hk⟩ := h.ids e id hid
    exact ⟨p, he, hk.mono ho hG⟩

/-- a local send files its event -/
theorem buildAndAppendPdu_filed (hj : own j.pdu) :
    Comp.Keeps (StaysFiled own G) (buildAndAppendPdu env j) := by
  have hb : Blind (StaysFiled own G) := staysFiled_blind
  have hk : Known own G j.pdu := ⟨j.pdu, Revises.refl _, Or.inl hj⟩
  refine hb.bind (fun db => staysFiled_same ?_) fun s => hb.bind (appendPdu_filed env hk _) fun id =>
    hb.bind (fun db => staysFiled_same rfl) fun _ =>
      hb.bind (hb.bind (hb.read fun _ => rfl) fun servers =>
        Comp.Keeps.modify fun _ => staysFiled_same rfl) fun _ => hb.pure _
  rw [(prepare_onlyState env j.pdu db).2]

/-- the event is in the store -/
def Held (db : Db) (q : PduEvent) : Prop :=
  (∃ e j, db.timeline.eventidOutlierpdu e = some j ∧ j.pdu = q) ∨
    (∃ id j, db.timeline.pduidPdu.get id = some j ∧ j.pdu = q) ∨
    ∃ e, db.timeline.pduCache e = some q

/-- a step of another part, which files nothing but what there was and events of its own -/
structure FilesOwn (own : PduEvent → Prop) (db db' : Db) : Prop where
  outliers : ∀ e j, db'.timeline.eventidOutlierpdu e = some j →
    db.timeline.eventidOutlierpdu e = some j ∨ j.pdu.eventId = e ∧ own j.pdu
  rows : ∀ id j, db'.timeline.pduidPdu.get id = some j →
    ∃ q, (Held db q ∨ own q) ∧ Revises q j.pdu
  ids : ∀ e id, db'.timeline.eventidPduid e = some id →
    (∃ id', db.timeline.eventidPduid e = some id') ∨ ∃ q, (Held db q ∨ own q) ∧ q.eventId = e
  cache : ∀ e p, db'.timeline.pduCache e = some p → ∃ q, (Held db q ∨ own q) ∧ Revises q p

theorem FilesOwn.of_same (ht : db'.timeline = db.timeline) : FilesOwn own db db' := by
  refine ⟨fun e j hj => ?_, fun id j hj => ?_, fun e id hid => ?_, fun e p hp => ?_⟩
  · rw [ht] at hj
    exact Or.inl hj
  · rw [ht] at hj
    exact ⟨j.pdu, Or.inl (Or.inr (Or.inl ⟨id, j, hj, rfl⟩)), Revises.refl _⟩
  · rw [ht] at hid
    exact Or.inl ⟨id, hid⟩
  · rw [ht] at hp
    exact ⟨p, Or.inl (Or.inr (Or.inr ⟨e, hp⟩)), Revises.refl _⟩

theorem Filed.held (h : Filed own G db) (hq : Held db q) :
    Known own G q := by
  rcases hq with ⟨e, j, hj, rfl⟩ | ⟨id, j, hj, rfl⟩ | ⟨e, hc⟩
  · exact h.outlierKnown hj
  · exact h.rows id j hj
  · exact h.cache e q hc

theorem FilesOwn.filed (h : FilesOwn own' db db') (hdb : Filed own G db) :
    Filed (fun p => own p ∨ own' p) G db' := by
  have hm : Filed (fun p => own p ∨ own' p) G db := hdb.mono (fun _ => Or.inl) (fun _ _ => id)
  have hknown : ∀ q, Held db q ∨ own' q → Known (fun p => own p ∨ own' p) G q := by
    intro q hq
    rcases hq with hq | hq
    · exact hm.held hq
    · exact ⟨q, Revises.refl q, Or.inl (Or.inr hq)⟩
  refine ⟨fun e j hj => ?_, fun id j hj => ?_, fun e id hid => ?_, fun e p hp => ?_⟩
  · rcases h.outliers e j hj with hj | ⟨he, ho⟩
    · exact hm.outliers e j hj
    · exact ⟨he, Or.inl (Or.inr ho)⟩
  · obtain ⟨q, hq, hr⟩ := h.rows id j hj
    exact (hknown q hq).revises hr
  · rcases h.ids e id hid with ⟨id', hid'⟩ | ⟨q, hq, he⟩
    · exact hm.ids e id' hid'
    · exact ⟨q, he, hknown q hq⟩
  · obtain ⟨q, hq, hr⟩ := h.cache e p hp
    exact (hknown q hq).revises hr

end

/-! ## runs -/

/-- the runs whose calls meet `ok`, with the versions that the rooms had at the calls, and the
events of the other parts -/
inductive Run (env : Env) (fed : Fed) (ok : Fed → Call → Db → Prop) :
    (RoomId → RoomVersionId → Prop) → (PduEvent → Prop) → Db → Prop
  | start : Run env fed ok (fun _ _ => False) (fun _ => False) empty
  /-- a call, while the other servers behave like `w` -/
  | call {V own db} (w : World) (fuel : Nat) (c : Call) : Run env fed ok V own db →
      ok { fed with toWorld := w } c db →
      Run env fed ok (fun r v => V r v ∨ db.getRoomVersion env r = .ok v) own
        (c.run env { fed with toWorld := w } fuel db).2
  | send {V own db} (j : PduJson) : Run env fed ok V own db →
      Run env fed ok V (fun p => own p ∨ p = j.pdu) (buildAndAppendPdu env j db).2
  | other {V own own' db db'} : Run env fed ok V own db → FilesOwn own' db db' →
      Run env fed ok V (fun p => own p ∨ own' p) db'

theorem Addressed.mono {V' : RoomId → RoomVersionId → Prop} (h : ∀ r v, V r v → V' r v)
    (ha : Addressed fed V e j) : Addressed fed V' e j := by
  obtain ⟨version, value, hV, hhash, hj⟩ := ha
  exact ⟨version, value, h _ _ hV, hhash, hj⟩

/-- what is addressed does not depend on what the servers answer -/
theorem addressed_world (w : World) :
    Addressed { fed with toWorld := w } V e j ↔ Addressed fed V e j := by
  constructor
  · intro h
    obtain ⟨version, value, hV, hhash, hj⟩ := h
    exact ⟨version, value, hV, hhash, hj.form, hj.pdu⟩
  · intro h
    obtain ⟨version, value, hV, hhash, hj⟩ := h
    exact ⟨version, value, hV, hhash, hj.form, hj.pdu⟩

/-- in every run in which the servers answer with the events they were asked for, every event that
was received is filed under its reference hash -/
theorem run_filed {V : RoomId → RoomVersionId → Prop} {own : PduEvent → Prop} {db : Db}
    (h : Run env fed (fun fed c db => c.Agrees env fed db) V own db) :
    Filed own (Addressed fed V) db := by
  induction h with
  | start =>
    refine ⟨fun e j hj => ?_, fun id j hj => ?_, fun e id hid => ?_, fun e p hp => ?_⟩
    · cases hj
    · cases hj
    · cases hid
    · cases hp
  | @call V own db w fuel c _ hok ih =>
    have hdb : Filed own (Addressed { fed with toWorld := w }
        fun r v => V r v ∨ db.getRoomVersion env r = .ok v) db :=
      ih.mono (fun _ ho => ho) fun _ _ ha =>
        (addressed_world fed w).mpr (ha.mono fed fun _ _ => Or.inl)
    have hafter := Call.filed env { fed with toWorld := w } hok hdb (fun _ _ hv => Or.inr hv) fuel
    exact hafter.mono (fun _ ho => ho) fun _ _ => (addressed_world fed w).mp
  | send j _ ih =>
    exact buildAndAppendPdu_filed env (Or.inr rfl) _
      (ih.mono (fun _ => Or.inl) (fun _ _ => id))
  | other _ hf ih => exact hf.filed ih

/-! ## two answers -/

namespace Sends

def hashOf (o : JsonObject) : Option EventId := (o.get "hash").bind Plain.eventIdOfJson

/-- topics of bob -/
def topicOfJson (o : JsonObject) : Option PduEvent :=
  match o.get "event_id" with
  | some (.str s) => (Bytewise.ofStr s).map fun e =>
      ⟨⟨e.toText⟩, room, bob, 1, .other "m.room.topic", [], some "", [], 0,
        authEventIds .plain o, none, none⟩
  | _ => none

theorem topicOfJson_eventId (o : JsonObject) (e : EventId) (pdu : PduEvent)
    (h : topicOfJson (o.insert "event_id" (.str (Bytewise.toStr ⟨e.toText⟩))) = some pdu) :
    pdu.eventId = e := by
  have hget : (o.insert "event_id" (.str (Bytewise.toStr ⟨e.toText⟩))).get "event_id"
      = some (.str (Bytewise.toStr ⟨e.toText⟩)) := rfl
  unfold topicOfJson at h
  simp only [hget, Bytewise.ofStr_toStr] at h
  cases h
  rfl

/-- objects carry their reference hash -/
def hashing (w : World) : Fed := { Fed.plain with
  toWorld := w
  referenceHash o _ := hashOf o
  eventIdStr e := Bytewise.toStr ⟨e.toText⟩
  pduOfJson := topicOfJson
  pduOfJson_eventId := topicOfJson_eventId
  authCheck _ _ _ := some true }

def topic (hash : String) (authEvents : List Json) : JsonObject :=
  [("hash", .str hash), ("room_id", .str "!r:x"), ("origin_server_ts", .num 1),
    ("auth_events", .arr authEvents)]

/-- the answer to the request for the auth event -/
def answering (hash : String) : World := { Fed.plain.toWorld with
  getEvent _ _ e := if e = ⟨.ascii "$a"⟩ then some (some (topic hash [])) else none }

/-- an event whose auth event is not known -/
def incoming : Call := .transaction ⟨.ascii "y"⟩ (some (topic "$m" [.str "$a"]))

abbrev after (hash : String) : Db :=
  (incoming.run .plain (hashing (answering hash)) 100 store).2

theorem after_files (hash : String) (h : hash = "$a" ∨ hash = "$b") :
    ((after hash).timeline.eventidOutlierpdu ⟨.ascii "$a"⟩).bind (fun j => hashOf j.json)
      = some ⟨.ascii hash⟩ := by
  rcases h with rfl | rfl
  · decide +kernel
  · decide +kernel

theorem hashOf_outlier {w : World} (h : OutlierOf (hashing w) version e value j) :
    hashOf j.json = hashOf value := by
  obtain ⟨value', hvalue, hjson⟩ := h.form
  rcases hvalue with rfl | hredact
  · unfold hashOf
    rw [hjson, JsonObject.get_insert_of_ne _ _ (by decide), JsonObject.get_remove_of_ne _ (by decide)]
  · cases hredact

theorem honest_answer (origin : ServerName) (version : RoomVersionId) :
    Honest (hashing (answering "$a")) origin version := by
  intro n e value id hget hhash
  change (if e = ⟨.ascii "$a"⟩ then some (some (topic "$a" [])) else none) = _ at hget
  by_cases he : e = ⟨.ascii "$a"⟩
  · rw [if_pos he] at hget
    cases hget
    rw [he]
    exact (Option.some.inj hhash).symm
  · rw [if_neg he] at hget
    cases hget

abbrev mine (p : PduEvent) : Prop := ((False ∨ False) ∨ p = create.pdu) ∨ p = join.pdu

abbrev versions (r : RoomId) (v : RoomVersionId) : Prop :=
  False ∨ store.getRoomVersion .plain r = .ok v

/-- the room is made, and then the event comes in -/
theorem run_after (hash : String) {ok : Fed → Call → Db → Prop}
    (h : ok (hashing (answering hash)) incoming store) :
    Run .plain (hashing (answering hash)) ok versions mine (after hash) :=
  .call (answering hash) 100 incoming
    (.send join (.send create (.other .start
      (FilesOwn.of_same rfl : FilesOwn (fun _ => False) empty (getOrCreateShortroomid room empty).2)))) h

end Sends

/-- the room's own events, and two that were received -/
theorem run_filed_honest : Filed Sends.mine
    (Addressed (Sends.hashing (Sends.answering "$a")) Sends.versions) (Sends.after "$a") := by
  refine run_filed .plain _ (Sends.run_after "$a" ⟨fun r version _ _ => Sends.honest_answer _ _, ?_⟩)
  intro r version v _ _ hv
  cases hv

/-- the server is asked for one event and answers with another, and this is filed as the one that
was asked for -/
theorem answer_under_other_id :
    ¬ ∀ (env : Env) (fed : Fed) (V : RoomId → RoomVersionId → Prop) (own : PduEvent → Prop) (db : Db),
      Run env fed (fun _ _ _ => True) V own db → Filed own (Addressed fed V) db := by
  intro hall
  have hrun : Run .plain _ (fun _ _ _ => True) Sends.versions Sends.mine (Sends.after "$b") :=
    Sends.run_after "$b" trivial
  have h := hall _ _ _ _ _ hrun
  have hfiles := Sends.after_files "$b" (Or.inr rfl)
  cases hj : (Sends.after "$b").timeline.eventidOutlierpdu ⟨.ascii "$a"⟩ with
  | none =>
    rw [hj] at hfiles
    cases hfiles
  | some j =>
    rw [hj] at hfiles
    obtain ⟨he, (hf | hc) | ha⟩ := h.outliers _ j hj
    · rcases hf with hf | hc
      · rcases hf with hf | hf <;> exact hf
      · rw [hc] at he
        exact absurd he (by decide)
    · rw [hc] at he
      exact absurd he (by decide)
    · obtain ⟨version, value, _, hhash, hof⟩ := ha
      change Sends.hashOf value = _ at hhash
      rw [← Sends.hashOf_outlier hof] at hhash
      exact absurd (hfiles.symm.trans hhash) (by decide)

end Db
end Grapevine
