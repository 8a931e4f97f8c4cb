import Grapevine.Lib.Frontier
import Grapevine.Events.Join
import Grapevine.Events.SoftFail

/-!
# Forward extremities

The extremities of a room are kept beside its timeline: an append replaces them, takes the prev
events of its event out of them, or both.  They ought to be the frontier of the timeline, the events
that no other event of the room refers to.

* `history`            the timeline of a room, as a set of events with their prev events;
* `Calm`, `Rewords`    what leaves timeline and extremities alone;
* `Tidy`               what a call has to meet so that the extremities still are the frontier;
* `call_effect`        what a call does to the two, `tidy_iff` that it has to be tidy.

Main results: `extremities_exact`.  In a run of tidy calls the extremities are the frontier, and there
is one if there is an event; `extremities_late` is a run in which a parent comes after its child.
`extremities_kept_iff`: no other call keeps them the frontier.
-/

namespace Grapevine
open Kv History

/-- the event in the graph of its room -/
def PduJson.node (j : PduJson) : RoomId × EventId × List EventId :=
  (j.pdu.roomId, j.pdu.eventId, j.pdu.prevEvents)

namespace Db

variable (env : Env) (fed : Fed)
variable {r : RoomId} {db db' db₁ : Db} {o : Except Error (Option Bytes)} {j : PduJson}
  {compressed : Finset CompressedStateEvent} {leaves : List EventId} {pdu : PduEvent}
  {softFail : Bool} {e : EventId} {fuel : Nat}

theorem Revises.node {p : PduEvent} (h : Revises p j.pdu) :
    j.node = (p.roomId, p.eventId, p.prevEvents) := by
  unfold Revises at h
  unfold PduJson.node
  rw [h]

/-! ## the timeline of a room -/

/-- the timeline events of the room, each with its prev events -/
def history (db : Db) (r : RoomId) : Set (EventId × List EventId) :=
  {x | ∃ id, (db.timeline.getPduJsonFromId id).map PduJson.node = some (r, x)}

/-- the extremities are the timeline events that no other one refers to, and if there is an event
there is an extremity -/
structure Extremities (db : Db) (r : RoomId) : Prop where
  frontier : (db.getForwardExtremities r : Set EventId) = frontier (db.history r)
  nonempty : (db.history r).Nonempty → (db.getForwardExtremities r).Nonempty

/-- the room has the same timeline and the same extremities -/
structure SameView (r : RoomId) (db db' : Db) : Prop where
  history : db'.history r = db.history r
  leaves : db'.getForwardExtremities r = db.getForwardExtremities r

theorem SameView.trans {a b c : Db} (h : SameView r a b) (h' : SameView r b c) :
    SameView r a c := ⟨h'.history.trans h.history, h'.leaves.trans h.leaves⟩

theorem SameView.extremities (h : SameView r db db') (he : Extremities db r) : Extremities db' r := by
  constructor
  · rw [h.leaves, h.history]
    exact he.frontier
  · rw [h.leaves, h.history]
    exact he.nonempty

/-- the event is in the timeline now, and `leaves` are the extremities -/
structure Entered (r : RoomId) (pdu : PduEvent) (leaves : Finset EventId) (db db' : Db) : Prop where
  history : db'.history r = insert (pdu.eventId, pdu.prevEvents) (db.history r)
  leaves : db'.getForwardExtremities r = leaves

/-! ### what leaves them alone -/

/-- neither the rows nor the graph change -/
structure Calm (db db' : Db) : Prop where
  grows : Grows db db'
  graph : db'.graph = db.graph
  rows : db'.timeline.pduidPdu = db.timeline.pduidPdu

theorem Calm.refl (db : Db) : Calm db db := ⟨fun h => h, rfl, rfl⟩

theorem Calm.trans (a b c : Db) (h : Calm a b) (h' : Calm b c) : Calm a c :=
  ⟨fun hs => h'.grows (h.grows hs), h'.graph.trans h.graph, h'.rows.trans h.rows⟩

/-- only other tables are written -/
theorem Calm.of_same (hc : db'.state.counter = db.state.counter)
    (hw : db'.roomidShortroomid = db.roomidShortroomid) (hg : db'.graph = db.graph)
    (hr : db'.timeline.pduidPdu = db.timeline.pduidPdu) : Calm db db' :=
  ⟨Grows.of_same hc hw hr, hg, hr⟩

theorem calm_quiet : Quiet Calm where
  refl := Calm.refl
  trans := Calm.trans
  state _ _ hs := ⟨fun h => h.congr hs.counter (hs.counter_lt h.counter_lt) rfl rfl, rfl, rfl⟩
  chains _ _ _ := Calm.of_same rfl rfl rfl rfl
  ratelimiter _ _ := Calm.of_same rfl rfl rfl rfl
  ticks _ _ := Calm.of_same rfl rfl rfl rfl

theorem calm_blind : Blind Calm :=
  .of_aside Calm.trans (fun db hlt => ⟨blind_grows.count db hlt, rfl, rfl⟩)
    fun _ _ _ _ _ _ _ _ _ => .of_same rfl rfl rfl rfl

theorem Calm.sameView (h : Calm db db') (r : RoomId) : SameView r db db' := by
  constructor
  · unfold Db.history TimelineTables.getPduJsonFromId
    rw [h.rows]
  · unfold getForwardExtremities
    rw [h.graph]

/-- rows are rewritten, and each keeps its event -/
structure Rewords (db db' : Db) : Prop where
  grows : Grows db db'
  graph : db'.graph = db.graph
  rows : ∀ id, (db'.timeline.getPduJsonFromId id).map PduJson.node
    = (db.timeline.getPduJsonFromId id).map PduJson.node

theorem Calm.rewords (h : Calm db db') : Rewords db db' := by
  refine ⟨h.grows, h.graph, fun id => ?_⟩
  unfold TimelineTables.getPduJsonFromId
  rw [h.rows]

theorem Rewords.trans (a b c : Db) (h : Rewords a b) (h' : Rewords b c) : Rewords a c :=
  ⟨fun hs => h'.grows (h.grows hs), h'.graph.trans h.graph, fun id => (h'.rows id).trans (h.rows id)⟩

theorem blind_rewords : Blind Rewords :=
  .of_aside Rewords.trans (fun db hlt => (calm_blind.count db hlt).rewords)
    fun _ _ _ _ _ _ _ _ _ => ⟨.of_same rfl rfl rfl, rfl, fun _ => rfl⟩

theorem Rewords.sameView (h : Rewords db db') (r : RoomId) : SameView r db db' := by
  constructor
  · unfold Db.history
    simp only [h.rows]
  · unfold getForwardExtremities
    rw [h.graph]

theorem replacePdu_rewords {id : Bytes} {v json : PduJson} (pdu : PduEvent)
    (hv : db.timeline.pduidPdu.get id = some v) (hr : Revises v.pdu json.pdu) :
    Rewords db (replacePdu id json pdu db).2 := by
  refine ⟨replacePdu_grows id json pdu db, ?_, fun k => ?_⟩
  · rw [replacePdu_run hv]
  · rw [replacePdu_run hv]
    show ((db.timeline.pduidPdu.insert id json).get k).map PduJson.node = _
    rw [Tree.get_insert]
    split
    · next hk =>
      subst hk
      unfold TimelineTables.getPduJsonFromId
      rw [hv]
      show some json.node = some v.node
      rw [hr.node]
      rfl
    · rfl

theorem afterInsert_rewords (pdu : PduEvent) (s : Nat) (id : Bytes) (count : Nat) :
    Comp.Keeps Rewords (afterInsert env pdu s id count) :=
  afterInsert_keeps blind_rewords env (fun _ _ => ⟨Grows.of_same rfl rfl rfl, rfl, fun _ => rfl⟩)
    (fun _ _ => ⟨Grows.of_same rfl rfl rfl, rfl, fun _ => rfl⟩)
    (fun _ _ => ⟨Grows.of_same rfl rfl rfl, rfl, fun _ => rfl⟩)
    (fun _ _ _ _ pdu hv hr => replacePdu_rewords pdu hv hr.1) pdu s id count

/-! ## what the calls do -/

/-- the row of an append, and its leaves -/
theorem withRow_entered (hs : Sound db) {stored : PduJson} {s : Nat} (hr : j.pdu.roomId = r)
    (hw : db.roomidShortroomid r = some s) (hlt : db.state.counter + 4 < 2^64)
    (hstored : Revises j.pdu stored.pdu) (leaves : List EventId) :
    Entered r j.pdu leaves.toFinset db (db.withRow j.pdu stored leaves s) := by
  subst hr
  have hfresh : db.timeline.pduidPdu.get (db.newId s) = none := by
    refine hs.fresh hw ⟨by omega, hlt⟩ ?_
    show db.state.counter < db.state.counter + 4
    omega
  have hself : (db.withRow j.pdu stored leaves s).timeline.getPduJsonFromId (db.newId s) = some stored :=
    Tree.get_insert_self ..
  have hother : ∀ id, id ≠ db.newId s → (db.withRow j.pdu stored leaves s).timeline.getPduJsonFromId id
      = db.timeline.getPduJsonFromId id := fun id hne => Tree.get_insert_of_ne _ _ hne
  constructor
  · ext x
    constructor
    · rintro ⟨id, hid⟩
      by_cases hne : id = db.newId s
      · rw [hne, hself] at hid
        have hx := (Prod.mk.inj (hstored.node.symm.trans (Option.some.inj hid))).2
        exact Or.inl hx.symm
      · rw [hother id hne] at hid
        exact Or.inr ⟨id, hid⟩
    · rintro (rfl | ⟨id, hid⟩)
      · refine ⟨db.newId s, ?_⟩
        rw [hself]
        exact congrArg some hstored.node
      · refine ⟨id, ?_⟩
        rw [hother]
        · exact hid
        · rintro rfl
          unfold TimelineTables.getPduJsonFromId at hid
          rw [hfresh] at hid
          cases hid
  · exact Function.update_self ..

theorem Entered.sameView {leaves : Finset EventId} {a b c : Db} (h : Entered r pdu leaves a b)
    (h' : SameView r b c) : Entered r pdu leaves a c :=
  ⟨h'.history.trans h.history, h'.leaves.trans h.leaves⟩

theorem SameView.entered {leaves : Finset EventId} {a b c : Db} (h : SameView r a b)
    (h' : Entered r pdu leaves b c) : Entered r pdu leaves a c :=
  ⟨h'.history.trans (by rw [h.history]), h'.leaves⟩

/-- the counter has not run out in the call -/
def InBounds {α : Type} (o : Except Error α) : Prop := o ≠ .error StateDb.counterOverflow

theorem appendPdu_view (hs : Sound db) {o : Except Error Bytes} (h : appendPdu env j leaves db = (o, db'))
    (ho : InBounds o) :
    SameView j.pdu.roomId db db' ∨ Entered j.pdu.roomId j.pdu leaves.toFinset db db' := by
  unfold appendPdu at h
  rw [Comp.bind_ok (Comp.get_run db)] at h
  cases hw : db.roomidShortroomid j.pdu.roomId with
  | none =>
    simp only [hw] at h
    cases h
    exact Or.inl ⟨rfl, rfl⟩
  | some s =>
    simp only [hw] at h
    obtain ⟨stored, hstored, hlt, hrun⟩ | ⟨e, db₁, hrun, -, he⟩ := storePdu_run env db j leaves s
    · right
      rw [Comp.bind_ok hrun] at h
      change (afterInsert env j.pdu s (db.newId s) (db.state.counter + 4) >>= fun _ =>
        pure (db.newId s)) (db.withRow j.pdu stored leaves s) = (o, db') at h
      have hafter := (blind_rewords.bind (afterInsert_rewords env j.pdu s (db.newId s)
        (db.state.counter + 4)) fun _ => blind_rewords.pure (db.newId s))
        (db.withRow j.pdu stored leaves s)
      rw [h] at hafter
      exact (withRow_entered hs rfl hw hlt (correctUnsigned_revises env hstored) leaves).sameView
        (hafter.sameView _)
    · rw [Comp.bind_error hrun] at h
      cases h
      rcases he with rfl | rfl
      · exact absurd rfl ho
      · exact Or.inl ⟨rfl, rfl⟩

/-- an append between calm parts -/
theorem append_between {α : Type} (hs : Sound db) (h1 : Calm db db₁) {f : Bytes → RoomComp α}
    (hf : ∀ id, Comp.Keeps Calm (f id)) {o : Except Error α} (h : (appendPdu env j leaves >>= f) db₁ = (o, db')) :
    Sound db' ∧ (InBounds o → SameView j.pdu.roomId db db' ∨
      Entered j.pdu.roomId j.pdu leaves.toFinset db db') := by
  have hs1 : Sound db₁ := h1.grows hs
  have happ := appendPdu_sound env hs1 j leaves
  have hview : ∀ o₂ db₂, appendPdu env j leaves db₁ = (o₂, db₂) → InBounds o₂ →
      SameView j.pdu.roomId db db₂ ∨ Entered j.pdu.roomId j.pdu leaves.toFinset db db₂ := by
    intro o₂ db₂ h2 ho
    rcases appendPdu_view env hs1 h2 ho with hv | hv
    · exact Or.inl ((h1.sameView _).trans hv)
    · exact Or.inr ((h1.sameView _).entered hv)
  cases h2 : appendPdu env j leaves db₁ with
  | mk o₂ db₂ =>
    rw [h2] at happ
    cases o₂ with
    | error e =>
      rw [Comp.bind_error h2] at h
      cases h
      refine ⟨happ, fun ho => hview _ _ h2 fun he => ho ?_⟩
      cases he
      rfl
    | ok id =>
      rw [Comp.bind_ok h2] at h
      have hrest := hf id db₂
      rw [h] at hrest
      refine ⟨hrest.grows happ, fun _ => ?_⟩
      rcases hview _ _ h2 (by nofun) with hv | hv
      · exact Or.inl (hv.trans (hrest.sameView _))
      · exact Or.inr (hv.sameView (hrest.sameView _))

theorem setRoomState_calm (r : RoomId) (shortstatehash : Nat) :
    Comp.Keeps Calm (onState (StateDb.setRoomState r shortstatehash)) := fun _ =>
  Calm.of_same rfl rfl rfl rfl

theorem prepare_calm (pdu : PduEvent) : Comp.Keeps Calm (prepare env pdu) := by
  intro db
  have h := prepare_onlyState env pdu db
  refine ⟨h.sound, ?_, ?_⟩
  · rw [h.2]
  · rw [h.2]

/-- a local send either changes nothing here, or its event is the only extremity -/
theorem buildAndAppendPdu_view (hs : Sound db) {o : Except Error EventId}
    (h : buildAndAppendPdu env j db = (o, db')) :
    Sound db' ∧ (InBounds o → SameView j.pdu.roomId db db' ∨
      Entered j.pdu.roomId j.pdu {j.pdu.eventId} db db') := by
  rcases (prepare_calm env j.pdu).bind_run h with hc | ⟨s, db₁, hc, -, h⟩
  · exact ⟨hc.grows hs, fun _ => Or.inl (hc.sameView _)⟩
  · refine append_between env hs hc (fun id => ?_) h
    refine calm_quiet.bind (setRoomState_calm _ _) fun _ => calm_quiet.bind ?_ fun _ => calm_quiet.pure _
    exact calm_quiet.bind (calm_quiet.read fun _ => rfl) fun _ db => Calm.of_same rfl rfl rfl rfl

/-- neither the graph nor the rows of two stores differ -/
def SameTables (db db' : Db) : Prop :=
  db'.graph = db.graph ∧ db'.timeline.pduidPdu = db.timeline.pduidPdu

theorem getOrCreateShortroomid_calm (r : RoomId) : Comp.Keeps Calm (getOrCreateShortroomid r) := by
  have hrefl : ∀ db, SameTables db db := fun _ => ⟨rfl, rfl⟩
  have htrans : ∀ a b c, SameTables a b → SameTables b c → SameTables a c := fun _ _ _ h h' =>
    ⟨h'.1.trans h.1, h'.2.trans h.2⟩
  have hsame : Comp.Keeps SameTables (getOrCreateShortroomid r) := by
    refine Comp.Keeps.bind htrans (Comp.Keeps.of_read hrefl fun _ => rfl) fun db => ?_
    cases db.roomidShortroomid r with
    | some s => exact Comp.Keeps.pure hrefl s
    | none =>
      have hcount : Comp.Keeps SameTables nextCount := fun db =>
        ⟨(nextCount_keeps calm_blind db).graph, (nextCount_keeps calm_blind db).rows⟩
      exact Comp.Keeps.bind htrans hcount fun _ =>
        Comp.Keeps.bind htrans (Comp.Keeps.modify fun _ => ⟨rfl, rfl⟩) fun _ => Comp.Keeps.pure hrefl _
  exact fun db => ⟨fun hs => getOrCreateShortroomid_sound hs r, (hsame db).1, (hsame db).2⟩

theorem prepareJoin_calm (r : RoomId) (answer : SendJoinAnswer) :
    Comp.Keeps Calm (prepareJoin env fed r answer) :=
  prepareJoin_keeps env fed calm_quiet calm_blind (fun _ _ => Calm.of_same rfl rfl rfl rfl)
    (fun _ _ => Calm.of_same rfl rfl rfl rfl) (fun _ _ _ => Calm.of_same rfl rfl rfl rfl)
    (fun _ _ => Calm.of_same rfl rfl rfl rfl) r answer

/-- so does a join over federation -/
theorem joinOverFederation_view (hs : Sound db) {answer : SendJoinAnswer} {o : Except Error Unit}
    (h : joinOverFederation env fed r answer db = (o, db')) :
    Sound db' ∧ (InBounds o → SameView r db db' ∨
      Entered r answer.joinEvent.pdu {answer.joinEvent.pdu.eventId} db db') := by
  rcases (getOrCreateShortroomid_calm r).bind_run h with hc | ⟨s, db₀, h0, -, h⟩
  · exact ⟨hc.grows hs, fun _ => Or.inl (hc.sameView r)⟩
  rcases (prepareJoin_calm env fed r answer).bind_run h with hc | ⟨n, db₁, h1, -, h⟩
  · have hc := Calm.trans _ _ _ h0 hc
    exact ⟨hc.grows hs, fun _ => Or.inl (hc.sameView r)⟩
  have hc := Calm.trans _ _ _ h0 h1
  by_cases hr : answer.joinEvent.pdu.roomId = r
  · rw [if_neg (not_not.mpr hr)] at h
    have hview := append_between env hs hc (fun _ => setRoomState_calm r n) h
    rw [hr] at hview
    exact hview
  · rw [if_pos hr] at h
    cases h
    exact ⟨hc.grows hs, fun _ => Or.inl (hc.sameView r)⟩

/-! ### the upgrade -/

/-- no event enters the timeline, and the extremities that the event or the graph refers to are gone -/
structure Shrunk (r : RoomId) (pdu : PduEvent) (db db' : Db) : Prop where
  history : db'.history r = db.history r
  leaves : db'.getForwardExtremities r = db.newExtremities r pdu

theorem Calm.newExtremities (h : Calm db db') (r : RoomId) (pdu : PduEvent) :
    db'.newExtremities r pdu = db.newExtremities r pdu := by
  unfold Db.newExtremities getForwardExtremities isEventReferenced
  rw [h.graph]

/-- what an upgrade does with the event, once it is checked -/
def Upgraded (r : RoomId) (pdu : PduEvent) (softFail : Bool) (db db' : Db) : Prop :=
  SameView r db db' ∨ (softFail = true ∧ Shrunk r pdu db db') ∨
    (softFail = false ∧ Entered r pdu (insert pdu.eventId (db.newExtremities r pdu)) db db')

theorem Calm.upgraded {a b c : Db} (h : Calm a b) (h' : Upgraded r pdu softFail b c) :
    Upgraded r pdu softFail a c := by
  have hv := h.sameView r
  rcases h' with h' | ⟨hs, h'⟩ | ⟨hs, h'⟩
  · exact Or.inl (hv.trans h')
  · exact Or.inr (Or.inl ⟨hs, h'.history.trans hv.history, h'.leaves.trans (h.newExtremities r pdu)⟩)
  · rw [h.newExtremities] at h'
    exact Or.inr (Or.inr ⟨hs, hv.entered h'⟩)

theorem deriveState_calm (fuel : Nat) (r : RoomId) (version : RoomVersionId) (pdu : PduEvent)
    (state : Tree Nat EventId) : Comp.Keeps Calm (deriveState env fed fuel r version pdu state) :=
  deriveState_keeps env fed calm_blind (fun _ _ => Calm.of_same rfl rfl rfl rfl)
    (fun _ _ => Calm.of_same rfl rfl rfl rfl) calm_quiet (fun _ _ _ => Calm.of_same rfl rfl rfl rfl)
    fuel r version pdu state

theorem appendIncomingPdu_softFail {n : Nat} (hr : j.pdu.roomId = r)
    (h1 : onState (StateDb.setEventState env.digest env.ord j.pdu.eventId j.pdu.roomId compressed) db
      = (.ok n, db₁)) :
    appendIncomingPdu env r j leaves compressed true db = (.ok none,
      (setForwardExtremities r leaves (markAsReferenced r j.pdu.prevEvents db₁).2).2) := by
  unfold appendIncomingPdu
  rw [if_neg (not_not.mpr hr), Comp.bind_ok h1]
  rfl

/-- the soft fail branch, from the state at the event on -/
theorem softFail_view (hs : Sound db) (h : (do
      let _ ← appendIncomingPdu env r j leaves compressed true
      markEventSoftFailed j.pdu.eventId
      Comp.throw softFailed) db = (o, db')) :
    Sound db' ∧ (SameView r db db' ∨
      (db'.history r = db.history r ∧ db'.getForwardExtremities r = leaves.toFinset)) := by
  by_cases hr : j.pdu.roomId = r
  · have hset := calm_quiet.onState (StateDb.setEventState_later env.digest env.ord j.pdu.eventId
      j.pdu.roomId compressed) db
    cases h1 : onState (StateDb.setEventState env.digest env.ord j.pdu.eventId j.pdu.roomId
        compressed) db with
    | mk o₁ db₁ =>
      rw [h1] at hset
      cases o₁ with
      | error e =>
        have hrun : appendIncomingPdu env r j leaves compressed true db = (.error e, db₁) := by
          unfold appendIncomingPdu
          rw [if_neg (not_not.mpr hr), Comp.bind_error h1]
        rw [Comp.bind_error hrun] at h
        cases h
        exact ⟨hset.grows hs, Or.inl (hset.sameView r)⟩
      | ok n =>
        rw [Comp.bind_ok (appendIncomingPdu_softFail env hr h1)] at h
        cases h
        refine ⟨Grows.of_same rfl rfl rfl (hset.grows hs), Or.inr ⟨(hset.sameView r).history, ?_⟩⟩
        exact Function.update_self ..
  · have hrun : appendIncomingPdu env r j leaves compressed true db
        = (.error (.panic "Token for incorrect room passed"), db) := by
      unfold appendIncomingPdu
      rw [if_pos hr]
      rfl
    rw [Comp.bind_error hrun] at h
    cases h
    exact ⟨hs, Or.inl ⟨rfl, rfl⟩⟩

/-- the branch of an accepted event -/
theorem accept_view (hs : Sound db) (hc : Calm db db₁)
    (h : appendIncomingPdu env r j leaves compressed false db₁ = (o, db')) :
    Sound db' ∧ (InBounds o → SameView r db db' ∨ Entered r j.pdu leaves.toFinset db db') := by
  unfold appendIncomingPdu at h
  by_cases hr : j.pdu.roomId = r
  · rw [if_neg (not_not.mpr hr)] at h
    rcases (calm_quiet.onState (StateDb.setEventState_later env.digest env.ord j.pdu.eventId
      j.pdu.roomId compressed)).bind_run h with h1 | ⟨n, db₂, h1, -, h⟩
    · have hc := Calm.trans _ _ _ hc h1
      exact ⟨hc.grows hs, fun _ => Or.inl (hc.sameView r)⟩
    · have hview := append_between env hs (Calm.trans _ _ _ hc h1)
        (f := fun id => pure (some id)) (fun _ => calm_quiet.pure _) h
      rw [hr] at hview
      exact hview
  · rw [if_pos hr] at h
    cases h
    exact ⟨hc.grows hs, fun _ => Or.inl (hc.sameView r)⟩

theorem settle_view (hs : Sound db) {version : RoomVersionId} {state : Tree Nat EventId}
    (h : settle env fed fuel r version j state softFail db = (o, db')) :
    Sound db' ∧ (InBounds o → Upgraded r j.pdu softFail db db') := by
  have hread : (Comp.gets (fun db => db.newExtremities r j.pdu) : RoomComp _) db
      = (.ok (db.newExtremities r j.pdu), db) := rfl
  unfold settle at h
  rw [Comp.bind_ok hread] at h
  rcases (compressState_quiet calm_quiet (fed.entries state)).bind_run h with
    hc | ⟨compressed, db₁, h1, -, h⟩
  · exact ⟨hc.grows hs, fun _ => Or.inl (hc.sameView r)⟩
  rcases (deriveState_calm env fed fuel r version j.pdu state).bind_run h with hc | ⟨_, db₂, h2, -, h⟩
  · have hc := Calm.trans _ _ _ h1 hc
    exact ⟨hc.grows hs, fun _ => Or.inl (hc.sameView r)⟩
  have hc := Calm.trans _ _ _ h1 h2
  cases softFail with
  | true =>
    rw [if_pos rfl] at h
    obtain ⟨hs', hview⟩ := softFail_view env (hc.grows hs) h
    refine ⟨hs', fun _ => ?_⟩
    rcases hview with hv | ⟨hh, hl⟩
    · exact Or.inl ((hc.sameView r).trans hv)
    · rw [fed.listing_toFinset] at hl
      exact Or.inr (Or.inl ⟨rfl, hh.trans (hc.sameView r).history, hl⟩)
  | false =>
    rw [if_neg Bool.false_ne_true] at h
    obtain ⟨hs', hview⟩ := accept_view env hs hc h
    rw [fed.listing_toFinset] at hview
    exact ⟨hs', fun ho => (hview ho).imp_right fun hv => Or.inr ⟨rfl, hv⟩⟩

/-- the event does not pass the check against the current state, as the call will make it -/
def SoftFailsAt (fuel : Nat) (j : PduJson) (createEvent : PduEvent) (origin : ServerName) (r : RoomId)
    (db : Db) : Prop :=
  ∃ version state db₁, createVersion env fed createEvent = .ok version ∧
    stateAtIncomingEvent env fed fuel origin createEvent r version j.pdu db = (.ok state, db₁) ∧
    db₁.softFails env fed version r j.pdu = .ok true

theorem stateAtIncomingEvent_calm (fuel : Nat) (origin : ServerName) (createEvent : PduEvent)
    (r : RoomId) (version : RoomVersionId) (pdu : PduEvent) :
    Comp.Keeps Calm (stateAtIncomingEvent env fed fuel origin createEvent r version pdu) :=
  stateAtIncomingEvent_keeps env fed calm_quiet
    (fun e value (_ : Answered fed origin version e value) _ _ _ _ _ _ => Calm.of_same rfl rfl rfl rfl)
    fuel pdu

/-- an upgrade changes nothing here, or it soft fails its event, or it lets it in -/
theorem upgradeOutlierToTimelinePdu_view (hs : Sound db) {createEvent : PduEvent} {origin : ServerName}
    (h : upgradeOutlierToTimelinePdu env fed fuel j createEvent origin r db = (o, db')) :
    Sound db' ∧ (InBounds o → SameView r db db' ∨
      (SoftFailsAt env fed fuel j createEvent origin r db ∧ Shrunk r j.pdu db db') ∨
      (¬ SoftFailsAt env fed fuel j createEvent origin r db ∧
        Entered r j.pdu (insert j.pdu.eventId (db.newExtremities r j.pdu)) db db')) := by
  have hsame : ∀ b, Calm db b → Sound b ∧ (InBounds o → SameView r db b ∨
      (SoftFailsAt env fed fuel j createEvent origin r db ∧ Shrunk r j.pdu db b) ∨
      (¬ SoftFailsAt env fed fuel j createEvent origin r db ∧
        Entered r j.pdu (insert j.pdu.eventId (db.newExtremities r j.pdu)) db b)) := fun b hc =>
    ⟨hc.grows hs, fun _ => Or.inl (hc.sameView r)⟩
  unfold upgradeOutlierToTimelinePdu at h
  rw [Comp.bind_ok (Comp.get_run db)] at h
  cases hid : db.timeline.getPduId j.pdu.eventId with
  | some id =>
    rw [hid] at h
    cases h
    exact hsame db (Calm.refl db)
  | none =>
    rw [hid] at h
    change (Comp.get >>= _) db = _ at h
    rw [Comp.bind_ok (Comp.get_run db)] at h
    cases hm : db.isEventSoftFailed j.pdu.eventId with
    | true =>
      rw [hm, if_pos rfl] at h
      cases h
      exact hsame db (Calm.refl db)
    | false =>
      rw [hm, if_neg Bool.false_ne_true] at h
      have hread : ∀ {α : Type} (x : RoomComp α), (∀ db, (x db).2 = db) → Comp.Keeps Calm x :=
        fun x hx => calm_quiet.read hx
      rcases (hread (Comp.ofExcept (createVersion env fed createEvent)) fun _ => rfl).bind_run h with
        hc | ⟨version, db₀, -, h0, h⟩
      · exact hsame db' hc
      obtain ⟨hv, rfl⟩ := Prod.mk.inj h0
      rcases (stateAtIncomingEvent_calm env fed fuel origin createEvent r version j.pdu).bind_run h with
        hc | ⟨state, db₁, hc, hstate, h⟩
      · exact hsame db' hc
      rcases (hread (Comp.reads fun db => db.checkStateAuth fed version j.pdu state)
        fun _ => rfl).bind_run h with hc' | ⟨_, db₂, -, h2, h⟩
      · exact hsame db' (Calm.trans _ _ _ hc hc')
      obtain ⟨-, rfl⟩ := Prod.mk.inj h2
      rcases (hread (Comp.reads fun db => db.softFails env fed version r j.pdu)
        fun _ => rfl).bind_run h with hc' | ⟨softFail, db₂, -, h2, h⟩
      · exact hsame db' (Calm.trans _ _ _ hc hc')
      obtain ⟨hsoft, rfl⟩ := Prod.mk.inj h2
      obtain ⟨hs', hview⟩ := settle_view env fed (hc.grows hs) h
      refine ⟨hs', fun ho => ?_⟩
      rcases hc.upgraded (hview ho) with hv' | ⟨rfl, hv'⟩ | ⟨rfl, hv'⟩
      · exact Or.inl hv'
      · exact Or.inr (Or.inl ⟨⟨version, state, db₁, hv, hstate, hsoft⟩, hv'⟩)
      · refine Or.inr (Or.inr ⟨?_, hv'⟩)
        rintro ⟨version', state', db₁', hv1, hstate1, hsoft1⟩
        obtain rfl := Except.ok.inj (hv.symm.trans hv1)
        obtain ⟨hst, rfl⟩ := Prod.mk.inj (hstate.symm.trans hstate1)
        cases hsoft.symm.trans hsoft1

/-! ## calls -/

inductive RoomCall where
  | buildAndAppendPdu (j : PduJson)
  | joinOverFederation (answer : SendJoinAnswer)
  | upgradeOutlierToTimelinePdu (fuel : Nat) (j : PduJson) (createEvent : PduEvent)
      (origin : ServerName)

/-- the prev events that `create_hash_and_sign_event` takes; a hash set lists nothing twice -/
def localPrevEvents (db : Db) (r : RoomId) : List EventId :=
  (fed.listing (db.getForwardExtremities r)).dedup.take 20

namespace RoomCall

variable {c : RoomCall}

def run (r : RoomId) : RoomCall → RoomComp Unit
  | buildAndAppendPdu j => do
    let _ ← Db.buildAndAppendPdu env j
  | joinOverFederation answer => Db.joinOverFederation env fed r answer
  | upgradeOutlierToTimelinePdu fuel j createEvent origin => do
    let _ ← Db.upgradeOutlierToTimelinePdu env fed fuel j createEvent origin r

/-- a local event was made for the room, just before -/
def Made (r : RoomId) (db : Db) : RoomCall → Prop
  | buildAndAppendPdu j => j.pdu.roomId = r ∧ j.pdu.prevEvents = db.localPrevEvents fed r
  | _ => True

/-- what a call has to meet.  No timeline event refers to the new one yet; and a local event has room
for all extremities, a join refers to all of them, an upgrade loses none that only a soft failed
event refers to, and a soft failed one takes none with it -/
def Tidy (r : RoomId) (db : Db) : RoomCall → Prop
  | buildAndAppendPdu j =>
    ¬ Referenced (db.history r) j.pdu.eventId ∧ (db.getForwardExtremities r).card ≤ 20
  | joinOverFederation answer =>
    ¬ Referenced (db.history r) answer.joinEvent.pdu.eventId ∧
      ∀ e ∈ db.getForwardExtremities r, e ≠ answer.joinEvent.pdu.eventId →
        e ∈ answer.joinEvent.pdu.prevEvents
  | upgradeOutlierToTimelinePdu fuel j createEvent origin =>
    (¬ SoftFailsAt env fed fuel j createEvent origin r db →
      ¬ Referenced (db.history r) j.pdu.eventId ∧
        ∀ e ∈ db.getForwardExtremities r, e ≠ j.pdu.eventId → e ∉ j.pdu.prevEvents →
          db.isEventReferenced r e = false) ∧
    (SoftFailsAt env fed fuel j createEvent origin r db →
      ∀ e ∈ db.getForwardExtremities r, e ∉ j.pdu.prevEvents ∧ db.isEventReferenced r e = false)

/-- what a call does, if it does anything to the timeline or the extremities -/
def Effect (r : RoomId) (db db' : Db) : RoomCall → Prop
  | buildAndAppendPdu j => Entered r j.pdu {j.pdu.eventId} db db'
  | joinOverFederation answer =>
    Entered r answer.joinEvent.pdu {answer.joinEvent.pdu.eventId} db db'
  | upgradeOutlierToTimelinePdu fuel j createEvent origin =>
    (SoftFailsAt env fed fuel j createEvent origin r db ∧ Shrunk r j.pdu db db') ∨
      (¬ SoftFailsAt env fed fuel j createEvent origin r db ∧
        Entered r j.pdu (insert j.pdu.eventId (db.newExtremities r j.pdu)) db db')

theorem call_effect (hs : Sound db) (hm : c.Made fed r db) {o : Except Error Unit}
    (h : c.run env fed r db = (o, db')) :
    Sound db' ∧ (InBounds o → SameView r db db' ∨ c.Effect env fed r db db') := by
  have hlast : ∀ {α : Type} {x : RoomComp α} {o₁ : Except Error α} {db₁ : Db}, x db = (o₁, db₁) →
      (x >>= fun _ => pure ()) db = (o, db') → db₁ = db' ∧ (InBounds o → InBounds o₁) := by
    intro α x o₁ db₁ h1 h
    cases o₁ with
    | error e =>
      rw [Comp.bind_error h1] at h
      cases h
      exact ⟨rfl, fun ho he => ho (by cases he; rfl)⟩
    | ok a =>
      rw [Comp.bind_ok h1] at h
      cases h
      exact ⟨rfl, fun _ => nofun⟩
  cases c with
  | buildAndAppendPdu j =>
    cases h1 : Db.buildAndAppendPdu env j db with
    | mk o₁ db₁ =>
      obtain ⟨rfl, ho⟩ := hlast h1 h
      obtain ⟨hs', hview⟩ := buildAndAppendPdu_view env hs h1
      rw [hm.1] at hview
      exact ⟨hs', fun hb => hview (ho hb)⟩
  | joinOverFederation answer => exact joinOverFederation_view env fed hs h
  | upgradeOutlierToTimelinePdu fuel j createEvent origin =>
    cases h1 : Db.upgradeOutlierToTimelinePdu env fed fuel j createEvent origin r db with
    | mk o₁ db₁ =>
      obtain ⟨rfl, ho⟩ := hlast h1 h
      obtain ⟨hs', hview⟩ := upgradeOutlierToTimelinePdu_view env fed hs h1
      exact ⟨hs', fun hb => hview (ho hb)⟩

/-- twenty prev events are all extremities as long as there are no more than twenty -/
theorem mem_localPrevEvents (h : (db.getForwardExtremities r).card ≤ 20) (he : e ∈ db.getForwardExtremities r) :
    e ∈ db.localPrevEvents fed r := by
  have hset := fed.listing_toFinset (db.getForwardExtremities r)
  unfold localPrevEvents
  rw [List.take_of_length_le]
  · rw [List.mem_dedup, ← List.mem_toFinset, hset]
    exact he
  · rw [← List.card_toFinset, hset]
    exact h

theorem coe_newExtremities (db : Db) (r : RoomId) (pdu : PduEvent) :
    (db.newExtremities r pdu : Set EventId) = {e ∈ (db.getForwardExtremities r : Set EventId) |
      e ∉ pdu.prevEvents ∧ db.isEventReferenced r e = false} := by
  unfold newExtremities
  rw [Finset.coe_filter]
  rfl

/-- a tidy call keeps the extremities -/
theorem Effect.extremities (h : c.Effect env fed r db db') (hm : c.Made fed r db) (ht : c.Tidy env fed r db)
    (he : Extremities db r) : Extremities db' r := by
  have hmem : ∀ {pdu : PduEvent} {leaves : Finset EventId}, Entered r pdu leaves db db' →
      pdu.eventId ∈ leaves → (leaves : Set EventId)
        = History.frontier (insert (pdu.eventId, pdu.prevEvents) (db.history r)) → Extremities db' r := by
    intro pdu leaves hent hin hfront
    constructor
    · rw [hent.leaves, hent.history]
      exact hfront
    · rw [hent.leaves]
      exact fun _ => ⟨pdu.eventId, hin⟩
  cases c with
  | buildAndAppendPdu j =>
    refine hmem h (Finset.mem_singleton_self _) ?_
    rw [Finset.coe_singleton]
    refine (replace_frontier_iff he.frontier).mpr ⟨ht.1, fun e hmem _ => ?_⟩
    rw [hm.2]
    exact mem_localPrevEvents fed ht.2 hmem
  | joinOverFederation answer =>
    refine hmem h (Finset.mem_singleton_self _) ?_
    rw [Finset.coe_singleton]
    exact (replace_frontier_iff he.frontier).mpr ht
  | upgradeOutlierToTimelinePdu fuel j createEvent origin =>
    rcases h with ⟨hsoft, hshrunk⟩ | ⟨hsoft, hent⟩
    · have hsame : db.newExtremities r j.pdu = db.getForwardExtremities r := by
        unfold newExtremities
        exact Finset.filter_true_of_mem (ht.2 hsoft)
      exact SameView.extremities ⟨hshrunk.history, hshrunk.leaves.trans hsame⟩ he
    · refine hmem hent (Finset.mem_insert_self _ _) ?_
      rw [Finset.coe_insert, coe_newExtremities]
      exact (extend_frontier_iff he.frontier).mpr (ht.1 hsoft)

/-- no other call does -/
theorem Effect.tidy (h : c.Effect env fed r db db') (hm : c.Made fed r db)
    (hnew : ∀ j, c = .buildAndAppendPdu j →
      j.pdu.eventId ∉ db.getForwardExtremities r) (he : Extremities db r) (he' : Extremities db' r) :
    c.Tidy env fed r db := by
  have hfront := he'.frontier
  cases c with
  | buildAndAppendPdu j =>
    rw [h.leaves, h.history, Finset.coe_singleton, replace_frontier_iff he.frontier] at hfront
    refine ⟨hfront.1, ?_⟩
    have hsub : db.getForwardExtremities r ⊆ (db.localPrevEvents fed r).toFinset := by
      intro e hmem
      rw [List.mem_toFinset, ← hm.2]
      refine hfront.2 e hmem ?_
      rintro rfl
      exact hnew j rfl hmem
    calc (db.getForwardExtremities r).card
        ≤ (db.localPrevEvents fed r).toFinset.card := Finset.card_le_card hsub
      _ ≤ (db.localPrevEvents fed r).length := List.toFinset_card_le _
      _ ≤ 20 := List.length_take_le _ _
  | joinOverFederation answer =>
    rw [h.leaves, h.history, Finset.coe_singleton, replace_frontier_iff he.frontier] at hfront
    exact hfront
  | upgradeOutlierToTimelinePdu fuel j createEvent origin =>
    rcases h with ⟨hsoft, hshrunk⟩ | ⟨hsoft, hent⟩
    · rw [hshrunk.leaves, hshrunk.history, coe_newExtremities, shrink_frontier_iff he.frontier] at hfront
      exact ⟨fun hs => absurd hsoft hs, fun _ => hfront⟩
    · rw [hent.leaves, hent.history, Finset.coe_insert, coe_newExtremities,
        extend_frontier_iff he.frontier] at hfront
      exact ⟨fun _ => hfront, fun hs => absurd hs hsoft⟩

/-- a call with an effect keeps the extremities if and only if it is tidy -/
theorem tidy_iff (h : c.Effect env fed r db db') (hm : c.Made fed r db) (hnew : ∀ j, c = .buildAndAppendPdu j →
      j.pdu.eventId ∉ db.getForwardExtremities r) (he : Extremities db r) :
    Extremities db' r ↔ c.Tidy env fed r db :=
  ⟨h.tidy env fed hm hnew he, fun ht => h.extremities env fed hm ht he⟩

end RoomCall

/-! ## runs -/

/-- runs of calls on a room whose calls meet `ok`; whatever else happens leaves the timeline and the
extremities of the room alone -/
inductive ExtremityRun (r : RoomId) (ok : Db → RoomCall → Prop) : Db → Prop where
  | start : ExtremityRun r ok Db.empty
  | call {db db' : Db} {c : RoomCall} {o : Except Error Unit} (h : ExtremityRun r ok db)
      (hm : c.Made fed r db) (hok : ok db c) (hrun : c.run env fed r db = (o, db')) (hb : InBounds o) :
      ExtremityRun r ok db'
  | other {db db' : Db} (h : ExtremityRun r ok db) (hr : Reachable db') (hv : SameView r db db') :
      ExtremityRun r ok db'

theorem extremities_empty (r : RoomId) : Extremities Db.empty r := by
  have hempty : Db.empty.history r = ∅ := by
    apply Set.eq_empty_of_forall_notMem
    rintro x ⟨id, hid⟩
    cases hid
  constructor
  · rw [hempty, frontier_empty]
    exact Finset.coe_empty
  · rw [hempty]
    exact fun h => absurd h Set.not_nonempty_empty

theorem ExtremityRun.sound {ok : Db → RoomCall → Prop} (h : ExtremityRun env fed r ok db) : Sound db := by
  induction h with
  | start => exact sound_empty
  | call _ hm _ hrun _ ih => exact (RoomCall.call_effect env fed ih hm hrun).1
  | other _ hr _ _ => exact hr.sound

/-- in a run of tidy calls, the extremities of the room are after every step the timeline events that
no other one refers to -/
theorem extremities_exact (r : RoomId) {db : Db}
    (h : ExtremityRun env fed r (fun db c => c.Tidy env fed r db) db) : Extremities db r := by
  induction h with
  | start => exact extremities_empty r
  | call hdb hm hok hrun hb ih =>
    rcases (RoomCall.call_effect env fed hdb.sound hm hrun).2 hb with hv | heff
    · exact hv.extremities ih
    · exact RoomCall.Effect.extremities env fed heff hm hok ih
  | other _ _ hv ih => exact hv.extremities ih

/-- **and only in such runs**: a call that moves the timeline or the extremities of a room keeps the extremities the
events that no other one refers to if and only if it is tidy -/
theorem extremities_kept_iff {r : RoomId} {db db' : Db} (h : ExtremityRun env fed r (fun _ _ => True) db)
    (he : Extremities db r) {c : RoomCall} (hm : c.Made fed r db) {o : Except Error Unit}
    (hrun : c.run env fed r db = (o, db')) (hb : InBounds o) (hmoved : ¬ SameView r db db')
    (hnew : ∀ j, c = .buildAndAppendPdu j → j.pdu.eventId ∉ db.getForwardExtremities r) :
    Extremities db' r ↔ c.Tidy env fed r db :=
  RoomCall.tidy_iff env fed (((RoomCall.call_effect env fed h.sound hm hrun).2 hb).resolve_left hmoved) hm hnew he

/-! ## a parent after its child -/

/-- a prev event that no row has is referred to by none -/
theorem not_referenced_of_rows (h : ∀ row ∈ db.timeline.pduidPdu.rows, e ∉ row.2.pdu.prevEvents) :
    ¬ Referenced (db.history r) e := by
  rintro ⟨x, ⟨id, hid⟩, -, he⟩
  obtain ⟨j, hj, hnode⟩ := Option.map_eq_some_iff.mp hid
  refine h (id, j) ((Tree.get_eq_some_iff _ _ _).mp hj) ?_
  unfold PduJson.node at hnode
  have hx : (j.pdu.eventId, j.pdu.prevEvents) = x := (Prod.mk.inj hnode).2
  rw [← hx] at he
  exact he

/-- an extremity that a row refers to is one too many -/
theorem not_extremities {leaves : Finset EventId} {n : EventId} {prev : List EventId} {id : Bytes}
    (hleaves : db.getForwardExtremities r = leaves) (hleaf : e ∈ leaves)
    (hrow : (db.timeline.getPduJsonFromId id).map PduJson.node = some (r, n, prev)) (hne : n ≠ e)
    (he : e ∈ prev) : ¬ Extremities db r := by
  intro h
  have hfront : e ∈ frontier (db.history r) := by
    rw [← h.frontier, hleaves]
    exact hleaf
  exact hfront.2 ⟨(n, prev), ⟨id, hrow⟩, hne, he⟩

theorem inBounds_of_toBool {α : Type} {o : Except Error α} (h : o.toBool = true) : InBounds o := by
  rintro rfl
  cases h

namespace Late
open Sends

/-- the origin knows the state at every event, and the resolution takes the later state -/
def telling : Fed := { Fed.plain with
  resolve := fun _ forks _ _ => forks.getLast?
  getRoomStateIds := fun _ _ _ _ =>
    .ok [create.pdu.eventId, join.pdu.eventId, bobsJoin.pdu.eventId] }

def after (c : RoomCall) (db : Db) : Db := (c.run .plain telling room db).2

def upgradeCall (j : PduJson) : RoomCall := .upgradeOutlierToTimelinePdu 100 j create.pdu ⟨.ascii "y"⟩

def bobsMessage (e : String) (prev : EventId) : PduJson :=
  bobsEvent e .roomMessage [("body", .str "hi")] none prev none

def parent : PduJson := bobsMessage "$parent" bobsJoin.pdu.eventId
def child : PduJson := bobsMessage "$child" parent.pdu.eventId

def opened : Db := (getOrCreateShortroomid room empty).2
def created : Db := after (.buildAndAppendPdu create) opened
def joined : Db := after (.buildAndAppendPdu join) created
def shared : Db := after (upgradeCall bobsJoin) joined
/-- bob's second message comes first, with the state that his server names -/
def early : Db := after (upgradeCall child) shared
def late : Db := after (upgradeCall parent) early

/-- what is computed of the calls; they share their beginning -/
theorem computed : (((RoomCall.buildAndAppendPdu create).run .plain telling room opened).1.toBool = true ∧
      ((RoomCall.buildAndAppendPdu join).run .plain telling room created).1.toBool = true) ∧
    (((upgradeCall bobsJoin).run .plain telling room joined).1.toBool = true ∧
      ((upgradeCall child).run .plain telling room shared).1.toBool = true ∧
      ((upgradeCall parent).run .plain telling room early).1.toBool = true) ∧
    late.getForwardExtremities room = {child.pdu.eventId, parent.pdu.eventId} ∧
    (late.timeline.getPduJsonFromId (pduId 1 (.normal 28))).map PduJson.node = some child.node := by decide +kernel

variable {ok : Db → RoomCall → Prop}

theorem run_eq_after (c : RoomCall) (db : Db) :
    c.run .plain telling room db = ((c.run .plain telling room db).1, after c db) := rfl

theorem run_opened : ExtremityRun .plain telling room ok opened :=
  .other .start (.room room .empty) ((getOrCreateShortroomid_calm room empty).sameView room)

theorem run_after {c : RoomCall} (h : ExtremityRun .plain telling room ok db) (hm : c.Made telling room db)
    (hok : ok db c) (hb : (c.run .plain telling room db).1.toBool = true) :
    ExtremityRun .plain telling room ok (after c db) :=
  .call h hm hok rfl (inBounds_of_toBool hb)

theorem made_create : RoomCall.Made telling room opened (.buildAndAppendPdu create) :=
  ⟨rfl, by decide +kernel⟩

theorem made_join : RoomCall.Made telling room created (.buildAndAppendPdu join) :=
  ⟨rfl, by decide +kernel⟩

theorem run_late : ExtremityRun .plain telling room (fun _ _ => True) late := by
  have hcreated : ExtremityRun .plain telling room (fun _ _ => True) created :=
    run_after run_opened made_create trivial computed.1.1
  have hjoined : ExtremityRun .plain telling room (fun _ _ => True) joined :=
    run_after hcreated made_join trivial computed.1.2
  have hshared : ExtremityRun .plain telling room (fun _ _ => True) shared :=
    run_after hjoined trivial trivial computed.2.1.1
  have hearly : ExtremityRun .plain telling room (fun _ _ => True) early :=
    run_after hshared trivial trivial computed.2.1.2.1
  exact run_after hearly trivial trivial computed.2.1.2.2

end Late

/-- alice creates the room and joins it -/
theorem extremities_exact_joined : Extremities Late.joined Sends.room := by
  refine extremities_exact .plain Late.telling Sends.room ?_
  refine Late.run_after (Late.run_after Late.run_opened Late.made_create ?_ Late.computed.1.1)
    Late.made_join ?_ Late.computed.1.2
  · exact ⟨not_referenced_of_rows (by decide +kernel), by decide +kernel⟩
  · exact ⟨not_referenced_of_rows (by decide +kernel), by decide +kernel⟩

/-- the creation of the room is tidy -/
theorem extremities_kept_iff_created : Extremities Late.created Sends.room := by
  have hleaves : Late.opened.getForwardExtremities Sends.room = ∅ ∧
      Late.created.getForwardExtremities Sends.room ≠ ∅ := by decide +kernel
  refine (extremities_kept_iff .plain Late.telling Late.run_opened ?_ Late.made_create
    (Late.run_eq_after (.buildAndAppendPdu Sends.create) Late.opened) (inBounds_of_toBool Late.computed.1.1)
    (fun hv => ?_) fun j _ => ?_).mpr ?_
  · exact ((getOrCreateShortroomid_calm Sends.room empty).sameView Sends.room).extremities
      (extremities_empty Sends.room)
  · exact hleaves.2 (hv.leaves.trans hleaves.1)
  · rw [hleaves.1]
    exact Finset.notMem_empty _
  · exact ⟨not_referenced_of_rows (by decide +kernel), by decide +kernel⟩

/-- the parent becomes an extremity although its child is in the timeline -/
theorem extremities_late : ¬ ∀ db, ExtremityRun .plain Late.telling Sends.room (fun _ _ => True) db →
    Extremities db Sends.room := by
  intro hall
  obtain ⟨hleaves, hrow⟩ := Late.computed.2.2
  exact not_extremities hleaves (Finset.mem_insert_of_mem (Finset.mem_singleton_self _)) hrow (by decide) (by decide) (hall Late.late Late.run_late)

end Db
end Grapevine
