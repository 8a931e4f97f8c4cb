import Grapevine.Events.ChainExact
import Grapevine.Events.Told

/-!
# Auth chains that go stale

A chain that was computed while one of its events was missing stays in the caches when the event
arrives.  `InTime` says that an event does not arrive behind such a chain.

* `Settled`              an event id stands for one list of auth events, wherever it is stored;
* `Persists`             what persisting an event changes: the event is stored, the chains stay;
* `ancestor_persists`    the ancestors of an event, unless it led to the new one;
* `Current`              the invariant: the chains in the caches are those of the store as it is.

Main result: `run_complete`.  If no event arrives behind a chain that misses it, every query
returns all ancestors; `stale_chain` is a run in which one does.
-/

namespace Grapevine
open Kv

namespace Db
open StateDb

/-! ## stored events -/

theorem Revises.authEvents {p q : PduEvent} (h : Revises p q) : q.authEvents = p.authEvents := by
  unfold Revises at h
  rw [h]

/-- every stored event has the auth events that go with its id -/
structure Settled (auth : EventId → List EventId) (t : TimelineTables) : Prop where
  rows : ∀ e id, t.eventidPduid e = some id →
    ∃ j, t.pduidPdu.get id = some j ∧ j.pdu.eventId = e ∧ j.pdu.authEvents = auth e
  outliers : ∀ e j, t.eventidOutlierpdu e = some j → j.pdu.authEvents = auth e
  cache : ∀ e p, t.pduCache e = some p → HasPdu t e ∧ p.authEvents = auth e

section
variable {auth : EventId → List EventId}
variable {db db' : Db} {Good : EventId → Finset EventId → Prop} {t : TimelineTables}
  {j stored : PduJson} {pdu : PduEvent} {e : EventId}

theorem settled_iff : Settled auth t ↔ Told PduEvent.authEvents auth t :=
  ⟨fun h => ⟨h.rows, h.outliers, h.cache⟩, fun h => ⟨h.rows, h.outliers, h.cache⟩⟩

theorem settled_empty : Settled auth .empty := settled_iff.mpr told_empty

theorem Settled.getPdu_stored (h : Settled auth db.timeline) (he : HasPdu db.timeline e) :
    ∃ p, db.getPdu e = .ok (some p) ∧ p.authEvents = auth e :=
  (settled_iff.mp h).getPdu_stored he

theorem Settled.getPdu_missing (h : Settled auth db.timeline) (he : ¬ HasPdu db.timeline e) :
    db.getPdu e = .ok none := (settled_iff.mp h).getPdu_missing he

theorem Settled.authEdge_iff (h : Settled auth db.timeline) (e a : EventId) :
    AuthEdge db e a ↔ HasPdu db.timeline e ∧ a ∈ auth e := by
  by_cases he : HasPdu db.timeline e
  · obtain ⟨p, hp, hauth⟩ := h.getPdu_stored he
    refine ⟨fun ⟨q, hq, ha⟩ => ⟨he, ?_⟩, fun ha => ⟨p, hp, hauth ▸ ha.2⟩⟩
    rw [hp] at hq
    cases hq
    exact hauth ▸ ha
  · refine ⟨fun ⟨q, hq, _⟩ => ?_, fun ha => absurd ha.1 he⟩
    rw [h.getPdu_missing he] at hq
    cases hq

theorem Settled.addPduOutlier (h : Settled auth t) (hj : j.pdu.authEvents = auth j.pdu.eventId) :
    Settled auth (t.addPduOutlier j.pdu.eventId j) :=
  settled_iff.mpr ((settled_iff.mp h).addPduOutlier hj)

theorem Settled.appendPdu (h : Settled auth t) {id : Bytes} (hfresh : t.pduidPdu.get id = none)
    (hpdu : pdu.authEvents = auth pdu.eventId) (hr : Revises pdu stored.pdu) (n : Nat) :
    Settled auth (t.appendPdu id pdu stored n) :=
  settled_iff.mpr ((settled_iff.mp h).appendPdu hfresh hr.eventId (hr.authEvents.trans hpdu) n)

theorem Settled.replacePdu (h : Settled auth db.timeline) {id : Bytes} {v json : PduJson} (pdu : PduEvent)
    (hv : db.timeline.pduidPdu.get id = some v) (hr : Revises v.pdu json.pdu) :
    Settled auth (replacePdu id json pdu db).2.timeline :=
  settled_iff.mpr ((settled_iff.mp h).replacePdu pdu hv hr.eventId hr.authEvents)

/-! ## persisting an event -/

/-- at most the events `New` are stored, and the short ids and the chains stay as they are -/
structure Changes (auth : EventId → List EventId) (New : EventId → Prop) (db db' : Db) : Prop where
  settled : Settled auth db'.timeline
  stays : ∀ e, HasPdu db.timeline e → HasPdu db'.timeline e
  stored : ∀ e, HasPdu db'.timeline e → HasPdu db.timeline e ∨ New e
  shorts : ShortIds db.state → ShortIds db'.state
  short : db'.state.eventidShorteventid = db.state.eventidShorteventid
  ram : db'.authChainCache = db.authChainCache
  chainRows : db'.shorteventidAuthchain = db.shorteventidAuthchain

/-- a part of `append_pdu` in the room `a` -/
def Persists (auth : EventId → List EventId) (New : EventId → Prop) (a : RoomId) (s : Nat)
    (db db' : Db) : Prop :=
  Inside a s db → Settled auth db.timeline → Inside a s db' ∧ Changes auth New db db'

variable {New : EventId → Prop} {a : RoomId} {s : Nat}

theorem Changes.trans {x y z : Db} (h : Changes auth New x y) (h' : Changes auth New y z) :
    Changes auth New x z :=
  ⟨h'.settled, fun e he => h'.stays e (h.stays e he),
    fun e he => (h'.stored e he).elim (h.stored e) Or.inr, fun hs => h'.shorts (h.shorts hs),
    h'.short.trans h.short, h'.ram.trans h.ram, h'.chainRows.trans h.chainRows⟩

theorem Changes.of_timeline (hs : Settled auth db.timeline) (ht : db'.timeline = db.timeline)
    (hshorts : ShortIds db.state → ShortIds db'.state)
    (hshort : db'.state.eventidShorteventid = db.state.eventidShorteventid)
    (hram : db'.authChainCache = db.authChainCache)
    (hrows : db'.shorteventidAuthchain = db.shorteventidAuthchain) : Changes auth New db db' := by
  refine ⟨?_, ?_, ?_, hshorts, hshort, hram, hrows⟩
  · rw [ht]
    exact hs
  · rw [ht]
    exact fun _ he => he
  · rw [ht]
    exact fun _ he => Or.inl he

theorem Persists.of_same (hs : db'.state = db.state) (hw : db'.roomidShortroomid = db.roomidShortroomid)
    (ht : db'.timeline = db.timeline) (hram : db'.authChainCache = db.authChainCache)
    (hrows : db'.shorteventidAuthchain = db.shorteventidAuthchain) : Persists auth New a s db db' := by
  intro hin hset
  refine ⟨⟨Grows.of_same (by rw [hs]) hw (by rw [ht]) hin.sound, by rw [hw]; exact hin.word⟩, ?_⟩
  exact Changes.of_timeline hset ht (hs ▸ id) (by rw [hs]) hram hrows

theorem shortIds_count {s : StateDb} (h : ShortIds s) (hlt : s.counter + 1 < 2^64) :
    ShortIds { s with counter := s.counter + 1 } :=
  ⟨hlt, h.back, h.forward, fun e n he => Nat.le_succ_of_le (h.bound e n he)⟩

theorem persists_blind : Blind (Persists auth New a s) := by
  refine .of_aside (fun _ _ _ h h' hin hset => ?_) (fun _ hlt hin hset => ⟨⟨hin.sound.congr (Nat.le_succ _) hlt rfl rfl,
    hin.word⟩, .of_timeline hset rfl (fun h => shortIds_count h hlt) rfl rfl rfl⟩)
    fun _ _ _ _ _ _ _ _ _ => .of_same rfl rfl rfl rfl rfl
  obtain ⟨hin, hc⟩ := h hin hset
  obtain ⟨hin', hc'⟩ := h' hin hc.settled
  exact ⟨hin', hc.trans hc'⟩

/-- a count is drawn, and the row of the event is inserted under it -/
theorem newRow_persists (hpdu : pdu.authEvents = auth pdu.eventId) (hr : Revises pdu stored.pdu)
    (hnew : New pdu.eventId) :
    Comp.Keeps (Persists auth New a s) (do
      let count ← nextCount
      onTimeline (fun t => t.appendPdu (pduId s (.normal count)) pdu stored count)
      pure (pduId s (.normal count), count) : RoomComp (Bytes × Nat)) := by
  intro db
  by_cases hlt : db.state.counter + 1 < 2^64
  · rw [Comp.bind_ok (nextCount_run hlt)]
    intro hin hset
    have hvalid : PduCount.Valid (.normal (db.state.counter + 1)) := ⟨Nat.succ_pos _, hlt⟩
    have hfresh := hin.sound.fresh hin.word hvalid (Nat.lt_succ_self _)
    refine ⟨⟨hin.sound.newRow hlt hin.word hvalid rfl stored rfl rfl rfl, hin.word⟩,
      hset.appendPdu hfresh hpdu hr _, fun e he => ?_, fun e he => ?_,
      fun h => shortIds_count h hlt, rfl, rfl, rfl⟩
    · exact (hasPdu_appendPdu e).mpr (Or.inl he)
    · rcases (hasPdu_appendPdu e).mp he with he | rfl
      · exact Or.inl he
      · exact Or.inr hnew
  · rw [Comp.bind_error (nextCount_overflow hlt)]
    exact persists_blind.refl db

theorem replacePdu_persists {id : Bytes} {v json : PduJson} (pdu : PduEvent)
    (hv : db.timeline.pduidPdu.get id = some v) (hr : Revises v.pdu json.pdu) :
    Persists auth New a s db (replacePdu id json pdu db).2 := by
  intro hin hset
  have hset' := hset.replacePdu pdu hv hr
  rw [replacePdu_run hv] at hset' ⊢
  exact ⟨⟨hin.sound.replaceRow hv rfl rfl rfl, hin.word⟩, hset', fun _ he => he,
    fun _ he => Or.inl he, fun h => h, rfl, rfl, rfl⟩

variable (env : Env)

theorem storePdu_persists (hj : j.pdu.authEvents = auth j.pdu.eventId) (hnew : New j.pdu.eventId)
    (leaves : List EventId) :
    Comp.Keeps (Persists auth New a s) (storePdu env j leaves s) := by
  have hb : Blind (Persists auth New a s) := persists_blind
  intro db
  refine Comp.keeps_bind_at hb.trans (hb.refl db) fun stored db₁ h1 => ?_
  have hr := correctUnsigned_revises env (Prod.mk.inj h1).1
  have hwrites : Comp.Keeps (Persists auth New a s) (do
      markAsReferenced j.pdu.roomId j.pdu.prevEvents
      setForwardExtremities j.pdu.roomId leaves
      insertPdu stored j.pdu s) :=
    hb.bind (Comp.Keeps.modify fun _ => Persists.of_same rfl rfl rfl rfl rfl) fun _ =>
      hb.bind (Comp.Keeps.modify fun _ => Persists.of_same rfl rfl rfl rfl rfl) fun _ =>
      hb.bind (nextCount_keeps hb) fun _ => hb.bind (privateReadSet_keeps hb _ _ _) fun _ =>
      hb.bind (resetNotificationCounts_keeps hb _ _) fun _ => newRow_persists hj hr hnew
  exact hwrites db₁

theorem appendPdu_persists (hj : j.pdu.authEvents = auth j.pdu.eventId) (leaves : List EventId)
    (hsound : Sound db) (hset : Settled auth db.timeline) :
    Sound (appendPdu env j leaves db).2 ∧
      Changes auth (· = j.pdu.eventId) db (appendPdu env j leaves db).2 := by
  unfold appendPdu
  rw [Comp.bind_ok (Comp.get_run db)]
  cases hw : db.roomidShortroomid j.pdu.roomId with
  | none => exact ⟨hsound, Changes.of_timeline hset rfl id rfl rfl rfl⟩
  | some s =>
    have hb : Blind (Persists auth (· = j.pdu.eventId) j.pdu.roomId s) := persists_blind
    have hrun := hb.bind (storePdu_persists env hj (by rfl) leaves) fun row =>
      hb.bind (afterInsert_keeps hb env (fun _ _ => Persists.of_same rfl rfl rfl rfl rfl)
        (fun _ _ => Persists.of_same rfl rfl rfl rfl rfl)
        (fun _ _ => Persists.of_same rfl rfl rfl rfl rfl)
        (fun _ _ _ _ pdu hv hr => replacePdu_persists pdu hv hr.1) j.pdu s row.1 row.2) fun _ =>
      hb.pure row.1
    obtain ⟨hin, hc⟩ := hrun db ⟨hsound, hw⟩ hset
    exact ⟨hin.sound, hc⟩

/-! ## what becomes of the ancestors -/

/-- the ancestors of an event, if what a new event adds to them was among them -/
theorem ancestor_persists (h : Settled auth db.timeline) (hc : Changes auth New db db') (e : EventId)
    (hnew : ∀ m, New m → HasPdu db.timeline m ∨
      (m = e ∨ Ancestor db e m → ∀ x ∈ auth m, Ancestor db e x)) (x : EventId) :
    Ancestor db' e x ↔ Ancestor db e x := by
  have hup : ∀ y z, AuthEdge db y z → AuthEdge db' y z := fun y z hyz => by
    obtain ⟨hy, hz⟩ := (h.authEdge_iff y z).mp hyz
    exact (hc.settled.authEdge_iff y z).mpr ⟨hc.stays y hy, hz⟩
  -- an edge from an event that is reached leads to an ancestor
  have hdown : ∀ y z, y = e ∨ Ancestor db e y → AuthEdge db' y z → Ancestor db e z := by
    intro y z hy hyz
    obtain ⟨hstored, hz⟩ := (hc.settled.authEdge_iff y z).mp hyz
    have hold : HasPdu db.timeline y → Ancestor db e z := fun hold => by
      have hedge := (h.authEdge_iff y z).mpr ⟨hold, hz⟩
      rcases hy with rfl | hy
      · exact Relation.TransGen.single hedge
      · exact Relation.TransGen.tail hy hedge
    rcases hc.stored y hstored with hy' | hm
    · exact hold hy'
    · rcases hnew y hm with hy' | hin
      · exact hold hy'
      · exact hin hy z hz
  constructor
  · intro hx
    induction hx with
    | single hedge => exact hdown _ _ (Or.inl rfl) hedge
    | tail _ hedge ih => exact hdown _ _ (Or.inr ih) hedge
  · exact Relation.TransGen.mono hup e x

/-- a chain for the event is in a cache -/
def CachedFor (db : Db) (e : EventId) : Prop :=
  (∃ key chain, db.authChainCache key = some chain ∧ KeyOf db.state key e) ∨
    ∃ n bytes, db.shorteventidAuthchain n = some bytes ∧ KeyOf db.state [n] e

theorem Covers.imp {Good' : EventId → Finset EventId → Prop} {S : EventId → Prop} {F : Finset EventId}
    (h : Covers Good S F) (hg : ∀ e, S e → ∀ Fe, Good e Fe → Good' e Fe) :
    Covers Good' S F where
  sound x hx := by
    obtain ⟨e, he, Fe, hF, hxF⟩ := h.sound x hx
    exact ⟨e, he, Fe, hg e he Fe hF, hxF⟩
  complete e he := by
    obtain ⟨Fe, hF, hsub⟩ := h.complete e he
    exact ⟨Fe, hg e he Fe hF, hsub⟩

theorem Chains.imp {Good' : EventId → Finset EventId → Prop} (h : Chains Good db)
    (hg : ∀ e, CachedFor db e → ∀ F, Good e F → Good' e F) : Chains Good' db where
  shorts := h.shorts
  ram key chain hk := by
    obtain ⟨hin, F, hF, hcov⟩ := h.ram key chain hk
    exact ⟨hin, F, hF, hcov.imp fun e he => hg e (Or.inl ⟨key, chain, hk, he⟩)⟩
  rows n bytes hb := by
    obtain ⟨chain, hchain, hin, F, hF, hcov⟩ := h.rows n bytes hb
    exact ⟨chain, hchain, hin, F, hF, hcov.imp fun e he => hg e (Or.inr ⟨n, bytes, hb, he⟩)⟩

/-- the chains are not touched -/
theorem Chains.changes (h : Chains Good db) (hc : Changes auth New db db') : Chains Good db' :=
  h.of_caches (hc.shorts h.shorts) (fun e n he => by rw [hc.short]; exact he) hc.ram hc.chainRows

/-! ## runs -/

/-- what a run is made of -/
inductive ChainOp where
  | query (fuel : Nat) (r : RoomId) (startingEvents : List EventId)
  | evict (keep : List Nat → Bool)
  | room (r : RoomId)
  | addPduOutlier (j : PduJson)
  | appendPdu (j : PduJson) (leaves : List EventId)

def ChainOp.step (db : Db) : ChainOp → Db
  | .query fuel r es => (getAuthChain fuel r es db).2
  | .evict keep => evictChains keep db
  | .room r => (getOrCreateShortroomid r db).2
  | .addPduOutlier j => { db with timeline := db.timeline.addPduOutlier j.pdu.eventId j }
  | .appendPdu j leaves => (Db.appendPdu env j leaves db).2

def chainRun (db : Db) (ops : List ChainOp) : Db := ops.foldl (ChainOp.step env) db

/-- the event that is persisted -/
def ChainOp.persisted : ChainOp → Option PduJson
  | .addPduOutlier j => some j
  | .appendPdu j _ => some j
  | _ => none

/-- an event that is persisted is not missing in a chain of the caches: it was stored before, or an
event with a chain that leads to it has its auth events as ancestors already -/
def InTime (db : Db) (op : ChainOp) : Prop :=
  ∀ j, op.persisted = some j → (∃ pdu, db.getPdu j.pdu.eventId = .ok (some pdu)) ∨
    ∀ e, CachedFor db e → j.pdu.eventId = e ∨ Ancestor db e j.pdu.eventId →
      ∀ a ∈ j.pdu.authEvents, Ancestor db e a

/-- every step of the run meets the condition where it happens -/
def AllInTime : Db → List ChainOp → Prop
  | _, [] => True
  | db, op :: ops => InTime db op ∧ AllInTime (op.step env db) ops

/-- every query of events of its room returns, unless the counter of short ids is at its end, and
what it returns has, for each event that its starting events reach, this event's ancestors -/
structure Complete (db : Db) : Prop where
  contains : ∀ fuel r es chain db', getAuthChain fuel r es db = (.ok chain, db') →
    ∀ e ∈ es, ∀ m, m = e ∨ Ancestor db e m → ∀ a, Ancestor db m a → a ∈ chain
  returns : ∀ r es, (∀ e ∈ es, Uniform db r e) →
    ∃ n, ∀ fuel, n ≤ fuel → Comp.Ends (getAuthChain fuel r es) db (fun _ _ => True)
      (fun err db' => Exhausted err db'.state)

/-- the chains in the caches are those of the store as it is -/
structure Current (auth : EventId → List EventId) (db : Db) : Prop where
  sound : Sound db
  settled : Settled auth db.timeline
  finite : ∃ U : Finset EventId, ∀ e, HasPdu db.timeline e → e ∈ U
  chains : Chains (Exact db) db

theorem current_empty : Current auth Db.empty :=
  ⟨sound_empty, settled_empty, ⟨∅, fun _ he => he.elim (absurd rfl) (absurd rfl)⟩,
    Fresh.chains ⟨shortIds_empty, fun _ => rfl, fun _ => rfl⟩ _⟩

variable {env}

theorem Current.changes (h : Current auth db) (hs : Sound db') (hc : Changes auth New db db')
    (V : Finset EventId) (hV : ∀ m, New m → m ∈ V) (hnew : ∀ m, New m → HasPdu db.timeline m ∨
      ∀ e, CachedFor db e → m = e ∨ Ancestor db e m → ∀ x ∈ auth m, Ancestor db e x) :
    Current auth db' := by
  obtain ⟨U, hU⟩ := h.finite
  refine ⟨hs, hc.settled, ⟨U ∪ V, fun e he => ?_⟩, (h.chains.imp fun e he F hF x => ?_).changes hc⟩
  · exact Finset.mem_union.mpr ((hc.stored e he).imp (hU e) (hV e))
  · rw [ancestor_persists h.settled hc e fun m hm => (hnew m hm).imp_right fun hm => hm e he]
    exact hF x

theorem asks_exact (fuel : Nat) (r : RoomId) (e : EventId) :
    Asks (Exact db) False fuel r db e := ⟨fun _ hF => hF, nofun⟩

theorem grows_quiet : Quiet Grows where
  refl _ h := h
  trans _ _ _ h h' := fun hs => h' (h hs)
  state _ _ hl h := h.congr hl.counter (hl.counter_lt h.counter_lt) rfl rfl
  chains _ _ _ := Grows.of_same rfl rfl rfl
  ratelimiter _ _ := Grows.of_same rfl rfl rfl
  ticks _ _ := Grows.of_same rfl rfl rfl

theorem Current.query {db : Db} (h : Current auth db) (fuel : Nat) (r : RoomId) (es : List EventId) :
    Current auth (getAuthChain fuel r es db).2 := by
  have ht := getAuthChain_timeline fuel r es db
  have hs := getAuthChain_quiet grows_quiet fuel r es db
  refine ⟨hs h.sound, by rw [ht]; exact h.settled, by rw [ht]; exact h.finite, ?_⟩
  have hends := getAuthChain_ends es h.chains fun e _ => asks_exact fuel r e
  have hboth := hends.store (P := fun db' => Chains (Exact db) db' ∧ db'.getPdu = db.getPdu)
    (fun _ _ hres => ⟨hres.1, hres.2.1.reads⟩) fun _ _ herr => ⟨herr.1, herr.2.1.reads⟩
  refine hboth.1.imp fun e _ F hF x => ?_
  rw [ancestor_of_getPdu hboth.2]
  exact hF x

theorem getOrCreateShortroomid_changes (h : Settled auth db.timeline) (r : RoomId) :
    Changes auth (fun _ => False) db (getOrCreateShortroomid r db).2 := by
  unfold getOrCreateShortroomid
  rw [Comp.bind_ok (Comp.get_run db)]
  cases db.roomidShortroomid r with
  | some s => exact Changes.of_timeline h rfl id rfl rfl rfl
  | none =>
    show Changes auth _ db ((nextCount >>= _) db).2
    by_cases hlt : db.state.counter + 1 < 2^64
    · rw [Comp.bind_ok (nextCount_run hlt)]
      exact Changes.of_timeline h rfl (fun hs => shortIds_count hs hlt) rfl rfl rfl
    · rw [Comp.bind_error (nextCount_overflow hlt)]
      exact Changes.of_timeline h rfl id rfl rfl rfl

theorem addPduOutlier_changes (h : Settled auth db.timeline) (hj : j.pdu.authEvents = auth j.pdu.eventId) :
    Changes auth (· = j.pdu.eventId) db
      { db with timeline := db.timeline.addPduOutlier j.pdu.eventId j } := by
  exact ⟨h.addPduOutlier hj, fun _ he => hasPdu_addPduOutlier.mpr (Or.inl he),
    fun _ he => hasPdu_addPduOutlier.mp he, id, rfl, rfl, rfl⟩

/-- the step lemma -/
theorem Current.step {db : Db} (h : Current auth db) (op : ChainOp)
    (hauth : ∀ j, op.persisted = some j → j.pdu.authEvents = auth j.pdu.eventId)
    (hop : InTime db op) : Current auth (op.step env db) := by
  have hnew : ∀ j, op.persisted = some j → ∀ m, m = j.pdu.eventId → HasPdu db.timeline m ∨
      ∀ e, CachedFor db e → m = e ∨ Ancestor db e m → ∀ x ∈ auth m, Ancestor db e x := by
    rintro j hj m rfl
    rw [← hauth j hj]
    refine (hop j hj).imp_left fun hstored => Classical.byContradiction fun hn => ?_
    obtain ⟨pdu, hpdu⟩ := hstored
    rw [h.settled.getPdu_missing hn] at hpdu
    cases hpdu
  cases op with
  | query fuel r es => exact h.query fuel r es
  | evict keep => exact ⟨h.sound, h.settled, h.finite, h.chains.evict keep⟩
  | room r =>
    exact h.changes (getOrCreateShortroomid_sound h.sound r)
      (getOrCreateShortroomid_changes h.settled r) ∅ (fun _ hm => hm.elim) fun _ hm => hm.elim
  | addPduOutlier j =>
    exact h.changes (h.sound.congr (Nat.le_refl _) h.sound.counter_lt rfl rfl)
      (addPduOutlier_changes h.settled (hauth j rfl)) {j.pdu.eventId}
      (fun _ hm => Finset.mem_singleton.mpr hm) (hnew j rfl)
  | appendPdu j leaves =>
    obtain ⟨hs, hc⟩ := appendPdu_persists env (hauth j rfl) leaves h.sound h.settled
    exact h.changes hs hc {j.pdu.eventId} (fun _ hm => Finset.mem_singleton.mpr hm) (hnew j rfl)

theorem Current.run (h : Current auth db) (ops : List ChainOp)
    (hauth : ∀ op ∈ ops, ∀ j, op.persisted = some j → j.pdu.authEvents = auth j.pdu.eventId)
    (hops : AllInTime env db ops) : Current auth (chainRun env db ops) := by
  induction ops generalizing db with
  | nil => exact h
  | cons op ops ih =>
    exact ih (h.step op (hauth op List.mem_cons_self) hops.1)
      (fun o ho => hauth o (List.mem_cons_of_mem _ ho)) hops.2

theorem Current.complete (h : Current auth db) : Complete db where
  contains fuel r es chain db' hrun e he m hm a ha := by
    have hends := getAuthChain_ends es h.chains fun e _ => asks_exact fuel r e
    unfold Comp.Ends at hends
    rw [hrun] at hends
    obtain ⟨-, -, -, F, hmem, hcov⟩ := hends
    obtain ⟨Fe, hFe, hsub⟩ := hcov.complete e he
    refine (hmem a).mpr (hsub ((hFe a).mpr ?_))
    rcases hm with rfl | hm
    · exact ha
    · exact hm.trans ha
  returns r es hroom := by
    obtain ⟨U, hU⟩ := h.finite
    obtain ⟨A, hA⟩ := ancestors_finite U fun e pdu hp => hU e <| Classical.byContradiction fun hn => by
      rw [h.settled.getPdu_missing hn] at hp
      cases hp
    refine ⟨A.card + 1, fun fuel hfuel => ?_⟩
    have hasks : ∀ e ∈ es, Asks (Exact db) True fuel r db e := fun e he =>
      ⟨fun _ hF => hF, fun _ => ⟨hroom e he, A, hA e, hfuel⟩⟩
    exact (getAuthChain_ends es h.chains hasks).imp (fun _ _ _ => trivial)
      fun err db' herr => herr.2.2 trivial

/-- If no event is persisted behind a cached chain that misses what it brings, then in every state
of the run every query returns all ancestors. -/
theorem chainRun_complete (env : Env) (auth : EventId → List EventId) (ops : List ChainOp)
    (hauth : ∀ op ∈ ops, ∀ j, op.persisted = some j → j.pdu.authEvents = auth j.pdu.eventId)
    (hops : AllInTime env .empty ops) : Complete (chainRun env .empty ops) :=
  (current_empty.run ops hauth hops).complete

/-! ### an event that comes late -/

/-- `$a` names `$b`, and `$b` names `$c` -/
def lateAuth (e : EventId) : List EventId :=
  if e = ringA then [ringB] else if e = ringB then [⟨.ascii "$c"⟩] else []

def lateEvent (e : EventId) : ChainOp := .addPduOutlier ⟨[], ringEvent e (lateAuth e)⟩

/-- the events in the order of their auth events, but for the last -/
def inTime : List ChainOp :=
  [lateEvent ringB, lateEvent ringA, .query 3 ringRoom [ringA], lateEvent ⟨.ascii "$c"⟩]

theorem not_cachedFor (hram : db.authChainCache = fun _ => none)
    (hrows : db.shorteventidAuthchain = fun _ => none) (e : EventId) : ¬ CachedFor db e := by
  rintro (⟨key, chain, hk, -⟩ | ⟨n, bytes, hn, -⟩)
  · rw [hram] at hk
    cases hk
  · rw [hrows] at hn
    cases hn

theorem inTime_allInTime : AllInTime .plain .empty inTime := by
  refine ⟨fun j _ => Or.inr fun e he => ?_, fun j _ => Or.inr fun e he => ?_, ?_, ?_, trivial⟩
  · exact absurd he (not_cachedFor rfl rfl e)
  · exact absurd he (not_cachedFor rfl rfl e)
  · intro j hj
    cases hj
  · intro j hj
    cases hj
    exact Or.inr fun _ _ _ a ha => absurd ha List.not_mem_nil

theorem chainRun_complete_inTime : Complete (chainRun .plain .empty inTime) :=
  chainRun_complete .plain lateAuth inTime (by
    intro op hop j hj
    simp only [inTime, List.mem_cons, List.not_mem_nil, or_false] at hop
    rcases hop with rfl | rfl | rfl | rfl <;> cases hj <;> rfl) inTime_allInTime

/-- `$b` arrives after a query that missed it -/
def tooLate : List ChainOp := [lateEvent ringA, .query 3 ringRoom [ringA], lateEvent ringB]

theorem tooLate_timeline : (chainRun .plain .empty tooLate).timeline =
    (TimelineTables.empty.addPduOutlier ringA ⟨[], ringEvent ringA (lateAuth ringA)⟩).addPduOutlier
      ringB ⟨[], ringEvent ringB (lateAuth ringB)⟩ := by
  let db : Db := chainRun .plain .empty [lateEvent ringA]
  have ht := getAuthChain_timeline 3 ringRoom [ringA] db
  show (getAuthChain 3 ringRoom [ringA] db).2.timeline.addPduOutlier ringB _ = _
  rw [ht]
  rfl

theorem tooLate_edge (e a : EventId) (he : e = ringA ∨ e = ringB) (ha : a ∈ lateAuth e) :
    AuthEdge (chainRun .plain .empty tooLate) e a := by
  refine ⟨ringEvent e (lateAuth e), ?_, ha⟩
  rw [getPdu_outlier (by rw [tooLate_timeline]; rfl) (by rw [tooLate_timeline]; rfl), tooLate_timeline]
  rcases he with rfl | rfl <;> rfl

/-- the query is asked while `$b` is missing; after `$b` is stored, the auth chain of `$a` still has
`$b` without its auth event `$c` -/
theorem chainRun_stale :
    (chainRun .plain .empty [lateEvent ringA]).timeline.eventidOutlierpdu ringB = none ∧
      Ancestor (chainRun .plain .empty tooLate) ringA ringB ∧
      Ancestor (chainRun .plain .empty tooLate) ringB ⟨.ascii "$c"⟩ ∧
      (getAuthChain 3 ringRoom [ringA] (chainRun .plain .empty tooLate)).1.toOption = some [ringB] := by
  refine ⟨rfl, Relation.TransGen.single ?_, Relation.TransGen.single ?_, by decide +kernel⟩
  · exact tooLate_edge _ _ (Or.inl rfl) (by decide)
  · exact tooLate_edge _ _ (Or.inr rfl) (by decide)

end

end Db
end Grapevine
