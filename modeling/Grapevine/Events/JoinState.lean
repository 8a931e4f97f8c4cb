import Grapevine.Events.Join
import Grapevine.Lib.Update
import Mathlib.Data.List.ReduceOption

/-!
# What a join takes over

A join makes outliers of all the events in the answer, and makes the state events among them the
state of the room.  Nothing looks at the rooms of the events, and an outlier goes over what is stored
under its id.

* `collectJoin`     the part of `prepareJoin` that goes through the answer;
* `saveJoinState`   the part that saves the collected state and forces it on the room;
* `KeptToRoom`      all events of a state are of the room;
* `Preserved`       no event was replaced.

Main result: `join_takes`.  A join saves a state of the room alone exactly if the last event of every
key is of the room, and replaces no stored event exactly if the answer has nothing else under the id
of one (`join_takes_foreign`).
-/

namespace Grapevine
open Kv

/-! ## short state keys -/

namespace StateDb

variable {eventType : EventType} {stateKey : String} {db : StateDb}

/-- different keys have different short state keys -/
structure DistinctKeys (db : StateDb) : Prop where
  inj : ∀ a b n, db.statekeyShortstatekey a = some n → db.statekeyShortstatekey b = some n → a = b
  le : ∀ a n, db.statekeyShortstatekey a = some n → n ≤ db.counter

/-- the stores that new short state keys, and writes to the other tables, make -/
inductive Interned : StateDb → Prop
  | empty : Interned .empty
  | shortstatekey {db : StateDb} (eventType : EventType) (stateKey : String) : Interned db →
      Interned (getOrCreateShortstatekey eventType stateKey db).2
  | other {db db' : StateDb} : Interned db →
      db'.statekeyShortstatekey = db.statekeyShortstatekey → db.counter ≤ db'.counter → Interned db'

/-- a key gets a short state key, and the others keep theirs -/
structure Keyed (db db' : StateDb) (k : EventType × String) (n : Nat) : Prop where
  key : db'.statekeyShortstatekey k = some n
  others : ∀ a m, db.statekeyShortstatekey a = some m → db'.statekeyShortstatekey a = some m
  distinct : DistinctKeys db → DistinctKeys db'

theorem getOrCreateShortstatekey_keyed {db' : StateDb} {n : Nat}
    (h : getOrCreateShortstatekey eventType stateKey db = (.ok n, db')) :
    Keyed db db' (eventType, stateKey) n := by
  rcases getOrCreateShortstatekey_cases eventType stateKey db with ⟨m, hk, hrun⟩ | ⟨hk, _, hrun⟩ | hrun
  · rw [hrun] at h
    cases h
    exact ⟨hk, fun _ _ => id, id⟩
  · rw [hrun] at h
    cases h
    refine ⟨Function.update_self .., fun a m ha => ?_, fun hd => ⟨fun a b m ha hb => ?_, fun a m ha => ?_⟩⟩
    · show Function.update db.statekeyShortstatekey (eventType, stateKey) _ a = some m
      rwa [Function.update_of_ne]
      rintro rfl
      rw [hk] at ha
      cases ha
    · exact update_some_injective hd.inj (fun k hk => Nat.not_succ_le_self _ (hd.le k _ hk)) a b m ha hb
    · show m ≤ db.counter + 1
      rcases update_some_eq_some.mp ha with ⟨-, rfl⟩ | ⟨-, ha⟩
      · exact le_rfl
      · exact (hd.le a m ha).trans (Nat.le_succ _)
  · rw [hrun] at h
    cases h

/-- only the counter can fail, before anything is written -/
theorem getOrCreateShortstatekey_error {db' : StateDb} {e : Error}
    (h : getOrCreateShortstatekey eventType stateKey db = (.error e, db')) : db' = db := by
  rcases getOrCreateShortstatekey_cases eventType stateKey db with ⟨m, _, hrun⟩ | ⟨_, _, hrun⟩ | hrun
  · rw [hrun] at h
    cases h
  · rw [hrun] at h
    cases h
  · rw [hrun] at h
    cases h
    rfl

theorem Interned.distinct (h : Interned db) : DistinctKeys db := by
  induction h with
  | empty => exact ⟨nofun, nofun⟩
  | @shortstatekey db eventType stateKey _ ih =>
    cases hrun : getOrCreateShortstatekey eventType stateKey db with
    | mk o db' =>
      cases o with
      | ok n => exact (getOrCreateShortstatekey_keyed hrun).distinct ih
      | error e =>
        obtain rfl : db' = db := getOrCreateShortstatekey_error hrun
        exact ih
  | other _ hsame hle ih =>
    refine ⟨fun a b n ha hb => ih.inj a b n (hsame ▸ ha) (hsame ▸ hb), fun a n ha => ?_⟩
    exact (ih.le a n (hsame ▸ ha)).trans hle

end StateDb

namespace Db

variable (env : Env) (fed : Fed)
variable {keys : EventType × String → Option Nat} {js : List PduJson} {state : Tree Nat EventId}
  {answer : SendJoinAnswer} {j : PduJson} {db db' : Db} {r : RoomId} {n : Nat}

/-! ## the answer's events -/

/-- the part of `prepareJoin` that goes through the answer -/
def collectJoin (answer : SendJoinAnswer) : RoomComp (Tree Nat EventId) := do
  Comp.ofExcept answer.signingKeys
  let state ← addJoinState answer.state .empty
  answer.authChain.forM addPduOutlier
  pure state

/-- the part of `prepareJoin` that saves the state and forces it on the room -/
def forceJoinState (r : RoomId) (answer : SendJoinAnswer) (state : Tree Nat EventId) :
    RoomComp Unit := do
  Comp.reads (fun db => db.checkJoinAuth fed answer.version answer.joinEvent.pdu state)
  let compressed ← compressState (fed.entries state)
  let (statehashBeforeJoin, new, _) ← onState (StateDb.saveState env.digest env.ord r compressed)
  forceState env r statehashBeforeJoin new

/-- both parts, with the state that is saved -/
def saveJoinState (r : RoomId) (answer : SendJoinAnswer) : RoomComp (Tree Nat EventId) := do
  let state ← collectJoin answer
  forceJoinState env fed r answer state
  pure state

/-- the key of an event in a room's state -/
def keyOf (j : PduJson) : Option (EventType × String) := j.pdu.stateKey.map (fun k => (j.pdu.kind, k))

/-- the short state key of an event -/
def shortOf (keys : EventType × String → Option Nat) (j : PduJson) : Option Nat := (keyOf j).bind keys

/-- the row that an event makes in a state -/
def placeEvent (keys : EventType × String → Option Nat) (state : Tree Nat EventId) (j : PduJson) :
    Tree Nat EventId :=
  match shortOf keys j with
  | some n => state.insert n j.pdu.eventId
  | none => state

/-- the events that became outliers go over those under their ids -/
def placeOutlier (outliers : EventId → Option PduJson) (j : PduJson) : EventId → Option PduJson :=
  Function.update outliers j.pdu.eventId (some j)

/-- what going through the events `js` has done -/
structure Collected (db : Db) (js : List PduJson) (db' : Db) : Prop where
  keys : ∀ k n, db.state.statekeyShortstatekey k = some n →
    db'.state.statekeyShortstatekey k = some n
  distinct : StateDb.DistinctKeys db.state → StateDb.DistinctKeys db'.state
  outliers : db'.timeline.eventidOutlierpdu = js.foldl placeOutlier db.timeline.eventidOutlierpdu

theorem Collected.refl (db : Db) : Collected db [] db := ⟨fun _ _ => id, id, rfl⟩

theorem Collected.trans {a b c : Db} {js' : List PduJson} (h : Collected a js b) (h' : Collected b js' c) :
    Collected a (js ++ js') c where
  keys k n hk := h'.keys k n (h.keys k n hk)
  distinct hd := h'.distinct (h.distinct hd)
  outliers := by rw [List.foldl_append, ← h.outliers, h'.outliers]

theorem addPduOutlier_collected (j : PduJson) (db : Db) :
    Collected db [j] (addPduOutlier j db).2 := ⟨fun _ _ => id, id, rfl⟩

theorem forM_collected {u : PUnit} (h : js.forM addPduOutlier db = (.ok u, db')) :
    Collected db js db' ∧ db'.state = db.state := by
  induction js generalizing db with
  | nil =>
    cases h
    exact ⟨.refl _, rfl⟩
  | cons j js ih =>
    obtain ⟨_, db₁, hj, h⟩ := Comp.bind_eq_ok.mp h
    cases hj
    obtain ⟨hrest, hsame⟩ := ih h
    exact ⟨(addPduOutlier_collected j db).trans hrest, hsame⟩

theorem insertEvent_collected {state' : Tree Nat EventId}
    (h : insertEvent j.pdu j.pdu.eventId state db = (.ok state', db')) :
    Collected db [] db' ∧ state' = placeEvent db'.state.statekeyShortstatekey state j ∧
      ∀ k, keyOf j = some k → db'.state.statekeyShortstatekey k ≠ none := by
  unfold insertEvent at h
  unfold placeEvent shortOf keyOf
  cases hk : j.pdu.stateKey with
  | none =>
    simp only [hk] at h
    cases h
    exact ⟨.refl _, rfl, nofun⟩
  | some stateKey =>
    simp only [hk] at h
    obtain ⟨n, db₁, hshort, h⟩ := Comp.bind_eq_ok.mp h
    cases h
    unfold onState at hshort
    cases hrun : StateDb.getOrCreateShortstatekey j.pdu.kind stateKey db.state with
    | mk o s =>
      simp only [hrun] at hshort
      cases hshort
      have hkeyed := StateDb.getOrCreateShortstatekey_keyed hrun
      have hkey : s.statekeyShortstatekey (j.pdu.kind, stateKey) = some n := hkeyed.key
      refine ⟨⟨hkeyed.others, hkeyed.distinct, rfl⟩, ?_, fun k hk => ?_⟩
      · simp only [Option.map_some, Option.bind_some, hkey]
      · cases hk
        rw [hkey]
        exact Option.some_ne_none n

/-- a state with rows that were made by earlier tables is one by the last table -/
theorem placeEvent_keys {keys' : EventType × String → Option Nat}
    (hkeys : ∀ k n, keys k = some n → keys' k = some n) (hj : ∀ k, keyOf j = some k → keys k ≠ none)
    (state : Tree Nat EventId) :
    placeEvent keys state j = placeEvent keys' state j := by
  unfold placeEvent shortOf
  cases hk : keyOf j with
  | none => rfl
  | some k =>
    obtain ⟨n, hn⟩ := Option.ne_none_iff_exists'.mp (hj k hk)
    rw [Option.bind_some, Option.bind_some, hn, hkeys k n hn]

theorem addJoinState_collected {events : List (Option PduJson)} {state' : Tree Nat EventId}
    (h : addJoinState events state db = (.ok state', db')) :
    ∃ js, events = js.map some ∧ Collected db js db' ∧
      state' = js.foldl (placeEvent db'.state.statekeyShortstatekey) state ∧
      ∀ j ∈ js, ∀ k, keyOf j = some k → db'.state.statekeyShortstatekey k ≠ none := by
  induction events generalizing state db with
  | nil =>
    cases h
    exact ⟨[], rfl, .refl _, rfl, nofun⟩
  | cons o events ih =>
    cases o with
    | none => cases h
    | some j =>
      obtain ⟨_, db₁, hj, h⟩ := Comp.bind_eq_ok.mp h
      cases hj
      obtain ⟨mid, db₂, hmid, h⟩ := Comp.bind_eq_ok.mp h
      obtain ⟨hinsert, rfl, hkey⟩ := insertEvent_collected hmid
      obtain ⟨js, rfl, hrest, rfl, hkeys⟩ := ih h
      have hkey' : ∀ k, keyOf j = some k → db'.state.statekeyShortstatekey k ≠ none := by
        intro k hk
        obtain ⟨n, hn⟩ := Option.ne_none_iff_exists'.mp (hkey k hk)
        rw [hrest.keys k n hn]
        exact Option.some_ne_none n
      refine ⟨j :: js, rfl, ((addPduOutlier_collected j db).trans hinsert).trans hrest, ?_, ?_⟩
      · rw [List.foldl_cons, placeEvent_keys hrest.keys hkey]
      · intro x hx
        rcases List.mem_cons.mp hx with rfl | hx
        · exact hkey'
        · exact hkeys x hx

theorem collectJoin_collected (h : collectJoin answer db = (.ok state, db')) :
    ∃ js, answer.state = js.map some ∧ Collected db (js ++ answer.authChain) db' ∧
      state = js.foldl (placeEvent db'.state.statekeyShortstatekey) .empty ∧
      ∀ j ∈ js, ∀ k, keyOf j = some k → db'.state.statekeyShortstatekey k ≠ none := by
  obtain ⟨_, db₁, hkeys, h⟩ := Comp.bind_eq_ok.mp h
  obtain ⟨state', db₂, hstate, h⟩ := Comp.bind_eq_ok.mp h
  obtain ⟨_, db₃, hchain, h⟩ := Comp.bind_eq_ok.mp h
  cases h
  obtain rfl : db₁ = db := (congrArg Prod.snd hkeys).symm
  obtain ⟨js, hjs, hcollected, rfl, hassigned⟩ := addJoinState_collected hstate
  obtain ⟨hrest, hsame⟩ := forM_collected hchain
  refine ⟨js, hjs, hcollected.trans hrest, by rw [hsame], fun j hj k hk => ?_⟩
  rw [hsame]
  exact hassigned j hj k hk

/-! ## the last event of a key -/

section
variable {κ : Type} [DecidableEq κ]
variable {f : PduJson → Option κ} {k : κ}

/-- the last of the events with a value of `f` -/
def lastWith (f : PduJson → Option κ) (k : κ) (js : List PduJson) : Option PduJson :=
  js.reverse.find? (fun j => f j = some k)

theorem lastWith_concat (f : PduJson → Option κ) (k : κ) (js : List PduJson) (j : PduJson) :
    lastWith f k (js ++ [j]) = if f j = some k then some j else lastWith f k js := by
  unfold lastWith
  rw [List.reverse_append, List.reverse_singleton, List.singleton_append, List.find?_cons]
  by_cases hj : f j = some k <;> simp [hj]

theorem lastWith_mem (h : lastWith f k js = some j) : j ∈ js ∧ f j = some k := by
  unfold lastWith at h
  exact ⟨List.mem_reverse.mp (List.mem_of_find?_eq_some h), by simpa using List.find?_some h⟩

theorem lastWith_isSome (hj : j ∈ js) (hk : f j = some k) : ∃ l, lastWith f k js = some l := by
  rw [← Option.isSome_iff_exists]
  exact List.find?_isSome.mpr ⟨j, List.mem_reverse.mpr hj, decide_eq_true hk⟩

end

/-- by short state keys, the last events are those by keys -/
theorem lastWith_shortOf (hinj : ∀ a b n, keys a = some n → keys b = some n → a = b) {k : EventType × String}
    (hk : keys k = some n) : lastWith (shortOf keys) n js = lastWith keyOf k js := by
  unfold lastWith
  congr 1
  funext j
  refine decide_eq_decide.mpr ⟨fun h => ?_, fun h => ?_⟩
  · obtain ⟨k', hj, hn⟩ := Option.bind_eq_some_iff.mp h
    rw [hj, hinj k' k n hn hk]
  · exact Option.bind_eq_some_iff.mpr ⟨k, h, hk⟩

theorem placeEvents_get (keys : EventType × String → Option Nat) (js : List PduJson) (n : Nat) :
    (js.foldl (placeEvent keys) .empty).get n =
      (lastWith (shortOf keys) n js).map (fun j => j.pdu.eventId) := by
  induction js using List.reverseRecOn with
  | nil => rfl
  | append_singleton js j ih =>
    rw [List.foldl_append, List.foldl_cons, List.foldl_nil, lastWith_concat]
    generalize js.foldl (placeEvent keys) .empty = state at ih ⊢
    unfold placeEvent
    cases hj : shortOf keys j with
    | none => exact ih
    | some m =>
      by_cases hm : m = n
      · subst hm
        rw [if_pos rfl]
        exact Tree.get_insert_self ..
      · rw [if_neg fun h => hm (Option.some.inj h)]
        show (state.insert m j.pdu.eventId).get n = _
        rw [Tree.get_insert_of_ne _ _ fun h => hm h.symm]
        exact ih

theorem placeOutliers_apply (outliers : EventId → Option PduJson) (js : List PduJson) (e : EventId) :
    js.foldl placeOutlier outliers e =
      ((lastWith (fun j => some j.pdu.eventId) e js).or (outliers e)) := by
  induction js using List.reverseRecOn with
  | nil => rfl
  | append_singleton js j ih =>
    rw [List.foldl_append, List.foldl_cons, List.foldl_nil, lastWith_concat]
    unfold placeOutlier at ih ⊢
    by_cases he : j.pdu.eventId = e
    · subst he
      rw [if_pos rfl, Function.update_self]
      rfl
    · rw [if_neg fun h => he (Option.some.inj h), Function.update_of_ne fun h => he h.symm]
      exact ih

/-! ## what the join keeps apart -/

/-- all events of the answer, as they become outliers -/
def answerEvents (answer : SendJoinAnswer) : List PduJson :=
  answer.state.reduceOption ++ answer.authChain

/-- all events of the state are of the room -/
def KeptToRoom (r : RoomId) (js : List PduJson) (state : Tree Nat EventId) : Prop :=
  ∀ n e, state.get n = some e → ∀ j ∈ js, j.pdu.eventId = e → j.pdu.roomId = r

/-- the last event of every key is of the room -/
def LastOfRoom (r : RoomId) (js : List PduJson) : Prop :=
  ∀ k l, lastWith keyOf k js = some l → ∀ j ∈ js, j.pdu.eventId = l.pdu.eventId → j.pdu.roomId = r

/-- the outliers are still there, and the events are stored as they came -/
def Preserved (db : Db) (js : List PduJson) (db' : Db) : Prop :=
  (∀ e j, db.timeline.eventidOutlierpdu e = some j → db'.timeline.eventidOutlierpdu e = some j) ∧
    ∀ j ∈ js, db'.timeline.eventidOutlierpdu j.pdu.eventId = some j

/-- there is one event under the id of each, among the events and in the store -/
def Unseen (db : Db) (js : List PduJson) : Prop :=
  ∀ j ∈ js, (∀ i, db.timeline.eventidOutlierpdu j.pdu.eventId = some i → i = j) ∧
    ∀ i ∈ js, i.pdu.eventId = j.pdu.eventId → i = j

theorem keptToRoom_iff (hinj : ∀ a b n, keys a = some n → keys b = some n → a = b)
    (hassigned : ∀ j ∈ js, ∀ k, keyOf j = some k → keys k ≠ none) :
    KeptToRoom r js (js.foldl (placeEvent keys) .empty) ↔ LastOfRoom r js := by
  constructor
  · intro h k l hl j hj he
    obtain ⟨hmem, hkey⟩ := lastWith_mem hl
    obtain ⟨n, hn⟩ := Option.ne_none_iff_exists'.mp (hassigned l hmem k hkey)
    refine h n l.pdu.eventId ?_ j hj he
    rw [placeEvents_get, lastWith_shortOf hinj hn, hl]
    rfl
  · intro h n e hget j hj he
    rw [placeEvents_get] at hget
    obtain ⟨l, hl, rfl⟩ := Option.map_eq_some_iff.mp hget
    obtain ⟨k, _, hn⟩ := Option.bind_eq_some_iff.mp (lastWith_mem hl).2
    rw [lastWith_shortOf hinj hn] at hl
    exact h k l hl j hj he

theorem preserved_iff (h : Collected db js db') :
    Preserved db js db' ↔ Unseen db js := by
  unfold Preserved
  rw [h.outliers]
  constructor
  · rintro ⟨hold, hnew⟩ j hj
    refine ⟨fun i hi => ?_, fun i hi he => ?_⟩
    · exact Option.some.inj ((hold _ i hi).symm.trans (hnew j hj))
    · have hstored := hnew i hi
      rw [he] at hstored
      exact Option.some.inj (hstored.symm.trans (hnew j hj))
  · intro hfresh
    have hnew : ∀ j ∈ js, js.foldl placeOutlier db.timeline.eventidOutlierpdu j.pdu.eventId = some j := by
      intro j hj
      obtain ⟨l, hl⟩ := lastWith_isSome (f := fun j : PduJson => some j.pdu.eventId) hj rfl
      obtain ⟨hmem, he⟩ := lastWith_mem hl
      rw [placeOutliers_apply, hl, Option.some_or, (hfresh j hj).2 l hmem (Option.some.inj he)]
    refine ⟨fun e i hi => ?_, hnew⟩
    rw [placeOutliers_apply]
    cases hl : lastWith (fun j : PduJson => some j.pdu.eventId) e js with
    | none => exact hi
    | some l =>
      obtain ⟨hmem, he⟩ := lastWith_mem hl
      obtain rfl : l.pdu.eventId = e := Option.some.inj he
      rw [Option.some_or, (hfresh l hmem).1 i hi]

section
variable {R : Db → Db → Prop} (hq : Quiet R) (hb : Blind R)
  (hm : ∀ (db : Db) t, R db { db with members := t })
  (ha : ∀ (db : Db) t, R db { db with accounts := t })
  (hp : ∀ (db : Db) r s, R db { db with state := { db.state with
    roomidShortstatehash := Function.update db.state.roomidShortstatehash r s } })
include hq hb hm ha hp

theorem forceJoinState_keeps (r : RoomId) (answer : SendJoinAnswer) (state : Tree Nat EventId) :
    Comp.Keeps R (forceJoinState env fed r answer state) :=
  hq.bind (hq.read fun _ => rfl) fun _ => hq.bind (compressState_quiet hq _) fun _ =>
    hq.bind (hq.onState (StateDb.saveState_later _ _ _ _)) fun p =>
      forceState_keeps env hb hm ha hp r p.1 p.2.1

theorem saveJoinState_keeps (r : RoomId) (answer : SendJoinAnswer)
    (ho : ∀ j ∈ answerEvents answer, ∀ db, R db (addPduOutlier j db).2) :
    Comp.Keeps R (saveJoinState env fed r answer) := by
  refine hq.bind ?_ fun state =>
    hq.bind (forceJoinState_keeps env fed hq hb hm ha hp r answer state) fun _ => hq.pure _
  refine hq.bind (hq.read fun _ => rfl) fun _ => hq.bind ?_ fun state => hq.bind ?_ fun _ => hq.pure _
  · refine addJoinState_keeps hq.fetching (fun j hj db => ho j ?_ db) _
    exact List.mem_append_left _ (List.reduceOption_mem_iff.mpr hj)
  · exact Comp.Keeps.forM hq.refl hq.trans _ fun j hj db => ho j (List.mem_append_right _ hj) db

end

theorem sameTimeline_blind : Blind fun db db' : Db => db'.timeline = db.timeline := .events fun t _ => t

/-- saving and forcing the state leaves the outliers as they were collected -/
theorem saveJoinState_collects (h : saveJoinState env fed r answer db = (.ok state, db')) :
    ∃ db₁, collectJoin answer db = (.ok state, db₁) ∧ db'.timeline = db₁.timeline := by
  obtain ⟨state', db₁, hcollect, h⟩ := Comp.bind_eq_ok.mp h
  obtain ⟨_, db₂, hforce, h⟩ := Comp.bind_eq_ok.mp h
  cases h
  have hsame := forceJoinState_keeps env fed sameTimeline_quiet sameTimeline_blind
    (fun _ _ => rfl) (fun _ _ => rfl) (fun _ _ _ => rfl) r answer state db₁
  rw [hforce] at hsame
  exact ⟨db₁, hcollect, hsame⟩

/-- the outliers of a store, in a later one -/
def Holds (db : Db) (d d' : Db) : Prop :=
  (∀ e j, db.timeline.eventidOutlierpdu e = some j → d.timeline.eventidOutlierpdu e = some j) →
    ∀ e j, db.timeline.eventidOutlierpdu e = some j → d'.timeline.eventidOutlierpdu e = some j

theorem holds_quiet (db : Db) : Quiet (Holds db) :=
  ⟨fun _ => id, fun _ _ _ h h' => h' ∘ h, fun _ _ _ => id, fun _ _ _ => id, fun _ _ => id,
    fun _ _ => id⟩

theorem holds_blind (db : Db) : Blind (Holds db) :=
  .of_aside (fun _ _ _ h h' => h' ∘ h) (fun _ _ => id) fun _ _ _ _ _ _ _ _ _ => id

theorem addPduOutlier_holds (h : Unseen db js) (hj : j ∈ js) (d : Db) : Holds db d (addPduOutlier j d).2 := by
  intro hd e i hi
  show Function.update d.timeline.eventidOutlierpdu j.pdu.eventId (some j) e = some i
  by_cases he : e = j.pdu.eventId
  · subst he
    rw [Function.update_self, (h j hj).1 i hi]
  · rw [Function.update_of_ne he]
    exact hd e i hi

/-! ### a join with an event of another room -/

def joinedRoom : RoomId := ⟨.ascii "!a:x"⟩
def foreignRoom : RoomId := ⟨.ascii "!b:x"⟩

def topicEvent (r : RoomId) (content : JsonObject) : PduJson where
  json := [("content", .obj content)]
  pdu := ⟨⟨.ascii "$topic"⟩, r, ⟨.ascii "@u:y"⟩, 0, .other "m.room.topic", content, some "", [], 0, [],
    none, none⟩

def ownJoin : PduJson where
  json := []
  pdu := ⟨⟨.ascii "$join"⟩, joinedRoom, ⟨.ascii "@u:x"⟩, 0, .roomMember, [], some "@u:x", [], 1, [], none,
    none⟩

def topicAnswer (r : RoomId) (content : JsonObject) : SendJoinAnswer where
  version := .v10
  joinEvent := ownJoin
  signingKeys := .ok ()
  state := [some (topicEvent r content)]
  authChain := []

/-- the topic of the other room is an outlier -/
def withTopic : Db := { Db.empty with
  timeline := TimelineTables.empty.addPduOutlier ⟨.ascii "$topic"⟩ (topicEvent foreignRoom []) }

theorem saves_of_get {e : EventId}
    (h : (saveJoinState env fed r answer db).1.toOption.bind (fun state => state.get n) = some e) :
    ∃ state db', saveJoinState env fed r answer db = (.ok state, db') ∧ state.get n = some e := by
  obtain ⟨state, hstate, hget⟩ := Option.bind_eq_some_iff.mp h
  cases hrun : saveJoinState env fed r answer db with
  | mk o db' =>
    rw [hrun] at hstate
    cases o with
    | ok a =>
      cases hstate
      exact ⟨state, db', rfl, hget⟩
    | error e => cases hstate

/-! ## main result -/

theorem join_takes (r : RoomId) (answer : SendJoinAnswer) (db : Db)
    (hdb : StateDb.Interned db.state) :
    (∀ state db', saveJoinState env fed r answer db = (.ok state, db') →
      (KeptToRoom r answer.state.reduceOption state ↔ LastOfRoom r answer.state.reduceOption) ∧
      (Preserved db (answerEvents answer) db' ↔ Unseen db (answerEvents answer))) ∧
    (Unseen db (answerEvents answer) → ∀ e j, db.timeline.eventidOutlierpdu e = some j →
      (saveJoinState env fed r answer db).2.timeline.eventidOutlierpdu e = some j) := by
  refine ⟨fun state db' h => ?_, fun hfresh => ?_⟩
  · obtain ⟨db₁, hcollect, hsame⟩ := saveJoinState_collects env fed h
    obtain ⟨js, hjs, hcollected, rfl, hassigned⟩ := collectJoin_collected hcollect
    have hreduce : answer.state.reduceOption = js := by
      rw [hjs, List.reduceOption, List.filterMap_map]
      exact List.filterMap_some
    have hdistinct := hcollected.distinct hdb.distinct
    refine ⟨?_, ?_⟩
    · rw [hreduce]
      exact keptToRoom_iff hdistinct.inj hassigned
    · unfold answerEvents
      rw [hreduce, ← preserved_iff hcollected]
      unfold Preserved
      rw [hsame]
  · -- also a join that fails on its way
    exact saveJoinState_keeps env fed (holds_quiet db) (holds_blind db) (fun _ _ => id)
      (fun _ _ => id) (fun _ _ _ => id) r answer (fun j hj d => addPduOutlier_holds hfresh hj d) db
      fun _ _ => id

theorem join_takes_own : StateDb.Interned Db.empty.state ∧ ∃ state db',
    saveJoinState .plain .plain joinedRoom (topicAnswer joinedRoom []) .empty = (.ok state, db') ∧
      KeptToRoom joinedRoom [topicEvent joinedRoom []] state ∧
      Preserved .empty [topicEvent joinedRoom []] db' := by
  have htakes := join_takes .plain .plain joinedRoom (topicAnswer joinedRoom []) .empty .empty
  have hget : (saveJoinState .plain .plain joinedRoom (topicAnswer joinedRoom []) .empty
      ).1.toOption.bind (fun state => state.get 1) = some ⟨.ascii "$topic"⟩ := by decide +kernel
  obtain ⟨state, db', hrun, _⟩ := saves_of_get .plain .plain hget
  obtain ⟨hroom, hpreserved⟩ := htakes.1 state db' hrun
  refine ⟨.empty, state, db', hrun, hroom.mpr ?_, hpreserved.mpr ?_⟩
  · intro k l _ j hj _
    obtain rfl := List.mem_singleton.mp hj
    rfl
  · intro j hj
    obtain rfl := List.mem_singleton.mp hj
    exact ⟨nofun, fun i hi _ => List.mem_singleton.mp hi⟩

/-- the state of the room has the topic of another room, and the stored topic was replaced -/
theorem join_takes_foreign : ∃ answer db state db',
    saveJoinState .plain .plain joinedRoom answer db = (.ok state, db') ∧
      ¬ KeptToRoom joinedRoom answer.state.reduceOption state ∧
      ¬ Preserved db (answerEvents answer) db' := by
  have htopic : (saveJoinState .plain .plain joinedRoom (topicAnswer foreignRoom [("topic", .null)])
      withTopic).1.toOption.bind (fun state => state.get 1) = some ⟨.ascii "$topic"⟩ := by
    decide +kernel
  obtain ⟨state, db', hrun, hget⟩ := saves_of_get .plain .plain htopic
  refine ⟨_, _, state, db', hrun, fun h => ?_, fun h => ?_⟩
  · exact absurd (h 1 _ hget _ List.mem_cons_self rfl) (by decide)
  · have hstored := (h.1 ⟨.ascii "$topic"⟩ (topicEvent foreignRoom []) rfl).symm.trans
      (h.2 (topicEvent foreignRoom [("topic", .null)]) List.mem_cons_self)
    cases hstored

end Db

end Grapevine
