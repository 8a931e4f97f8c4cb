import Grapevine.Lib.ReadThrough
import Grapevine.Lib.Runs
import Grapevine.Timeline.Scan

/-!
# The cache of events

`get_pdu` keeps the events that it found in `pdu_cache`.  Of the writers of the timeline, only
`replace_pdu` takes an event out of it.

* `PduTables`     the rows that a lookup goes through, as the objects they hold;
* `Op`, `step`    the calls that read and write them;
* `Op.Evicts`     a write leaves no event in the cache that its row no longer has;
* `RaceState`     one replacement among lookups of the same event, a step at a time.

Main results: `getPdu_serves_rows`, a run of calls serves what is stored exactly as long as all its
writes are of this kind (`getPdu_serves_outlier`).  `replacePdu_final`: after a replacement no lookup
yields the earlier content, as long as no lookup enters what it read before it
(`replacePdu_undone`).
-/

namespace Grapevine
open Kv

/-- the rows of the timeline and of the outliers -/
structure PduTables where
  pduidPdu : Bytes → Option JsonObject
  eventidPduid : EventId → Option Bytes
  eventidOutlierpdu : EventId → Option JsonObject

abbrev PduStore := Cached PduTables EventId PduEvent

section
variable {json : JsonObject} {pdu : PduEvent} {e : EventId}
-- `serde_json::from_slice::<PduEvent>`
variable (fromSlice : JsonObject → Option PduEvent)

/-! ## lookups -/

namespace PduTables

def parse (json : JsonObject) : Except Error PduEvent :=
  match fromSlice json with
  | some pdu => .ok pdu
  | none => .error (.badDatabase "Invalid PDU in db.")

def getNonOutlierPdu (t : PduTables) (e : EventId) : Except Error (Option PduEvent) :=
  match t.eventidPduid e with
  | none => .ok none
  | some id =>
    match t.pduidPdu id with
    | none => .error (.badDatabase "Invalid pduid in eventid_pduid.")
    | some json => (parse fromSlice json).map some

/-- `get_pdu` without the cache -/
def lookup (t : PduTables) (e : EventId) : Except Error (Option PduEvent) :=
  match t.getNonOutlierPdu fromSlice e with
  | .ok (some pdu) => .ok (some pdu)
  | .ok none =>
    match t.eventidOutlierpdu e with
    | none => .ok none
    | some json => (parse fromSlice json).map some
  | .error err => .error err

/-- the row that a lookup of the event finds; the id of an event may have none -/
def row (t : PduTables) (e : EventId) : Option (Option JsonObject) :=
  match t.eventidPduid e with
  | some id => some (t.pduidPdu id)
  | none => (t.eventidOutlierpdu e).map some

def ofRow : Option (Option JsonObject) → Except Error (Option PduEvent)
  | none => .ok none
  | some none => .error (.badDatabase "Invalid pduid in eventid_pduid.")
  | some (some json) => (parse fromSlice json).map some

theorem lookup_eq_ofRow (t : PduTables) (e : EventId) :
    t.lookup fromSlice e = ofRow fromSlice (t.row e) := by
  unfold lookup getNonOutlierPdu row
  cases t.eventidPduid e with
  | some id =>
    cases hj : t.pduidPdu id with
    | none => simp only [hj, ofRow]
    | some json =>
      simp only [hj, ofRow]
      cases parse fromSlice json <;> rfl
  | none => cases hj : t.eventidOutlierpdu e <;> rfl

theorem parse_eq_ok :
    (parse fromSlice json).map some = .ok (some pdu) ↔ fromSlice json = some pdu := by
  unfold parse
  cases fromSlice json with
  | none => exact iff_of_false nofun nofun
  | some pdu' =>
    refine ⟨fun h => ?_, fun h => ?_⟩
    · cases h
      rfl
    · cases h
      rfl

/-! ## writes -/

/-- an event becomes a row of the timeline -/
def putRow (t : PduTables) (id : Bytes) (e : EventId) (json : JsonObject) : PduTables where
  pduidPdu := Function.update t.pduidPdu id (some json)
  eventidPduid := Function.update t.eventidPduid e (some id)
  eventidOutlierpdu := Function.update t.eventidOutlierpdu e none

def appendPdu (t : PduTables) (id : Bytes) (pdu : PduEvent) (json : JsonObject) : PduTables :=
  t.putRow id pdu.eventId json

def prependBackfillPdu (t : PduTables) (id : Bytes) (e : EventId) (json : JsonObject) : PduTables :=
  t.putRow id e json

def replaceRow (t : PduTables) (id : Bytes) (json : JsonObject) : Option PduTables :=
  match t.pduidPdu id with
  | some _ => some { t with pduidPdu := Function.update t.pduidPdu id (some json) }
  | none => none

def addPduOutlier (t : PduTables) (e : EventId) (json : JsonObject) : PduTables :=
  { t with eventidOutlierpdu := Function.update t.eventidOutlierpdu e (some json) }

theorem row_setPdu (t : PduTables) (id : Bytes) (json : JsonObject) (k : EventId) :
    row { t with pduidPdu := Function.update t.pduidPdu id (some json) } k =
      if t.eventidPduid k = some id then some (some json) else t.row k := by
  unfold row
  cases hid : t.eventidPduid k with
  | none => simp only [reduceCtorEq, if_false]
  | some id' =>
    by_cases he : id' = id
    · subst he
      simp only [Function.update_self, if_true]
    · simp only [Function.update_of_ne he, Option.some.injEq, he, if_false]

theorem putRow_row (t : PduTables) (id : Bytes) (e : EventId) (json : JsonObject) (k : EventId) :
    (t.putRow id e json).row k =
      if k = e ∨ t.eventidPduid k = some id then some (some json) else t.row k := by
  unfold putRow row
  by_cases hk : k = e
  · subst hk
    simp only [Function.update_self, true_or, if_true]
  · simp only [Function.update_of_ne hk, hk, false_or]
    exact t.row_setPdu id json k

theorem addPduOutlier_row (t : PduTables) (e : EventId) (json : JsonObject) (k : EventId) :
    (t.addPduOutlier e json).row k =
      if k = e ∧ t.eventidPduid k = none then some (some json) else t.row k := by
  unfold addPduOutlier row
  cases hid : t.eventidPduid k with
  | some id => simp only [reduceCtorEq, and_false, if_false]
  | none =>
    by_cases hk : k = e
    · subst hk
      simp only [Function.update_self, and_self, if_true, Option.map_some]
    · simp only [Function.update_of_ne hk, hk, false_and, if_false]

theorem replaceRow_row {t t' : PduTables} {id : Bytes} (h : t.replaceRow id json = some t') (k : EventId) :
    t'.row k = if t.eventidPduid k = some id then some (some json) else t.row k := by
  unfold replaceRow at h
  split at h
  · cases h
    exact t.row_setPdu id json k
  · cases h

end PduTables

/-! ## calls -/

inductive PduOp where
  | getPdu (e : EventId)
  | addPduOutlier (e : EventId) (json : JsonObject)
  | appendPdu (id : Bytes) (pdu : PduEvent) (json : JsonObject)
  | prependBackfillPdu (id : Bytes) (e : EventId) (json : JsonObject)
  | replacePdu (id : Bytes) (json : JsonObject) (pdu : PduEvent)
  | clearCaches
  /-- the cache is full, and an entry leaves it -/
  | evict (e : EventId)

namespace PduStore

variable {cache : EventId → Option PduEvent} {s : PduStore}

def getPdu (s : PduStore) (e : EventId) : Except Error (Option PduEvent) × PduStore :=
  s.read (PduTables.lookup fromSlice) e

def replacePdu (s : PduStore) (id : Bytes) (json : JsonObject) (pdu : PduEvent) :
    Except Error Unit × PduStore :=
  match s.store.replaceRow id json with
  | some t => (.ok (), ⟨t, Function.update s.cache pdu.eventId none⟩)
  | none => (.error (.badRequest .notFound "PDU does not exist."), s)

def step (s : PduStore) : PduOp → PduStore
  | .getPdu e => (s.getPdu fromSlice e).2
  | .addPduOutlier e json => { s with store := s.store.addPduOutlier e json }
  | .appendPdu id pdu json => { s with store := s.store.appendPdu id pdu json }
  | .prependBackfillPdu id e json => { s with store := s.store.prependBackfillPdu id e json }
  | .replacePdu id json pdu => (s.replacePdu id json pdu).2
  | .clearCaches => { s with cache := fun _ => none }
  | .evict e => { s with cache := Function.update s.cache e none }

def run (s : PduStore) (ops : List PduOp) : PduStore := ops.foldl (step fromSlice) s

/-- every lookup yields what is stored -/
def Serves (s : PduStore) : Prop := ∀ e, (s.getPdu fromSlice e).1 = s.store.lookup fromSlice e

/-- the events that are in the cache and whose row the call writes have been read from such a row -/
def Agrees (s : PduStore) (writes : EventId → Prop) (json : JsonObject) : Prop :=
  ∀ e pdu, s.cache e = some pdu → writes e → fromSlice json = some pdu

/-- the call leaves nothing in the cache that its row no longer has -/
def Evicts (s : PduStore) : PduOp → Prop
  | .addPduOutlier e json =>
    s.Agrees fromSlice (fun k => k = e ∧ s.store.eventidPduid k = none) json
  | .appendPdu id pdu json =>
    s.Agrees fromSlice (fun k => k = pdu.eventId ∨ s.store.eventidPduid k = some id) json
  | .prependBackfillPdu id e json =>
    s.Agrees fromSlice (fun k => k = e ∨ s.store.eventidPduid k = some id) json
  | .replacePdu id json pdu => s.store.pduidPdu id ≠ none →
    s.Agrees fromSlice (fun k => k ≠ pdu.eventId ∧ s.store.eventidPduid k = some id) json
  | _ => True

def AllEvict (s : PduStore) : List PduOp → Prop
  | [] => True
  | op :: ops => s.Evicts fromSlice op ∧ AllEvict (s.step fromSlice op) ops

variable {fromSlice}

theorem serves_iff :
    s.Serves fromSlice ↔ Cached.Coherent (PduTables.lookup fromSlice) s := Cached.coherent_iff.symm

/-- a write to rows, with what it takes out of the cache -/
theorem serves_write (h : s.Serves fromSlice) {t : PduTables} {writes : EventId → Prop} [DecidablePred writes]
    (hsub : ∀ e pdu, cache e = some pdu → s.cache e = some pdu)
    (hrow : ∀ e, t.row e = if writes e then some (some json) else s.store.row e) :
    Serves fromSlice ⟨t, cache⟩ ↔
      ∀ e pdu, cache e = some pdu → writes e → fromSlice json = some pdu := by
  have hwrite := Cached.coherent_write (t := t) (serves_iff.mp h) hsub writes
    fun e he => by rw [PduTables.lookup_eq_ofRow, hrow, if_neg he, ← PduTables.lookup_eq_ofRow]
  rw [serves_iff, hwrite]
  refine forall_congr' fun e => forall_congr' fun pdu => forall_congr' fun _ => forall_congr' fun he => ?_
  rw [PduTables.lookup_eq_ofRow, hrow, if_pos he]
  exact PduTables.parse_eq_ok fromSlice

theorem update_none_iff {k : EventId} :
    Function.update cache e none k = some pdu ↔ k ≠ e ∧ cache k = some pdu := by
  by_cases hk : k = e
  · subst hk
    rw [Function.update_self]
    exact iff_of_false nofun fun h => h.1 rfl
  · rw [Function.update_of_ne hk]
    exact (and_iff_right hk).symm

theorem serves_putRow (h : s.Serves fromSlice) (id : Bytes) (e : EventId) (json : JsonObject) :
    Serves fromSlice { s with store := s.store.putRow id e json } ↔
      s.Agrees fromSlice (fun k => k = e ∨ s.store.eventidPduid k = some id) json :=
  serves_write h (fun _ _ hk => hk) (s.store.putRow_row id e json)

/-- one call, from a store that serves its rows -/
theorem serves_step_iff (h : s.Serves fromSlice) (op : PduOp) :
    (s.step fromSlice op).Serves fromSlice ↔ s.Evicts fromSlice op := by
  cases op with
  | getPdu e => exact iff_of_true (serves_iff.mpr (Cached.coherent_read (serves_iff.mp h) e)) trivial
  | addPduOutlier e json =>
    exact serves_write h (fun _ _ hk => hk) (s.store.addPduOutlier_row e json)
  | appendPdu id pdu json => exact serves_putRow h id pdu.eventId json
  | prependBackfillPdu id e json => exact serves_putRow h id e json
  | replacePdu id json pdu =>
    show (s.replacePdu id json pdu).2.Serves fromSlice ↔ (s.store.pduidPdu id ≠ none → _)
    unfold replacePdu
    cases ht : s.store.replaceRow id json with
    | none =>
      have hnone : s.store.pduidPdu id = none := by
        unfold PduTables.replaceRow at ht
        split at ht
        · cases ht
        · assumption
      exact iff_of_true h fun hn => absurd hnone hn
    | some t =>
      have hsome : s.store.pduidPdu id ≠ none := by
        unfold PduTables.replaceRow at ht
        split at ht
        · next hj => rw [hj]; exact Option.some_ne_none _
        · cases ht
      rw [forall_prop_of_true hsome]
      refine (serves_write h (fun k p hk => (update_none_iff.mp hk).2)
        (PduTables.replaceRow_row ht)).trans ?_
      refine forall_congr' fun k => forall_congr' fun p => ?_
      rw [update_none_iff, and_imp]
      constructor
      · intro hc hk hw
        exact hc hw.1 hk hw.2
      · intro hc hne hk hid
        exact hc hk ⟨hne, hid⟩
  | clearCaches => exact iff_of_true (serves_iff.mpr (Cached.coherent_empty s.store)) trivial
  | evict e =>
    refine iff_of_true (serves_iff.mpr (Cached.coherent_shrink (serves_iff.mp h) fun k p hk => ?_)) trivial
    exact (update_none_iff.mp hk).2

theorem serves_run_iff (h : s.Serves fromSlice) (ops : List PduOp) :
    (∀ pre, pre <+: ops → (s.run fromSlice pre).Serves fromSlice) ↔ s.AllEvict fromSlice ops := by
  induction ops generalizing s with
  | nil =>
    refine iff_of_true (fun pre hpre => ?_) trivial
    rw [List.prefix_nil.mp hpre]
    exact h
  | cons op ops ih =>
    constructor
    · intro hall
      have hstep : (s.step fromSlice op).Serves fromSlice := hall [op] ⟨ops, rfl⟩
      refine ⟨(serves_step_iff h op).mp hstep, (ih hstep).mp fun pre hpre => ?_⟩
      exact hall (op :: pre) (List.cons_prefix_cons.mpr ⟨rfl, hpre⟩)
    · rintro ⟨hop, hops⟩ pre hpre
      cases pre with
      | nil => exact h
      | cons op' pre =>
        obtain ⟨rfl, hrest⟩ := List.cons_prefix_cons.mp hpre
        exact (ih ((serves_step_iff h op').mpr hop)).mpr hops pre hrest

end PduStore

/-! ## the tables of the timeline -/

namespace TimelineTables

variable {t : TimelineTables}

def pduStore (t : TimelineTables) : PduStore where
  store := ⟨fun id => (t.pduidPdu.get id).map PduJson.json, t.eventidPduid,
    fun e => (t.eventidOutlierpdu e).map PduJson.json⟩
  cache := t.pduCache

/-- every object is read as the event that it stands for -/
structure Parsed (fromSlice : JsonObject → Option PduEvent) (t : TimelineTables) : Prop where
  rows : ∀ id j, t.pduidPdu.get id = some j → fromSlice j.json = some j.pdu
  outliers : ∀ e j, t.eventidOutlierpdu e = some j → fromSlice j.json = some j.pdu

theorem Parsed.lookup (h : t.Parsed fromSlice) (e : EventId) :
    t.pduStore.store.lookup fromSlice e = (t.getPduJson e).map (fun o => o.map PduJson.pdu) := by
  rw [PduTables.lookup_eq_ofRow]
  unfold PduTables.row pduStore getPduJson getNonOutlierPduJson
  cases hid : t.eventidPduid e with
  | some id =>
    cases hj : t.pduidPdu.get id with
    | none => simp [hid, hj, PduTables.ofRow, Except.map]
    | some j => simp [hid, hj, PduTables.ofRow, PduTables.parse, h.rows id j hj, Except.map]
  | none =>
    cases hj : t.eventidOutlierpdu e with
    | none => simp [hid, hj, PduTables.ofRow, Except.map]
    | some j => simp [hid, hj, PduTables.ofRow, PduTables.parse, h.outliers e j hj, Except.map]

theorem Parsed.getPdu (h : t.Parsed fromSlice) (e : EventId) :
    t.pduStore.getPdu fromSlice e = ((t.getPdu e).1, (t.getPdu e).2.pduStore) := by
  unfold PduStore.getPdu TimelineTables.getPdu
  cases hc : t.pduCache e with
  | some pdu => exact Cached.read_hit _ hc
  | none =>
    have hmiss : t.pduStore.cache e = none := hc
    unfold Cached.read
    rw [hmiss, h.lookup]
    cases t.getPduJson e with
    | error err => rfl
    | ok o => cases o <;> rfl

theorem get_insert_update {ν ν' : Type} (t : Tree Bytes ν) (id : Bytes) (v : ν) (f : ν → ν') :
    (fun k => ((t.insert id v).get k).map f) =
      Function.update (fun k => (t.get k).map f) id (some (f v)) := by
  funext k
  by_cases hk : k = id
  · subst hk
    rw [Function.update_self, Tree.get_insert_self]
    rfl
  · rw [Function.update_of_ne hk, Tree.get_insert_of_ne _ _ hk]

theorem map_update {ν ν' : Type} (g : EventId → Option ν) (e : EventId) (o : Option ν) (f : ν → ν') :
    (fun k => (Function.update g e o k).map f) = Function.update (fun k => (g k).map f) e (o.map f) := by
  funext k
  by_cases hk : k = e
  · subst hk
    rw [Function.update_self, Function.update_self]
  · rw [Function.update_of_ne hk, Function.update_of_ne hk]

theorem pduStore_putRow {t' : TimelineTables} {id : Bytes} {j : PduJson}
    (hrows : t'.pduidPdu = t.pduidPdu.insert id j)
    (hids : t'.eventidPduid = Function.update t.eventidPduid e (some id))
    (houtliers : t'.eventidOutlierpdu = Function.update t.eventidOutlierpdu e none)
    (hcache : t'.pduCache = t.pduCache) :
    t'.pduStore = { t.pduStore with store := t.pduStore.store.putRow id e j.json } := by
  unfold pduStore PduTables.putRow
  rw [hrows, hids, houtliers, hcache, get_insert_update, map_update]
  rfl

theorem appendPdu_pduStore (t : TimelineTables) (id : Bytes) (pdu : PduEvent) (j : PduJson) (count : Nat) :
    (t.appendPdu id pdu j count).pduStore = t.pduStore.step fromSlice (.appendPdu id pdu j.json) :=
  pduStore_putRow rfl rfl rfl rfl

theorem prependBackfillPdu_pduStore (t : TimelineTables) (id : Bytes) (e : EventId) (j : PduJson) :
    (t.prependBackfillPdu id e j).pduStore =
      t.pduStore.step fromSlice (.prependBackfillPdu id e j.json) :=
  pduStore_putRow rfl rfl rfl rfl

theorem addPduOutlier_pduStore (t : TimelineTables) (e : EventId) (j : PduJson) :
    (t.addPduOutlier e j).pduStore = t.pduStore.step fromSlice (.addPduOutlier e j.json) := by
  unfold pduStore addPduOutlier
  rw [map_update]
  rfl

theorem replacePdu_pduStore (t : TimelineTables) (id : Bytes) (j : PduJson) (pdu : PduEvent) :
    ((t.replacePdu id j pdu).toOption.getD t).pduStore =
      t.pduStore.step fromSlice (.replacePdu id j.json pdu) := by
  show _ = (t.pduStore.replacePdu id j.json pdu).2
  unfold PduStore.replacePdu PduTables.replaceRow replacePdu
  cases hj : t.pduidPdu.get id with
  | none => simp [pduStore, hj, Except.toOption]
  | some old =>
    simp only [pduStore, hj, Option.map_some, Except.toOption, Option.getD_some]
    rw [get_insert_update]

end TimelineTables

/-! ## runs of calls -/

/-- from any rows, with nothing in the cache -/
theorem getPdu_serves_rows (t : PduTables) (ops : List PduOp) :
    (∀ pre, pre <+: ops → PduStore.Serves fromSlice (PduStore.run fromSlice ⟨t, fun _ => none⟩ pre)) ↔
      PduStore.AllEvict fromSlice ⟨t, fun _ => none⟩ ops :=
  PduStore.serves_run_iff (PduStore.serves_iff.mpr (Cached.coherent_empty t)) ops

/-! ### an outlier becomes a timeline event -/

def cachedId : EventId := ⟨.ascii "$e"⟩

/-- the event that an object holds, which differs in what stands under `unsigned` -/
def pduOf (json : JsonObject) : PduEvent :=
  ⟨cachedId, ⟨.ascii "!r:x"⟩, ⟨.ascii "@u:x"⟩, 0, .roomMember, [], some "@u:x", [], 0, [], none, some json⟩

def withPrevContent : JsonObject := [("unsigned", .obj [("prev_content", .obj [])])]

/-- an outlier that is looked up, and appended with the content that it replaces -/
def promotion : List PduOp :=
  [.addPduOutlier cachedId [], .getPdu cachedId, .appendPdu [] (pduOf []) withPrevContent]

theorem getPdu_serves_outlier : ¬ ∀ (fromSlice : JsonObject → Option PduEvent) (t : PduTables)
    (ops : List PduOp), PduStore.Serves fromSlice (PduStore.run fromSlice ⟨t, fun _ => none⟩ ops) := by
  intro h
  have hserves := h (fun json => some (pduOf json)) ⟨fun _ => none, fun _ => none, fun _ => none⟩
    promotion cachedId
  have hread : ((Except.ok (some (pduOf [])) : Except Error (Option PduEvent))) =
      .ok (some (pduOf withPrevContent)) := hserves
  cases hread

end

/-! ## a replacement among lookups -/

/-- how far the replacement is -/
inductive Phase where
  | before
  | written
  | returned
  | failed

/-- how far a lookup is; `loaded` has the event, and how far the replacement was when it was read -/
inductive GetStage where
  | started
  | missed
  | loaded (pdu : PduEvent) (read : Phase)

/-- a lookup, and whether the replacement had returned when it started -/
structure PduGet where
  late : Bool
  stage : GetStage

structure RaceState where
  store : PduStore
  phase : Phase
  gets : List PduGet
  results : List (Bool × Except Error (Option PduEvent))

inductive RaceStep where
  | start
  | hit
  | miss
  | load
  | absent
  /-- the lookup enters in the cache what it read -/
  | fill (read : Phase)
  | write
  | reject
  /-- the replaced event leaves the cache, and the replacement returns -/
  | done
  | evict

section
variable (fromSlice : JsonObject → Option PduEvent) (e : EventId) (id : Bytes) (json : JsonObject)
variable {s : RaceState} {a : RaceStep} {gets : List PduGet} {phase : Phase} {late : Bool}
  {g : PduGet}

/-- `replace_pdu` of the event `e`, and lookups of `e`, step by step -/
inductive Race : RaceStep → RaceState → RaceState → Prop
  | start {s : RaceState} (late : Bool) : (late = true ↔ s.phase = .returned) →
      Race .start s { s with gets := ⟨late, .started⟩ :: s.gets }
  | hit {s : RaceState} {late : Bool} {rest : List PduGet} {pdu : PduEvent} :
      s.gets.Perm (⟨late, .started⟩ :: rest) → s.store.cache e = some pdu →
      Race .hit s { s with gets := rest, results := (late, .ok (some pdu)) :: s.results }
  | miss {s : RaceState} {late : Bool} {rest : List PduGet} :
      s.gets.Perm (⟨late, .started⟩ :: rest) → s.store.cache e = none →
      Race .miss s { s with gets := ⟨late, .missed⟩ :: rest }
  | load {s : RaceState} {late : Bool} {rest : List PduGet} {pdu : PduEvent} :
      s.gets.Perm (⟨late, .missed⟩ :: rest) → s.store.store.lookup fromSlice e = .ok (some pdu) →
      Race .load s { s with gets := ⟨late, .loaded pdu s.phase⟩ :: rest }
  | absent {s : RaceState} {late : Bool} {rest : List PduGet} :
      s.gets.Perm (⟨late, .missed⟩ :: rest) → (∀ pdu, s.store.store.lookup fromSlice e ≠ .ok (some pdu)) →
      Race .absent s { s with
        gets := rest, results := (late, s.store.store.lookup fromSlice e) :: s.results }
  | fill {s : RaceState} {late : Bool} {rest : List PduGet} {pdu : PduEvent} {read : Phase} :
      s.gets.Perm (⟨late, .loaded pdu read⟩ :: rest) →
      Race (.fill read) s { s with
        store := ⟨s.store.store, Function.update s.store.cache e (some pdu)⟩
        gets := rest, results := (late, .ok (some pdu)) :: s.results }
  | write {s : RaceState} {t : PduTables} : s.phase = .before →
      s.store.store.replaceRow id json = some t →
      Race .write s { s with store := ⟨t, s.store.cache⟩, phase := .written }
  | reject {s : RaceState} : s.phase = .before → s.store.store.replaceRow id json = none →
      Race .reject s { s with phase := .failed }
  | done {s : RaceState} : s.phase = .written →
      Race .done s { s with
        store := ⟨s.store.store, Function.update s.store.cache e none⟩, phase := .returned }
  | evict {s : RaceState} :
      Race .evict s { s with store := ⟨s.store.store, Function.update s.store.cache e none⟩ }

/-- the event has a row in the timeline, and the cache serves what is stored -/
structure Opened (old : JsonObject) (s : RaceState) : Prop where
  pduid : s.store.store.eventidPduid e = some id
  row : s.store.store.pduidPdu id = some old
  serves : s.store.Serves fromSlice
  phase : s.phase = .before
  gets : s.gets = []
  results : s.results = []

/-- what a lookup has read before the replacement is not entered once this has returned -/
def Prompt : RaceStep → RaceState → Prop
  | .fill .before, s => s.phase ≠ .returned
  | _, _ => True

/-- lookups from the return of the replacement on yield its content -/
def RaceState.Final (s : RaceState) : Prop :=
  ∀ r, (true, r) ∈ s.results → r = PduTables.ofRow fromSlice (some (some json))

/-! ### the invariant -/

/-- what the row holds -/
def Phase.content (old : JsonObject) : Phase → JsonObject
  | .before | .failed => old
  | .written | .returned => json

variable {fromSlice} {e} {id} {json} {old : JsonObject}

structure GetOk (fromSlice : JsonObject → Option PduEvent) (json old : JsonObject) (phase : Phase)
    (g : PduGet) : Prop where
  late : g.late = true → phase = .returned
  read : ∀ pdu read, g.stage = .loaded pdu read → fromSlice (read.content json old) = some pdu
  lateRead : ∀ pdu read, g.stage = .loaded pdu read → g.late = true → read = .returned
  failed : ∀ pdu, g.stage = .loaded pdu .failed → phase = .failed

structure RaceInv (fromSlice : JsonObject → Option PduEvent) (e : EventId) (id : Bytes)
    (json old : JsonObject) (s : RaceState) : Prop where
  pduid : s.store.store.eventidPduid e = some id
  row : s.store.store.pduidPdu id = some (s.phase.content json old)
  gets : ∀ g ∈ s.gets, GetOk fromSlice json old s.phase g

theorem RaceInv.lookup (h : RaceInv fromSlice e id json old s) :
    s.store.store.lookup fromSlice e =
      PduTables.ofRow fromSlice (some (some (s.phase.content json old))) := by
  rw [PduTables.lookup_eq_ofRow]
  unfold PduTables.row
  rw [h.pduid]
  show PduTables.ofRow fromSlice (some (s.store.store.pduidPdu id)) = _
  rw [h.row]

/-- the lookup at the head, and the others -/
theorem RaceInv.perm (h : RaceInv fromSlice e id json old s) {rest : List PduGet} (hp : s.gets.Perm (g :: rest)) :
    GetOk fromSlice json old s.phase g ∧ ∀ g ∈ rest, GetOk fromSlice json old s.phase g :=
  ⟨h.gets g (hp.mem_iff.mpr List.mem_cons_self),
    fun g hg => h.gets g (hp.mem_iff.mpr (List.mem_cons_of_mem _ hg))⟩

theorem GetOk.idle (h : late = true → phase = .returned) {stage : GetStage}
    (hs : stage = .started ∨ stage = .missed) :
    GetOk fromSlice json old phase ⟨late, stage⟩ := by
  have hno : ∀ pdu read, stage ≠ .loaded pdu read := by
    intro pdu read hl
    rw [hl] at hs
    rcases hs with hs | hs <;> cases hs
  exact ⟨h, fun pdu read hl => absurd hl (hno pdu read), fun pdu read hl => absurd hl (hno pdu read),
    fun pdu hl => absurd hl (hno pdu .failed)⟩

/-- while the replacement goes on there is no late lookup, and it did not fail -/
theorem GetOk.advance {phase' : Phase} (h : GetOk fromSlice json old phase g) (hr : phase ≠ .returned)
    (hf : phase ≠ .failed) : GetOk fromSlice json old phase' g :=
  ⟨fun hl => absurd (h.late hl) hr, h.read, h.lateRead, fun pdu hl => absurd (h.failed pdu hl) hf⟩

theorem raceInv_opened (h : Opened fromSlice e id old s) :
    RaceInv fromSlice e id json old s := by
  refine ⟨h.pduid, ?_, ?_⟩
  · rw [h.phase]
    exact h.row
  · rw [h.gets]
    exact fun _ hg => absurd hg List.not_mem_nil

theorem raceInv_step {s' : RaceState} (h : RaceInv fromSlice e id json old s)
    (hs : Race fromSlice e id json a s s') : RaceInv fromSlice e id json old s' := by
  cases hs with
  | start late hlate =>
    refine ⟨h.pduid, h.row, fun g hg => ?_⟩
    rcases List.mem_cons.mp hg with rfl | hg
    · exact GetOk.idle hlate.mp (Or.inl rfl)
    · exact h.gets g hg
  | hit hperm hc => exact ⟨h.pduid, h.row, (h.perm hperm).2⟩
  | miss hperm hc =>
    obtain ⟨hg, hrest⟩ := h.perm hperm
    refine ⟨h.pduid, h.row, fun g' hg' => ?_⟩
    rcases List.mem_cons.mp hg' with rfl | hg'
    · exact GetOk.idle hg.late (Or.inr rfl)
    · exact hrest g' hg'
  | load hperm hl =>
    obtain ⟨hg, hrest⟩ := h.perm hperm
    refine ⟨h.pduid, h.row, fun g' hg' => ?_⟩
    rcases List.mem_cons.mp hg' with rfl | hg'
    · refine ⟨hg.late, fun pdu' read hr => ?_, fun pdu' read hr hlate => ?_, fun pdu' hr => ?_⟩
      · cases hr
        rw [h.lookup] at hl
        exact (PduTables.parse_eq_ok fromSlice).mp hl
      · cases hr
        exact hg.late hlate
      · exact (GetStage.loaded.inj hr).2
    · exact hrest g' hg'
  | absent hperm _ => exact ⟨h.pduid, h.row, (h.perm hperm).2⟩
  | fill hperm => exact ⟨h.pduid, h.row, (h.perm hperm).2⟩
  | write hphase ht =>
    unfold PduTables.replaceRow at ht
    rw [h.row] at ht
    cases ht
    refine ⟨h.pduid, Function.update_self .., fun g hg => (h.gets g hg).advance ?_ ?_⟩
    · rw [hphase]
      nofun
    · rw [hphase]
      nofun
  | reject hphase ht =>
    unfold PduTables.replaceRow at ht
    rw [h.row] at ht
    cases ht
  | done hphase =>
    refine ⟨h.pduid, ?_, fun g hg => (h.gets g hg).advance ?_ ?_⟩
    · show s.store.store.pduidPdu id = _
      rw [h.row, hphase]
      rfl
    · rw [hphase]
      nofun
    · rw [hphase]
      nofun
  | evict => exact ⟨h.pduid, h.row, h.gets⟩

/-- once the replacement has returned, the cache has nothing but what it wrote -/
def CacheNew (fromSlice : JsonObject → Option PduEvent) (e : EventId) (json : JsonObject)
    (s : RaceState) : Prop :=
  s.phase = .returned → ∀ pdu, s.store.cache e = some pdu → fromSlice json = some pdu

theorem cacheNew_evicted (s : RaceState) (phase : Phase) (gets : List PduGet) :
    CacheNew fromSlice e json ⟨⟨s.store.store, Function.update s.store.cache e none⟩, phase, gets,
      s.results⟩ := by
  intro _ pdu hc
  change Function.update s.store.cache e none e = some pdu at hc
  rw [Function.update_self] at hc
  cases hc

theorem cacheNew_step {s' : RaceState} (h : RaceInv fromSlice e id json old s)
    (hc : CacheNew fromSlice e json s) (hs : Race fromSlice e id json a s s') (hp : Prompt a s) :
    CacheNew fromSlice e json s' := by
  cases hs with
  | start late hlate => exact hc
  | hit hperm _ => exact hc
  | miss hperm _ => exact hc
  | load hperm hl => exact hc
  | absent hperm _ => exact hc
  | @fill _ late rest pdu read hperm =>
    intro hret pdu' hcache
    change Function.update s.store.cache e (some pdu) e = some pdu' at hcache
    rw [Function.update_self] at hcache
    cases hcache
    obtain ⟨hg, _⟩ := h.perm hperm
    have hread := hg.read pdu read rfl
    change s.phase = .returned at hret
    cases read with
    | before => exact absurd hret hp
    | failed =>
      rw [hg.failed pdu rfl] at hret
      cases hret
    | written => exact hread
    | returned => exact hread
  | write hphase ht => exact nofun
  | reject hphase ht => exact nofun
  | done hphase => exact cacheNew_evicted s _ _
  | evict => exact cacheNew_evicted s _ _

theorem final_cons (h : s.Final fromSlice json) {r : Except Error (Option PduEvent)}
    (hr : late = true → r = PduTables.ofRow fromSlice (some (some json))) {store : PduStore} :
    RaceState.Final fromSlice json ⟨store, phase, gets, (late, r) :: s.results⟩ := by
  intro r' hr'
  rcases List.mem_cons.mp hr' with heq | hr'
  · cases heq
    exact hr rfl
  · exact h r' hr'

theorem final_step {s' : RaceState} (h : RaceInv fromSlice e id json old s) (hc : CacheNew fromSlice e json s)
    (hf : s.Final fromSlice json) (hs : Race fromSlice e id json a s s') : s'.Final fromSlice json := by
  cases hs with
  | start late hlate => exact hf
  | hit hperm hcache =>
    obtain ⟨hg, _⟩ := h.perm hperm
    exact final_cons hf fun hl => ((PduTables.parse_eq_ok fromSlice).mpr (hc (hg.late hl) _ hcache)).symm
  | miss hperm _ => exact hf
  | load hperm hl => exact hf
  | absent hperm _ =>
    obtain ⟨hg, _⟩ := h.perm hperm
    refine final_cons hf fun hl => ?_
    rw [h.lookup, hg.late hl]
    rfl
  | @fill _ late rest pdu read hperm =>
    obtain ⟨hg, _⟩ := h.perm hperm
    refine final_cons hf fun hl => ?_
    have hread := hg.read pdu read rfl
    rw [hg.lateRead pdu read rfl hl] at hread
    exact ((PduTables.parse_eq_ok fromSlice).mpr hread).symm
  | write hphase ht => exact hf
  | reject hphase ht => exact hf
  | done hphase => exact hf
  | evict => exact hf

/-! ### all orders of the steps -/

/-- a lookup that starts now yields what is in the cache -/
theorem hit_steps (fromSlice : JsonObject → Option PduEvent) (e : EventId) (id : Bytes)
    (json : JsonObject) (s : RaceState) {pdu : PduEvent} (hret : s.phase = .returned)
    (hc : s.store.cache e = some pdu) : ∃ s', Steps (Race fromSlice e id json) s s' ∧
      (true, .ok (some pdu)) ∈ s'.results := by
  have hstart : Race fromSlice e id json .start s { s with gets := ⟨true, .started⟩ :: s.gets } :=
    .start true (iff_of_true rfl hret)
  have hhit := @Race.hit fromSlice e id json { s with gets := ⟨true, .started⟩ :: s.gets } true s.gets
    pdu (List.Perm.refl _) hc
  exact ⟨_, ((Steps.refl s).step hstart).step hhit, List.mem_cons_self⟩

/-! ### a message and its redaction -/

def messageId : EventId := ⟨.ascii "$m"⟩
def messageRow : Bytes := []
def redactedMessage : JsonObject := [("redacted_because", .obj [])]

def messageRows : PduTables where
  pduidPdu _ := some []
  eventidPduid _ := some messageRow
  eventidOutlierpdu _ := none

def RaceState.opened : RaceState := ⟨⟨messageRows, fun _ => none⟩, .before, [], []⟩

abbrev readMessage (json : JsonObject) : Option PduEvent := some (pduOf json)

abbrev MessageRace := Race readMessage messageId messageRow redactedMessage

theorem opened_opened : Opened readMessage messageId messageRow []
    RaceState.opened :=
  ⟨rfl, rfl, PduStore.serves_iff.mpr (Cached.coherent_empty messageRows), rfl, rfl, rfl⟩

def redactedRows : PduTables :=
  { messageRows with pduidPdu := Function.update messageRows.pduidPdu messageRow (some redactedMessage) }

/-- the state behind the replacement -/
def RaceState.replaced (gets : List PduGet) : RaceState :=
  ⟨⟨redactedRows, Function.update (fun _ => none) messageId none⟩, .returned, gets, []⟩

theorem replaced_of {P : RaceStep → RaceState → Prop} (hP : ∀ s, P .write s ∧ P .done s)
    (h : RunsTo (Opened readMessage messageId messageRow []) MessageRace P
      ⟨⟨messageRows, fun _ => none⟩, .before, gets, []⟩) :
    RunsTo (Opened readMessage messageId messageRow []) MessageRace P (.replaced gets) :=
  (h.step (.write (t := redactedRows) rfl rfl) (hP _).1).step (.done rfl) (hP _).2

/-- the replacement, and a lookup from its start to its end -/
theorem read_after : ∃ s, RunsTo (Opened readMessage messageId messageRow []) MessageRace Prompt s ∧
    (true, .ok (some (pduOf redactedMessage))) ∈ s.results := by
  have h0 : RunsTo (Opened readMessage messageId messageRow []) MessageRace Prompt (.replaced []) :=
    replaced_of (fun _ => ⟨trivial, trivial⟩) (.start opened_opened)
  have h1 : RunsTo _ MessageRace Prompt (.replaced [⟨true, .started⟩]) :=
    h0.step (.start true (iff_of_true rfl rfl)) trivial
  have h2 : RunsTo _ MessageRace Prompt (.replaced [⟨true, .missed⟩]) :=
    h1.step (.miss (.refl _) rfl) trivial
  have h3 : RunsTo _ MessageRace Prompt
      (.replaced [⟨true, .loaded (pduOf redactedMessage) .returned⟩]) :=
    h2.step (.load (.refl _) rfl) trivial
  exact ⟨_, h3.step (.fill (.refl _)) trivial, List.mem_cons_self⟩

/-- a lookup that reads before the replacement, and enters what it read after it -/
theorem entered_after : ∃ s, Runs (Opened readMessage messageId messageRow []) MessageRace s ∧
    s.phase = .returned ∧ s.store.cache messageId = some (pduOf []) := by
  have h0 : Runs (Opened readMessage messageId messageRow []) MessageRace
      ⟨⟨messageRows, fun _ => none⟩, .before, [], []⟩ := .start opened_opened
  have h1 : Runs _ MessageRace ⟨⟨messageRows, fun _ => none⟩, .before, [⟨false, .started⟩], []⟩ :=
    h0.step (.start false (iff_of_false nofun nofun)) trivial
  have h2 : Runs _ MessageRace ⟨⟨messageRows, fun _ => none⟩, .before, [⟨false, .missed⟩], []⟩ :=
    h1.step (.miss (.refl _) rfl) trivial
  have h3 : Runs _ MessageRace
      ⟨⟨messageRows, fun _ => none⟩, .before, [⟨false, .loaded (pduOf []) .before⟩], []⟩ :=
    h2.step (.load (.refl _) rfl) trivial
  have h4 := replaced_of (fun _ => ⟨trivial, trivial⟩) h3
  refine ⟨_, h4.step (.fill (.refl _)) trivial, rfl, ?_⟩
  simp only [Function.update_self]

/-- no lookup that starts after the replacement has returned yields anything but what this wrote, as
long as no lookup enters what it read before; and one that does so brings the earlier content back -/
theorem replacePdu_final (fromSlice : JsonObject → Option PduEvent) (e : EventId) (id : Bytes)
    (json old : JsonObject) :
    (∀ s, RunsTo (Opened fromSlice e id old) (Race fromSlice e id json) Prompt s →
      s.Final fromSlice json) ∧
    ∀ s s', Runs (Opened fromSlice e id old) (Race fromSlice e id json) s → s.phase = .returned →
      Race fromSlice e id json (.fill .before) s s' →
      ∃ pdu s'', fromSlice old = some pdu ∧ Steps (Race fromSlice e id json) s' s'' ∧
        (true, .ok (some pdu)) ∈ s''.results := by
  refine ⟨fun s h => ?_, fun s s' h hret hs => ?_⟩
  · have hinv : RaceInv fromSlice e id json old s ∧ CacheNew fromSlice e json s ∧
        s.Final fromSlice json := by
      refine h.inv (fun s => RaceInv fromSlice e id json old s ∧ CacheNew fromSlice e json s ∧
        s.Final fromSlice json) ?_ ?_
      · intro s ho
        refine ⟨raceInv_opened ho, fun hret => ?_, fun r hr => ?_⟩
        · rw [ho.phase] at hret
          cases hret
        · rw [ho.results] at hr
          cases hr
      · intro a s s' hi hs hp
        exact ⟨raceInv_step hi.1 hs, cacheNew_step hi.1 hi.2.1 hs hp, final_step hi.1 hi.2.1 hi.2.2 hs⟩
    exact hinv.2.2
  · have hinv : RaceInv fromSlice e id json old s := by
      refine RunsTo.inv (RaceInv fromSlice e id json old) ?_ ?_ h
      · exact fun s ho => raceInv_opened ho
      · exact fun a s s' hi hs _ => raceInv_step hi hs
    cases hs with
    | @fill _ late rest pdu _ hperm =>
      obtain ⟨s'', hsteps, hmem⟩ := hit_steps fromSlice e id json
        ⟨⟨s.store.store, Function.update s.store.cache e (some pdu)⟩, s.phase, rest,
          (late, .ok (some pdu)) :: s.results⟩ hret (Function.update_self ..)
      exact ⟨pdu, s'', (hinv.perm hperm).1.read pdu .before rfl, hsteps, hmem⟩

theorem replacePdu_final_late : ∃ s,
    RunsTo (Opened readMessage messageId messageRow []) MessageRace Prompt s ∧ s.results ≠ [] ∧
      ∀ r, (true, r) ∈ s.results → r = .ok (some (pduOf redactedMessage)) := by
  obtain ⟨s, hrun, hmem⟩ := read_after
  exact ⟨s, hrun, List.ne_nil_of_mem hmem,
    (replacePdu_final readMessage messageId messageRow redactedMessage []).1 s hrun⟩

/-- the lookup starts after the replacement has returned, and yields the message -/
theorem replacePdu_undone : pduOf [] ≠ pduOf redactedMessage ∧
    ∃ s, Runs (Opened readMessage messageId messageRow []) MessageRace s ∧
      (true, .ok (some (pduOf []))) ∈ s.results := by
  obtain ⟨s, hrun, hret, hcache⟩ := entered_after
  obtain ⟨s', hsteps, hmem⟩ := hit_steps readMessage messageId messageRow redactedMessage s hret hcache
  exact ⟨nofun, s', hrun.steps hsteps, hmem⟩

end

end Grapevine
