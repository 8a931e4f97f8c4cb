import Grapevine.Lib.Tree
import Grapevine.State.Snapshots

/-!
# At most four layers

What the stored differences keep, wherever the rooms point: each has a smaller parent, at most four of them
are on top of each other, and each adds only what its parent lacks and removes only what its parent has.  A
store starts out empty, or by the migration of a store that held each state whole.

* `migrate`       the migration from version 6 to 7, row by row;
* `Layers`        the invariant, of a call at a time;
* `Stacked`       what a loaded state looks like.

Main result: `layers_bounded`.  As in `load_returned`, a state event is appended to a state with one entry of
its key at most; `overlapping_layers` is a run without this condition.
-/

namespace Grapevine
open Kv

namespace StateDb

variable {db db' : StateDb} {new : Finset CompressedStateEvent} {st : List CompressedStateLayer}
  {h k : Nat} {old : Tree Bytes Bytes}

/-! ## the migration -/

/-- what the loop over the old rows carries -/
structure Progress where
  currentSstatehash : Option Nat
  currentRoom : Option RoomId
  currentState : Finset CompressedStateEvent
  lastRoomstates : RoomId → Option Nat

def unwrapNone : Error := .panic "called `Option::unwrap()` on a `None` value"

/-- a state is stored on top of the last state of its room -/
def handleState (ord : Order) (currentSstatehash : Nat) (currentRoom : RoomId)
    (currentState : Finset CompressedStateEvent) (lastRoomstates : RoomId → Option Nat) : StateComp Unit := do
  let parents ← statesParents (lastRoomstates currentRoom)
  saveStateFromDiff ord currentSstatehash parents (diffToParents parents currentState) 2

/-- the state before the next one -/
def finishState (ord : Order) (p : Progress) : StateComp (RoomId → Option Nat) :=
  match p.currentSstatehash with
  | some current => do
    let r ← Comp.expect p.currentRoom unwrapNone
    handleState ord current r p.currentState p.lastRoomstates
    pure (Function.update p.lastRoomstates r (some current))
  | none => pure p.lastRoomstates

/-- the loop comes to a row of the state `sstatehash`; `roomOf` is the room of the event behind a short id -/
def enterState (ord : Order) (roomOf : Bytes → Except Error RoomId) (p : Progress) (sstatehash : Nat)
    (seventid : Bytes) : StateComp Progress :=
  if some sstatehash ≠ p.currentSstatehash then do
    let lastRoomstates ← finishState ord p
    let r ← Comp.ofExcept (roomOf seventid)
    pure ⟨some sstatehash, some r, ∅, lastRoomstates⟩
  else pure p

/-- a row of `stateid_shorteventid`: the state and the short state key, and the short event id -/
def migrateRow (ord : Order) (roomOf : Bytes → Except Error RoomId) (p : Progress) (row : Bytes × Bytes) :
    StateComp Progress :=
  if row.1.length < 8 then Comp.throw (.panic "range end index 8 out of range for slice")
  else do
    let p ← enterState ord roomOf p (ofBe (row.1.take 8)) row.2
    if h : (row.1.drop 8 ++ row.2).length = 16 then
      pure { p with currentState := insert ⟨row.1.drop 8 ++ row.2, h⟩ p.currentState }
    else Comp.throw (.panic "size is correct")

def migrateRows (ord : Order) (roomOf : Bytes → Except Error RoomId) :
    List (Bytes × Bytes) → Progress → StateComp Progress
  | [], p => pure p
  | row :: rows, p => do
    let p ← migrateRow ord roomOf p row
    migrateRows ord roomOf rows p

def migrate (ord : Order) (roomOf : Bytes → Except Error RoomId) (stateidShorteventid : Tree Bytes Bytes) :
    StateComp Unit := do
  let p ← migrateRows ord roomOf stateidShorteventid.rows ⟨none, none, ∅, fun _ => none⟩
  let _ ← finishState ord p
  pure ()

/-! ## the invariant -/

/-- the store with no room in it -/
def unpointed (db : StateDb) : StateDb := { db with roomidShortstatehash := fun _ => none }

structure Layers (db : StateDb) : Prop where
  core : Core (unpointed db)
  short : ∀ h st, IsStack db.shortstatehashStatediff h st → st.length ≤ 4

theorem Layers.of_core (hcore : Core (unpointed db)) (hnone : ∀ h, db.shortstatehashStatediff h = none) :
    Layers db := by
  refine ⟨hcore, fun h st hs => ?_⟩
  cases st with
  | nil => exact Nat.zero_le 4
  | cons l below =>
    obtain ⟨v, hv⟩ := hs.kept.row l List.mem_cons_self
    rw [hnone] at hv
    cases hv

theorem Layers.empty : Layers .empty := .of_core Core.empty fun _ => rfl

/-- short ids, the cache and the counter move -/
theorem Layers.kin (hl : Layers db) (hk : Kin (unpointed db) (unpointed db')) : Layers db' := by
  have hrows : db'.shortstatehashStatediff = db.shortstatehashStatediff := hk.rows
  refine ⟨hk.core, fun h st hs => hl.short h st ?_⟩
  rw [← hrows]
  exact hs

/-- an old name has the stack it had -/
theorem IsStack.of_put {rows : Nat → Option Bytes} (hstacked : ∀ k v, rows k = some v → ∃ st, IsStack rows k st)
    (hfresh : rows h = none) {row : Option Bytes} (hk : k ≠ h) (hs : IsStack (Function.update rows h row) k st) :
    IsStack rows k st := by
  cases st with
  | nil => exact absurd hs.name (by simp)
  | cons l below =>
    obtain ⟨v, hv⟩ := hs.kept.row l List.mem_cons_self
    rw [show l.name = k from Option.some.inj hs.name, Function.update_of_ne hk] at hv
    obtain ⟨st₀, hst₀⟩ := hstacked k v hv
    rw [hs.unique (hst₀.extends (Extends.update hfresh row))]
    exact hst₀

/-- a fresh row with a short stack -/
theorem Layers.put (hl : Layers db) {row : Bytes} (hpos : 1 ≤ h) (hle : h ≤ db.counter)
    (hfresh : db.shortstatehashStatediff h = none)
    (hst : IsStack (Function.update db.shortstatehashStatediff h (some row)) h st) (hlength : st.length ≤ 4) :
    Layers { db with
      shortstatehashStatediff := Function.update db.shortstatehashStatediff h (some row) } := by
  refine ⟨hl.core.put hpos hle hfresh hst, fun k st' hs => ?_⟩
  change IsStack (Function.update db.shortstatehashStatediff h (some row)) k st' at hs
  by_cases e : k = h
  · rw [e] at hs
    rw [hs.unique hst]
    exact hlength
  · exact hl.short k st' (hs.of_put hl.core.stacked hfresh e)

/-- the layers stay bounded, no row is lost, and every state is one of the old states or `new` -/
structure Adds (new : Finset CompressedStateEvent) (db db' : StateDb) : Prop where
  layers : Layers db'
  extends_rows : Extends db.shortstatehashStatediff db'.shortstatehashStatediff
  states : ∀ h S, FullOf db'.shortstatehashStatediff h S → FullOf db.shortstatehashStatediff h S ∨ S = new

theorem Adds.of_rows (hl : Layers db') (hrows : db'.shortstatehashStatediff = db.shortstatehashStatediff) :
    Adds new db db' := by
  refine ⟨hl, ?_, ?_⟩
  · rw [hrows]
    exact fun _ _ h => h
  · rw [hrows]
    exact fun _ _ h => .inl h

theorem Adds.of_kin (hl : Layers db) (hk : Kin (unpointed db) (unpointed db')) :
    Adds new db db' := .of_rows (hl.kin hk) hk.rows

theorem Adds.behind {db₁ : StateDb} (hrows : db₁.shortstatehashStatediff = db.shortstatehashStatediff)
    (h : Adds new db₁ db') : Adds new db db' := by
  obtain ⟨hl, hx, hstates⟩ := h
  rw [hrows] at hx hstates
  exact ⟨hl, hx, hstates⟩

theorem Layers.save (hl : Layers db) (ord : Order) {d : Diff CompressedStateEvent} (sibling : Nat)
    (hk : Kept db.shortstatehashStatediff st) (hlay : Layered st) (hclean : d.Clean (topFull st))
    (hkeys : ∀ e ∈ d.added, e.hasKey 0 = false) (hpos : 1 ≤ h) (hle : h ≤ db.counter)
    (hbelow : ∀ k v, db.shortstatehashStatediff k = some v → k < h) :
    ∃ row, saveStateFromDiff ord h st d sibling db = (.ok (), { db with
        shortstatehashStatediff := Function.update db.shortstatehashStatediff h (some row) }) ∧
      Adds (d.on (topFull st)) db { db with
        shortstatehashStatediff := Function.update db.shortstatehashStatediff h (some row) } ∧
      FullOf (Function.update db.shortstatehashStatediff h (some row)) h (d.on (topFull st)) := by
  have hfresh : db.shortstatehashStatediff h = none := by
    cases hv : db.shortstatehashStatediff h with
    | none => rfl
    | some v => exact absurd (hbelow h v hv) (lt_irrefl h)
  have hnames : ∀ l ∈ st, 1 ≤ l.name ∧ l.name < h := by
    intro l hm
    obtain ⟨v, hv⟩ := hk.row l hm
    exact ⟨(hl.core.rows_le l.name v hv).1, hbelow l.name v hv⟩
  have hlt : h < 2^64 := hle.trans_lt hl.core.counter_lt
  obtain ⟨row, st', hsave, hst', htop, hlength⟩ :=
    saveStateFromDiff_ok ord h st d sibling db hk hlay hclean hkeys hnames hlt hfresh
  refine ⟨row, hsave, ⟨hl.put hpos hle hfresh hst' hlength, Extends.update hfresh _, fun k S hS => ?_⟩,
    st', hst', htop⟩
  obtain ⟨st₀, hst₀, hS₀⟩ := hS
  by_cases e : k = h
  · rw [e] at hst₀
    rw [← hS₀, hst₀.unique hst', htop]
    exact .inr rfl
  · exact .inl ⟨st₀, hst₀.of_put hl.core.stacked hfresh e, hS₀⟩

/-! ## what does not look at the rooms -/

theorem nextCount_commutes : Comp.Commutes unpointed nextCount := by
  intro db
  unfold nextCount
  by_cases h : db.counter + 1 < 2^64
  · rw [if_pos h]
    exact if_pos h
  · rw [if_neg h]
    exact if_neg h

theorem getOrCreateShorteventid_commutes (e : EventId) :
    Comp.Commutes unpointed (getOrCreateShorteventid e) := by
  refine Comp.Commutes.get (fun _ => rfl) fun db => ?_
  cases db.eventidShorteventid e with
  | some n => exact Comp.Commutes.pure _
  | none =>
    refine Comp.Commutes.bind nextCount_commutes fun _ => ?_
    exact Comp.Commutes.bind (Comp.Commutes.modify fun _ => rfl) fun _ => Comp.Commutes.pure _

theorem getOrCreateShortstatekey_commutes (ty : EventType) (sk : String) :
    Comp.Commutes unpointed (getOrCreateShortstatekey ty sk) := by
  refine Comp.Commutes.get (fun _ => rfl) fun db => ?_
  cases db.statekeyShortstatekey (ty, sk) with
  | some n => exact Comp.Commutes.pure _
  | none =>
    refine Comp.Commutes.bind nextCount_commutes fun _ => ?_
    exact Comp.Commutes.bind (Comp.Commutes.modify fun _ => rfl) fun _ => Comp.Commutes.pure _

theorem compressStateEvent_commutes (k : Nat) (e : EventId) :
    Comp.Commutes unpointed (compressStateEvent k e) :=
  (getOrCreateShorteventid_commutes e).bind fun _ => Comp.Commutes.pure _

theorem loadInfo_commutes (fuel h : Nat) : Comp.Commutes unpointed (loadInfo fuel h) :=
  loadInfo_commutes_of (g := unpointed) (fun _ => rfl) (fun _ => rfl) (fun _ _ => rfl) fuel h

theorem statesParents_commutes (previous : Option Nat) : Comp.Commutes unpointed (statesParents previous) := by
  cases previous with
  | none => exact Comp.Commutes.pure _
  | some p => exact loadInfo_commutes (p + 1) p

theorem getOrCreateShorteventid_rooms (e : EventId) (db : StateDb) :
    (getOrCreateShorteventid e db).2.roomidShortstatehash = db.roomidShortstatehash := by
  rcases getOrCreateShorteventid_cases e db with ⟨n, _, hrun⟩ | ⟨_, _, hrun⟩ | hrun <;> rw [hrun]

/-! ## the calls -/

/-- the tables that the invariant does not look at -/
theorem Layers.congr (hl : Layers db) (hcounter : db'.counter = db.counter)
    (hrows : db'.shortstatehashStatediff = db.shortstatehashStatediff)
    (hcache : db'.stateinfoCache = db.stateinfoCache)
    (hkeys : db'.statekeyShortstatekey = db.statekeyShortstatekey) : Layers db' := by
  obtain ⟨⟨h1, h2, h3, h4, _, h6⟩, hshort⟩ := hl
  change ∀ h value, db.shortstatehashStatediff h = some value → 1 ≤ h ∧ h ≤ db.counter at h2
  change ∀ k n, db.statekeyShortstatekey k = some n → 1 ≤ n ∧ n ≤ db.counter at h6
  rw [← hrows, ← hcounter] at h2
  rw [← hkeys, ← hcounter] at h6
  refine ⟨⟨hcounter.trans_lt h1, h2, ?_, ?_, nofun, h6⟩, ?_⟩
  · show ∀ h value, db'.shortstatehashStatediff h = some value → ∃ st, IsStack db'.shortstatehashStatediff h st
    rw [hrows]
    exact h3
  · show Coherent db'.shortstatehashStatediff db'.stateinfoCache
    rw [hrows, hcache]
    exact h4
  · rw [hrows]
    exact hshort

theorem Layers.count {db : StateDb} (hl : Layers db) {n : Nat} (hn : n = db.counter + 1) (hlt : n < 2^64) :
    Layers { db with counter := n } := hl.kin (Kin.count hl.core hn hlt)

/-- the layers of a state, or an error if there is no such state -/
theorem statesParents_layers (hl : Layers db) (previous : Option Nat) :
    Comp.Ends (statesParents previous) db
      (fun st db' => Kin (unpointed db) (unpointed db') ∧ db'.counter = db.counter ∧
        Kept db.shortstatehashStatediff st ∧ Layered st ∧ (previous = none → st = []) ∧
        ∀ p, previous = some p → IsStack db.shortstatehashStatediff p st)
      (fun _ db' => Kin (unpointed db) (unpointed db')) := by
  have hends : Comp.Ends (statesParents previous) (unpointed db)
      (fun st db' => Kin (unpointed db) db' ∧ db'.counter = db.counter ∧
        Kept db.shortstatehashStatediff st ∧ Layered st ∧ (previous = none → st = []) ∧
        ∀ p, previous = some p → IsStack db.shortstatehashStatediff p st)
      (fun _ db' => Kin (unpointed db) db') := by
    by_cases hp : ∀ p, previous = some p → ∃ value, db.shortstatehashStatediff p = some value
    · obtain ⟨st, db', hrun, hst⟩ := statesParents_ok hl.core hp
      exact Comp.Ends.of_ok hrun hst
    · push Not at hp
      obtain ⟨p, rfl, hnone⟩ := hp
      have hv : db.shortstatehashStatediff p = none := Option.eq_none_iff_forall_ne_some.mpr hnone
      exact Comp.Ends.of_error (loadShortstatehashInfo_missing hl.core hv) (Kin.refl hl.core)
  exact (statesParents_commutes previous).ends hends

/-- a state is stored under a name above all others -/
theorem Layers.saveNew (hl : Layers db) (ord : Order) (sibling : Nat) (hk : Kept db.shortstatehashStatediff st)
    (hlay : Layered st) (hkeys : ∀ e ∈ new, e.hasKey 0 = false) (hpos : 1 ≤ h) (hle : h ≤ db.counter)
    (hbelow : ∀ k v, db.shortstatehashStatediff k = some v → k < h) :
    ∃ row, saveStateFromDiff ord h st (diffToParents st new) sibling db = (.ok (), { db with
        shortstatehashStatediff := Function.update db.shortstatehashStatediff h (some row) }) ∧
      Adds new db { db with
        shortstatehashStatediff := Function.update db.shortstatehashStatediff h (some row) } ∧
      FullOf (Function.update db.shortstatehashStatediff h (some row)) h new := by
  obtain ⟨row, hsave, hadds, hfull⟩ := hl.save ord sibling hk hlay (Diff.between_clean (topFull st) new)
    (fun e he => hkeys e (Finset.mem_sdiff.mp he).1) hpos hle hbelow
  rw [Diff.between_on] at hadds hfull
  rw [diffToParents_eq]
  exact ⟨row, hsave, hadds, hfull⟩

/-- the state of a room is loaded, and a new state is stored on top of it -/
theorem saveOver_layers (hl : Layers db) (ord : Order) (previous : Option Nat) (sibling : Nat)
    (hkeys : ∀ e ∈ new, e.hasKey 0 = false) (hpos : 1 ≤ h) (hle : h ≤ db.counter)
    (hbelow : ∀ k v, db.shortstatehashStatediff k = some v → k < h) {β : Type}
    {f : List CompressedStateLayer → StateComp β} {Q : β → StateDb → Prop} {R : Error → StateDb → Prop}
    (hR : ∀ e db', Adds new db db' → R e db') (hf : ∀ st db', Adds new db db' → Comp.Ends (f st) db' Q R) :
    Comp.Ends (do
      let parents ← statesParents previous
      saveStateFromDiff ord h parents (diffToParents parents new) sibling
      f parents) db Q R := by
  refine Comp.Ends.bind ((statesParents_layers hl previous).imp (fun _ _ hq => hq)
    fun e db' hk => hR e db' (.of_kin hl hk)) fun st db' hst => ?_
  obtain ⟨hkin, hcount, hkept, hlay, _⟩ := hst
  have hrows : db'.shortstatehashStatediff = db.shortstatehashStatediff := hkin.rows
  obtain ⟨row, hsave, hadds, _⟩ := (hl.kin hkin).saveNew ord sibling (hrows ▸ hkept) hlay hkeys hpos
    (hcount ▸ hle) (hrows ▸ hbelow)
  exact Comp.Ends.after hsave (hf st _ (hadds.behind hrows))

/-- a hash has a number, or gets one above all names -/
theorem getOrCreateShortstatehash_layers (hl : Layers db) (k : Bytes) :
    Comp.Ends (getOrCreateShortstatehash k) db
      (fun res db' => (Layers db' ∧ db'.shortstatehashStatediff = db.shortstatehashStatediff) ∧
        (res.2 = false → 1 ≤ res.1 ∧ res.1 ≤ db'.counter ∧
          ∀ k v, db'.shortstatehashStatediff k = some v → k < res.1))
      (fun _ db' => Layers db' ∧ db'.shortstatehashStatediff = db.shortstatehashStatediff) := by
  refine (getOrCreateShortstatehash_ends db k).imp ?_ ?_
  · intro res db' hres
    rcases hres with ⟨_, he, rfl⟩ | ⟨_, _, hn, hlt, rfl⟩
    · refine ⟨⟨hl, rfl⟩, fun hf => ?_⟩
      rw [he] at hf
      cases hf
    · refine ⟨⟨(hl.count hn hlt).congr rfl rfl rfl rfl, rfl⟩, fun _ => ⟨by omega, le_refl _, fun k v hk => ?_⟩⟩
      have hle := (hl.core.rows_le k v hk).2
      change k ≤ db.counter at hle
      omega
  · intro _ db' he
    rw [he]
    exact ⟨hl, rfl⟩

theorem saveState_layers (hl : Layers db) (digest : Bytes → Bytes) (ord : Order) (r : RoomId)
    (hkeys : ∀ e ∈ new, e.hasKey 0 = false) :
    Comp.Ends (saveState digest ord r new) db (fun _ db' => Adds new db db') (fun _ db' => Adds new db db') := by
  unfold saveState
  refine Comp.Ends.after (show getRoomShortstatehash r db = (.ok _, db) from rfl) ?_
  refine Comp.Ends.bind ((getOrCreateShortstatehash_layers hl _).imp (fun _ _ h => h)
    fun _ _ h => .of_rows h.1 h.2) fun res db₁ hres => ?_
  obtain ⟨n, existed⟩ := res
  obtain ⟨⟨hl₁, hrows⟩, hnew⟩ := hres
  show Comp.Ends (if some n = db.roomidShortstatehash r then _ else _) db₁ _ _
  by_cases hsame : some n = db.roomidShortstatehash r
  · rw [if_pos hsame]
    exact Comp.Ends.of_ok rfl (.of_rows hl₁ hrows)
  · rw [if_neg hsame]
    cases existed with
    | true =>
      refine Comp.Ends.bind ((statesParents_layers hl₁ _).imp (fun _ _ hq => hq)
        fun _ db' hk => (Adds.of_kin hl₁ hk).behind hrows) fun st db' hst => ?_
      exact Comp.Ends.of_ok rfl ((Adds.of_kin hl₁ hst.1).behind hrows)
    | false =>
      obtain ⟨hpos, hle, hbelow⟩ := hnew rfl
      exact saveOver_layers hl₁ ord _ 2 hkeys hpos hle hbelow (fun _ _ h => h.behind hrows)
        fun st db' h => Comp.Ends.of_ok rfl (h.behind hrows)

theorem setEventState_layers (hl : Layers db) (digest : Bytes → Bytes) (ord : Order) (e : EventId) (r : RoomId)
    (hkeys : ∀ e ∈ new, e.hasKey 0 = false) :
    Comp.Ends (setEventState digest ord e r new) db (fun _ db' => Adds new db db')
      (fun _ db' => Adds new db db') := by
  unfold setEventState
  refine Comp.Ends.bind (((getOrCreateShorteventid_commutes e).ends
    (getOrCreateShorteventid_ends hl.core e)).imp (fun _ _ h => h) fun _ _ hk => .of_kin hl hk)
    fun shorteventid db₁ hkin => ?_
  have hl₁ := hl.kin hkin
  have hrows₁ : db₁.shortstatehashStatediff = db.shortstatehashStatediff := hkin.rows
  refine Comp.Ends.after (show getRoomShortstatehash r db₁ = (.ok _, db₁) from rfl) ?_
  refine Comp.Ends.bind ((getOrCreateShortstatehash_layers hl₁ _).imp (fun _ _ h => h)
    fun _ _ h => .of_rows h.1 (h.2.trans hrows₁)) fun res db₂ hres => ?_
  obtain ⟨n, existed⟩ := res
  obtain ⟨⟨hl₂, hrows₂⟩, hnew⟩ := hres
  have hrows := hrows₂.trans hrows₁
  have hlast : ∀ db₃, Adds new db₂ db₃ → Comp.Ends (do
      setEventShortstatehash shorteventid n
      pure n : StateComp Nat) db₃ (fun _ db' => Adds new db db') (fun _ db' => Adds new db db') :=
    fun db₃ h => Comp.Ends.of_ok rfl (Adds.behind hrows ⟨h.layers.congr rfl rfl rfl rfl, h.extends_rows, h.states⟩)
  cases existed with
  | true => exact hlast db₂ (.of_rows hl₂ rfl)
  | false =>
    obtain ⟨hpos, hle, hbelow⟩ := hnew rfl
    exact saveOver_layers hl₂ ord _ 1000000 hkeys hpos hle hbelow (fun _ _ h => h.behind hrows)
      fun st db' h => hlast db' h

/-- the entry of a short state key is put into the state, in place of the entry that it had -/
def replaced (S : Finset CompressedStateEvent) (k n : Nat) : Finset CompressedStateEvent :=
  insert (.of k n) {c ∈ S | c.hasKey k = false}

theorem replaces_hasKey {ord : Order} {e : CompressedStateEvent} (h : replaces ord st k = some e) :
    e.hasKey k = true := by
  obtain ⟨info, _, hfind⟩ := Option.bind_eq_some_iff.mp h
  simpa using List.find?_some hfind

/-- with one entry of the key at most, the entry that is found is the one that is in the way -/
theorem appendedState_eq_replaced (ord : Order) (n : Nat)
    (hone : ∀ e ∈ topFull st, ∀ e' ∈ topFull st, e.hasKey k = true → e'.hasKey k = true → e = e') :
    appendedState st (replaces ord st k) (.of k n) = replaced (topFull st) k n := by
  obtain ⟨hold, hnew⟩ := replaces_spec ord st k hone
  have hrest : topFull st \ (replaces ord st k).toFinset = {c ∈ topFull st | c.hasKey k = false} := by
    apply Finset.ext
    intro c
    rw [Finset.mem_sdiff, Finset.mem_filter, Option.mem_toFinset, Option.mem_def]
    constructor
    · intro hc
      refine ⟨hc.1, Bool.eq_false_iff.mpr fun hk => hc.2 (hnew c hk hc.1)⟩
    · intro hc
      refine ⟨hc.1, fun he => ?_⟩
      have hk : c.hasKey k = true := replaces_hasKey he
      rw [hc.2] at hk
      cases hk
  unfold appendedState replaced
  rw [hrest]

/-- the new state is the current one with the event under its key, and it is the only state that is new -/
def Appended (pdu : PduEvent) (stateKey : String) (db : StateDb) (h : Nat) (db' : StateDb) : Prop :=
  ∃ S k n, (db.roomidShortstatehash pdu.roomId = none → S = ∅) ∧
    (∀ p, db.roomidShortstatehash pdu.roomId = some p → FullOf db.shortstatehashStatediff p S) ∧
    db'.statekeyShortstatekey (pdu.kind, stateKey) = some k ∧ db'.eventidShorteventid pdu.eventId = some n ∧
    FullOf db'.shortstatehashStatediff h (replaced S k n) ∧ Adds (replaced S k n) db db'

theorem appendStateEvent_layers (hl : Layers db) (ord : Order) (pdu : PduEvent) {stateKey : String}
    (hsk : pdu.stateKey = some stateKey) (hone : OneEntry db pdu) :
    Comp.Ends (appendStateEvent ord pdu stateKey (db.roomidShortstatehash pdu.roomId)) db
      (fun res db' => Appended pdu stateKey db res.1 db')
      (fun _ db' => Layers db' ∧ db'.shortstatehashStatediff = db.shortstatehashStatediff) := by
  have hstop : ∀ (_ : Error) db', Kin (unpointed db) (unpointed db') →
      Layers db' ∧ db'.shortstatehashStatediff = db.shortstatehashStatediff :=
    fun _ _ hk => ⟨hl.kin hk, hk.rows⟩
  unfold appendStateEvent
  refine Comp.Ends.bind ((statesParents_layers hl _).imp (fun _ _ hq => hq) hstop) fun st db₁ hst => ?_
  obtain ⟨hkin₁, _, hkept, hlay, hnone, hstack⟩ := hst
  refine Comp.Ends.bind (((getOrCreateShortstatekey_commutes pdu.kind stateKey).ends
    (getOrCreateShortstatekey_ends hkin₁.core pdu.kind stateKey)).imp (fun _ _ h => h)
    fun e _ h => hstop e _ (hkin₁.trans h)) fun k db₂ hk => ?_
  obtain ⟨hkin₂, hkey, hk1, hk2⟩ := hk
  refine Comp.Ends.bind (((compressStateEvent_commutes k pdu.eventId).ends
    (compressStateEvent_ends hkin₂.core k pdu.eventId)).imp (fun _ _ h => h)
    fun e _ h => hstop e _ (hkin₁.trans (hkin₂.trans h))) fun new db₃ hnew => ?_
  obtain ⟨hkin₃, hkeys, n, rfl, hevent⟩ := hnew
  have hkin := hkin₁.trans (hkin₂.trans hkin₃)
  have hl₃ := hl.kin hkin
  have hrows : db₃.shortstatehashStatediff = db.shortstatehashStatediff := hkin.rows
  have hkey₃ : db₃.statekeyShortstatekey (pdu.kind, stateKey) = some k := (congrFun hkeys _).trans hkey
  have hcurrent : ∀ p, db.roomidShortstatehash pdu.roomId = some p →
      FullOf db.shortstatehashStatediff p (topFull st) := fun p hp => ⟨st, hstack p hp, rfl⟩
  have hempty : db.roomidShortstatehash pdu.roomId = none → topFull st = ∅ := by
    intro hp
    rw [hnone hp]
    rfl
  have hone' : ∀ e ∈ topFull st, ∀ e' ∈ topFull st, e.hasKey k = true → e'.hasKey k = true → e = e' := by
    cases hp : db.roomidShortstatehash pdu.roomId with
    | none =>
      rw [hempty hp]
      exact fun e he => absurd he (Finset.notMem_empty e)
    | some p => exact hone stateKey p _ k hsk hp (hcurrent p hp) ((hkin₁.trans hkin₂).keyOf _ k (Or.inl hkey))
  obtain ⟨hold, hnew⟩ := replaces_spec ord st k hone'
  have hstate := appendedState_eq_replaced ord n hone'
  show Comp.Ends (if some (CompressedStateEvent.of k n) = replaces ord st k then _ else _) db₃ _ _
  by_cases hsame : some (CompressedStateEvent.of k n) = replaces ord st k
  · rw [if_pos hsame]
    cases hp : db.roomidShortstatehash pdu.roomId with
    | none => exact Comp.Ends.of_error rfl ⟨hl₃, hrows⟩
    | some p =>
      have hin := hold _ hsame.symm
      have hS : replaced (topFull st) k n = topFull st := by
        rw [← hstate, ← hsame]
        unfold appendedState
        rw [Option.toFinset_some, Finset.sdiff_singleton_eq_erase, Finset.insert_erase hin]
      refine Comp.Ends.of_ok rfl ⟨topFull st, k, n, hempty, hcurrent, hkey₃, hevent, ?_, .of_rows hl₃ hrows⟩
      rw [hS, hrows]
      exact hcurrent p hp
  · rw [if_neg hsame]
    refine Comp.Ends.bind ((nextCount_ends db₃).imp (fun _ _ h => h) fun _ db' hdb => by
      rw [hdb]
      exact ⟨hl₃, hrows⟩) fun h db₄ hh => ?_
    obtain ⟨hcount, hlt, rfl⟩ := hh
    have hclean : Diff.Clean ⟨{.of k n}, (replaces ord st k).toFinset⟩ (topFull st) := by
      refine ⟨fun x hx hin => ?_, fun x hx => hold x (Option.mem_toFinset.mp hx)⟩
      rw [Finset.mem_singleton] at hx
      subst hx
      exact hsame (hnew _ (CompressedStateEvent.of_hasKey k n) hin).symm
    have hbelow : ∀ k v, db₃.shortstatehashStatediff k = some v → k < h := by
      intro k v hv
      have hle : k ≤ db₃.counter := (hl₃.core.rows_le k v hv).2
      omega
    obtain ⟨row, hsave, hadds, hfull⟩ := (hl₃.count hcount hlt).save ord 2
      (show Kept _ st by rw [← hrows] at hkept; exact hkept) hlay hclean (fun e he => by
        rw [Finset.mem_singleton.mp he]
        exact CompressedStateEvent.not_hasKey_zero hk1 hk2 n) (show 1 ≤ h by omega) (le_refl h) hbelow
    rw [← appendedState_of_clean hclean, hstate] at hadds hfull
    have hcounted : ({ db₃ with counter := h } : StateDb).shortstatehashStatediff = db.shortstatehashStatediff := hrows
    have hadds' := hadds.behind hcounted
    exact Comp.Ends.after hsave (Comp.Ends.of_ok rfl
      ⟨topFull st, k, n, hempty, hcurrent, hkey₃, hevent, hfull, hadds'⟩)

theorem appendToStateWith_layers (hl : Layers db) (ord : Order) (pdu : PduEvent) (hone : OneEntry db pdu) :
    Comp.Ends (appendToStateWith ord pdu) db
      (fun res db' => Layers db' ∧
        (pdu.stateKey = none → db'.shortstatehashStatediff = db.shortstatehashStatediff) ∧
        ∀ stateKey, pdu.stateKey = some stateKey → Appended pdu stateKey db res.1 db')
      (fun _ db' => Layers db' ∧ db'.shortstatehashStatediff = db.shortstatehashStatediff) := by
  unfold appendToStateWith
  have hcreate : Comp.Ends (getOrCreateShorteventid pdu.eventId) db
      (fun _ db' => Kin (unpointed db) (unpointed db') ∧ db'.roomidShortstatehash = db.roomidShortstatehash)
      (fun _ db' => Kin (unpointed db) (unpointed db')) := by
    have hends := (getOrCreateShorteventid_commutes pdu.eventId).ends
      (getOrCreateShorteventid_ends hl.core pdu.eventId)
    unfold Comp.Ends at hends ⊢
    have hroom := getOrCreateShorteventid_rooms pdu.eventId db
    cases hx : getOrCreateShorteventid pdu.eventId db with
    | mk o db' =>
      rw [hx] at hends hroom
      cases o with
      | ok n => exact ⟨hends, hroom⟩
      | error e => exact hends
  refine Comp.Ends.bind (hcreate.imp (fun _ _ h => h) fun _ _ hk => ⟨hl.kin hk, hk.rows⟩) fun shorteventid db₁ hk => ?_
  obtain ⟨hkin₁, hroom⟩ := hk
  refine Comp.Ends.after (show getRoomShortstatehash pdu.roomId db₁
    = (.ok (db₁.roomidShortstatehash pdu.roomId), db₁) from rfl) ?_
  have hcur : ∃ db₂, setCurrentState shorteventid (db₁.roomidShortstatehash pdu.roomId) db₁ = (.ok (), db₂) ∧
      Kin (unpointed db) (unpointed db₂) ∧ db₂.roomidShortstatehash = db₁.roomidShortstatehash := by
    cases db₁.roomidShortstatehash pdu.roomId with
    | none => exact ⟨db₁, rfl, hkin₁, rfl⟩
    | some p => exact ⟨_, rfl, hkin₁.congr rfl rfl rfl rfl rfl rfl, rfl⟩
  obtain ⟨db₂, hset, hkin₂, hroom₂⟩ := hcur
  refine Comp.Ends.after hset ?_
  have hl₂ := hl.kin hkin₂
  have hrows : db₂.shortstatehashStatediff = db.shortstatehashStatediff := hkin₂.rows
  have hrooms : db₂.roomidShortstatehash = db.roomidShortstatehash := hroom₂.trans hroom
  cases hsk : pdu.stateKey with
  | none =>
    cases db₁.roomidShortstatehash pdu.roomId with
    | none => exact Comp.Ends.of_error rfl ⟨hl₂, hrows⟩
    | some p => exact Comp.Ends.of_ok rfl ⟨hl₂, fun _ => hrows, nofun⟩
  | some stateKey =>
    have hone₂ : OneEntry db₂ pdu := by
      intro sk p S k hsk' hp hf hk
      rw [hrooms] at hp
      rw [hrows] at hf
      exact hone sk p S k hsk' hp hf (hkin₂.keyOf _ k hk)
    rw [← hroom₂]
    refine (appendStateEvent_layers hl₂ ord pdu hsk hone₂).imp (fun res db' h => ?_) fun _ db' h =>
      ⟨h.1, h.2.trans hrows⟩
    obtain ⟨S, k, n, hempty, hcurrent, hkey, hevent, hfull, hadds⟩ := h
    rw [hrooms] at hempty hcurrent
    rw [hrows] at hcurrent
    refine ⟨hadds.layers, nofun, fun sk hsk' => ?_⟩
    obtain rfl := Option.some.inj hsk'
    exact ⟨S, k, n, hempty, hcurrent, hkey, hevent, hfull, hadds.behind hrows⟩

/-! ## the run of the migration -/

/-- what is stored is below the current state -/
structure Migrating (count : Nat) (db : StateDb) (p : Progress) : Prop where
  layers : Layers db
  counter : db.counter = count
  keys : ∀ e ∈ p.currentState, e.hasKey 0 = false
  fresh : p.currentSstatehash = none → ∀ k, db.shortstatehashStatediff k = none
  current : ∀ h, p.currentSstatehash = some h → 1 ≤ h ∧ h ≤ count ∧
    ∀ k v, db.shortstatehashStatediff k = some v → k < h

/-- the names of the old states and the short state keys were counted -/
structure OldRow (count : Nat) (row : Bytes × Bytes) : Prop where
  name : 1 ≤ ofBe (row.1.take 8) ∧ ofBe (row.1.take 8) ≤ count
  key : ¬ be64 0 <+: row.1.drop 8 ++ row.2

theorem handleState_layers (hl : Layers db) (ord : Order) (r : RoomId) {state : Finset CompressedStateEvent}
    (last : RoomId → Option Nat) (hkeys : ∀ e ∈ state, e.hasKey 0 = false) (hpos : 1 ≤ h) (hle : h ≤ db.counter)
    (hbelow : ∀ k v, db.shortstatehashStatediff k = some v → k < h) :
    Comp.Ends (handleState ord h r state last) db (fun _ db' => Layers db' ∧ db'.counter = db.counter ∧
      ∀ k v, db'.shortstatehashStatediff k = some v → k ≤ h) (fun _ _ => True) := by
  unfold handleState
  refine Comp.Ends.bind ((statesParents_layers hl _).imp (fun _ _ hq => hq) fun _ _ _ => trivial) fun st db₁ hst => ?_
  obtain ⟨hkin, hcount, hkept, hlay, _⟩ := hst
  have hrows : db₁.shortstatehashStatediff = db.shortstatehashStatediff := hkin.rows
  obtain ⟨row, hsave, hadds, _⟩ := (hl.kin hkin).saveNew ord 2 (hrows ▸ hkept) hlay hkeys hpos (hcount ▸ hle)
    (hrows ▸ hbelow)
  refine Comp.Ends.of_ok hsave ⟨hadds.layers, hcount, fun k v hk => ?_⟩
  change Function.update db₁.shortstatehashStatediff h (some row) k = some v at hk
  by_cases he : k = h
  · exact he.le
  · rw [Function.update_of_ne he, hrows] at hk
    exact (hbelow k v hk).le

theorem finishState_layers {count : Nat} {p : Progress} (hm : Migrating count db p) (ord : Order) :
    Comp.Ends (finishState ord p) db (fun _ db' => Layers db' ∧ db'.counter = count ∧
      ∀ k v, db'.shortstatehashStatediff k = some v → ∃ h, p.currentSstatehash = some h ∧ k ≤ h)
      (fun _ _ => True) := by
  unfold finishState
  cases hcur : p.currentSstatehash with
  | none =>
    refine Comp.Ends.of_ok rfl ⟨hm.layers, hm.counter, fun k v hk => ?_⟩
    rw [hm.fresh hcur] at hk
    cases hk
  | some h =>
    obtain ⟨hpos, hle, hbelow⟩ := hm.current h hcur
    cases p.currentRoom with
    | none => exact Comp.Ends.of_error rfl trivial
    | some r =>
      refine Comp.Ends.after (Comp.expect_some r _ db) ?_
      refine Comp.Ends.bind (handleState_layers hm.layers ord r _ hm.keys hpos (hm.counter.symm ▸ hle) hbelow)
        fun _ db' hq => ?_
      exact Comp.Ends.of_ok rfl ⟨hq.1, hq.2.1.trans hm.counter, fun k v hk => ⟨h, rfl, hq.2.2 k v hk⟩⟩

/-- the loop comes to a state that is not below the current one -/
theorem enterState_layers {count : Nat} {p : Progress} (hm : Migrating count db p) (ord : Order)
    (roomOf : Bytes → Except Error RoomId) (seventid : Bytes) (hpos : 1 ≤ h) (hle : h ≤ count)
    (hahead : ∀ k, p.currentSstatehash = some k → k ≤ h) :
    Comp.Ends (enterState ord roomOf p h seventid) db
      (fun p' db' => Migrating count db' p' ∧ p'.currentSstatehash = some h) (fun _ _ => True) := by
  unfold enterState
  by_cases hsame : some h ≠ p.currentSstatehash
  · rw [if_pos hsame]
    refine Comp.Ends.bind (finishState_layers hm ord) fun last db₁ hq => ?_
    obtain ⟨hl₁, hcount, hbelow⟩ := hq
    cases roomOf seventid with
    | error e => exact Comp.Ends.of_error rfl trivial
    | ok r =>
      refine Comp.Ends.of_ok rfl ⟨⟨hl₁, hcount, fun e he => absurd he (Finset.notMem_empty e), nofun, ?_⟩, rfl⟩
      intro h' hh'
      cases hh'
      refine ⟨hpos, hle, fun k v hk => ?_⟩
      obtain ⟨cur, hcur, hkcur⟩ := hbelow k v hk
      have hne : cur ≠ h := fun he => hsame (by rw [hcur, he])
      have := hahead cur hcur
      omega
  · rw [if_neg hsame]
    exact Comp.Ends.of_ok rfl ⟨hm, (not_not.mp hsame).symm⟩

theorem migrateRow_layers {count : Nat} {p : Progress} (hm : Migrating count db p) (ord : Order)
    (roomOf : Bytes → Except Error RoomId) {row : Bytes × Bytes} (hrow : OldRow count row)
    (hahead : ∀ k, p.currentSstatehash = some k → k ≤ ofBe (row.1.take 8)) :
    Comp.Ends (migrateRow ord roomOf p row) db (fun p' db' => Migrating count db' p' ∧ 8 ≤ row.1.length ∧
      p'.currentSstatehash = some (ofBe (row.1.take 8))) (fun _ _ => True) := by
  unfold migrateRow
  by_cases hshort : row.1.length < 8
  · rw [if_pos hshort]
    exact Comp.Ends.of_error rfl trivial
  · rw [if_neg hshort]
    refine Comp.Ends.bind (enterState_layers hm ord roomOf row.2 hrow.name.1 hrow.name.2 hahead) fun p' db' hq => ?_
    obtain ⟨hm', hcur⟩ := hq
    by_cases hlength : (row.1.drop 8 ++ row.2).length = 16
    · rw [dif_pos hlength]
      refine Comp.Ends.of_ok rfl ⟨⟨hm'.layers, hm'.counter, fun e he => ?_, hm'.fresh, hm'.current⟩,
        not_lt.mp hshort, hcur⟩
      rcases Finset.mem_insert.mp he with rfl | he
      · rw [Bool.eq_false_iff]
        intro hzero
        exact hrow.key (List.isPrefixOf_iff_prefix.mp hzero)
      · exact hm'.keys e he
    · rw [dif_neg hlength]
      exact Comp.Ends.of_error rfl trivial

/-- the order of the rows is the order of the states -/
theorem name_le {a b : Bytes} (ha : 8 ≤ a.length) (hb : 8 ≤ b.length) (h : a ≤ b) :
    ofBe (a.take 8) ≤ ofBe (b.take 8) := by
  have hsplit : ∀ c : Bytes, 8 ≤ c.length → be 8 (ofBe (c.take 8)) ++ c.drop 8 = c := by
    intro c hc
    have hlength : (c.take 8).length = 8 := by
      rw [List.length_take]
      omega
    have hword := be_ofBe (c.take 8)
    rw [hlength] at hword
    rw [hword, List.take_append_drop]
  have hlt : ∀ c : Bytes, 8 ≤ c.length → ofBe (c.take 8) < 256 ^ 8 := by
    intro c hc
    have hword := ofBe_lt (c.take 8)
    rwa [List.length_take, Nat.min_eq_left hc] at hword
  rw [← hsplit a ha, ← hsplit b hb, be_append_le_iff (hlt a ha) (hlt b hb)] at h
  omega

theorem migrateRows_layers {count : Nat} (ord : Order) (roomOf : Bytes → Except Error RoomId)
    (rows : List (Bytes × Bytes)) {p : Progress} (hm : Migrating count db p)
    (hrows : ∀ row ∈ rows, OldRow count row) (hsorted : rows.Pairwise fun a b => a.1 < b.1)
    (hahead : ∀ k, p.currentSstatehash = some k → ∀ row ∈ rows, 8 ≤ row.1.length → k ≤ ofBe (row.1.take 8)) :
    Comp.Ends (migrateRows ord roomOf rows p) db (fun p' db' => Migrating count db' p') (fun _ _ => True) := by
  induction rows generalizing db p with
  | nil => exact Comp.Ends.of_ok rfl hm
  | cons row rows ih =>
    obtain ⟨hfirst, hrest⟩ := List.pairwise_cons.mp hsorted
    unfold migrateRows
    by_cases hlength : 8 ≤ row.1.length
    · refine Comp.Ends.bind (migrateRow_layers hm ord roomOf (hrows row List.mem_cons_self)
        fun k hk => hahead k hk row List.mem_cons_self hlength) fun p' db' hq => ?_
      obtain ⟨hm', _, hcur⟩ := hq
      refine ih hm' (fun r hr => hrows r (List.mem_cons_of_mem _ hr)) hrest fun k hk r hr hlen => ?_
      rw [hcur] at hk
      cases hk
      exact name_le hlength hlen (hfirst r hr).le
    · have hthrow : migrateRow ord roomOf p row db =
          (.error (.panic "range end index 8 out of range for slice"), db) := by
        unfold migrateRow
        rw [if_pos (not_le.mp hlength)]
        rfl
      exact Comp.Ends.of_error (Comp.bind_error hthrow) trivial

/-- a store of version 6: no differences yet, and what was counted is below the counter -/
structure OldStore (db : StateDb) (stateidShorteventid : Tree Bytes Bytes) : Prop where
  counter : db.counter < 2^64
  statediffs : ∀ h, db.shortstatehashStatediff h = none
  cache : ∀ h, db.stateinfoCache h = none
  keys : ∀ k n, db.statekeyShortstatekey k = some n → 1 ≤ n ∧ n ≤ db.counter
  rows : ∀ row ∈ stateidShorteventid.rows, OldRow db.counter row

theorem OldStore.layers (h : OldStore db old) : Layers db := by
  refine .of_core ⟨h.counter, fun k v hk => ?_, fun k v hk => ?_, fun k st hk => ?_, nofun, h.keys⟩ h.statediffs
  · change db.shortstatehashStatediff k = some v at hk
    rw [h.statediffs] at hk
    cases hk
  · change db.shortstatehashStatediff k = some v at hk
    rw [h.statediffs] at hk
    cases hk
  · change db.stateinfoCache k = some st at hk
    rw [h.cache] at hk
    cases hk

theorem migrate_layers (h : OldStore db old) (ord : Order) (roomOf : Bytes → Except Error RoomId)
    (hrun : migrate ord roomOf old db = (.ok (), db')) : Layers db' := by
  have hstart : Migrating db.counter db ⟨none, none, ∅, fun _ => none⟩ :=
    ⟨h.layers, rfl, fun e he => absurd he (Finset.notMem_empty e), fun _ => h.statediffs, nofun⟩
  have hends : Comp.Ends (migrate ord roomOf old) db (fun _ db' => Layers db') (fun _ _ => True) := by
    unfold migrate
    refine Comp.Ends.bind (migrateRows_layers ord roomOf old.rows hstart h.rows old.sorted nofun) fun p db₁ hm => ?_
    refine Comp.Ends.bind (finishState_layers hm ord) fun _ db₂ hq => Comp.Ends.of_ok rfl hq.1
  unfold Comp.Ends at hends
  rw [hrun] at hends
  exact hends

/-! ## every store -/

/-- what the callers see to: no short state key is zero, and a state event is appended to a state with at most
one entry of its key -/
def LayersAllowed (db : StateDb) : Op → Prop
  | .saveState _ _ new => ∀ e ∈ new, e.hasKey 0 = false
  | .setEventState _ _ _ new => ∀ e ∈ new, e.hasKey 0 = false
  | .appendToState _ pdu => OneEntry db pdu
  | _ => True

/-- the stores of a server: migrations run before its first call -/
inductive Reached (digest : Bytes → Bytes) (P : StateDb → Op → Prop) : StateDb → Prop
  | empty : Reached digest P .empty
  | migrated {db db' : StateDb} {old : Tree Bytes Bytes} (ord : Order) (roomOf : Bytes → Except Error RoomId) :
    OldStore db old → migrate ord roomOf old db = (.ok (), db') → Reached digest P db'
  | call {db : StateDb} (op : Op) : Reached digest P db → P db op → Reached digest P (step digest ⟨db, []⟩ op).db

/-- what a call does to the states -/
def Effect (db : StateDb) : Op → StateDb → Prop
  | .saveState _ _ new, db' => Adds new db db'
  | .setEventState _ _ _ new, db' => Adds new db db'
  | .appendToState _ pdu, db' => Layers db' ∧ (db'.shortstatehashStatediff = db.shortstatehashStatediff ∨
      ∃ stateKey h, pdu.stateKey = some stateKey ∧ Appended pdu stateKey db h db')
  | _, db' => Layers db' ∧ db'.shortstatehashStatediff = db.shortstatehashStatediff

theorem step_effect {digest : Bytes → Bytes} {db : StateDb} (hl : Layers db) (op : Op) (hok : LayersAllowed db op) :
    Effect db op (step digest ⟨db, []⟩ op).db := by
  have hkin : ∀ db', Kin (unpointed db) (unpointed db') →
      Layers db' ∧ db'.shortstatehashStatediff = db.shortstatehashStatediff := fun _ hk => ⟨hl.kin hk, hk.rows⟩
  cases op with
  | saveState ord r new => exact (saveState_layers hl digest ord r hok).store (fun _ _ h => h) fun _ _ h => h
  | setEventState ord e r new =>
    exact (setEventState_layers hl digest ord e r hok).store (fun _ _ h => h) fun _ _ h => h
  | appendToState ord pdu =>
    refine (appendToStateWith_layers hl ord pdu hok).store (fun res db' h => ⟨h.1, ?_⟩) fun _ _ h => ⟨h.1, .inl h.2⟩
    cases hsk : pdu.stateKey with
    | none => exact .inl (h.2.1 hsk)
    | some stateKey => exact .inr ⟨stateKey, res.1, rfl, h.2.2 stateKey hsk⟩
  | setRoomState r h => exact ⟨hl.congr rfl rfl rfl rfl, rfl⟩
  | load h =>
    exact ((loadInfo_commutes (h + 1) h).ends (loadShortstatehashInfo_ends hl.core h)).store
      (fun _ _ hk => hkin _ hk) fun _ _ hk => hkin _ hk
  | evict keep =>
    obtain ⟨⟨h1, h2, h3, h4, h5, h6⟩, hshort⟩ := hl
    refine ⟨⟨⟨h1, h2, h3, fun n st hn => ?_, h5, h6⟩, hshort⟩, rfl⟩
    change (if keep n then db.stateinfoCache n else none) = some st at hn
    by_cases hk : keep n = true
    · rw [if_pos hk] at hn
      exact h4 n st hn
    · rw [if_neg hk] at hn
      cases hn
  | shortstatekey ty sk =>
    exact ((getOrCreateShortstatekey_commutes ty sk).ends (getOrCreateShortstatekey_ends hl.core ty sk)).store
      (fun _ _ hk => hkin _ hk.1) fun _ _ hk => hkin _ hk
  | shorteventid e =>
    exact ((getOrCreateShorteventid_commutes e).ends (getOrCreateShorteventid_ends hl.core e)).store
      (fun _ _ hk => hkin _ hk) fun _ _ hk => hkin _ hk
  | count =>
    refine (nextCount_ends db).store (fun n db' hn => ?_) fun _ db' hdb => ?_
    · obtain ⟨hn, hlt, rfl⟩ := hn
      exact ⟨hl.count hn hlt, rfl⟩
    · rw [hdb]
      exact ⟨hl, rfl⟩

theorem step_layers {digest : Bytes → Bytes} {db : StateDb} (hl : Layers db) (op : Op) (hok : LayersAllowed db op) :
    Layers (step digest ⟨db, []⟩ op).db := by
  have heffect := @step_effect digest db hl op hok
  cases op with
  | saveState ord r new => exact Adds.layers heffect
  | setEventState ord e r new => exact Adds.layers heffect
  | _ => exact heffect.1

theorem layers_reached {digest : Bytes → Bytes} (h : Reached digest LayersAllowed db) :
    Layers db := by
  induction h with
  | empty => exact .empty
  | migrated ord roomOf hold hrun => exact migrate_layers hold ord roomOf hrun
  | call op _ hok ih => exact step_layers ih op hok

/-- the rows of a loaded stack: parents are smaller, the base removes nothing, and the other layers add what
the parent lacks and remove what it has -/
def Stacked (db : StateDb) : List CompressedStateLayer → Prop
  | [] => True
  | [l] => db.getStatediff l.name = .ok ⟨none, l.diff⟩ ∧ l.diff.removed = ∅ ∧ l.full = l.diff.added
  | l :: p :: below => db.getStatediff l.name = .ok ⟨some p.name, l.diff⟩ ∧ p.name < l.name ∧
    Disjoint l.diff.added p.full ∧ l.diff.removed ⊆ p.full ∧ l.full = l.diff.on p.full ∧ Stacked db (p :: below)

theorem IsStack.stacked (hs : IsStack db.shortstatehashStatediff h st) : Stacked db st := by
  have hkept := hs.kept
  have hlay := hs.layered
  clear hs
  induction st with
  | nil => trivial
  | cons l below ih =>
    obtain ⟨⟨v, hv, hp⟩, hlt, _, hk⟩ := hkept
    obtain ⟨hclean, hfull, hl⟩ := hlay
    have hrow : db.getStatediff l.name = .ok ⟨below.head?.map Layer.name, l.diff⟩ := by
      unfold getStatediff
      rw [hv]
      exact hp
    cases below with
    | nil =>
      obtain ⟨hon, hremoved⟩ := on_empty_of_clean hclean
      exact ⟨hrow, hremoved, hfull.trans hon⟩
    | cons p below =>
      exact ⟨hrow, hlt p rfl, Finset.disjoint_left.mpr hclean.added_new, hclean.removed_old, hfull, ih hk hl⟩

/-- every stored difference loads, to a stack of four layers at most -/
def LayerBound (db : StateDb) : Prop :=
  ∀ h value, db.shortstatehashStatediff h = some value → ∃ st db',
    loadShortstatehashInfo h db = (.ok st, db') ∧ st.head?.map Layer.name = some h ∧ st.length ≤ 4 ∧ Stacked db st

/-- **the layers of every store are bounded** -/
theorem layers_bounded {digest : Bytes → Bytes} {db : StateDb} (h : Reached digest LayersAllowed db) :
    LayerBound db := by
  intro n value hv
  have hl := layers_reached h
  obtain ⟨st, hst⟩ : ∃ st, IsStack db.shortstatehashStatediff n st := hl.core.stacked n value hv
  obtain ⟨cache, hload, _⟩ := loadInfo_ok st n (n + 1) db hst hl.core.cache (Nat.lt_succ_self n)
  exact ⟨st, _, hload, hst.name, hl.short n st hst, hst.stacked⟩

/-- a state is saved in an empty store -/
theorem layers_bounded_one :
    LayerBound (step id ⟨.empty, []⟩ (.saveState ascendingOrder exampleRoom {.of 3 1})).db := by
  have hkeys : LayersAllowed .empty (.saveState ascendingOrder exampleRoom {.of 3 1}) :=
    show ∀ e ∈ ({.of 3 1} : Finset CompressedStateEvent), e.hasKey 0 = false by decide
  have hempty : Reached id LayersAllowed .empty := .empty
  have hreached := hempty.call (.saveState ascendingOrder exampleRoom {.of 3 1}) hkeys
  exact layers_bounded hreached

/-! ## two entries of one key -/

/-- no short state key is zero -/
def KeysAllowed (_ : StateDb) : Op → Prop
  | .saveState _ _ new => ∀ e ∈ new, e.hasKey 0 = false
  | .setEventState _ _ _ new => ∀ e ∈ new, e.hasKey 0 = false
  | _ => True

/-- the store behind the first calls -/
def overlapping : StateDb :=
  (step id ⟨(step id ⟨(step id ⟨.empty, []⟩ (.saveState ascendingOrder exampleRoom {.of 3 1, .of 3 2})).db, []⟩
    (.setRoomState exampleRoom 1)).db, []⟩ (.appendToState ascendingOrder exampleName)).db

/-- the top layer adds what its parent has -/
def overlaps : List CompressedStateLayer → Bool
  | l :: p :: _ => decide (¬ Disjoint l.diff.added p.full)
  | _ => false

/-- a room name replaces one entry of its key, and is the other one -/
theorem overlapping_layers : ¬ ∀ (digest : Bytes → Bytes) (db : StateDb), Reached digest KeysAllowed db →
    LayerBound db := by
  intro hall
  have hkeys : ∀ e ∈ ({.of 3 1, .of 3 2} : Finset CompressedStateEvent), e.hasKey 0 = false := by decide
  have hreached : Reached id KeysAllowed overlapping :=
    .call _ (.call (.setRoomState exampleRoom 1) (.call (.saveState ascendingOrder exampleRoom _) .empty hkeys)
      trivial) trivial
  have hrow : (overlapping.shortstatehashStatediff 4).isSome = true := by decide +kernel
  obtain ⟨value, hvalue⟩ := Option.isSome_iff_exists.mp hrow
  obtain ⟨st, db', hload, _, _, hst⟩ := hall id overlapping hreached 4 value hvalue
  have hover : (loadShortstatehashInfo 4 overlapping).1.toOption.map overlaps = some true := by decide +kernel
  rw [hload] at hover
  have hclash := Option.some.inj hover
  unfold overlaps at hclash
  split at hclash
  · exact of_decide_eq_true hclash hst.2.2.1
  · cases hclash

end StateDb
end Grapevine
