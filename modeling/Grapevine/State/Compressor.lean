import Mathlib.Data.Finset.Card
import Mathlib.Data.Finset.Option
import Grapevine.Data.Pdu
import Grapevine.Lib.Comp
import Grapevine.Lib.Joined
import Grapevine.Lib.Layers
import Grapevine.Timeline.Count

/-!
# The state compressor

A state of a room is a set of compressed state events (`shortstatekey ++ shorteventid`), stored
under a `shortstatehash` as a difference to another stored state.  `loadShortstatehashInfo`
follows the parents and keeps the stacks it has seen in a cache; `saveStateFromDiff` decides
which of the parents the new difference goes on top of.

A stack is a list here with the top layer first (the code's `Vec` has it last).  `Order` is the
order in which the hash sets of one call are iterated.

* `getStatediff_saveStatediff`   a row is read back as it was written, as long as no added event
                                 has the short state key `0` that separates the two halves;
* `joinSep_inj`                  the list that is hashed is determined by its bytes.
-/

namespace Grapevine
open Kv

/-! ## compressed state events -/

/-- `[u8; 16]` -/
structure CompressedStateEvent where
  bytes : Bytes
  length_eq : bytes.length = 16
deriving DecidableEq

namespace CompressedStateEvent

theorem ext_bytes {a b : CompressedStateEvent} (h : a.bytes = b.bytes) : a = b := by
  obtain ⟨a, _⟩ := a
  obtain ⟨b, _⟩ := b
  cases h
  rfl

def of (shortstatekey shorteventid : Nat) : CompressedStateEvent :=
  ⟨be64 shortstatekey ++ be64 shorteventid, by simp⟩

/-- `bytes.starts_with(&shortstatekey.to_be_bytes())` -/
def hasKey (e : CompressedStateEvent) (shortstatekey : Nat) : Bool :=
  (be64 shortstatekey).isPrefixOf e.bytes

theorem of_hasKey (k n : Nat) : (of k n).hasKey k = true := by
  unfold hasKey
  rw [List.isPrefixOf_iff_prefix]
  exact List.prefix_append _ _

theorem not_hasKey_zero {k : Nat} (h1 : 1 ≤ k) (h2 : k < 2^64) (n : Nat) :
    (of k n).hasKey 0 = false := by
  rw [Bool.eq_false_iff]
  intro h
  unfold hasKey at h
  rw [List.isPrefixOf_iff_prefix] at h
  have he : be64 0 = be64 k := by
    have := List.prefix_of_prefix_length_le h (List.prefix_append (be64 k) (be64 n)) (by simp)
    exact this.eq_of_length (by simp)
  have := be_inj (by norm_num) (two64 ▸ h2) he
  omega

end CompressedStateEvent

/-- the order in which a call iterates its hash sets -/
structure Order where
  enum : Finset CompressedStateEvent → List CompressedStateEvent
  nodup : ∀ s, (enum s).Nodup
  toFinset : ∀ s, (enum s).toFinset = s

theorem Order.mem (ord : Order) (s : Finset CompressedStateEvent) (e : CompressedStateEvent) :
    e ∈ ord.enum s ↔ e ∈ s := by
  rw [← List.mem_toFinset, ord.toFinset]

abbrev CompressedStateLayer := Layer Nat CompressedStateEvent

structure StateDiff where
  parent : Option Nat
  diff : Diff CompressedStateEvent

/-! ## the tables -/

/-- the counter, the short ids and the stored states -/
structure StateDb where
  counter : Nat
  eventidShorteventid : EventId → Option Nat
  shorteventidEventid : Nat → Option EventId
  statekeyShortstatekey : EventType × String → Option Nat
  shortstatekeyStatekey : Nat → Option (EventType × String)
  statehashShortstatehash : Bytes → Option Nat
  shortstatehashStatediff : Nat → Option Bytes
  stateinfoCache : Nat → Option (List CompressedStateLayer)
  roomidShortstatehash : RoomId → Option Nat
  shorteventidShortstatehash : Nat → Option Nat

def StateDb.empty : StateDb :=
  ⟨0, fun _ => none, fun _ => none, fun _ => none, fun _ => none, fun _ => none, fun _ => none,
    fun _ => none, fun _ => none, fun _ => none⟩

abbrev StateComp := Comp StateDb Error

namespace StateDb

variable {db : StateDb}

def counterOverflow : Error := .panic "attempt to add with overflow"

/-- `globals.next_count` -/
def nextCount : StateComp Nat := fun db =>
  if db.counter + 1 < 2^64 then (.ok (db.counter + 1), { db with counter := db.counter + 1 })
  else (.error counterOverflow, db)

theorem nextCount_below (h : db.counter + 1 < 2^64) :
    nextCount db = (.ok (db.counter + 1), { db with counter := db.counter + 1 }) := if_pos h

theorem nextCount_above (h : ¬ db.counter + 1 < 2^64) :
    nextCount db = (.error counterOverflow, db) := if_neg h

/-- a name is drawn and used, or the counter overflows -/
theorem nextCount_bind_cases {α : Type} (f : Nat → StateComp α) (db : StateDb) :
    (db.counter + 1 < 2^64 ∧ (nextCount >>= f) db = f (db.counter + 1) { db with counter := db.counter + 1 }) ∨
    (nextCount >>= f) db = (.error counterOverflow, db) := by
  by_cases hc : db.counter + 1 < 2^64
  · exact .inl ⟨hc, Comp.bind_ok (nextCount_below hc)⟩
  · exact .inr (Comp.bind_error (nextCount_above hc))

/-! ## rows -/

/-- the bytes of `save_statediff` -/
def statediffBytes (ord : Order) (d : StateDiff) : Bytes :=
  be64 (d.parent.getD 0) ++ ((ord.enum d.diff.added).flatMap CompressedStateEvent.bytes ++
    if d.diff.removed = ∅ then []
    else be64 0 ++ (ord.enum d.diff.removed).flatMap CompressedStateEvent.bytes)

def saveStatediff (ord : Order) (shortstatehash : Nat) (d : StateDiff) : StateComp Unit :=
  Comp.modify (fun db => { db with
    shortstatehashStatediff :=
      Function.update db.shortstatehashStatediff shortstatehash (some (statediffBytes ord d)) })

/-- the loop of `get_statediff`, on the bytes from `i` on -/
def readEvents : Nat → Bool → Bytes → Diff CompressedStateEvent → Diff CompressedStateEvent
  | 0, _, _, d => d
  | fuel + 1, addMode, rest, d =>
    if h : (rest.take 16).length = 16 then
      let v : CompressedStateEvent := ⟨rest.take 16, h⟩
      if addMode && v.hasKey 0 then readEvents fuel false (rest.drop 8) d
      else if addMode then readEvents fuel addMode (rest.drop 16) ⟨insert v d.added, d.removed⟩
      else readEvents fuel addMode (rest.drop 16) ⟨d.added, insert v d.removed⟩
    else d

/-- the value that `get_statediff` makes of a row -/
def parseStatediff (value : Bytes) : Except Error StateDiff :=
  if value.length < 8 then .error (.panic "range end index 8 out of range for slice")
  else
    let parent := ofBe (value.take 8)
    .ok ⟨if parent ≠ 0 then some parent else none,
      readEvents value.length true (value.drop 8) ⟨∅, ∅⟩⟩

def getStatediff (db : StateDb) (shortstatehash : Nat) : Except Error StateDiff :=
  match db.shortstatehashStatediff shortstatehash with
  | some value => parseStatediff value
  | none => .error (.badDatabase "State hash does not exist")

/-! ## loading -/

/-- the stack that a difference makes on top of its parent's; `load` loads the parent -/
def onParent (load : Nat → StateComp (List CompressedStateLayer)) (shortstatehash : Nat)
    (d : StateDiff) : StateComp (List CompressedStateLayer) :=
  match d.parent with
  | some parent => do
    let response ← load parent
    let last ← Comp.expect response.head? (.panic "called `Option::unwrap()` on a `None` value")
    pure (⟨shortstatehash, d.diff.on last.full, d.diff⟩ :: response)
  | none => pure [⟨shortstatehash, d.diff.added, d.diff⟩]

/-- `load_shortstatehash_info`, to the given depth of recursion -/
def loadInfo : Nat → Nat → StateComp (List CompressedStateLayer)
  | 0, _ => Comp.throw (.panic "stack overflow")
  | fuel + 1, shortstatehash => do
    match (← Comp.get).stateinfoCache shortstatehash with
    | some r => pure r
    | none =>
      let d ← Comp.reads (fun db => db.getStatediff shortstatehash)
      let response ← onParent (loadInfo fuel) shortstatehash d
      Comp.modify (fun db => { db with
        stateinfoCache := Function.update db.stateinfoCache shortstatehash (some response) })
      pure response

/-- a parent has a smaller name than its child, so this depth is enough (`loadInfo_ok`) -/
def loadShortstatehashInfo (shortstatehash : Nat) : StateComp (List CompressedStateLayer) :=
  loadInfo (shortstatehash + 1) shortstatehash

/-- loading looks at the rows and the cache of the states alone -/
theorem loadInfo_commutes_of {g : StateDb → StateDb}
    (hrows : ∀ db, (g db).shortstatehashStatediff = db.shortstatehashStatediff)
    (hcache : ∀ db, (g db).stateinfoCache = db.stateinfoCache)
    (hg : ∀ db t, { g db with stateinfoCache := t } = g { db with stateinfoCache := t }) (fuel h : Nat) :
    Comp.Commutes g (loadInfo fuel h) := by
  induction fuel generalizing h with
  | zero => exact fun _ => rfl
  | succ fuel ih =>
    refine Comp.Commutes.get (fun db => by rw [hcache]) fun db => ?_
    cases db.stateinfoCache h with
    | some r => exact Comp.Commutes.pure r
    | none =>
      refine Comp.Commutes.bind (Comp.Commutes.reads fun db => by rw [getStatediff, getStatediff, hrows]) fun d =>
        Comp.Commutes.bind ?_ fun response =>
          Comp.Commutes.bind (Comp.Commutes.modify fun db => by rw [hcache, hg]) fun _ => Comp.Commutes.pure response
      unfold onParent
      cases d.parent with
      | none => exact Comp.Commutes.pure _
      | some p =>
        refine Comp.Commutes.bind (ih p) fun response => Comp.Commutes.bind ?_ fun _ => Comp.Commutes.pure _
        cases response.head? <;> exact fun _ => rfl

theorem loadShortstatehashInfo_congr {db db' : StateDb}
    (hrows : db'.shortstatehashStatediff = db.shortstatehashStatediff)
    (hcache : db'.stateinfoCache = db.stateinfoCache) (h : Nat) :
    (loadShortstatehashInfo h db').1 = (loadShortstatehashInfo h db).1 := by
  let g : StateDb → StateDb := fun s => { db' with
    shortstatehashStatediff := s.shortstatehashStatediff, stateinfoCache := s.stateinfoCache }
  have hg : db' = g db := by
    show db' = { db' with shortstatehashStatediff := db.shortstatehashStatediff, stateinfoCache := db.stateinfoCache }
    rw [← hrows, ← hcache]
  have hcommutes : Comp.Commutes g (loadInfo (h + 1) h) :=
    loadInfo_commutes_of (g := g) (fun _ => rfl) (fun _ => rfl) (fun _ _ => rfl) (h + 1) h
  have hload : loadInfo (h + 1) h (g db) = ((loadInfo (h + 1) h db).1, g (loadInfo (h + 1) h db).2) := hcommutes db
  show (loadInfo (h + 1) h db').1 = _
  rw [hg, hload]
  rfl

/-! ## saving -/

/-- the two loops that put a difference into its parent -/
def intoParent (ord : Order) (parent : CompressedStateLayer) (d : Diff CompressedStateEvent) :
    Diff CompressedStateEvent :=
  parent.diff.merge (ord.enum d.removed) (ord.enum d.added)

def diffsum (d : Diff CompressedStateEvent) : Nat := d.added.card + d.removed.card

def saveStateFromDiff (ord : Order) (shortstatehash : Nat) :
    List CompressedStateLayer → Diff CompressedStateEvent → Nat → StateComp Unit
  | [], d, _ => saveStatediff ord shortstatehash ⟨none, d⟩
  | parent :: parentStates, d, diffToSibling =>
    -- too many layers, we have to go deeper
    if (parent :: parentStates).length > 3 then
      saveStateFromDiff ord shortstatehash parentStates (intoParent ord parent d) (diffsum d)
    -- the difference is too big, we replace the layer above
    else if diffsum d * diffsum d ≥ 2 * diffToSibling * diffsum parent.diff then
      saveStateFromDiff ord shortstatehash parentStates (intoParent ord parent d) (diffsum d)
    else saveStatediff ord shortstatehash ⟨some parent.name, d⟩

/-- the bytes that `calculate_hash` digests -/
def joinSep : List CompressedStateEvent → Bytes
  | [] => []
  | [e] => e.bytes
  | e :: es => e.bytes ++ sep :: joinSep es

variable (digest : Bytes → Bytes)

def calculateHash (keys : List CompressedStateEvent) : Bytes := digest (joinSep keys)

def getOrCreateShortstatehash (stateHash : Bytes) : StateComp (Nat × Bool) := do
  match (← Comp.get).statehashShortstatehash stateHash with
  | some shortstatehash => pure (shortstatehash, true)
  | none =>
    let shortstatehash ← nextCount
    Comp.modify (fun db => { db with
      statehashShortstatehash :=
        Function.update db.statehashShortstatehash stateHash (some shortstatehash) })
    pure (shortstatehash, false)

def getOrCreateShorteventid (e : EventId) : StateComp Nat := do
  match (← Comp.get).eventidShorteventid e with
  | some shorteventid => pure shorteventid
  | none =>
    let shorteventid ← nextCount
    Comp.modify (fun db => { db with
      eventidShorteventid := Function.update db.eventidShorteventid e (some shorteventid)
      shorteventidEventid := Function.update db.shorteventidEventid shorteventid (some e) })
    pure shorteventid

def getOrCreateShortstatekey (eventType : EventType) (stateKey : String) : StateComp Nat := do
  match (← Comp.get).statekeyShortstatekey (eventType, stateKey) with
  | some shortstatekey => pure shortstatekey
  | none =>
    let shortstatekey ← nextCount
    Comp.modify (fun db => { db with
      statekeyShortstatekey :=
        Function.update db.statekeyShortstatekey (eventType, stateKey) (some shortstatekey)
      shortstatekeyStatekey :=
        Function.update db.shortstatekeyStatekey shortstatekey (some (eventType, stateKey)) })
    pure shortstatekey

theorem getOrCreateShorteventid_cases (e : EventId) (db : StateDb) :
    (∃ n, db.eventidShorteventid e = some n ∧ getOrCreateShorteventid e db = (.ok n, db)) ∨
    (db.eventidShorteventid e = none ∧ db.counter + 1 < 2^64 ∧
      getOrCreateShorteventid e db = (.ok (db.counter + 1), { db with
        counter := db.counter + 1
        eventidShorteventid := Function.update db.eventidShorteventid e (some (db.counter + 1))
        shorteventidEventid := Function.update db.shorteventidEventid (db.counter + 1) (some e) })) ∨
    getOrCreateShorteventid e db = (.error counterOverflow, db) := by
  unfold getOrCreateShorteventid
  rw [Comp.bind_ok (Comp.get_run db)]
  cases hs : db.eventidShorteventid e with
  | some n => exact .inl ⟨n, rfl, rfl⟩
  | none =>
    rcases nextCount_bind_cases _ db with ⟨hc, hrun⟩ | hrun
    · exact .inr (.inl ⟨rfl, hc, hrun⟩)
    · exact .inr (.inr hrun)

theorem getOrCreateShortstatekey_cases (eventType : EventType) (stateKey : String) (db : StateDb) :
    (∃ n, db.statekeyShortstatekey (eventType, stateKey) = some n ∧
      getOrCreateShortstatekey eventType stateKey db = (.ok n, db)) ∨
    (db.statekeyShortstatekey (eventType, stateKey) = none ∧ db.counter + 1 < 2^64 ∧
      getOrCreateShortstatekey eventType stateKey db = (.ok (db.counter + 1), { db with
        counter := db.counter + 1
        statekeyShortstatekey :=
          Function.update db.statekeyShortstatekey (eventType, stateKey) (some (db.counter + 1))
        shortstatekeyStatekey :=
          Function.update db.shortstatekeyStatekey (db.counter + 1) (some (eventType, stateKey)) })) ∨
    getOrCreateShortstatekey eventType stateKey db = (.error counterOverflow, db) := by
  unfold getOrCreateShortstatekey
  rw [Comp.bind_ok (Comp.get_run db)]
  cases hs : db.statekeyShortstatekey (eventType, stateKey) with
  | some n => exact .inl ⟨n, rfl, rfl⟩
  | none =>
    rcases nextCount_bind_cases _ db with ⟨hc, hrun⟩ | hrun
    · exact .inr (.inl ⟨rfl, hc, hrun⟩)
    · exact .inr (.inr hrun)

def compressStateEvent (shortstatekey : Nat) (e : EventId) : StateComp CompressedStateEvent := do
  let shorteventid ← getOrCreateShorteventid e
  pure (.of shortstatekey shorteventid)

theorem compressStateEvent_snd (k : Nat) (e : EventId) (db : StateDb) :
    (compressStateEvent k e db).2 = (getOrCreateShorteventid e db).2 := by
  unfold compressStateEvent
  cases hrun : getOrCreateShorteventid e db with
  | mk o db' =>
    cases o with
    | ok n =>
      rw [Comp.bind_ok hrun]
      rfl
    | error err => rw [Comp.bind_error hrun]

def getRoomShortstatehash (r : RoomId) : StateComp (Option Nat) :=
  Comp.gets (fun db => db.roomidShortstatehash r)

def setRoomState (r : RoomId) (shortstatehash : Nat) : StateComp Unit :=
  Comp.modify (fun db => { db with
    roomidShortstatehash := Function.update db.roomidShortstatehash r (some shortstatehash) })

/-- `set_event_state` of the database -/
def setEventShortstatehash (shorteventid shortstatehash : Nat) : StateComp Unit :=
  Comp.modify (fun db => { db with
    shorteventidShortstatehash :=
      Function.update db.shorteventidShortstatehash shorteventid (some shortstatehash) })

/-- the layers of the room's current state -/
def statesParents (previous : Option Nat) : StateComp (List CompressedStateLayer) :=
  match previous with
  | none => pure []
  | some p => loadShortstatehashInfo p

/-- the difference to the last parent, or the whole state if there is none -/
def diffToParents (parents : List CompressedStateLayer) (new : Finset CompressedStateEvent) :
    Diff CompressedStateEvent :=
  match parents with
  | parent :: _ => ⟨new \ parent.full, parent.full \ new⟩
  | [] => ⟨new, ∅⟩

def saveState (ord : Order) (r : RoomId) (new : Finset CompressedStateEvent) :
    StateComp (Nat × Finset CompressedStateEvent × Finset CompressedStateEvent) := do
  let previous ← getRoomShortstatehash r
  let stateHash := calculateHash digest (ord.enum new)
  let (shortstatehash, alreadyExisted) ← getOrCreateShortstatehash stateHash
  if some shortstatehash = previous then
    pure (shortstatehash, ∅, ∅)
  else
    let parents ← statesParents previous
    let d := diffToParents parents new
    if !alreadyExisted then
      -- every state change is 2 event changes on average
      saveStateFromDiff ord shortstatehash parents d 2
    pure (shortstatehash, d.added, d.removed)

def setEventState (ord : Order) (e : EventId) (r : RoomId) (new : Finset CompressedStateEvent) :
    StateComp Nat := do
  let shorteventid ← getOrCreateShorteventid e
  let previous ← getRoomShortstatehash r
  let stateHash := calculateHash digest (ord.enum new)
  let (shortstatehash, alreadyExisted) ← getOrCreateShortstatehash stateHash
  if !alreadyExisted then
    let parents ← statesParents previous
    -- high number because no state will be based on this one
    saveStateFromDiff ord shortstatehash parents (diffToParents parents new) 1000000
  setEventShortstatehash shorteventid shortstatehash
  pure shortstatehash

/-- the entry of the last parent that an event of this short state key replaces -/
def replaces (ord : Order) (parents : List CompressedStateLayer) (shortstatekey : Nat) :
    Option CompressedStateEvent :=
  parents.head?.bind (fun info => (ord.enum info.full).find? (fun e => e.hasKey shortstatekey))

/-- the state that `append_to_state` stands for: the last parent without `replaces`, with `new` -/
def appendedState (parents : List CompressedStateLayer) (old : Option CompressedStateEvent)
    (new : CompressedStateEvent) : Finset CompressedStateEvent :=
  insert new (topFull parents \ old.toFinset)

/-- the event is at the room's current state -/
def setCurrentState (shorteventid : Nat) (previous : Option Nat) : StateComp Unit :=
  match previous with
  | some p => setEventShortstatehash shorteventid p
  | none => pure ()

/-- the branch of `append_to_state` for a state event -/
def appendStateEvent (ord : Order) (pdu : PduEvent) (stateKey : String) (previous : Option Nat) :
    StateComp (Nat × Option (Finset CompressedStateEvent)) := do
  let parents ← statesParents previous
  let shortstatekey ← getOrCreateShortstatekey pdu.kind stateKey
  let new ← compressStateEvent shortstatekey pdu.eventId
  let old := replaces ord parents shortstatekey
  if some new = old then
    let p ← Comp.expect previous (.panic "must exist")
    pure (p, some (appendedState parents old new))
  else
    let shortstatehash ← nextCount
    saveStateFromDiff ord shortstatehash parents ⟨{new}, old.toFinset⟩ 2
    pure (shortstatehash, some (appendedState parents old new))

/-- `append_to_state`, with the state set that a new state event makes -/
def appendToStateWith (ord : Order) (pdu : PduEvent) :
    StateComp (Nat × Option (Finset CompressedStateEvent)) := do
  let shorteventid ← getOrCreateShorteventid pdu.eventId
  let previous ← getRoomShortstatehash pdu.roomId
  setCurrentState shorteventid previous
  match pdu.stateKey with
  | some stateKey => appendStateEvent ord pdu stateKey previous
  | none =>
    let p ← Comp.expect previous (.panic "first event in room must be a state event")
    pure (p, none)

def appendToState (ord : Order) (pdu : PduEvent) : StateComp Nat := do
  let (shortstatehash, _) ← appendToStateWith ord pdu
  pure shortstatehash

/-! ## rows are read back as they were written -/

theorem take16_flat (e : CompressedStateEvent) (rest : Bytes) :
    (e.bytes ++ rest).take 16 = e.bytes ∧ (e.bytes ++ rest).drop 16 = rest := by
  rw [← e.length_eq]
  exact ⟨List.take_left, List.drop_left⟩

theorem readEvents_added (es : List CompressedStateEvent) (hes : ∀ e ∈ es, e.hasKey 0 = false)
    (fuel : Nat) (rest : Bytes) (d : Diff CompressedStateEvent) :
    readEvents (es.length + fuel) true (es.flatMap CompressedStateEvent.bytes ++ rest) d
      = readEvents fuel true rest ⟨d.added ∪ es.toFinset, d.removed⟩ := by
  induction es generalizing d with
  | nil => simp
  | cons e es ih =>
    obtain ⟨ht, hd⟩ := take16_flat e (es.flatMap CompressedStateEvent.bytes ++ rest)
    have hlen : ((e.bytes ++ (es.flatMap CompressedStateEvent.bytes ++ rest)).take 16).length = 16 := by
      rw [ht, e.length_eq]
    have hv : (⟨_, hlen⟩ : CompressedStateEvent) = e := CompressedStateEvent.ext_bytes ht
    rw [List.length_cons, show es.length + 1 + fuel = (es.length + fuel) + 1 by omega,
      List.flatMap_cons, List.append_assoc, readEvents, dif_pos hlen]
    simp only [hv, hes e List.mem_cons_self, hd, Bool.and_false, Bool.false_eq_true, if_false,
      if_true]
    rw [ih (fun x hx => hes x (List.mem_cons_of_mem _ hx))]
    congr 2
    rw [List.toFinset_cons, Finset.insert_union, Finset.union_insert]

theorem readEvents_removed (es : List CompressedStateEvent) (fuel : Nat)
    (d : Diff CompressedStateEvent) :
    readEvents (es.length + fuel) false (es.flatMap CompressedStateEvent.bytes) d
      = ⟨d.added, d.removed ∪ es.toFinset⟩ := by
  induction es generalizing d with
  | nil =>
    cases fuel with
    | zero => simp [readEvents]
    | succ fuel => simp [readEvents]
  | cons e es ih =>
    obtain ⟨ht, hd⟩ := take16_flat e (es.flatMap CompressedStateEvent.bytes)
    have hlen : ((e.bytes ++ es.flatMap CompressedStateEvent.bytes).take 16).length = 16 := by
      rw [ht, e.length_eq]
    have hv : (⟨_, hlen⟩ : CompressedStateEvent) = e := CompressedStateEvent.ext_bytes ht
    rw [List.length_cons, show es.length + 1 + fuel = (es.length + fuel) + 1 by omega,
      List.flatMap_cons, readEvents, dif_pos hlen]
    simp only [hv, hd, Bool.false_and, Bool.false_eq_true, if_false]
    rw [ih]
    congr 1
    rw [List.toFinset_cons, Finset.insert_union, Finset.union_insert]

/-- the eight zero bytes in front of the removed half -/
theorem readEvents_separator (e : CompressedStateEvent) (rest : Bytes) (fuel : Nat)
    (d : Diff CompressedStateEvent) :
    readEvents (fuel + 1) true (be64 0 ++ (e.bytes ++ rest)) d
      = readEvents fuel false (e.bytes ++ rest) d := by
  have hlen : ((be64 0 ++ (e.bytes ++ rest)).take 16).length = 16 := by
    rw [List.length_take, List.length_append, List.length_append, be64_length, e.length_eq]
    omega
  have hkey : (⟨_, hlen⟩ : CompressedStateEvent).hasKey 0 = true := by
    unfold CompressedStateEvent.hasKey
    rw [List.isPrefixOf_iff_prefix, List.prefix_take_iff]
    exact ⟨List.prefix_append _ _, by simp⟩
  have hd : (be64 0 ++ (e.bytes ++ rest)).drop 8 = e.bytes ++ rest := by
    conv_lhs => rw [← be64_length 0]
    exact List.drop_left
  rw [readEvents, dif_pos hlen]
  simp only [hkey, hd, Bool.and_true, if_true]

theorem length_flat (es : List CompressedStateEvent) :
    (es.flatMap CompressedStateEvent.bytes).length = 16 * es.length := by
  induction es with
  | nil => rfl
  | cons e es ih =>
    rw [List.flatMap_cons, List.length_append, ih, e.length_eq, List.length_cons]
    omega

theorem parseStatediff_bytes (ord : Order) (d : StateDiff) (hp : ∀ p, d.parent = some p → 1 ≤ p ∧ p < 2^64)
    (hkeys : ∀ e ∈ d.diff.added, e.hasKey 0 = false) :
    parseStatediff (statediffBytes ord d) = .ok d := by
  obtain ⟨parent, ⟨added, removed⟩⟩ := d
  have hadd : ∀ e ∈ ord.enum added, e.hasKey 0 = false :=
    fun e he => hkeys e ((ord.mem added e).mp he)
  have hword : parent.getD 0 < 2^64 := by
    cases parent with
    | none => exact Nat.two_pow_pos 64
    | some p => exact (hp p rfl).2
  have hparent : (if ofBe (be64 (parent.getD 0)) ≠ 0 then some (ofBe (be64 (parent.getD 0))) else none)
      = parent := by
    rw [ofBe_be64 hword]
    cases parent with
    | none => rfl
    | some p =>
      have := (hp p rfl).1
      exact if_pos (show p ≠ 0 by omega)
  unfold parseStatediff statediffBytes
  simp only
  generalize hrest : (ord.enum added).flatMap CompressedStateEvent.bytes ++
    (if removed = ∅ then [] else
      be64 0 ++ (ord.enum removed).flatMap CompressedStateEvent.bytes) = rest
  have htake : (be64 (parent.getD 0) ++ rest).take 8 = be64 (parent.getD 0) := by
    conv_lhs => rw [← be64_length (parent.getD 0)]
    exact List.take_left
  have hdrop : (be64 (parent.getD 0) ++ rest).drop 8 = rest := by
    conv_lhs => rw [← be64_length (parent.getD 0)]
    exact List.drop_left
  have hlen : (be64 (parent.getD 0) ++ rest).length = 8 + rest.length := by simp
  rw [htake, hdrop, hlen, if_neg (by omega), hparent]
  congr 2
  by_cases hr : removed = ∅
  · rw [if_pos hr, List.append_nil] at hrest
    have hl : rest.length = 16 * (ord.enum added).length := by rw [← hrest, length_flat]
    have hread := readEvents_added (ord.enum added) hadd (8 + 15 * (ord.enum added).length) []
      ⟨∅, ∅⟩
    rw [List.append_nil, hrest] at hread
    rw [hl, show 8 + 16 * (ord.enum added).length
      = (ord.enum added).length + (8 + 15 * (ord.enum added).length) by omega, hread, hr,
      ord.toFinset, Finset.empty_union]
    rw [show 8 + 15 * (ord.enum added).length = (7 + 15 * (ord.enum added).length) + 1 by omega,
      readEvents, dif_neg (by simp)]
  · rw [if_neg hr] at hrest
    have hl : rest.length = 16 * (ord.enum added).length + (8 + 16 * (ord.enum removed).length) := by
      rw [← hrest, List.length_append, List.length_append, length_flat, length_flat, be64_length]
    cases hrem : ord.enum removed with
    | nil =>
      have : removed = ∅ := by rw [← ord.toFinset removed, hrem]; rfl
      exact absurd this hr
    | cons e es =>
      have hread := readEvents_added (ord.enum added) hadd
        (15 * (ord.enum added).length + 15 * (ord.enum removed).length + 15 + (ord.enum removed).length + 1)
        (be64 0 ++ (ord.enum removed).flatMap CompressedStateEvent.bytes) ⟨∅, ∅⟩
      rw [hrest] at hread
      rw [hl, show 8 + (16 * (ord.enum added).length + (8 + 16 * (ord.enum removed).length))
        = (ord.enum added).length + (15 * (ord.enum added).length + 15 * (ord.enum removed).length
          + 15 + (ord.enum removed).length + 1) by omega, hread]
      have hsep := readEvents_separator e (es.flatMap CompressedStateEvent.bytes)
        (15 * (ord.enum added).length + 15 * (ord.enum removed).length + 15 + (ord.enum removed).length)
        ⟨∅ ∪ (ord.enum added).toFinset, ∅⟩
      rw [← List.flatMap_cons, ← hrem] at hsep
      rw [hsep, show 15 * (ord.enum added).length + 15 * (ord.enum removed).length + 15
          + (ord.enum removed).length = (ord.enum removed).length
          + (15 * (ord.enum added).length + 15 * (ord.enum removed).length + 15) by omega,
        readEvents_removed, ord.toFinset, ord.toFinset, Finset.empty_union, Finset.empty_union]

/-- a row is read back as it was written, in any order of the hash sets, and no other row is touched -/
theorem getStatediff_saveStatediff (ord : Order) (db : StateDb) (shortstatehash : Nat) (d : StateDiff)
    (hparent : d.parent ≠ some 0) (hword : ∀ p, d.parent = some p → p < 2^64)
    (hadded : ∀ e ∈ d.diff.added, e.hasKey 0 = false) :
    (saveStatediff ord shortstatehash d db).1 = .ok () ∧
      getStatediff (saveStatediff ord shortstatehash d db).2 shortstatehash = .ok d ∧
      ∀ other, other ≠ shortstatehash →
        getStatediff (saveStatediff ord shortstatehash d db).2 other = getStatediff db other := by
  have hp : ∀ p, d.parent = some p → 1 ≤ p ∧ p < 2^64 := by
    intro p hsome
    have hne : p ≠ 0 := fun h0 => hparent (h0 ▸ hsome)
    exact ⟨Nat.one_le_iff_ne_zero.mpr hne, hword p hsome⟩
  refine ⟨rfl, ?_, fun other hother => ?_⟩
  · unfold getStatediff saveStatediff Comp.modify
    simp only [Function.update_self]
    exact parseStatediff_bytes ord d hp hadded
  · unfold getStatediff saveStatediff Comp.modify
    simp only [Function.update_of_ne hother]

/-- a row over the state 7, with one added and one removed event -/
def oneEach : StateDiff := ⟨some 7, ⟨{.of 3 1}, {.of 4 1}⟩⟩

theorem getStatediff_oneEach :
    getStatediff (saveStatediff ⟨Finset.toList, Finset.nodup_toList, Finset.toList_toFinset⟩ 9 oneEach .empty).2 9
      = .ok oneEach := by
  have hword : ∀ p, oneEach.parent = some p → p < 2^64 := by
    intro p hp
    cases hp
    norm_num
  have hadded : ∀ e ∈ oneEach.diff.added, e.hasKey 0 = false := by
    intro e he
    rw [Finset.mem_singleton.mp he]
    exact CompressedStateEvent.not_hasKey_zero (by omega) (by omega) 1
  exact (getStatediff_saveStatediff _ .empty 9 oneEach (by simp [oneEach]) hword hadded).2.1

/-! ## the hashed list -/

theorem joinSep_eq (es : List CompressedStateEvent) :
    joinSep es = [sep].intercalate (es.map CompressedStateEvent.bytes) := by
  induction es with
  | nil => rfl
  | cons e es ih =>
    cases es with
    | nil => simp [joinSep]
    | cons f es =>
      show e.bytes ++ sep :: joinSep (f :: es) = _
      rw [ih, List.map_cons, List.map_cons, List.map_cons, List.intercalate_cons_cons]
      exact List.append_cons _ _ _

theorem joinSep_inj (l m : List CompressedStateEvent) (h : joinSep l = joinSep m) : l = m := by
  rw [joinSep_eq, joinSep_eq] at h
  have hlength : ∀ es : List CompressedStateEvent, ∀ a ∈ es.map CompressedStateEvent.bytes, a.length = 16 := by
    intro es a ha
    obtain ⟨e, -, rfl⟩ := List.mem_map.mp ha
    exact e.length_eq
  have hbytes := intercalate_inj (Delimited.ofLength sep (by omega)) (hlength l) (hlength m) h
  exact List.map_injective_iff.mpr (fun _ _ => CompressedStateEvent.ext_bytes) hbytes

end StateDb
end Grapevine
