import Grapevine.Lib.Faults
import Grapevine.State.Snapshots

/-!
# Saving states on a database that fails

The calls of the state compressor again, operation by operation: each read, write and count may fail, and the
call returns the error there.  The row of a hash is written before the row of its difference, and a later call
takes the first as a sign of the second.

* `Failing.saveState`, …        the calls; without failures they are those of the compressor
                                (`saveState_unfailing`, …);
* `Spares`                      a new hash gets its difference in the same call.

Main result: `load_survives`.  If each call spares, what a later call returns loads to the state of that
call.  `saved_without_row` is a run with one failure, behind which a state is saved and cannot be loaded.
-/

namespace Grapevine
open Kv

namespace StateDb

/-- the operations of the calls on the database -/
inductive DbOp where
  | nextCount
  | getShorteventid
  | putShorteventid
  | putEventid
  | getShortstatekey
  | putShortstatekey
  | putStatekey
  | getStatehash
  | putStatehash
  | getStatediff (shortstatehash : Nat)
  | putStatediff
  | getRoomShortstatehash
  | putRoomShortstatehash
  | putEventShortstatehash

/-- which operations of a call fail, by their number and their kind -/
abbrev Plan := Nat → DbOp → Bool

abbrev FailComp := Comp (StateDb × Nat) Error

/-- an error of the database itself; its text plays no part -/
def rocksDbError : Error := .badDatabase "RocksDB"

namespace Failing
open Comp

variable (fails : Plan)
variable {db' : StateDb} {s : Run} {o : DbOp} {n : Nat}

def tryOp {α : Type} (o : DbOp) (x : StateComp α) : FailComp α := attempt fails rocksDbError o x

def nextCount : FailComp Nat := tryOp fails .nextCount StateDb.nextCount

def getOrCreateShorteventid (e : EventId) : FailComp Nat := do
  match ← tryOp fails .getShorteventid (Comp.gets fun db => db.eventidShorteventid e) with
  | some shorteventid => pure shorteventid
  | none =>
    let shorteventid ← nextCount fails
    tryOp fails .putShorteventid (Comp.modify fun db => { db with
      eventidShorteventid := Function.update db.eventidShorteventid e (some shorteventid) })
    tryOp fails .putEventid (Comp.modify fun db => { db with
      shorteventidEventid := Function.update db.shorteventidEventid shorteventid (some e) })
    pure shorteventid

def getOrCreateShortstatekey (eventType : EventType) (stateKey : String) : FailComp Nat := do
  match ← tryOp fails .getShortstatekey (Comp.gets fun db => db.statekeyShortstatekey (eventType, stateKey)) with
  | some shortstatekey => pure shortstatekey
  | none =>
    let shortstatekey ← nextCount fails
    tryOp fails .putShortstatekey (Comp.modify fun db => { db with
      statekeyShortstatekey :=
        Function.update db.statekeyShortstatekey (eventType, stateKey) (some shortstatekey) })
    tryOp fails .putStatekey (Comp.modify fun db => { db with
      shortstatekeyStatekey :=
        Function.update db.shortstatekeyStatekey shortstatekey (some (eventType, stateKey)) })
    pure shortstatekey

def compressStateEvent (shortstatekey : Nat) (e : EventId) : FailComp CompressedStateEvent := do
  let shorteventid ← getOrCreateShorteventid fails e
  pure (.of shortstatekey shorteventid)

def getOrCreateShortstatehash (stateHash : Bytes) : FailComp (Nat × Bool) := do
  match ← tryOp fails .getStatehash (Comp.gets fun db => db.statehashShortstatehash stateHash) with
  | some shortstatehash => pure (shortstatehash, true)
  | none =>
    let shortstatehash ← nextCount fails
    tryOp fails .putStatehash (Comp.modify fun db => { db with
      statehashShortstatehash :=
        Function.update db.statehashShortstatehash stateHash (some shortstatehash) })
    pure (shortstatehash, false)

def onParent (load : Nat → FailComp (List CompressedStateLayer)) (shortstatehash : Nat) (d : StateDiff) :
    FailComp (List CompressedStateLayer) :=
  match d.parent with
  | some parent => do
    let response ← load parent
    let last ← Comp.expect response.head? (.panic "called `Option::unwrap()` on a `None` value")
    pure (⟨shortstatehash, d.diff.on last.full, d.diff⟩ :: response)
  | none => pure [⟨shortstatehash, d.diff.added, d.diff⟩]

/-- the cache is no part of the database -/
def loadInfo : Nat → Nat → FailComp (List CompressedStateLayer)
  | 0, _ => Comp.throw (.panic "stack overflow")
  | fuel + 1, shortstatehash => do
    match (← lift Comp.get).stateinfoCache shortstatehash with
    | some r => pure r
    | none =>
      let d ← tryOp fails (.getStatediff shortstatehash) (Comp.reads fun db => db.getStatediff shortstatehash)
      let response ← onParent (loadInfo fuel) shortstatehash d
      lift (Comp.modify fun db => { db with
        stateinfoCache := Function.update db.stateinfoCache shortstatehash (some response) })
      pure response

def loadShortstatehashInfo (shortstatehash : Nat) : FailComp (List CompressedStateLayer) :=
  loadInfo fails (shortstatehash + 1) shortstatehash

/-- the only operation is the write of the row -/
def saveStateFromDiff (ord : Order) (shortstatehash : Nat) (parents : List CompressedStateLayer)
    (d : Diff CompressedStateEvent) (diffToSibling : Nat) : FailComp Unit :=
  tryOp fails .putStatediff (StateDb.saveStateFromDiff ord shortstatehash parents d diffToSibling)

def getRoomShortstatehash (r : RoomId) : FailComp (Option Nat) :=
  tryOp fails .getRoomShortstatehash (StateDb.getRoomShortstatehash r)

def setRoomState (r : RoomId) (shortstatehash : Nat) : FailComp Unit :=
  tryOp fails .putRoomShortstatehash (StateDb.setRoomState r shortstatehash)

def setEventShortstatehash (shorteventid shortstatehash : Nat) : FailComp Unit :=
  tryOp fails .putEventShortstatehash (StateDb.setEventShortstatehash shorteventid shortstatehash)

def statesParents (previous : Option Nat) : FailComp (List CompressedStateLayer) :=
  match previous with
  | none => pure []
  | some p => loadShortstatehashInfo fails p

variable (digest : Bytes → Bytes)

def saveState (ord : Order) (r : RoomId) (new : Finset CompressedStateEvent) :
    FailComp (Nat × Finset CompressedStateEvent × Finset CompressedStateEvent) := do
  let previous ← getRoomShortstatehash fails r
  let stateHash := calculateHash digest (ord.enum new)
  let (shortstatehash, alreadyExisted) ← getOrCreateShortstatehash fails stateHash
  if some shortstatehash = previous then
    pure (shortstatehash, ∅, ∅)
  else
    let parents ← statesParents fails previous
    let d := diffToParents parents new
    if !alreadyExisted then
      saveStateFromDiff fails ord shortstatehash parents d 2
    pure (shortstatehash, d.added, d.removed)

def setEventState (ord : Order) (e : EventId) (r : RoomId) (new : Finset CompressedStateEvent) :
    FailComp Nat := do
  let shorteventid ← getOrCreateShorteventid fails e
  let previous ← getRoomShortstatehash fails r
  let stateHash := calculateHash digest (ord.enum new)
  let (shortstatehash, alreadyExisted) ← getOrCreateShortstatehash fails stateHash
  if !alreadyExisted then
    let parents ← statesParents fails previous
    saveStateFromDiff fails ord shortstatehash parents (diffToParents parents new) 1000000
  setEventShortstatehash fails shorteventid shortstatehash
  pure shortstatehash

def setCurrentState (shorteventid : Nat) (previous : Option Nat) : FailComp Unit :=
  match previous with
  | some p => setEventShortstatehash fails shorteventid p
  | none => pure ()

def appendStateEvent (ord : Order) (pdu : PduEvent) (stateKey : String) (previous : Option Nat) :
    FailComp (Nat × Option (Finset CompressedStateEvent)) := do
  let parents ← statesParents fails previous
  let shortstatekey ← getOrCreateShortstatekey fails pdu.kind stateKey
  let new ← compressStateEvent fails shortstatekey pdu.eventId
  let old := replaces ord parents shortstatekey
  if some new = old then
    let p ← Comp.expect previous (.panic "must exist")
    pure (p, some (appendedState parents old new))
  else
    let shortstatehash ← nextCount fails
    saveStateFromDiff fails ord shortstatehash parents ⟨{new}, old.toFinset⟩ 2
    pure (shortstatehash, some (appendedState parents old new))

def appendToStateWith (ord : Order) (pdu : PduEvent) :
    FailComp (Nat × Option (Finset CompressedStateEvent)) := do
  let shorteventid ← getOrCreateShorteventid fails pdu.eventId
  let previous ← getRoomShortstatehash fails pdu.roomId
  setCurrentState fails shorteventid previous
  match pdu.stateKey with
  | some stateKey => appendStateEvent fails ord pdu stateKey previous
  | none =>
    let p ← Comp.expect previous (.panic "first event in room must be a state event")
    pure (p, none)

/-! ## where a call stops -/

/-- from a sound store, only short ids, the cache and the counter have moved -/
def Moves (db db' : StateDb) : Prop := Core db → Kin db db'

theorem Moves.refl (db : StateDb) : Moves db db := Kin.refl

theorem Moves.trans {a b c : StateDb} (h : Moves a b) (h' : Moves b c) : Moves a c :=
  fun hc => (h hc).trans (h' (h hc).core)

theorem Moves.of_run {α : Type} {x : StateComp α} {db : StateDb} {o : Except Error α} {Q : α → StateDb → Prop}
    (h : Core db → Comp.Ends x db Q fun _ db' => Kin db db') (hQ : ∀ a db', Q a db' → Kin db db')
    (hrun : x db = (o, db')) : Moves db db' := by
  intro hc
  have hstore := (h hc).store hQ fun _ _ hk => hk
  rw [hrun] at hstore
  exact hstore

variable {fails} {stop : StateDb → Prop} {db : StateDb}

/-- some operation may fail -/
def Faulty (fails : Plan) : Prop := ∃ n o, fails n o = true

theorem tryOp_mirrors {α : Type} {x : StateComp α} (hstop : (∃ n, fails n o = true) → stop db) :
    Mirrors stop (tryOp fails o x) x db := by
  by_cases h : ∃ n, fails n o = true
  · exact .attempt _ _ _ _ (hstop h)
  · exact .attempt_of_spared (fun n => Bool.eq_false_iff.mpr fun hn => h ⟨n, hn⟩) _ _

theorem tryOp_faulty {α : Type} {x : StateComp α} (hstop : Faulty fails → stop db) :
    Mirrors stop (tryOp fails o x) x db := tryOp_mirrors fun ⟨n, hn⟩ => hstop ⟨n, o, hn⟩

theorem nextCount_moves (h : StateDb.nextCount db = (.ok n, db')) : Moves db db' := by
  intro hc
  have hends := nextCount_ends db
  unfold Comp.Ends at hends
  rw [h] at hends
  obtain ⟨hn, hlt, rfl⟩ := hends
  exact Kin.count hc hn hlt

theorem getOrCreateShorteventid_mirrors (e : EventId) (hstop : Faulty fails → ∀ db', Moves db db' → stop db') :
    Mirrors stop (getOrCreateShorteventid fails e) (StateDb.getOrCreateShorteventid e) db := by
  have hplain : StateDb.getOrCreateShorteventid e = (do
      match ← (Comp.gets fun db => db.eventidShorteventid e : StateComp _) with
      | some shorteventid => pure shorteventid
      | none =>
        let shorteventid ← StateDb.nextCount
        Comp.modify fun db => { db with
          eventidShorteventid := Function.update db.eventidShorteventid e (some shorteventid) }
        Comp.modify fun db => { db with
          shorteventidEventid := Function.update db.shorteventidEventid shorteventid (some e) }
        pure shorteventid) := rfl
  rw [hplain]
  refine .bind (tryOp_faulty fun hf => hstop hf db (.refl db)) fun o db₁ h₁ => ?_
  obtain rfl : db = db₁ := (Prod.mk.inj h₁).2
  cases o with
  | some n => exact .pure n
  | none =>
    refine .bind (tryOp_faulty fun hf => hstop hf db (.refl db)) fun n db₂ h₂ => ?_
    have hmoves := nextCount_moves h₂
    refine .bind (tryOp_faulty fun hf => hstop hf db₂ hmoves) fun _ db₃ h₃ => ?_
    cases h₃
    refine .bind (tryOp_faulty fun hf => hstop hf _ fun hc => ?_) fun _ _ _ => .pure n
    exact (hmoves hc).congr rfl rfl rfl rfl rfl rfl

theorem getOrCreateShortstatekey_mirrors (ty : EventType) (sk : String)
    (hstop : Faulty fails → ∀ db', Moves db db' → stop db') :
    Mirrors stop (getOrCreateShortstatekey fails ty sk) (StateDb.getOrCreateShortstatekey ty sk) db := by
  have hplain : StateDb.getOrCreateShortstatekey ty sk = (do
      match ← (Comp.gets fun db => db.statekeyShortstatekey (ty, sk) : StateComp _) with
      | some shortstatekey => pure shortstatekey
      | none =>
        let shortstatekey ← StateDb.nextCount
        Comp.modify fun db => { db with
          statekeyShortstatekey := Function.update db.statekeyShortstatekey (ty, sk) (some shortstatekey) }
        Comp.modify fun db => { db with
          shortstatekeyStatekey := Function.update db.shortstatekeyStatekey shortstatekey (some (ty, sk)) }
        pure shortstatekey) := rfl
  have hends : ∀ (n : Nat) db', StateDb.getOrCreateShortstatekey ty sk db = (.ok n, db') → Moves db db' :=
    fun n db' h => Moves.of_run (fun hc => getOrCreateShortstatekey_ends hc ty sk) (fun _ _ h => h.1) h
  rw [hplain] at hends ⊢
  refine .bind (tryOp_faulty fun hf => hstop hf db (.refl db)) fun o db₁ h₁ => ?_
  obtain rfl : db = db₁ := (Prod.mk.inj h₁).2
  cases o with
  | some n => exact .pure n
  | none =>
    refine .bind (tryOp_faulty fun hf => hstop hf db (.refl db)) fun n db₂ h₂ => ?_
    refine .bind (tryOp_faulty fun hf => hstop hf db₂ (nextCount_moves h₂)) fun _ db₃ h₃ => ?_
    cases h₃
    refine .bind (tryOp_faulty fun hf => hstop hf _ fun hc => ?_) fun _ _ _ => .pure n
    -- the whole call differs in the way back only
    refine Kin.congr (hends n { db₂ with
      statekeyShortstatekey := Function.update db₂.statekeyShortstatekey (ty, sk) (some n)
      shortstatekeyStatekey := Function.update db₂.shortstatekeyStatekey n (some (ty, sk)) } ?_ hc)
      rfl rfl rfl rfl rfl rfl
    rw [Comp.bind_ok h₁]
    show (StateDb.nextCount >>= _ : StateComp Nat) db = _
    rw [Comp.bind_ok h₂]
    rfl

theorem compressStateEvent_mirrors (k : Nat) (e : EventId) (hstop : Faulty fails → ∀ db', Moves db db' → stop db') :
    Mirrors stop (compressStateEvent fails k e) (StateDb.compressStateEvent k e) db :=
  .bind (getOrCreateShorteventid_mirrors e hstop) fun _ _ _ => .pure _

theorem getOrCreateShortstatehash_mirrors (k : Bytes) (hstop : Faulty fails → ∀ db', Moves db db' → stop db') :
    Mirrors stop (getOrCreateShortstatehash fails k) (StateDb.getOrCreateShortstatehash k) db := by
  have hplain : StateDb.getOrCreateShortstatehash k = (do
      match ← (Comp.gets fun db => db.statehashShortstatehash k : StateComp _) with
      | some shortstatehash => pure (shortstatehash, true)
      | none =>
        let shortstatehash ← StateDb.nextCount
        Comp.modify fun db => { db with
          statehashShortstatehash := Function.update db.statehashShortstatehash k (some shortstatehash) }
        pure (shortstatehash, false)) := rfl
  rw [hplain]
  refine .bind (tryOp_faulty fun hf => hstop hf db (.refl db)) fun o db₁ h₁ => ?_
  obtain rfl : db = db₁ := (Prod.mk.inj h₁).2
  cases o with
  | some n => exact .pure _
  | none =>
    refine .bind (tryOp_faulty fun hf => hstop hf db (.refl db)) fun n db₂ h₂ => ?_
    exact .bind (tryOp_faulty fun hf => hstop hf db₂ (nextCount_moves h₂)) fun _ _ _ => .pure _

/-- a read of a difference fails -/
def LoadFails (fails : Plan) : Prop := ∃ n h, fails n (.getStatediff h) = true

theorem onParent_mirrors {load : Nat → FailComp (List CompressedStateLayer)}
    {load' : Nat → StateComp (List CompressedStateLayer)} (hload : ∀ h, Mirrors stop (load h) (load' h) db)
    (h : Nat) (d : StateDiff) : Mirrors stop (onParent load h d) (StateDb.onParent load' h d) db := by
  unfold onParent StateDb.onParent
  cases d.parent with
  | none => exact .pure _
  | some parent =>
    exact .bind (hload parent) fun response _ _ => .bind (.expect _ _) fun last _ _ => .pure _

/-- a load stops before it has touched the cache -/
theorem loadInfo_mirrors (fuel h : Nat) (hstop : LoadFails fails → stop db) :
    Mirrors stop (loadInfo fails fuel h) (StateDb.loadInfo fuel h) db := by
  induction fuel generalizing h with
  | zero => exact .throw _
  | succ fuel ih =>
    unfold loadInfo StateDb.loadInfo
    refine .bind (.lift _) fun db₁ db₂ h₁ => ?_
    cases h₁
    cases db.stateinfoCache h with
    | some r => exact .pure r
    | none =>
      have hread : (∃ n, fails n (.getStatediff h) = true) → stop db := by
        rintro ⟨n, hn⟩
        exact hstop ⟨n, h, hn⟩
      refine .bind (tryOp_mirrors hread) fun d db₂ h₂ => ?_
      obtain rfl : db = db₂ := (Prod.mk.inj h₂).2
      exact .bind (onParent_mirrors ih h d) fun response _ _ => .bind (.lift _) fun _ _ _ => .pure _

theorem statesParents_mirrors (previous : Option Nat) (hstop : LoadFails fails → stop db) :
    Mirrors stop (statesParents fails previous) (StateDb.statesParents previous) db := by
  cases previous with
  | none => exact .pure _
  | some p => exact loadInfo_mirrors (p + 1) p hstop

theorem LoadFails.faulty (h : LoadFails fails) : Faulty fails := by
  obtain ⟨n, k, hn⟩ := h
  exact ⟨n, _, hn⟩

theorem statesParents_moves {previous : Option Nat} {st : List CompressedStateLayer} {db' : StateDb}
    (h : StateDb.statesParents previous db = (.ok st, db')) : Moves db db' := by
  cases previous with
  | none =>
    cases h
    exact .refl db
  | some p => exact Moves.of_run (fun hc => loadShortstatehashInfo_ends hc p) (fun _ _ hk => hk) h

/-! ## the calls -/

/-- between the row of a new hash and the row of its difference -/
def Torn (fails : Plan) : Prop := LoadFails fails ∨ ∃ n, fails n .putStatediff = true

variable {digest}

/-- with a new hash, what stops the call leaves the hash without a difference -/
theorem saveState_mirrors (ord : Order) (r : RoomId) (new : Finset CompressedStateEvent)
    (hstop : Faulty fails → ∀ db', Moves db db' → stop db')
    (htorn : Torn fails → db.statehashShortstatehash (calculateHash digest (ord.enum new)) = none →
      ∀ db', stop db') :
    Mirrors stop (saveState fails digest ord r new) (StateDb.saveState digest ord r new) db := by
  refine .bind (tryOp_faulty fun hf => hstop hf db (.refl db)) fun previous db₁ h₁ => ?_
  obtain rfl : db = db₁ := (Prod.mk.inj h₁).2
  refine .bind (getOrCreateShortstatehash_mirrors _ hstop) fun res db₂ h₂ => ?_
  have hends := getOrCreateShortstatehash_ends db (calculateHash digest (ord.enum new))
  unfold Comp.Ends at hends
  rw [h₂] at hends
  obtain ⟨n, existed⟩ := res
  show Mirrors stop (if some n = previous then _ else _) (if some n = previous then _ else _) db₂
  by_cases hsame : some n = previous
  · rw [if_pos hsame, if_pos hsame]
    exact .pure _
  · rw [if_neg hsame, if_neg hsame]
    rcases hends with ⟨_, he, rfl⟩ | ⟨hnone, he, _⟩
    · cases he
      refine .bind (statesParents_mirrors previous fun hf => hstop hf.faulty _ (.refl _)) fun parents db₃ _ => ?_
      exact .pure _
    · cases he
      refine .bind (statesParents_mirrors previous fun hf => htorn (.inl hf) hnone _) fun parents db₃ _ => ?_
      refine .bind (tryOp_mirrors fun hf => htorn (.inr hf) hnone _) fun _ _ _ => ?_
      exact .pure _

theorem getOrCreateShorteventid_hashes {e : EventId} (h : StateDb.getOrCreateShorteventid e db = (.ok n, db')) :
    db'.statehashShortstatehash = db.statehashShortstatehash := by
  unfold StateDb.getOrCreateShorteventid at h
  rw [Comp.bind_ok (Comp.get_run db)] at h
  cases hrow : db.eventidShorteventid e with
  | some m =>
    rw [hrow] at h
    cases h
    rfl
  | none =>
    rw [hrow] at h
    obtain ⟨m, db₁, h₁, h⟩ := Comp.bind_eq_ok.mp h
    have hends := nextCount_ends db
    unfold Comp.Ends at hends
    rw [h₁] at hends
    obtain ⟨_, _, rfl⟩ := hends
    cases h
    rfl

/-- the last write of `set_event_state` is outside of the invariant -/
theorem setEventState_mirrors (ord : Order) (e : EventId) (r : RoomId) (new : Finset CompressedStateEvent)
    (hstop : Faulty fails → ∀ db', Moves db db' → stop db')
    (htorn : Torn fails → db.statehashShortstatehash (calculateHash digest (ord.enum new)) = none →
      ∀ db', stop db')
    (hlast : Faulty fails → ∀ shorteventid n db', StateDb.setEventState digest ord e r new db =
      (.ok n, { db' with
        shorteventidShortstatehash := Function.update db'.shorteventidShortstatehash shorteventid (some n) }) →
      stop db') :
    Mirrors stop (setEventState fails digest ord e r new) (StateDb.setEventState digest ord e r new) db := by
  have hrun : ∀ {shorteventid previous res db₁ db₂}, StateDb.getOrCreateShorteventid e db = (.ok shorteventid, db₁) →
      StateDb.getRoomShortstatehash r db₁ = (.ok previous, db₁) →
      StateDb.getOrCreateShortstatehash (calculateHash digest (ord.enum new)) db₁ = (.ok res, db₂) →
      StateDb.setEventState digest ord e r new db = (do
        if !res.2 then
          let parents ← StateDb.statesParents previous
          StateDb.saveStateFromDiff ord res.1 parents (diffToParents parents new) 1000000
        StateDb.setEventShortstatehash shorteventid res.1
        pure res.1 : StateComp Nat) db₂ := by
    intro shorteventid previous res db₁ db₂ h₁ h₂ h₃
    unfold StateDb.setEventState
    rw [Comp.bind_ok h₁, Comp.bind_ok h₂, Comp.bind_ok h₃]
  refine .bind (getOrCreateShorteventid_mirrors e hstop) fun shorteventid db₁ h₁ => ?_
  have hmoves₁ : Moves db db₁ :=
    Moves.of_run (fun hc => getOrCreateShorteventid_ends hc e) (fun _ _ h => h) h₁
  refine .bind (tryOp_faulty fun hf => hstop hf db₁ hmoves₁) fun previous db₂ h₂ => ?_
  obtain rfl : db₁ = db₂ := (Prod.mk.inj h₂).2
  refine .bind (getOrCreateShortstatehash_mirrors _ fun hf db' h => hstop hf db' (hmoves₁.trans h))
    fun res db₃ h₃ => ?_
  have hends := getOrCreateShortstatehash_ends db₁ (calculateHash digest (ord.enum new))
  unfold Comp.Ends at hends
  rw [h₃] at hends
  have hwhole := hrun h₁ h₂ h₃
  obtain ⟨n, existed⟩ := res
  rcases hends with ⟨_, he, rfl⟩ | ⟨hnone, he, _⟩
  · cases he
    refine .bind (tryOp_faulty fun hf => hlast hf shorteventid n _ ?_) fun _ _ _ => .pure n
    rw [hwhole]
    rfl
  · cases he
    rw [getOrCreateShorteventid_hashes h₁] at hnone
    refine .bind (statesParents_mirrors previous fun hf => htorn (.inl hf) hnone _) fun parents db₄ h₄ => ?_
    refine .bind (tryOp_mirrors fun hf => htorn (.inr hf) hnone _) fun _ db₅ h₅ => ?_
    refine .bind (tryOp_faulty fun hf => hlast hf shorteventid n _ ?_) fun _ _ _ => .pure n
    rw [hwhole]
    show (StateDb.statesParents previous >>= _ : StateComp Nat) db₃ = _
    rw [Comp.bind_ok h₄, Comp.bind_ok h₅]
    rfl

theorem appendStateEvent_mirrors (ord : Order) (pdu : PduEvent) (stateKey : String) (previous : Option Nat)
    (hstop : Faulty fails → ∀ db', Moves db db' → stop db') :
    Mirrors stop (appendStateEvent fails ord pdu stateKey previous)
      (StateDb.appendStateEvent ord pdu stateKey previous) db := by
  refine .bind (statesParents_mirrors previous fun hf => hstop hf.faulty db (.refl db)) fun parents db₁ h₁ => ?_
  have hm₁ := statesParents_moves h₁
  refine .bind (getOrCreateShortstatekey_mirrors _ _ fun hf db' h => hstop hf db' (hm₁.trans h))
    fun shortstatekey db₂ h₂ => ?_
  have hm₂ := hm₁.trans
    (Moves.of_run (fun hc => getOrCreateShortstatekey_ends hc pdu.kind stateKey) (fun _ _ h => h.1) h₂)
  refine .bind (compressStateEvent_mirrors _ _ fun hf db' h => hstop hf db' (hm₂.trans h)) fun new db₃ h₃ => ?_
  have hm₃ := hm₂.trans
    (Moves.of_run (fun hc => compressStateEvent_ends hc shortstatekey pdu.eventId) (fun _ _ h => h.1) h₃)
  show Mirrors stop (if some new = replaces ord parents shortstatekey then _ else _)
    (if some new = replaces ord parents shortstatekey then _ else _) db₃
  by_cases hsame : some new = replaces ord parents shortstatekey
  · rw [if_pos hsame, if_pos hsame]
    exact .bind (.expect _ _) fun _ _ _ => .pure _
  · rw [if_neg hsame, if_neg hsame]
    refine .bind (tryOp_faulty fun hf => hstop hf db₃ hm₃) fun n db₄ h₄ => ?_
    exact .bind (tryOp_faulty fun hf => hstop hf db₄ (hm₃.trans (nextCount_moves h₄))) fun _ _ _ => .pure _

theorem appendToStateWith_mirrors (ord : Order) (pdu : PduEvent)
    (hstop : Faulty fails → ∀ db', Moves db db' → stop db') :
    Mirrors stop (appendToStateWith fails ord pdu) (StateDb.appendToStateWith ord pdu) db := by
  refine .bind (getOrCreateShorteventid_mirrors _ hstop) fun shorteventid db₁ h₁ => ?_
  have hm₁ : Moves db db₁ :=
    Moves.of_run (fun hc => getOrCreateShorteventid_ends hc pdu.eventId) (fun _ _ h => h) h₁
  refine .bind (tryOp_faulty fun hf => hstop hf db₁ hm₁) fun previous db₂ h₂ => ?_
  obtain rfl : db₁ = db₂ := (Prod.mk.inj h₂).2
  have hset : Mirrors stop (setCurrentState fails shorteventid previous)
      (StateDb.setCurrentState shorteventid previous) db₁ := by
    cases previous with
    | none => exact .pure _
    | some p => exact tryOp_faulty fun hf => hstop hf db₁ hm₁
  refine .bind hset fun _ db₃ h₃ => ?_
  have hm₃ : Moves db db₃ := by
    intro hc
    have hkin := hm₁ hc
    cases previous with
    | none =>
      cases h₃
      exact hkin
    | some p =>
      cases h₃
      exact hkin.congr rfl rfl rfl rfl rfl rfl
  cases pdu.stateKey with
  | some stateKey => exact appendStateEvent_mirrors ord pdu stateKey previous fun hf db' h => hstop hf db' (hm₃.trans h)
  | none => exact .bind (.expect _ _) fun _ _ _ => .pure _

/-! ### without failures -/

/-- no operation fails -/
def unfailing : Plan := fun _ _ => false

theorem not_faulty : ¬ Faulty unfailing := by
  rintro ⟨n, o, h⟩
  cases h

theorem not_torn : ¬ Torn unfailing := by
  rintro (⟨n, h, hf⟩ | ⟨n, hf⟩) <;> cases hf

theorem saveState_unfailing (ord : Order) (r : RoomId) (new : Finset CompressedStateEvent) :
    fromFirst (saveState unfailing digest ord r new) = StateDb.saveState digest ord r new := by
  funext db
  exact Mirrors.run_eq (saveState_mirrors ord r new (fun h => absurd h not_faulty) fun h => absurd h not_torn)

theorem setEventState_unfailing (ord : Order) (e : EventId) (r : RoomId) (new : Finset CompressedStateEvent) :
    fromFirst (setEventState unfailing digest ord e r new) = StateDb.setEventState digest ord e r new := by
  funext db
  exact Mirrors.run_eq (setEventState_mirrors ord e r new (fun h => absurd h not_faulty)
    (fun h => absurd h not_torn) fun h => absurd h not_faulty)

theorem appendToStateWith_unfailing (ord : Order) (pdu : PduEvent) :
    fromFirst (appendToStateWith unfailing ord pdu) = StateDb.appendToStateWith ord pdu := by
  funext db
  exact Mirrors.run_eq (appendToStateWith_mirrors ord pdu fun h => absurd h not_faulty)

/-! ## runs -/

variable (digest)

/-- a call under a plan -/
def step (s : Run) (call : Plan × Op) : Run :=
  match call.2 with
  | .saveState ord r new =>
    s.call (fromFirst (saveState call.1 digest ord r new)) fun res => some (res.1, new)
  | .setEventState ord e r new =>
    s.call (fromFirst (setEventState call.1 digest ord e r new)) fun h => some (h, new)
  | .appendToState ord pdu =>
    s.call (fromFirst (appendToStateWith call.1 ord pdu)) fun res => res.2.map fun new => (res.1, new)
  | .setRoomState r h => s.call (fromFirst (setRoomState call.1 r h)) fun _ => none
  | .load h => s.call (fromFirst (loadShortstatehashInfo call.1 h)) fun _ => none
  | .evict keep => StateDb.step digest s (.evict keep)
  | .shortstatekey ty sk => s.call (fromFirst (getOrCreateShortstatekey call.1 ty sk)) fun _ => none
  | .shorteventid e => s.call (fromFirst (getOrCreateShorteventid call.1 e)) fun _ => none
  | .count => s.call (fromFirst (nextCount call.1)) fun _ => none

def run (s : Run) (calls : List (Plan × Op)) : Run := calls.foldl (step digest) s

/-- a new hash is written together with its difference: no operation between the two rows fails -/
def Spares (s : Run) (call : Plan × Op) : Prop :=
  ∀ l, hashed call.2 = some l → s.db.statehashShortstatehash (digest (joinSep l)) = none → ¬ Torn call.1

/-- every call meets the condition where it happens -/
def AllCalls (P : Run → Plan × Op → Prop) : Run → List (Plan × Op) → Prop
  | _, [] => True
  | s, call :: calls => P s call ∧ AllCalls P (step digest s call) calls

variable {digest} {lists : List (List CompressedStateEvent)}

/-- a call that stops leaves the states that were returned -/
theorem inv_stopped (h : Inv digest lists s) (hg : Good digest lists s.db db') :
    Inv digest lists ⟨db', s.returned⟩ :=
  ⟨hg.core, hg.hashes, fun n new hm => (h.returned n new hm).extends hg.rows⟩

/-- a call runs as it does without failures, or stops -/
theorem inv_mirrored (h : Inv digest lists s) {α : Type} {x : FailComp α} {y : StateComp α}
    {f : α → Option (Nat × Finset CompressedStateEvent)} (hm : Mirrors (Good digest lists s.db) x y s.db)
    (hy : Inv digest lists (s.call y f)) : Inv digest lists (s.call (fromFirst x) f) := by
  rcases hm 0 with ⟨n', hn⟩ | ⟨e, db', n', hn, hgood⟩
  · have hrun : fromFirst x s.db = y s.db := by
      unfold fromFirst
      rw [hn]
    unfold Run.call at hy ⊢
    rw [hrun]
    exact hy
  · have hrun : fromFirst x s.db = (.error e, db') := by
      unfold fromFirst
      rw [hn]
    unfold Run.call
    rw [hrun]
    exact inv_stopped h hgood

theorem inv_step (h : Inv digest lists s) (hcf : CollisionFree digest lists) (call : Plan × Op)
    (hlist : ∀ l, hashed call.2 = some l → l ∈ lists) (hok : Allowed s call.2) (hspares : Spares digest s call) :
    Inv digest lists (step digest s call) := by
  obtain ⟨fails, op⟩ := call
  have hplain := h.step hcf op hlist hok
  have hself : Good digest lists s.db s.db := (Kin.refl h.core).good h.hashes
  have hstop : Faulty fails → ∀ db', Moves s.db db' → Good digest lists s.db db' :=
    fun _ db' hm => (hm h.core).good h.hashes
  cases op with
  | saveState ord r new =>
    exact inv_mirrored h (saveState_mirrors ord r new hstop fun ht hnone => absurd ht (hspares _ rfl hnone)) hplain
  | setEventState ord e r new =>
    refine inv_mirrored h (setEventState_mirrors ord e r new hstop
      (fun ht hnone => absurd ht (hspares _ rfl hnone)) fun _ shorteventid n db' hrun => ?_) hplain
    have hends := setEventState_ends h.core h.hashes hcf ord e r (hlist _ rfl) hok
    unfold Comp.Ends at hends
    rw [hrun] at hends
    obtain ⟨⟨⟨h1, h2, h3, h4, h5, h6⟩, hhashes, hrows⟩, _⟩ := hends
    exact ⟨⟨h1, h2, h3, h4, h5, h6⟩, hhashes, hrows⟩
  | appendToState ord pdu => exact inv_mirrored h (appendToStateWith_mirrors ord pdu hstop) hplain
  | setRoomState r n => exact inv_mirrored h (tryOp_mirrors fun _ => hself) hplain
  | load n => exact inv_mirrored h (loadInfo_mirrors (n + 1) n fun _ => hself) hplain
  | evict keep => exact hplain
  | shortstatekey ty sk => exact inv_mirrored h (getOrCreateShortstatekey_mirrors ty sk hstop) hplain
  | shorteventid e => exact inv_mirrored h (getOrCreateShorteventid_mirrors e hstop) hplain
  | count => exact inv_mirrored h (tryOp_mirrors fun _ => hself) hplain

theorem inv_run (h : Inv digest lists s) (hcf : CollisionFree digest lists) (calls : List (Plan × Op))
    (hlist : ∀ call ∈ calls, ∀ l, hashed call.2 = some l → l ∈ lists)
    (hok : AllCalls digest (fun s call => Allowed s call.2 ∧ Spares digest s call) s calls) :
    Inv digest lists (run digest s calls) := by
  induction calls generalizing s with
  | nil => exact h
  | cons call calls ih =>
    obtain ⟨⟨hallowed, hspares⟩, hrest⟩ := hok
    exact ih (inv_step h hcf call (hlist call List.mem_cons_self) hallowed hspares)
      (fun c hc => hlist c (List.mem_cons_of_mem _ hc)) hrest

variable (digest)

theorem step_returned (s : Run) (call : Plan × Op) : s.returned ⊆ (step digest s call).returned := by
  intro x hx
  obtain ⟨fails, op⟩ := call
  cases op with
  | evict keep => exact hx
  | _ => exact List.mem_append_right _ hx

theorem run_returned (s : Run) (calls : List (Plan × Op)) : s.returned ⊆ (run digest s calls).returned := by
  induction calls generalizing s with
  | nil => exact fun _ h => h
  | cons call calls ih => exact fun x hx => ih (step digest s call) (step_returned digest s call hx)

/-- **states survive failures** that do not part a new hash from its difference: what a call returned loads to
the state of the call, then and later -/
theorem load_survives (calls later : List (Plan × Op))
    (hcf : CollisionFree digest ((calls ++ later).filterMap fun call => hashed call.2))
    (hok : AllCalls digest (fun s call => Allowed s call.2 ∧ Spares digest s call) start (calls ++ later))
    (h : Nat) (new : Finset CompressedStateEvent) (hret : (h, new) ∈ (run digest start calls).returned) :
    ∃ st db', StateDb.loadShortstatehashInfo h (run digest start (calls ++ later)).db = (.ok st, db') ∧
      st.head?.map Layer.full = some new := by
  have hinv := inv_run Inv.start hcf _ (fun call hcall l hl => List.mem_filterMap.mpr ⟨call, hcall, hl⟩) hok
  have hrun : run digest start (calls ++ later) = run digest (run digest start calls) later :=
    List.foldl_append
  have hret' := run_returned digest (run digest start calls) later hret
  rw [← hrun] at hret'
  exact hinv.core.load_full (hinv.returned h new hret')

/-! ## a hash without a difference -/

/-- the write of the difference fails -/
def failsToPut : Plan := fun _ o =>
  match o with
  | .putStatediff => true
  | _ => false

/-- the read of the room's state fails -/
def failsToRead : Plan := fun _ o =>
  match o with
  | .getRoomShortstatehash => true
  | _ => false

theorem failsToRead_spares : ¬ Torn failsToRead := by
  rintro (⟨n, h, hf⟩ | ⟨n, hf⟩) <;> cases hf

def oneEntryState : Finset CompressedStateEvent := {.of 3 1}

theorem oneEntryState_keys : ∀ e ∈ oneEntryState, e.hasKey 0 = false := by decide

def saveOneEntry : Op := .saveState ascendingOrder exampleRoom oneEntryState

/-- a call that fails early, and the call again -/
theorem load_survives_again : ∃ st db', StateDb.loadShortstatehashInfo 1
    (run id start ([(failsToRead, saveOneEntry), (unfailing, saveOneEntry)] ++ [])).db = (.ok st, db') ∧
    st.head?.map Layer.full = some oneEntryState :=
  load_survives id [(failsToRead, saveOneEntry), (unfailing, saveOneEntry)] [] (fun _ _ _ _ h => h)
    ⟨⟨oneEntryState_keys, fun _ _ _ => failsToRead_spares⟩, ⟨oneEntryState_keys, fun _ _ _ => not_torn⟩, trivial⟩
    1 oneEntryState (by decide +kernel)

/-- one write fails; the state is saved again, and cannot be loaded -/
theorem saved_without_row : ¬ ∀ (digest : Bytes → Bytes) (calls later : List (Plan × Op)),
    CollisionFree digest ((calls ++ later).filterMap fun call => hashed call.2) →
    AllCalls digest (fun s call => Allowed s call.2) start (calls ++ later) →
    ∀ h new, (h, new) ∈ (run digest start calls).returned →
    ∃ st db', StateDb.loadShortstatehashInfo h (run digest start (calls ++ later)).db = (.ok st, db') ∧
      st.head?.map Layer.full = some new := by
  intro hall
  obtain ⟨st, db', hload, _⟩ := hall id [(failsToPut, saveOneEntry), (unfailing, saveOneEntry)] []
    (fun _ _ _ _ h => h) ⟨oneEntryState_keys, oneEntryState_keys, trivial⟩ 1 oneEntryState (by decide +kernel)
  have hnone : (StateDb.loadShortstatehashInfo 1
      (run id start ([(failsToPut, saveOneEntry), (unfailing, saveOneEntry)] ++ [])).db).1.toOption.isNone = true := by
    decide +kernel
  rw [hload] at hnone
  cases hnone

end Failing

end StateDb
end Grapevine
