import Grapevine.Lib.Update
import Grapevine.State.Snapshots

/-!
# States are found again by their hash

`save_state` and `set_event_state` look a state up under the hash of its entries, in the order in which the
hash set happens to iterate.  The table gives one number to one hash (`HashTable`), so two calls share a
number exactly if they hashed one list.

Main result: `content_addressed_iff`.  Two calls of a run, with any other calls before and between, tell equal
states from different ones exactly if they iterate equal states in one order.
`sameState_twoHashes` is one state that is saved twice, under two numbers.
-/

namespace Grapevine
open Kv

namespace StateDb

variable {new : Finset CompressedStateEvent} {db db' : StateDb} {l : List CompressedStateEvent}
  {ord : Order} {r : RoomId} {k : Bytes} {op : Op}

/-! ## the table of hashes -/

structure HashTable (db : StateDb) : Prop where
  le_counter : ∀ k h, db.statehashShortstatehash k = some h → h ≤ db.counter
  inj : ∀ k k' h, db.statehashShortstatehash k = some h → db.statehashShortstatehash k' = some h → k = k'

theorem HashTable.empty : HashTable .empty := ⟨nofun, nofun⟩

/-- rows of the table stay, and new ones have new numbers -/
structure HashesGrow (db db' : StateDb) : Prop where
  counter : db.counter ≤ db'.counter
  kept : ∀ k h, db.statehashShortstatehash k = some h → db'.statehashShortstatehash k = some h
  table : HashTable db → HashTable db'

theorem HashesGrow.refl (db : StateDb) : HashesGrow db db := ⟨le_refl _, fun _ _ h => h, id⟩

theorem HashesGrow.trans (a b c : StateDb) (h : HashesGrow a b) (h' : HashesGrow b c) : HashesGrow a c :=
  ⟨h.counter.trans h'.counter, fun k n hk => h'.kept k n (h.kept k n hk), fun ht => h'.table (h.table ht)⟩

/-- the table is not touched -/
theorem HashesGrow.of_eq (hc : db.counter ≤ db'.counter)
    (ht : db'.statehashShortstatehash = db.statehashShortstatehash) : HashesGrow db db' := by
  refine ⟨hc, fun k h hk => by rw [ht]; exact hk, fun h => ⟨fun k n hk => ?_, fun k k' n hk hk' => ?_⟩⟩
  · rw [ht] at hk
    exact (h.le_counter k n hk).trans hc
  · rw [ht] at hk hk'
    exact h.inj k k' n hk hk'

theorem HashesGrow.insert (hnone : db.statehashShortstatehash k = none) :
    HashesGrow db { db with
      counter := db.counter + 1
      statehashShortstatehash := Function.update db.statehashShortstatehash k (some (db.counter + 1)) } := by
  have hrow : ∀ k' h, Function.update db.statehashShortstatehash k (some (db.counter + 1)) k' = some h →
      (k' = k ∧ h = db.counter + 1) ∨ db.statehashShortstatehash k' = some h := by
    intro k' h hk
    exact (update_some_eq_some.mp hk).imp (fun hnew => ⟨hnew.1, hnew.2.symm⟩) And.right
  constructor
  · exact Nat.le_succ _
  · intro k' h hk
    have he : k' ≠ k := by
      intro he
      rw [he, hnone] at hk
      cases hk
    exact (Function.update_of_ne he _ _).trans hk
  · intro ht
    constructor
    · intro k' h hk
      show h ≤ db.counter + 1
      rcases hrow k' h hk with ⟨_, he⟩ | hk
      · omega
      · exact (ht.le_counter k' h hk).trans (Nat.le_succ _)
    · intro k₁ k₂ h h₁ h₂
      rcases hrow k₁ h h₁ with ⟨e₁, he₁⟩ | h₁
      · rcases hrow k₂ h h₂ with ⟨e₂, _⟩ | h₂
        · rw [e₁, e₂]
        · have := ht.le_counter k₂ h h₂
          omega
      · rcases hrow k₂ h h₂ with ⟨_, he₂⟩ | h₂
        · have := ht.le_counter k₁ h h₁
          omega
        · exact ht.inj k₁ k₂ h h₁ h₂

/-! ## what every part of a call keeps -/

/-- a relation that every write of a call moves along -/
structure Closed (R : StateDb → StateDb → Prop) : Prop where
  refl : ∀ db, R db db
  trans : ∀ a b c, R a b → R b c → R a c
  count : Comp.Keeps R nextCount
  event : ∀ e, Comp.Keeps R (getOrCreateShorteventid e)
  statekey : ∀ ty sk, Comp.Keeps R (getOrCreateShortstatekey ty sk)
  hash : ∀ k, Comp.Keeps R (getOrCreateShortstatehash k)
  cache : ∀ db t, R db { db with stateinfoCache := t }
  diffs : ∀ db t, R db { db with shortstatehashStatediff := t }
  eventState : ∀ db t, R db { db with shorteventidShortstatehash := t }
  rooms : ∀ db t, R db { db with roomidShortstatehash := t }

namespace Closed
variable {R : StateDb → StateDb → Prop} (h : Closed R)
include h

theorem bind {α β : Type} {x : StateComp α} {f : α → StateComp β} (hx : Comp.Keeps R x)
    (hf : ∀ a, Comp.Keeps R (f a)) : Comp.Keeps R (x >>= f) := Comp.Keeps.bind h.trans hx hf

theorem read {α : Type} {x : StateComp α} (hx : ∀ db, (x db).2 = db) : Comp.Keeps R x := Comp.Keeps.of_read h.refl hx

theorem pure {α : Type} (a : α) : Comp.Keeps R (Pure.pure a : StateComp α) := Comp.Keeps.pure h.refl a

theorem expect {α : Type} (o : Option α) (e : Error) : Comp.Keeps R (Comp.expect o e : StateComp α) := by
  refine h.read fun _ => ?_
  cases o <;> rfl

theorem onParent {load : Nat → StateComp (List CompressedStateLayer)} (hload : ∀ n, Comp.Keeps R (load n))
    (n : Nat) (d : StateDiff) : Comp.Keeps R (StateDb.onParent load n d) := by
  unfold StateDb.onParent
  split
  · exact h.bind (hload _) fun response => h.bind (h.expect _ _) fun last => h.pure _
  · exact h.pure _

theorem loadInfo (fuel n : Nat) : Comp.Keeps R (StateDb.loadInfo fuel n) := by
  induction fuel generalizing n with
  | zero => exact h.read fun _ => rfl
  | succ fuel ih =>
    unfold StateDb.loadInfo
    refine h.bind (h.read fun _ => rfl) fun db => ?_
    split
    · exact h.pure _
    · refine h.bind (h.read fun _ => rfl) fun d => h.bind (h.onParent ih n d) fun response => ?_
      exact h.bind (Comp.Keeps.modify fun db => h.cache db _) fun _ => h.pure _

theorem statesParents (previous : Option Nat) : Comp.Keeps R (StateDb.statesParents previous) := by
  unfold StateDb.statesParents
  split
  · exact h.pure _
  · exact h.loadInfo _ _

theorem saveStateFromDiff (ord : Order) (n : Nat) (st : List CompressedStateLayer) (d : Diff CompressedStateEvent)
    (sibling : Nat) : Comp.Keeps R (StateDb.saveStateFromDiff ord n st d sibling) := by
  induction st generalizing d sibling with
  | nil => exact Comp.Keeps.modify fun db => h.diffs db _
  | cons parent below ih =>
    unfold StateDb.saveStateFromDiff
    split
    · exact ih _ _
    · split
      · exact ih _ _
      · exact Comp.Keeps.modify fun db => h.diffs db _

theorem saveState (digest : Bytes → Bytes) (ord : Order) (r : RoomId) (new : Finset CompressedStateEvent) :
    Comp.Keeps R (StateDb.saveState digest ord r new) := by
  unfold StateDb.saveState
  refine h.bind (h.read fun _ => rfl) fun previous => h.bind (h.hash _) fun res => ?_
  show Comp.Keeps R (if some res.1 = previous then _ else _)
  split
  · exact h.pure _
  · refine h.bind (h.statesParents previous) fun parents => ?_
    show Comp.Keeps R (if !res.2 then _ else _)
    split
    · exact h.bind (h.saveStateFromDiff _ _ _ _ _) fun _ => h.pure _
    · exact h.pure _

theorem setEventState (digest : Bytes → Bytes) (ord : Order) (e : EventId) (r : RoomId)
    (new : Finset CompressedStateEvent) : Comp.Keeps R (StateDb.setEventState digest ord e r new) := by
  unfold StateDb.setEventState
  refine h.bind (h.event e) fun shorteventid => h.bind (h.read fun _ => rfl) fun previous => ?_
  refine h.bind (h.hash _) fun res => ?_
  have hlast : Comp.Keeps R (do
      setEventShortstatehash shorteventid res.1
      Pure.pure res.1 : StateComp Nat) :=
    h.bind (Comp.Keeps.modify fun db => h.eventState db _) fun _ => h.pure _
  show Comp.Keeps R (if !res.2 then _ else _)
  split
  · refine h.bind (h.statesParents previous) fun parents => ?_
    exact h.bind (h.saveStateFromDiff _ _ _ _ _) fun _ => hlast
  · exact hlast

theorem compressStateEvent (k : Nat) (e : EventId) : Comp.Keeps R (StateDb.compressStateEvent k e) :=
  h.bind (h.event e) fun _ => h.pure _

theorem appendStateEvent (ord : Order) (pdu : PduEvent) (stateKey : String) (previous : Option Nat) :
    Comp.Keeps R (StateDb.appendStateEvent ord pdu stateKey previous) := by
  unfold StateDb.appendStateEvent
  refine h.bind (h.statesParents previous) fun parents => h.bind (h.statekey _ _) fun shortstatekey => ?_
  refine h.bind (h.compressStateEvent _ _) fun new => ?_
  show Comp.Keeps R (if some new = replaces ord parents shortstatekey then _ else _)
  split
  · exact h.bind (h.expect _ _) fun _ => h.pure _
  · exact h.bind h.count fun _ => h.bind (h.saveStateFromDiff _ _ _ _ _) fun _ => h.pure _

theorem setCurrentState (n : Nat) (previous : Option Nat) : Comp.Keeps R (StateDb.setCurrentState n previous) := by
  unfold StateDb.setCurrentState
  split
  · exact Comp.Keeps.modify fun db => h.eventState db _
  · exact h.pure _

theorem appendToStateWith (ord : Order) (pdu : PduEvent) : Comp.Keeps R (StateDb.appendToStateWith ord pdu) := by
  unfold StateDb.appendToStateWith
  refine h.bind (h.event _) fun shorteventid => h.bind (h.read fun _ => rfl) fun previous => ?_
  refine h.bind (h.setCurrentState _ _) fun _ => ?_
  split
  · exact h.appendStateEvent _ _ _ _
  · exact h.bind (h.expect _ _) fun _ => h.pure _

theorem step (digest : Bytes → Bytes) (s : Run) (op : Op) : R s.db (StateDb.step digest s op).db := by
  cases op with
  | saveState ord r new => exact h.saveState digest ord r new s.db
  | setEventState ord e r new => exact h.setEventState digest ord e r new s.db
  | appendToState ord pdu => exact h.appendToStateWith ord pdu s.db
  | setRoomState r n => exact h.rooms s.db _
  | load n => exact h.loadInfo _ n s.db
  | evict keep => exact h.cache s.db _
  | shortstatekey ty sk => exact h.statekey ty sk s.db
  | shorteventid e => exact h.event e s.db
  | count => exact h.count s.db

theorem run (digest : Bytes → Bytes) (s : Run) (ops : List Op) : R s.db (StateDb.run digest s ops).db := by
  induction ops generalizing s with
  | nil => exact h.refl _
  | cons op ops ih => exact h.trans _ _ _ (h.step digest s op) (ih (StateDb.step digest s op))

end Closed

/-! ## the table in the parts of a call -/

theorem nextCount_keeps : Comp.Keeps HashesGrow nextCount := by
  intro db
  unfold nextCount
  split
  · exact .of_eq (Nat.le_succ _) rfl
  · exact .refl db

theorem getOrCreateShorteventid_keeps (e : EventId) : Comp.Keeps HashesGrow (getOrCreateShorteventid e) := by
  intro db
  rcases getOrCreateShorteventid_cases e db with ⟨n, _, hrun⟩ | ⟨_, _, hrun⟩ | hrun
  · rw [hrun]
    exact .refl db
  · rw [hrun]
    exact .of_eq (Nat.le_succ _) rfl
  · rw [hrun]
    exact .refl db

theorem getOrCreateShortstatekey_keeps (ty : EventType) (sk : String) :
    Comp.Keeps HashesGrow (getOrCreateShortstatekey ty sk) := by
  intro db
  rcases getOrCreateShortstatekey_cases ty sk db with ⟨n, _, hrun⟩ | ⟨_, _, hrun⟩ | hrun
  · rw [hrun]
    exact .refl db
  · rw [hrun]
    exact .of_eq (Nat.le_succ _) rfl
  · rw [hrun]
    exact .refl db

theorem getOrCreateShortstatehash_keeps (k : Bytes) :
    Comp.Keeps HashesGrow (getOrCreateShortstatehash k) := by
  intro db
  refine (getOrCreateShortstatehash_ends db k).store ?_ ?_
  · intro res db' hres
    rcases hres with ⟨_, _, rfl⟩ | ⟨hnone, _, hn, _, rfl⟩
    · exact .refl _
    · rw [hn]
      exact .insert hnone
  · rintro _ db' rfl
    exact .refl _

theorem hashesGrow_closed : Closed HashesGrow where
  refl := .refl
  trans := .trans
  count := nextCount_keeps
  event := getOrCreateShorteventid_keeps
  statekey := getOrCreateShortstatekey_keeps
  hash := getOrCreateShortstatehash_keeps
  cache _ _ := .of_eq (le_refl _) rfl
  diffs _ _ := .of_eq (le_refl _) rfl
  eventState _ _ := .of_eq (le_refl _) rfl
  rooms _ _ := .of_eq (le_refl _) rfl

/-- the number that is returned is in the table -/
theorem getOrCreateShortstatehash_row {res : Nat × Bool} (h : getOrCreateShortstatehash k db = (.ok res, db')) :
    db'.statehashShortstatehash k = some res.1 := by
  have hends := getOrCreateShortstatehash_ends db k
  unfold Comp.Ends at hends
  rw [h] at hends
  rcases hends with ⟨hk, _, rfl⟩ | ⟨_, _, _, _, rfl⟩
  · exact hk
  · exact Function.update_self _ _ _

/-! ## the calls -/

variable (digest : Bytes → Bytes)

/-- a computation that keeps the table, run -/
theorem grow_of_run {α : Type} {x : StateComp α} (hx : Comp.Keeps HashesGrow x) {o : Except Error α}
    (h : x db = (o, db')) : HashesGrow db db' := by
  have hdb := hx db
  rw [h] at hdb
  exact hdb

theorem saveState_row {res : Nat × Finset CompressedStateEvent × Finset CompressedStateEvent}
    (h : saveState digest ord r new db = (.ok res, db')) :
    db'.statehashShortstatehash (calculateHash digest (ord.enum new)) = some res.1 := by
  unfold saveState at h
  obtain ⟨previous, db₁, _, h⟩ := Comp.bind_eq_ok.mp h
  obtain ⟨⟨n, existed⟩, db₂, hhash, h⟩ := Comp.bind_eq_ok.mp h
  have hrow := getOrCreateShortstatehash_row hhash
  change (if some n = previous then _ else _ : StateComp _) db₂ = _ at h
  split at h
  · cases h
    exact hrow
  · obtain ⟨parents, db₃, hparents, h⟩ := Comp.bind_eq_ok.mp h
    have hrow₃ := (grow_of_run (hashesGrow_closed.statesParents previous) hparents).kept _ _ hrow
    change (if !existed then _ else _ : StateComp _) db₃ = _ at h
    split at h
    · obtain ⟨_, db₄, hsave, h⟩ := Comp.bind_eq_ok.mp h
      cases h
      exact (grow_of_run (hashesGrow_closed.saveStateFromDiff _ _ _ _ _) hsave).kept _ _ hrow₃
    · cases h
      exact hrow₃

theorem setEventState_row {e : EventId} {n : Nat} (h : setEventState digest ord e r new db = (.ok n, db')) :
    db'.statehashShortstatehash (calculateHash digest (ord.enum new)) = some n := by
  unfold setEventState at h
  obtain ⟨shorteventid, db₁, _, h⟩ := Comp.bind_eq_ok.mp h
  obtain ⟨previous, db₂, _, h⟩ := Comp.bind_eq_ok.mp h
  obtain ⟨⟨m, existed⟩, db₃, hhash, h⟩ := Comp.bind_eq_ok.mp h
  have hrow := getOrCreateShortstatehash_row hhash
  have hlast : ∀ db₄ : StateDb, db₄.statehashShortstatehash (calculateHash digest (ord.enum new)) = some m →
      (do
        setEventShortstatehash shorteventid m
        pure m : StateComp Nat) db₄ = (.ok n, db') →
      db'.statehashShortstatehash (calculateHash digest (ord.enum new)) = some n := by
    intro db₄ hrow₄ h
    obtain ⟨_, db₅, hset, h⟩ := Comp.bind_eq_ok.mp h
    cases h
    cases hset
    exact hrow₄
  change (if !existed then _ else _ : StateComp _) db₃ = _ at h
  split at h
  · obtain ⟨parents, db₄, hparents, h⟩ := Comp.bind_eq_ok.mp h
    obtain ⟨_, db₅, hsave, h⟩ := Comp.bind_eq_ok.mp h
    have hrow₄ := (grow_of_run (hashesGrow_closed.statesParents previous) hparents).kept _ _ hrow
    exact hlast db₅ ((grow_of_run (hashesGrow_closed.saveStateFromDiff _ _ _ _ _) hsave).kept _ _ hrow₄) h
  · exact hlast db₃ hrow h

/-! ## runs -/

/-- the `shortstatehash` that a call returns for the state it is given -/
def shortstatehashOf (db : StateDb) : Op → Option Nat
  | .saveState ord r new => (saveState digest ord r new db).1.toOption.map fun res => res.1
  | .setEventState ord e r new => (setEventState digest ord e r new db).1.toOption
  | _ => none

variable {digest}

/-- what a call returns is in the table behind the call -/
theorem step_row {s : Run} {h : Nat} (hl : hashed op = some l) (hh : shortstatehashOf digest s.db op = some h) :
    (step digest s op).db.statehashShortstatehash (digest (joinSep l)) = some h := by
  cases op with
  | saveState ord r new =>
    cases hl
    obtain ⟨res, hres, rfl⟩ := Option.map_eq_some_iff.mp hh
    show (saveState digest ord r new s.db).2.statehashShortstatehash _ = _
    cases hx : saveState digest ord r new s.db with
    | mk o db' =>
      rw [hx] at hres
      cases o with
      | error e => cases hres
      | ok a =>
        cases hres
        exact saveState_row digest hx
  | setEventState ord e r new =>
    cases hl
    change (setEventState digest ord e r new s.db).1.toOption = some h at hh
    show (setEventState digest ord e r new s.db).2.statehashShortstatehash _ = _
    cases hx : setEventState digest ord e r new s.db with
    | mk o db' =>
      rw [hx] at hh
      cases o with
      | error e => cases hh
      | ok a =>
        cases hh
        exact setEventState_row digest hx
  | _ => cases hl

/-- two calls share a number exactly if they hash one list -/
theorem shortstatehashOf_eq_iff (before between : List Op) {op' : Op} {l' : List CompressedStateEvent}
    {h h' : Nat} (hl : hashed op = some l) (hl' : hashed op' = some l')
    (hh : shortstatehashOf digest (run digest start before).db op = some h)
    (hh' : shortstatehashOf digest (run digest start (before ++ op :: between)).db op' = some h') :
    h = h' ↔ digest (joinSep l) = digest (joinSep l') := by
  have hsplit : run digest start (before ++ op :: between) =
      run digest (step digest (run digest start before) op) between := by
    unfold run
    rw [List.foldl_append, List.foldl_cons]
  have hrow := (hashesGrow_closed.run digest (step digest (run digest start before) op) between).kept _ _ (step_row hl hh)
  rw [← hsplit] at hrow
  have hlater := (hashesGrow_closed.step digest (run digest start (before ++ op :: between)) op').kept _ _ hrow
  have hrow' := step_row hl' hh'
  have htable := ((hashesGrow_closed.run digest start (before ++ op :: between)).trans _ _ _
    (hashesGrow_closed.step digest _ op')).table HashTable.empty
  constructor
  · rintro rfl
    exact htable.inj _ _ h hlater hrow'
  · intro he
    rw [← he, hlater] at hrow'
    exact Option.some.inj hrow'

/-- **equal states and no others get one number** exactly if equal states are iterated in one order -/
theorem content_addressed_iff (before between : List Op) {op op' : Op} {l l' : List CompressedStateEvent}
    {h h' : Nat} (hl : hashed op = some l) (hl' : hashed op' = some l')
    (hfree : CollisionFree digest [l, l'])
    (hh : shortstatehashOf digest (run digest start before).db op = some h)
    (hh' : shortstatehashOf digest (run digest start (before ++ op :: between)).db op' = some h') :
    (l.toFinset = l'.toFinset ↔ h = h') ↔ (l.toFinset = l'.toFinset → l = l') := by
  have hiff : h = h' ↔ l = l' := by
    rw [shortstatehashOf_eq_iff before between hl hl' hh hh']
    constructor
    · intro he
      exact joinSep_inj l l' (hfree l (by simp) l' (by simp) he)
    · intro he
      rw [he]
  rw [hiff]
  constructor
  · exact fun h => h.mp
  · intro h
    exact ⟨h, fun he => by rw [he]⟩

/-! ## one state, two orders -/

def descendingOrder : Order where
  enum s := (ascending s).reverse
  nodup s := List.nodup_reverse.mpr (ascending_nodup s)
  toFinset s := by
    rw [List.toFinset_reverse]
    exact ascendingOrder.toFinset s

def twoEntryState : Finset CompressedStateEvent := {.of 3 1, .of 5 2}

/-- the states of the two calls are one -/
theorem content_addressed_again :
    ((ascendingOrder.enum twoEntryState).toFinset = (ascendingOrder.enum twoEntryState).toFinset ↔ 1 = 1) ↔
    ((ascendingOrder.enum twoEntryState).toFinset = (ascendingOrder.enum twoEntryState).toFinset →
      ascendingOrder.enum twoEntryState = ascendingOrder.enum twoEntryState) :=
  have hl : hashed (.saveState ascendingOrder exampleRoom twoEntryState) =
      some (ascendingOrder.enum twoEntryState) := rfl
  have hfree : CollisionFree id [ascendingOrder.enum twoEntryState, ascendingOrder.enum twoEntryState] :=
    fun _ _ _ _ h => h
  content_addressed_iff [] [] hl hl hfree (by decide +kernel) (by decide +kernel)

/-- one state is saved twice, and iterated in two orders -/
theorem sameState_twoHashes : ¬ ∀ (digest : Bytes → Bytes) (before between : List Op) (op op' : Op)
    (l l' : List CompressedStateEvent) (h h' : Nat), hashed op = some l → hashed op' = some l' →
    CollisionFree digest [l, l'] → shortstatehashOf digest (run digest start before).db op = some h →
    shortstatehashOf digest (run digest start (before ++ op :: between)).db op' = some h' →
    (l.toFinset = l'.toFinset ↔ h = h') := by
  intro hall
  have h := hall id [] [] (.saveState ascendingOrder exampleRoom twoEntryState)
    (.saveState descendingOrder exampleRoom twoEntryState) _ _ 1 2 rfl rfl (fun _ _ _ _ h => h)
    (by decide +kernel) (by decide +kernel)
  rw [ascendingOrder.toFinset, descendingOrder.toFinset] at h
  exact absurd (h.mp rfl) (by decide)

end StateDb
end Grapevine
