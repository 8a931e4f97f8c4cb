import Mathlib.Data.Finset.Lattice.Fold
import Mathlib.Order.Lattice.Nat
import Grapevine.Rooms.Build

/-!
# Auth chains

`getAuthChain` collects the auth events of the starting events, theirs, and so on, as short event
ids, in fifty buckets: a bucket, and each event of it, may be answered by a cache.

`Quiet` are the relations between stores that short ids, caches, clocks and the rate limits of bad
events do not matter for; all that the handlers do beside persisting events keeps them
(`getAuthChain_quiet`).  A query itself is blind to less: to short event ids and the caches (`Shortening`).
-/

namespace Grapevine
open Kv

namespace Db

variable {R : Db → Db → Prop}

/-! ## the computation -/

/-- the hash set of a chain, in ascending order -/
def chainList (chain : Finset Nat) : List Nat :=
  (List.range (chain.sup id + 1)).filter (fun s => s ∈ chain)

/-- the value of a row of `shorteventid_authchain` -/
def chainBytes (chain : Finset Nat) : Bytes := (chainList chain).flatMap be64

/-- `chunks_exact`, up to the given number of chunks -/
def parseChain : Nat → Bytes → Finset Nat
  | 0, _ => ∅
  | n + 1, bytes =>
    if (bytes.take 8).length = 8 then insert (ofBe (bytes.take 8)) (parseChain n (bytes.drop 8))
    else ∅

def getCachedEventidAuthchain (key : List Nat) : RoomComp (Option (Finset Nat)) := do
  let db ← Comp.get
  match db.authChainCache key, key with
  | some chain, _ => pure (some chain)
  -- only the chains of single events are in the database
  | none, [shorteventid] =>
    match db.shorteventidAuthchain shorteventid with
    | some bytes => do
      let chain := parseChain bytes.length bytes
      Comp.modify (fun db => { db with
        authChainCache := Function.update db.authChainCache [shorteventid] (some chain) })
      pure (some chain)
    | none => pure none
  | none, _ => pure none

def cacheAuthChain (key : List Nat) (chain : Finset Nat) : RoomComp Unit :=
  Comp.modify (fun db => { db with
    authChainCache := Function.update db.authChainCache key (some chain)
    shorteventidAuthchain :=
      match key with
      | [shorteventid] => Function.update db.shorteventidAuthchain shorteventid (some (chainBytes chain))
      | _ => db.shorteventidAuthchain })

/-- the auth events of one event that were not found before, and all that are found now -/
def noteAuthEvents : List EventId → Finset Nat → List EventId → RoomComp (Finset Nat × List EventId)
  | [], found, todo => pure (found, todo)
  | authEvent :: authEvents, found, todo => do
    let sauthevent ← onState (StateDb.getOrCreateShorteventid authEvent)
    if sauthevent ∈ found then noteAuthEvents authEvents found todo
    else noteAuthEvents authEvents (insert sauthevent found) (authEvent :: todo)

/-- the loop of `get_auth_chain_inner`, to the given number of rounds; `todo` is the stack -/
def authChainLoop (r : RoomId) : Nat → List EventId → Finset Nat → RoomComp (Finset Nat)
  | _, [], found => pure found
  | 0, _ :: _, _ => Comp.throw (.panic "the loop does not end")
  | fuel + 1, e :: todo, found => do
    match (← Comp.get).getPdu e with
    | .ok (some pdu) =>
      if pdu.roomId ≠ r then Comp.throw (.badRequest .forbidden "Event has incorrect room id")
      else
        let (found, todo) ← noteAuthEvents pdu.authEvents found todo
        authChainLoop r fuel todo found
    -- an event that is missing or cannot be loaded is only logged
    | .ok none => authChainLoop r fuel todo found
    | .error _ => authChainLoop r fuel todo found

def getAuthChainInner (fuel : Nat) (r : RoomId) (e : EventId) : RoomComp (Finset Nat) :=
  authChainLoop r fuel [e] ∅

/-- one event of a bucket -/
def chainOfEvent (fuel : Nat) (r : RoomId) (shorteventid : Nat) (e : EventId) :
    RoomComp (Finset Nat) := do
  match (← getCachedEventidAuthchain [shorteventid]) with
  | some cached => pure cached
  | none =>
    let chain ← getAuthChainInner fuel r e
    cacheAuthChain [shorteventid] chain
    pure chain

def chainOfChunk (fuel : Nat) (r : RoomId) : List (Nat × EventId) → RoomComp (Finset Nat)
  | [] => pure ∅
  | (shorteventid, e) :: chunk => do
    let chain ← chainOfEvent fuel r shorteventid e
    let rest ← chainOfChunk fuel r chunk
    pure (chain ∪ rest)

/-- a bucket: its events in the order of their short ids -/
def chainOfBucket (fuel : Nat) (r : RoomId) (chunk : Tree Nat EventId) : RoomComp (Finset Nat) := do
  let chunkKey := chunk.rows.map Prod.fst
  match (← getCachedEventidAuthchain chunkKey) with
  | some cached => pure cached
  | none =>
    let chain ← chainOfChunk fuel r chunk.rows
    cacheAuthChain chunkKey chain
    pure chain

def chainOfBuckets (fuel : Nat) (r : RoomId) : List (Tree Nat EventId) → RoomComp (Finset Nat)
  | [] => pure ∅
  | chunk :: buckets => do
    if chunk.rows.isEmpty then chainOfBuckets fuel r buckets
    else
      let chain ← chainOfBucket fuel r chunk
      let rest ← chainOfBuckets fuel r buckets
      pure (chain ∪ rest)

def numBuckets : Nat := 50

/-- the starting events with their short ids -/
def shortEventids : List EventId → RoomComp (List (Nat × EventId))
  | [] => pure []
  | e :: es => do
    let shorteventid ← onState (StateDb.getOrCreateShorteventid e)
    let rest ← shortEventids es
    pure ((shorteventid, e) :: rest)

/-- the starting events whose short id leaves the remainder `i` -/
def bucket (starting : List (Nat × EventId)) (i : Nat) : Tree Nat EventId :=
  (starting.filter (fun s => s.1 % numBuckets = i)).foldl (fun t s => t.insert s.1 s.2) .empty

def getAuthChain (fuel : Nat) (r : RoomId) (startingEvents : List EventId) :
    RoomComp (List EventId) := do
  let starting ← shortEventids startingEvents
  let full ← chainOfBuckets fuel r ((List.range numBuckets).map (bucket starting))
  -- a short id without its event is skipped
  Comp.gets (fun db => (chainList full).filterMap db.state.shorteventidEventid)

/-! ## what it moves -/

/-- relations between stores that are blind to short ids, caches, clocks and rate limits -/
structure Quiet (R : Db → Db → Prop) : Prop where
  refl : ∀ db, R db db
  trans : ∀ a b c, R a b → R b c → R a c
  state : ∀ (db : Db) s, StateDb.Later db.state s → R db { db with state := s }
  chains : ∀ (db : Db) t t', R db { db with authChainCache := t, shorteventidAuthchain := t' }
  ratelimiter : ∀ (db : Db) t, R db { db with badEventRatelimiter := t }
  ticks : ∀ (db : Db) n, R db { db with ticks := n }

/-- what depends on the events alone stays the same -/
theorem Quiet.events {α : Type} (f : TimelineTables → GraphTables → α) :
    Quiet fun db db' => f db'.timeline db'.graph = f db.timeline db.graph where
  refl _ := rfl
  trans _ _ _ h h' := h'.trans h
  state _ _ _ := rfl
  chains _ _ _ := rfl
  ratelimiter _ _ := rfl
  ticks _ _ := rfl

theorem Quiet.and {S : Db → Db → Prop} (h : Quiet R) (h' : Quiet S) : Quiet fun db db' => R db db' ∧ S db db' where
  refl db := ⟨h.refl db, h'.refl db⟩
  trans a b c hab hbc := ⟨h.trans a b c hab.1 hbc.1, h'.trans a b c hab.2 hbc.2⟩
  state db s hlater := ⟨h.state db s hlater, h'.state db s hlater⟩
  chains db t t' := ⟨h.chains db t t', h'.chains db t t'⟩
  ratelimiter db t := ⟨h.ratelimiter db t, h'.ratelimiter db t⟩
  ticks db n := ⟨h.ticks db n, h'.ticks db n⟩

theorem sameTimeline_quiet : Quiet fun db db' => db'.timeline = db.timeline := .events fun t _ => t

/-- relations that are blind to short event ids and to the caches of the chains -/
structure Shortening (R : Db → Db → Prop) : Prop where
  refl : ∀ db, R db db
  trans : ∀ a b c, R a b → R b c → R a c
  short : ∀ (db : Db) e, R db { db with state := (StateDb.getOrCreateShorteventid e db.state).2 }
  chains : ∀ (db : Db) t t', R db { db with authChainCache := t, shorteventidAuthchain := t' }

theorem Quiet.shortening (h : Quiet R) : Shortening R where
  refl := h.refl
  trans := h.trans
  short db e := h.state db _ (StateDb.getOrCreateShorteventid_later e db.state)
  chains := h.chains

/-- relations that are blind to all short ids, and to clocks and rate limits besides: what is fetched
on the way to an event moves nothing else, but for the outliers -/
structure Fetching (R : Db → Db → Prop) : Prop extends Shortening R where
  shortkey : ∀ (db : Db) eventType stateKey,
    R db { db with state := (StateDb.getOrCreateShortstatekey eventType stateKey db.state).2 }
  ratelimiter : ∀ (db : Db) t, R db { db with badEventRatelimiter := t }
  ticks : ∀ (db : Db) n, R db { db with ticks := n }

theorem Quiet.fetching (h : Quiet R) : Fetching R where
  toShortening := h.shortening
  shortkey db eventType stateKey := h.state db _ (StateDb.getOrCreateShortstatekey_later eventType stateKey db.state)
  ratelimiter := h.ratelimiter
  ticks := h.ticks

theorem Fetching.getOrCreateShortstatekey (h : Fetching R) (eventType : EventType) (stateKey : String) :
    Comp.Keeps R (Db.onState (StateDb.getOrCreateShortstatekey eventType stateKey)) :=
  fun db => h.shortkey db eventType stateKey

section
variable {R : Db → Db → Prop} (h : Shortening R)
include h

theorem Shortening.bind {α β : Type} {x : RoomComp α} {f : α → RoomComp β} (hx : Comp.Keeps R x)
    (hf : ∀ a, Comp.Keeps R (f a)) : Comp.Keeps R (x >>= f) := Comp.Keeps.bind h.trans hx hf

theorem Shortening.pure {α : Type} (a : α) : Comp.Keeps R (Pure.pure a : RoomComp α) :=
  Comp.Keeps.pure h.refl a

theorem Shortening.read {α : Type} {x : RoomComp α} (hx : ∀ db, (x db).2 = db) : Comp.Keeps R x :=
  Comp.Keeps.of_read h.refl hx

theorem Shortening.get {β : Type} {f : Db → RoomComp β} (hf : ∀ db, Comp.Keeps R (f db)) :
    Comp.Keeps R (Comp.get >>= f) := h.bind (h.read fun _ => rfl) hf

theorem Shortening.getOrCreateShorteventid (e : EventId) :
    Comp.Keeps R (Db.onState (StateDb.getOrCreateShorteventid e)) := fun db => h.short db e

theorem cacheAuthChain_keeps (key : List Nat) (chain : Finset Nat) :
    Comp.Keeps R (cacheAuthChain key chain) := Comp.Keeps.modify fun db => h.chains db _ _

theorem getCachedEventidAuthchain_keeps (key : List Nat) :
    Comp.Keeps R (getCachedEventidAuthchain key) := by
  refine h.get fun db => ?_
  cases db.authChainCache key with
  | some chain => exact h.pure _
  | none =>
    match key with
    | [] => exact h.pure _
    | [s] =>
      show Comp.Keeps R (match db.shorteventidAuthchain s with | some bytes => _ | none => _)
      cases db.shorteventidAuthchain s with
      | none => exact h.pure _
      | some bytes =>
        exact h.bind (Comp.Keeps.modify fun db => h.chains db _ db.shorteventidAuthchain)
          fun _ => h.pure _
    | _ :: _ :: _ => exact h.pure _

theorem noteAuthEvents_keeps (es : List EventId) (found : Finset Nat) (todo : List EventId) :
    Comp.Keeps R (noteAuthEvents es found todo) := by
  induction es generalizing found todo with
  | nil => exact h.pure _
  | cons e es ih =>
    refine h.bind (h.getOrCreateShorteventid e) fun s => ?_
    by_cases hs : s ∈ found
    · rw [if_pos hs]
      exact ih _ _
    · rw [if_neg hs]
      exact ih _ _

theorem authChainLoop_keeps (r : RoomId) (fuel : Nat) (todo : List EventId) (found : Finset Nat) :
    Comp.Keeps R (authChainLoop r fuel todo found) := by
  induction fuel generalizing todo found with
  | zero =>
    cases todo with
    | nil => exact h.pure _
    | cons e todo => exact h.read fun _ => rfl
  | succ fuel ih =>
    cases todo with
    | nil => exact h.pure _
    | cons e todo =>
      refine h.get fun db => ?_
      cases db.getPdu e with
      | error err => exact ih todo found
      | ok o =>
        cases o with
        | none => exact ih todo found
        | some pdu =>
          show Comp.Keeps R (if pdu.roomId ≠ r then _ else _)
          split
          · exact h.read fun _ => rfl
          · exact h.bind (noteAuthEvents_keeps h _ _ _) fun _ => ih _ _

theorem chainOfChunk_keeps (fuel : Nat) (r : RoomId) (chunk : List (Nat × EventId)) :
    Comp.Keeps R (chainOfChunk fuel r chunk) := by
  induction chunk with
  | nil => exact h.pure _
  | cons p chunk ih =>
    refine h.bind (h.bind (getCachedEventidAuthchain_keeps h [p.1]) fun o => ?_) fun _ =>
      h.bind ih fun _ => h.pure _
    cases o with
    | some cached => exact h.pure _
    | none =>
      exact h.bind (authChainLoop_keeps h r fuel _ _) fun chain =>
        h.bind (cacheAuthChain_keeps h _ chain) fun _ => h.pure _

theorem chainOfBuckets_keeps (fuel : Nat) (r : RoomId) (buckets : List (Tree Nat EventId)) :
    Comp.Keeps R (chainOfBuckets fuel r buckets) := by
  induction buckets with
  | nil => exact h.pure _
  | cons chunk buckets ih =>
    unfold chainOfBuckets
    by_cases he : chunk.rows.isEmpty = true
    · rw [if_pos he]
      exact ih
    · rw [if_neg he]
      refine h.bind (h.bind (getCachedEventidAuthchain_keeps h _) fun o => ?_) fun _ =>
        h.bind ih fun _ => h.pure _
      cases o with
      | some cached => exact h.pure _
      | none =>
        exact h.bind (chainOfChunk_keeps h fuel r _) fun chain =>
          h.bind (cacheAuthChain_keeps h _ chain) fun _ => h.pure _

theorem shortEventids_keeps (es : List EventId) : Comp.Keeps R (shortEventids es) := by
  induction es with
  | nil => exact h.pure _
  | cons e es ih =>
    exact h.bind (h.getOrCreateShorteventid e) fun _ =>
      h.bind ih fun _ => h.pure _

theorem getAuthChain_keeps (fuel : Nat) (r : RoomId) (es : List EventId) :
    Comp.Keeps R (getAuthChain fuel r es) :=
  h.bind (shortEventids_keeps h es) fun _ =>
    h.bind (chainOfBuckets_keeps h fuel r _) fun _ => h.read fun _ => rfl

end

section
variable {R : Db → Db → Prop} (h : Quiet R)
include h

theorem Quiet.bind {α β : Type} {x : RoomComp α} {f : α → RoomComp β} (hx : Comp.Keeps R x)
    (hf : ∀ a, Comp.Keeps R (f a)) : Comp.Keeps R (x >>= f) := h.shortening.bind hx hf

theorem Quiet.pure {α : Type} (a : α) : Comp.Keeps R (Pure.pure a : RoomComp α) := h.shortening.pure a

theorem Quiet.read {α : Type} {x : RoomComp α} (hx : ∀ db, (x db).2 = db) : Comp.Keeps R x := h.shortening.read hx

theorem Quiet.get {β : Type} {f : Db → RoomComp β} (hf : ∀ db, Comp.Keeps R (f db)) :
    Comp.Keeps R (Comp.get >>= f) := h.shortening.get hf

theorem Quiet.onState {α : Type} {x : StateComp α} (hx : Comp.Keeps StateDb.Later x) :
    Comp.Keeps R (Db.onState x) := fun db => h.state db _ (hx db.state)

theorem getAuthChain_quiet (fuel : Nat) (r : RoomId) (es : List EventId) :
    Comp.Keeps R (getAuthChain fuel r es) := getAuthChain_keeps h.shortening fuel r es

end

end Db
end Grapevine
