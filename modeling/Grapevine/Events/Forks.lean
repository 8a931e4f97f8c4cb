import Grapevine.Events.Upgrade
import Grapevine.Lib.Stream

/-!
# The forks of an event

With two prev events or more, the state at an event is resolved from the states behind these.
`extremitySstatehashes` collects the prev events by the state at each, so of several prev events on
one state only the last is left.

* `forksOfPrevs`     what is handed to the resolution;
* `stateAfter`       the state behind an event;
* `StateDb.Moves`    what new short ids leave as it was: the numbers that are given out, and so the
                     states that are made of them;
* `LastOn`           the prev events that are left.

Main result: `forks_complete_iff`.  The forks have the state behind every prev event exactly if a
prev event that is left has the same state behind it.  `fork_dropped` is a state event and a message
on one state.
-/

namespace Grapevine
open Kv

/-! ## maps of a state -/

namespace StateMap

def get (m : StateMap) (key : EventType × String) : Option EventId :=
  (m.rows.find? (fun row => row.1 = key)).map Prod.snd

@[simp] theorem get_empty (key : EventType × String) : empty.get key = none := rfl

theorem get_insert_self (m : StateMap) (key : EventType × String) (e : EventId) :
    (m.insert key e).get key = some e := by
  unfold get insert
  rw [List.find?_cons_of_pos (by simp)]
  rfl

theorem get_insert_of_ne (m : StateMap) {k key : EventType × String} (e : EventId) (h : key ≠ k) :
    (m.insert k e).get key = m.get key := by
  unfold get insert
  have hrows : ∀ rows : List ((EventType × String) × EventId),
      (rows.filter fun row => row.1 ≠ k).find? (fun row => row.1 = key) = rows.find? fun row => row.1 = key := by
    intro rows
    rw [List.find?_filter]
    congr 1
    funext row
    by_cases hkey : row.1 = key
    · simp [hkey, h]
    · simp [hkey]
  rw [List.find?_cons_of_neg (by simpa using fun he => h he.symm), hrows]

end StateMap

/-! ## short ids -/

namespace StateDb

/-- the tables of short state keys are inverse to each other, and all numbers were given out -/
structure Numbered (s : StateDb) : Prop where
  events : ∀ n e, s.shorteventidEventid n = some e → n ≤ s.counter
  keys : ∀ n key, s.statekeyShortstatekey key = some n ↔ s.shortstatekeyStatekey n = some key
  keys_le : ∀ n key, s.shortstatekeyStatekey n = some key → n ≤ s.counter

theorem Numbered.empty : Numbered .empty := ⟨nofun, fun _ _ => iff_of_false nofun nofun, nofun⟩

/-- the states stay, and every number what it stood for -/
structure Stays (s s' : StateDb) : Prop where
  counter : s.counter ≤ s'.counter
  rows : s'.shortstatehashStatediff = s.shortstatehashStatediff
  cache : s'.stateinfoCache = s.stateinfoCache
  events : ∀ n e, s.shorteventidEventid n = some e → s'.shorteventidEventid n = some e
  keys : ∀ key n, s.statekeyShortstatekey key = some n → s'.statekeyShortstatekey key = some n
  fresh : ∀ key n, s'.statekeyShortstatekey key = some n → s.statekeyShortstatekey key = some n ∨ s.counter < n

theorem Stays.refl (s : StateDb) : Stays s s :=
  ⟨le_refl _, rfl, rfl, fun _ _ h => h, fun _ _ h => h, fun _ _ h => .inl h⟩

theorem Stays.trans {a b c : StateDb} (h : Stays a b) (h' : Stays b c) : Stays a c where
  counter := h.counter.trans h'.counter
  rows := h'.rows.trans h.rows
  cache := h'.cache.trans h.cache
  events n e he := h'.events n e (h.events n e he)
  keys key n hk := h'.keys key n (h.keys key n hk)
  fresh key n hk := by
    rcases h'.fresh key n hk with hk | hlt
    · exact h.fresh key n hk
    · exact .inr (lt_of_le_of_lt h.counter hlt)

/-- from a numbered store to another one, where all that was there stays -/
def Moves (s s' : StateDb) : Prop := Numbered s → Numbered s' ∧ Stays s s'

theorem Moves.refl (s : StateDb) : Moves s s := fun h => ⟨h, .refl s⟩

theorem Moves.trans (a b c : StateDb) (h : Moves a b) (h' : Moves b c) : Moves a c := by
  intro hn
  obtain ⟨hn', hs⟩ := h hn
  obtain ⟨hn'', hs'⟩ := h' hn'
  exact ⟨hn'', hs.trans hs'⟩

theorem getOrCreateShorteventid_moves (e : EventId) (s : StateDb) : Moves s (getOrCreateShorteventid e s).2 := by
  rcases getOrCreateShorteventid_cases e s with ⟨n, _, hrun⟩ | ⟨_, _, hrun⟩ | hrun
  · rw [hrun]
    exact .refl s
  · rw [hrun]
    intro hn
    have hnew : ∀ n e', s.shorteventidEventid n = some e' → n ≠ s.counter + 1 := by
      intro n e' he
      have hle := hn.events n e' he
      omega
    refine ⟨⟨fun n e' he => ?_, hn.keys, fun n key hk => (hn.keys_le n key hk).trans (Nat.le_succ _)⟩,
      ⟨Nat.le_succ _, rfl, rfl, fun n e' he => ?_, fun _ _ h => h, fun _ _ h => .inl h⟩⟩
    · change Function.update s.shorteventidEventid (s.counter + 1) (some e) n = some e' at he
      show n ≤ s.counter + 1
      by_cases h : n = s.counter + 1
      · exact h.le
      · rw [Function.update_of_ne h] at he
        exact (hn.events n e' he).trans (Nat.le_succ _)
    · show Function.update s.shorteventidEventid (s.counter + 1) (some e) n = some e'
      rwa [Function.update_of_ne (hnew n e' he)]
  · rw [hrun]
    exact .refl s

theorem getOrCreateShortstatekey_moves (eventType : EventType) (stateKey : String) (s : StateDb) :
    Moves s (getOrCreateShortstatekey eventType stateKey s).2 := by
  rcases getOrCreateShortstatekey_cases eventType stateKey s with ⟨n, _, hrun⟩ | ⟨hnone, _, hrun⟩ | hrun
  · rw [hrun]
    exact .refl s
  · rw [hrun]
    intro hn
    have hnew : ∀ n key, s.shortstatekeyStatekey n = some key → n ≠ s.counter + 1 := by
      intro n key hk
      have hle := hn.keys_le n key hk
      omega
    refine ⟨⟨fun n e he => (hn.events n e he).trans (Nat.le_succ _), fun n key => ?_, fun n key hk => ?_⟩,
      ⟨Nat.le_succ _, rfl, rfl, fun _ _ h => h, fun key n hk => ?_, fun key n hk => ?_⟩⟩
    · show Function.update s.statekeyShortstatekey (eventType, stateKey) (some (s.counter + 1)) key = some n ↔
        Function.update s.shortstatekeyStatekey (s.counter + 1) (some (eventType, stateKey)) n = some key
      by_cases hkey : key = (eventType, stateKey)
      · subst hkey
        rw [Function.update_self]
        constructor
        · intro h
          cases h
          exact Function.update_self ..
        · intro h
          by_cases hne : n = s.counter + 1
          · rw [hne]
          · rw [Function.update_of_ne hne, ← hn.keys n, hnone] at h
            cases h
      · rw [Function.update_of_ne hkey]
        constructor
        · intro h
          have hk := (hn.keys n key).mp h
          rwa [Function.update_of_ne (hnew n key hk)]
        · intro h
          by_cases hne : n = s.counter + 1
          · rw [hne, Function.update_self] at h
            exact absurd (Option.some.inj h).symm hkey
          · rw [Function.update_of_ne hne] at h
            exact (hn.keys n key).mpr h
    · change Function.update s.shortstatekeyStatekey (s.counter + 1) _ n = some key at hk
      show n ≤ s.counter + 1
      by_cases h : n = s.counter + 1
      · exact h.le
      · rw [Function.update_of_ne h] at hk
        exact (hn.keys_le n key hk).trans (Nat.le_succ _)
    · show Function.update s.statekeyShortstatekey (eventType, stateKey) _ key = some n
      rw [Function.update_of_ne]
      · exact hk
      · intro he
        rw [he, hnone] at hk
        cases hk
    · change Function.update s.statekeyShortstatekey (eventType, stateKey) _ key = some n at hk
      by_cases he : key = (eventType, stateKey)
      · rw [he, Function.update_self] at hk
        cases hk
        exact .inr (Nat.lt_succ_self _)
      · rw [Function.update_of_ne he] at hk
        exact .inl hk
  · rw [hrun]
    exact .refl s

end StateDb

/-! ## hash maps -/

namespace Fed

variable (fed : Fed)

theorem mem_entries {α : Type} (t : Tree Nat α) (k : Nat) (a : α) : (k, a) ∈ fed.entries t ↔ t.get k = some a := by
  unfold entries
  rw [List.mem_filterMap]
  constructor
  · intro h
    obtain ⟨k', _, hk⟩ := h
    obtain ⟨b, hb, he⟩ := Option.map_eq_some_iff.mp hk
    cases he
    exact hb
  · intro h
    refine ⟨k, ?_, by rw [h]; rfl⟩
    have hrow : (k, a) ∈ t.rows := (t.get_eq_some_iff k a).mp h
    exact (fed.shuffle_perm _).mem_iff.mpr (List.mem_map.mpr ⟨(k, a), hrow, rfl⟩)

theorem entries_keys {α : Type} (t : Tree Nat α) : (fed.entries t).Pairwise fun x y => x.1 ≠ y.1 := by
  unfold entries
  rw [List.pairwise_filterMap]
  have hkeys : (t.rows.map Prod.fst).Nodup := by
    refine (List.pairwise_map.mpr (t.sorted.imp fun hlt => ?_))
    exact Nat.ne_of_lt hlt
  refine ((fed.shuffle_perm _).nodup_iff.mpr hkeys).imp fun {k k'} hne x hx y hy => ?_
  obtain ⟨a, _, rfl⟩ := Option.map_eq_some_iff.mp hx
  obtain ⟨b, _, rfl⟩ := Option.map_eq_some_iff.mp hy
  exact hne

end Fed

namespace Db

variable (env : Env) (fed : Fed)
variable {key : EventType × String} {ids : Tree Nat EventId} {db db' : Db} {es : List EventId}
  {fuel h : Nat} {r : RoomId}

/-! ## what is handed to the resolution -/

/-- the states behind the prev events, and their auth chains -/
def forksOfPrevs (fuel : Nat) (r : RoomId) (prevEvents : List EventId) :
    RoomComp (Option (List (StateMap × Finset EventId))) := do
  match (← Comp.get).extremitySstatehashes prevEvents .empty with
  | none => pure none
  | some extremities => some <$> forkStates env fed fuel r (fed.entries extremities)

def resolveForks (version : RoomVersionId) :
    Option (List (StateMap × Finset EventId)) → RoomComp (Option (Tree Nat EventId))
  | none => pure none
  | some forks => do
    let db ← Comp.get
    match fed.resolve version (forks.map Prod.fst) (forks.map Prod.snd) db.findPdu with
    | some state => some <$> shortStateKeys state.rows
    | none => pure none

theorem stateOfPrevs_eq (fuel : Nat) (r : RoomId) (version : RoomVersionId) (prevEvents : List EventId) :
    stateOfPrevs env fed fuel r version prevEvents
      = forksOfPrevs env fed fuel r prevEvents >>= resolveForks fed version := by
  funext db
  unfold stateOfPrevs forksOfPrevs
  rw [Comp.bind_ok (Comp.get_run db)]
  cases hext : db.extremitySstatehashes prevEvents .empty with
  | none =>
    have hrun : (Comp.get >>= fun db : Db => match db.extremitySstatehashes prevEvents .empty with
        | none => pure none
        | some extremities => some <$> forkStates env fed fuel r (fed.entries extremities) :
          RoomComp (Option (List (StateMap × Finset EventId)))) db = (.ok none, db) := by
      rw [Comp.bind_ok (Comp.get_run db), hext]
      rfl
    rw [Comp.bind_ok hrun]
    rfl
  | some extremities =>
    cases hforks : forkStates env fed fuel r (fed.entries extremities) db with
    | mk o db' =>
      have hrun : (Comp.get >>= fun db : Db => match db.extremitySstatehashes prevEvents .empty with
          | none => pure none
          | some extremities => some <$> forkStates env fed fuel r (fed.entries extremities) :
            RoomComp (Option (List (StateMap × Finset EventId)))) db = (o.map some, db') := by
        rw [Comp.bind_ok (Comp.get_run db), hext]
        cases o with
        | ok forks => exact Comp.bind_ok hforks
        | error e => exact Comp.bind_error hforks
      cases o with
      | ok forks =>
        rw [Comp.bind_ok hrun]
        exact Comp.bind_ok hforks
      | error e =>
        rw [Comp.bind_error hrun]
        exact Comp.bind_error hforks

/-- with one prev event there is nothing to resolve; else the forks are resolved -/
theorem knownState_forks (fuel : Nat) (r : RoomId) (version : RoomVersionId) {prevEvents : List EventId}
    (h : 2 ≤ prevEvents.length) :
    knownState env fed fuel r version prevEvents
      = forksOfPrevs env fed fuel r prevEvents >>= resolveForks fed version := by
  rw [← stateOfPrevs_eq]
  match prevEvents, h with
  | _ :: _ :: _, _ => rfl

/-! ## the state behind an event -/

/-- the entries of a state by type and state key, with the event itself if it is a state event -/
def behind (db : Db) (ids : Tree Nat EventId) (pdu : PduEvent) (key : EventType × String) : Option EventId :=
  if pdu.stateKey = some key.2 ∧ pdu.kind = key.1 then some pdu.eventId
  else (db.state.statekeyShortstatekey key).bind ids.get

def stateBehind (db : Db) (h : Nat) (pdu : PduEvent) (key : EventType × String) : Option EventId :=
  match db.stateFullIds env h with
  | .ok ids => db.behind ids pdu key
  | .error _ => none

/-- the snapshot that is recorded for the event, with the event itself if it is a state event -/
def stateAfter (db : Db) (e : EventId) (key : EventType × String) : Option EventId :=
  match db.findPdu e, db.pduShortstatehash e with
  | some pdu, some h => db.stateBehind env h pdu key
  | _, _ => none

/-- the state can be read, and all its short state keys were given out -/
def Readable (db : Db) (h : Nat) : Prop :=
  ∃ ids, db.stateFullIds env h = .ok ids ∧ ∀ k x, ids.get k = some x → k ≤ db.state.counter

/-- the event is stored, and so is the state at it -/
def Recorded (db : Db) (e : EventId) : Prop :=
  ∃ pdu h, db.findPdu e = some pdu ∧ db.pduShortstatehash e = some h ∧ db.Readable env h

/-- no later prev event has the state of this one -/
def LastOn (db : Db) (prevEvents : List EventId) (e : EventId) : Prop :=
  ∃ before behind, prevEvents = before ++ e :: behind ∧
    ∀ x ∈ behind, db.pduShortstatehash x ≠ db.pduShortstatehash e

/-! ## what new short ids leave -/

section
variable {env fed} {db db' : Db} (hs : StateDb.Stays db.state db'.state)
include hs

theorem fullState_stays (h : Nat) : db'.fullState h = db.fullState h := by
  unfold Db.fullState
  rw [StateDb.loadShortstatehashInfo_congr hs.rows hs.cache]

theorem parse_stays {c : CompressedStateEvent} {p : Nat × EventId} (h : db.parseCompressedStateEvent c = .ok p) :
    db'.parseCompressedStateEvent c = .ok p := by
  unfold Db.parseCompressedStateEvent at h ⊢
  cases he : db.state.shorteventidEventid (ofBe (c.bytes.drop 8)) with
  | none =>
    rw [he] at h
    cases h
  | some e =>
    rw [he] at h
    rw [hs.events _ e he]
    exact h

theorem stateFullIds_stays (hids : db.stateFullIds env h = .ok ids) :
    db'.stateFullIds env h = .ok ids := by
  obtain ⟨full, hfull, hfold⟩ := except_bind_eq_ok.mp hids
  refine except_bind_eq_ok.mpr ⟨full, (fullState_stays hs h).trans hfull, ?_⟩
  clear hfull hids
  generalize (.empty : Tree Nat EventId) = t at hfold ⊢
  generalize env.ord.enum full = l at hfold ⊢
  induction l generalizing t with
  | nil => exact hfold
  | cons c l ih =>
    rw [List.foldlM_cons] at hfold ⊢
    obtain ⟨t', ht', hfold⟩ := except_bind_eq_ok.mp hfold
    obtain ⟨p, hp, ht'⟩ := except_bind_eq_ok.mp ht'
    exact except_bind_eq_ok.mpr ⟨t', except_bind_eq_ok.mpr ⟨p, parse_stays hs hp, ht'⟩, ih t' hfold⟩

/-- a key that is new has a number that no older state has -/
theorem get_stays (hle : ∀ k x, ids.get k = some x → k ≤ db.state.counter) (key : EventType × String) :
    (db'.state.statekeyShortstatekey key).bind ids.get = (db.state.statekeyShortstatekey key).bind ids.get := by
  cases hk : db.state.statekeyShortstatekey key with
  | some n => rw [hs.keys key n hk]
  | none =>
    cases hk' : db'.state.statekeyShortstatekey key with
    | none => rfl
    | some n =>
      show ids.get n = none
      cases hget : ids.get n with
      | none => rfl
      | some x =>
        have hn := hle n x hget
        rcases hs.fresh key n hk' with hk' | hlt
        · rw [hk] at hk'
          cases hk'
        · omega

end

theorem moves_shortening : Shortening fun db db' => StateDb.Moves db.state db'.state where
  refl db := .refl db.state
  trans _ _ _ h h' := StateDb.Moves.trans _ _ _ h h'
  short db e := StateDb.getOrCreateShorteventid_moves e db.state
  chains db _ _ := .refl db.state

/-! ## one fork -/

/-- one more entry of a state; a short state key without type and state key is skipped -/
def putEntry (db : Db) (m : StateMap) (row : Nat × EventId) : StateMap :=
  match db.state.shortstatekeyStatekey row.1 with
  | some key => m.insert key row.2
  | none => m

theorem get_putEntry_of_ne (m : StateMap) {row : Nat × EventId}
    (h : db.state.shortstatekeyStatekey row.1 ≠ some key) : (db.putEntry m row).get key = m.get key := by
  unfold putEntry
  cases hk : db.state.shortstatekeyStatekey row.1 with
  | none => rfl
  | some k =>
    rw [hk] at h
    exact StateMap.get_insert_of_ne m row.2 fun he => h (congrArg some he.symm)

theorem get_foldl_putEntry (l : List (Nat × EventId)) (m : StateMap)
    (h : ∀ row ∈ l, db.state.shortstatekeyStatekey row.1 ≠ some key) :
    (l.foldl db.putEntry m).get key = m.get key := by
  induction l generalizing m with
  | nil => rfl
  | cons row l ih =>
    rw [List.foldl_cons, ih _ fun row' hrow => h row' (List.mem_cons_of_mem _ hrow)]
    exact get_putEntry_of_ne m (h row List.mem_cons_self)

/-- the map of a state has its entries, whatever the order of the iteration -/
theorem get_stateMapOf (hn : StateDb.Numbered db.state) (leaf : Tree Nat EventId) (key : EventType × String) :
    (db.stateMapOf (fed.entries leaf)).get key = (db.state.statekeyShortstatekey key).bind leaf.get := by
  show ((fed.entries leaf).foldl db.putEntry .empty).get key = _
  by_cases h : ∃ row ∈ fed.entries leaf, db.state.shortstatekeyStatekey row.1 = some key
  · obtain ⟨⟨n, e⟩, hrow, hkey⟩ := h
    have hget : leaf.get n = some e := (fed.mem_entries leaf n e).mp hrow
    have hdistinct := fed.entries_keys leaf
    obtain ⟨before, behind, hsplit⟩ := List.append_of_mem hrow
    rw [hsplit] at hdistinct ⊢
    have hbehind : ∀ row ∈ behind, db.state.shortstatekeyStatekey row.1 ≠ some key := by
      intro row hmem he
      have hne := (List.pairwise_cons.mp (List.pairwise_append.mp hdistinct).2.1).1 row hmem
      have hrow := (hn.keys row.1 key).mpr he
      rw [(hn.keys n key).mpr hkey] at hrow
      exact hne (Option.some.inj hrow)
    rw [List.foldl_append, List.foldl_cons, get_foldl_putEntry behind _ hbehind, (hn.keys n key).mpr hkey]
    show (db.putEntry _ (n, e)).get key = leaf.get n
    unfold putEntry
    rw [hkey, hget]
    exact StateMap.get_insert_self _ key e
  · rw [get_foldl_putEntry _ _ fun row hrow he => h ⟨row, hrow, he⟩]
    cases hk : db.state.statekeyShortstatekey key with
    | none => rfl
    | some n =>
      show none = leaf.get n
      cases hget : leaf.get n with
      | none => rfl
      | some e => exact absurd ⟨(n, e), (fed.mem_entries leaf n e).mpr hget, (hn.keys n key).mp hk⟩ h

theorem insertEvent_run {pdu : PduEvent} {leaf : Tree Nat EventId}
    (h : insertEvent pdu pdu.eventId ids db = (.ok leaf, db')) (hn : StateDb.Numbered db.state) :
    (StateDb.Numbered db'.state ∧ StateDb.Stays db.state db'.state) ∧
      ∀ key, (db'.state.statekeyShortstatekey key).bind leaf.get = db'.behind ids pdu key := by
  unfold insertEvent at h
  unfold behind
  cases hsk : pdu.stateKey with
  | none =>
    rw [hsk] at h
    cases h
    exact ⟨⟨hn, .refl _⟩, fun key => (if_neg nofun).symm⟩
  | some stateKey =>
    rw [hsk] at h
    obtain ⟨n, _, hkey, h⟩ := Comp.bind_eq_ok.mp h
    cases h
    have hmoves := StateDb.getOrCreateShortstatekey_moves pdu.kind stateKey db.state hn
    have hnumber : db'.state.statekeyShortstatekey (pdu.kind, stateKey) = some n := by
      unfold onState at hkey
      rcases StateDb.getOrCreateShortstatekey_cases pdu.kind stateKey db.state with ⟨m, hm, hrun⟩ | ⟨_, _, hrun⟩ | hrun
      · rw [hrun] at hkey
        cases hkey
        exact hm
      · rw [hrun] at hkey
        cases hkey
        exact Function.update_self ..
      · rw [hrun] at hkey
        cases hkey
    have hstate : db'.state = (StateDb.getOrCreateShortstatekey pdu.kind stateKey db.state).2 :=
      congrArg (fun x => x.2.state) hkey.symm
    rw [← hstate] at hmoves
    refine ⟨hmoves, fun key => ?_⟩
    by_cases hthis : some stateKey = some key.2 ∧ pdu.kind = key.1
    · obtain ⟨h1, h2⟩ := hthis
      have hk : key = (pdu.kind, stateKey) := Prod.ext h2.symm (Option.some.inj h1).symm
      rw [if_pos ⟨h1, h2⟩, hk, hnumber]
      exact Tree.get_insert_self ids n pdu.eventId
    · rw [if_neg hthis]
      cases hk : db'.state.statekeyShortstatekey key with
      | none => rfl
      | some m =>
        refine Tree.get_insert_of_ne ids pdu.eventId fun hmn => hthis ?_
        -- one number belongs to one key
        have hback := (hmoves.1.keys n key).mp (hmn ▸ hk)
        rw [(hmoves.1.keys n _).mp hnumber] at hback
        cases hback
        exact ⟨rfl, rfl⟩

variable {env fed}

theorem behind_stays (hs : StateDb.Stays db.state db'.state)
    (hle : ∀ k x, ids.get k = some x → k ≤ db.state.counter) (pdu : PduEvent) (key : EventType × String) :
    db'.behind ids pdu key = db.behind ids pdu key := by
  unfold behind
  rw [get_stays hs hle]

/-- a fork is the state behind its event as it was before any fork was made -/
theorem forkState_run {db₁ : Db} (hn : StateDb.Numbered db₁.state) (hs : StateDb.Stays db.state db₁.state)
    (hids : db.stateFullIds env h = .ok ids) (hle : ∀ k x, ids.get k = some x → k ≤ db.state.counter)
    {prev : PduEvent} {fork : StateMap × Finset EventId}
    (hrun : forkState env fed fuel r h prev db₁ = (.ok fork, db')) :
    StateDb.Numbered db'.state ∧ StateDb.Stays db.state db'.state ∧
      ∀ key, fork.1.get key = db.behind ids prev key := by
  obtain ⟨ids', hids', hrun⟩ := Comp.reads_eq_ok hrun
  rw [stateFullIds_stays hs hids] at hids'
  cases hids'
  obtain ⟨leaf, db₂, hinsert, hrun⟩ := Comp.bind_eq_ok.mp hrun
  obtain ⟨⟨hn₂, hs₂⟩, hleaf⟩ := insertEvent_run hinsert hn
  have hsleaf := hs.trans hs₂
  obtain ⟨state, db₃, hstate, hrun⟩ := Comp.bind_eq_ok.mp hrun
  cases hstate
  obtain ⟨chain, db₄, hchain, hrun⟩ := Comp.bind_eq_ok.mp hrun
  cases hrun
  have hmoves := getAuthChain_keeps moves_shortening fuel r ((fed.entries leaf).map Prod.snd) db₂ hn₂
  rw [hchain] at hmoves
  obtain ⟨hn₄, hs₄⟩ := hmoves
  refine ⟨hn₄, hsleaf.trans hs₄, fun key => ?_⟩
  calc (db₂.stateMapOf (fed.entries leaf)).get key
      = (db₂.state.statekeyShortstatekey key).bind leaf.get := get_stateMapOf fed hn₂ leaf key
    _ = db₂.behind ids prev key := hleaf key
    _ = db.behind ids prev key := behind_stays hsleaf hle prev key

theorem forkStates_run {db₁ : Db} (hn : StateDb.Numbered db₁.state) (hs : StateDb.Stays db.state db₁.state)
    {extremities : List (Nat × PduEvent)} (hread : ∀ x ∈ extremities, db.Readable env x.1)
    {forks : List (StateMap × Finset EventId)}
    (hrun : forkStates env fed fuel r extremities db₁ = (.ok forks, db')) :
    forks.map (fun fork => fork.1.get) = extremities.map fun x => db.stateBehind env x.1 x.2 := by
  induction extremities generalizing db₁ forks with
  | nil =>
    cases hrun
    rfl
  | cons x extremities ih =>
    obtain ⟨ids, hids, hle⟩ := hread x List.mem_cons_self
    obtain ⟨fork, db₂, hfork, hrun⟩ := Comp.bind_eq_ok.mp hrun
    obtain ⟨rest, db₃, hrest, hrun⟩ := Comp.bind_eq_ok.mp hrun
    cases hrun
    obtain ⟨hn₂, hs₂, hget⟩ := forkState_run hn hs hids hle hfork
    have hhead : fork.1.get = db.stateBehind env x.1 x.2 := by
      funext key
      rw [hget key, stateBehind, hids]
    rw [List.map_cons, List.map_cons, hhead, ih hn₂ hs₂ (fun y hy => hread y (List.mem_cons_of_mem _ hy)) hrest]

/-! ## the prev events that are left -/

theorem lastOn_cons (db : Db) (e : EventId) (es : List EventId) (e' : EventId) :
    db.LastOn (e :: es) e' ↔
      db.LastOn es e' ∨ e' = e ∧ ∀ x ∈ es, db.pduShortstatehash x ≠ db.pduShortstatehash e := by
  constructor
  · intro h
    obtain ⟨before, behind, hsplit, hlast⟩ := h
    cases before with
    | nil =>
      obtain ⟨rfl, rfl⟩ := List.cons.inj hsplit
      exact .inr ⟨rfl, hlast⟩
    | cons x before =>
      obtain ⟨_, hsplit⟩ := List.cons.inj hsplit
      exact .inl ⟨before, behind, hsplit, hlast⟩
  · intro h
    rcases h with ⟨before, behind, hsplit, hlast⟩ | ⟨rfl, hlast⟩
    · exact ⟨e :: before, behind, by rw [hsplit, List.cons_append], hlast⟩
    · exact ⟨[], es, rfl, hlast⟩

theorem LastOn.mem {e : EventId} (h : db.LastOn es e) : e ∈ es := by
  obtain ⟨before, behind, rfl, _⟩ := h
  exact List.mem_append_right _ List.mem_cons_self

/-- under a state is the last prev event on it -/
theorem get_extremities {t extremities : Tree Nat PduEvent}
    (h : db.extremitySstatehashes es t = some extremities) (n : Nat) (pdu : PduEvent) :
    extremities.get n = some pdu ↔
      (∃ e, db.LastOn es e ∧ db.findPdu e = some pdu ∧ db.pduShortstatehash e = some n) ∨
      t.get n = some pdu ∧ ∀ e ∈ es, db.pduShortstatehash e ≠ some n := by
  induction es generalizing t with
  | nil =>
    cases h
    constructor
    · exact fun hget => .inr ⟨hget, fun e he => absurd he List.not_mem_nil⟩
    · intro hget
      rcases hget with ⟨e, hlast, _⟩ | ⟨hget, _⟩
      · exact absurd hlast.mem List.not_mem_nil
      · exact hget
  | cons e es ih =>
    unfold extremitySstatehashes at h
    cases hpdu : db.findPdu e with
    | none =>
      rw [hpdu] at h
      cases h
    | some prev =>
      cases hhash : db.pduShortstatehash e with
      | none =>
        rw [hpdu, hhash] at h
        cases h
      | some m =>
        rw [hpdu, hhash] at h
        rw [ih h]
        simp only [lastOn_cons]
        by_cases hnm : n = m
        · subst hnm
          rw [Tree.get_insert_self]
          constructor
          · intro hget
            rcases hget with ⟨x, hlast, hx⟩ | ⟨hprev, hnone⟩
            · exact .inl ⟨x, .inl hlast, hx⟩
            · cases hprev
              exact .inl ⟨e, .inr ⟨rfl, fun x hx => by rw [hhash]; exact hnone x hx⟩, hpdu, hhash⟩
          · intro hget
            rcases hget with ⟨x, hlast | ⟨rfl, hnone⟩, hx, hxn⟩ | ⟨_, hnone⟩
            · exact .inl ⟨x, hlast, hx, hxn⟩
            · rw [hpdu] at hx
              rw [hhash] at hnone
              exact .inr ⟨hx, hnone⟩
            · exact absurd hhash (hnone e List.mem_cons_self)
        · rw [Tree.get_insert_of_ne _ _ hnm]
          have hother : some m ≠ some n := fun he => hnm (Option.some.inj he).symm
          constructor
          · intro hget
            rcases hget with ⟨x, hlast, hx⟩ | ⟨hget, hnone⟩
            · exact .inl ⟨x, .inl hlast, hx⟩
            · refine .inr ⟨hget, fun x hx => ?_⟩
              rcases List.mem_cons.mp hx with rfl | hx
              · rw [hhash]
                exact hother
              · exact hnone x hx
          · intro hget
            rcases hget with ⟨x, hlast | ⟨rfl, _⟩, hx, hxn⟩ | ⟨hget, hnone⟩
            · exact .inl ⟨x, hlast, hx, hxn⟩
            · exact absurd (hhash.symm.trans hxn) hother
            · exact .inr ⟨hget, fun x hx => hnone x (List.mem_cons_of_mem _ hx)⟩

theorem exists_extremities (h : ∀ e ∈ es, db.Recorded env e) (t : Tree Nat PduEvent) :
    ∃ extremities, db.extremitySstatehashes es t = some extremities := by
  induction es generalizing t with
  | nil => exact ⟨t, rfl⟩
  | cons e es ih =>
    obtain ⟨pdu, n, hpdu, hhash, _⟩ := h e List.mem_cons_self
    unfold extremitySstatehashes
    rw [hpdu, hhash]
    exact ih (fun x hx => h x (List.mem_cons_of_mem _ hx)) _

/-! ## all forks -/

/-- the forks are the states behind the prev events that are left -/
theorem mem_forks_iff (hn : StateDb.Numbered db.state) {prevEvents : List EventId}
    (hrec : ∀ e ∈ prevEvents, db.Recorded env e) {o : Option (List (StateMap × Finset EventId))}
    (hrun : forksOfPrevs env fed fuel r prevEvents db = (.ok o, db')) :
    ∃ forks, o = some forks ∧ ∀ f : EventType × String → Option EventId,
      (∃ fork ∈ forks, fork.1.get = f) ↔ ∃ e, db.LastOn prevEvents e ∧ db.stateAfter env e = f := by
  obtain ⟨extremities, hext⟩ := exists_extremities hrec .empty
  unfold forksOfPrevs at hrun
  rw [Comp.bind_ok (Comp.get_run db), hext] at hrun
  obtain ⟨forks, db₁, hforks, hrun⟩ := Comp.bind_eq_ok.mp hrun
  cases hrun
  refine ⟨forks, rfl, fun f => ?_⟩
  have hmem : ∀ n pdu, (n, pdu) ∈ fed.entries extremities ↔
      ∃ e, db.LastOn prevEvents e ∧ db.findPdu e = some pdu ∧ db.pduShortstatehash e = some n := by
    intro n pdu
    rw [fed.mem_entries, get_extremities hext]
    exact or_iff_left fun h => nomatch h.1
  have hread : ∀ x ∈ fed.entries extremities, db.Readable env x.1 := by
    intro x hx
    obtain ⟨e, hlast, _, hhash⟩ := (hmem x.1 x.2).mp hx
    obtain ⟨_, n, _, hhash', hids⟩ := hrec e hlast.mem
    rw [hhash'] at hhash
    cases hhash
    exact hids
  have hstates := forkStates_run hn (.refl db.state) hread hforks
  rw [← List.mem_map, hstates, List.mem_map]
  constructor
  · intro h
    obtain ⟨x, hx, rfl⟩ := h
    obtain ⟨e, hlast, hpdu, hhash⟩ := (hmem x.1 x.2).mp hx
    refine ⟨e, hlast, ?_⟩
    funext key
    rw [stateAfter, hpdu, hhash]
  · intro h
    obtain ⟨e, hlast, rfl⟩ := h
    obtain ⟨pdu, n, hpdu, hhash, _⟩ := hrec e hlast.mem
    refine ⟨(n, pdu), (hmem n pdu).mpr ⟨e, hlast, hpdu, hhash⟩, ?_⟩
    funext key
    rw [stateAfter, hpdu, hhash]

/-- **no fork is lost** exactly if behind every prev event is the state of one that is left -/
theorem forks_complete_iff {db db' : Db} (hn : StateDb.Numbered db.state) {prevEvents : List EventId}
    (hrec : ∀ e ∈ prevEvents, db.Recorded env e) {fuel : Nat} {r : RoomId}
    {o : Option (List (StateMap × Finset EventId))}
    (hrun : forksOfPrevs env fed fuel r prevEvents db = (.ok o, db')) :
    (∃ forks, o = some forks ∧ ∀ p ∈ prevEvents, ∃ fork ∈ forks, fork.1.get = db.stateAfter env p) ↔
      ∀ p ∈ prevEvents, ∃ q, db.LastOn prevEvents q ∧ db.stateAfter env q = db.stateAfter env p := by
  obtain ⟨forks, rfl, hforks⟩ := mem_forks_iff hn hrec hrun
  constructor
  · intro h p hp
    obtain ⟨_, ⟨⟩, hall⟩ := h
    exact (hforks _).mp (hall p hp)
  · intro h
    exact ⟨forks, rfl, fun p hp => (hforks _).mpr (h p hp)⟩

/-! ## concrete forks -/

namespace Forked

def alice : UserId := ⟨.ascii "@alice:x"⟩
def room : RoomId := ⟨.ascii "!r:x"⟩

def event (e : String) (kind : EventType) (stateKey : Option String) : PduJson :=
  ⟨[], ⟨⟨.ascii e⟩, room, alice, 0, kind, [], stateKey, [], 0, [], none, none⟩⟩

def create : PduJson := event "$create" .roomCreate (some "")
def message : PduJson := event "$message" .roomMessage none
def name : PduJson := event "$name" .roomName (some "")

def prevEvents : List EventId := [name.pdu.eventId, message.pdu.eventId]

def state (h : Nat) : StateDb := { StateDb.empty with
  counter := 10
  eventidShorteventid := fun e =>
    if e = create.pdu.eventId then some 3 else if e = name.pdu.eventId then some 5
    else if e = message.pdu.eventId then some 6 else none
  shorteventidEventid := fun n =>
    if n = 3 then some create.pdu.eventId else if n = 5 then some name.pdu.eventId
    else if n = 6 then some message.pdu.eventId else none
  statekeyShortstatekey := fun key => if key = (.roomCreate, "") then some 2 else none
  shortstatekeyStatekey := fun n => if n = 2 then some (.roomCreate, "") else none
  shortstatehashStatediff := fun n =>
    if n = 4 ∨ n = 7 then some (be64 0 ++ (CompressedStateEvent.of 2 3).bytes) else none
  shorteventidShortstatehash := fun n => if n = 5 then some 4 else if n = 6 then some h else none }

/-- a message and a name of a room; the state at the message has the given number -/
def store (h : Nat) : Db := { Db.empty with
  state := state h
  timeline := ((TimelineTables.empty.addPduOutlier create.pdu.eventId create).addPduOutlier
    message.pdu.eventId message).addPduOutlier name.pdu.eventId name }

theorem numbered (h : Nat) : StateDb.Numbered (store h).state where
  events n e he := by
    change (if n = 3 then some create.pdu.eventId else if n = 5 then some name.pdu.eventId
      else if n = 6 then some message.pdu.eventId else none) = some e at he
    show n ≤ 10
    split at he
    · omega
    · split at he
      · omega
      · split at he
        · omega
        · cases he
  keys n key := by
    show (if key = (.roomCreate, "") then some 2 else none) = some n ↔
      (if n = 2 then some (EventType.roomCreate, "") else none) = some key
    constructor
    · intro hk
      split at hk
      · next hkey =>
        cases hk
        rw [hkey]
        rfl
      · cases hk
    · intro hk
      split at hk
      · next hn =>
        cases hk
        rw [hn]
        rfl
      · cases hk
  keys_le n key hk := by
    change (if n = 2 then some (EventType.roomCreate, "") else none) = some key at hk
    show n ≤ 10
    split at hk
    · omega
    · cases hk

theorem readable {n : Nat}
    (hrows : ((store h).stateFullIds .plain n).toOption.map Tree.rows = some [(2, create.pdu.eventId)]) :
    (store h).Readable .plain n := by
  cases hids : (store h).stateFullIds .plain n with
  | error e =>
    rw [hids] at hrows
    cases hrows
  | ok ids =>
    rw [hids] at hrows
    have hids : ids.rows = [(2, create.pdu.eventId)] := Option.some.inj hrows
    refine ⟨ids, by assumption, fun k x hget => ?_⟩
    have hrow := (ids.get_eq_some_iff k x).mp hget
    rw [hids] at hrow
    cases List.mem_singleton.mp hrow
    show 2 ≤ 10
    omega

theorem recorded_same : ∀ e ∈ prevEvents, (store 4).Recorded .plain e := by
  intro e he
  rcases List.mem_cons.mp he with rfl | he
  · exact ⟨name.pdu, 4, rfl, by decide +kernel, readable (by decide +kernel)⟩
  · rcases List.mem_singleton.mp he with rfl
    exact ⟨message.pdu, 4, rfl, by decide +kernel, readable (by decide +kernel)⟩

theorem recorded_other : ∀ e ∈ prevEvents, (store 7).Recorded .plain e := by
  intro e he
  rcases List.mem_cons.mp he with rfl | he
  · exact ⟨name.pdu, 4, rfl, by decide +kernel, readable (by decide +kernel)⟩
  · rcases List.mem_singleton.mp he with rfl
    exact ⟨message.pdu, 7, rfl, by decide +kernel, readable (by decide +kernel)⟩

theorem exists_forks (hlength : ((forksOfPrevs .plain .plain 10 room prevEvents (store h)).1.toOption.bind
    fun o => o.map List.length).isSome = true) :
    ∃ forks db', forksOfPrevs .plain .plain 10 room prevEvents (store h) = (.ok (some forks), db') := by
  obtain ⟨out, db', hrun⟩ : ∃ out db', forksOfPrevs .plain .plain 10 room prevEvents (store h) = (out, db') :=
    ⟨_, _, rfl⟩
  rw [hrun] at hlength
  match out, hlength with
  | .ok (some forks), _ => exact ⟨forks, db', hrun⟩

end Forked

/-- the message and the name have their own states -/
theorem forks_complete_iff_apart : ∃ o db',
    forksOfPrevs .plain .plain 10 Forked.room Forked.prevEvents (Forked.store 7) = (.ok o, db') ∧
    ∃ forks, o = some forks ∧
      ∀ p ∈ Forked.prevEvents, ∃ fork ∈ forks, fork.1.get = (Forked.store 7).stateAfter .plain p := by
  obtain ⟨forks, db', hrun⟩ := Forked.exists_forks (h := 7) (by decide +kernel)
  refine ⟨_, db', hrun, (forks_complete_iff (Forked.numbered 7) Forked.recorded_other hrun).mpr fun p hp => ?_⟩
  refine ⟨p, ?_, rfl⟩
  rcases List.mem_cons.mp hp with rfl | hp
  · refine ⟨[], [Forked.message.pdu.eventId], rfl, fun x hx => ?_⟩
    rw [List.mem_singleton.mp hx]
    decide +kernel
  · rw [List.mem_singleton.mp hp]
    exact ⟨[Forked.name.pdu.eventId], [], rfl, fun x hx => absurd hx List.not_mem_nil⟩

/-- the message was sent on the state that the name changed, and only the state behind it is left -/
theorem fork_dropped : ¬ ∀ (env : Env) (fed : Fed) (fuel : Nat) (r : RoomId) (prevEvents : List EventId)
    (db db' : Db) (o : Option (List (StateMap × Finset EventId))), StateDb.Numbered db.state →
    2 ≤ prevEvents.length → (∀ e ∈ prevEvents, db.Recorded env e) →
    forksOfPrevs env fed fuel r prevEvents db = (.ok o, db') →
    ∃ forks, o = some forks ∧ ∀ p ∈ prevEvents, ∃ fork ∈ forks, fork.1.get = db.stateAfter env p := by
  intro hall
  obtain ⟨forks, db', hrun⟩ := Forked.exists_forks (h := 4) (by decide +kernel)
  obtain ⟨_, ⟨⟩, hforks⟩ := hall .plain .plain 10 Forked.room Forked.prevEvents (Forked.store 4) db' _
    (Forked.numbered 4) (le_refl 2) Forked.recorded_same hrun
  obtain ⟨fork, hfork, hget⟩ := hforks Forked.name.pdu.eventId List.mem_cons_self
  obtain ⟨_, ⟨⟩, hmem⟩ := mem_forks_iff (Forked.numbered 4) Forked.recorded_same hrun
  obtain ⟨q, hlast, hq⟩ := (hmem _).mp ⟨fork, hfork, hget⟩
  have hsame : (Forked.store 4).pduShortstatehash Forked.message.pdu.eventId
      = (Forked.store 4).pduShortstatehash Forked.name.pdu.eventId := by decide +kernel
  have hmessage : (Forked.store 4).stateAfter .plain Forked.message.pdu.eventId (.roomName, "") = none := by
    decide +kernel
  have hname : (Forked.store 4).stateAfter .plain Forked.name.pdu.eventId (.roomName, "")
      = some Forked.name.pdu.eventId := by decide +kernel
  rcases (lastOn_cons _ _ _ q).mp hlast with hlast | ⟨_, hnone⟩
  · obtain rfl := List.mem_singleton.mp hlast.mem
    have hkey := congrFun hq (.roomName, "")
    rw [hmessage, hname] at hkey
    cases hkey
  · exact hnone _ List.mem_cons_self hsame

end Db

end Grapevine
