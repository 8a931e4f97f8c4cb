import Grapevine.Lib.Stream
import Grapevine.Lib.Update
import Grapevine.Events.Upgrade
import Grapevine.State.Content
import Grapevine.State.LayerBound

/-!
# The state of a room is a map

A stored state is a set of entries of sixteen bytes.  `state_full_ids` reads it into a map by short state key,
`state_get_id` searches for the first entry that starts with a key, and `append_to_state` takes out one entry of
the key of its event: all of them rely on at most one entry per key.

* `OnePerKey`          at most one entry per short state key;
* `Numbers`            the tables of short ids, each with its table back;
* `Made`               a set that was compressed from a map, as all callers of `save_state` do;
* `get_stateFullIds`, `stateGetId_eq`   what is read of a set with one entry per key.

Main result: `appendToState_update`.  In every run whose saved sets are compressed from maps, every stored state
is a map, and `append_to_state` puts the event under its key and leaves all other keys alone.
-/

namespace Grapevine
open Kv

/-- at most one entry per short state key -/
def OnePerKey (S : Finset CompressedStateEvent) : Prop :=
  ∀ k, ∀ c ∈ S, ∀ c' ∈ S, c.hasKey k = true → c'.hasKey k = true → c = c'

/-- a key is as good as the eight bytes that it is written as -/
theorem CompressedStateEvent.hasKey_congr {c c' : CompressedStateEvent} {j k : Nat} (hj : c.hasKey j = true)
    (hk : c.hasKey k = true) (h' : c'.hasKey j = true) : c'.hasKey k = true := by
  unfold hasKey at hj hk h' ⊢
  rw [List.isPrefixOf_iff_prefix] at hj hk h' ⊢
  have hbytes : be64 j = be64 k := (List.prefix_of_prefix_length_le hj hk (by simp)).eq_of_length (by simp)
  rw [← hbytes]
  exact h'

theorem OnePerKey.replaced {S : Finset CompressedStateEvent} (h : OnePerKey S) (k n : Nat) :
    OnePerKey (StateDb.replaced S k n) := by
  -- an entry of the old set has another key than the new entry
  have hother : ∀ j, ∀ c ∈ S, c.hasKey k = false → c.hasKey j = true →
      (CompressedStateEvent.of k n).hasKey j = true → False := by
    intro j c _ hck hcj hj
    have hk := CompressedStateEvent.hasKey_congr hj (CompressedStateEvent.of_hasKey k n) hcj
    rw [hck] at hk
    cases hk
  intro j c hc c' hc' hj hj'
  unfold StateDb.replaced at hc hc'
  rw [Finset.mem_insert, Finset.mem_filter] at hc hc'
  rcases hc with rfl | ⟨hc, hck⟩
  · rcases hc' with rfl | ⟨hc', hck'⟩
    · rfl
    · exact (hother j c' hc' hck' hj' hj).elim
  · rcases hc' with rfl | ⟨hc', hck'⟩
    · exact (hother j c hc hck hj hj').elim
    · exact h j c hc c' hc' hj hj'

namespace Db

section
variable {env : Env} {db : Db}
variable {ids : Tree Nat EventId} {c : CompressedStateEvent} {full : Finset CompressedStateEvent}
  {p : Nat × EventId} {h : Nat}

/-! ## reading a state -/

/-- the map is made of what the entries are parsed to -/
theorem foldlM_parse {l : List CompressedStateEvent} {t : Tree Nat EventId} (h : (l.foldlM (fun t c => do
      let p ← db.parseCompressedStateEvent c
      pure (t.insert p.1 p.2)) t : Except Error (Tree Nat EventId)) = .ok ids) :
    ids = (l.filterMap fun c => (db.parseCompressedStateEvent c).toOption).foldl (fun t p => t.insert p.1 p.2) t ∧
      ∀ c ∈ l, ∃ p, db.parseCompressedStateEvent c = .ok p := by
  induction l generalizing t with
  | nil =>
    cases h
    exact ⟨rfl, fun c hc => absurd hc List.not_mem_nil⟩
  | cons c l ih =>
    rw [List.foldlM_cons] at h
    obtain ⟨t', ht', h⟩ := except_bind_eq_ok.mp h
    obtain ⟨p, hp, ht'⟩ := except_bind_eq_ok.mp ht'
    cases ht'
    obtain ⟨hids, hparse⟩ := ih h
    rw [List.filterMap_cons, hp]
    refine ⟨hids, fun x hx => ?_⟩
    rcases List.mem_cons.mp hx with rfl | hx
    · exact ⟨p, hp⟩
    · exact hparse x hx

/-- a set is read if all its entries are -/
theorem foldlM_parse_ok (l : List CompressedStateEvent) (h : ∀ c ∈ l, ∃ p, db.parseCompressedStateEvent c = .ok p)
    (t : Tree Nat EventId) : ∃ ids, (l.foldlM (fun t c => do
      let p ← db.parseCompressedStateEvent c
      pure (t.insert p.1 p.2)) t : Except Error (Tree Nat EventId)) = .ok ids := by
  induction l generalizing t with
  | nil => exact ⟨t, rfl⟩
  | cons c l ih =>
    obtain ⟨p, hp⟩ := h c List.mem_cons_self
    obtain ⟨ids, hids⟩ := ih (fun x hx => h x (List.mem_cons_of_mem _ hx)) (t.insert p.1 p.2)
    refine ⟨ids, ?_⟩
    rw [List.foldlM_cons, hp]
    exact hids

theorem parse_key (h : db.parseCompressedStateEvent c = .ok p) :
    p.1 = ofBe (c.bytes.take 8) := by
  unfold Db.parseCompressedStateEvent at h
  cases he : db.state.shorteventidEventid (ofBe (c.bytes.drop 8)) with
  | none =>
    rw [he] at h
    cases h
  | some e =>
    rw [he] at h
    cases h
    rfl

/-- the short state key that an entry is parsed to is the one that it starts with -/
theorem hasKey_of_parse (h : db.parseCompressedStateEvent c = .ok p) :
    c.hasKey p.1 = true := by
  have hlen : (c.bytes.take 8).length = 8 := by
    rw [List.length_take, c.length_eq]
    rfl
  have htake : be64 (ofBe (c.bytes.take 8)) = c.bytes.take 8 := by
    have hbe := be_ofBe (c.bytes.take 8)
    rw [hlen] at hbe
    exact hbe
  unfold CompressedStateEvent.hasKey
  rw [List.isPrefixOf_iff_prefix, parse_key h, htake]
  exact List.take_prefix 8 c.bytes

/-- an entry is parsed to the short state key that it starts with -/
theorem parse_fst {k : Nat} (hk : k < 2^64) (hkey : c.hasKey k = true)
    (h : db.parseCompressedStateEvent c = .ok p) : p.1 = k := by
  have hp := hasKey_of_parse h
  have hlt : p.1 < 2^64 := by
    have hofBe := ofBe_lt (c.bytes.take 8)
    rw [List.length_take, c.length_eq] at hofBe
    rw [parse_key h]
    exact two64 ▸ hofBe
  unfold CompressedStateEvent.hasKey at hp hkey
  rw [List.isPrefixOf_iff_prefix] at hp hkey
  have hbytes : be64 p.1 = be64 k :=
    (List.prefix_of_prefix_length_le hp hkey (by simp)).eq_of_length (by simp)
  exact be_inj (two64 ▸ hlt) (two64 ▸ hk) hbytes

theorem parse_of {k n : Nat} {e : EventId} (hk : k < 2^64) (hn : n < 2^64)
    (he : db.state.shorteventidEventid n = some e) :
    db.parseCompressedStateEvent (.of k n) = .ok (k, e) := by
  unfold Db.parseCompressedStateEvent
  have htake : (CompressedStateEvent.of k n).bytes.take 8 = be64 k := by
    rw [← be64_length k]
    exact List.take_left
  have hdrop : (CompressedStateEvent.of k n).bytes.drop 8 = be64 n := by
    rw [← be64_length k]
    exact List.drop_left
  rw [htake, hdrop, ofBe_be64 hk, ofBe_be64 hn, he]

theorem exists_fullState (hids : db.stateFullIds env h = .ok ids) :
    ∃ full, db.fullState h = .ok full := by
  unfold Db.stateFullIds at hids
  obtain ⟨full, hfull, -⟩ := except_bind_eq_ok.mp hids
  exact ⟨full, hfull⟩

/-- the map of a state with one entry per key has its entries -/
theorem get_stateFullIds (hone : OnePerKey full) (hfull : db.fullState h = .ok full)
    (hids : db.stateFullIds env h = .ok ids) (k : Nat) (e : EventId) :
    ids.get k = some e ↔ ∃ c ∈ full, db.parseCompressedStateEvent c = .ok (k, e) := by
  unfold Db.stateFullIds at hids
  obtain ⟨full', hfull', hids⟩ := except_bind_eq_ok.mp hids
  rw [hfull] at hfull'
  cases hfull'
  rw [(foldlM_parse hids).1]
  have hkeys : ((env.ord.enum full).filterMap fun c => (db.parseCompressedStateEvent c).toOption).Pairwise
      fun p q => p.1 ≠ q.1 := by
    rw [List.pairwise_filterMap]
    refine (env.ord.nodup full).imp_of_mem fun {c c'} hc hc' hne p hp q hq he => hne ?_
    have hcp := hasKey_of_parse (toOption_eq_some.mp hp)
    have hcq := hasKey_of_parse (toOption_eq_some.mp hq)
    rw [← he] at hcq
    exact hone p.1 c ((env.ord.mem _ _).mp hc) c' ((env.ord.mem _ _).mp hc') hcp hcq
  rw [Tree.get_foldl_insert_iff Prod.fst Prod.snd hkeys]
  constructor
  · rintro ⟨p, hp, rfl, rfl⟩
    obtain ⟨c, hc, hparse⟩ := List.mem_filterMap.mp hp
    exact ⟨c, (env.ord.mem _ _).mp hc, toOption_eq_some.mp hparse⟩
  · rintro ⟨c, hc, hparse⟩
    refine ⟨(k, e), ?_, rfl, rfl⟩
    exact List.mem_filterMap.mpr ⟨c, (env.ord.mem _ _).mpr hc, toOption_eq_some.mpr hparse⟩

/-- the entry of a type and a state key -/
def entry (db : Db) (ids : Tree Nat EventId) (key : EventType × String) : Option EventId :=
  (db.state.statekeyShortstatekey key).bind ids.get

/-- the search for a state key finds what the map has under it, in whatever order the set is iterated -/
theorem stateGetId_eq (hone : OnePerKey full) (hfull : db.fullState h = .ok full)
    (hids : db.stateFullIds env h = .ok ids) {ty : EventType} {stateKey : String}
    (hword : ∀ k, db.state.statekeyShortstatekey (ty, stateKey) = some k → k < 2^64) (env' : Env) :
    db.stateGetId env' h ty stateKey = .ok (db.entry ids (ty, stateKey)) := by
  have hget := get_stateFullIds hone hfull hids
  have hparse : ∀ c ∈ full, ∃ p, db.parseCompressedStateEvent c = .ok p := by
    unfold Db.stateFullIds at hids
    obtain ⟨full', hfull', hids⟩ := except_bind_eq_ok.mp hids
    rw [hfull] at hfull'
    cases hfull'
    exact fun c hc => (foldlM_parse hids).2 c ((env.ord.mem _ _).mpr hc)
  unfold Db.stateGetId Db.entry
  cases hkey : db.state.statekeyShortstatekey (ty, stateKey) with
  | none => rfl
  | some k =>
    rw [hfull]
    show (.ok (((env'.ord.enum full).find? fun c => c.hasKey k).bind
      fun c => (db.parseCompressedStateEvent c).toOption.map Prod.snd) : Except Error (Option EventId)) = .ok (ids.get k)
    refine congrArg Except.ok ?_
    cases hfind : (env'.ord.enum full).find? fun c => c.hasKey k with
    | none =>
      cases hk : ids.get k with
      | none => rfl
      | some e =>
        obtain ⟨c, hc, hce⟩ := (hget k e).mp hk
        exact absurd (hasKey_of_parse hce) (List.find?_eq_none.mp hfind c ((env'.ord.mem _ _).mpr hc))
    | some c =>
      have hc := (env'.ord.mem _ _).mp (List.mem_of_find?_eq_some hfind)
      have hckey : c.hasKey k = true := by simpa using List.find?_some hfind
      obtain ⟨p, hp⟩ := hparse c hc
      have hpk := parse_fst (hword k hkey) hckey hp
      have hpe : ids.get k = some p.2 := (hget k p.2).mpr ⟨c, hc, by rw [hp, ← hpk]⟩
      rw [hpe, Option.bind_some, hp]
      rfl

end

end Db

namespace StateDb

variable {S : Finset CompressedStateEvent} {db db' : StateDb} {n : Nat}

/-! ## short ids -/

/-- a table of numbers and the table back; the numbers were counted -/
structure Numbering {κ : Type} (forward : κ → Option Nat) (back : Nat → Option κ) (count : Nat) : Prop where
  iff : ∀ a n, forward a = some n ↔ back n = some a
  counted : ∀ a n, forward a = some n → 1 ≤ n ∧ n ≤ count

section
variable {κ : Type} {forward : κ → Option Nat} {back : Nat → Option κ} {count count' : Nat}

theorem Numbering.mono (h : Numbering forward back count) (hle : count ≤ count') :
    Numbering forward back count' :=
  ⟨h.iff, fun a n hn => ⟨(h.counted a n hn).1, (h.counted a n hn).2.trans hle⟩⟩

theorem Numbering.insert [DecidableEq κ] (h : Numbering forward back count) {a : κ} (hnone : forward a = none) :
    Numbering (Function.update forward a (some (count + 1))) (Function.update back (count + 1) (some a))
      (count + 1) := by
  constructor
  · intro b n
    by_cases hb : b = a
    · rw [hb, Function.update_self]
      by_cases hn : n = count + 1
      · rw [hn, Function.update_self]
        exact iff_of_true rfl rfl
      · rw [Function.update_of_ne hn, ← h.iff, hnone]
        refine iff_of_false (fun he => hn (Option.some.inj he).symm) nofun
    · rw [Function.update_of_ne hb]
      by_cases hn : n = count + 1
      · rw [hn, Function.update_self]
        refine iff_of_false (fun he => ?_) fun he => hb (Option.some.inj he).symm
        have := (h.counted b _ he).2
        omega
      · rw [Function.update_of_ne hn]
        exact h.iff b n
  · intro b n hb
    rcases update_some_eq_some.mp hb with ⟨-, hb⟩ | ⟨-, hb⟩
    · omega
    · have := h.counted b n hb
      omega

theorem Numbering.injective (h : Numbering forward back count) {a b : κ} (ha : forward a = some n)
    (hb : forward b = some n) : a = b :=
  Option.some.inj (((h.iff a n).mp ha).symm.trans ((h.iff b n).mp hb))

end

structure Numbers (db : StateDb) : Prop where
  keys : Numbering db.statekeyShortstatekey db.shortstatekeyStatekey db.counter
  events : Numbering db.eventidShorteventid db.shorteventidEventid db.counter

/-- rows of the tables stay, and a state key that is new has a number above the old ones -/
structure NumbersGrow (db db' : StateDb) : Prop where
  counter : db.counter ≤ db'.counter
  numbers : Numbers db → Numbers db'
  keys : ∀ key k, db.statekeyShortstatekey key = some k → db'.statekeyShortstatekey key = some k
  events : ∀ e n, db.eventidShorteventid e = some n → db'.eventidShorteventid e = some n
  fresh : ∀ key k, db'.statekeyShortstatekey key = some k → db.statekeyShortstatekey key = some k ∨ db.counter < k

theorem NumbersGrow.of_eq (hc : db.counter ≤ db'.counter)
    (h1 : db'.statekeyShortstatekey = db.statekeyShortstatekey)
    (h2 : db'.shortstatekeyStatekey = db.shortstatekeyStatekey)
    (h3 : db'.eventidShorteventid = db.eventidShorteventid)
    (h4 : db'.shorteventidEventid = db.shorteventidEventid) :
    NumbersGrow db db' := by
  refine ⟨hc, fun h => ⟨?_, ?_⟩, ?_, ?_, ?_⟩
  · rw [h1, h2]
    exact h.keys.mono hc
  · rw [h3, h4]
    exact h.events.mono hc
  · rw [h1]
    exact fun _ _ h => h
  · rw [h3]
    exact fun _ _ h => h
  · rw [h1]
    exact fun _ _ h => .inl h

theorem NumbersGrow.refl (db : StateDb) : NumbersGrow db db := .of_eq (le_refl _) rfl rfl rfl rfl

theorem NumbersGrow.trans (a b c : StateDb) (h : NumbersGrow a b) (h' : NumbersGrow b c) : NumbersGrow a c where
  counter := h.counter.trans h'.counter
  numbers hn := h'.numbers (h.numbers hn)
  keys key k hk := h'.keys key k (h.keys key k hk)
  events e n he := h'.events e n (h.events e n he)
  fresh key k hk := by
    rcases h'.fresh key k hk with hk | hk
    · exact h.fresh key k hk
    · exact .inr (h.counter.trans_lt hk)

theorem update_of_none {κ : Type} [DecidableEq κ] {f : κ → Option Nat} {a b : κ} {m : Nat} (hnone : f a = none)
    (hb : f b = some m) : Function.update f a (some n) b = some m := by
  have hne : b ≠ a := by
    intro he
    rw [he, hnone] at hb
    cases hb
  rw [Function.update_of_ne hne]
  exact hb

theorem getOrCreateShorteventid_numbers (e : EventId) : Comp.Keeps NumbersGrow (getOrCreateShorteventid e) := by
  intro db
  rcases getOrCreateShorteventid_cases e db with ⟨n, _, hrun⟩ | ⟨hnone, _, hrun⟩ | hrun
  · rw [hrun]
    exact .refl db
  · rw [hrun]
    exact ⟨Nat.le_succ _, fun h => ⟨h.keys.mono (Nat.le_succ _), h.events.insert hnone⟩, fun _ _ h => h,
      fun _ _ h => update_of_none hnone h, fun _ _ h => .inl h⟩
  · rw [hrun]
    exact .refl db

theorem getOrCreateShortstatekey_numbers (ty : EventType) (sk : String) :
    Comp.Keeps NumbersGrow (getOrCreateShortstatekey ty sk) := by
  intro db
  rcases getOrCreateShortstatekey_cases ty sk db with ⟨n, _, hrun⟩ | ⟨hnone, _, hrun⟩ | hrun
  · rw [hrun]
    exact .refl db
  · rw [hrun]
    refine ⟨Nat.le_succ _, fun h => ⟨h.keys.insert hnone, h.events.mono (Nat.le_succ _)⟩,
      fun _ _ h => update_of_none hnone h, fun _ _ h => h, fun key k hk => ?_⟩
    rcases update_some_eq_some.mp hk with ⟨-, rfl⟩ | ⟨-, hk⟩
    · exact .inr (Nat.lt_succ_self _)
    · exact .inl hk
  · rw [hrun]
    exact .refl db

theorem nextCount_numbers : Comp.Keeps NumbersGrow nextCount := by
  intro db
  unfold nextCount
  split
  · exact .of_eq (Nat.le_succ _) rfl rfl rfl rfl
  · exact .refl db

theorem getOrCreateShortstatehash_numbers (k : Bytes) : Comp.Keeps NumbersGrow (getOrCreateShortstatehash k) := by
  intro db
  refine (getOrCreateShortstatehash_ends db k).store ?_ ?_
  · intro res db' hres
    rcases hres with ⟨_, _, rfl⟩ | ⟨_, _, hn, _, rfl⟩
    · exact .refl _
    · rw [hn]
      exact .of_eq (Nat.le_succ _) rfl rfl rfl rfl
  · rintro _ db' rfl
    exact .refl _

theorem numbersGrow_closed : Closed NumbersGrow where
  refl := .refl
  trans := .trans
  count := nextCount_numbers
  event := getOrCreateShorteventid_numbers
  statekey := getOrCreateShortstatekey_numbers
  hash := getOrCreateShortstatehash_numbers
  cache _ _ := .of_eq (le_refl _) rfl rfl rfl rfl
  diffs _ _ := .of_eq (le_refl _) rfl rfl rfl rfl
  eventState _ _ := .of_eq (le_refl _) rfl rfl rfl rfl
  rooms _ _ := .of_eq (le_refl _) rfl rfl rfl rfl

/-! ## sets that are made from maps -/

/-- `compress_state_event` of the entries of a map from short state keys to event ids -/
structure Made (db : StateDb) (S : Finset CompressedStateEvent) : Prop where
  one : OnePerKey S
  entries : ∀ c ∈ S, ∃ key k e n, c = .of k n ∧ db.statekeyShortstatekey key = some k ∧
    db.eventidShorteventid e = some n

theorem Made.mono (h : Made db S) (hg : NumbersGrow db db') :
    Made db' S := by
  refine ⟨h.one, fun c hc => ?_⟩
  obtain ⟨key, k, e, n, rfl, hk, hn⟩ := h.entries c hc
  exact ⟨key, k, e, n, rfl, hg.keys key k hk, hg.events e n hn⟩

theorem Made.replaced (h : Made db S) {key : EventType × String} {k : Nat} {e : EventId}
    (hk : db.statekeyShortstatekey key = some k) (hn : db.eventidShorteventid e = some n) :
    Made db (replaced S k n) := by
  refine ⟨h.one.replaced k n, fun c hc => ?_⟩
  unfold StateDb.replaced at hc
  rw [Finset.mem_insert, Finset.mem_filter] at hc
  rcases hc with rfl | ⟨hc, _⟩
  · exact ⟨key, k, e, n, rfl, hk, hn⟩
  · exact h.entries c hc

theorem Made.empty (db : StateDb) : Made db ∅ :=
  ⟨fun _ c hc => absurd hc (Finset.notMem_empty c), fun c hc => absurd hc (Finset.notMem_empty c)⟩

/-- every stored state is made from a map -/
structure Maps (db : StateDb) : Prop where
  layers : Layers db
  numbers : Numbers db
  made : ∀ h S, FullOf db.shortstatehashStatediff h S → Made db S

theorem Maps.word (h : Maps db) (hn : n ≤ db.counter) : n < 2^64 :=
  hn.trans_lt h.layers.core.counter_lt

theorem Maps.keys_pos (h : Maps db) (hS : Made db S) :
    ∀ c ∈ S, c.hasKey 0 = false := by
  intro c hc
  obtain ⟨key, k, e, n, rfl, hk, _⟩ := hS.entries c hc
  have hcounted := h.numbers.keys.counted key k hk
  exact CompressedStateEvent.not_hasKey_zero hcounted.1 (h.word hcounted.2) n

/-- the sets that the callers save are made from maps -/
def FromMaps (s : Run) : Op → Prop
  | .saveState _ _ new => Made s.db new
  | .setEventState _ _ _ new => Made s.db new
  | _ => True

theorem Maps.oneEntry (h : Maps db) (pdu : PduEvent) : OneEntry db pdu :=
  fun _ p S k _ _ hf _ => (h.made p S hf).one k

theorem Maps.adds (h : Maps db) (hg : NumbersGrow db db') {new : Finset CompressedStateEvent}
    (hadds : Adds new db db') (hnew : Made db' new) : Maps db' := by
  refine ⟨hadds.layers, hg.numbers h.numbers, fun k S hS => ?_⟩
  rcases hadds.states k S hS with hS | rfl
  · exact (h.made k S hS).mono hg
  · exact hnew

theorem Maps.of_rows (h : Maps db) (hg : NumbersGrow db db') (hl : Layers db')
    (hrows : db'.shortstatehashStatediff = db.shortstatehashStatediff) : Maps db' :=
  h.adds hg (.of_rows hl hrows) (Made.empty db')

/-- the current state of the room is made from a map, too -/
theorem Maps.current (h : Maps db) {r : RoomId} (hempty : db.roomidShortstatehash r = none → S = ∅)
    (hcurrent : ∀ p, db.roomidShortstatehash r = some p → FullOf db.shortstatehashStatediff p S) : Made db S := by
  cases hp : db.roomidShortstatehash r with
  | none =>
    rw [hempty hp]
    exact Made.empty db
  | some p => exact h.made p S (hcurrent p hp)

theorem Maps.appended (h : Maps db) (hg : NumbersGrow db db') {pdu : PduEvent} {stateKey : String}
    (happ : Appended pdu stateKey db n db') : Maps db' := by
  obtain ⟨S, k, m, hempty, hcurrent, hk, hm, _, hadds⟩ := happ
  exact h.adds hg hadds (((h.current hempty hcurrent).mono hg).replaced hk hm)

variable {digest : Bytes → Bytes}

/-- a call does not look at what was returned before -/
theorem step_db (s : Run) (op : Op) : (step digest s op).db = (step digest ⟨s.db, []⟩ op).db := by
  cases op <;> rfl

theorem Maps.step {s : Run} (h : Maps s.db) (op : Op) (hok : FromMaps s op) : Maps (step digest s op).db := by
  have hallowed : LayersAllowed s.db op := by
    cases op with
    | saveState ord r new => exact h.keys_pos hok
    | setEventState ord e r new => exact h.keys_pos hok
    | appendToState ord pdu => exact h.oneEntry pdu
    | _ => trivial
  have hg := numbersGrow_closed.step digest s op
  have heffect : Effect s.db op (StateDb.step digest s op).db := by
    rw [step_db]
    exact step_effect h.layers op hallowed
  cases op with
  | saveState ord r new => exact h.adds hg heffect (Made.mono hok hg)
  | setEventState ord e r new => exact h.adds hg heffect (Made.mono hok hg)
  | appendToState ord pdu =>
    obtain ⟨hl, hrows | ⟨stateKey, n, _, happ⟩⟩ := heffect
    · exact h.of_rows hg hl hrows
    · exact h.appended hg happ
  | _ => exact h.of_rows hg heffect.1 heffect.2

theorem Maps.run {s : Run} (h : Maps s.db) (ops : List Op) (hok : AllAllowed digest FromMaps s ops) :
    Maps (run digest s ops).db := by
  induction ops generalizing s with
  | nil => exact h
  | cons op ops ih => exact ih (h.step op hok.1) hok.2

theorem Maps.start : Maps start.db where
  layers := .empty
  numbers := ⟨⟨fun _ _ => iff_of_false nofun nofun, nofun⟩, ⟨fun _ _ => iff_of_false nofun nofun, nofun⟩⟩
  made h S hS := by
    obtain ⟨st, hst, _⟩ := hS
    cases st with
    | nil => exact absurd hst.name (by simp)
    | cons l below =>
      obtain ⟨v, hv⟩ := hst.kept.row l List.mem_cons_self
      cases hv

end StateDb

namespace Db
open StateDb (Layers Maps Numbers FullOf FromMaps AllAllowed start run Op)

variable {S : Finset CompressedStateEvent} {db : Db}

/-! ## states in the store -/

/-- what a load answers is in the rows -/
theorem fullState_iff {db : Db} (hl : Layers db.state) {h : Nat} {S : Finset CompressedStateEvent} :
    db.fullState h = .ok S ↔ FullOf db.state.shortstatehashStatediff h S := by
  have hload : (StateDb.loadShortstatehashInfo h db.state).1 =
      (StateDb.loadShortstatehashInfo h (StateDb.unpointed db.state)).1 :=
    @StateDb.loadShortstatehashInfo_congr (StateDb.unpointed db.state) db.state rfl rfl h
  unfold Db.fullState
  rw [hload]
  cases hv : db.state.shortstatehashStatediff h with
  | none =>
    rw [StateDb.loadShortstatehashInfo_missing hl.core hv]
    refine iff_of_false nofun ?_
    rintro ⟨st, hst, _⟩
    cases st with
    | nil => exact absurd hst.name (by simp)
    | cons l below =>
      obtain ⟨w, hw⟩ := hst.kept.row l List.mem_cons_self
      rw [show l.name = h from Option.some.inj hst.name, hv] at hw
      cases hw
  | some v =>
    obtain ⟨st, hst⟩ := hl.core.stacked h v hv
    obtain ⟨db', hrun, _⟩ := hl.core.load hst
    have hfull : FullOf db.state.shortstatehashStatediff h (topFull st) := ⟨st, hst, rfl⟩
    rw [hrun]
    cases st with
    | nil => exact absurd hst.name (by simp)
    | cons l below =>
      constructor
      · intro he
        rw [← Except.ok.inj he]
        exact hfull
      · intro hS
        exact congrArg Except.ok (hfull.unique hS)

/-- an entry that was made from a map is parsed to what it was made from -/
theorem parse_made (hm : Maps db.state) (hS : StateDb.Made db.state S) {c : CompressedStateEvent} (hc : c ∈ S) :
    ∃ key k e n, c = .of k n ∧
      db.state.statekeyShortstatekey key = some k ∧ db.state.eventidShorteventid e = some n ∧
      db.parseCompressedStateEvent c = .ok (k, e) := by
  obtain ⟨key, k, e, n, rfl, hk, hn⟩ := hS.entries c hc
  exact ⟨key, k, e, n, rfl, hk, hn, parse_of (hm.word (hm.numbers.keys.counted key k hk).2)
    (hm.word (hm.numbers.events.counted e n hn).2) ((hm.numbers.events.iff e n).mp hn)⟩

/-- a stored state: at most one entry per key, read into a map, and the search for a key finds what the map has -/
def IsMap (db : Db) (h : Nat) : Prop :=
  ∀ S, db.fullState h = .ok S → OnePerKey S ∧ ∀ env, ∃ ids, db.stateFullIds env h = .ok ids ∧
    ∀ env' ty stateKey, db.stateGetId env' h ty stateKey = .ok (db.entry ids (ty, stateKey))

theorem exists_stateFullIds {db : Db} (hm : Maps db.state) {h : Nat} {S : Finset CompressedStateEvent}
    (hS : db.fullState h = .ok S) (env : Env) : ∃ ids, db.stateFullIds env h = .ok ids := by
  have hmade := hm.made h S ((fullState_iff hm.layers).mp hS)
  have hparse : ∀ c ∈ env.ord.enum S, ∃ p, db.parseCompressedStateEvent c = .ok p := by
    intro c hc
    obtain ⟨_, k, e, _, _, _, _, hce⟩ := parse_made hm hmade ((env.ord.mem _ _).mp hc)
    exact ⟨(k, e), hce⟩
  obtain ⟨ids, hids⟩ := foldlM_parse_ok _ hparse .empty
  exact ⟨ids, except_bind_eq_ok.mpr ⟨S, hS, hids⟩⟩

theorem isMap {db : Db} (hm : Maps db.state) (h : Nat) : db.IsMap h := by
  intro S hS
  have hone := (hm.made h S ((fullState_iff hm.layers).mp hS)).one
  refine ⟨hone, fun env => ?_⟩
  obtain ⟨ids, hids⟩ := exists_stateFullIds hm hS env
  refine ⟨ids, hids, fun env' ty stateKey => ?_⟩
  exact stateGetId_eq hone hS hids (fun k hk => hm.word (hm.numbers.keys.counted _ k hk).2) env'

/-! ## one event is appended -/

/-- the map of the room's current state, which is empty if the room has none -/
def CurrentIds (env : Env) (db : Db) (r : RoomId) (ids : Tree Nat EventId) : Prop :=
  match db.state.roomidShortstatehash r with
  | some p => db.stateFullIds env p = .ok ids
  | none => ids = .empty

/-- the current state is read into a map of the entries that are replaced or kept -/
theorem exists_currentIds (hm : Maps db.state) (env : Env) {r : RoomId}
    (hempty : db.state.roomidShortstatehash r = none → S = ∅)
    (hcurrent : ∀ p, db.state.roomidShortstatehash r = some p → FullOf db.state.shortstatehashStatediff p S) :
    ∃ ids, CurrentIds env db r ids ∧
      ∀ j e, ids.get j = some e ↔ ∃ c ∈ S, db.parseCompressedStateEvent c = .ok (j, e) := by
  unfold CurrentIds
  cases hp : db.state.roomidShortstatehash r with
  | none =>
    refine ⟨.empty, rfl, fun j e => iff_of_false nofun ?_⟩
    rintro ⟨c, hc, _⟩
    rw [hempty hp] at hc
    exact Finset.notMem_empty c hc
  | some p =>
    have hS := (fullState_iff hm.layers).mpr (hcurrent p hp)
    obtain ⟨ids, hids⟩ := exists_stateFullIds hm hS env
    exact ⟨ids, hids, get_stateFullIds (hm.made p S (hcurrent p hp)).one hS hids⟩

section
variable {db : Db} {s' : StateDb} {S : Finset CompressedStateEvent} {key : EventType × String} {k n : Nat}
  {e : EventId} {before after : Tree Nat EventId}

/-- the entry of the key is the event, the others stay -/
theorem get_replaced (hm : Maps db.state) (hm' : Maps s') (hg : StateDb.NumbersGrow db.state s')
    (hS : StateDb.Made db.state S) (hk : s'.statekeyShortstatekey key = some k)
    (hn : s'.eventidShorteventid e = some n)
    (hbefore : ∀ j x, before.get j = some x ↔ ∃ c ∈ S, db.parseCompressedStateEvent c = .ok (j, x))
    (hafter : ∀ j x, after.get j = some x ↔ ∃ c ∈ StateDb.replaced S k n,
      ({ db with state := s' } : Db).parseCompressedStateEvent c = .ok (j, x)) (j : Nat) :
    after.get j = if j = k then some e else before.get j := by
  have hkword := hm'.word (hm'.numbers.keys.counted key k hk).2
  have hnew : ({ db with state := s' } : Db).parseCompressedStateEvent (.of k n) = .ok (k, e) :=
    parse_of hkword (hm'.word (hm'.numbers.events.counted e n hn).2) ((hm'.numbers.events.iff e n).mp hn)
  -- the old entries are parsed as before
  have hold : ∀ c ∈ S, ({ db with state := s' } : Db).parseCompressedStateEvent c = db.parseCompressedStateEvent c := by
    intro c hc
    obtain ⟨_, k₀, e₀, n₀, rfl, hk₀, hn₀, hparse⟩ := parse_made hm hS hc
    rw [hparse]
    exact parse_of (hm.word (hm.numbers.keys.counted _ k₀ hk₀).2) (hm.word (hm.numbers.events.counted e₀ n₀ hn₀).2)
      ((hm'.numbers.events.iff e₀ n₀).mp (hg.events e₀ n₀ hn₀))
  by_cases hj : j = k
  · rw [if_pos hj, hafter, hj]
    exact ⟨_, Finset.mem_insert_self _ _, hnew⟩
  · rw [if_neg hj]
    refine Option.ext fun x => ?_
    rw [hafter, hbefore]
    constructor
    · rintro ⟨c, hc, hparse⟩
      rcases Finset.mem_insert.mp hc with rfl | hc
      · rw [hnew] at hparse
        cases hparse
        exact absurd rfl hj
      · have hcS := (Finset.mem_filter.mp hc).1
        rw [hold c hcS] at hparse
        exact ⟨c, hcS, hparse⟩
    · rintro ⟨c, hc, hparse⟩
      have hck : c.hasKey k = false := by
        rw [Bool.eq_false_iff]
        intro hck
        exact hj (parse_fst hkword hck hparse)
      refine ⟨c, Finset.mem_insert_of_mem (Finset.mem_filter.mpr ⟨hc, hck⟩), ?_⟩
      rw [hold c hc]
      exact hparse

/-- the same by types and state keys -/
theorem entry_replaced (hm : Maps db.state) (hm' : Maps s') (hg : StateDb.NumbersGrow db.state s')
    (hS : StateDb.Made db.state S) (hk : s'.statekeyShortstatekey key = some k)
    (hbefore : ∀ j x, before.get j = some x ↔ ∃ c ∈ S, db.parseCompressedStateEvent c = .ok (j, x))
    (hget : ∀ j, after.get j = if j = k then some e else before.get j) (key' : EventType × String) :
    ({ db with state := s' } : Db).entry after key' = if key' = key then some e else db.entry before key' := by
  have hafter : ∀ m, s'.statekeyShortstatekey key' = some m → m ≠ k ∨ key' = key := by
    intro m hm₁
    by_cases he : m = k
    · rw [he] at hm₁
      exact .inr (hm'.numbers.keys.injective hm₁ hk)
    · exact .inl he
  by_cases hkey : key' = key
  · rw [if_pos hkey, hkey]
    show (s'.statekeyShortstatekey key).bind after.get = some e
    rw [hk, Option.bind_some, hget, if_pos rfl]
  · rw [if_neg hkey]
    show (s'.statekeyShortstatekey key').bind after.get = (db.state.statekeyShortstatekey key').bind before.get
    cases hs' : s'.statekeyShortstatekey key' with
    | none =>
      cases hs : db.state.statekeyShortstatekey key' with
      | none => rfl
      | some m =>
        rw [hg.keys key' m hs] at hs'
        cases hs'
    | some m =>
      have hne : m ≠ k := (hafter m hs').resolve_right hkey
      rw [Option.bind_some, hget, if_neg hne]
      rcases hg.fresh key' m hs' with hs | hlt
      · rw [hs, Option.bind_some]
      · -- a new number is above all keys of the old state
        have hnone : before.get m = none := by
          cases hb : before.get m with
          | none => rfl
          | some x =>
            obtain ⟨c, hc, hparse⟩ := (hbefore m x).mp hb
            obtain ⟨key₀, k₀, e₀, n₀, rfl, hk₀, _, hparse₀⟩ := parse_made hm hS hc
            rw [hparse₀] at hparse
            cases hparse
            have := (hm.numbers.keys.counted key₀ _ hk₀).2
            omega
        cases hs : db.state.statekeyShortstatekey key' with
        | none => exact hnone
        | some m' =>
          have hsame := hg.keys key' m' hs
          rw [hs'] at hsame
          cases hsame
          have := (hm.numbers.keys.counted key' m hs).2
          omega

end

/-- what `append_to_state` returned -/
theorem appended_of_run {s s' : StateDb} (hm : Maps s) {ord : Order} {pdu : PduEvent}
    {stateKey : String} (hsk : pdu.stateKey = some stateKey) {h : Nat}
    (hrun : StateDb.appendToState ord pdu s = (.ok h, s')) :
    StateDb.Appended pdu stateKey s h s' ∧ StateDb.NumbersGrow s s' := by
  obtain ⟨⟨h₁, new⟩, s₁, hwith, hlast⟩ := Comp.bind_eq_ok.mp hrun
  cases hlast
  have hends := StateDb.appendToStateWith_layers hm.layers ord pdu (hm.oneEntry pdu)
  unfold Comp.Ends at hends
  rw [hwith] at hends
  have hg := StateDb.numbersGrow_closed.appendToStateWith ord pdu s
  rw [hwith] at hg
  exact ⟨hends.2.2 stateKey hsk, hg⟩

/-- **`append_to_state` is a map update**: every state that is stored before and after it is a map, and the new one
is the current state with the event under its type and state key -/
theorem appendToState_update (digest : Bytes → Bytes) (ops : List Op) (hok : AllAllowed digest FromMaps start ops)
    (db : Db) (hdb : db.state = (run digest start ops).db) (ord : Order) (pdu : PduEvent) (stateKey : String)
    (hsk : pdu.stateKey = some stateKey) (h : Nat) (s' : StateDb)
    (hrun : StateDb.appendToState ord pdu db.state = (.ok h, s')) (env : Env) :
    (∀ p, db.IsMap p) ∧ (∀ p, ({ db with state := s' } : Db).IsMap p) ∧
    (∃ S, ({ db with state := s' } : Db).fullState h = .ok S) ∧
    ∃ before after, CurrentIds env db pdu.roomId before ∧
      ({ db with state := s' } : Db).stateFullIds env h = .ok after ∧
      (∃ k, s'.statekeyShortstatekey (pdu.kind, stateKey) = some k ∧
        ∀ j, after.get j = if j = k then some pdu.eventId else before.get j) ∧
      ∀ key, ({ db with state := s' } : Db).entry after key =
        if key = (pdu.kind, stateKey) then some pdu.eventId else db.entry before key := by
  have hm : Maps db.state := by
    rw [hdb]
    exact Maps.start.run ops hok
  obtain ⟨happ, hg⟩ := appended_of_run hm hsk hrun
  have hm' : Maps s' := hm.appended hg happ
  obtain ⟨S, k, n, hempty, hcurrent, hk, hn, hfull, _⟩ := happ
  have hS := hm.current hempty hcurrent
  have hfull' : ({ db with state := s' } : Db).fullState h = .ok (StateDb.replaced S k n) :=
    (@fullState_iff { db with state := s' } hm'.layers _ _).mpr hfull
  obtain ⟨before, hbefore, hgetBefore⟩ := exists_currentIds hm env hempty hcurrent
  obtain ⟨after, hafter⟩ := @exists_stateFullIds { db with state := s' } hm' _ _ hfull' env
  have hgetAfter := get_stateFullIds (hm'.made h _ hfull).one hfull' hafter
  have hget := get_replaced hm hm' hg hS hk hn hgetBefore hgetAfter
  exact ⟨isMap hm, @isMap { db with state := s' } hm', ⟨_, hfull'⟩, before, after, hbefore, hafter,
    ⟨k, hk, hget⟩, entry_replaced hm hm' hg hS hk hgetBefore hget⟩

/-! ## a second room name -/

/-- the room has a name -/
def named : List Op := [.appendToState StateDb.ascendingOrder StateDb.exampleName, .setRoomState StateDb.exampleRoom 3]

def secondName : PduEvent := { StateDb.exampleName with eventId := ⟨.ascii "$f"⟩ }

theorem appended_second : (StateDb.appendToState StateDb.ascendingOrder secondName
    (run id start named).db).1.toOption = some 5 := by decide +kernel

/-- it takes the place of the first one -/
theorem appendToState_update_second : ∃ s' : StateDb, ∃ before after, CurrentIds .plain
      { Db.empty with state := (run id start named).db } StateDb.exampleRoom before ∧
    ({ Db.empty with state := s' } : Db).stateFullIds .plain 5 = .ok after ∧
    ∀ key, ({ Db.empty with state := s' } : Db).entry after key = if key = (.roomName, "") then some ⟨.ascii "$f"⟩
      else ({ Db.empty with state := (run id start named).db } : Db).entry before key := by
  obtain ⟨s', hrun⟩ := Comp.exists_run (toOption_eq_some.mp appended_second)
  obtain ⟨-, -, -, before, after, hbefore, hafter, -, hentry⟩ := appendToState_update id named
    ⟨trivial, trivial, trivial⟩ { Db.empty with state := (run id start named).db } rfl StateDb.ascendingOrder secondName
    "" rfl 5 s' hrun .plain
  exact ⟨s', before, after, hbefore, hafter, hentry⟩

end Db

end Grapevine
