import Grapevine.Events.Forks
import Grapevine.Events.Seated

/-!
# States that are made on the way

A state that a call works out is a map from short state keys to events, or the map of a resolution.
Before it is saved it is compressed: keys and events get their short ids.

* `Registered`     the short state keys of a map are known ones;
* `Compressed`     the entries are made of the rows of a map, each with its short ids;
* `resolution`     what the resolution makes of the room's current state and the state behind an event;
* `deriveState_eq`   a resolution is compressed, saved and forced.
-/

namespace Grapevine
open Kv

namespace StateDb

variable {e : EventId} {s' : StateDb} {k : Nat}

/-! ## entries that are made of rows -/

/-- rows, as the events that they have under types and state keys -/
abbrev Rows := EventType × String → EventId → Prop

/-- the entries are those of the rows -/
structure Compressed (s : StateDb) (rows : Rows) (S : Finset CompressedStateEvent) : Prop where
  mem : ∀ c, c ∈ S ↔ ∃ key e k n, rows key e ∧ s.statekeyShortstatekey key = some k ∧
    s.eventidShorteventid e = some n ∧ c = .of k n
  numbered : ∀ key e, rows key e → ∃ k n, s.statekeyShortstatekey key = some k ∧ s.eventidShorteventid e = some n

section
variable {s : StateDb} {rows : Rows} {S : Finset CompressedStateEvent}

theorem Compressed.entry_iff (h : Compressed s rows S) (hm : Maps s) (key : EventType × String) (e : EventId) :
    Entry s S key e ↔ rows key e := by
  constructor
  · rintro ⟨k, n, hk, hn, hc⟩
    obtain ⟨key', e', k', n', hrow, hk', hn', heq⟩ := (h.mem _).mp hc
    obtain ⟨rfl, rfl⟩ := of_inj (hm.word (hm.numbers.keys.counted key k hk).2)
      (hm.word (hm.numbers.events.counted e n hn).2) (hm.word (hm.numbers.keys.counted key' k' hk').2)
      (hm.word (hm.numbers.events.counted e' n' hn').2) heq
    rw [hm.numbers.keys.injective hk hk', hm.numbers.events.injective hn hn']
    exact hrow
  · intro hrow
    obtain ⟨k, n, hk, hn⟩ := h.numbered key e hrow
    exact ⟨k, n, hk, hn, (h.mem _).mpr ⟨key, e, k, n, hrow, hk, hn, rfl⟩⟩

/-- a map has one row for each key -/
theorem Compressed.made (h : Compressed s rows S) (hm : Maps s)
    (hone : ∀ key e e', rows key e → rows key e' → e = e') : Made s S := by
  refine ⟨fun j c hc c' hc' hj hj' => ?_, fun c hc => ?_⟩
  · obtain ⟨key, e, k, n, hrow, hk, hn, rfl⟩ := (h.mem c).mp hc
    obtain ⟨key', e', k', n', hrow', hk', hn', rfl⟩ := (h.mem c').mp hc'
    have hkk : be64 k = be64 k' := by
      have hself := CompressedStateEvent.hasKey_congr hj (CompressedStateEvent.of_hasKey k n) hj'
      unfold CompressedStateEvent.hasKey at hself
      rw [List.isPrefixOf_iff_prefix] at hself
      exact (List.prefix_of_prefix_length_le hself (List.prefix_append (be64 k') (be64 n')) (by simp)).eq_of_length
        (by simp)
    obtain rfl := be_inj (two64 ▸ hm.word (hm.numbers.keys.counted key k hk).2)
      (two64 ▸ hm.word (hm.numbers.keys.counted key' k' hk').2) hkk
    obtain rfl := hm.numbers.keys.injective hk hk'
    obtain rfl := hone key e e' hrow hrow'
    rw [Option.some.inj (hn.symm.trans hn')]
  · obtain ⟨key, e, k, n, -, hk, hn, rfl⟩ := (h.mem c).mp hc
    exact ⟨key, k, e, n, rfl, hk, hn⟩

theorem compressed_empty (s : StateDb) : Compressed s (fun _ _ => False) ∅ :=
  ⟨fun c => ⟨fun hc => absurd hc (Finset.notMem_empty c), fun ⟨_, _, _, _, h, _⟩ => h.elim⟩, fun _ _ h => h.elim⟩

/-- one more row -/
theorem Compressed.insert (h : Compressed s' rows S) (hg : NumbersGrow s s') {key : EventType × String}
    {n : Nat} (hk : s.statekeyShortstatekey key = some k) (hn : s.eventidShorteventid e = some n) :
    Compressed s' (fun key' e' => (key' = key ∧ e' = e) ∨ rows key' e') (insert (.of k n) S) := by
  replace hk := hg.keys key k hk
  replace hn := hg.events e n hn
  refine ⟨fun c => ?_, ?_⟩
  · rw [Finset.mem_insert]
    constructor
    · rintro (rfl | hc)
      · exact ⟨key, e, k, n, Or.inl ⟨rfl, rfl⟩, hk, hn, rfl⟩
      · obtain ⟨key', e', k', n', hrow, h'⟩ := (h.mem c).mp hc
        exact ⟨key', e', k', n', Or.inr hrow, h'⟩
    · rintro ⟨key', e', k', n', ⟨rfl, rfl⟩ | hrow, hk', hn', rfl⟩
      · rw [Option.some.inj (hk.symm.trans hk'), Option.some.inj (hn.symm.trans hn')]
        exact Or.inl rfl
      · exact Or.inr ((h.mem _).mpr ⟨key', e', k', n', hrow, hk', hn', rfl⟩)
  · rintro key' e' (⟨rfl, rfl⟩ | hrow)
    · exact ⟨k, n, hk, hn⟩
    · exact h.numbered key' e' hrow

theorem Compressed.congr {rows' : Rows} (h : Compressed s rows S) (heq : ∀ key e, rows' key e ↔ rows key e) :
    Compressed s rows' S := by
  have hrows : rows' = rows := funext fun key => funext fun e => propext (heq key e)
  rw [hrows]
  exact h

end

/-! ## short ids that are drawn -/

theorem shorteventid_run {s : StateDb} {n : Nat} (h : getOrCreateShorteventid e s = (.ok n, s')) :
    s'.eventidShorteventid e = some n := by
  rcases getOrCreateShorteventid_cases e s with ⟨m, hs, hrun⟩ | ⟨_, _, hrun⟩ | hrun
  · rw [hrun] at h
    cases h
    exact hs
  · rw [hrun] at h
    cases h
    exact Function.update_self _ _ _
  · rw [hrun] at h
    cases h

theorem shortstatekey_run {s : StateDb} {ty : EventType} {stateKey : String}
    (h : getOrCreateShortstatekey ty stateKey s = (.ok k, s')) :
    s'.statekeyShortstatekey (ty, stateKey) = some k := by
  unfold getOrCreateShortstatekey at h
  rw [Comp.bind_ok (Comp.get_run s)] at h
  cases hs : s.statekeyShortstatekey (ty, stateKey) with
  | some j =>
    rw [hs] at h
    cases h
    exact hs
  | none =>
    rw [hs] at h
    obtain ⟨_, s₁, -, h⟩ := Comp.bind_eq_ok.mp h
    obtain ⟨_, s₂, hput, h⟩ := Comp.bind_eq_ok.mp h
    cases hput
    cases h
    exact Function.update_self _ _ _

theorem compressStateEvent_run {s : StateDb} {c : CompressedStateEvent}
    (h : compressStateEvent k e s = (.ok c, s')) :
    ∃ n, c = .of k n ∧ s'.eventidShorteventid e = some n := by
  obtain ⟨n, s₁, hn, h⟩ := Comp.bind_eq_ok.mp h
  cases h
  exact ⟨n, rfl, shorteventid_run hn⟩

end StateDb

namespace Db
open StateDb (Made Entry NumbersGrow Intact Maps FullOf Compressed Rows)

variable {env : Env} {fed : Fed} {db db' : Db}
variable {rows : List ((EventType × String) × EventId)} {key : EventType × String}
  {t : Tree Nat EventId} {version : RoomVersionId} {S : Finset CompressedStateEvent}
  {pdu : PduEvent} {fuel : Nat} {r : RoomId} {e : EventId} {es : List EventId} {s : StateDb}

/-- short ids are only added -/
def Numbered (db db' : Db) : Prop := NumbersGrow db.state db'.state

theorem numbered_fetching : Fetching Numbered where
  refl _ := .refl _
  trans _ _ _ h h' := .trans _ _ _ h h'
  short db e := StateDb.getOrCreateShorteventid_numbers e db.state
  chains _ _ _ := .refl _
  shortkey db ty sk := StateDb.getOrCreateShortstatekey_numbers ty sk db.state
  ratelimiter _ _ := .refl _
  ticks _ _ := .refl _

theorem numbered_run {α : Type} {x : RoomComp α} (hx : Comp.Keeps Numbered x) {o : Except Error α}
    (h : x db = (o, db')) : NumbersGrow db.state db'.state := by
  have hg := hx db
  rw [h] at hg
  exact hg

/-! ## maps from short state keys -/

/-- the keys of the map have types and state keys -/
def Registered (s : StateDb) (t : Tree Nat EventId) : Prop :=
  ∀ k e, t.get k = some e → ∃ key, s.statekeyShortstatekey key = some k

/-- what the map has under types and state keys -/
def Under (s : StateDb) (t : Tree Nat EventId) : Rows := fun key e =>
  ∃ k, s.statekeyShortstatekey key = some k ∧ t.get k = some e

theorem Registered.mono {s' : StateDb} (h : Registered s t) (hg : NumbersGrow s s') :
    Registered s' t := by
  intro k e hk
  obtain ⟨key, hkey⟩ := h k e hk
  exact ⟨key, hg.keys key k hkey⟩

theorem registered_empty (s : StateDb) : Registered s .empty := nofun

theorem Registered.insert (h : Registered s t) {k : Nat} (hk : s.statekeyShortstatekey key = some k)
    (e : EventId) : Registered s (t.insert k e) := by
  intro j x hj
  rw [Tree.get_insert] at hj
  split at hj
  · next heq => exact ⟨key, by rw [heq]; exact hk⟩
  · exact h j x hj

/-- a key that is new is none of the map -/
theorem under_grow {s' : StateDb} (hm' : Maps s') (hg : NumbersGrow s s') (ht : Registered s t)
    (key : EventType × String) (e : EventId) : Under s' t key e ↔ Under s t key e := by
  constructor
  · rintro ⟨k, hk, he⟩
    obtain ⟨key', hkey'⟩ := ht k e he
    rw [hm'.numbers.keys.injective hk (hg.keys key' k hkey')]
    exact ⟨k, hkey', he⟩
  · rintro ⟨k, hk, he⟩
    exact ⟨k, hg.keys key k hk, he⟩

theorem under_unique {e' : EventId} (h : Under s t key e) (h' : Under s t key e') : e = e' := by
  obtain ⟨k, hk, he⟩ := h
  obtain ⟨k', hk', he'⟩ := h'
  rw [hk] at hk'
  cases hk'
  exact Option.some.inj (he.symm.trans he')

/-! ### the maps of the calls -/

theorem stateFullIds_registered (hi : Maps db.state) {n : Nat} (h : db.stateFullIds env n = .ok t) :
    Registered db.state t := by
  obtain ⟨S, hS⟩ := exists_fullState h
  have hmade := hi.made n S ((fullState_iff hi.layers).mp hS)
  intro k e hk
  obtain ⟨c, hc, hparse⟩ := (get_stateFullIds hmade.one hS h k e).mp hk
  obtain ⟨key, k', e', n', -, hkey, -, hparse'⟩ := parse_made hi hmade hc
  rw [hparse] at hparse'
  cases hparse'
  exact ⟨key, hkey⟩

theorem insertEvent_ok {t' : Tree Nat EventId} (h : insertEvent pdu e t db = (.ok t', db')) :
    (pdu.stateKey = none ∧ t' = t) ∨ ∃ stateKey k, pdu.stateKey = some stateKey ∧
      db'.state.statekeyShortstatekey (pdu.kind, stateKey) = some k ∧ t' = t.insert k e := by
  unfold insertEvent at h
  cases hsk : pdu.stateKey with
  | none =>
    rw [hsk] at h
    cases h
    exact Or.inl ⟨rfl, rfl⟩
  | some stateKey =>
    rw [hsk] at h
    obtain ⟨k, db₁, hk, h⟩ := Comp.bind_eq_ok.mp h
    cases h
    exact Or.inr ⟨stateKey, k, rfl, StateDb.shortstatekey_run (onState_ok hk), rfl⟩

theorem insertEvent_registered {t' : Tree Nat EventId} (ht : Registered db.state t)
    (h : insertEvent pdu e t db = (.ok t', db')) : Registered db'.state t' := by
  have hg := numbered_run (insertEvent_quiet numbered_fetching pdu e t) h
  obtain ⟨-, rfl⟩ | ⟨stateKey, k, -, hk, rfl⟩ := insertEvent_ok h
  · exact ht.mono hg
  · exact (ht.mono hg).insert hk e

theorem shortStateKeys_registered (h : shortStateKeys rows db = (.ok t, db')) : Registered db'.state t := by
  induction rows generalizing db t with
  | nil =>
    cases h
    exact registered_empty _
  | cons row rows ih =>
    obtain ⟨k, db₁, hk, h⟩ := Comp.bind_eq_ok.mp h
    obtain ⟨rest, db₂, hrest, h⟩ := Comp.bind_eq_ok.mp h
    cases h
    have hg := numbered_run (shortStateKeys_quiet numbered_fetching rows) hrest
    exact (ih hrest).insert (hg.keys _ k (StateDb.shortstatekey_run (onState_ok hk))) row.2

theorem collectState_registered {pdus : List PduEvent} {t' : Tree Nat EventId} (ht : Registered db.state t)
    (h : collectState pdus t db = (.ok t', db')) : Registered db'.state t' := by
  induction pdus generalizing db t with
  | nil =>
    cases h
    exact ht
  | cons pdu pdus ih =>
    unfold collectState at h
    cases hsk : pdu.stateKey with
    | none =>
      rw [hsk] at h
      cases h
    | some stateKey =>
      rw [hsk] at h
      obtain ⟨k, db₁, hk, h⟩ := Comp.bind_eq_ok.mp h
      have hg : NumbersGrow db.state db₁.state :=
        numbered_run (numbered_fetching.getOrCreateShortstatekey pdu.kind stateKey) hk
      split at h
      · cases h
      · exact ih ((ht.mono hg).insert (StateDb.shortstatekey_run (onState_ok hk)) pdu.eventId) h

theorem stateAfterPrev_registered (hi : Maps db.state) (h : stateAfterPrev env e db = (.ok (some t), db')) :
    Registered db'.state t := by
  unfold stateAfterPrev at h
  rw [Comp.bind_ok (Comp.get_run db)] at h
  cases hp : db.pduShortstatehash e with
  | none =>
    rw [hp] at h
    cases h
  | some n =>
    rw [hp] at h
    obtain ⟨o, db₁, hread, h⟩ := Comp.bind_eq_ok.mp h
    have hread' : o = (db.stateFullIds env n).toOption ∧ db₁ = db := by
      unfold attempt at hread
      rw [Comp.reads_run] at hread
      cases hfull : db.stateFullIds env n with
      | ok ids =>
        rw [hfull] at hread
        cases hread
        exact ⟨rfl, rfl⟩
      | error err =>
        rw [hfull] at hread
        dsimp only at hread
        split at hread
        · cases hread
        · cases hread
          exact ⟨rfl, rfl⟩
    obtain ⟨rfl, rfl⟩ := hread'
    cases hfull : db₁.stateFullIds env n with
    | error err =>
      rw [hfull] at h
      cases h
    | ok ids =>
      rw [hfull] at h
      change (Comp.get >>= _) db₁ = _ at h
      rw [Comp.bind_ok (Comp.get_run db₁)] at h
      cases hprev : db₁.findPdu e with
      | none =>
        rw [hprev] at h
        cases h
      | some prev =>
        rw [hprev] at h
        obtain ⟨t', db₂, hins, h⟩ := Comp.bind_eq_ok.mp h
        cases h
        exact insertEvent_registered (stateFullIds_registered hi hfull) hins

theorem stateOfPrevs_registered (h : stateOfPrevs env fed fuel r version es db = (.ok (some t), db')) :
    Registered db'.state t := by
  unfold stateOfPrevs at h
  rw [Comp.bind_ok (Comp.get_run db)] at h
  cases hext : db.extremitySstatehashes es .empty with
  | none =>
    rw [hext] at h
    cases h
  | some extremities =>
    rw [hext] at h
    obtain ⟨forks, db₁, -, h⟩ := Comp.bind_eq_ok.mp h
    rw [Comp.bind_ok (Comp.get_run db₁)] at h
    cases hres : fed.resolve version (forks.map Prod.fst) (forks.map Prod.snd) db₁.findPdu with
    | none =>
      rw [hres] at h
      cases h
    | some map =>
      rw [hres] at h
      obtain ⟨t', db₂, hkeys, h⟩ := Comp.bind_eq_ok.mp h
      cases h
      exact shortStateKeys_registered hkeys

theorem knownState_registered (hi : Maps db.state)
    (h : knownState env fed fuel r version es db = (.ok (some t), db')) :
    Registered db'.state t := by
  unfold knownState at h
  split at h
  · exact stateAfterPrev_registered hi h
  · exact stateOfPrevs_registered h

/-- the state at an event is a map from known keys -/
theorem stateAtIncomingEvent_registered (hi : Maps db.state) {origin : ServerName} {createEvent : PduEvent}
    (h : stateAtIncomingEvent env fed fuel origin createEvent r version pdu db = (.ok t, db')) :
    Registered db'.state t := by
  obtain ⟨o, db₁, hknown, h⟩ := Comp.bind_eq_ok.mp h
  cases o with
  | some state =>
    cases h
    exact knownState_registered hi hknown
  | none =>
    obtain ⟨n, db₂, -, h⟩ := Comp.bind_eq_ok.mp h
    obtain ⟨ids, db₃, -, h⟩ := Comp.bind_eq_ok.mp h
    obtain ⟨pdus, db₄, -, h⟩ := Comp.bind_eq_ok.mp h
    obtain ⟨state, db₅, hstate, h⟩ := Comp.bind_eq_ok.mp h
    obtain ⟨_, db₆, hcheck, h⟩ := Comp.bind_eq_ok.mp h
    cases h
    obtain ⟨-, rfl⟩ := Prod.mk.inj hcheck
    exact collectState_registered (registered_empty _) hstate

/-! ## compressing -/

theorem compressState_compressed (hn : StateDb.Numbers db.state) {entries : List (Nat × EventId)}
    (hentries : ∀ row ∈ entries, ∃ key, db.state.statekeyShortstatekey key = some row.1)
    (h : compressState entries db = (.ok S, db')) :
    Compressed db'.state
      (fun key e => ∃ k, db'.state.statekeyShortstatekey key = some k ∧ (k, e) ∈ entries) S := by
  induction entries generalizing db S with
  | nil =>
    cases h
    refine (StateDb.compressed_empty _).congr fun key e => ⟨?_, False.elim⟩
    rintro ⟨k, -, hmem⟩
    exact absurd hmem List.not_mem_nil
  | cons row entries ih =>
    obtain ⟨c, db₁, hc, h⟩ := Comp.bind_eq_ok.mp h
    obtain ⟨rest, db₂, hrest, h⟩ := Comp.bind_eq_ok.mp h
    cases h
    obtain ⟨key₀, hkey₀⟩ := hentries row List.mem_cons_self
    obtain ⟨n, rfl, hevent⟩ := StateDb.compressStateEvent_run (onState_ok hc)
    have hg₁ := numbered_run (compressStateEvent_quiet numbered_fetching row.1 row.2) hc
    have hg₂ := numbered_run (compressState_fetching numbered_fetching entries) hrest
    have hrows := ih (hg₁.numbers hn) (fun x hx => ?_) hrest
    · refine (hrows.insert hg₂ (hg₁.keys key₀ row.1 hkey₀) hevent).congr fun key e => ?_
      constructor
      · rintro ⟨k, hk, hmem⟩
        rcases List.mem_cons.mp hmem with rfl | hmem
        · refine Or.inl ⟨?_, rfl⟩
          exact (hg₂.numbers (hg₁.numbers hn)).keys.injective hk (hg₂.keys _ _ (hg₁.keys key₀ _ hkey₀))
        · exact Or.inr ⟨k, hk, hmem⟩
      · rintro (⟨rfl, rfl⟩ | ⟨k, hk, hmem⟩)
        · exact ⟨row.1, hg₂.keys _ _ (hg₁.keys key row.1 hkey₀), List.mem_cons_self⟩
        · exact ⟨k, hk, List.mem_cons_of_mem _ hmem⟩
    · obtain ⟨key, hkey⟩ := hentries x (List.mem_cons_of_mem _ hx)
      exact ⟨key, hg₁.keys key x.1 hkey⟩

/-- a map from known keys is compressed to entries that have its events -/
theorem compressState_under (hn : StateDb.Numbers db.state) (ht : Registered db.state t)
    (h : compressState (fed.entries t) db = (.ok S, db')) :
    Compressed db'.state (Under db'.state t) S := by
  refine (compressState_compressed hn (fun row hrow => ?_) h).congr fun key e => ?_
  · exact ht row.1 row.2 ((fed.mem_entries t row.1 row.2).mp hrow)
  · exact exists_congr fun k => and_congr_right fun _ => (fed.mem_entries t k e).symm

theorem compressResolved_compressed (h : compressResolved rows db = (.ok S, db')) :
    Compressed db'.state (fun key e => (key, e) ∈ rows) S := by
  induction rows generalizing db S with
  | nil =>
    cases h
    exact (StateDb.compressed_empty _).congr fun key e => ⟨fun hmem => absurd hmem List.not_mem_nil, False.elim⟩
  | cons row rows ih =>
    obtain ⟨k, db₁, hk, h⟩ := Comp.bind_eq_ok.mp h
    obtain ⟨c, db₂, hc, h⟩ := Comp.bind_eq_ok.mp h
    obtain ⟨rest, db₃, hrest, h⟩ := Comp.bind_eq_ok.mp h
    cases h
    obtain ⟨n, rfl, hevent⟩ := StateDb.compressStateEvent_run (onState_ok hc)
    have hg₂ := numbered_run (compressStateEvent_quiet numbered_fetching k row.2) hc
    have hg₃ := numbered_run (compressResolved_quiet numbered_fetching rows) hrest
    refine ((ih hrest).insert hg₃ (hg₂.keys row.1 k (StateDb.shortstatekey_run (onState_ok hk))) hevent).congr
      fun key e => ?_
    rw [List.mem_cons]
    exact or_congr_left ⟨fun heq => ⟨congrArg Prod.fst heq, congrArg Prod.snd heq⟩, fun heq => Prod.ext heq.1 heq.2⟩

/-! ## the resolution -/

/-- the events that a map has under types and state keys -/
def has (map : StateMap) : Rows := fun key e => (key, e) ∈ map.rows

theorem has_unique {map : StateMap} (key : EventType × String) (e e' : EventId) (h : has map key e)
    (h' : has map key e') : e = e' :=
  congrArg Prod.snd (List.inj_on_of_nodup_map map.nodup h h' rfl)

/-- what `resolve_state` makes of the current state and the state behind the event, before it is compressed -/
def resolution (env : Env) (fed : Fed) (fuel : Nat) (r : RoomId) (version : RoomVersionId) (pdu : PduEvent)
    (state : Tree Nat EventId) : RoomComp StateMap := do
  let stateAfter ← insertEvent pdu pdu.eventId state
  let pointer ← Comp.gets (fun db => db.state.roomidShortstatehash r)
  let shortstatehash ← Comp.expect pointer (.panic "every room has state")
  let current ← Comp.reads (fun db => db.stateFullIds env shortstatehash)
  let currentChain ← getAuthChain fuel r ((fed.entries current).map Prod.snd)
  let incomingChain ← getAuthChain fuel r ((fed.entries stateAfter).map Prod.snd)
  let db ← Comp.get
  match fed.resolve version
      [db.stateMapOf (fed.entries current), db.stateMapOf (fed.entries stateAfter)]
      [currentChain.toFinset, incomingChain.toFinset] db.findPdu with
  | some map => pure map
  | none => Comp.throw (.badDatabase
      "State resolution failed, either an event could not be found or deserialization")

theorem resolution_quiet {R : Db → Db → Prop} (h : Fetching R) (fuel : Nat) (r : RoomId) (version : RoomVersionId)
    (pdu : PduEvent) (state : Tree Nat EventId) :
    Comp.Keeps R (resolution env fed fuel r version pdu state) := by
  refine h.bind (insertEvent_quiet h pdu pdu.eventId state) fun stateAfter =>
    h.bind (h.read fun _ => rfl) fun pointer =>
    h.bind (h.read fun db => by cases pointer <;> rfl) fun shortstatehash => h.bind (h.read fun _ => rfl) fun current =>
      h.bind (getAuthChain_keeps h.toShortening fuel r _) fun chain =>
        h.bind (getAuthChain_keeps h.toShortening fuel r _) fun chain' => h.get fun db => ?_
  show Comp.Keeps R (match fed.resolve version _ [chain.toFinset, chain'.toFinset] db.findPdu with
    | some map => pure map
    | none => _)
  split
  · exact h.pure _
  · exact h.read fun _ => rfl

/-- a resolution is compressed, saved and forced -/
theorem deriveState_eq {state : Tree Nat EventId} (hsk : pdu.stateKey.isSome) :
    deriveState env fed fuel r version pdu state = (do
      let map ← resolution env fed fuel r version pdu state
      let newRoomState ← compressResolved map.rows
      saveAndForce env r newRoomState) := by
  unfold deriveState resolution resolveState saveAndForce
  rw [if_pos hsk]
  simp only [Comp.bind_assoc]
  refine congrArg (_ >>= ·) (funext fun stateAfter => congrArg (_ >>= ·) (funext fun pointer =>
    congrArg (_ >>= ·) (funext fun shortstatehash => congrArg (_ >>= ·) (funext fun current =>
      congrArg (_ >>= ·) (funext fun currentChain => congrArg (_ >>= ·) (funext fun incomingChain =>
        congrArg (_ >>= ·) (funext fun db => ?_)))))))
  cases fed.resolve version [db.stateMapOf (fed.entries current), db.stateMapOf (fed.entries stateAfter)]
      [currentChain.toFinset, incomingChain.toFinset] db.findPdu with
  | some map => rfl
  | none => rfl

end Db
end Grapevine
