import Grapevine.Rooms.StateMap

/-!
# The current state of a room

A room points to one of the stored states.  What the room has under a type and a state key is what the
entries of this state say (`Stands`); most calls of the state compressor leave it alone (`Widens`),
and only `set_room_state` moves it.

* `Intact`              what every run of the compressor keeps;
* `Widens`              rows and short ids are added, and no room is pointed elsewhere;
* `saveState_current`   the state that is saved, and the half of its difference that is new;
* `appendToState_current`   the state that an appended event makes.

Main result: `roomStateGet_current`.  What is read of a room's state is what the room has.
-/

namespace Grapevine
open Kv

namespace StateDb

variable {S : Finset CompressedStateEvent} {s s' : StateDb}
  {lists : List (List CompressedStateEvent)} {r : RoomId} {n : Nat} {ord : Order} {pdu : PduEvent}

/-! ## entries -/

/-- the state has the event under the type and the state key -/
def Entry (s : StateDb) (S : Finset CompressedStateEvent) (key : EventType × String) (e : EventId) : Prop :=
  ∃ k n, s.statekeyShortstatekey key = some k ∧ s.eventidShorteventid e = some n ∧ .of k n ∈ S

/-- the state that the room points to; no state is the empty one -/
structure IsCurrent (s : StateDb) (r : RoomId) (S : Finset CompressedStateEvent) : Prop where
  empty : s.roomidShortstatehash r = none → S = ∅
  full : ∀ p, s.roomidShortstatehash r = some p → FullOf s.shortstatehashStatediff p S

/-- the room's current state has the event under the type and the state key -/
def Stands (s : StateDb) (r : RoomId) (key : EventType × String) (e : EventId) : Prop :=
  ∃ S, IsCurrent s r S ∧ Entry s S key e

theorem IsCurrent.unique {S' : Finset CompressedStateEvent} (h : IsCurrent s r S) (h' : IsCurrent s r S') :
    S = S' := by
  cases hp : s.roomidShortstatehash r with
  | none => rw [h.empty hp, h'.empty hp]
  | some p => exact (h.full p hp).unique (h'.full p hp)

theorem exists_isCurrent (hc : Core s) (r : RoomId) : ∃ S, IsCurrent s r S := by
  cases hp : s.roomidShortstatehash r with
  | none =>
    refine ⟨∅, fun _ => rfl, fun p h => ?_⟩
    rw [hp] at h
    cases h
  | some p =>
    obtain ⟨v, hv⟩ := hc.pointers r p hp
    obtain ⟨st, hst⟩ := hc.stacked p v hv
    refine ⟨topFull st, ⟨fun h => ?_, fun q h => ?_⟩⟩
    · rw [hp] at h
      cases h
    · rw [hp] at h
      cases h
      exact ⟨st, hst, rfl⟩

theorem IsCurrent.current_iff (h : IsCurrent s r S) (key : EventType × String) (e : EventId) :
    Stands s r key e ↔ Entry s S key e := by
  constructor
  · rintro ⟨S', hS', he⟩
    rw [h.unique hS']
    exact he
  · exact fun he => ⟨S, h, he⟩

theorem of_inj {k k' n' : Nat} (hk : k < 2^64) (hn : n < 2^64) (hk' : k' < 2^64) (hn' : n' < 2^64)
    (h : CompressedStateEvent.of k n = .of k' n') : k = k' ∧ n = n' := by
  have hbytes : be64 k ++ be64 n = be64 k' ++ be64 n' := congrArg CompressedStateEvent.bytes h
  obtain ⟨h1, h2⟩ := List.append_inj hbytes (by simp)
  exact ⟨be_inj (two64 ▸ hk) (two64 ▸ hk') h1, be_inj (two64 ▸ hn) (two64 ▸ hn') h2⟩

section
variable {s s' : StateDb} {S : Finset CompressedStateEvent}

/-- the numbers behind an entry are the only ones that it can have been made of -/
theorem Maps.entry_numbers (hm : Maps s) (hS : Made s S) {k : Nat} (hk : k < 2^64) (hn : n < 2^64)
    (hc : CompressedStateEvent.of k n ∈ S) : ∃ key e, s.statekeyShortstatekey key = some k ∧
      s.eventidShorteventid e = some n := by
  obtain ⟨key, k', e, n', hof, hk', hn'⟩ := hS.entries _ hc
  obtain ⟨rfl, rfl⟩ := of_inj hk hn (hm.word (hm.numbers.keys.counted key k' hk').2)
    (hm.word (hm.numbers.events.counted e n' hn').2) hof
  exact ⟨key, e, hk', hn'⟩

/-- one key has one event -/
theorem Maps.entry_unique (hm : Maps s) (hS : Made s S) {key : EventType × String} {e e' : EventId}
    (h : Entry s S key e) (h' : Entry s S key e') : e = e' := by
  obtain ⟨k, n, hk, hn, hc⟩ := h
  obtain ⟨k', n', hk', hn', hc'⟩ := h'
  obtain rfl := Option.some.inj (hk.symm.trans hk')
  have hsame := hS.one k _ hc _ hc' (CompressedStateEvent.of_hasKey k n) (CompressedStateEvent.of_hasKey k n')
  have hword := hm.word (hm.numbers.keys.counted key k hk).2
  obtain ⟨-, rfl⟩ := of_inj hword (hm.word (hm.numbers.events.counted e n hn).2) hword
    (hm.word (hm.numbers.events.counted e' n' hn').2) hsame
  exact hm.numbers.events.injective hn hn'

/-- short ids that are new are in no old state -/
theorem Maps.entry_grow (hm : Maps s) (hm' : Maps s') (hg : NumbersGrow s s') (hS : Made s S)
    (key : EventType × String) (e : EventId) : Entry s' S key e ↔ Entry s S key e := by
  constructor
  · rintro ⟨k, n, hk, hn, hc⟩
    obtain ⟨key₀, e₀, hk₀, hn₀⟩ := hm.entry_numbers hS (hm'.word (hm'.numbers.keys.counted key k hk).2)
      (hm'.word (hm'.numbers.events.counted e n hn).2) hc
    obtain rfl := hm'.numbers.keys.injective hk (hg.keys key₀ k hk₀)
    obtain rfl := hm'.numbers.events.injective hn (hg.events e₀ n hn₀)
    exact ⟨k, n, hk₀, hn₀, hc⟩
  · rintro ⟨k, n, hk, hn, hc⟩
    exact ⟨k, n, hg.keys key k hk, hg.events e n hn, hc⟩

/-- an event that is put under its key takes the place of the one that was there -/
theorem Maps.entry_replaced (hm : Maps s) (hS : Made s S) {key₀ : EventType × String} {e₀ : EventId} {k : Nat}
    (hk : s.statekeyShortstatekey key₀ = some k) (hn : s.eventidShorteventid e₀ = some n)
    (key : EventType × String) (e : EventId) :
    Entry s (replaced S k n) key e ↔ if key = key₀ then e = e₀ else Entry s S key e := by
  have hR := hS.replaced hk hn
  have hnew : Entry s (replaced S k n) key₀ e₀ := ⟨k, n, hk, hn, Finset.mem_insert_self _ _⟩
  by_cases hkey : key = key₀
  · rw [if_pos hkey, hkey]
    refine ⟨fun h => hm.entry_unique hR h hnew, ?_⟩
    rintro rfl
    exact hnew
  · rw [if_neg hkey]
    have hword := hm.word (hm.numbers.keys.counted key₀ k hk).2
    constructor
    · rintro ⟨k', n', hk', hn', hc⟩
      rcases Finset.mem_insert.mp hc with hc | hc
      · obtain ⟨rfl, -⟩ := of_inj (hm.word (hm.numbers.keys.counted key k' hk').2)
          (hm.word (hm.numbers.events.counted e n' hn').2) hword
          (hm.word (hm.numbers.events.counted e₀ n hn).2) hc
        exact absurd (hm.numbers.keys.injective hk' hk) hkey
      · exact ⟨k', n', hk', hn', (Finset.mem_filter.mp hc).1⟩
    · rintro ⟨k', n', hk', hn', hc⟩
      refine ⟨k', n', hk', hn', Finset.mem_insert_of_mem (Finset.mem_filter.mpr ⟨hc, ?_⟩)⟩
      rw [Bool.eq_false_iff]
      intro hck
      have hbytes : be64 k' = be64 k := by
        unfold CompressedStateEvent.hasKey at hck
        rw [List.isPrefixOf_iff_prefix] at hck
        exact ((List.prefix_of_prefix_length_le hck (List.prefix_append (be64 k') (be64 n')) (by simp)).eq_of_length
          (by simp)).symm
      obtain rfl := be_inj (two64 ▸ hm.word (hm.numbers.keys.counted key k' hk').2) (two64 ▸ hword) hbytes
      exact hkey (hm.numbers.keys.injective hk' hk)

end

/-! ## what the calls keep -/

variable (digest : Bytes → Bytes)

/-- what every run of the compressor keeps -/
structure Intact (s : StateDb) : Prop where
  core : Core s
  maps : Maps s
  hashes : ∃ lists, Hashes digest lists s

/-- rows and short ids are added, and no room is pointed elsewhere -/
structure Wider (s s' : StateDb) : Prop where
  intact : Intact digest s'
  pointers : s'.roomidShortstatehash = s.roomidShortstatehash
  rows : Extends s.shortstatehashStatediff s'.shortstatehashStatediff
  numbers : NumbersGrow s s'

/-- the same, of stores that are intact -/
def Widens (s s' : StateDb) : Prop := Intact digest s → Wider digest s s'

variable {digest}

theorem Intact.start : Intact digest StateDb.empty where
  core := .empty
  maps := Maps.start
  hashes := ⟨[], nofun⟩

theorem Widens.refl (s : StateDb) : Widens digest s s := fun h => ⟨h, rfl, fun _ _ hv => hv, .refl s⟩

theorem Wider.trans {a b c : StateDb} (h : Wider digest a b) (h' : Wider digest b c) : Wider digest a c :=
  ⟨h'.intact, h'.pointers.trans h.pointers, h.rows.trans h'.rows, .trans _ _ _ h.numbers h'.numbers⟩

theorem Widens.trans (a b c : StateDb) (h : Widens digest a b) (h' : Widens digest b c) : Widens digest a c :=
  fun ha => (h ha).trans (h' (h ha).intact)

/-- what a state has is what it had -/
theorem Wider.isCurrent (h : Wider digest s s') (hS : IsCurrent s r S) : IsCurrent s' r S := by
  refine ⟨fun hp => hS.empty ?_, fun p hp => (hS.full p ?_).extends h.rows⟩
  · rw [← h.pointers]
    exact hp
  · rw [← h.pointers]
    exact hp

theorem IsCurrent.made (hi : Intact digest s) (hS : IsCurrent s r S) : Made s S := hi.maps.current hS.empty hS.full

theorem Wider.current_iff (hi : Intact digest s) (h : Wider digest s s') (r : RoomId) (key : EventType × String)
    (e : EventId) : Stands s' r key e ↔ Stands s r key e := by
  obtain ⟨S, hS⟩ := exists_isCurrent hi.core r
  rw [hS.current_iff, (h.isCurrent hS).current_iff]
  exact hi.maps.entry_grow h.intact.maps h.numbers (hS.made hi) key e

theorem Kin.unpointed (h : Kin s s') : Kin (unpointed s) (unpointed s') := by
  obtain ⟨⟨h1, h2, h3, h4, _, h6⟩, k2, k3, _, k5, k6⟩ := h
  exact ⟨⟨h1, h2, h3, h4, nofun, h6⟩, k2, k3, rfl, k5, k6⟩

/-- only short ids, the cache and the counter move -/
theorem Widens.of_kin (hk : Core s → Kin s s') (hg : NumbersGrow s s') : Widens digest s s' := by
  intro hi
  have hkin := hk hi.core
  obtain ⟨lists, hh⟩ := hi.hashes
  have hgood := hkin.good hh
  exact ⟨⟨hgood.core, hi.maps.of_rows hg (hi.maps.layers.kin hkin.unpointed) hkin.rows, lists, hgood.hashes⟩,
    hkin.pointers, hgood.rows, hg⟩

theorem widens_of_ends {α : Type} {x : StateComp α} {Q : StateDb → α → StateDb → Prop}
    (hx : ∀ s, Core s → Comp.Ends x s (fun a s' => Kin s s' ∧ Q s a s') fun _ s' => Kin s s')
    (hg : Comp.Keeps NumbersGrow x) : Comp.Keeps (Widens digest) x :=
  fun s => .of_kin (fun hc => (hx s hc).store (fun _ _ h => h.1) fun _ _ h => h) (hg s)

theorem nextCount_widens : Comp.Keeps (Widens digest) nextCount := by
  intro s
  refine .of_kin (fun hc => ?_) (nextCount_numbers s)
  refine (nextCount_ends s).store ?_ ?_
  · rintro n s' ⟨hn, hlt, rfl⟩
    exact .count hc hn hlt
  · rintro _ s' rfl
    exact .refl hc

theorem getOrCreateShorteventid_widens (e : EventId) : Comp.Keeps (Widens digest) (getOrCreateShorteventid e) :=
  widens_of_ends (fun _ hc => getOrCreateShorteventid_row hc e) (getOrCreateShorteventid_numbers e)

theorem getOrCreateShortstatekey_widens (ty : EventType) (sk : String) :
    Comp.Keeps (Widens digest) (getOrCreateShortstatekey ty sk) :=
  widens_of_ends (fun _ hc => getOrCreateShortstatekey_ends hc ty sk) (getOrCreateShortstatekey_numbers ty sk)

/-! ## states that are saved -/

theorem Hashes.cons (h : Hashes digest lists s) (l : List CompressedStateEvent) : Hashes digest (l :: lists) s := by
  intro k n hk
  obtain ⟨l', hl', hd, hf⟩ := h k n hk
  exact ⟨l', List.mem_cons_of_mem _ hl', hd, hf⟩

/-- a call adds one state, which is made from a map -/
theorem Wider.of_adds {new : Finset CompressedStateEvent} (hi : Intact digest s)
    (hgood : Good digest lists s s') (hadds : Adds new s s')
    (hp : s'.roomidShortstatehash = s.roomidShortstatehash) (hg : NumbersGrow s s') (hnew : Made s' new) :
    Wider digest s s' :=
  ⟨⟨hgood.core, hi.maps.adds hg hadds hnew, lists, hgood.hashes⟩, hp, hgood.rows, hg⟩

section
variable (hcf : ∀ lists, CollisionFree digest lists) {s : StateDb} {S' : Finset CompressedStateEvent}
include hcf

theorem saveState_widens (ord : Order) (r : RoomId) (hS' : Made s S') :
    Widens digest s (saveState digest ord r S' s).2 := by
  intro hi
  obtain ⟨lists, hh⟩ := hi.hashes
  have hkeys := hi.maps.keys_pos hS'
  have hg := numbersGrow_closed.saveState digest ord r S' s
  have hgood := (saveState_ends hi.core (hh.cons (ord.enum S')) (hcf _) ord r List.mem_cons_self hkeys).store
    (fun _ _ h => h.1) fun _ _ h => h
  have hadds := (saveState_layers hi.maps.layers digest ord r hkeys).store (fun _ _ h => h) fun _ _ h => h
  exact .of_adds hi hgood hadds (saveState_later digest ord r S' s).pointers hg (hS'.mono hg)

theorem setEventState_widens (ord : Order) (e : EventId) (r : RoomId) (hS' : Made s S') :
    Widens digest s (setEventState digest ord e r S' s).2 := by
  intro hi
  obtain ⟨lists, hh⟩ := hi.hashes
  have hkeys := hi.maps.keys_pos hS'
  have hg := numbersGrow_closed.setEventState digest ord e r S' s
  have hgood := (setEventState_ends hi.core (hh.cons (ord.enum S')) (hcf _) ord e r List.mem_cons_self hkeys).store
    (fun _ _ h => h.1) fun _ _ h => h
  have hadds := (setEventState_layers hi.maps.layers digest ord e r hkeys).store (fun _ _ h => h) fun _ _ h => h
  exact .of_adds hi hgood hadds (setEventState_later digest ord e r S' s).pointers hg (hS'.mono hg)

end

/-- the half of the difference that is new, unless the room points to the state already -/
theorem saveState_added {s : StateDb} (hc : Core s) (ord : Order) (r : RoomId) (S' : Finset CompressedStateEvent) :
    Comp.Ends (saveState digest ord r S') s
      (fun res _ => (some res.1 = s.roomidShortstatehash r ∧ res.2.1 = ∅) ∨
        ∀ S, IsCurrent s r S → res.2.1 = S' \ S)
      (fun _ _ => True) := by
  unfold saveState
  refine Comp.Ends.after (show getRoomShortstatehash r s = (.ok (s.roomidShortstatehash r), s) from rfl) ?_
  refine Comp.Ends.bind (getOrCreateShortstatehash_ends s _ |>.imp (fun _ _ h => h) fun _ _ _ => trivial)
    fun res s₁ hres => ?_
  obtain ⟨n, existed⟩ := res
  have hcore : Core s₁ ∧ s₁.roomidShortstatehash = s.roomidShortstatehash ∧
      s₁.shortstatehashStatediff = s.shortstatehashStatediff := by
    rcases hres with ⟨_, _, rfl⟩ | ⟨_, _, hn, hlt, rfl⟩
    · exact ⟨hc, rfl, rfl⟩
    · have hcount := (Kin.count hc hn hlt).core
      exact ⟨⟨hcount.1, hcount.2, hcount.3, hcount.4, hcount.5, hcount.6⟩, rfl, rfl⟩
  obtain ⟨hc₁, hp, hrows⟩ := hcore
  show Comp.Ends (if some n = s.roomidShortstatehash r then _ else _) s₁ _ _
  by_cases hsame : some n = s.roomidShortstatehash r
  · rw [if_pos hsame]
    exact Comp.Ends.of_ok rfl (.inl ⟨hsame, rfl⟩)
  · rw [if_neg hsame]
    obtain ⟨st, s₂, hload, -, -, -, -, hnone, hstack⟩ := statesParents_ok hc₁ (hc₁.pointers r)
    rw [hp] at hload hnone hstack
    have hnew : ∀ S, IsCurrent s r S → (diffToParents st S').added = S' \ S := by
      intro S hS
      have htop : topFull st = S := by
        cases hr : s.roomidShortstatehash r with
        | none =>
          rw [hnone hr, hS.empty hr]
          rfl
        | some p => exact FullOf.unique ⟨st, hrows ▸ hstack p hr, rfl⟩ (hS.full p hr)
      rw [diffToParents_eq, htop]
      rfl
    refine Comp.Ends.after hload ?_
    cases existed with
    | true => exact Comp.Ends.of_ok rfl (.inr hnew)
    | false =>
      refine Comp.Ends.bind (P := fun _ _ => True) ?_ fun _ _ _ => Comp.Ends.of_ok rfl (.inr hnew)
      unfold Comp.Ends
      split <;> trivial

/-- the state that is saved, and what it adds to the room's current state -/
theorem saveState_current (hcf : ∀ lists, CollisionFree digest lists) (hi : Intact digest s)
    {S' added removed : Finset CompressedStateEvent} (hS' : Made s S')
    (h : saveState digest ord r S' s = (.ok (n, added, removed), s')) :
    FullOf s'.shortstatehashStatediff n S' ∧ ∀ S, IsCurrent s r S → added = S' \ S := by
  obtain ⟨lists, hh⟩ := hi.hashes
  have hends := saveState_ends hi.core (hh.cons (ord.enum S')) (hcf _) ord r List.mem_cons_self (hi.maps.keys_pos hS')
  have hadded := @saveState_added digest s hi.core ord r S'
  unfold Comp.Ends at hends hadded
  rw [h] at hends hadded
  obtain ⟨hgood, hfull⟩ := hends
  refine ⟨hfull, fun S hS => ?_⟩
  rcases hadded with ⟨hsame, hempty⟩ | hadded
  · have hS'' := ((hS.full n hsame.symm).extends hgood.rows).unique hfull
    rw [show added = ∅ from hempty, hS'', Finset.sdiff_self]
  · exact hadded S hS

/-- the room is pointed to a state -/
theorem setRoomState_current (hi : Intact digest s) (r : RoomId) (hS : FullOf s.shortstatehashStatediff n S) :
    Intact digest (setRoomState r n s).2 ∧ IsCurrent (setRoomState r n s).2 r S ∧
      ∀ q, q ≠ r → ∀ T, IsCurrent s q T → IsCurrent (setRoomState r n s).2 q T := by
  have hrow : ∃ v, s.shortstatehashStatediff n = some v := by
    obtain ⟨st, hst, _⟩ := hS
    cases st with
    | nil => exact absurd hst.name (by simp)
    | cons l below =>
      obtain ⟨v, hv⟩ := hst.kept.row l List.mem_cons_self
      exact ⟨v, by rw [← hv, show l.name = n from Option.some.inj hst.name]⟩
  have hr : (setRoomState r n s).2.roomidShortstatehash r = some n := Function.update_self _ _ _
  have hother : ∀ q, q ≠ r → (setRoomState r n s).2.roomidShortstatehash q = s.roomidShortstatehash q :=
    fun q hq => Function.update_of_ne hq _ _
  refine ⟨⟨?_, ?_, hi.hashes⟩, ⟨fun h => ?_, fun p h => ?_⟩, fun q hq T hT =>
    ⟨fun h => hT.empty ((hother q hq).symm.trans h), fun p h => hT.full p ((hother q hq).symm.trans h)⟩⟩
  · obtain ⟨h1, h2, h3, h4, h5, h6⟩ := hi.core
    refine ⟨h1, h2, h3, h4, fun q p hp => ?_, h6⟩
    rcases update_some_eq_some.mp hp with ⟨-, rfl⟩ | ⟨-, hp⟩
    · exact hrow
    · exact h5 q p hp
  · exact hi.maps.of_rows (.of_eq (le_refl _) rfl rfl rfl rfl) (hi.maps.layers.congr rfl rfl rfl rfl) rfl
  · rw [hr] at h
    cases h
  · rw [hr] at h
    cases h
    exact hS

/-! ## events that are appended -/

theorem appendToState_snd (ord : Order) (pdu : PduEvent) (s : StateDb) :
    (appendToState ord pdu s).2 = (appendToStateWith ord pdu s).2 := by
  unfold appendToState
  cases hrun : appendToStateWith ord pdu s with
  | mk o s' =>
    cases o with
    | error e => rw [Comp.bind_error hrun]
    | ok res =>
      rw [Comp.bind_ok hrun]
      rfl

theorem appendToState_widens (ord : Order) (pdu : PduEvent) :
    Comp.Keeps (Widens digest) (appendToState ord pdu) := by
  intro s hi
  obtain ⟨lists, hh⟩ := hi.hashes
  have hone := hi.maps.oneEntry pdu
  have hp := (appendToState_later ord pdu s).pointers
  have hg := numbersGrow_closed.appendToStateWith ord pdu s
  have hgood := (appendToStateWith_ends hi.core hh ord pdu hone).store (fun _ _ h => h.1) fun _ _ h => h
  have hlayers := appendToStateWith_layers hi.maps.layers ord pdu hone
  rw [appendToState_snd] at hp ⊢
  refine ⟨⟨hgood.core, ?_, lists, hgood.hashes⟩, hp, hgood.rows, hg⟩
  unfold Comp.Ends at hlayers
  cases hrun : appendToStateWith ord pdu s with
  | mk o s' =>
    rw [hrun] at hlayers hg
    cases o with
    | error e => exact hi.maps.of_rows hg hlayers.1 hlayers.2
    | ok res =>
      cases hsk : pdu.stateKey with
      | none => exact hi.maps.of_rows hg hlayers.1 (hlayers.2.1 hsk)
      | some stateKey => exact hi.maps.appended hg (hlayers.2.2 stateKey hsk)

/-- the state behind a state event is the room's current one with the event under its key -/
theorem appendToState_current (hi : Intact digest s) {stateKey : String} (hsk : pdu.stateKey = some stateKey)
    (h : appendToState ord pdu s = (.ok n, s')) :
    ∃ S', FullOf s'.shortstatehashStatediff n S' ∧ ∀ key e, Entry s' S' key e ↔
      if key = (pdu.kind, stateKey) then e = pdu.eventId else Stands s pdu.roomId key e := by
  obtain ⟨happ, hg⟩ := Db.appended_of_run hi.maps hsk h
  have hm' := hi.maps.appended hg happ
  obtain ⟨S, k, m, hempty, hcurrent, hk, hm, hfull, -⟩ := happ
  have hS : IsCurrent s pdu.roomId S := ⟨hempty, hcurrent⟩
  refine ⟨_, hfull, fun key e => ?_⟩
  rw [hm'.entry_replaced ((hS.made hi).mono hg) hk hm, hS.current_iff,
    hi.maps.entry_grow hm' hg (hS.made hi)]

/-- an event that is no state event leaves the state as it is -/
theorem appendToState_same (hsk : pdu.stateKey = none) (h : appendToState ord pdu s = (.ok n, s')) :
    s.roomidShortstatehash pdu.roomId = some n := by
  unfold appendToState appendToStateWith at h
  obtain ⟨res, s₁, h, hlast⟩ := Comp.bind_eq_ok.mp h
  cases hlast
  obtain ⟨shorteventid, s₂, hshort, h⟩ := Comp.bind_eq_ok.mp h
  obtain ⟨previous, s₃, hprevious, h⟩ := Comp.bind_eq_ok.mp h
  obtain ⟨hprev, -⟩ := Prod.mk.inj hprevious
  obtain ⟨_, s₄, -, h⟩ := Comp.bind_eq_ok.mp h
  have hrooms := getOrCreateShorteventid_rooms pdu.eventId s
  rw [hshort] at hrooms
  have hroom : s₂.roomidShortstatehash pdu.roomId = previous := Except.ok.inj hprev
  rw [← congrFun hrooms pdu.roomId]
  show s₂.roomidShortstatehash pdu.roomId = some res.1
  rw [hroom]
  rw [hsk] at h
  cases previous with
  | none => cases h
  | some p =>
    cases h
    rfl

end StateDb

namespace Db
open StateDb (Intact IsCurrent Stands Entry FullOf)

variable {digest : Bytes → Bytes} {db : Db}

/-! ## reading the state -/

/-- a saved state is read as it was saved -/
theorem stateGetId_entry (hi : Intact digest db.state) (env : Env) {n : Nat} {S : Finset CompressedStateEvent}
    (hfull : db.fullState n = .ok S) (ty : EventType) (stateKey : String) :
    ∃ o, db.stateGetId env n ty stateKey = .ok o ∧ ∀ e, o = some e ↔ Entry db.state S (ty, stateKey) e := by
  obtain ⟨hone, hread⟩ := isMap hi.maps n S hfull
  obtain ⟨ids, hids, hget⟩ := hread env
  refine ⟨_, hget env ty stateKey, fun e => ?_⟩
  unfold entry
  rw [Option.bind_eq_some_iff]
  constructor
  · rintro ⟨k, hk, he⟩
    obtain ⟨c, hc, hparse⟩ := (get_stateFullIds hone hfull hids k e).mp he
    have hmade := hi.maps.made n S ((fullState_iff hi.maps.layers).mp hfull)
    obtain ⟨_, k', e', m, rfl, _, hm, hparse'⟩ := parse_made hi.maps hmade hc
    rw [hparse] at hparse'
    cases hparse'
    exact ⟨k, m, hk, hm, hc⟩
  · rintro ⟨k, m, hk, hm, hc⟩
    refine ⟨k, hk, (get_stateFullIds hone hfull hids k e).mpr ⟨_, hc, ?_⟩⟩
    exact parse_of (hi.maps.word (hi.maps.numbers.keys.counted _ k hk).2)
      (hi.maps.word (hi.maps.numbers.events.counted e m hm).2) ((hi.maps.numbers.events.iff e m).mp hm)

theorem stateGetId_current (hi : Intact digest db.state) (env : Env) {r : RoomId} {p : Nat}
    (hp : db.state.roomidShortstatehash r = some p) (ty : EventType) (stateKey : String) :
    ∃ o, db.stateGetId env p ty stateKey = .ok o ∧ ∀ e, o = some e ↔ Stands db.state r (ty, stateKey) e := by
  obtain ⟨S, hS⟩ := StateDb.exists_isCurrent hi.core r
  simp only [hS.current_iff]
  exact stateGetId_entry hi env ((fullState_iff hi.maps.layers).mpr (hS.full p hp)) ty stateKey

/-- **the state is read as the room has it**: an event that the room has under a type and a state key is looked
up, and without one there is nothing to look up -/
theorem roomStateGet_current (hi : Intact digest db.state) (env : Env) (r : RoomId) (ty : EventType)
    (stateKey : String) :
    (∃ e, Stands db.state r (ty, stateKey) e ∧ db.roomStateGet env r ty stateKey = db.getPdu e) ∨
      (∀ e, ¬ Stands db.state r (ty, stateKey) e) ∧ db.roomStateGet env r ty stateKey = .ok none := by
  unfold roomStateGet
  cases hp : db.state.roomidShortstatehash r with
  | none =>
    right
    refine ⟨?_, rfl⟩
    rintro e ⟨S, hS, _, _, _, _, hc⟩
    rw [hS.empty hp] at hc
    exact Finset.notMem_empty _ hc
  | some p =>
    obtain ⟨o, ho, hiff⟩ := stateGetId_current hi env hp ty stateKey
    dsimp only
    unfold stateGet
    rw [ho, except_ok_bind]
    cases o with
    | none => exact Or.inr ⟨fun e he => (by cases (hiff e).mpr he), rfl⟩
    | some e => exact Or.inl ⟨e, (hiff e).mp rfl, rfl⟩

end Db

end Grapevine
