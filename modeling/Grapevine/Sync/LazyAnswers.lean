import Grapevine.Rooms.StateMap
import Grapevine.Sync.LazyLoading

/-!
# What the answer for a room has

* `Filed.members_get`    the member event of a user is in the map of the room's state;
* `Looped`               what the loop over the timeline adds;
* `Answers`              what an answer has, by its branch.

Main result: `answer_answers`.
-/

namespace Grapevine
open Kv

namespace LazyLoading

variable {r : RoomId}

/-! ## snapshots -/

section
variable {env : Env} {db : Db}
variable {ty : EventType} {ids since : Tree Nat EventId} {fullState lazyLoadEnabled : Bool}
  {rows : List (Nat × EventId)} {current h : Nat} {full : Finset CompressedStateEvent} {e : EventId}
  {x : UserId} {timelineUsers : List UserId} {y : List PduEvent × List UserId}
  {events timeline : List PduEvent} {stateKey : String} {pdu : PduEvent}

/-- the map of a snapshot has its entries -/
theorem Filed.get_stateFullIds (hfiled : Filed db) (hfull : db.fullState h = .ok full)
    (hids : db.stateFullIds env h = .ok ids) (k : Nat) (e : EventId) :
    ids.get k = some e ↔ ∃ c ∈ full, db.parseCompressedStateEvent c = .ok (k, e) :=
  Db.get_stateFullIds (hfiled.one h full hfull) hfull hids k e

/-- the search for a state key finds its entry -/
theorem Filed.stateGetId_entry (hfiled : Filed db) (hfull : db.fullState h = .ok full) (e : EventId) :
    db.stateGetId env h ty stateKey = .ok (some e) ↔
      ∃ k, db.state.shortstatekeyStatekey k = some (ty, stateKey) ∧
        ∃ c ∈ full, db.parseCompressedStateEvent c = .ok (k, e) := by
  unfold Db.stateGetId
  cases hkey : db.state.statekeyShortstatekey (ty, stateKey) with
  | none =>
    refine iff_of_false nofun ?_
    rintro ⟨k, hk, -⟩
    rw [(hfiled.keys k _).mpr hk] at hkey
    cases hkey
  | some k =>
    have hk := (hfiled.keys k _).mp hkey
    have hword := hfiled.words k _ hkey
    rw [hfull]
    show (.ok (((env.ord.enum full).find? fun c => c.hasKey k).bind
      fun c => (db.parseCompressedStateEvent c).toOption.map Prod.snd) : Except Error (Option EventId)) = _ ↔ _
    constructor
    · intro hfind
      obtain ⟨c, hc, hsnd⟩ := Option.bind_eq_some_iff.mp (Except.ok.inj hfind)
      obtain ⟨p, hp, rfl⟩ := Option.map_eq_some_iff.mp hsnd
      have hckey : c.hasKey k = true := by simpa using List.find?_some hc
      have hparse := toOption_eq_some.mp hp
      refine ⟨k, hk, c, (env.ord.mem _ _).mp (List.mem_of_find?_eq_some hc), ?_⟩
      rw [hparse, ← Db.parse_fst hword hckey hparse]
    · rintro ⟨k', hk', c, hc, hparse⟩
      rw [(hfiled.keys k' _).mpr hk'] at hkey
      cases hkey
      have hckey := Db.hasKey_of_parse hparse
      cases hfind : (env.ord.enum full).find? fun c => c.hasKey k with
      | none => exact absurd hckey (List.find?_eq_none.mp hfind c ((env.ord.mem _ _).mpr hc))
      | some c' =>
        have hc' := (env.ord.mem _ _).mp (List.mem_of_find?_eq_some hfind)
        have hckey' : c'.hasKey k = true := by simpa using List.find?_some hfind
        rw [hfiled.one h full hfull k c' hc' c hc hckey' hckey, Option.bind_some, hparse]
        rfl

/-- it finds what the map has under the state key -/
theorem Filed.stateGetId_iff (hfiled : Filed db) (hids : db.stateFullIds env h = .ok ids) (e : EventId) :
    db.stateGetId env h ty stateKey = .ok (some e) ↔
      ∃ k, db.state.shortstatekeyStatekey k = some (ty, stateKey) ∧ ids.get k = some e := by
  obtain ⟨full, hfull⟩ := Db.exists_fullState hids
  rw [hfiled.stateGetId_entry hfull]
  constructor
  · rintro ⟨k, hk, hc⟩
    exact ⟨k, hk, (hfiled.get_stateFullIds hfull hids k e).mpr hc⟩
  · rintro ⟨k, hk, hget⟩
    exact ⟨k, hk, (hfiled.get_stateFullIds hfull hids k e).mp hget⟩

/-- the member event of a user is what the search finds, and stored -/
theorem Filed.members_eq (hfiled : Filed db) (hroom : db.state.roomidShortstatehash r = some h)
    (he : members env db r x = some e) :
    db.stateGetId env h .roomMember (env.ids.userIdStr x) = .ok (some e) ∧
      ∃ pdu, db.getPdu e = .ok (some pdu) ∧ pdu.eventId = e := by
  have hpdu : ∃ pdu, db.stateGet env h .roomMember (env.ids.userIdStr x) = .ok (some pdu) ∧ pdu.eventId = e := by
    unfold members Db.roomStateGet at he
    rw [hroom] at he
    dsimp only at he
    cases hget : db.stateGet env h .roomMember (env.ids.userIdStr x) with
    | error err =>
      rw [hget] at he
      cases he
    | ok o =>
      cases o with
      | none =>
        rw [hget] at he
        cases he
      | some pdu =>
        rw [hget] at he
        exact ⟨pdu, rfl, Option.some.inj he⟩
  obtain ⟨pdu, hpdu, hid⟩ := hpdu
  obtain ⟨o, ho, hget⟩ := except_bind_eq_ok.mp hpdu
  cases o with
  | none => cases hget
  | some e' =>
    have hfull : ∃ full, db.fullState h = .ok full := by
      unfold Db.stateGetId at ho
      cases hkey : db.state.statekeyShortstatekey (.roomMember, env.ids.userIdStr x) with
      | none =>
        rw [hkey] at ho
        cases ho
      | some k =>
        rw [hkey] at ho
        obtain ⟨full, hfull, -⟩ := except_bind_eq_ok.mp ho
        exact ⟨full, hfull⟩
    obtain ⟨full, hfull⟩ := hfull
    obtain ⟨k, -, c, hc, hparse⟩ := (hfiled.stateGetId_entry hfull e').mp ho
    obtain ⟨hid', -⟩ := hfiled.events h full hfull c hc k e' pdu hparse hget
    rw [← hid, hid']
    exact ⟨ho, pdu, hget, hid'⟩

/-- it is in the map of the room's state -/
theorem Filed.members_get (hfiled : Filed db) (hroom : db.state.roomidShortstatehash r = some h)
    (hids : db.stateFullIds env h = .ok ids) (he : members env db r x = some e) : ∃ k pdu,
      db.state.shortstatekeyStatekey k = some (.roomMember, env.ids.userIdStr x) ∧ ids.get k = some e ∧
      db.getPdu e = .ok (some pdu) ∧ pdu.eventId = e := by
  obtain ⟨hfind, pdu, hpdu, hid⟩ := hfiled.members_eq hroom he
  obtain ⟨k, hk, hget⟩ := (hfiled.stateGetId_iff hids e).mp hfind
  exact ⟨k, pdu, hk, hget, hpdu, hid⟩

/-! ## the branches -/

variable {views : Views} {st : Store} {u : UserId} {d : DeviceId} {r : RoomId} {state : List PduEvent}
  {lazyLoaded : List UserId}

/-- of each user that is marked, the member event is in the state -/
def Covers (env : Env) (db : Db) (r : RoomId) (state : List PduEvent) (lazyLoaded : List UserId) : Prop :=
  ∀ x ∈ lazyLoaded, ∀ e, members env db r x = some e → Contains state e

theorem initialState_marked
    (h : initialState env db u lazyLoadEnabled fullState timelineUsers rows = .ok (state, lazyLoaded)) :
    ∀ x ∈ lazyLoaded, ∃ k e pdu, (k, e) ∈ rows ∧
      db.state.shortstatekeyStatekey k = some (.roomMember, env.ids.userIdStr x) ∧
      db.getPdu e = .ok (some pdu) ∧ pdu ∈ state := by
  induction rows generalizing state lazyLoaded with
  | nil =>
    cases h
    exact fun x hx => absurd hx List.not_mem_nil
  | cons row rows ih =>
    obtain ⟨k, e⟩ := row
    have hrest : ∀ state' lazyLoaded', initialState env db u lazyLoadEnabled fullState timelineUsers rows =
        .ok (state', lazyLoaded') → (∀ pdu ∈ state', pdu ∈ state) → ∀ x ∈ lazyLoaded', ∃ k' e' pdu,
          (k', e') ∈ (k, e) :: rows ∧ db.state.shortstatekeyStatekey k' = some (.roomMember, env.ids.userIdStr x) ∧
          db.getPdu e' = .ok (some pdu) ∧ pdu ∈ state := by
      intro state' lazyLoaded' h' hsub x hx
      obtain ⟨k', e', pdu, hrow, hk, hpdu, hmem⟩ := ih h' x hx
      exact ⟨k', e', pdu, List.mem_cons_of_mem _ hrow, hk, hpdu, hsub pdu hmem⟩
    unfold initialState at h
    cases hkey : db.state.shortstatekeyStatekey k with
    | none =>
      rw [hkey] at h
      cases h
    | some key =>
      obtain ⟨eventType, stateKey⟩ := key
      rw [hkey] at h
      dsimp only at h
      by_cases hty : eventType = .roomMember
      · rw [if_neg (not_not.mpr hty)] at h
        split at h
        · obtain ⟨o, ho, h⟩ := except_bind_eq_ok.mp h
          obtain ⟨rest, hrows, h⟩ := except_bind_eq_ok.mp h
          cases o with
          | none =>
            cases h
            exact hrest _ _ hrows fun pdu hp => hp
          | some pdu =>
            cases h
            intro x hx
            rcases List.mem_append.mp hx with hx | hx
            · have hparse := Option.mem_toList.mp hx
              rw [env.ids.userIdStr_of _ _ hparse, ← hty]
              exact ⟨k, e, pdu, List.mem_cons_self, hkey, ho, List.mem_cons_self⟩
            · exact hrest rest.1 rest.2 hrows (fun pdu' hp => List.mem_cons_of_mem _ hp) x hx
        · exact hrest _ _ h fun pdu hp => hp
      · rw [if_pos hty] at h
        obtain ⟨o, -, h⟩ := except_bind_eq_ok.mp h
        obtain ⟨rest, hrows, h⟩ := except_bind_eq_ok.mp h
        cases h
        exact hrest rest.1 rest.2 hrows fun pdu hp => List.mem_append_right _ hp

/-- a changed row that can be loaded is in the delta -/
theorem deltaState_changed (h : deltaState db fullState since rows = .ok state) {k : Nat} (hrow : (k, e) ∈ rows)
    (hchanged : since.get k ≠ some e) (hpdu : db.getPdu e = .ok (some pdu)) : pdu ∈ state := by
  induction rows generalizing state with
  | nil => exact absurd hrow List.not_mem_nil
  | cons row rows ih =>
    obtain ⟨k', e'⟩ := row
    unfold deltaState at h
    rcases List.mem_cons.mp hrow with he | hrow
    · cases he
      have hcond : (fullState || since.get k != some e) = true := by
        rw [Bool.or_eq_true, bne_iff_ne]
        exact Or.inr hchanged
      rw [if_pos hcond] at h
      obtain ⟨o, ho, h⟩ := except_bind_eq_ok.mp h
      obtain ⟨rest, -, h⟩ := except_bind_eq_ok.mp h
      cases h
      rw [hpdu] at ho
      cases ho
      exact List.mem_append_left _ List.mem_cons_self
    · split at h
      · obtain ⟨o, -, h⟩ := except_bind_eq_ok.mp h
        obtain ⟨rest, hrest, h⟩ := except_bind_eq_ok.mp h
        cases h
        exact List.mem_append_right _ (ih hrest hrow)
      · exact ih h hrow

/-- the delta is made of rows -/
theorem deltaState_row (h : deltaState db fullState since rows = .ok state) (hmem : pdu ∈ state) :
    ∃ k e, (k, e) ∈ rows ∧ db.getPdu e = .ok (some pdu) := by
  induction rows generalizing state with
  | nil =>
    cases h
    exact absurd hmem List.not_mem_nil
  | cons row rows ih =>
    obtain ⟨k', e'⟩ := row
    have htail : ∀ {state'}, deltaState db fullState since rows = .ok state' → pdu ∈ state' →
        ∃ k e, (k, e) ∈ (k', e') :: rows ∧ db.getPdu e = .ok (some pdu) := by
      intro state' h' hmem'
      obtain ⟨k, e, hrow, hpdu⟩ := ih h' hmem'
      exact ⟨k, e, List.mem_cons_of_mem _ hrow, hpdu⟩
    unfold deltaState at h
    split at h
    · obtain ⟨o, ho, h⟩ := except_bind_eq_ok.mp h
      obtain ⟨rest, hrest, h⟩ := except_bind_eq_ok.mp h
      cases h
      rcases List.mem_append.mp hmem with hmem | hmem
      · rw [Option.mem_toList.mp hmem] at ho
        exact ⟨k', e', List.mem_cons_self, ho⟩
      · exact htail hrest hmem
    · exact htail h hmem

theorem memberUsers_mem {pdus : List PduEvent} (h : memberUsers env pdus = .ok lazyLoaded) (hx : x ∈ lazyLoaded) :
    ∃ pdu ∈ pdus, pdu.kind = .roomMember ∧ pdu.stateKey = some (env.ids.userIdStr x) := by
  induction pdus generalizing lazyLoaded with
  | nil =>
    cases h
    exact absurd hx List.not_mem_nil
  | cons pdu pdus ih =>
    have htail : ∀ {l}, memberUsers env pdus = .ok l → x ∈ l →
        ∃ pdu' ∈ pdu :: pdus, pdu'.kind = .roomMember ∧ pdu'.stateKey = some (env.ids.userIdStr x) := by
      intro l h' hx'
      obtain ⟨pdu', hmem, hpdu'⟩ := ih h' hx'
      exact ⟨pdu', List.mem_cons_of_mem _ hmem, hpdu'⟩
    unfold memberUsers at h
    by_cases hkind : pdu.kind = .roomMember
    · rw [if_pos hkind] at h
      cases hkey : pdu.stateKey with
      | none =>
        rw [hkey] at h
        cases h
      | some stateKey =>
        rw [hkey] at h
        obtain ⟨rest, hrest, h⟩ := except_bind_eq_ok.mp h
        cases h
        rcases List.mem_append.mp hx with hx | hx
        · refine ⟨pdu, List.mem_cons_self, hkind, ?_⟩
          rw [hkey, env.ids.userIdStr_of _ _ (Option.mem_toList.mp hx)]
        · exact htail hrest hx
    · rw [if_neg hkind] at h
      exact htail h hx

/-- what the loop over the timeline adds -/
structure Looped (env : Env) (st : Store) (u : UserId) (d : DeviceId) (r : RoomId) (events : List PduEvent)
    (x y : List PduEvent × List UserId) : Prop where
  state : ∀ pdu ∈ x.1, pdu ∈ y.1
  users : ∀ z ∈ x.2, z ∈ y.2
  marked : ∀ z ∈ y.2, z ∈ x.2 ∨
    ∃ member, st.db.roomStateGet env r .roomMember (env.ids.userIdStr z) = .ok (some member) ∧ member ∈ y.1
  senders : ∀ event ∈ events, event.sender ∈ y.2 ∨ lazyLoadWasSentBefore st u d r event.sender = true ∨
    st.db.roomStateGet env r .roomMember (env.ids.userIdStr event.sender) = .ok none

theorem Looped.cons {event : PduEvent} {x : List PduEvent × List UserId} (h : Looped env st u d r events x y)
    (hsender : event.sender ∈ y.2 ∨
      lazyLoadWasSentBefore st u d r event.sender = true ∨
      st.db.roomStateGet env r .roomMember (env.ids.userIdStr event.sender) = .ok none) :
    Looped env st u d r (event :: events) x y :=
  ⟨h.state, h.users, h.marked, List.forall_mem_cons.mpr ⟨hsender, h.senders⟩⟩

theorem contextualMembers_looped {x : List PduEvent × List UserId}
    (h : contextualMembers env st u d r false events x = .ok y) : Looped env st u d r events x y := by
  induction events generalizing x with
  | nil =>
    cases h
    exact ⟨fun _ hp => hp, fun _ hz => hz, fun _ hz => Or.inl hz, fun _ he => absurd he List.not_mem_nil⟩
  | cons event events ih =>
    unfold contextualMembers at h
    by_cases hin : event.sender ∈ x.2
    · rw [if_pos hin] at h
      have hrest := ih h
      exact hrest.cons (Or.inl (hrest.users _ hin))
    · rw [if_neg hin] at h
      by_cases hsent : lazyLoadWasSentBefore st u d r event.sender = true
      · rw [if_neg (by rw [hsent]; decide)] at h
        exact (ih h).cons (Or.inr (Or.inl hsent))
      · rw [if_pos (by rw [Bool.not_eq_true] at hsent; rw [hsent]; rfl)] at h
        obtain ⟨o, ho, h⟩ := except_bind_eq_ok.mp h
        cases o with
        | none => exact (ih h).cons (Or.inr (Or.inr ho))
        | some member =>
          have hrest := ih h
          have hmember : member ∈ y.1 := hrest.state _ (List.mem_append_right _ List.mem_cons_self)
          have hsender : event.sender ∈ y.2 := hrest.users _ (List.mem_append_right _ List.mem_cons_self)
          refine ⟨fun pdu hp => hrest.state pdu (List.mem_append_left _ hp),
            fun z hz => hrest.users z (List.mem_append_left _ hz), fun z hz => ?_, (hrest.cons (Or.inl hsender)).senders⟩
          rcases hrest.marked z hz with hz' | hz'
          · rcases List.mem_append.mp hz' with hz' | hz'
            · exact Or.inl hz'
            · rw [List.mem_singleton.mp hz']
              exact Or.inr ⟨member, ho, hmember⟩
          · exact Or.inr hz'

/-! ## the answer -/

theorem members_of_roomStateGet {member : PduEvent} (he : members env db r x = some e)
    (hmember : db.roomStateGet env r .roomMember (env.ids.userIdStr x) = .ok (some member)) :
    member.eventId = e := by
  unfold members at he
  rw [hmember] at he
  exact Option.some.inj he

/-- the events of an initial sync -/
theorem initialState_covers (hfiled : Filed db) (hroom : db.state.roomidShortstatehash r = some h)
    (hids : db.stateFullIds env h = .ok ids)
    (hstate : initialState env db u lazyLoadEnabled fullState timelineUsers ids.rows = .ok (state, lazyLoaded)) :
    Covers env db r state lazyLoaded := by
  intro x hx e he
  obtain ⟨k, e', pdu, hrow, hk, hpdu, hmem⟩ := initialState_marked hstate x hx
  obtain ⟨k', pdu', hk', hget, hpdu', hid⟩ := hfiled.members_get hroom hids he
  have hkk : k' = k := by
    rw [← hfiled.keys] at hk hk'
    exact Option.some.inj (hk'.symm.trans hk)
  rw [hkk, (Tree.get_eq_some_iff _ _ _).mpr hrow] at hget
  cases hget
  rw [hpdu] at hpdu'
  cases hpdu'
  exact ⟨pdu, hmem, hid⟩

/-- the events of a delta -/
theorem deltaState_covers (hfiled : Filed db) (hroom : db.state.roomidShortstatehash r = some h)
    (hids : db.stateFullIds env h = .ok ids) (hdelta : deltaState db fullState since ids.rows = .ok state)
    (husers : memberUsers env state = .ok lazyLoaded) :
    Covers env db r state lazyLoaded := by
  intro x hx e he
  obtain ⟨pdu, hmem, hkind, hkey⟩ := memberUsers_mem husers hx
  obtain ⟨k, e', hrow, hpdu⟩ := deltaState_row hdelta hmem
  have hget := (Tree.get_eq_some_iff _ _ _).mpr hrow
  obtain ⟨full, hfull⟩ := Db.exists_fullState hids
  obtain ⟨c, hc, hparse⟩ := (hfiled.get_stateFullIds hfull hids k e').mp hget
  obtain ⟨hid, stateKey, hsome, hk⟩ := hfiled.events h full hfull c hc k e' pdu hparse hpdu
  rw [hkey] at hsome
  cases hsome
  rw [hkind] at hk
  obtain ⟨k', -, hk', hget', -, -⟩ := hfiled.members_get hroom hids he
  have hkk : k' = k := by
    rw [← hfiled.keys] at hk hk'
    exact Option.some.inj (hk'.symm.trans hk)
  rw [hkk, hget] at hget'
  cases hget'
  exact ⟨pdu, hmem, hid⟩

/-- a member event that is not in the delta was the same at the token -/
theorem deltaState_same (hfiled : Filed db) {h' : Nat} (hroom : db.state.roomidShortstatehash r = some h)
    (hids : db.stateFullIds env h = .ok ids) (hsince : db.stateFullIds env h' = .ok since)
    (hdelta : deltaState db fullState since ids.rows = .ok state) (he : members env db r x = some e) :
    Contains state e ∨ db.stateGetId env h' .roomMember (env.ids.userIdStr x) = .ok (some e) := by
  obtain ⟨k, pdu, hk, hget, hpdu, hid⟩ := hfiled.members_get hroom hids he
  by_cases hsame : since.get k = some e
  · exact Or.inr ((hfiled.stateGetId_iff hsince e).mpr ⟨k, hk, hsame⟩)
  · exact Or.inl ⟨pdu, deltaState_changed hdelta ((Tree.get_eq_some_iff _ _ _).mp hget) hsame hpdu, hid⟩

/-- what an answer has, by its branch -/
def Answers (env : Env) (st : Store) (u : UserId) (d : DeviceId) (r : RoomId) (timeline : List PduEvent)
    (current : Nat) (since : Option Nat) : Answer → Prop
  | .unchanged => timeline = [] ∧ since = some current
  | .initialSync state lazyLoaded => Covers env st.db r state lazyLoaded
  | .incremental state lazyLoaded => Covers env st.db r state lazyLoaded ∧ ∃ h, since = some h ∧
      (∀ x e, members env st.db r x = some e →
        Contains state e ∨ st.db.stateGetId env h .roomMember (env.ids.userIdStr x) = .ok (some e)) ∧
      ∀ event ∈ timeline, ∀ e, members env st.db r event.sender = some e →
        Contains state e ∨ lazyLoadWasSentBefore st u d r event.sender = true

/-- the incremental branch, from its delta on -/
theorem incremental_answers {delta : List PduEvent} {users : List UserId}
    (hcovers : Covers env st.db r delta users) (hsame : ∀ x e, members env st.db r x = some e →
      Contains delta e ∨ st.db.stateGetId env h .roomMember (env.ids.userIdStr x) = .ok (some e))
    (hloop : contextualMembers env st u d r false timeline (delta, users) = .ok y) :
    Answers env st u d r timeline current (some h) (.incremental y.1 y.2) := by
  have hlooped := contextualMembers_looped hloop
  have hmono : ∀ e, Contains delta e → Contains y.1 e := fun e ⟨pdu, hpdu, he⟩ => ⟨pdu, hlooped.state pdu hpdu, he⟩
  have hcovers' : Covers env st.db r y.1 y.2 := by
    intro x hx e he
    rcases hlooped.marked x hx with hx | ⟨member, hmember, hmem⟩
    · exact hmono e (hcovers x hx e he)
    · exact ⟨member, hmem, members_of_roomStateGet he hmember⟩
  refine ⟨hcovers', h, rfl, fun x e he => (hsame x e he).imp (hmono e) id, fun event hevent e he => ?_⟩
  rcases hlooped.senders event hevent with hin | hsent | hnone
  · exact Or.inl (hcovers' _ hin e he)
  · exact Or.inr hsent
  · unfold members at he
    rw [hnone] at he
    cases he

theorem answer_answers (hfiled : Filed st.db) {since : Option Nat} {a : Answer}
    (hroom : st.db.state.roomidShortstatehash r = some current)
    (h : answer env views st u d r timeline current since lazyLoadEnabled false fullState = .ok a) :
    Answers env st u d r timeline current since a := by
  unfold answer at h
  split at h
  · next hsame =>
    cases h
    rw [Bool.and_eq_true, List.isEmpty_iff, beq_iff_eq] at hsame
    exact hsame
  · obtain ⟨joined, hjoined, h⟩ := except_bind_eq_ok.mp h
    have hinitial : (do
        views.calculateCounts st.db r
        let ids ← st.db.stateFullIds env current
        let x ← initialState env st.db u lazyLoadEnabled fullState (timeline.map PduEvent.sender) ids.rows
        pure (Answer.initialSync x.1 x.2)) = .ok a → Answers env st u d r timeline current since a := by
      intro h
      obtain ⟨_, -, h⟩ := except_bind_eq_ok.mp h
      obtain ⟨ids, hids, h⟩ := except_bind_eq_ok.mp h
      obtain ⟨x, hx, h⟩ := except_bind_eq_ok.mp h
      cases h
      exact initialState_covers hfiled hroom hids hx
    cases joined with
    | true => exact hinitial h
    | false =>
      cases since with
      | none => exact hinitial h
      | some since =>
        obtain ⟨delta, hdelta, h⟩ := except_bind_eq_ok.mp h
        obtain ⟨_, -, h⟩ := except_bind_eq_ok.mp h
        obtain ⟨_, -, h⟩ := except_bind_eq_ok.mp h
        obtain ⟨users, husers, h⟩ := except_bind_eq_ok.mp h
        obtain ⟨y, hloop, h⟩ := except_bind_eq_ok.mp h
        cases h
        unfold deltaStateEvents at hdelta
        by_cases hne : since = current
        · rw [if_pos hne] at hdelta
          cases hdelta
          cases husers
          refine incremental_answers (fun x hx => absurd hx List.not_mem_nil) (fun x e he => Or.inr ?_) hloop
          rw [hne]
          exact (hfiled.members_eq hroom he).1
        · rw [if_neg hne] at hdelta
          obtain ⟨ids, hids, hdelta⟩ := except_bind_eq_ok.mp hdelta
          obtain ⟨sinceIds, hsince, hdelta⟩ := except_bind_eq_ok.mp hdelta
          exact incremental_answers (deltaState_covers hfiled hroom hids hdelta husers)
            (fun x e he => deltaState_same hfiled hroom hids hsince hdelta he) hloop

end

end LazyLoading
end Grapevine
