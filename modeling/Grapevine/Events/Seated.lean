import Grapevine.Events.Carried

/-!
# A state is forced on a room

`force_state` goes through the entries that a state adds to the room's current one, and applies the member
events among them; the entries that the state loses are not looked at.

* `Seated`        the seats of a room are those that its current state gives;
* `Placed`         the events of a state stand under their own keys, the member events among them are stored;
* `Decided`       the state has a member event of the user that gives or takes a seat;
* `Reseated`      the seats that a forced state leaves: where it decides nothing, they stay;
* `forceEvents_seat`   the seat of a user behind the walk over the entries.

Main result: `saveAndForce_forced`.  A placed state is followed by the seats wherever it decides about them, and
nowhere else.
-/

namespace Grapevine
open Kv

namespace Db
open StateDb (Made Entry IsCurrent Stands NumbersGrow Intact Wider FullOf)

variable {env : Env} {own : EventId → Gist} {db db' : Db} {r : RoomId}
variable {S S' : Finset CompressedStateEvent} {may : UserId → RoomId → Prop} {u : UserId}
  {c : CompressedStateEvent} {t : TimelineTables} {x : PUnit} {e : EventId} {q : RoomId} {g : Gist}
  {b : Bool}

/-! ## what a state says of seats -/

/-- a state, as the events that it has under types and state keys -/
abbrev Entries := EventType × String → EventId → Prop

/-- the state gives the user a seat -/
def Gives (own : EventId → Gist) (A : Entries) (stateKey : String) : Prop :=
  ∃ e, A (.roomMember, stateKey) e ∧ (own e).membership = some .join

/-- the events stand under their own keys, and the member events are stored -/
structure Placed (own : EventId → Gist) (t : TimelineTables) (A : Entries) : Prop where
  key : ∀ key e, A key e → (own e).key = some key
  stored : ∀ stateKey e, A (.roomMember, stateKey) e → HasPdu t e

/-- the state has a member event of the user that gives or takes a seat -/
def Decided (env : Env) (own : EventId → Gist) (db : Db) (A : Entries) (u : UserId) : Prop :=
  ∃ e, A (.roomMember, env.ids.userIdStr u) e ∧ seat env db (own e) u ≠ none

/-- the user has a seat behind a state that is forced on the room -/
def Reseated (env : Env) (own : EventId → Gist) (db : Db) (r : RoomId) (A : Entries) (u : UserId) : Prop :=
  Gives own A (env.ids.userIdStr u) ∨ db.members.isJoined u r = true ∧ ¬ Decided env own db A u

/-- the seats of the room are those that its current state gives -/
structure Seated (env : Env) (own : EventId → Gist) (db : Db) (r : RoomId) : Prop where
  placed : Placed own db.timeline (Stands db.state r)
  seats : ∀ u, db.members.isJoined u r = true ↔ Gives own (Stands db.state r) (env.ids.userIdStr u)

/-- a placed state is followed -/
theorem seated_iff (h : Placed own db.timeline (Stands db.state r)) : Seated env own db r ↔
    ∀ u, db.members.isJoined u r = true ↔ Gives own (Stands db.state r) (env.ids.userIdStr u) :=
  ⟨Seated.seats, fun hs => ⟨h, hs⟩⟩

/-- the room's state is placed, and the seats follow it if and only if the condition holds -/
structure FollowsIff (env : Env) (own : EventId → Gist) (db : Db) (r : RoomId) (P : Prop) : Prop where
  placed : Placed own db.timeline (Stands db.state r)
  iff : Seated env own db r ↔ P

theorem FollowsIff.congr {P Q : Prop} (h : FollowsIff env own db r P) (hPQ : P ↔ Q) : FollowsIff env own db r Q :=
  ⟨h.placed, h.iff.trans hPQ⟩

theorem Placed.congr {t' : TimelineTables} {A B : Entries} (h : Placed own t A)
    (ht : ∀ e, HasPdu t e → HasPdu t' e) (hab : ∀ key e, B key e → A key e) : Placed own t' B :=
  ⟨fun key e he => h.key key e (hab _ _ he), fun k e he => ht e (h.stored k e (hab _ _ he))⟩

theorem gives_congr {A B : Entries} (hab : ∀ key e, B key e ↔ A key e) (stateKey : String) :
    Gives own B stateKey ↔ Gives own A stateKey := by
  unfold Gives
  simp only [hab]

/-- a member event that gives or takes a seat is about its user -/
theorem seat_some (h : seat env db g u = some b) :
    g.key = some (.roomMember, env.ids.userIdStr u) ∧ (b = true ↔ g.membership = some .join) := by
  unfold seat at h
  by_cases hkey : g.key = some (.roomMember, env.ids.userIdStr u)
  · rw [if_pos hkey] at h
    refine ⟨hkey, ?_⟩
    cases hm : g.membership with
    | none =>
      rw [hm] at h
      cases h
    | some membership =>
      rw [hm, Option.bind_some] at h
      unfold seatOf at h
      cases membership with
      | join =>
        cases h
        exact iff_of_true rfl rfl
      | invite =>
        refine iff_of_false ?_ nofun
        rintro rfl
        dsimp only at h
        split at h
        · cases h
        · cases h
      | leave =>
        cases h
        exact iff_of_false nofun nofun
      | ban =>
        cases h
        exact iff_of_false nofun nofun
      | knock => cases h
      | custom s => cases h
  · rw [if_neg hkey] at h
    cases h

theorem seat_join (hkey : g.key = some (.roomMember, env.ids.userIdStr u)) (hm : g.membership = some .join) :
    seat env db g u = some true := by
  unfold seat
  rw [if_pos hkey, hm]
  rfl

/-- a state that gives a seat decides about it -/
theorem gives_decided {A : Entries} (h : Placed own t A) (hg : Gives own A (env.ids.userIdStr u)) :
    Decided env own db A u := by
  obtain ⟨e, he, hm⟩ := hg
  exact ⟨e, he, by rw [seat_join (h.key _ e he) hm]; exact nofun⟩

/-- a forced state is followed where it decides about a seat that is taken -/
theorem reseated_iff {A : Entries} (h : Placed own t A) (u : UserId) :
    (Reseated env own db r A u ↔ Gives own A (env.ids.userIdStr u)) ↔
      (db.members.isJoined u r = true → Decided env own db A u) := by
  constructor
  · intro hiff hj
    by_contra hn
    exact hn (gives_decided h (hiff.mp (Or.inr ⟨hj, hn⟩)))
  · intro hdec
    exact ⟨fun hs => hs.elim id fun hs => absurd (hdec hs.1) hs.2, Or.inl⟩

theorem decided_congr {A B : Entries} (hi : SameIgnored db.accounts db'.accounts) (hab : ∀ key e, B key e ↔ A key e)
    (u : UserId) : Decided env own db' B u ↔ Decided env own db A u := by
  unfold Decided
  simp only [hab, seat_congr hi]

theorem reseated_congr {A B : Entries} (hi : SameIgnored db.accounts db'.accounts)
    (hseat : db'.members.isJoined u r = db.members.isJoined u r) (hab : ∀ key e, B key e ↔ A key e) :
    Reseated env own db' r B u ↔ Reseated env own db r A u := by
  unfold Reseated
  rw [gives_congr hab, hseat, decided_congr hi hab]

/-! ## one entry -/

/-- the seats of the room -/
def ofRoom (r : RoomId) (_ : UserId) (q : RoomId) : Prop := q = r

section
variable {a : RoomId} {s : Option Nat}

theorem forceEvents_carries (new : List CompressedStateEvent) :
    Comp.Keeps (Carries env own a s (ofRoom r)) (forceEvents env r new) :=
  forceEvents_keeps_of env carries_blind (fun _ m sender => updateMembership_carries rfl m sender none false) new

end

/-- the seat behind a member event of the state -/
theorem forceMember_seat (hr : Ready env own db) {pdu : PduEvent} (hkind : pdu.kind = .roomMember) {x : Unit}
    (h : forceMember env r pdu db = (.ok x, db')) (u : UserId) :
    db'.members.isJoined u r = (seat env db pdu.gist u).getD (db.members.isJoined u r) := by
  have hm := gist_membership hkind
  unfold forceMember at h
  unfold seat
  cases hc : extractMembership pdu.content with
  | none =>
    rw [hc] at h hm
    cases h
    rw [hm]
    split <;> rfl
  | some membership =>
    cases hk : pdu.stateKey.bind env.ids.userIdOfStr with
    | none =>
      rw [hc, hk] at h
      cases h
      rw [if_neg]
      · rfl
      · intro hkey
        rw [(gist_key.mp hkey).2, Option.bind_some, env.ids.userIdOfStr_str] at hk
        cases hk
    | some v =>
      rw [hc, hk] at h
      obtain ⟨stateKey, hsk, hv⟩ := Option.bind_eq_some_iff.mp hk
      obtain rfl := env.ids.userIdStr_of stateKey v hv
      by_cases hu : u = v
      · subst hu
        rw [if_pos (gist_key.mpr ⟨hkind, hsk⟩), hm, hc]
        exact updateMembership_seat env h
      · have hother : Comp.Keeps (Carries env own r (db.roomidShortroomid r) (fun w q => w = v ∧ q = r))
            (updateMembership env r v membership pdu.sender none false) :=
          updateMembership_carries ⟨rfl, rfl⟩ membership pdu.sender none false
        rw [(carries_run hother h rfl hr).1.seats u r fun hn => hu hn.1, if_neg]
        · rfl
        · intro hkey
          have hstr : env.ids.userIdStr v = env.ids.userIdStr u :=
            Option.some.inj (hsk.symm.trans (gist_key.mp hkey).2)
          have hof := env.ids.userIdOfStr_str u
          rw [← hstr, env.ids.userIdOfStr_str] at hof
          exact hu (Option.some.inj hof).symm

theorem forceEvent_stored (hr : Ready env own db) (he : HasPdu db.timeline e) {x : Unit}
    (h : forceEvent env r e db = (.ok x, db')) (u : UserId) :
    db'.members.isJoined u r = (seat env db (own e) u).getD (db.members.isJoined u r) := by
  obtain ⟨j, hj, hown⟩ := hr.told.getPduJson_stored he
  rw [← hown]
  unfold forceEvent at h
  obtain ⟨o, hread, h⟩ := Comp.reads_eq_ok h
  rw [hj] at hread
  cases hread
  by_cases hkind : j.pdu.kind = .roomMember
  · simp only [hkind] at h
    exact forceMember_seat hr hkind h u
  · have hseat : seat env db j.pdu.gist u = none := if_neg fun hkey => hkind (gist_key.mp hkey).1
    rw [hseat]
    dsimp only at h
    generalize j.pdu.kind = kind at h hkind
    cases kind with
    | roomMember => exact absurd rfl hkind
    | _ =>
      cases h
      rfl

theorem forceEvent_missing (he : ¬ HasPdu db.timeline e) {x : Unit} (h : forceEvent env r e db = (.ok x, db')) :
    db' = db := by
  unfold forceEvent at h
  obtain ⟨o, hread, h⟩ := Comp.reads_eq_ok h
  rw [getPduJson_missing he] at hread
  cases hread
  cases h
  rfl

/-! ## all entries -/

theorem forceEvents_sees (new : List CompressedStateEvent) : Comp.Keeps Sees (forceEvents env r new) :=
  forceEvents_keeps env blind_sees (fun _ _ => ⟨rfl, _, rfl⟩) (fun _ _ => ⟨rfl, _, rfl⟩) r new

/-- the event of the entry makes something of the seat -/
def Moves (env : Env) (own : EventId → Gist) (db : Db) (u : UserId) (c : CompressedStateEvent) (b : Bool) : Prop :=
  ∃ k e, db.parseCompressedStateEvent c = .ok (k, e) ∧ HasPdu db.timeline e ∧ seat env db (own e) u = some b

theorem moves_congr (hsees : Sees db db') (hignored : SameIgnored db.accounts db'.accounts) (u : UserId)
    (c : CompressedStateEvent) (b : Bool) : Moves env own db' u c b ↔ Moves env own db u c b := by
  have hseat : ∀ g, seat env db' g u = seat env db g u := fun g => seat_congr hignored g u
  unfold Moves
  simp only [hsees.parse, hsees.timeline, hseat]

/-- one entry -/
theorem forceEntry_seat (hr : Ready env own db) (h : forceEvents env r [c] db = (.ok x, db')) (u : UserId) :
    (db'.members.isJoined u r = db.members.isJoined u r ∧ ∀ b, ¬ Moves env own db u c b) ∨
      Moves env own db u c (db'.members.isJoined u r) := by
  obtain ⟨_, db₁, h, hlast⟩ := Comp.bind_eq_ok.mp h
  cases hlast
  change (Comp.get >>= _) db = _ at h
  rw [Comp.bind_ok (Comp.get_run db)] at h
  cases hp : db.parseCompressedStateEvent c with
  | error err =>
    rw [hp] at h
    cases h
    refine Or.inl ⟨rfl, fun b hb => ?_⟩
    obtain ⟨k, e, hparse, -⟩ := hb
    rw [hp] at hparse
    cases hparse
  | ok p =>
    rw [hp] at h
    by_cases he : HasPdu db.timeline p.2
    · have hseat := forceEvent_stored hr he h u
      cases hs : seat env db (own p.2) u with
      | none =>
        rw [hs] at hseat
        refine Or.inl ⟨hseat, fun b hb => ?_⟩
        obtain ⟨k, e, hparse, -, hb⟩ := hb
        rw [hp] at hparse
        cases hparse
        rw [hs] at hb
        cases hb
      | some b =>
        rw [hs] at hseat
        exact Or.inr ⟨p.1, p.2, hp, he, by rw [hs, hseat]; rfl⟩
    · obtain rfl := forceEvent_missing he h
      refine Or.inl ⟨rfl, fun b hb => ?_⟩
      obtain ⟨k, e, hparse, hstored, -⟩ := hb
      rw [hp] at hparse
      cases hparse
      exact he hstored

/-- the seat is as one of the entries makes it, or as it was, and then no entry makes anything of it -/
theorem forceEvents_seat {new : List CompressedStateEvent} (hr : Ready env own db)
    (h : forceEvents env r new db = (.ok x, db')) (u : UserId) :
    (db'.members.isJoined u r = db.members.isJoined u r ∧ ∀ c ∈ new, ∀ b, ¬ Moves env own db u c b) ∨
      ∃ c ∈ new, Moves env own db u c (db'.members.isJoined u r) := by
  induction new generalizing db with
  | nil =>
    cases h
    exact Or.inl ⟨rfl, fun c hc => absurd hc List.not_mem_nil⟩
  | cons c new ih =>
    obtain ⟨_, db₁, hc, h⟩ := Comp.bind_eq_ok.mp h
    have hone : forceEvents env r [c] db = (.ok PUnit.unit, db₁) := by
      show (_ >>= fun _ => pure PUnit.unit : RoomComp PUnit) db = _
      rw [Comp.bind_ok hc]
      rfl
    have hwalk : Comp.Keeps (Carries env own r (db.roomidShortroomid r) (ofRoom r)) (forceEvents env r [c]) :=
      forceEvents_carries [c]
    have hcar := (carries_run hwalk hone rfl hr).1
    have hsees : Comp.Keeps Sees (forceEvents env r [c]) := forceEvents_sees [c]
    have hsees := hsees db
    rw [hone] at hsees
    have hmoves : ∀ c b, Moves env own db₁ u c b ↔ Moves env own db u c b :=
      moves_congr hsees hcar.ignored u
    rcases ih hcar.ready h with ⟨hsame, hnone⟩ | ⟨c', hc', hm⟩
    · rcases forceEntry_seat hr hone u with ⟨hsame', hnone'⟩ | hm
      · refine Or.inl ⟨hsame.trans hsame', fun x hx b => ?_⟩
        rcases List.mem_cons.mp hx with rfl | hx
        · exact hnone' b
        · exact fun hb => hnone x hx b ((hmoves x b).mpr hb)
      · rw [hsame]
        exact Or.inr ⟨c, List.mem_cons_self, hm⟩
    · exact Or.inr ⟨c', List.mem_cons_of_mem _ hc', (hmoves c' _).mp hm⟩

/-! ## a state that is saved and forced -/

/-- the entries that move a seat are those of the user's member event -/
theorem moves_entry (hi : Intact env.digest db.state) (hS : Made db.state S)
    (hplaced : Placed own db.timeline (Entry db.state S)) (hc : c ∈ S) (hm : Moves env own db u c b) :
    ∃ k n e, c = .of k n ∧
      db.state.statekeyShortstatekey (.roomMember, env.ids.userIdStr u) = some k ∧
      db.state.eventidShorteventid e = some n ∧ seat env db (own e) u = some b := by
  obtain ⟨k, e, hparse, -, hseat⟩ := hm
  obtain ⟨key, k', e', n, rfl, hk, hn, hparse'⟩ := parse_made hi.maps hS hc
  rw [hparse] at hparse'
  cases hparse'
  have hown := (hplaced.key key e ⟨k, n, hk, hn, hc⟩).symm.trans (seat_some hseat).1
  rw [Option.some_inj] at hown
  rw [hown] at hk
  exact ⟨k, n, e, rfl, hk, hn, hseat⟩

/-- behind the walk over the new entries the seats are those that the new state gives, and those that it does not
decide about -/
theorem forceEvents_follow (hr : Ready env own db) (hS' : Made db.state S') (hcur : IsCurrent db.state r S)
    (hplaced : Placed own db.timeline (Entry db.state S'))
    (hseats : ∀ u, db.members.isJoined u r = true ↔ Gives own (Entry db.state S) (env.ids.userIdStr u))
    (h : forceEvents env r (env.ord.enum ( S' \ S)) db = (.ok x, db')) (u : UserId) :
    db'.members.isJoined u r = true ↔ Reseated env own db r (Entry db.state S') u := by
  have hi := hr.intact
  have hmem : ∀ c, c ∈ env.ord.enum ( S' \ S) ↔ c ∈ S' ∧ c ∉ S := fun c => by rw [env.ord.mem, Finset.mem_sdiff]
  by_cases hnew : ∃ e, Entry db.state S' (.roomMember, env.ids.userIdStr u) e
  · obtain ⟨e, he⟩ := hnew
    have hgives : ∀ {T : Finset CompressedStateEvent}, Made db.state T →
        Entry db.state T (.roomMember, env.ids.userIdStr u) e →
        (Gives own (Entry db.state T) (env.ids.userIdStr u) ↔ (own e).membership = some .join) := by
      intro T hT he
      constructor
      · rintro ⟨e', he', hm⟩
        rw [hi.maps.entry_unique hT he he']
        exact hm
      · exact fun hm => ⟨e, he, hm⟩
    have hdecided : Decided env own db (Entry db.state S') u ↔ seat env db (own e) u ≠ none := by
      constructor
      · rintro ⟨e', he', hne⟩
        rw [hi.maps.entry_unique hS' he he']
        exact hne
      · exact fun hne => ⟨e, he, hne⟩
    unfold Reseated
    rw [hgives hS' he, hdecided, not_not]
    rcases forceEvents_seat hr h u with ⟨hsame, hnone⟩ | ⟨c, hc, hm⟩
    · rw [hsame]
      by_cases hold : Entry db.state S (.roomMember, env.ids.userIdStr u) e
      · rw [hseats, hgives (hcur.made hi) hold, or_iff_left_of_imp And.left]
      · -- a new entry that moves nothing
        obtain ⟨k, n, hk, hn, hc⟩ := he
        have hcn : .of k n ∈ env.ord.enum ( S' \ S) := (hmem _).mpr ⟨hc, fun hcS => hold ⟨k, n, hk, hn, hcS⟩⟩
        have hkey := hplaced.key _ e ⟨k, n, hk, hn, hc⟩
        have hseat : seat env db (own e) u = none := by
          cases hs : seat env db (own e) u with
          | none => rfl
          | some b =>
            refine absurd ?_ (hnone _ hcn b)
            have hparse := parse_of (hi.maps.word (hi.maps.numbers.keys.counted _ k hk).2)
              (hi.maps.word (hi.maps.numbers.events.counted e n hn).2) ((hi.maps.numbers.events.iff e n).mp hn)
            exact ⟨k, e, hparse, hplaced.stored _ e ⟨k, n, hk, hn, hc⟩, hs⟩
        have hm : (own e).membership ≠ some .join := fun hm => by
          rw [seat_join hkey hm] at hseat
          cases hseat
        rw [or_iff_right hm, and_iff_left hseat]
    · obtain ⟨hc', -⟩ := (hmem c).mp hc
      obtain ⟨k, n, e', rfl, hk, hn, hseat⟩ := moves_entry hi hS' hplaced hc' hm
      obtain rfl := hi.maps.entry_unique hS' he ⟨k, n, hk, hn, hc'⟩
      rw [hseat, (seat_some hseat).2]
      exact (or_iff_left fun hn => nomatch hn.2).symm
  · have hno : ¬ Gives own (Entry db.state S') (env.ids.userIdStr u) := fun ⟨e, he, _⟩ => hnew ⟨e, he⟩
    have hundecided : ¬ Decided env own db (Entry db.state S') u := fun ⟨e, he, _⟩ => hnew ⟨e, he⟩
    unfold Reseated
    rw [or_iff_right hno, and_iff_left hundecided]
    rcases forceEvents_seat hr h u with ⟨hsame, -⟩ | ⟨c, hc, hm⟩
    · rw [hsame]
    · obtain ⟨k, n, e, rfl, hk, hn, -⟩ := moves_entry hi hS' hplaced ((hmem c).mp hc).1 hm
      exact absurd ⟨e, k, n, hk, hn, ((hmem _).mp hc).1⟩ hnew

/-- the part that `derive_state` and a join have in common -/
def saveAndForce (env : Env) (r : RoomId) (S' : Finset CompressedStateEvent) : RoomComp Unit := do
  let (shortstatehash, new, _) ← onState (StateDb.saveState env.digest env.ord r S')
  forceState env r shortstatehash new

/-- the other rooms stay as they were -/
structure Apart (env : Env) (own : EventId → Gist) (r : RoomId) (db db' : Db) : Prop extends Kept env own db db' where
  pointers : ∀ q, q ≠ r → db'.state.roomidShortstatehash q = db.state.roomidShortstatehash q
  seats : ∀ u q, q ≠ r → db'.members.isJoined u q = db.members.isJoined u q
  ignored : SameIgnored db.accounts db'.accounts

theorem Apart.trans {x y z : Db} (h : Apart env own r x y) (h' : Apart env own r y z) : Apart env own r x z where
  toKept := h.toKept.trans h'.toKept
  pointers q hq := (h'.pointers q hq).trans (h.pointers q hq)
  seats u q hq := (h'.seats u q hq).trans (h.seats u q hq)
  ignored u := (h'.ignored u).trans (h.ignored u)

theorem Carried.apart (h : Carried env own may db db') (hmay : ∀ u q, may u q → q = r) : Apart env own r db db' :=
  ⟨h.toKept, fun q _ => congrFun h.pointers q, fun u q hq => h.seats u q fun hm => hq (hmay u q hm), h.ignored⟩

theorem Carried.still (h : Carried env own noSeat db db') : Apart env own r db db' := h.apart fun _ _ => False.elim

/-- a room that is not pointed elsewhere has the state that it had -/
theorem Kept.current_iff (hr : Ready env own db) (h : Kept env own db db')
    (hp : db'.state.roomidShortstatehash q = db.state.roomidShortstatehash q) (key : EventType × String)
    (e : EventId) : Stands db'.state q key e ↔ Stands db.state q key e := by
  obtain ⟨S, hS⟩ := StateDb.exists_isCurrent hr.intact.core q
  have hS' : IsCurrent db'.state q S :=
    ⟨fun hnone => hS.empty (by rw [← hp, hnone]), fun n hn => (hS.full n (by rw [← hp, hn])).extends h.rows⟩
  rw [hS.current_iff, hS'.current_iff]
  exact hr.intact.maps.entry_grow h.ready.intact.maps h.numbers (hS.made hr.intact) key e

theorem Kept.seated (hr : Ready env own db) (h : Kept env own db db')
    (hp : db'.state.roomidShortstatehash q = db.state.roomidShortstatehash q)
    (hseats : ∀ u, db'.members.isJoined u q = db.members.isJoined u q) (hs : Seated env own db q) :
    Seated env own db' q := by
  have hcurrent := h.current_iff hr hp
  refine ⟨hs.placed.congr h.stays fun key e => (hcurrent key e).mp, fun u => ?_⟩
  rw [hseats, gives_congr hcurrent]
  exact hs.seats u

theorem Carried.seated (h : Carried env own noSeat db db') (hr : Ready env own db) (hs : Seated env own db r) :
    Seated env own db' r :=
  h.toKept.seated hr (congrFun h.pointers r) (fun u => h.seats u r not_false) hs

/-- what a forced state leaves: the room has it -/
structure Forced (env : Env) (own : EventId → Gist) (r : RoomId) (A : Entries) (db db' : Db) : Prop
    extends Apart env own r db db' where
  current : ∀ key e, Stands db'.state r key e ↔ A key e

theorem Forced.congr {A B : Entries} (h : Forced env own r A db db') (hab : ∀ key e, A key e ↔ B key e) :
    Forced env own r B db db' :=
  ⟨h.toApart, fun key e => (h.current key e).trans (hab key e)⟩

/-- the room is pointed to a state behind calls that carried on -/
theorem setRoomState_forced {db₂ : Db} (hc : Carried env own may db db₂) (hmay : ∀ u q, may u q → q = r)
    {n : Nat} (hfull : FullOf db₂.state.shortstatehashStatediff n S')
    (hs : db'.state = (StateDb.setRoomState r n db₂.state).2)
    (hw : db'.roomidShortroomid = db₂.roomidShortroomid) (ht : db'.timeline = db₂.timeline)
    (hm : db'.members = db₂.members) (ha : db'.accounts = db₂.accounts) :
    Forced env own r (Entry db₂.state S') db db' := by
  have hapart := hc.apart hmay
  obtain ⟨hi', hcur, -⟩ := StateDb.setRoomState_current hc.ready.intact r hfull
  refine ⟨⟨⟨⟨?_, ?_, ?_⟩, ?_, ?_, ?_⟩, fun q hq => ?_, fun u q hq => ?_, ?_⟩, fun key e => ?_⟩
  · refine hc.ready.sound.congr ?_ ?_ hw (by rw [ht])
    · rw [hs]
      exact Nat.le_refl _
    · rw [hs]
      exact hc.ready.sound.counter_lt
  · rw [ht]
    exact hc.ready.told
  · rw [hs]
    exact hi'
  · rw [ht]
    exact hc.stays
  · rw [hs]
    exact hc.rows
  · rw [hs]
    exact .trans _ _ _ hc.numbers (.of_eq (Nat.le_refl _) rfl rfl rfl rfl)
  · rw [hs, ← hapart.pointers q hq]
    exact Function.update_of_ne hq _ _
  · rw [hm]
    exact hapart.seats u q hq
  · rw [ha]
    exact hc.ignored
  · rw [hs]
    exact hcur.current_iff key e

theorem saveAndForce_forced (hcf : ∀ lists, StateDb.CollisionFree env.digest lists) (hr : Ready env own db)
    (hS' : Made db.state S') :
    Comp.Ends (saveAndForce env r S') db
      (fun _ db' => Forced env own r (Entry db.state S') db db' ∧
        (Placed own db.timeline (Entry db.state S') → Seated env own db r →
          ∀ u, db'.members.isJoined u r = true ↔ Reseated env own db r (Entry db.state S') u))
      (fun _ db' => Apart env own r db db') := by
  have hi := hr.intact
  have hsave : ∀ {o db₁}, onState (StateDb.saveState env.digest env.ord r S') db = (o, db₁) →
      Carried env own noSeat db db₁ := fun h =>
    onState_carried (StateDb.saveState_later _ _ _ _ _) (StateDb.saveState_widens hcf env.ord r hS') h hr
  refine Comp.Ends.step (fun res db₁ hrun => ?_) fun _ _ hrun => (hsave hrun).still
  have hc₁ := hsave hrun
  obtain ⟨n, new, removed⟩ := res
  obtain ⟨hfull, hadded⟩ := StateDb.saveState_current hcf hi hS' (onState_ok hrun)
  obtain ⟨S, hS⟩ := StateDb.exists_isCurrent hi.core r
  obtain rfl := hadded S hS
  refine carried_step (fun _ _ => forceEvents_carries _) hc₁.ready (fun x db₂ hforce hc₂ => ?_) fun _ _ hc₂ =>
    ((hc₁.mono fun _ _ => False.elim).trans hc₂).apart fun _ _ hq => hq
  have hall := (hc₁.mono fun _ _ => False.elim).trans hc₂
  have hgrow : ∀ {T}, Made db.state T → ∀ key e, Entry db₁.state T key e ↔ Entry db.state T key e := fun hT =>
    hi.maps.entry_grow hc₁.ready.intact.maps hc₁.numbers hT
  refine Comp.Ends.of_ok rfl ⟨Forced.congr (setRoomState_forced hall (fun _ _ hq => hq) (hfull.extends hc₂.rows)
    rfl rfl rfl rfl rfl) (hi.maps.entry_grow hc₂.ready.intact.maps hall.numbers hS'), fun hplaced hseated u => ?_⟩
  have hfollow := forceEvents_follow hc₁.ready (hS'.mono hc₁.numbers) (hc₁.wider.isCurrent hS)
    (hplaced.congr (fun e he => hc₁.stays e he) fun key e => (hgrow hS' key e).mp) (fun u => ?_) hforce u
  · rw [reseated_congr hc₁.ignored (hc₁.seats u r not_false) (hgrow hS')] at hfollow
    exact hfollow
  · rw [gives_congr (hgrow (hS.made hi)), ← gives_congr (hS.current_iff · ·), hc₁.seats u r not_false]
    exact hseated.seats u

end Db
end Grapevine
