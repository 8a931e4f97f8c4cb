import Grapevine.Events.Extremities
import Grapevine.Events.JoinState
import Grapevine.Events.ResolvedState

/-!
# Calls that the seats follow

Each call on a room leaves the other rooms as they were.  If it gets through and the seats of its room were those
that the room's state gives, they are behind it if and only if the call meets a condition of its own:

* `buildAndAppendPdu_seated`   `Decides`: a local event gives or takes the seat of its user, if this has one;
* `joinOverFederation_seated`   `FirmAnswer`: the state of the answer decides about every seat that is taken, apart
  from those that the join event decides about;
* `upgradeOutlierToTimelinePdu_seated`   `FirmState`: the resolved state decides about every seat that is taken,
  and an event that is let in is at one with it.
-/

namespace Grapevine
open Kv

namespace Db
open StateDb (Made Entry IsCurrent Stands NumbersGrow Intact FullOf Compressed)

variable {env : Env} {fed : Fed} {own : EventId → Gist} {db db' : Db} {r : RoomId}
variable {version : RoomVersionId} {S : Finset CompressedStateEvent} {state : Tree Nat EventId}
  {j : PduJson} {createEvent pdu : PduEvent} {answer : SendJoinAnswer} {leaves : List EventId}
  {fuel n : Nat} {s : Option Nat} {t : TimelineTables} {origin : ServerName} {a : RoomId} {db₁ : Db}
  {softFail : Bool} {map : StateMap} {soft : Prop} {g : Gist} {A : Entries} {e : EventId}

/-! ## an event under its key -/

/-- a state with an event put under its key -/
def Put (g : Gist) (e : EventId) (A : Entries) : Entries := fun key e' => if g.key = some key then e' = e else A key e'

/-- the event gives or takes a seat, or its user has none -/
def Decides (env : Env) (db : Db) (r : RoomId) (g : Gist) : Prop :=
  ∀ u, g.key = some (.roomMember, env.ids.userIdStr u) → db.members.isJoined u r = true → seat env db g u ≠ none

section
variable {g : Gist} {e : EventId} {A : Entries}

theorem gives_put (hown : own e = g) (stateKey : String) : Gives own (Put g e A) stateKey ↔
    if g.key = some (.roomMember, stateKey) then g.membership = some .join else Gives own A stateKey := by
  unfold Gives Put
  by_cases hkey : g.key = some (.roomMember, stateKey)
  · simp only [if_pos hkey, exists_eq_left, hown]
  · simp only [if_neg hkey]

theorem Placed.put (h : Placed own t A) (hown : own e = g) (he : HasPdu t e) :
    Placed own t (Put g e A) := by
  constructor
  · intro key e' hput
    unfold Put at hput
    split at hput
    · next hkey => rw [hput, hown, hkey]
    · exact h.key key e' hput
  · intro stateKey e' hput
    unfold Put at hput
    split at hput
    · rw [hput]
      exact he
    · exact h.stored stateKey e' hput

/-- the seats behind an append are those that the state gives -/
def Agrees (env : Env) (own : EventId → Gist) (db : Db) (r : RoomId) (g : Gist) (B : Entries) : Prop :=
  ∀ u, (seat env db g u).getD (db.members.isJoined u r) = true ↔ Gives own B (env.ids.userIdStr u)

/-- an event that is no state decides about no seat -/
theorem seat_none (h : pdu.stateKey = none) (u : UserId) : seat env db pdu.gist u = none := by
  cases hs : seat env db pdu.gist u with
  | none => rfl
  | some b =>
    rw [(gist_key.mp (seat_some hs).1).2] at h
    cases h

/-- an event that is put into the state is at one with it, unless it decides nothing about its user -/
theorem agrees_put (hown : own e = g) : Agrees env own db r g (Put g e A) ↔ ∀ u, seat env db g u = none →
    (db.members.isJoined u r = true ↔
      g.key ≠ some (.roomMember, env.ids.userIdStr u) ∧ Gives own A (env.ids.userIdStr u)) := by
  refine forall_congr' fun u => ?_
  rw [gives_put hown]
  cases hs : seat env db g u with
  | some b =>
    obtain ⟨hkey, hb⟩ := seat_some hs
    rw [if_pos hkey]
    exact iff_of_true hb nofun
  | none =>
    rw [imp_iff_right rfl]
    by_cases hkey : g.key = some (.roomMember, env.ids.userIdStr u)
    · have hm : g.membership ≠ some .join := fun hm => by
        rw [seat_join hkey hm] at hs
        cases hs
      rw [if_pos hkey]
      exact iff_congr Iff.rfl (iff_of_false hm fun h => h.1 hkey)
    · rw [if_neg hkey]
      exact iff_congr Iff.rfl (iff_and_self.mpr fun _ => hkey)

/-- beside a state that the seats follow -/
theorem agrees_put_decides (hown : own e = g)
    (hseats : ∀ u, db.members.isJoined u r = true ↔ Gives own A (env.ids.userIdStr u)) :
    Agrees env own db r g (Put g e A) ↔ Decides env db r g := by
  rw [agrees_put hown]
  refine forall_congr' fun u => ?_
  rw [← hseats u]
  constructor
  · exact fun h hkey hj hs => ((h hs).mp hj).1 hkey
  · intro h hs
    exact ⟨fun hj => ⟨fun hkey => h hkey hj hs, hj⟩, And.right⟩

end

theorem agrees_congr {B : Entries} (hi : SameIgnored db.accounts db'.accounts)
    (hseats : ∀ u, db'.members.isJoined u r = db.members.isJoined u r) (hab : ∀ key e, B key e ↔ A key e) :
    Agrees env own db' r g B ↔ Agrees env own db r g A := by
  refine forall_congr' fun u => ?_
  rw [seat_congr hi, hseats, gives_congr hab]

/-! ## a local event -/

theorem appendToState_carries (pdu : PduEvent) :
    Comp.Keeps (Carries env own a s noSeat) (onState (StateDb.appendToState env.ord pdu)) :=
  onState_carries (StateDb.appendToState_later env.ord pdu) (StateDb.appendToState_widens env.ord pdu)

theorem prepare_carries (pdu : PduEvent) :
    Comp.Keeps (Carries env own a s noSeat) (prepare env pdu) := by
  have hf : Fetching (Carries env own a s noSeat) := carries_fetching
  exact hf.bind (fun db => hf.short db pdu.eventId) fun _ => hf.bind (hf.read fun _ => rfl) fun _ =>
    hf.bind (hf.read fun _ => rfl) fun _ => appendToState_carries pdu

/-- the state behind an event: the room's current one with the event under its key -/
theorem appendToState_put (hr : Ready env own db)
    (h : onState (StateDb.appendToState env.ord pdu) db = (.ok n, db')) :
    ∃ S', FullOf db'.state.shortstatehashStatediff n S' ∧
      ∀ key e, Entry db'.state S' key e ↔ Put pdu.gist pdu.eventId (Stands db.state pdu.roomId) key e := by
  have hrun := onState_ok h
  have hwider : StateDb.Wider env.digest db.state db'.state := by
    have hkeeps : Comp.Keeps (StateDb.Widens env.digest) (StateDb.appendToState env.ord pdu) :=
      StateDb.appendToState_widens env.ord pdu
    have hw := hkeeps db.state hr.intact
    rw [hrun] at hw
    exact hw
  cases hsk : pdu.stateKey with
  | none =>
    obtain ⟨S, hS⟩ := StateDb.exists_isCurrent hr.intact.core pdu.roomId
    refine ⟨S, (hS.full n (StateDb.appendToState_same hsk hrun)).extends hwider.rows, fun key e => ?_⟩
    have hkey : pdu.gist.key ≠ some key := fun hkey => by
      rw [(gist_key.mp (show pdu.gist.key = some (key.1, key.2) from hkey)).2] at hsk
      cases hsk
    unfold Put
    rw [if_neg hkey, hS.current_iff]
    exact hr.intact.maps.entry_grow hwider.intact.maps hwider.numbers (hS.made hr.intact) key e
  | some stateKey =>
    obtain ⟨S', hfull, hentry⟩ := StateDb.appendToState_current hr.intact hsk hrun
    refine ⟨S', hfull, fun key e => ?_⟩
    have hkey : pdu.gist.key = some key ↔ key = (pdu.kind, stateKey) := by
      rw [show (key = (pdu.kind, stateKey)) ↔ (pdu.kind = key.1 ∧ stateKey = key.2) from by
        rw [Prod.ext_iff, eq_comm (a := key.1), eq_comm (a := key.2)]]
      rw [show pdu.gist.key = some key ↔ pdu.gist.key = some (key.1, key.2) from Iff.rfl, gist_key, hsk,
        Option.some_inj]
    rw [hentry]
    unfold Put
    by_cases hk : key = (pdu.kind, stateKey)
    · rw [if_pos hk, if_pos (hkey.mpr hk)]
    · rw [if_neg hk, if_neg (fun h => hk (hkey.mp h))]

theorem prepare_put (hr : Ready env own db) (h : prepare env pdu db = (.ok n, db')) :
    ∃ S', FullOf db'.state.shortstatehashStatediff n S' ∧
      ∀ key e, Entry db'.state S' key e ↔ Put pdu.gist pdu.eventId (Stands db.state pdu.roomId) key e := by
  obtain ⟨k, db₁, hshort, h⟩ := Comp.bind_eq_ok.mp h
  obtain ⟨_, h⟩ := Comp.reads_eq_ok h
  obtain ⟨-, h⟩ := h
  obtain ⟨_, h⟩ := Comp.reads_eq_ok h
  obtain ⟨-, h⟩ := h
  have hc : Carried env own noSeat db db₁ :=
    carried_run (fun _ _ db => carries_fetching.short db pdu.eventId) hshort hr
  obtain ⟨S', hfull, hentry⟩ := appendToState_put hc.ready h
  refine ⟨S', hfull, fun key e => ?_⟩
  rw [hentry]
  unfold Put
  split
  · rfl
  · exact hc.current_iff hr pdu.roomId key e

section
variable (henv : KeepsMembership env)
include henv

/-- an event is appended, and the room is pointed to a state that has it under its key -/
theorem append_seated (hj : j.pdu.gist = own j.pdu.eventId) {db₂ : Db} (hc₁ : Carried env own noSeat db db₁)
    {id : Bytes} (happ : appendPdu env j leaves db₁ = (.ok id, db₂)) {S' : Finset CompressedStateEvent}
    (hfull : FullOf db₁.state.shortstatehashStatediff n S')
    (hentry : ∀ key e, Entry db₁.state S' key e ↔ Put j.pdu.gist j.pdu.eventId A key e)
    (hs : db'.state = (StateDb.setRoomState j.pdu.roomId n db₂.state).2)
    (hw : db'.roomidShortroomid = db₂.roomidShortroomid) (ht : db'.timeline = db₂.timeline)
    (hm : db'.members = db₂.members) (ha : db'.accounts = db₂.accounts) :
    Apart env own j.pdu.roomId db db' ∧ (Placed own db.timeline A → FollowsIff env own db' j.pdu.roomId
      (Agrees env own db j.pdu.roomId j.pdu.gist (Put j.pdu.gist j.pdu.eventId A))) := by
  have hc := appendPdu_carried henv hj happ hc₁.ready
  obtain ⟨hstored, hseat⟩ := appendPdu_seat henv hj hc₁.ready happ
  have hi := hc₁.ready.intact
  have hforced := setRoomState_forced hc (fun _ _ hmay => hmay.2) (hfull.extends hc.rows) hs hw ht hm ha
  have hcurrent : ∀ key e, Stands db'.state j.pdu.roomId key e ↔ Put j.pdu.gist j.pdu.eventId A key e := by
    intro key e
    rw [hforced.current, hi.maps.entry_grow hc.ready.intact.maps hc.numbers (hi.maps.made n S' hfull), hentry]
  have hall : Apart env own j.pdu.roomId db db' := hc₁.still.trans hforced.toApart
  refine ⟨hall, fun hplaced => ?_⟩
  have hplaced' : Placed own db'.timeline (Stands db'.state j.pdu.roomId) := by
    refine ((hplaced.congr hall.stays fun _ _ he => he).put hj.symm ?_).congr (fun _ he => he) fun key e =>
      (hcurrent key e).mp
    rw [ht]
    exact hstored
  refine ⟨hplaced', (seated_iff hplaced').trans (forall_congr' fun u => ?_)⟩
  rw [gives_congr hcurrent, hm, hseat, seat_congr hc₁.ignored, hc₁.seats u j.pdu.roomId not_false]

/-- a local event -/
theorem buildAndAppendPdu_seated (hj : j.pdu.gist = own j.pdu.eventId) (hr : Ready env own db) :
    Comp.Ends (buildAndAppendPdu env j) db
      (fun _ db' => Apart env own j.pdu.roomId db db' ∧ (Seated env own db j.pdu.roomId →
        FollowsIff env own db' j.pdu.roomId (Decides env db j.pdu.roomId j.pdu.gist)))
      (fun _ db' => Apart env own j.pdu.roomId db db') := by
  unfold buildAndAppendPdu
  refine carried_step (fun _ _ => prepare_carries j.pdu) hr (fun n db₁ hrun hc => ?_) fun _ _ hc => hc.still
  refine Comp.Ends.step (fun id db₂ happ => Comp.Ends.of_ok rfl ?_) fun _ db₂ happ =>
    hc.still.trans ((appendPdu_carried henv hj happ hc.ready).apart fun _ _ hmay => hmay.2)
  obtain ⟨S', hfull, hentry⟩ := prepare_put hr hrun
  refine And.imp_right ?_ (append_seated henv hj hc happ hfull hentry rfl rfl rfl rfl rfl)
  exact fun hiff hs => (hiff hs.placed).congr (agrees_put_decides hj.symm hs.seats)

end

/-! ## a join over federation -/

/-- the state that the events make: the last one of each key -/
def stateOf (js : List PduJson) : Entries := fun key e => ∃ j, lastWith keyOf key js = some j ∧ j.pdu.eventId = e

theorem put_congr {B : Entries} (hab : ∀ key e, A key e ↔ B key e) (key : EventType × String) (e' : EventId) :
    Put g e A key e' ↔ Put g e B key e' := by
  unfold Put
  split
  · exact Iff.rfl
  · exact hab key e'

theorem getOrCreateShortroomid_carried (hr : Ready env own db) (q : RoomId) :
    Carried env own noSeat db (getOrCreateShortroomid q db).2 := by
  have hsound := getOrCreateShortroomid_sound hr.sound q
  unfold getOrCreateShortroomid at hsound ⊢
  rw [Comp.bind_ok (Comp.get_run db)] at hsound ⊢
  cases hw : db.roomidShortroomid q with
  | some s => exact Carried.refl hr
  | none =>
    rw [hw] at hsound
    change Sound ((nextCount >>= _) db).2 at hsound
    show Carried env own noSeat db ((nextCount >>= _) db).2
    by_cases hlt : db.state.counter + 1 < 2^64
    · rw [Comp.bind_ok (nextCount_run hlt)] at hsound ⊢
      have hb : Blind (Carries env own q (db.roomidShortroomid q) noSeat) := carries_blind
      have hcount := (hb.count db hlt rfl hr).1
      exact ⟨⟨⟨hsound, hr.told, hcount.ready.intact⟩, hcount.stays, hcount.rows, hcount.numbers⟩, rfl,
        fun _ _ _ => rfl, fun _ => rfl⟩
    · rw [Comp.bind_error (nextCount_overflow hlt)]
      exact Carried.refl hr

theorem addPduOutlier_keeps (hj : j.pdu.gist = own j.pdu.eventId) :
    Comp.Keeps (Carries env own a s noSeat) (addPduOutlier j) := fun db => addPduOutlier_carries hj db

/-- the state of the answer, before it is saved -/
def joinState (fed : Fed) (answer : SendJoinAnswer) : RoomComp (Finset CompressedStateEvent) := do
  let state ← collectJoin answer
  Comp.reads (fun db => db.checkJoinAuth fed answer.version answer.joinEvent.pdu state)
  compressState (fed.entries state)

theorem prepareJoin_eq (r : RoomId) (answer : SendJoinAnswer) : prepareJoin env fed r answer = (do
    let compressed ← joinState fed answer
    saveAndForce env r compressed
    updateJoinedCount env r
    onState (StateDb.appendToState env.ord answer.joinEvent.pdu)) := by
  unfold prepareJoin joinState collectJoin saveAndForce
  simp only [Comp.bind_assoc]
  rfl

/-- the events of the answer come under their own ids -/
structure OwnAnswer (own : EventId → Gist) (answer : SendJoinAnswer) : Prop where
  joinEvent : answer.joinEvent.pdu.gist = own answer.joinEvent.pdu.eventId
  state : ∀ j, some j ∈ answer.state → j.pdu.gist = own j.pdu.eventId
  authChain : ∀ j ∈ answer.authChain, j.pdu.gist = own j.pdu.eventId

/-- the state of the answer decides about the seats that are taken, and gives none to a user whom the join event
is about; but what the join event decides about, it decides -/
def FirmAnswer (env : Env) (own : EventId → Gist) (db : Db) (r : RoomId) (answer : SendJoinAnswer) : Prop :=
  ∀ u, seat env db answer.joinEvent.pdu.gist u = none →
    (db.members.isJoined u r = true → Decided env own db (stateOf answer.state.reduceOption) u) ∧
    (answer.joinEvent.pdu.gist.key = some (.roomMember, env.ids.userIdStr u) →
      ¬ Gives own (stateOf answer.state.reduceOption) (env.ids.userIdStr u))

theorem collectJoin_carries (h : OwnAnswer own answer) :
    Comp.Keeps (Carries env own a s noSeat) (collectJoin answer) := by
  have hf : Fetching (Carries env own a s noSeat) := carries_fetching
  exact hf.bind (hf.read fun _ => rfl) fun _ =>
    hf.bind (addJoinState_keeps hf (fun j hj => addPduOutlier_keeps (h.state j hj)) _) fun _ =>
      hf.bind (Comp.Keeps.forM hf.refl hf.trans _ fun j hj => addPduOutlier_keeps (h.authChain j hj)) fun _ => hf.pure _

/-- the events of the answer make the state, and they are stored -/
theorem collectJoin_state (h : OwnAnswer own answer) (hr : Ready env own db) {t : Tree Nat EventId}
    (hrun : collectJoin answer db = (.ok t, db')) :
    Carried env own noSeat db db' ∧ Registered db'.state t ∧ Placed own db'.timeline (stateOf answer.state.reduceOption) ∧
      ∀ key e, Under db'.state t key e ↔ stateOf answer.state.reduceOption key e := by
  have hc : Carried env own noSeat db db' := carried_run (fun _ _ => collectJoin_carries h) hrun hr
  obtain ⟨js, hjs, hcollected, rfl, hkeys⟩ := collectJoin_collected hrun
  have hreduce : answer.state.reduceOption = js := by
    rw [hjs, List.reduceOption, List.filterMap_map]
    exact List.filterMap_some
  have hlast : ∀ {key k}, db'.state.statekeyShortstatekey key = some k →
      lastWith (shortOf db'.state.statekeyShortstatekey) k js = lastWith keyOf key js :=
    lastWith_shortOf fun _ _ _ ha hb => hc.ready.intact.maps.numbers.keys.injective ha hb
  rw [hreduce]
  refine ⟨hc, fun k e he => ?_, ⟨?_, ?_⟩, fun key e => ?_⟩
  · rw [placeEvents_get] at he
    obtain ⟨j, hj, -⟩ := Option.map_eq_some_iff.mp he
    obtain ⟨key, -, hk⟩ := Option.bind_eq_some_iff.mp (lastWith_mem hj).2
    exact ⟨key, hk⟩
  · rintro key e ⟨j, hj, rfl⟩
    obtain ⟨hmem, hkey⟩ := lastWith_mem hj
    rw [← h.state j (by rw [hjs]; exact List.mem_map_of_mem hmem)]
    exact hkey
  · rintro stateKey e ⟨j, hj, rfl⟩
    obtain ⟨l, hl⟩ := lastWith_isSome (f := fun j => some j.pdu.eventId)
      (List.mem_append_left answer.authChain (lastWith_mem hj).1) rfl
    right
    rw [hcollected.outliers, placeOutliers_apply, hl]
    exact nofun
  · unfold Under
    simp only [placeEvents_get]
    constructor
    · rintro ⟨k, hk, he⟩
      rw [hlast hk] at he
      exact Option.map_eq_some_iff.mp he
    · rintro ⟨j, hj, he⟩
      obtain ⟨k, hk⟩ := Option.ne_none_iff_exists'.mp (hkeys j (lastWith_mem hj).1 key (lastWith_mem hj).2)
      exact ⟨k, hk, by rw [hlast hk, hj, Option.map_some, he]⟩

theorem joinState_carries (h : OwnAnswer own answer) :
    Comp.Keeps (Carries env own a s noSeat) (joinState fed answer) := by
  have hf : Fetching (Carries env own a s noSeat) := carries_fetching
  exact hf.bind (collectJoin_carries h) fun _ => hf.bind (hf.read fun _ => rfl) fun _ => compressState_fetching hf _

theorem joinState_state (h : OwnAnswer own answer) (hr : Ready env own db)
    (hrun : joinState fed answer db = (.ok S, db')) :
    Made db'.state S ∧ Placed own db'.timeline (stateOf answer.state.reduceOption) ∧
      ∀ key e, Entry db'.state S key e ↔ stateOf answer.state.reduceOption key e := by
  obtain ⟨state, db₁, hcollect, hrun⟩ := Comp.bind_eq_ok.mp hrun
  obtain ⟨_, db₂, hcheck, hrun⟩ := Comp.bind_eq_ok.mp hrun
  obtain ⟨-, rfl⟩ := Prod.mk.inj hcheck
  obtain ⟨hc, hreg, hplaced, hunder⟩ := collectJoin_state h hr hcollect
  have hc' : Carried env own noSeat db₁ db' :=
    carried_run (fun _ _ => compressState_fetching carries_fetching _) hrun hc.ready
  have hcomp := compressState_under hc.ready.intact.maps.numbers hreg hrun
  have hm := hc'.ready.intact.maps
  refine ⟨hcomp.made hm fun _ _ _ => under_unique, hplaced.congr hc'.stays fun _ _ he => he, fun key e => ?_⟩
  rw [hcomp.entry_iff hm, under_grow hm hc'.numbers hreg, hunder]

theorem reseated_put_iff (h : Placed own t A) (g : Gist) (u : UserId) :
    (Reseated env own db r A u ↔
      g.key ≠ some (.roomMember, env.ids.userIdStr u) ∧ Gives own A (env.ids.userIdStr u)) ↔
    (db.members.isJoined u r = true → Decided env own db A u) ∧
      (g.key = some (.roomMember, env.ids.userIdStr u) → ¬ Gives own A (env.ids.userIdStr u)) := by
  by_cases hkey : g.key = some (.roomMember, env.ids.userIdStr u)
  · have hright : ¬ (g.key ≠ some (.roomMember, env.ids.userIdStr u) ∧ Gives own A (env.ids.userIdStr u)) :=
      fun h => h.1 hkey
    rw [iff_false_right hright, imp_iff_right hkey, Reseated, not_or, not_and, not_not]
    exact and_comm
  · rw [and_iff_right hkey, reseated_iff h, and_iff_left fun hk => absurd hk hkey]

/-- what comes behind the forced state: its room is pointed to the state behind the join event -/
theorem joinEvent_seated (henv : KeepsMembership env) (hj : j.pdu.gist = own j.pdu.eventId)
    (hr : Ready env own db) : Comp.Ends (do
      updateJoinedCount env r
      let n ← onState (StateDb.appendToState env.ord j.pdu)
      if j.pdu.roomId ≠ r then Comp.throw (.panic "Token for incorrect room passed")
      else
        let _ ← appendPdu env j [j.pdu.eventId]
        onState (StateDb.setRoomState r n) : RoomComp Unit) db
      (fun _ db' => Apart env own r db db' ∧ (Placed own db.timeline (Stands db.state r) →
        FollowsIff env own db' r (Agrees env own db r j.pdu.gist (Put j.pdu.gist j.pdu.eventId (Stands db.state r)))))
      (fun _ db' => Apart env own r db db') := by
  refine carried_step (fun _ _ => updateJoinedCount_keeps carries_blind env r) hr (fun _ db₁ _ hc₁ => ?_)
    fun _ _ hc => hc.still
  refine carried_step (fun _ _ => appendToState_carries j.pdu) hc₁.ready (fun n db₂ hstate hc₂ => ?_)
    fun _ _ hc₂ => (hc₁.trans hc₂).still
  have hc := hc₁.trans hc₂
  by_cases hroom : j.pdu.roomId = r
  · subst hroom
    rw [if_neg (not_not.mpr rfl)]
    refine Comp.Ends.step (fun id db₃ happ => Comp.Ends.of_ok rfl ?_) fun _ db₃ happ =>
      hc.still.trans ((appendPdu_carried henv hj happ hc.ready).apart fun _ _ hmay => hmay.2)
    obtain ⟨S', hfull, hentry⟩ := appendToState_put hc₁.ready hstate
    have hentry' : ∀ key e, Entry db₂.state S' key e ↔
        Put j.pdu.gist j.pdu.eventId (Stands db.state j.pdu.roomId) key e := fun key e =>
      (hentry key e).trans (put_congr (hc₁.current_iff hr _) key e)
    exact append_seated henv hj hc happ hfull hentry' rfl rfl rfl rfl rfl
  · rw [if_pos hroom]
    exact Comp.Ends.of_error rfl hc.still

/-- a join over federation -/
theorem joinOverFederation_seated (hcf : ∀ lists, StateDb.CollisionFree env.digest lists)
    (henv : KeepsMembership env) (hown : OwnAnswer own answer) (hr : Ready env own db) :
    Comp.Ends (joinOverFederation env fed r answer) db
      (fun _ db' => Apart env own r db db' ∧ (Seated env own db r →
        FollowsIff env own db' r (FirmAnswer env own db r answer)))
      (fun _ db' => Apart env own r db db') := by
  unfold joinOverFederation
  rw [prepareJoin_eq]
  simp only [Comp.bind_assoc]
  have hword : ∀ {o db₀}, getOrCreateShortroomid r db = (o, db₀) → Carried env own noSeat db db₀ := by
    intro o db₀ h
    have hc := getOrCreateShortroomid_carried hr r
    rw [h] at hc
    exact hc
  refine Comp.Ends.step (fun _ db₀ h => ?_) fun _ _ h => (hword h).still
  have hc₀ := hword h
  refine carried_step (fun _ _ => joinState_carries hown) hc₀.ready (fun S db₁ hstate hc₁ => ?_)
    fun _ _ hc₁ => (hc₀.trans hc₁).still
  replace hc₁ := hc₀.trans hc₁
  obtain ⟨hmade, hplaced, hentry⟩ := joinState_state hown hc₀.ready hstate
  refine Comp.Ends.bind ((saveAndForce_forced hcf hc₁.ready hmade).imp (fun _ _ h => h)
    fun _ _ h => hc₁.still.trans h) fun _ db₂ hforced => ?_
  obtain ⟨hforced, hseats⟩ := hforced
  have hall := hc₁.still.trans hforced.toApart
  refine (joinEvent_seated henv hown.joinEvent hforced.ready).imp (fun _ db' h => ⟨hall.trans h.1, fun hs => ?_⟩)
    fun _ db' h => hall.trans h
  have hcurrent : ∀ key e, Stands db₂.state r key e ↔ stateOf answer.state.reduceOption key e :=
    fun key e => (hforced.current key e).trans (hentry key e)
  have hplaced' := hplaced.congr (fun _ he => he) fun key e => (hentry key e).mp
  refine (h.2 (hplaced.congr hforced.stays fun key e => (hcurrent key e).mp)).congr ?_
  rw [agrees_put hown.joinEvent.symm]
  refine forall_congr' fun u => ?_
  rw [seat_congr hall.ignored, hseats hplaced' (hc₁.seated hr hs) u,
    reseated_congr hc₁.ignored (hc₁.seats u r not_false) hentry, gives_congr hcurrent, reseated_put_iff hplaced]

/-! ## an upgrade -/

/-- a state event: the room gets the resolved state -/
theorem deriveState_seated (hcf : ∀ lists, StateDb.CollisionFree env.digest lists) (hr : Ready env own db) :
    Comp.Ends (deriveState env fed fuel r version pdu state) db
      (fun _ db' => pdu.stateKey = none ∧ db' = db ∨
        pdu.stateKey.isSome ∧ ∃ map db₁, resolution env fed fuel r version pdu state db = (.ok map, db₁) ∧
          Forced env own r (has map) db db' ∧ (Placed own db₁.timeline (has map) → Seated env own db r →
            Placed own db'.timeline (has map) ∧
              ∀ u, db'.members.isJoined u r = true ↔ Reseated env own db r (has map) u))
      (fun _ db' => Apart env own r db db') := by
  cases hsk : pdu.stateKey with
  | none =>
    unfold deriveState
    rw [hsk]
    exact Comp.Ends.of_ok rfl (Or.inl ⟨rfl, rfl⟩)
  | some stateKey =>
    rw [deriveState_eq (by rw [hsk]; rfl)]
    refine carried_step (fun _ _ => resolution_quiet carries_fetching fuel r version pdu state) hr
      (fun map db₁ hres hc₁ => ?_) fun _ _ hc => hc.still
    refine carried_step (fun _ _ => compressResolved_quiet carries_fetching map.rows) hc₁.ready
      (fun S db₂ hcomp hcr => ?_) fun _ _ hc => (hc₁.trans hc).still
    have hc₂ := hc₁.trans hcr
    have hrows := compressResolved_compressed hcomp
    have hm := hc₂.ready.intact.maps
    have hentry : ∀ key e, Entry db₂.state S key e ↔ has map key e := hrows.entry_iff hm
    refine (saveAndForce_forced hcf hc₂.ready (hrows.made hm has_unique)).imp (fun _ db' h => Or.inr ?_)
      fun _ _ h => hc₂.still.trans h
    refine ⟨rfl, map, db₁, hres, ⟨hc₂.still.trans h.1.toApart, fun key e => ?_⟩, fun hplaced hs => ⟨?_, fun u => ?_⟩⟩
    · rw [h.1.current, hentry]
    · exact hplaced.congr (fun e he => h.1.stays e (hcr.stays e he)) fun _ _ he => he
    · rw [h.2 (hplaced.congr hcr.stays fun key e => (hentry key e).mp) (hc₂.seated hr hs) u,
        reseated_congr hc₂.ignored (hc₂.seats u r not_false) hentry]

/-- the resolution decides about the seats that are taken, and an event that is let in is at one with it; where this
decides, the resolution need not -/
@[mk_iff]
structure FirmMap (env : Env) (own : EventId → Gist) (db : Db) (r : RoomId) (g : Gist) (soft : Prop)
    (map : StateMap) : Prop where
  decides : ∀ u, (¬ soft → seat env db g u = none) → db.members.isJoined u r = true → Decided env own db (has map) u
  agrees : ¬ soft → ∀ u b, seat env db g u = some b → (b = true ↔ Gives own (has map) (env.ids.userIdStr u))

theorem firmMap_soft (h : Placed own t (has map)) (hsoft : soft) :
    (∀ u, Reseated env own db r (has map) u ↔ Gives own (has map) (env.ids.userIdStr u)) ↔
      FirmMap env own db r g soft map := by
  constructor
  · exact fun hiff => ⟨fun u _ => (reseated_iff h u).mp (hiff u), fun hn => absurd hsoft hn⟩
  · exact fun hfirm u => (reseated_iff h u).mpr (hfirm.decides u fun hn => absurd hsoft hn)

theorem firmMap_agrees (h : Placed own t (has map)) (hsoft : ¬ soft) (hi : SameIgnored db.accounts db'.accounts)
    (hseats : ∀ u, db'.members.isJoined u r = true ↔ Reseated env own db r (has map) u) :
    Agrees env own db' r g (has map) ↔ FirmMap env own db r g soft map := by
  constructor
  · intro hagrees
    refine ⟨fun u hnone => (reseated_iff h u).mp ?_, fun _ u b hb => ?_⟩
    · have hu := hagrees u
      rw [seat_congr hi, hnone hsoft, Option.getD_none, hseats] at hu
      exact hu
    · have hu := hagrees u
      rw [seat_congr hi, hb, Option.getD_some] at hu
      exact hu
  · intro hfirm u
    rw [seat_congr hi]
    cases hs : seat env db g u with
    | some b => exact hfirm.agrees hsoft u b hs
    | none =>
      rw [Option.getD_none, hseats]
      exact (reseated_iff h u).mpr (hfirm.decides u fun _ => hs)

/-- the state that the call takes for its room is firm -/
def FirmState (env : Env) (own : EventId → Gist) (db : Db) (r : RoomId) (pdu : PduEvent) (soft : Prop)
    (res : Except Error StateMap × Db) : Prop :=
  pdu.stateKey.isSome → ∀ map, res.1 = .ok map → FirmMap env own db r pdu.gist soft map

/-- it has stored events, each under its own key -/
def PlacedState (own : EventId → Gist) (pdu : PduEvent) (res : Except Error StateMap × Db) : Prop :=
  pdu.stateKey.isSome → ∀ map, res.1 = .ok map → Placed own res.2.timeline (has map)

/-- the state that a call takes for its room -/
def settledState (env : Env) (fed : Fed) (fuel : Nat) (r : RoomId) (version : RoomVersionId) (pdu : PduEvent)
    (state : Tree Nat EventId) : RoomComp StateMap := do
  let _ ← compressState (fed.entries state)
  resolution env fed fuel r version pdu state

theorem firmState_iff (hsk : pdu.stateKey.isSome) :
    FirmState env own db r pdu soft (.ok map, db₁) ↔ FirmMap env own db r pdu.gist soft map := by
  constructor
  · exact fun h => h hsk map rfl
  · rintro h - map' heq
    cases heq
    exact h

theorem firmState_congr {soft' : Prop} {res : Except Error StateMap × Db} (hsoft : soft ↔ soft')
    (hseats : ∀ u, db'.members.isJoined u r = db.members.isJoined u r)
    (hi : SameIgnored db.accounts db'.accounts) :
    FirmState env own db' r pdu soft res ↔ FirmState env own db r pdu soft' res := by
  have hmap : ∀ map, FirmMap env own db' r pdu.gist soft map ↔ FirmMap env own db r pdu.gist soft' map := by
    intro map
    have hdec : ∀ u, Decided env own db' (has map) u ↔ Decided env own db (has map) u :=
      decided_congr hi fun _ _ => Iff.rfl
    simp only [firmMap_iff, hsoft, hseats, hdec, seat_congr hi]
  unfold FirmState
  simp only [hmap]

/-- an append beside the room's state -/
theorem appendPdu_seated (henv : KeepsMembership env) (hj : j.pdu.gist = own j.pdu.eventId)
    (hr : Ready env own db) {id : Bytes} (h : appendPdu env j leaves db = (.ok id, db'))
    (hplaced : Placed own db.timeline (Stands db.state j.pdu.roomId)) :
    FollowsIff env own db' j.pdu.roomId
      (Agrees env own db j.pdu.roomId j.pdu.gist (Stands db.state j.pdu.roomId)) := by
  have hc := appendPdu_carried henv hj h hr
  have hcurrent := hc.current_iff hr j.pdu.roomId
  have hplaced' := hplaced.congr hc.stays fun key e => (hcurrent key e).mp
  refine ⟨hplaced', (seated_iff hplaced').trans (forall_congr' fun u => ?_)⟩
  rw [gives_congr hcurrent, (appendPdu_seat henv hj hr h).2 u]

theorem setEventState_carried (hcf : ∀ lists, StateDb.CollisionFree env.digest lists) (hS : Made db.state S)
    {q : RoomId} {o : Except Error Nat}
    (h : onState (StateDb.setEventState env.digest env.ord e q S) db = (o, db')) (hr : Ready env own db) :
    Carried env own noSeat db db' :=
  onState_carried (StateDb.setEventState_later _ _ _ _ _ _) (StateDb.setEventState_widens hcf env.ord e q hS) h hr

/-- the event gets the state before it, and is appended -/
theorem appendIncomingPdu_seated (hcf : ∀ lists, StateDb.CollisionFree env.digest lists)
    (henv : KeepsMembership env) (hj : j.pdu.gist = own j.pdu.eventId) (hr : Ready env own db)
    (hS : Made db.state S) :
    Comp.Ends (appendIncomingPdu env r j leaves S false) db
      (fun _ db' => Apart env own r db db' ∧ (Placed own db.timeline (Stands db.state r) →
        FollowsIff env own db' r (Agrees env own db r j.pdu.gist (Stands db.state r))))
      (fun _ db' => Apart env own r db db') := by
  unfold appendIncomingPdu
  by_cases hroom : j.pdu.roomId = r
  · subst hroom
    rw [if_neg (not_not.mpr rfl)]
    refine Comp.Ends.step (fun n db₁ hrun => ?_) fun _ _ hrun => (setEventState_carried hcf hS hrun hr).still
    have hc₁ : Carried env own noSeat db db₁ := setEventState_carried hcf hS hrun hr
    have hapart : ∀ {o db₂}, appendPdu env j leaves db₁ = (o, db₂) → Apart env own j.pdu.roomId db db₂ := fun happ =>
      hc₁.still.trans ((appendPdu_carried henv hj happ hc₁.ready).apart fun _ _ hmay => hmay.2)
    refine Comp.Ends.step (fun id db₂ happ => Comp.Ends.of_ok rfl ⟨hapart happ, fun hplaced => ?_⟩)
      fun _ _ happ => hapart happ
    have hcurrent := hc₁.current_iff hr j.pdu.roomId
    have hplaced₁ := hplaced.congr hc₁.stays fun key e => (hcurrent key e).mp
    exact (appendPdu_seated henv hj hc₁.ready happ hplaced₁).congr
      (agrees_congr hc₁.ignored (fun u => hc₁.seats u _ not_false) hcurrent)
  · rw [if_pos hroom]
    exact Comp.Ends.of_error rfl (Carried.refl hr).still

/-- up to the append: the room has the state that was taken for it, if one was -/
theorem derived_seated (hcf : ∀ lists, StateDb.CollisionFree env.digest lists) (hr : Ready env own db)
    (hreg : Registered db.state state) (hcomp : compressState (fed.entries state) db = (.ok S, db₁)) :
    Comp.Ends (deriveState env fed fuel r version pdu state) db₁
      (fun _ db' => Apart env own r db db' ∧ Made db'.state S ∧ (Seated env own db r →
        PlacedState own pdu (settledState env fed fuel r version pdu state db) →
        pdu.stateKey = none ∧ Seated env own db' r ∨
        pdu.stateKey.isSome ∧ ∃ map db₂, settledState env fed fuel r version pdu state db = (.ok map, db₂) ∧
          Placed own db'.timeline (has map) ∧ (∀ key e, Stands db'.state r key e ↔ has map key e) ∧
          ∀ u, db'.members.isJoined u r = true ↔ Reseated env own db r (has map) u))
      (fun _ db' => Apart env own r db db') := by
  have hc₁ : Carried env own noSeat db db₁ :=
    carried_run (fun _ _ => compressState_fetching carries_fetching (fed.entries state)) hcomp hr
  have hmade : Made db₁.state S := (compressState_under hr.intact.maps.numbers hreg hcomp).made hc₁.ready.intact.maps
    fun _ _ _ => under_unique
  refine (deriveState_seated hcf hc₁.ready).imp (fun _ db' h => ?_) fun _ _ h => hc₁.still.trans h
  rcases h with ⟨hnone, rfl⟩ | ⟨hsk, map, db₂, hres, hforced, hseated⟩
  · exact ⟨hc₁.still, hmade, fun hs _ => Or.inl ⟨hnone, hc₁.seated hr hs⟩⟩
  · have hrun : settledState env fed fuel r version pdu state db = (.ok map, db₂) := by
      unfold settledState
      rw [Comp.bind_ok hcomp, hres]
    refine ⟨hc₁.still.trans hforced.toApart, hmade.mono hforced.numbers, fun hs hplaced =>
      Or.inr ⟨hsk, map, db₂, hrun, ?_⟩⟩
    rw [hrun] at hplaced
    obtain ⟨hplaced', hseats⟩ := hseated (hplaced hsk map rfl) (hc₁.seated hr hs)
    refine ⟨hplaced', hforced.current, fun u => ?_⟩
    rw [hseats, reseated_congr hc₁.ignored (hc₁.seats u r not_false) fun _ _ => Iff.rfl]

section
variable (hcf : ∀ lists, StateDb.CollisionFree env.digest lists) (henv : KeepsMembership env)
include hcf

/-- an event that is soft failed gets its state, and takes no seat -/
theorem softFailed_apart (hr : Ready env own db) (hS : Made db.state S) {Q : Option Bytes → Db → Prop} :
    Comp.Ends (do
      let _ ← appendIncomingPdu env r j leaves S true
      markEventSoftFailed j.pdu.eventId
      Comp.throw softFailed : RoomComp (Option Bytes)) db Q (fun _ db' => Apart env own r db db') := by
  unfold appendIncomingPdu
  by_cases hroom : j.pdu.roomId = r
  · rw [if_neg (not_not.mpr hroom), Comp.bind_assoc]
    refine Comp.Ends.step (fun n db₁ hrun => Comp.Ends.of_error rfl ?_) fun _ _ hrun =>
      (setEventState_carried hcf hS hrun hr).still
    have hc₁ : Carried env own noSeat db db₁ := setEventState_carried hcf hS hrun hr
    have hgraph : ∀ g, Carries env own r (db₁.roomidShortroomid r) noSeat db₁ { db₁ with graph := g } := fun _ =>
      .of_tables rfl rfl rfl rfl rfl
    exact (hc₁.trans (hgraph _ rfl hc₁.ready).1).still
  · rw [if_pos hroom]
    exact Comp.Ends.of_error rfl (Carried.refl hr).still

include henv

/-- the call once the event is checked -/
theorem settle_seated (hj : j.pdu.gist = own j.pdu.eventId) (hr : Ready env own db)
    (hreg : Registered db.state state) :
    Comp.Ends (settle env fed fuel r version j state softFail) db
      (fun _ db' => Apart env own r db db' ∧ (Seated env own db r →
        PlacedState own j.pdu (settledState env fed fuel r version j.pdu state db) → FollowsIff env own db' r
          (FirmState env own db r j.pdu (softFail = true) (settledState env fed fuel r version j.pdu state db))))
      (fun _ db' => Apart env own r db db') := by
  have hread : (Comp.gets (fun db => db.newExtremities r j.pdu) : RoomComp _) db
      = (.ok (db.newExtremities r j.pdu), db) := rfl
  unfold settle
  refine Comp.Ends.after hread ?_
  refine carried_step (fun _ _ => compressState_fetching carries_fetching (fed.entries state)) hr
    (fun S db₁ hcomp _ => Comp.Ends.bind (derived_seated hcf hr hreg hcomp) fun _ db₂ hderived => ?_)
    fun _ _ hc => hc.still
  obtain ⟨hapart, hmade, hseated⟩ := hderived
  cases softFail with
  | true =>
    rw [if_pos rfl]
    exact (softFailed_apart hcf hapart.ready hmade).imp (fun _ _ h => h) fun _ _ h => hapart.trans h
  | false =>
    rw [if_neg Bool.false_ne_true]
    refine (appendIncomingPdu_seated hcf henv hj hapart.ready hmade).imp (fun _ db' h => ⟨hapart.trans h.1, ?_⟩)
      fun _ _ h => hapart.trans h
    intro hs hplaced
    rcases hseated hs hplaced with ⟨hnone, hs₂⟩ | ⟨hsk, map, db₃, hrun, hplaced₂, hcurrent, hseats⟩
    · refine (h.2 hs₂.placed).congr (iff_of_true (fun u => ?_) fun hsk => by rw [hnone] at hsk; cases hsk)
      rw [seat_none hnone, Option.getD_none]
      exact hs₂.seats u
    · refine (h.2 (hplaced₂.congr (fun _ he => he) fun key e => (hcurrent key e).mp)).congr ?_
      rw [hrun, firmState_iff hsk, agrees_congr (fun _ => rfl) (fun _ => rfl) hcurrent]
      exact firmMap_agrees hplaced₂ Bool.false_ne_true hapart.ignored hseats

omit henv in
/-- the same for an event that the call marks as soft failed -/
theorem settle_softFailed_seated (hr : Ready env own db) (hreg : Registered db.state state)
    (h : settle env fed fuel r version j state softFail db = (.error softFailed, db'))
    (hmarks : ¬ SameMarks db db') (hs : Seated env own db r)
    (hplaced : PlacedState own j.pdu (settledState env fed fuel r version j.pdu state db)) :
    softFail = true ∧ FollowsIff env own db' r
      (FirmState env own db r j.pdu True (settledState env fed fuel r version j.pdu state db)) := by
  obtain ⟨hsoft, S, db₁, db₂, n, s, hcomp, hderive, -, hset, rfl⟩ := settle_marks env fed h hmarks
  refine ⟨hsoft, ?_⟩
  have hderived : Comp.Ends (deriveState env fed fuel r version j.pdu state) db₁ _ _ := derived_seated hcf hr hreg hcomp
  unfold Comp.Ends at hderived
  rw [hderive] at hderived
  obtain ⟨hapart, hmade, hseated⟩ := hderived
  have hrun : onState (StateDb.setEventState env.digest env.ord j.pdu.eventId r S) db₂
      = (.ok n, { db₂ with state := s }) := by
    unfold onState
    rw [hset]
  have hstate : Carried env own noSeat db₂ { db₂ with state := s } :=
    setEventState_carried hcf hmade hrun hapart.ready
  have hgraph : Carries env own r (db₂.roomidShortroomid r) noSeat { db₂ with state := s }
      (softened r j.pdu (db.newExtremities r j.pdu) s db₂) := .of_tables rfl rfl rfl rfl rfl
  have hc := hstate.trans (hgraph rfl hstate.ready).1
  have hcurrent := hc.current_iff hapart.ready r
  have hsame := fun u => hc.seats u r not_false
  rcases hseated hs hplaced with ⟨hnone, hs₂⟩ | ⟨hsk, map, db₃, hrun, hplaced₂, hmap, hseats⟩
  · have hs' := hc.seated hapart.ready hs₂
    exact ⟨hs'.placed, iff_of_true hs' fun hsk => by rw [hnone] at hsk; cases hsk⟩
  · have hboth := fun key e => (hcurrent key e).trans (hmap key e)
    have hplaced' := hplaced₂.congr hc.stays fun key e => (hboth key e).mp
    rw [hrun, firmState_iff hsk, ← firmMap_soft hplaced₂ trivial]
    refine ⟨hplaced', (seated_iff hplaced').trans ?_⟩
    refine forall_congr' fun u => ?_
    rw [gives_congr hboth, hsame, hseats]

end

/-- the state that the upgrade of an event takes for its room -/
def resolvedState (env : Env) (fed : Fed) (fuel : Nat) (j : PduJson) (createEvent : PduEvent) (origin : ServerName)
    (r : RoomId) : RoomComp StateMap := do
  let version ← Comp.ofExcept (createVersion env fed createEvent)
  let state ← stateAtIncomingEvent env fed fuel origin createEvent r version j.pdu
  settledState env fed fuel r version j.pdu state

theorem resolvedState_run (hv : createVersion env fed createEvent = .ok version)
    (hstate : stateAtIncomingEvent env fed fuel origin createEvent r version j.pdu db = (.ok state, db₁)) :
    resolvedState env fed fuel j createEvent origin r db = settledState env fed fuel r version j.pdu state db₁ := by
  unfold resolvedState
  rw [hv, Comp.bind_ok (show (Comp.ofExcept (.ok version) : RoomComp RoomVersionId) db = (.ok version, db) from rfl),
    Comp.bind_ok hstate]

theorem softFailsAt_iff (hv : createVersion env fed createEvent = .ok version)
    (hstate : stateAtIncomingEvent env fed fuel origin createEvent r version j.pdu db = (.ok state, db₁))
    (hsoft : db₁.softFails env fed version r j.pdu = .ok softFail) :
    softFail = true ↔ SoftFailsAt env fed fuel j createEvent origin r db := by
  constructor
  · rintro rfl
    exact ⟨version, state, db₁, hv, hstate, hsoft⟩
  · rintro ⟨version', state', db₁', hv', hstate', hsoft'⟩
    obtain rfl := Except.ok.inj (hv.symm.trans hv')
    obtain ⟨hst, rfl⟩ := Prod.mk.inj (hstate.symm.trans hstate')
    exact Except.ok.inj (hsoft.symm.trans hsoft')

/-- the origin's events come under their own ids, also if they are redacted -/
def OwnAnswers (fed : Fed) (own : EventId → Gist) (origin : ServerName) : Prop :=
  ∀ version version' e value j, Answered fed origin version e value → OutlierOf fed version' e value j →
    j.pdu.gist = own e

theorem stateAtIncomingEvent_carried (hans : OwnAnswers fed own origin) (hr : Ready env own db)
    {o : Except Error (Tree Nat EventId)}
    (h : stateAtIncomingEvent env fed fuel origin createEvent r version pdu db = (o, db')) :
    Carried env own noSeat db db' := by
  refine carried_run (fun _ _ => ?_) h hr
  refine stateAtIncomingEvent_fetching env fed carries_fetching (fun e value ha db j version' _ hj _ => ?_) fuel pdu
  exact addPduOutlier_carries (hans version version' e value j ha hj) db

section
variable (hcf : ∀ lists, StateDb.CollisionFree env.digest lists) {j : PduJson} {createEvent : PduEvent}
  {origin : ServerName} {fuel : Nat} (hans : OwnAnswers fed own origin)
include hcf hans

/-- an upgraded event -/
theorem upgradeOutlierToTimelinePdu_seated (henv : KeepsMembership env) (hj : j.pdu.gist = own j.pdu.eventId)
    (hr : Ready env own db) :
    Comp.Ends (upgradeOutlierToTimelinePdu env fed fuel j createEvent origin r) db
      (fun _ db' => Apart env own r db db' ∧ (Seated env own db r →
        PlacedState own j.pdu (resolvedState env fed fuel j createEvent origin r db) → FollowsIff env own db' r
          (db.timeline.getPduId j.pdu.eventId = none →
            FirmState env own db r j.pdu (SoftFailsAt env fed fuel j createEvent origin r db)
              (resolvedState env fed fuel j createEvent origin r db))))
      (fun _ db' => Apart env own r db db') := by
  have hrefl : Apart env own r db db := (Carried.refl hr).still
  unfold upgradeOutlierToTimelinePdu
  refine Comp.Ends.after (Comp.get_run db) ?_
  cases db.timeline.getPduId j.pdu.eventId with
  | some id => exact Comp.Ends.of_ok rfl ⟨hrefl, fun hs _ => ⟨hs.placed, iff_of_true hs nofun⟩⟩
  | none =>
    refine Comp.Ends.after (Comp.get_run db) ?_
    split
    · exact Comp.Ends.of_error rfl hrefl
    · cases hv : createVersion env fed createEvent with
      | error err => exact Comp.Ends.of_error rfl hrefl
      | ok version =>
        refine Comp.Ends.after rfl (Comp.Ends.step (fun state db₁ hstate => ?_) fun _ _ hstate =>
          (stateAtIncomingEvent_carried hans hr hstate).still)
        have hc₁ := stateAtIncomingEvent_carried hans hr hstate
        have hreg := stateAtIncomingEvent_registered hr.intact.maps hstate
        refine Comp.Ends.reads (fun _ _ => Comp.Ends.reads (fun softFail hsoft => ?_) fun _ => hc₁.still)
          fun _ => hc₁.still
        refine (settle_seated hcf henv hj hc₁.ready hreg).imp (fun _ db' h => ⟨hc₁.still.trans h.1, fun hs hplaced => ?_⟩)
          fun _ _ h => hc₁.still.trans h
        rw [resolvedState_run hv hstate] at hplaced ⊢
        rw [imp_iff_right rfl, ← firmState_congr (softFailsAt_iff hv hstate hsoft)
          (fun u => hc₁.seats u r not_false) hc₁.ignored]
        exact h.2 (hc₁.seated hr hs) hplaced

/-- the same for an event that the call newly marks as soft failed -/
theorem EndsSoftFailed.seated (h : EndsSoftFailed env fed fuel j createEvent origin r db db') (hr : Ready env own db)
    (hs : Seated env own db r) (hplaced : PlacedState own j.pdu (resolvedState env fed fuel j createEvent origin r db)) :
    FollowsIff env own db' r (db.timeline.getPduId j.pdu.eventId = none →
      FirmState env own db r j.pdu (SoftFailsAt env fed fuel j createEvent origin r db)
        (resolvedState env fed fuel j createEvent origin r db)) := by
  obtain ⟨hid, version, state, db₁, softFail, hv, hstate, hsoft, hsettle, hmarks⟩ := h.settled
  have hc₁ := stateAtIncomingEvent_carried hans hr hstate
  have hreg := stateAtIncomingEvent_registered hr.intact.maps hstate
  rw [resolvedState_run hv hstate] at hplaced ⊢
  obtain ⟨rfl, hiff⟩ := settle_softFailed_seated hcf hc₁.ready hreg hsettle hmarks (hc₁.seated hr hs) hplaced
  refine hiff.congr ?_
  rw [imp_iff_right hid]
  refine firmState_congr ?_ (fun u => hc₁.seats u r not_false) hc₁.ignored
  exact iff_of_true trivial ((softFailsAt_iff hv hstate hsoft).mp rfl)

end

end Db
end Grapevine
