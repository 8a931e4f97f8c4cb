import Grapevine.Lib.Update
import Grapevine.Sync.LazyAnswers

/-!
# Runs of a device with lazy loading

Of each user that is marked as sent, the device has the member event.  This holds as long as the requests name
counts of responses that the device received, and fails in a run in which they do not.

* `Has`    the invariant;
* `Inv`    the invariant, with the claim for the log.

Main result: `members_kept`.  In `withheld_after_messages` a page of messages confirms a sync that was lost.
-/

namespace Grapevine
open Kv

namespace LazyLoading

variable {x : UserId} {e : EventId} {fullState : Bool}

section
variable {env : Env} {db : Db} {views : Views} {st : Store} {u : UserId} {d : DeviceId} {r : RoomId}
variable {r' : RoomId} {tokens : List PduCount} {hash : Option Nat} {current since : Nat}
  {l : List UserId} {c : PduCount} {st' : Store}

/-! ## the rows of a device -/

theorem lazyKey_inj {x' : UserId} (h : lazyKey u d r x = lazyKey u d r' x') : r = r' ∧ x = x' := by
  unfold lazyKey lazyRows at h
  rw [List.append_assoc, List.append_assoc] at h
  obtain ⟨-, h⟩ := sep_append_inj u.noSep u.noSep h
  change (d.bytes ++ sep :: (r.bytes ++ [sep])) ++ x.bytes = (d.bytes ++ sep :: (r'.bytes ++ [sep])) ++ x'.bytes at h
  rw [List.append_assoc, List.append_assoc] at h
  obtain ⟨-, h⟩ := sep_append_inj d.noSep d.noSep h
  change (r.bytes ++ [sep]) ++ x.bytes = (r'.bytes ++ [sep]) ++ x'.bytes at h
  rw [List.append_assoc, List.append_assoc] at h
  obtain ⟨hr, hx⟩ := sep_append_inj r.noSep r'.noSep h
  exact ⟨RoomId.ext_bytes hr, UserId.ext_bytes hx⟩

/-- the store behind a request that names the count -/
def confirmed (u : UserId) (d : DeviceId) (r : RoomId) (c : PduCount) (st : Store) : Store :=
  (lazyLoadConfirmDelivery u d r c st).2

theorem confirmed_none (h : st.lazyLoadWaiting (u, d, r, c) = none) : confirmed u d r c st = st := by
  unfold confirmed lazyLoadConfirmDelivery Comp.modify
  dsimp only
  rw [h]

theorem confirmed_some (h : st.lazyLoadWaiting (u, d, r, c) = some l) :
    confirmed u d r c st = { st with
      lazyLoadWaiting := Function.update st.lazyLoadWaiting (u, d, r, c) none
      lazyloadedids := l.foldl (fun t llId => t.insert (lazyKey u d r llId) ()) st.lazyloadedids } := by
  unfold confirmed lazyLoadConfirmDelivery Comp.modify
  dsimp only
  rw [h]

theorem confirmed_db (u : UserId) (d : DeviceId) (r : RoomId) (c : PduCount) (st : Store) :
    (confirmed u d r c st).db = st.db ∧
      (confirmed u d r c st).roomsynctokenShortstatehash = st.roomsynctokenShortstatehash := by
  cases hwait : st.lazyLoadWaiting (u, d, r, c) with
  | none =>
    rw [confirmed_none hwait]
    exact ⟨rfl, rfl⟩
  | some l =>
    rw [confirmed_some hwait]
    exact ⟨rfl, rfl⟩

/-- a confirmation adds the members that waited -/
theorem wasSent_confirmed (h : lazyLoadWasSentBefore (confirmed u d r c st) u d r' x = true) :
    lazyLoadWasSentBefore st u d r' x = true ∨
      r' = r ∧ ∃ l, st.lazyLoadWaiting (u, d, r, c) = some l ∧ x ∈ l := by
  cases hwait : st.lazyLoadWaiting (u, d, r, c) with
  | none =>
    rw [confirmed_none hwait] at h
    exact Or.inl h
  | some l =>
    rw [confirmed_some hwait] at h
    change ((l.foldl (fun t llId => t.insert (lazyKey u d r llId) ()) st.lazyloadedids).get
      (lazyKey u d r' x)).isSome = true at h
    rw [Tree.get_insert_all] at h
    split at h
    · next hin =>
      obtain ⟨y, hy, hkey⟩ := List.mem_map.mp hin
      obtain ⟨rfl, rfl⟩ := lazyKey_inj hkey
      exact Or.inr ⟨rfl, l, rfl, hy⟩
    · exact Or.inl h

/-- and takes them from those that wait -/
theorem waiting_confirmed {c' : PduCount} (h : (confirmed u d r c st).lazyLoadWaiting (u, d, r', c') = some l) :
    st.lazyLoadWaiting (u, d, r', c') = some l := by
  cases hwait : st.lazyLoadWaiting (u, d, r, c) with
  | none =>
    rw [confirmed_none hwait] at h
    exact h
  | some l' =>
    rw [confirmed_some hwait] at h
    exact (update_none_eq_some.mp h).2

/-- a reset leaves no member of the room -/
theorem wasSent_reset (h : lazyLoadWasSentBefore (lazyLoadReset u d r st).2 u d r' x = true) :
    lazyLoadWasSentBefore st u d r' x = true ∧ r' ≠ r := by
  change (((((st.lazyloadedids.scanPrefix (lazyRows u d r)).map Prod.fst).foldl (fun t key => t.remove key)
    st.lazyloadedids).get (lazyKey u d r' x)).isSome) = true at h
  rw [Tree.get_remove_all (fun key : Bytes => key)] at h
  split at h
  · cases h
  · next hnot =>
    refine ⟨h, fun hr => hnot ?_⟩
    obtain ⟨v, hv⟩ := Option.isSome_iff_exists.mp h
    rw [List.map_id']
    refine List.mem_map.mpr ⟨(lazyKey u d r' x, v), ?_, rfl⟩
    rw [Tree.mem_scanPrefix]
    exact ⟨(Tree.get_eq_some_iff _ _ _).mp hv, hr ▸ List.prefix_append _ _⟩

/-! ## the answer for a room -/

theorem markAnswer_ok (u : UserId) (d : DeviceId) (r : RoomId) (st : Store) (nextBatch : Nat) (a : Answer) :
    (markAnswer u d r nextBatch a st).1 = .ok () ∧ (markAnswer u d r nextBatch a st).2.db = st.db := by
  cases a with
  | unchanged => exact ⟨rfl, rfl⟩
  | initialSync state l => exact ⟨rfl, rfl⟩
  | incremental state l => exact ⟨rfl, rfl⟩

theorem shortstatehashes_eq (h : shortstatehashes st r since = .ok (current, hash)) :
    st.db.state.roomidShortstatehash r = some current ∧
      ∃ s, shortroomid st.db r = .ok s ∧ hash = st.roomsynctokenShortstatehash (s, since) := by
  unfold shortstatehashes at h
  cases hroom : st.db.state.roomidShortstatehash r with
  | none =>
    rw [hroom] at h
    cases h
  | some current' =>
    rw [hroom] at h
    obtain ⟨hash', hhash, h⟩ := except_bind_eq_ok.mp h
    cases h
    obtain ⟨s, hs, hhash⟩ := except_bind_eq_ok.mp hhash
    cases hhash
    exact ⟨rfl, s, hs, rfl⟩

/-- either nothing is answered, and at most a delivery was confirmed, or the answer is marked and has what its branch
says -/
theorem loadJoinedRoom_cases (hfiled : Filed st.db) (since nextBatch : Nat) (fullState : Bool) :
    (∃ err st', loadJoinedRoom env views u d r since nextBatch true false fullState st = (.error err, st') ∧
      (st' = st ∨ st' = confirmed u d r (.normal since) st)) ∨
    ∃ room st' current hash,
      loadJoinedRoom env views u d r since nextBatch true false fullState st = (.ok room, st') ∧
      st.db.state.roomidShortstatehash r = some current ∧ getTokenShortstatehash st r since = .ok hash ∧
      Answers env (confirmed u d r (.normal since) st) u d r room.timeline current hash room.answer ∧
      st'.db = st.db ∧
      st'.lazyloadedids = (markAnswer u d r nextBatch room.answer (confirmed u d r (.normal since) st)).2.lazyloadedids ∧
      st'.lazyLoadWaiting =
        (markAnswer u d r nextBatch room.answer (confirmed u d r (.normal since) st)).2.lazyLoadWaiting := by
  obtain ⟨hdb, htokens⟩ := confirmed_db u d r (.normal since) st
  obtain ⟨st1, hst1⟩ : ∃ st1, st1 = confirmed u d r (.normal since) st := ⟨_, rfl⟩
  rw [← hst1] at hdb htokens ⊢
  have hconfirm : lazyLoadConfirmDelivery u d r (.normal since) st = (.ok (), st1) := by
    rw [hst1]
    rfl
  unfold loadJoinedRoom
  rw [Comp.reads_bind]
  cases htimeline : loadTimeline st.db u r since with
  | error err => exact Or.inl ⟨err, st, rfl, Or.inl rfl⟩
  | ok timeline =>
    show (∃ err st', (lazyLoadConfirmDelivery u d r (.normal since) >>= fun _ => _) st = (.error err, st') ∧ _) ∨
      ∃ room st' current hash, (lazyLoadConfirmDelivery u d r (.normal since) >>= fun _ => _) st = (.ok room, st') ∧ _
    rw [Comp.bind_ok hconfirm, Comp.reads_bind]
    cases hhashes : shortstatehashes st1 r since with
    | error err => exact Or.inl ⟨err, st1, rfl, Or.inr rfl⟩
    | ok hashes =>
      obtain ⟨current, hash⟩ := hashes
      obtain ⟨hroom, s, hword, hhash⟩ := shortstatehashes_eq hhashes
      rw [hdb] at hroom hword
      have hfiled1 : Filed st1.db := hdb ▸ hfiled
      show (∃ err st', (Comp.reads _ >>= fun a => _) st1 = (.error err, st') ∧ _) ∨
        ∃ room st' current hash, (Comp.reads _ >>= fun a => _) st1 = (.ok room, st') ∧ _
      rw [Comp.reads_bind]
      cases hanswer : answer env views st1 u d r (timeline.1.map Prod.snd) current hash true false fullState with
      | error err => exact Or.inl ⟨err, st1, rfl, Or.inr rfl⟩
      | ok a =>
        obtain ⟨hmark, hmarkdb⟩ := markAnswer_ok u d r st1 nextBatch a
        have hanswers := answer_answers hfiled1 (hdb ▸ hroom) hanswer
        have hword2 : shortroomid (markAnswer u d r nextBatch a st1).2.db r = .ok s := by
          rw [hmarkdb, hdb]
          exact hword
        obtain ⟨st2, hassociate, hdb2, hids2, hwait2⟩ : ∃ st2,
            associateTokenShortstatehash r nextBatch current (markAnswer u d r nextBatch a st1).2 = (.ok (), st2) ∧
            st2.db = (markAnswer u d r nextBatch a st1).2.db ∧
            st2.lazyloadedids = (markAnswer u d r nextBatch a st1).2.lazyloadedids ∧
            st2.lazyLoadWaiting = (markAnswer u d r nextBatch a st1).2.lazyLoadWaiting := by
          unfold associateTokenShortstatehash
          rw [Comp.reads_bind, hword2]
          exact ⟨_, rfl, rfl, rfl, rfl⟩
        refine Or.inr ⟨⟨timeline.1.map Prod.snd, limited timeline.2 a, prevBatch timeline.1, a⟩, st2, current, hash, ?_,
          hroom, ?_, hanswers, hdb2.trans (hmarkdb.trans hdb), hids2, hwait2⟩
        · show (markAnswer u d r nextBatch a >>= fun _ => _) st1 = _
          rw [Comp.bind_ok (Comp.run_of_fst hmark), Comp.bind_ok hassociate]
          rfl
        · rw [hhash, htokens]
          unfold getTokenShortstatehash
          rw [hword]
          rfl

/-! ## one more part of the log -/

variable {log : List Part} {received : Bool} {nextBatch : Nat} {room : JoinedRoom} {ms : UserId → Option EventId}

theorem held_sync : held r (log ++ [.sync r received nextBatch room ms]) =
    (match room.answer with | .initialSync _ _ => [] | _ => held r log) ++
      (if received then room.answer.state else []) := by
  unfold held
  rw [List.foldl_append]
  exact if_pos rfl

theorem held_sync_of_ne (hr : r ≠ r') :
    held r' (log ++ [.sync r received nextBatch room ms]) = held r' log := by
  unfold held
  rw [List.foldl_append]
  exact if_neg hr

theorem acknowledged_sync (c : PduCount) : acknowledged r c (log ++ [.sync r received nextBatch room ms]) =
    match room.answer with
    | .unchanged => acknowledged r c log
    | .initialSync _ _ => if c = .normal nextBatch then received else false
    | .incremental _ _ => if c = .normal nextBatch then received else acknowledged r c log := by
  unfold acknowledged
  rw [List.foldl_append]
  exact if_pos rfl

theorem acknowledged_sync_of_ne (hr : r ≠ r') (c : PduCount) :
    acknowledged r' c (log ++ [.sync r received nextBatch room ms]) = acknowledged r' c log := by
  unfold acknowledged
  rw [List.foldl_append]
  exact if_neg hr

theorem base_sync : base r (log ++ [.sync r received nextBatch room ms]) =
    if received then some ms else base r log := by
  unfold base
  rw [List.foldl_append]
  show (if r = r ∧ received then some ms else _) = _
  simp only [true_and]

theorem base_sync_of_ne (hr : r ≠ r') :
    base r' (log ++ [.sync r received nextBatch room ms]) = base r' log := by
  unfold base
  rw [List.foldl_append]
  exact if_neg fun h => hr h.1

theorem Kept.snoc (h : Kept log) {part : Part}
    (hpart : ∀ r received nextBatch room members, part = .sync r received nextBatch room members →
      ∀ state lazyLoaded, room.answer = .incremental state lazyLoaded →
      ∀ event ∈ room.timeline, ∀ e, members event.sender = some e → Contains state e ∨ Contains (held r log) e) :
    Kept (log ++ [part]) := by
  intro before after r received nextBatch room members hlog
  rcases List.eq_nil_or_concat after with rfl | ⟨after, last, rfl⟩
  · obtain ⟨rfl, hlast⟩ := List.append_inj' hlog rfl
    exact hpart r received nextBatch room members (List.cons.inj hlast).1
  · rw [List.concat_eq_append, ← List.cons_append, ← List.append_assoc] at hlog
    exact h before after r received nextBatch room members (List.append_inj' hlog rfl).1

/-! ## the invariant -/

/-- the user counts as sent, or will on a request that may name the count -/
def Marked (u : UserId) (d : DeviceId) (s : Session) (r : RoomId) (x : UserId) : Prop :=
  lazyLoadWasSentBefore s.store u d r x = true ∨
    ∃ c l, s.store.lazyLoadWaiting (u, d, r, c) = some l ∧ acknowledged r c s.log = true ∧ x ∈ l

/-- of each user that is marked, the device has the member event of the last sync that it received -/
def Has (u : UserId) (d : DeviceId) (s : Session) : Prop :=
  ∀ r x, Marked u d s r x → ∃ b, base r s.log = some b ∧ ∀ e, b x = some e → Contains (held r s.log) e

structure Inv (u : UserId) (d : DeviceId) (s : Session) : Prop where
  filed : Filed s.store.db
  has : Has u d s
  kept : Kept s.log

variable {s : Session}

theorem Has.confirmed (h : Has u d s) (hconfirms : Confirms u d s r c) :
    Has u d { s with store := confirmed u d r c s.store } := by
  intro r' x hmarked
  refine h r' x ?_
  rcases hmarked with hsent | ⟨c', l, hwait, hack, hx⟩
  · rcases wasSent_confirmed hsent with hsent | ⟨rfl, l, hwait, hx⟩
    · exact Or.inl hsent
    · exact Or.inr ⟨c, l, hwait, hconfirms (by rw [hwait]; rfl), hx⟩
  · exact Or.inr ⟨c', l, waiting_confirmed hwait, hack, hx⟩

/-- what is marked by an answer in another room -/
theorem marked_other {st : Store} {a : Answer} (hr : r ≠ r')
    (hids : st'.lazyloadedids = (markAnswer u d r nextBatch a st).2.lazyloadedids)
    (hwaiting : st'.lazyLoadWaiting = (markAnswer u d r nextBatch a st).2.lazyLoadWaiting) :
    (lazyLoadWasSentBefore st' u d r' x = true → lazyLoadWasSentBefore st u d r' x = true) ∧
      ∀ c, st'.lazyLoadWaiting (u, d, r', c) = st.lazyLoadWaiting (u, d, r', c) := by
  have hkey : ∀ c, (u, d, r', c) ≠ (u, d, r, PduCount.normal nextBatch) := fun c h => by
    cases h
    exact hr rfl
  unfold lazyLoadWasSentBefore
  rw [hids, hwaiting]
  cases a with
  | unchanged => exact ⟨id, fun c => rfl⟩
  | initialSync state l => exact ⟨fun h => (wasSent_reset h).1, fun c => Function.update_of_ne (hkey c) _ _⟩
  | incremental state l => exact ⟨id, fun c => Function.update_of_ne (hkey c) _ _⟩

/-- the token of the sync is up to date, as the answer reads it -/
def SteadyAt (env : Env) (st : Store) (r : RoomId) (b : UserId → Option EventId) (hash : Option Nat) : Prop :=
  ∀ h, hash = some h → ∀ x e, st.db.stateGetId env h .roomMember (env.ids.userIdStr x) = .ok (some e) →
    members env st.db r x = some e → b x = some e

/-- the device has what was marked, also in the state of now -/
theorem Has.now {lost : Option (Option PduCount)} (h : Has u d ⟨st, log, tokens, lost⟩) (hfiled : Filed st.db)
    (hroom : st.db.state.roomidShortstatehash r = some current)
    (hanswers : Answers env st u d r room.timeline current hash room.answer)
    (hsteady : ∀ b, base r log = some b → SteadyAt env st r b hash)
    (hinitial : ∀ state l, room.answer ≠ .initialSync state l)
    (hmarked : Marked u d ⟨st, log, tokens, lost⟩ r x) (he : members env st.db r x = some e) :
    Contains (held r log) e ∨ Contains room.answer.state e := by
  obtain ⟨b, hb, hheld⟩ := h r x hmarked
  cases ha : room.answer with
  | unchanged =>
    rw [ha] at hanswers
    exact Or.inl (hheld e (hsteady b hb current hanswers.2 x e (hfiled.members_eq hroom he).1 he))
  | initialSync state l => exact absurd ha (hinitial state l)
  | incremental state l =>
    rw [ha] at hanswers
    obtain ⟨-, h', hhash, hsame, -⟩ := hanswers
    rcases hsame x e he with hin | hget
    · exact Or.inr hin
    · exact Or.inl (hheld e (hsteady b hb h' hhash x e hget he))

theorem Contains.append_left {state state' : List PduEvent} (h : Contains state e) :
    Contains (state ++ state') e := by
  obtain ⟨pdu, hpdu, he⟩ := h
  exact ⟨pdu, List.mem_append_left _ hpdu, he⟩

theorem Contains.append_right {state state' : List PduEvent} (h : Contains state' e) :
    Contains (state ++ state') e := by
  obtain ⟨pdu, hpdu, he⟩ := h
  exact ⟨pdu, List.mem_append_right _ hpdu, he⟩

/-- an answer for a room keeps it -/
theorem Has.answered {tokens' : List PduCount} {lost : Option (Option PduCount)}
    (h : Has u d ⟨st, log, tokens, lost⟩) (hfiled : Filed st.db)
    (hroom : st.db.state.roomidShortstatehash r = some current)
    (hanswers : Answers env st u d r room.timeline current hash room.answer)
    (hsteady : ∀ b, base r log = some b → SteadyAt env st r b hash)
    (hids : st'.lazyloadedids = (markAnswer u d r nextBatch room.answer st).2.lazyloadedids)
    (hwaiting : st'.lazyLoadWaiting = (markAnswer u d r nextBatch room.answer st).2.lazyLoadWaiting) :
    Has u d ⟨st', log ++ [.sync r received nextBatch room (members env st.db r)], tokens', lost⟩ := by
  intro r' x hmarked
  show ∃ b, base r' (log ++ _) = some b ∧ ∀ e, b x = some e → Contains (held r' (log ++ _)) e
  by_cases hr : r = r'
  · subst hr
    -- an old mark, or a mark of the answer that was received
    have hcase : (∀ state l, room.answer ≠ .initialSync state l) ∧ Marked u d ⟨st, log, tokens, lost⟩ r x ∨
        received = true ∧ ∀ e, members env st.db r x = some e → Contains room.answer.state e := by
      rcases hmarked with hsent | ⟨c, l, hwait, hack, hx⟩
      · change (st'.lazyloadedids.get (lazyKey u d r x)).isSome = true at hsent
        rw [hids] at hsent
        cases ha : room.answer with
        | unchanged =>
          rw [ha] at hsent
          exact Or.inl ⟨nofun, Or.inl hsent⟩
        | initialSync state l =>
          rw [ha] at hsent
          exact absurd rfl (wasSent_reset hsent).2
        | incremental state l =>
          rw [ha] at hsent
          exact Or.inl ⟨nofun, Or.inl hsent⟩
      · change acknowledged r c (log ++ _) = true at hack
        change st'.lazyLoadWaiting (u, d, r, c) = some l at hwait
        rw [acknowledged_sync] at hack
        rw [hwaiting] at hwait
        cases ha : room.answer with
        | unchanged =>
          rw [ha] at hwait hack
          exact Or.inl ⟨nofun, Or.inr ⟨c, l, hwait, hack, hx⟩⟩
        | initialSync state l' =>
          rw [ha] at hwait hack hanswers
          change (if c = .normal nextBatch then received else false) = true at hack
          change Function.update st.lazyLoadWaiting (u, d, r, .normal nextBatch) (some l') (u, d, r, c) = some l at hwait
          by_cases hc : c = .normal nextBatch
          · rw [if_pos hc] at hack
            rw [hc, Function.update_self] at hwait
            cases hwait
            exact Or.inr ⟨hack, hanswers x hx⟩
          · rw [if_neg hc] at hack
            cases hack
        | incremental state l' =>
          rw [ha] at hwait hack hanswers
          change (if c = .normal nextBatch then received else acknowledged r c log) = true at hack
          change Function.update st.lazyLoadWaiting (u, d, r, .normal nextBatch) (some l') (u, d, r, c) = some l at hwait
          by_cases hc : c = .normal nextBatch
          · rw [if_pos hc] at hack
            rw [hc, Function.update_self] at hwait
            cases hwait
            exact Or.inr ⟨hack, hanswers.1 x hx⟩
          · rw [if_neg hc] at hack
            have hkey : (u, d, r, c) ≠ (u, d, r, PduCount.normal nextBatch) := fun he => by
              cases he
              exact hc rfl
            rw [Function.update_of_ne hkey] at hwait
            exact Or.inl ⟨nofun, Or.inr ⟨c, l, hwait, hack, hx⟩⟩
    rw [base_sync, held_sync]
    rcases hcase with ⟨hinitial, hmarked⟩ | ⟨hreceived, hcovers⟩
    · have hheld : (match room.answer with | .initialSync _ _ => [] | _ => held r log) = held r log := by
        cases ha : room.answer with
        | unchanged => rfl
        | initialSync state l => exact absurd ha (hinitial state l)
        | incremental state l => rfl
      rw [hheld]
      by_cases hreceived : received = true
      · rw [if_pos hreceived, if_pos hreceived]
        refine ⟨_, rfl, fun e he => ?_⟩
        exact (h.now hfiled hroom hanswers hsteady hinitial hmarked he).elim Contains.append_left Contains.append_right
      · rw [if_neg hreceived, if_neg hreceived, List.append_nil]
        exact h r x hmarked
    · rw [if_pos hreceived, if_pos hreceived]
      exact ⟨_, rfl, fun e he => (hcovers e he).append_right⟩
  · obtain ⟨hsent', hwait'⟩ := marked_other hr hids hwaiting
    rw [base_sync_of_ne hr, held_sync_of_ne hr]
    refine h r' x ?_
    rcases hmarked with hsent | ⟨c, l, hwait, hack, hx⟩
    · exact Or.inl (hsent' hsent)
    · change acknowledged r' c (log ++ _) = true at hack
      rw [acknowledged_sync_of_ne hr] at hack
      exact Or.inr ⟨c, l, (hwait' c).symm.trans hwait, hack, hx⟩

/-! ## runs -/

theorem Inv.serve (h : Inv u d s) {nextBatch : Nat} {received : Bool} {r : RoomId}
    (hconfirms : Confirms u d s r (.normal since)) (hsteady : Steady env s r since) :
    Inv u d (serve env views u d since fullState nextBatch received s r) := by
  have hhas := h.has.confirmed hconfirms
  obtain ⟨hdb, -⟩ := confirmed_db u d r (.normal since) s.store
  unfold LazyLoading.serve
  rcases loadJoinedRoom_cases (u := u) (d := d) (r := r) h.filed since nextBatch fullState with
    ⟨err, st', hload, hst'⟩ | ⟨room, st', current, hash, hload, hroom, hhash, hanswers, hdb', hids, hwaiting⟩
  · rw [hload]
    rcases hst' with rfl | rfl
    · exact ⟨h.filed, h.has, h.kept⟩
    · exact ⟨hdb ▸ h.filed, hhas, h.kept⟩
  · rw [hload]
    have hfiled : Filed (LazyLoading.confirmed u d r (.normal since) s.store).db := hdb ▸ h.filed
    have hsteady' : ∀ b, base r s.log = some b →
        SteadyAt env (LazyLoading.confirmed u d r (.normal since) s.store) r b hash := by
      intro b hb h' hh' x e hget he
      rw [hdb] at hget he
      exact hsteady b h' hb (hh' ▸ hhash) x e hget he
    have hroom' : (LazyLoading.confirmed u d r (.normal since) s.store).db.state.roomidShortstatehash r =
        some current := hdb ▸ hroom
    have hms : members env st'.db r = members env (LazyLoading.confirmed u d r (.normal since) s.store).db r := by
      rw [hdb', hdb]
    refine ⟨?_, ?_, ?_⟩
    · show Filed st'.db
      exact hdb' ▸ h.filed
    · show Has u d ⟨st', s.log ++ [.sync r received nextBatch room (members env st'.db r)], _, s.lost⟩
      rw [hms]
      exact hhas.answered hfiled hroom' hanswers hsteady' hids hwaiting
    · refine h.kept.snoc fun r' received' nextBatch' room' ms hpart state l ha event hevent e he => ?_
      cases hpart
      rw [hms] at he
      rw [ha] at hanswers
      obtain ⟨-, h', hh', hsame, hsenders⟩ := hanswers
      rcases hsenders event hevent e he with hin | hsent
      · exact Or.inl hin
      · rcases hsame _ e he with hin | hget
        · exact Or.inl hin
        · obtain ⟨b, hb, hheld⟩ := hhas r event.sender (Or.inl hsent)
          exact Or.inr (hheld e (hsteady' b hb h' hh' _ e hget he))

theorem Inv.rooms {nextBatch : Nat} {received : Bool} {rooms : List RoomId} (h : Inv u d s)
    (hcareful : CarefulRooms env views u d since fullState nextBatch received rooms s) :
    Inv u d (rooms.foldl (LazyLoading.serve env views u d since fullState nextBatch received) s) := by
  induction rooms generalizing s with
  | nil => exact h
  | cons r rooms ih =>
    obtain ⟨hconfirms, hsteady, hcareful⟩ := hcareful
    exact ih (h.serve hconfirms hsteady) hcareful

/-- the route only confirms -/
theorem getMessageEventsRoute_store (env : Env) (views : Views) (u : UserId) (d : DeviceId)
    (request : MessagesRequest) (st : Store) :
    (getMessageEventsRoute env views u d request st).2 = confirmed u d request.room request.start st := by
  have hconfirm : lazyLoadConfirmDelivery u d request.room request.start st =
      (.ok (), confirmed u d request.room request.start st) := rfl
  unfold getMessageEventsRoute
  rw [Comp.bind_ok hconfirm, Comp.reads_bind]
  cases messageEvents views (confirmed u d request.room request.start st).db u request with
  | error err => rfl
  | ok events =>
    dsimp only
    rw [Comp.reads_bind]
    cases memberEvents env (confirmed u d request.room request.start st).db request.room
        (events.map fun x => x.2.sender).dedup with
    | error err => rfl
    | ok state => rfl

/-- more in the hands of the device -/
theorem Has.messages (h : Has u d s) {r : RoomId} {received : Bool} {response : MessagesResponse} :
    Has u d { s with log := s.log ++ [.messages r received response], tokens := tokens } := by
  intro r' x hmarked
  have hack : ∀ c, acknowledged r' c (s.log ++ [.messages r received response]) = acknowledged r' c s.log := by
    intro c
    unfold acknowledged
    rw [List.foldl_append]
    rfl
  have hbase : base r' (s.log ++ [.messages r received response]) = base r' s.log := by
    unfold base
    rw [List.foldl_append]
    rfl
  have hheld : held r' (s.log ++ [.messages r received response]) =
      if r = r' ∧ received then held r' s.log ++ response.state else held r' s.log := by
    unfold held
    rw [List.foldl_append]
    rfl
  obtain ⟨b, hb, hb'⟩ := h r' x (by
    rcases hmarked with hsent | ⟨c, l, hwait, hc, hx⟩
    · exact Or.inl hsent
    · exact Or.inr ⟨c, l, hwait, (hack c).symm.trans hc, hx⟩)
  refine ⟨b, hbase.trans hb, fun e he => ?_⟩
  show Contains (held r' (s.log ++ _)) e
  rw [hheld]
  split
  · exact (hb' e he).append_left
  · exact hb' e he

theorem Inv.messages (h : Inv u d s) {request : MessagesRequest} {received : Bool}
    (hconfirms : Confirms u d s request.room request.start) :
    Inv u d (Call.perform env views u d (.messages request received) s) := by
  have hstore := getMessageEventsRoute_store env views u d request s.store
  obtain ⟨hdb, -⟩ := confirmed_db u d request.room request.start s.store
  have hhas := h.has.confirmed hconfirms
  have hfiled : Filed (LazyLoading.confirmed u d request.room request.start s.store).db := hdb ▸ h.filed
  cases hroute : getMessageEventsRoute env views u d request s.store with
  | mk out st' =>
    rw [hroute] at hstore
    cases hstore
    dsimp only [Call.perform]
    rw [hroute]
    cases out with
    | error err => exact ⟨hfiled, hhas, h.kept⟩
    | ok response =>
      refine ⟨hfiled, hhas.messages, h.kept.snoc ?_⟩
      intro _ _ _ _ _ hpart
      cases hpart

theorem run_inv (h : Run env views u d (Careful env views u d) s) : Inv u d s := by
  induction h with
  | start st hfiled hsent hwaiting =>
    refine ⟨hfiled, fun r x hmarked => ?_, fun before after r received nextBatch room members hlog => ?_⟩
    · rcases hmarked with h | ⟨c, l, h, -, -⟩
      · rw [hsent] at h
        cases h
      · rw [hwaiting] at h
        cases h
    · exact absurd hlog.symm (List.append_ne_nil_of_right_ne_nil _ (List.cons_ne_nil _ _))
  | other st _ hsame hfiled ih =>
    refine ⟨hfiled, fun r x hmarked => ih.has r x ?_, ih.kept⟩
    rcases hmarked with h | ⟨c, l, h, hack, hx⟩
    · exact Or.inl ((hsame.sent r x).symm.trans h)
    · exact Or.inr ⟨c, l, (hsame.waiting r c).symm.trans h, hack, hx⟩
  | @call s c _ _ hcareful ih =>
    cases c with
    | sync since fullState nextBatch rooms received =>
      have hinv := ih.rooms hcareful
      exact ⟨hinv.filed, hinv.has, hinv.kept⟩
    | messages request received => exact ih.messages hcareful

/-- **no member is withheld**, in runs whose requests name counts of responses that the device received -/
theorem members_kept (h : Run env views u d (Careful env views u d) s) : Kept s.log := (run_inv h).kept

end

/-- a sync of one room -/
theorem sync_log {env : Env} {views : Views} {u : UserId} {d : DeviceId} {r : RoomId} {since : Option PduCount}
    {received : Bool} {nextBatch : Nat} {s : Session} {room : JoinedRoom} {store : Store}
    (hload : loadJoinedRoom env views u d r (sinceCount since) nextBatch true false fullState s.store =
      (.ok room, store)) :
    ((Call.sync since fullState nextBatch [r] received).perform env views u d s).log =
      s.log ++ [.sync r received nextBatch room (members env store.db r)] := by
  show (serve env views u d (sinceCount since) fullState nextBatch received s r).log = _
  unfold serve
  rw [hload]

/-! ## a page of messages confirms a sync that was lost -/

namespace LostSync

variable {db : Db} {k : Nat}

def alice : UserId := ⟨.ascii "@alice:x"⟩
def bob : UserId := ⟨.ascii "@bob:x"⟩
def phone : DeviceId := ⟨.ascii "PHONE"⟩
def room : RoomId := ⟨.ascii "!r:x"⟩

def event (e : String) (u : UserId) (kind : EventType) (stateKey : Option String) : PduJson :=
  ⟨[], ⟨⟨.ascii e⟩, room, u, 0, kind, [("membership", .str "join")], stateKey, [], 0, [], none, none⟩⟩

def aliceJoin : PduJson := event "$alice" alice .roomMember (some "@alice:x")
def bobJoin : PduJson := event "$bob" bob .roomMember (some "@bob:x")
def bobSays : PduJson := event "$1" bob .roomMessage none
def aliceSays : PduJson := event "$2" alice .roomMessage none

def append (t : TimelineTables) (j : PduJson) (count : Nat) : TimelineTables :=
  t.appendPdu (pduId 1 (.normal count)) j.pdu j count

/-- the members of the room; that of Bob came with the join of Alice, and is not in the timeline -/
def state : StateDb := { StateDb.empty with
  counter := 10
  shorteventidEventid := fun n =>
    if n = 3 then some aliceJoin.pdu.eventId else if n = 6 then some bobJoin.pdu.eventId else none
  statekeyShortstatekey := fun key =>
    if key = (.roomMember, "@alice:x") then some 2 else if key = (.roomMember, "@bob:x") then some 4 else none
  shortstatekeyStatekey := fun n =>
    if n = 2 then some (.roomMember, "@alice:x") else if n = 4 then some (.roomMember, "@bob:x") else none
  shortstatehashStatediff := fun n =>
    if n = 5 then some (be64 0 ++ ((CompressedStateEvent.of 2 3).bytes ++ (CompressedStateEvent.of 4 6).bytes))
    else none
  roomidShortstatehash := fun r => if r = room then some 5 else none }

def joined : Db := { Db.empty with
  state := state
  roomidShortroomid := fun r => if r = room then some 1 else none
  timeline := append (TimelineTables.empty.addPduOutlier bobJoin.pdu.eventId bobJoin) aliceJoin 10
  members := { MemberTables.empty with
    userroomidJoined := Tree.empty.insert (MemberTables.userroomId alice room) () } }

/-- Bob and Alice have sent a message -/
def talking : Db := { joined with
  state := { state with counter := 12 }
  timeline := append (append joined.timeline bobSays 11) aliceSays 12 }

def views : Views := ⟨fun _ _ => .ok (), fun _ _ _ => .ok (), fun _ => some .join, fun _ _ _ _ => true⟩

def newDevice : Session := ⟨⟨joined, .empty, fun _ => none, fun _ => none⟩, [], [], none⟩

def perform (c : Call) (s : Session) : Session := c.perform .plain views alice phone s

def first : Session := perform (.sync none false 10 [room] true) newDevice

def later : Session := { first with store := { first.store with db := talking } }

/-- the response has the member event of Bob, but is lost -/
def lost : Session := perform (.sync (some (.normal 10)) false 12 [room] false) later

/-- the last message -/
def page : Session := perform (.messages ⟨room, none, .backward, none, 1⟩ true) lost

/-- what came behind it: nothing, but `12` is the count of the lost response -/
def paged : Session := perform (.messages ⟨room, some (.normal 12), .forward, none, 10⟩ true) page

def retried : Session := perform (.sync (some (.normal 10)) false 12 [room] true) paged

/-- the state and the timeline of an answer -/
def summary (out : Except Error JoinedRoom × Store) : Option (Bool × List EventId × List UserId) :=
  match out.1 with
  | .ok room => some (match room.answer with | .incremental _ _ => true | _ => false,
      room.answer.state.map PduEvent.eventId, room.timeline.map PduEvent.sender)
  | .error _ => none

/-! ### its stores -/

def entries : Finset CompressedStateEvent := {.of 2 3, .of 4 6}

theorem fullState_of_ne (hdiff : db.state.shortstatehashStatediff = state.shortstatehashStatediff)
    (hcache : ∀ h, db.state.stateinfoCache h = none) {h : Nat} (hne : h ≠ 5)
    {full : Finset CompressedStateEvent} :
    db.fullState h ≠ .ok full := by
  intro hfull
  have hnone : state.shortstatehashStatediff h = none := if_neg hne
  have hget : db.state.getStatediff h = .error (.badDatabase "State hash does not exist") := by
    unfold StateDb.getStatediff
    rw [hdiff, hnone]
  have hload : StateDb.loadShortstatehashInfo h db.state =
      (.error (.badDatabase "State hash does not exist"), db.state) := by
    show (Comp.get >>= fun db' => _) db.state = _
    rw [Comp.bind_ok (Comp.get_run _), hcache h]
    show (Comp.reads (fun db => db.getStatediff h) >>= fun d => _) db.state = _
    rw [Comp.reads_bind, hget]
  unfold Db.fullState at hfull
  rw [hload] at hfull
  cases hfull

theorem keys_word (k : Nat) (c : CompressedStateEvent) (hc : c ∈ entries) (c' : CompressedStateEvent)
    (hc' : c' ∈ entries) (h : c.hasKey k = true) (h' : c'.hasKey k = true) : c = c' := by
  have hword : ∀ c ∈ entries, ∀ c' ∈ entries, c.bytes.take 8 = c'.bytes.take 8 → c = c' := by decide
  refine hword c hc c' hc' ?_
  have htake : ∀ {c : CompressedStateEvent}, c.hasKey k = true → be64 k = c.bytes.take 8 := by
    intro c h
    unfold CompressedStateEvent.hasKey at h
    rw [List.isPrefixOf_iff_prefix] at h
    have hprefix := List.prefix_iff_eq_take.mp h
    rwa [be64_length] at hprefix
  rw [← htake h, ← htake h']

theorem state_keys (k : Nat) (key : EventType × String) :
    state.statekeyShortstatekey key = some k ↔ state.shortstatekeyStatekey k = some key := by
  show (if key = (.roomMember, "@alice:x") then some 2 else if key = (.roomMember, "@bob:x") then some 4 else none) =
    some k ↔ (if k = 2 then some (EventType.roomMember, "@alice:x") else
      if k = 4 then some (.roomMember, "@bob:x") else none) = some key
  constructor
  · intro h
    split at h
    · next hkey =>
      cases h
      rw [hkey]
      rfl
    · split at h
      · next hkey =>
        cases h
        rw [hkey]
        rfl
      · cases h
  · intro h
    split at h
    · next hk =>
      cases h
      rw [hk]
      rfl
    · split at h
      · next hk =>
        cases h
        rw [hk]
        rfl
      · cases h

theorem state_words {key : EventType × String} (h : state.statekeyShortstatekey key = some k) :
    k = 2 ∨ k = 4 := by
  change (if key = (.roomMember, "@alice:x") then some 2 else if key = (.roomMember, "@bob:x") then some 4 else none) =
    some k at h
  split at h
  · exact Or.inl (Option.some.inj h).symm
  · split at h
    · exact Or.inr (Option.some.inj h).symm
    · cases h

/-- the entries, with their events -/
theorem parse_entries (hids : db.state.shorteventidEventid = state.shorteventidEventid)
    {c : CompressedStateEvent} (hc : c ∈ entries) (h : db.parseCompressedStateEvent c = .ok (k, e)) :
    k = 2 ∧ e = aliceJoin.pdu.eventId ∨ k = 4 ∧ e = bobJoin.pdu.eventId := by
  unfold Db.parseCompressedStateEvent at h
  rw [hids] at h
  rcases Finset.mem_insert.mp hc with rfl | hc
  · cases h
    exact Or.inl ⟨by decide, rfl⟩
  · rw [Finset.mem_singleton] at hc
    subst hc
    cases h
    exact Or.inr ⟨by decide, rfl⟩

theorem filed_of {n : Nat} (hstate : db.state = { state with counter := n })
    (hfull : ∀ full, db.fullState 5 = .ok full → full = entries)
    (halice : db.getPdu aliceJoin.pdu.eventId = .ok (some aliceJoin.pdu))
    (hbob : db.getPdu bobJoin.pdu.eventId = .ok (some bobJoin.pdu)) : Filed db := by
  have hentries : ∀ h full, db.fullState h = .ok full → full = entries := by
    intro h full hok
    by_cases hh : h = 5
    · rw [hh] at hok
      exact hfull full hok
    · exact absurd hok (fullState_of_ne (by rw [hstate]) (fun _ => by rw [hstate]; rfl) hh)
  refine ⟨fun h full hok k c hc c' hc' => ?_, fun k key => ?_, fun k key hkey => ?_, fun h full hok c hc k e pdu hparse hpdu => ?_⟩
  · rw [hentries h full hok] at hc hc'
    exact keys_word k c hc c' hc'
  · rw [hstate]
    exact state_keys k key
  · rw [hstate] at hkey
    rcases state_words hkey with rfl | rfl
    · decide
    · decide
  · rw [hentries h full hok] at hc
    rw [hstate]
    rcases parse_entries (by rw [hstate]) hc hparse with ⟨rfl, rfl⟩ | ⟨rfl, rfl⟩
    · rw [halice] at hpdu
      cases hpdu
      exact ⟨rfl, _, rfl, rfl⟩
    · rw [hbob] at hpdu
      cases hpdu
      exact ⟨rfl, _, rfl, rfl⟩

theorem filed_joined : Filed joined := by
  refine filed_of (n := 10) rfl (fun full hfull => ?_) rfl rfl
  have hentries : (match joined.fullState 5 with | .ok full => decide (full = entries) | .error _ => true) = true := by
    decide +kernel
  rw [hfull] at hentries
  exact of_decide_eq_true hentries

theorem filed_talking : Filed talking := by
  refine filed_of (n := 12) rfl (fun full hfull => ?_) rfl rfl
  have hentries : (match talking.fullState 5 with | .ok full => decide (full = entries) | .error _ => true) = true := by
    decide +kernel
  rw [hfull] at hentries
  exact of_decide_eq_true hentries

theorem roomsJoined_of (h : (db.members.roomsJoined Env.plain.ids alice).map Except.toOption = [some room]) :
    db.members.roomsJoined Env.plain.ids alice = [room].map .ok ++ [] := by
  obtain ⟨x, hx, hroom⟩ := List.map_eq_singleton_iff.mp h
  rw [hx, toOption_eq_some.mp hroom]
  rfl

/-- the members of the room -/
theorem members_talking (h : members .plain talking room x = some e) :
    x = alice ∧ e = aliceJoin.pdu.eventId ∨ x = bob ∧ e = bobJoin.pdu.eventId := by
  have huser : ∀ y, Env.plain.ids.userIdStr x = Env.plain.ids.userIdStr y → x = y := fun y hxy => by
    have hx := Env.plain.ids.userIdOfStr_str x
    rw [hxy, Env.plain.ids.userIdOfStr_str] at hx
    exact (Option.some.inj hx).symm
  obtain ⟨hget, -⟩ := filed_talking.members_eq (h := 5) rfl h
  have hfull : talking.fullState 5 = .ok entries := by
    have hentries : (match talking.fullState 5 with | .ok full => decide (full = entries) | .error _ => false) = true := by
      decide +kernel
    cases hfull : talking.fullState 5 with
    | error err =>
      rw [hfull] at hentries
      cases hentries
    | ok full =>
      rw [hfull] at hentries
      exact congrArg Except.ok (of_decide_eq_true hentries)
  obtain ⟨k, hk, c, hc, hparse⟩ := (filed_talking.stateGetId_entry hfull e).mp hget
  rcases parse_entries rfl hc hparse with ⟨rfl, rfl⟩ | ⟨rfl, rfl⟩
  · exact Or.inl ⟨huser alice (Prod.ext_iff.mp (Option.some.inj hk)).2.symm, rfl⟩
  · exact Or.inr ⟨huser bob (Prod.ext_iff.mp (Option.some.inj hk)).2.symm, rfl⟩

/-- what is computed of the sessions; they share their beginning -/
theorem computed : ((PduCount.normal 10 ∈ later.tokens ∧ later.lost = none) ∧
      acknowledged room (.normal 10) later.log = true ∧
      (base room later.log).map (fun b => (b alice, b bob)) =
        some (some aliceJoin.pdu.eventId, some bobJoin.pdu.eventId)) ∧
    (PduCount.normal 12 ∈ page.tokens ∧ PduCount.normal 10 ∈ paged.tokens ∧
      paged.lost = some (some (.normal 10))) ∧
    summary (loadJoinedRoom .plain views alice phone room 10 12 true false false paged.store) =
        some (true, [], [bob, alice]) ∧
      members .plain (loadJoinedRoom .plain views alice phone room 10 12 true false false paged.store).2.db room bob =
        some bobJoin.pdu.eventId ∧
      bobJoin.pdu.eventId ∉ (held room paged.log).map PduEvent.eventId := by decide +kernel

theorem allowed_first : (Call.sync none false 10 [room] true).Allowed .plain alice newDevice :=
  ⟨nofun, nofun, le_refl _, [], roomsJoined_of (by decide +kernel), fun _ => rfl⟩

theorem allowed_later (received : Bool) :
    (Call.sync (some (.normal 10)) false 12 [room] received).Allowed .plain alice later := by
  obtain ⟨htoken, hnone⟩ := computed.1.1
  refine ⟨fun t ht => Option.some.inj ht ▸ htoken, fun t ht => ?_, le_refl _, [], roomsJoined_of (by decide +kernel),
    fun _ => rfl⟩
  rw [hnone] at ht
  cases ht

/-- every token was received, and the lost sync is tried again -/
theorem run_retried : Run .plain views alice phone (fun _ _ => True) retried := by
  have h0 : Run .plain views alice phone (fun _ _ => True) newDevice :=
    .start newDevice.store filed_joined (fun _ _ => rfl) fun _ _ => rfl
  have h1 : Run .plain views alice phone (fun _ _ => True) first := .call _ h0 allowed_first trivial
  have h2 : Run .plain views alice phone (fun _ _ => True) later :=
    .other _ h1 ⟨fun _ _ => rfl, fun _ _ => rfl⟩ filed_talking
  have h3 : Run .plain views alice phone (fun _ _ => True) lost := .call _ h2 (allowed_later false) trivial
  have hpage : (Call.messages ⟨room, none, .backward, none, 1⟩ true).Allowed .plain alice lost := nofun
  have h4 : Run .plain views alice phone (fun _ _ => True) page := .call _ h3 hpage trivial
  have hpaged : (Call.messages ⟨room, some (.normal 12), .forward, none, 10⟩ true).Allowed .plain alice page := by
    have htoken := computed.2.1.1
    exact fun t ht => Option.some.inj ht ▸ htoken
  have h5 : Run .plain views alice phone (fun _ _ => True) paged := .call _ h4 hpaged trivial
  have hretried : (Call.sync (some (.normal 10)) false 12 [room] true).Allowed .plain alice paged := by
    obtain ⟨htoken, hlost⟩ := computed.2.1.2
    refine ⟨fun t ht => Option.some.inj ht ▸ htoken, fun t ht => ?_, by decide +kernel, [],
      roomsJoined_of (by decide +kernel), fun _ => rfl⟩
    rw [hlost] at ht
    exact Option.some.inj ht
  exact .call _ h5 hretried trivial

/-- the second sync arrives -/
def second : Session := perform (.sync (some (.normal 10)) false 12 [room] true) later

theorem run_second : Run .plain views alice phone (Careful .plain views alice phone) second := by
  have h0 : Run .plain views alice phone (Careful .plain views alice phone) newDevice :=
    .start newDevice.store filed_joined (fun _ _ => rfl) fun _ _ => rfl
  have hcareful : Careful .plain views alice phone newDevice (.sync none false 10 [room] true) := ⟨nofun, nofun, trivial⟩
  have h1 : Run .plain views alice phone (Careful .plain views alice phone) first :=
    .call _ h0 allowed_first hcareful
  have h2 : Run .plain views alice phone (Careful .plain views alice phone) later :=
    .other _ h1 ⟨fun _ _ => rfl, fun _ _ => rfl⟩ filed_talking
  obtain ⟨hack, hbase⟩ := computed.1.2
  refine .call _ h2 (allowed_later true) ⟨fun _ => hack, fun b h hb _ x e _ he => ?_, trivial⟩
  rw [hb] at hbase
  obtain ⟨halice, hbob⟩ := Prod.ext_iff.mp (Option.some.inj hbase)
  rcases members_talking he with ⟨rfl, rfl⟩ | ⟨rfl, rfl⟩
  · exact halice
  · exact hbob

end LostSync

theorem members_kept_second : Kept LostSync.second.log := members_kept LostSync.run_second

/-- a run in which a member event is in no response that the device received -/
theorem withheld_after_messages :
    ¬ ∀ s, Run .plain LostSync.views LostSync.alice LostSync.phone (fun _ _ => True) s → Kept s.log := by
  intro hall
  have hkept := hall _ LostSync.run_retried
  obtain ⟨hanswer, hmember, hheld⟩ := LostSync.computed.2.2
  obtain ⟨out, store, hload⟩ : ∃ out store, loadJoinedRoom .plain LostSync.views LostSync.alice LostSync.phone
      LostSync.room 10 12 true false false LostSync.paged.store = (out, store) := ⟨_, _, rfl⟩
  rw [hload] at hanswer hmember
  cases out with
  | error err => cases hanswer
  | ok room =>
    have hlog : LostSync.retried.log = LostSync.paged.log ++
        [.sync LostSync.room true 12 room (members .plain store.db LostSync.room)] := sync_log hload
    obtain ⟨timeline, lim, prev, a⟩ := room
    obtain ⟨hincremental, hrest⟩ := Prod.ext_iff.mp (Option.some.inj hanswer)
    obtain ⟨hstate, hsenders⟩ := Prod.ext_iff.mp hrest
    cases a with
    | unchanged => cases hincremental
    | initialSync state l => cases hincremental
    | incremental state l =>
      have hbob : LostSync.bob ∈ timeline.map PduEvent.sender := by
        rw [show timeline.map PduEvent.sender = _ from hsenders]
        exact List.mem_cons_self
      obtain ⟨event, hevent, hsender⟩ := List.mem_map.mp hbob
      rcases hkept LostSync.paged.log [] _ _ _ _ _ hlog state l rfl event hevent _ (by rw [hsender]; exact hmember)
        with ⟨pdu, hpdu, -⟩ | ⟨pdu, hpdu, he⟩
      · have hnil : state = [] := List.map_eq_nil_iff.mp hstate
        rw [hnil] at hpdu
        exact absurd hpdu List.not_mem_nil
      · exact hheld (List.mem_map.mpr ⟨pdu, hpdu, he⟩)

end LazyLoading
end Grapevine
