import Grapevine.Rooms.RelationStore
import Grapevine.Sync.LazyLoading

/-!
# Tokens of clients

A client names the place where a page begins, and the routes make a bound of it by adding or subtracting
one, or by adding the limit.  `TokenUse` are the routes with such a token.

* `Inv.threadsUntil_exact_iff`   the scan of the thread roots;
* `collect_eq`                   the loop of a search takes the newest ids of all rooms;
* `searchPage_exact_iff`         and a page of it.

Main result: `tokenUse_exact_iff`, the tokens that every build answers with what lies behind them.
-/

namespace Grapevine
open Kv

namespace RelationStore

variable {env : Env} {st : RelationStore} {r : RoomId} {s : Nat}
variable {searches : List (List Bytes)} {until' : Nat} {c : PduCount}

/-! ## thread roots -/

/-- the event with this count is stored as a thread root of the room -/
def Root (st : RelationStore) (r : RoomId) (s : Nat) (c : PduCount) : Prop :=
  (∃ p, (r, c, p) ∈ st.building.log) ∧ st.threadidUserids.get (pduId s c) ≠ none

/-- the thread roots before a count, newest first -/
def ThreadsBefore (st : RelationStore) (user : UserId) (r : RoomId) (s until' : Nat)
    (out : Except Error (List (Except Error (Nat × PduEvent)))) : Prop :=
  ∃ cs : List PduCount, out = .ok (cs.map fun c => st.threadRoot user (pduId s c)) ∧
    cs.Pairwise (fun c d => d < c) ∧ ∀ c, c ∈ cs ↔ st.Root r s c ∧ c < .normal until'

/-- the rows of the thread roots of a room, newest first, as far as a condition on their keys goes -/
theorem Inv.root_rows (h : Inv st) (hr : st.building.roomidShortroomid r = some s) (P : Bytes → Prop)
    [DecidablePred P] :
    ∃ cs : List PduCount, (st.threadidUserids.rows.filter fun row => P row.1 ∧ be64 s <+: row.1).reverse.map
        Prod.fst = cs.map (pduId s) ∧ cs.Pairwise (fun c d => d < c) ∧
      ∀ c, c ∈ cs ↔ st.Root r s c ∧ P (pduId s c) := by
  have hvalid : ∀ c : PduCount, (∃ p, (r, c, p) ∈ st.building.log) → c.Valid := by
    intro c hc
    obtain ⟨p, hp⟩ := hc
    exact (h.events.log_le r c p hp).1
  have hword : ∀ q t, st.building.roomidShortroomid q = some t → t < 2^64 := fun q t hq =>
    (h.events.short_le q t hq).2.trans_lt h.events.counter_lt
  obtain ⟨cs, hcs, hsorted, hmem⟩ := @Tree.exists_family_back Bytes (List UserId) PduCount _ st.threadidUserids
    (fun key => P key ∧ be64 s <+: key) _ (fun c => ∃ p, (r, c, p) ∈ st.building.log) (pduId s) (· < ·)
    (fun row hrow hP => by
      have hget := (st.threadidUserids.get_eq_some_iff row.1 row.2).mpr hrow
      obtain ⟨e, he⟩ := h.roots row.1 (by rw [hget]; exact Option.some_ne_none _)
      obtain ⟨q, t, c, p, hlog, hq, hid⟩ := h.events.ids e row.1 he
      have hpre := hP.2
      rw [hid, roomPrefix_iff (hword r s hr) (hword q t hq)] at hpre
      subst hpre
      obtain rfl := h.events.short_inj q r s hq hr
      exact ⟨c, ⟨p, hlog⟩, hid⟩)
    (fun c d hc hd heq => pduId_count (hvalid c hc) (hvalid d hd) heq)
    (fun c d hc hd hlt => (pduId_lt_iff s (hvalid c hc) (hvalid d hd)).mp hlt)
  refine ⟨cs, hcs, hsorted, fun c => (hmem c).trans ?_⟩
  rw [and_iff_left (show be64 s <+: pduId s c from List.prefix_append _ _), ← and_assoc]
  rfl

theorem threadsUntil_debug (hr : st.building.roomidShortroomid r = some s) (user : UserId) :
    ∃ e, threadsUntil .debug st user r 0 = .error e := by
  unfold threadsUntil
  rw [hr]
  exact ⟨.panic "attempt to subtract with overflow", rfl⟩

/-- the id of a count is at most the bound of a scan -/
theorem pduId_le_iff_lt (hc : c.Valid) (h1 : 1 ≤ until') (hlt : until' < 2^64) :
    pduId s c ≤ be64 s ++ be64 (until' - 1) ↔ c < .normal until' ∧ (until' = 1 → ∃ x, c = .normal x) := by
  unfold pduId
  rw [append_le_append_iff]
  cases c with
  | normal x =>
    have hx : x < 2^64 := hc.2
    show be 8 x ≤ be 8 (until' - 1) ↔ _
    rw [be_le_iff (two64 ▸ hx) (by rw [two64]; omega), PduCount.normal_lt_normal,
      and_iff_left (fun _ => ⟨x, rfl⟩)]
    omega
  | backfilled x =>
    show be64 0 ++ be64 (wrapSub u64Max x) ≤ be64 (until' - 1) ↔ _
    rw [and_iff_right (PduCount.backfilled_lt_normal x until')]
    by_cases hone : until' = 1
    · subst hone
      refine iff_of_false (fun hle => ?_) fun hex => ?_
      · refine @Building.pduId_not_le_zero s (.backfilled x) hc ?_
        unfold pduId
        rw [append_le_append_iff]
        exact hle
      · obtain ⟨y, hy⟩ := hex rfl
        cases hy
    · refine iff_of_true ?_ fun h => absurd h hone
      have hbelow := be_append_lt (w := 8) (show until' - 1 < 256^8 by rw [two64]; omega)
        (show 0 < until' - 1 by omega) (be64 (wrapSub u64Max x)) []
      rw [List.append_nil] at hbelow
      exact hbelow.le

theorem Inv.threadsUntil_rows (h : Inv st) (hr : st.building.roomidShortroomid r = some s) (user : UserId)
    (h1 : 1 ≤ until') (hlt : until' < 2^64) (build : Build) :
    ∃ cs : List PduCount, threadsUntil build st user r until' =
        .ok (cs.map fun c => st.threadRoot user (pduId s c)) ∧ cs.Pairwise (fun c d => d < c) ∧
      ∀ c, c ∈ cs ↔ st.Root r s c ∧ c < .normal until' ∧ (until' = 1 → ∃ x, c = .normal x) := by
  obtain ⟨cs, hcs, hsorted, hmem⟩ := h.root_rows hr fun key => key ≤ be64 s ++ be64 (until' - 1)
  refine ⟨cs, ?_, hsorted, fun c => (hmem c).trans (and_congr_right fun hc => ?_)⟩
  · unfold threadsUntil
    rw [hr, Build.sub_of_le build h1]
    have hcomp := congrArg (List.map (st.threadRoot user)) hcs
    rw [List.map_map, List.map_map] at hcomp
    show Except.ok (((st.threadidUserids.iterFrom (be64 s ++ be64 (until' - 1)) true).takeWhile fun row =>
      (be64 s).isPrefixOf row.1).map fun row => st.threadRoot user row.1) = _
    rw [Tree.takeWhile_iterFrom_back st.threadidUserids (List.prefix_append _ _)]
    exact congrArg Except.ok hcomp
  · obtain ⟨p, hp⟩ := hc.1
    exact pduId_le_iff_lt (h.events.log_le r c p hp).1 h1 hlt

/-- the thread roots before a token are found exactly for the tokens without overflow that have an id right
below, or nothing below -/
theorem Inv.threadsUntil_exact_iff (h : Inv st) (hr : st.building.roomidShortroomid r = some s) (user : UserId)
    (hlt : until' < 2^64) :
    (∀ build, ThreadsBefore st user r s until' (threadsUntil build st user r until')) ↔
      until' ≠ 0 ∧ (until' = 1 → ∀ x, ¬ st.Root r s (.backfilled x)) := by
  by_cases hzero : until' = 0
  · subst hzero
    refine iff_of_false (fun hall => ?_) fun hne => hne.1 rfl
    obtain ⟨e, he⟩ := @threadsUntil_debug st r s hr user
    obtain ⟨cs, hcs, _⟩ := hall .debug
    rw [he] at hcs
    cases hcs
  · have h1 : 1 ≤ until' := Nat.one_le_iff_ne_zero.mpr hzero
    rw [and_iff_right hzero]
    constructor
    · intro hall hone x hroot
      obtain ⟨cs, hcs, _, hmem⟩ := hall .debug
      obtain ⟨ds, hds, _, hmem'⟩ := h.threadsUntil_rows hr user h1 hlt .debug
      -- the scan has the normal counts below one only, and there are none
      have hnil : ds = [] := by
        refine List.eq_nil_iff_forall_not_mem.mpr fun d hd => ?_
        obtain ⟨hroot', hbelow, hnormal⟩ := (hmem' d).mp hd
        obtain ⟨y, rfl⟩ := hnormal hone
        obtain ⟨p, hp⟩ := hroot'.1
        have hy : 1 ≤ y := (h.events.log_le r _ p hp).1.1
        rw [PduCount.normal_lt_normal] at hbelow
        omega
      rw [hnil] at hds
      have hlen := congrArg List.length (Except.ok.inj (hcs.symm.trans hds))
      rw [List.length_map, List.length_map] at hlen
      have hempty := List.eq_nil_of_length_eq_zero hlen
      rw [hempty] at hmem
      exact List.not_mem_nil ((hmem _).mpr ⟨hroot, PduCount.backfilled_lt_normal _ _⟩)
    · intro hnone build
      obtain ⟨cs, hcs, hsorted, hmem⟩ := h.threadsUntil_rows hr user h1 hlt build
      refine ⟨cs, hcs, hsorted, fun c => (hmem c).trans (and_congr_right fun hroot => ?_)⟩
      refine and_iff_left fun hone => ?_
      cases c with
      | normal x => exact ⟨x, rfl⟩
      | backfilled x => exact absurd hroot (hnone hone x)

/-! ## relations of an event -/

/-- the service's `relations_until`, after `get_or_create_shortroomid` -/
def eventRelationsUntil (build : Build) (st : RelationStore) (user : UserId) (shortroomid : Nat)
    (target : EventId) (until' : PduCount) : Except Error (List (Except Error (PduCount × PduEvent))) := do
  let target := match ← st.building.timeline.getPduCount target with
    | some (.normal c) => c
    -- TODO in the source: backfilled relations; the iterator is empty
    | _ => 0
  relationsUntil build st user shortroomid target until'

/-- the count of a target, `0` if it has no normal one -/
def targetWord (st : RelationStore) (target : EventId) : Nat :=
  match st.building.timeline.getPduCount target with
  | .ok (some (.normal c)) => c
  | _ => 0

theorem Inv.eventRelationsUntil_eq (h : Inv st) (build : Build) (user : UserId) (s : Nat) (target : EventId)
    (until' : PduCount) : eventRelationsUntil build st user s target until' =
      relationsUntil build st user s (st.targetWord target) until' := by
  unfold eventRelationsUntil targetWord
  cases hid : st.building.timeline.eventidPduid target with
  | none =>
    have hcount : st.building.timeline.getPduCount target = .ok none := by
      unfold TimelineTables.getPduCount
      rw [hid]
    rw [hcount]
    rfl
  | some id =>
    obtain ⟨r, t, c, p, hlog, hr, rfl⟩ := h.events.ids target id hid
    rw [getPduCount_of_id h.events hlog hr hid]
    cases c with
    | normal x => rfl
    | backfilled x => rfl

/-! ## the loop of a search -/

/-- the newest of the next ids, and what is left; of equal ones, that of the last room -/
def takeNewest : List (List Bytes) → Option (Bytes × List (List Bytes))
  | [] => none
  | [] :: searches => (takeNewest searches).map fun x => (x.1, [] :: x.2)
  | (id :: ids) :: searches =>
    match takeNewest searches with
    | none => some (id, ids :: searches)
    | some (id', searches') =>
      if id' < id then some (id, ids :: searches) else some (id', (id :: ids) :: searches')

/-- the results of the loop, and what is left of the searches -/
def collect : Nat → List (List Bytes) → List Bytes × List (List Bytes)
  | 0, searches => ([], searches)
  | rounds + 1, searches =>
    match takeNewest searches with
    | some (id, searches') => (id :: (collect rounds searches').1, (collect rounds searches').2)
    | none => collect rounds searches

structure SearchPage where
  results : List PduEvent
  nextBatch : Option Nat

def isRedacted (pdu : PduEvent) : Bool :=
  match pdu.unsigned.bind fun unsigned => unsigned.get "redacted_because" with
  | none => false
  | some .null => false
  | some _ => true

/-- the event of a result, if it is shown -/
def searchedEvent (st : RelationStore) (userCanSeeEvent : RoomId → EventId → Bool) (id : Bytes) :
    Option PduEvent :=
  (st.building.timeline.getPduFromId id).filter fun pdu =>
    !isRedacted pdu && userCanSeeEvent pdu.roomId pdu.eventId

/-- at most 100, or else 10 -/
def searchLimit (limit : Option Nat) : Nat := (limit.map fun x => min x 100).getD 10

def searchPage (build : Build) (event : Bytes → Option PduEvent) (searches : List (List Bytes))
    (limit skip : Nat) : Except Error SearchPage := do
  let rounds ← build.add skip limit
  let (results, searches) := collect rounds searches
  let results := ((results.drop skip).filterMap event).take limit
  let moreUnloadedResults := searches.any fun search => !search.isEmpty
  let nextBatch ← if moreUnloadedResults then (build.add skip limit).map some else .ok none
  return ⟨results, nextBatch⟩

def total (searches : List (List Bytes)) : Nat := (searches.map List.length).sum

/-- the ids of all rooms, newest first -/
def merged (searches : List (List Bytes)) : List Bytes := (collect (total searches) searches).1

theorem takeNewest_none (h : takeNewest searches = none) :
    total searches = 0 := by
  induction searches with
  | nil => rfl
  | cons search searches ih =>
    cases search with
    | nil =>
      have hrest := ih (Option.map_eq_none_iff.mp h)
      simpa [total] using hrest
    | cons id ids =>
      unfold takeNewest at h
      cases hrest : takeNewest searches with
      | none =>
        rw [hrest] at h
        cases h
      | some x =>
        rw [hrest] at h
        simp only at h
        split at h
        · cases h
        · cases h

/-- the newest id is taken from the first search, or from one of the others -/
theorem takeNewest_cons {search : List Bytes} {searches' : List (List Bytes)} {id : Bytes}
    (h : takeNewest (search :: searches) = some (id, searches')) :
    (∃ ids, search = id :: ids ∧ searches' = ids :: searches ∧ ∀ x, takeNewest searches = some x → x.1 < id) ∨
      ∃ rest, takeNewest searches = some (id, rest) ∧ searches' = search :: rest ∧
        ∀ first ∈ search.head?, first ≤ id := by
  cases search with
  | nil =>
    obtain ⟨x, hx, heq⟩ := Option.map_eq_some_iff.mp h
    cases heq
    exact Or.inr ⟨x.2, hx, rfl, nofun⟩
  | cons first ids =>
    unfold takeNewest at h
    cases hrest : takeNewest searches with
    | none =>
      rw [hrest] at h
      cases h
      exact Or.inl ⟨ids, rfl, rfl, nofun⟩
    | some x =>
      rw [hrest] at h
      simp only at h
      split at h
      · next hlt =>
        cases h
        refine Or.inl ⟨ids, rfl, rfl, fun y hy => ?_⟩
        cases hy
        exact hlt
      · next hnot =>
        cases h
        refine Or.inr ⟨x.2, rfl, rfl, fun a ha => ?_⟩
        cases ha
        exact not_lt.mp hnot

theorem takeNewest_some {searches' : List (List Bytes)} {id : Bytes}
    (h : takeNewest searches = some (id, searches')) : total searches = total searches' + 1 := by
  induction searches generalizing searches' id with
  | nil => cases h
  | cons search searches ih =>
    rcases takeNewest_cons h with ⟨ids, rfl, rfl, -⟩ | ⟨rest, hrest, rfl, -⟩
    · simp only [total, List.map_cons, List.sum_cons, List.length_cons]
      omega
    · have htail := ih hrest
      simp only [total, List.map_cons, List.sum_cons] at htail ⊢
      omega

theorem collect_none (h : takeNewest searches = none) (rounds : Nat) :
    collect rounds searches = ([], searches) := by
  induction rounds with
  | zero => rfl
  | succ rounds ih =>
    unfold collect
    rw [h]
    exact ih

/-- each round takes the next of the ids, and nothing else -/
theorem collect_eq (rounds : Nat) (searches : List (List Bytes)) :
    (collect rounds searches).1 = (merged searches).take rounds ∧
      total (collect rounds searches).2 = total searches - rounds ∧
        (merged searches).length = total searches := by
  induction htotal : total searches generalizing rounds searches with
  | zero =>
    have hnone : takeNewest searches = none := by
      cases hnewest : takeNewest searches with
      | none => rfl
      | some x =>
        have hsome := takeNewest_some hnewest
        omega
    unfold merged
    rw [collect_none hnone, collect_none hnone, htotal]
    simp
  | succ n ih =>
    cases hnewest : takeNewest searches with
    | none =>
      have hnone := takeNewest_none hnewest
      omega
    | some x =>
      obtain ⟨id, searches'⟩ := x
      have hrest : total searches' = n := by
        have hsome := takeNewest_some hnewest
        omega
      have hmerged : merged searches = id :: merged searches' := by
        unfold merged
        rw [htotal, hrest]
        conv_lhs => unfold collect
        rw [hnewest]
      rw [hmerged]
      cases rounds with
      | zero =>
        refine ⟨rfl, htotal, ?_⟩
        rw [List.length_cons, (ih 0 searches' hrest).2.2]
      | succ rounds =>
        obtain ⟨hids, hleft, hlen⟩ := ih rounds searches' hrest
        unfold collect
        rw [hnewest]
        refine ⟨?_, ?_, ?_⟩
        · rw [List.take_succ_cons, ← hids]
        · show total (collect rounds searches').2 = _
          rw [hleft]
          omega
        · rw [List.length_cons, hlen]

theorem any_nonempty_iff (searches : List (List Bytes)) :
    (searches.any fun search => !search.isEmpty) = true ↔ 0 < total searches := by
  induction searches with
  | nil => simp [total]
  | cons search searches ih =>
    unfold total at ih ⊢
    rw [List.any_cons, Bool.or_eq_true, ih, List.map_cons, List.sum_cons]
    cases search with
    | nil => simp
    | cons id ids => simp

/-- the page is cut from the ids of all rooms -/
def SearchExact (event : Bytes → Option PduEvent) (searches : List (List Bytes)) (limit skip : Nat)
    (out : Except Error SearchPage) : Prop :=
  out = .ok ⟨(((merged searches).drop skip).take limit).filterMap event,
    if skip + limit < (merged searches).length then some (skip + limit) else none⟩

theorem searchPage_exact_iff (event : Bytes → Option PduEvent) (searches : List (List Bytes))
    (limit skip : Nat) :
    (∀ build, SearchExact event searches limit skip (searchPage build event searches limit skip)) ↔
      skip + limit < 2^64 := by
  constructor
  · intro hall
    by_contra hnot
    have hdebug := hall .debug
    unfold SearchExact searchPage at hdebug
    rw [Build.add_debug hnot] at hdebug
    cases hdebug
  · intro hlt build
    obtain ⟨hids, hleft, hlen⟩ := collect_eq (skip + limit) searches
    have hresults : (((collect (skip + limit) searches).1.drop skip).filterMap event).take limit =
        (((merged searches).drop skip).take limit).filterMap event := by
      rw [hids, List.drop_take, Nat.add_sub_cancel_left, List.take_of_length_le]
      exact (List.length_filterMap_le _ _).trans (List.length_take_le _ _)
    have hmore : (if ((collect (skip + limit) searches).2.any fun search => !search.isEmpty) = true
        then some (skip + limit) else none) =
          if skip + limit < (merged searches).length then some (skip + limit) else none := by
      refine if_congr ?_ rfl rfl
      rw [any_nonempty_iff, hleft, hlen]
      omega
    unfold SearchExact searchPage
    rw [Build.add_of_lt build hlt, ← hresults, ← hmore]
    simp only [bind, Except.bind]
    cases (collect (skip + limit) searches).2.any fun search => !search.isEmpty with
    | true => rfl
    | false => rfl

/-! ## tokens -/

/-- a route with the count that it made of its token -/
inductive TokenUse where
  | messages (dir : LazyLoading.Direction) (from' : PduCount)
  | relations (target : EventId) (from' : PduCount)
  | threads (from' : Nat)
  /-- the searches of the rooms, the limit of the filter, and the `next_batch` -/
  | search (searches : List (List Bytes)) (limit : Option Nat) (skip : Nat)

/-- there is a token that the route accepts -/
def TokenUse.Accepted : TokenUse → Prop
  | .messages _ c => ∃ token, PduCount.tryFromString token = .ok c
  | .relations _ c => ∃ token, PduCount.tryFromString token = .ok c
  | .threads n => ∃ token : String, parseU64 token.toList = some n
  | .search _ _ n => ∃ token : String, parseU64 token.toList = some n

/-- the answer of a build has what lies before or after the token, in this order, and nothing else -/
def TokenUse.Exact (build : Build) (st : RelationStore) (userCanSeeEvent : RoomId → EventId → Bool)
    (user : UserId) (r : RoomId) (s : Nat) : TokenUse → Prop
  | .messages .forward c => st.building.Yields r user (fun d => c < d) (fun x y => x < y)
      (st.building.timeline.pdusAfterIn build (st.building.roomidShortroomid r) user c)
  | .messages .backward c => st.building.Yields r user (fun d => d < c) (fun x y => y < x)
      (st.building.timeline.pdusUntilIn build (st.building.roomidShortroomid r) user c)
  | .relations target c => st.RelationsBefore user s (st.targetWord target) c
      (st.eventRelationsUntil build user s target c)
  | .threads n => st.ThreadsBefore user r s n (st.threadsUntil build user r n)
  | .search searches limit skip => SearchExact (st.searchedEvent userCanSeeEvent) searches (searchLimit limit)
      skip (searchPage build (st.searchedEvent userCanSeeEvent) searches (searchLimit limit) skip)

/-- the tokens that have a neighbour on the side of the page -/
def TokenUse.InBounds (st : RelationStore) (r : RoomId) (s : Nat) : TokenUse → Prop
  | .messages .forward c => c ≠ .max ∧ c ≠ .backfilled 0
  | .messages .backward c => c ≠ .normal 0 ∧
      (c = .normal 1 → ∀ x p, (r, .backfilled x, p) ∉ st.building.log) ∧
        (c = .min → ∀ p, (r, .min, p) ∉ st.building.log)
  | .relations _ c => c ≠ .normal 0 ∧ c ≠ .min
  | .threads n => n ≠ 0 ∧ (n = 1 → ∀ x, ¬ st.Root r s (.backfilled x))
  | .search _ limit skip => skip + searchLimit limit < 2^64

theorem fits_forward_iff (hc : c.InRange) :
    c.Fits false ↔ c ≠ .max ∧ c ≠ .backfilled 0 := by
  cases c with
  | normal x =>
    have hx : x < 2^64 := hc
    show x < u64Max ↔ _
    simp only [PduCount.max, ne_eq, PduCount.normal.injEq, reduceCtorEq, not_false_eq_true, and_true]
    rw [u64Max_eq]
    omega
  | backfilled x =>
    show 1 ≤ x ↔ _
    simp only [PduCount.max, ne_eq, PduCount.backfilled.injEq, reduceCtorEq, not_false_eq_true, true_and]
    omega

theorem fits_backward_iff (c : PduCount) : c.Fits true ↔ c ≠ .normal 0 := by
  cases c with
  | normal x =>
    show 1 ≤ x ↔ _
    simp only [ne_eq, PduCount.normal.injEq]
    omega
  | backfilled x => exact iff_of_true trivial nofun

/-- a token is answered by every build with what lies behind it exactly if it has a neighbour there -/
theorem tokenUse_exact_iff (env : Env) (ops : List Building.Op) {st : RelationStore}
    (hrun : run env empty ops = some st) (userCanSeeEvent : RoomId → EventId → Bool) (user : UserId)
    {r : RoomId} {s : Nat} (hr : st.building.roomidShortroomid r = some s) {use : TokenUse}
    (huse : use.Accepted) :
    (∀ build, use.Exact build st userCanSeeEvent user r s) ↔ use.InBounds st r s := by
  have h : Inv st := inv_empty.run ops hrun
  cases use with
  | messages dir c =>
    obtain ⟨token, htoken⟩ := huse
    have hc := PduCount.tryFromString_inRange htoken
    cases dir with
    | forward => exact (Building.pdusAfterIn_exact_iff h.events.toInv hr user hc).trans (fits_forward_iff hc)
    | backward =>
      refine (Building.pdusUntilIn_exact_iff h.events.toInv hr user hc).trans ?_
      rw [fits_backward_iff]
      rfl
  | relations target c =>
    obtain ⟨token, htoken⟩ := huse
    have hiff := h.relationsUntil_exact_iff user s (st.targetWord target)
      (PduCount.tryFromString_inRange htoken)
    simp only [← h.eventRelationsUntil_eq] at hiff
    exact hiff
  | threads n =>
    obtain ⟨token, htoken⟩ := huse
    exact h.threadsUntil_exact_iff hr user (parseU64_lt htoken)
  | search searches limit skip => exact searchPage_exact_iff _ _ _ _

/-- the token `5` of the threads of a room -/
theorem tokenUse_exact_iff_five : ∃ st, run .plain empty [.room ⟨.ascii "!r:x"⟩] = some st ∧
    ((∀ build, (TokenUse.threads 5).Exact build st (fun _ _ => true) ⟨.ascii "@u:x"⟩ ⟨.ascii "!r:x"⟩ 1) ↔
      (TokenUse.threads 5).InBounds st ⟨.ascii "!r:x"⟩ 1) :=
  ⟨_, rfl, tokenUse_exact_iff .plain [.room ⟨.ascii "!r:x"⟩] rfl (fun _ _ => true) ⟨.ascii "@u:x"⟩ rfl
    ⟨"5", rfl⟩⟩

/-- the token `0` stops a debug build -/
theorem tokenUse_zero_not_exact : ¬ ∀ (env : Env) (ops : List Building.Op) (st : RelationStore),
    run env empty ops = some st → ∀ (userCanSeeEvent : RoomId → EventId → Bool) (user : UserId) (r : RoomId)
      (s : Nat), st.building.roomidShortroomid r = some s → ∀ use : TokenUse, use.Accepted →
        ∀ build, use.Exact build st userCanSeeEvent user r s := by
  intro hall
  let r : RoomId := ⟨.ascii "!r:x"⟩
  let user : UserId := ⟨.ascii "@u:x"⟩
  obtain ⟨st, hrun, hr⟩ : ∃ st, run .plain empty [.room r] = some st ∧
      st.building.roomidShortroomid r = some 1 := ⟨_, rfl, rfl⟩
  have hzero : ¬ (PduCount.normal 0).Fits true := Nat.not_succ_le_zero 0
  have hrange : (PduCount.normal 0).InRange := Nat.two_pow_pos 64
  obtain ⟨e, he⟩ := st.building.timeline.pdusUntilIn_debug 1 user hrange hzero
  have hdebug := hall .plain _ st hrun (fun _ _ => true) user r 1 hr (.messages .backward (.normal 0))
    ⟨"0", rfl⟩ .debug
  simp only [TokenUse.Exact, hr, he] at hdebug
  exact hdebug.not_error

end RelationStore

end Grapevine
