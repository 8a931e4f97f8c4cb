import Grapevine.Lib.Paging
import Grapevine.Rooms.Pagination

/-!
# History

A client follows the tokens of `/messages` in one direction, or those of `/threads`.  A page is cut from the
scan before the events that the user may not see are left out of it (`cutPage`), and its token is that of
the last event that is left.

* `getMessages`, `getThreads`    the routes;
* `messagesPage`, `threadsPage`  the page behind a returned token;
* `Received`                     what the pages hold together, each event once.

Main result: `history_received_iff`.  The pages hold all visible events exactly if no visible event has an
extreme count, and none stands behind a whole page of hidden ones.
-/

namespace Grapevine
open Kv

namespace RelationStore

open LazyLoading (Direction)

variable {c : PduCount} {p : PduJson}

/-! ## pages -/

section
variable {α τ : Type}

/-- a page, by what `user_can_see_event` says -/
def cutPage (see : EventId → Bool) (limit : Nat) (items : List (Except Error (τ × PduEvent))) :
    List (τ × PduEvent) :=
  ((items.take limit).filterMap Except.toOption).filter fun x => see x.2.eventId

/-- an item that goes on the page -/
def visible (see : EventId → Bool) (item : Except Error (τ × PduEvent)) : Option (τ × PduEvent) :=
  item.toOption.filter fun x => see x.2.eventId

theorem cutPage_map (see : EventId → Bool) (limit : Nat) (item : α → Except Error (τ × PduEvent)) (l : List α) :
    cutPage see limit (l.map item) = (l.take limit).filterMap fun a => visible see (item a) := by
  unfold cutPage visible
  rw [← List.map_take, List.filterMap_map, List.filter_filterMap]
  rfl

/-- the pages from the first on hold what is expected, each event once -/
def Received (page : Option τ → Except Error (List (τ × PduEvent))) (expected : τ × PduEvent → Prop) : Prop :=
  ∃ out, Chain page none out ∧ out.Nodup ∧ ∀ x, x ∈ out ↔ expected x

end

/-- the order of a direction -/
def precedes : Direction → PduCount → PduCount → Prop
  | .forward, c, d => c < d
  | .backward, c, d => d < c

def startOf : Direction → PduCount
  | .forward => .min
  | .backward => .max

def endOf : Direction → PduCount
  | .forward => .max
  | .backward => .min

/-! ## `/messages` -/

def scan (build : Build) (b : Building) (user : UserId) (r : RoomId) (c : PduCount) :
    Direction → Except Error (List (Except Error (PduCount × PduEvent)))
  | .forward => b.timeline.pdusAfterIn build (b.roomidShortroomid r) user c
  | .backward => b.timeline.pdusUntilIn build (b.roomidShortroomid r) user c

def getMessages (build : Build) (b : Building) (see : EventId → Bool) (user : UserId) (r : RoomId)
    (dir : Direction) (limit : Nat) (from' : Option String) : Except Error (List (PduCount × PduEvent)) := do
  let from' ← match from' with
    | some token => PduCount.tryFromString token
    | none => .ok (startOf dir)
  let pdus ← scan build b user r from' dir
  return cutPage see (min limit 100) pdus

/-- the page behind the token that the route made of a count -/
def messagesPage (build : Build) (b : Building) (see : EventId → Bool) (user : UserId) (r : RoomId)
    (dir : Direction) (limit : Nat) (token : Option PduCount) : Except Error (List (PduCount × PduEvent)) :=
  getMessages build b see user r dir limit (token.map PduCount.stringify)

/-- a visible event of the room, as it is shown -/
def VisibleEvent (b : Building) (see : EventId → Bool) (user : UserId) (r : RoomId)
    (x : PduCount × PduEvent) : Prop :=
  ∃ e : PduCount × PduJson, (r, e.1, e.2) ∈ b.log ∧ see e.2.pdu.eventId = true ∧ x = Building.shown user e

/-- the events of the room that are behind the start -/
structure History (b : Building) (r : RoomId) (dir : Direction) (l : List (PduCount × PduJson)) : Prop where
  sorted : l.Pairwise fun d e => precedes dir d.1 e.1
  mem : ∀ e, e ∈ l ↔ (r, e.1, e.2) ∈ b.log ∧ precedes dir (startOf dir) e.1

/-- an entry of the log that is shown -/
def shownIf (see : EventId → Bool) (user : UserId) (e : PduCount × PduJson) : Option (PduCount × PduEvent) :=
  visible see (.ok (Building.shown user e))

/-- `n` hidden events in a row, and a visible one behind them -/
def HiddenRun (b : Building) (see : EventId → Bool) (user : UserId) (r : RoomId) (dir : Direction) (n : Nat) :
    Prop :=
  ∃ l, History b r dir l ∧ Gap n (shownIf see user) l

section
variable {b : Building} {r : RoomId} {s : Nat} {see : EventId → Bool} {user : UserId} {dir : Direction}
  {limit : Nat}
variable {l : List (PduCount × PduJson)} {out : List (PduCount × PduEvent)}
  {x : PduCount × PduEvent} {e : PduCount × PduJson}

theorem precedes_asymm (c d : PduCount) (h : precedes dir c d) : ¬ precedes dir d c := by
  cases dir with
  | forward =>
    change c < d at h
    show ¬ d < c
    rw [PduCount.lt_iff_rank] at h ⊢
    omega
  | backward =>
    change d < c at h
    show ¬ c < d
    rw [PduCount.lt_iff_rank] at h ⊢
    omega

theorem precedes_trans {c d e : PduCount} (h : precedes dir c d) (h' : precedes dir d e) : precedes dir c e := by
  cases dir with
  | forward =>
    change c < d at h
    change d < e at h'
    show c < e
    rw [PduCount.lt_iff_rank] at h h' ⊢
    omega
  | backward =>
    change d < c at h
    change e < d at h'
    show e < c
    rw [PduCount.lt_iff_rank] at h h' ⊢
    omega

theorem rank_bounds (hc : c.InRange) :
    PduCount.min.rank ≤ c.rank ∧ c.rank ≤ PduCount.max.rank := by
  have hmin : PduCount.min.rank = -(u64Max : Int) - 1 := rfl
  have hmax : PduCount.max.rank = (u64Max : Int) := rfl
  rw [hmin, hmax, u64Max_eq]
  cases c with
  | normal x =>
    have hx : x < 2^64 := hc
    show _ ≤ (x : Int) ∧ (x : Int) ≤ _
    omega
  | backfilled x =>
    have hx : x < 2^64 := hc
    show _ ≤ -(x : Int) - 1 ∧ -(x : Int) - 1 ≤ _
    omega

theorem not_precedes_start (hc : c.InRange) : ¬ precedes dir c (startOf dir) := by
  have hbounds := rank_bounds hc
  cases dir with
  | forward =>
    show ¬ c < .min
    rw [PduCount.lt_iff_rank]
    omega
  | backward =>
    show ¬ PduCount.max < c
    rw [PduCount.lt_iff_rank]
    omega

theorem not_end_precedes (hc : c.InRange) : ¬ precedes dir (endOf dir) c := by
  have hbounds := rank_bounds hc
  cases dir with
  | forward =>
    show ¬ PduCount.max < c
    rw [PduCount.lt_iff_rank]
    omega
  | backward =>
    show ¬ c < .min
    rw [PduCount.lt_iff_rank]
    omega

theorem rank_inj {d : PduCount} (h : c.rank = d.rank) : c = d := by
  cases c with
  | normal x =>
    cases d with
    | normal y =>
      change (x : Int) = y at h
      rw [show x = y by omega]
    | backfilled y =>
      change (x : Int) = -(y : Int) - 1 at h
      omega
  | backfilled x =>
    cases d with
    | normal y =>
      change -(x : Int) - 1 = y at h
      omega
    | backfilled y =>
      change -(x : Int) - 1 = -(y : Int) - 1 at h
      rw [show x = y by omega]

theorem start_precedes_iff (hc : c.InRange) : precedes dir (startOf dir) c ↔ c ≠ startOf dir := by
  have hbounds := rank_bounds hc
  have hne : ∀ d : PduCount, c ≠ d ↔ c.rank ≠ d.rank := fun d =>
    not_congr ⟨fun h => by rw [h], rank_inj⟩
  cases dir with
  | forward =>
    show PduCount.min < c ↔ c ≠ .min
    rw [PduCount.lt_iff_rank, hne]
    omega
  | backward =>
    show c < .max ↔ c ≠ .max
    rw [PduCount.lt_iff_rank, hne]
    omega

/-! ## the scan behind a token -/

theorem shown_eventId (e : PduCount × PduJson) : (Building.shown user e).2.eventId = e.2.pdu.eventId := by
  unfold Building.shown PduEvent.addAge PduEvent.removeTransactionId
  by_cases hsender : e.2.pdu.sender ≠ user
  · simp only [if_pos hsender]
    cases e.2.pdu.unsigned with
    | none => rfl
    | some u => rfl
  · simp only [if_neg hsender]

theorem shownIf_eq (e : PduCount × PduJson) :
    shownIf see user e = if see e.2.pdu.eventId = true then some (Building.shown user e) else none := by
  unfold shownIf visible
  show (some (Building.shown user e)).filter (fun x => see x.2.eventId) = _
  rw [Option.filter_some, shown_eventId]

theorem shownIf_eq_some :
    shownIf see user e = some x ↔ see e.2.pdu.eventId = true ∧ x = Building.shown user e := by
  rw [shownIf_eq]
  constructor
  · intro h
    obtain ⟨hsee, hx⟩ := Option.ite_none_right_eq_some.mp h
    exact ⟨hsee, (Option.some.inj hx).symm⟩
  · intro h
    rw [if_pos h.1, h.2]

/-- a stored count is above the word of its room -/
theorem logged_count (h : Indexed b) (hr : b.roomidShortroomid r = some s) (hlog : (r, c, p) ∈ b.log) :
    c.Valid ∧ 2 ≤ Building.raw c := by
  have hword := (h.short_le r s hr).1
  have habove := h.above r c p s hlog hr
  exact ⟨(h.log_le r c p hlog).1, by omega⟩

/-- a token of the route, other than that of the last count of all, or the start -/
def TokenOf (b : Building) (r : RoomId) (dir : Direction) (c : PduCount) : Prop :=
  c = startOf dir ∨ (∃ p, (r, c, p) ∈ b.log) ∧ c ≠ endOf dir

/-- in every build, the scan behind it is what comes after it -/
theorem scan_yields (h : Indexed b) (hr : b.roomidShortroomid r = some s) {c : PduCount}
    (hc : TokenOf b r dir c) (build : Build) :
    b.Yields r user (precedes dir c) (precedes dir) (scan build b user r c dir) := by
  cases dir with
  | forward =>
    have hfits : c.InRange ∧ c.Fits false := by
      rcases hc with rfl | ⟨⟨p, hlog⟩, hend⟩
      · exact ⟨u64Max_lt, (show 1 ≤ u64Max by rw [u64Max_eq]; omega)⟩
      · obtain ⟨hvalid, hraw⟩ := logged_count h hr hlog
        refine ⟨hvalid.inRange, (fits_forward_iff hvalid.inRange).mpr ⟨hend, fun hzero => ?_⟩⟩
        rw [hzero] at hraw
        exact absurd hraw (by decide)
    exact (Building.pdusAfterIn_exact_iff h.toInv hr user hfits.1).mpr hfits.2 build
  | backward =>
    have hfits : c.InRange ∧ (∀ x, c = .normal x → 2 ≤ x) ∧ c ≠ .min := by
      rcases hc with rfl | ⟨⟨p, hlog⟩, hend⟩
      · refine ⟨u64Max_lt, fun x hx => ?_, nofun⟩
        obtain rfl : u64Max = x := PduCount.normal.inj hx
        rw [u64Max_eq]
        omega
      · obtain ⟨hvalid, hraw⟩ := logged_count h hr hlog
        refine ⟨hvalid.inRange, fun x hx => ?_, hend⟩
        rw [hx] at hraw
        exact hraw
    refine (Building.pdusUntilIn_exact_iff h.toInv hr user hfits.1).mpr
      ⟨(fits_backward_iff c).mpr fun hzero => ?_, fun hone => ?_, fun hmin => absurd hmin hfits.2.2⟩ build
    · exact absurd (hfits.2.1 0 hzero) (by omega)
    · exact absurd (hfits.2.1 1 hone) (by omega)

theorem TokenOf.inRange (h : Indexed b) (hc : TokenOf b r dir c) : c.InRange := by
  rcases hc with rfl | ⟨⟨p, hlog⟩, _⟩
  · cases dir with
    | forward => exact u64Max_lt
    | backward => exact u64Max_lt
  · exact (h.log_le r c p hlog).1.inRange

/-- the page of a count that is in range -/
theorem messagesPage_some (build : Build) (hc : c.InRange) :
    messagesPage build b see user r dir limit (some c) =
      (scan build b user r c dir).map (cutPage see (min limit 100)) := by
  unfold messagesPage getMessages
  show (PduCount.tryFromString c.stringify).bind _ = _
  rw [PduCount.tryFromString_stringify hc]
  rfl

/-- a page of a release build is what the whole route makes of the token without `to` -/
theorem messageEvents_eq (views : LazyLoading.Views) {db : Db} (htimeline : db.timeline = b.timeline)
    (hwords : db.roomidShortroomid = b.roomidShortroomid) (hc : c.InRange) :
    LazyLoading.messageEvents views db user ⟨r, some c, dir, none, limit⟩ =
      messagesPage .release b (views.userCanSeeEvent db user r) user r dir limit (some c) := by
  rw [messagesPage_some .release hc]
  unfold LazyLoading.messageEvents
  have hall : ∀ l : List (PduCount × PduEvent), l.takeWhile (fun x => some x.1 ≠ none) = l := by
    intro l
    induction l with
    | nil => rfl
    | cons x l ih => rw [List.takeWhile_cons_of_pos rfl, ih]
  simp only [hall, htimeline, hwords]
  cases dir with
  | forward =>
    show Except.bind (b.timeline.pdusAfter (b.roomidShortroomid r) user c) _ =
      (b.timeline.pdusAfterIn .release (b.roomidShortroomid r) user c).map _
    rw [b.timeline.pdusAfterIn_release user _ hc]
    rfl
  | backward =>
    show Except.bind (b.timeline.pdusUntil (b.roomidShortroomid r) user c) _ =
      (b.timeline.pdusUntilIn .release (b.roomidShortroomid r) user c).map _
    rw [b.timeline.pdusUntilIn_release user _ hc]
    rfl

/-- the page behind a count that is not the last of all -/
theorem page_of_scan (h : Indexed b) (hr : b.roomidShortroomid r = some s) {c : PduCount}
    (hc : TokenOf b r dir c) (build : Build) :
    ∃ l : List (PduCount × PduJson), (scan build b user r c dir).map (cutPage see (min limit 100)) =
        .ok ((l.take (min limit 100)).filterMap (shownIf see user)) ∧
      l.Pairwise (fun d e => precedes dir d.1 e.1) ∧
      ∀ e, e ∈ l ↔ (r, e.1, e.2) ∈ b.log ∧ precedes dir c e.1 := by
  obtain ⟨l, hl, hsorted, hmem⟩ := scan_yields h hr hc build
  refine ⟨l, ?_, hsorted, hmem⟩
  rw [hl]
  exact congrArg Except.ok (cutPage_map see _ (fun e => .ok (Building.shown user e)) l)

/-- the events of the room that are behind the start -/
theorem exists_history (h : Indexed b) (hr : b.roomidShortroomid r = some s) (dir : Direction) :
    ∃ l, History b r dir l := by
  obtain ⟨l, _, hsorted, hmem⟩ := @scan_yields b r s ⟨.ascii ""⟩ dir h hr _ (Or.inl rfl) .debug
  exact ⟨l, hsorted, hmem⟩

theorem History.unique {l' : List (PduCount × PduJson)} (h : History b r dir l) (h' : History b r dir l') :
    l = l' := by
  have : Std.Irrefl fun d e : PduCount × PduJson => precedes dir d.1 e.1 :=
    ⟨fun d hd => precedes_asymm _ _ hd hd⟩
  have : Std.Antisymm fun d e : PduCount × PduJson => precedes dir d.1 e.1 :=
    ⟨fun d e hd he => absurd he (precedes_asymm _ _ hd)⟩
  exact h.sorted.eq_of_mem_iff h'.sorted fun e => (h.mem e).trans (h'.mem e).symm

/-- no visible event has an extreme count -/
def NoExtremes (b : Building) (see : EventId → Bool) (r : RoomId) : Prop :=
  ∀ c p, (r, c, p) ∈ b.log → see p.pdu.eventId = true → c ≠ .max ∧ c ≠ .min

theorem NoExtremes.ends (h : NoExtremes b see r) (hlog : (r, c, p) ∈ b.log) (hsee : see p.pdu.eventId = true)
    (dir : Direction) : c ≠ startOf dir ∧ c ≠ endOf dir := by
  obtain ⟨hmax, hmin⟩ := h c p hlog hsee
  cases dir with
  | forward => exact ⟨hmin, hmax⟩
  | backward => exact ⟨hmax, hmin⟩

/-- without visible extremes the pages are cut from the history -/
theorem messages_pages (h : Indexed b) (hr : b.roomidShortroomid r = some s) (hno : NoExtremes b see r)
    (hl : History b r dir l) (build : Build) :
    Pages (messagesPage build b see user r dir limit) (min limit 100) (shownIf see user) l := by
  refine Pages.of_behind (fun d e hd => precedes_asymm d.1 e.1 hd) hl.sorted ?_ fun e he x hx => ?_
  · obtain ⟨l', hpage, hsorted, hmem⟩ := @page_of_scan b r s see user dir limit h hr _ (Or.inl rfl) build
    obtain rfl := hl.unique ⟨hsorted, hmem⟩
    exact hpage
  · obtain ⟨hsee, rfl⟩ := shownIf_eq_some.mp hx
    obtain ⟨hlog, hbehind⟩ := (hl.mem e).mp he
    have htoken : TokenOf b r dir e.1 := Or.inr ⟨⟨e.2, hlog⟩, (hno.ends hlog hsee dir).2⟩
    obtain ⟨l', hpage, hsorted, hmem⟩ := @page_of_scan b r s see user dir limit h hr _ htoken build
    refine ⟨l', ?_, hsorted, fun d => (hmem d).trans ?_⟩
    · rw [← hpage]
      exact messagesPage_some build (htoken.inRange h)
    · constructor
      · intro hd
        exact ⟨(hl.mem d).mpr ⟨hd.1, precedes_trans hbehind hd.2⟩, hd.2⟩
      · intro hd
        exact ⟨((hl.mem d).mp hd.1).1, hd.2⟩

/-! ## the extreme counts -/

/-- the page of a debug build behind the last count of all: there is none, or it is the event of that count -/
theorem page_end (h : Indexed b) (hr : b.roomidShortroomid r = some s)
    (hout : messagesPage .debug b see user r dir limit (some (endOf dir)) = .ok out) :
    dir = .backward ∧ ∃ l : List (PduCount × PduJson),
      out = (l.take (min limit 100)).filterMap (shownIf see user) ∧
        l.Pairwise (fun d e => precedes dir d.1 e.1) ∧ ∀ e, e ∈ l ↔ (r, e.1, e.2) ∈ b.log ∧ e.1 = .min := by
  have hrange : (endOf dir).InRange := by
    cases dir with
    | forward => exact u64Max_lt
    | backward => exact u64Max_lt
  rw [messagesPage_some .debug hrange] at hout
  cases dir with
  | forward =>
    have hfits : ¬ PduCount.max.Fits false := Nat.lt_irrefl u64Max
    obtain ⟨e, he⟩ := b.timeline.pdusAfterIn_debug s user (show PduCount.max.InRange from hrange) hfits
    change (b.timeline.pdusAfterIn .debug (b.roomidShortroomid r) user .max).map _ = _ at hout
    rw [hr, he] at hout
    cases hout
  | backward =>
    have hv : PduCount.min.Valid := (show u64Max < 2^64 from u64Max_lt)
    obtain ⟨l, hl, hsorted, hmem⟩ := h.pdusUntil_rows hr user hv (countToId_min s)
    rw [hr, ← b.timeline.pdusUntilIn_of_fits .debug s user (show PduCount.min.InRange from hrange) trivial] at hl
    change (b.timeline.pdusUntilIn .debug (b.roomidShortroomid r) user .min).map _ = _ at hout
    rw [hr, hl] at hout
    refine ⟨rfl, l, ?_, hsorted, fun e => (hmem e).trans (and_congr_right fun hlog => ?_)⟩
    · have hcut := cutPage_map see (min limit 100) (fun e => .ok (Building.shown user e)) l
      exact (Except.ok.inj hout).symm.trans hcut
    · exact (Building.not_min_lt_iff (h.log_le r e.1 e.2 hlog).1)

theorem mem_page {n : Nat} (hx : x ∈ (l.take n).filterMap (shownIf see user)) :
    ∃ e ∈ l, see e.2.pdu.eventId = true ∧ x = Building.shown user e := by
  obtain ⟨e, he, hshown⟩ := List.mem_filterMap.mp hx
  exact ⟨e, List.mem_of_mem_take he, shownIf_eq_some.mp hshown⟩

theorem page_sorted {l : List (PduCount × PduJson)} (h : l.Pairwise fun d e => precedes dir d.1 e.1) (n : Nat) :
    ((l.take n).filterMap (shownIf see user)).Pairwise fun x y => precedes dir x.1 y.1 := by
  rw [List.pairwise_filterMap]
  refine (h.sublist (List.take_sublist n l)).imp fun {d e} hd x hx y hy => ?_
  obtain ⟨_, rfl⟩ := shownIf_eq_some.mp hx
  obtain ⟨_, rfl⟩ := shownIf_eq_some.mp hy
  exact hd

/-- the tokens that a client can come by -/
def Reached (b : Building) (r : RoomId) (token : Option PduCount) : Prop :=
  ∀ c, token = some c → ∃ p, (r, c, p) ∈ b.log

/-- a page of a debug build is ordered, and has counts of the room other than the first of all -/
theorem page_debug (h : Indexed b) (hr : b.roomidShortroomid r = some s) {token : Option PduCount}
    (htoken : Reached b r token) (hout : messagesPage .debug b see user r dir limit token = .ok out) :
    out.Pairwise (fun x y => precedes dir x.1 y.1) ∧
      ∀ x ∈ out, (∃ p, (r, x.1, p) ∈ b.log) ∧ x.1 ≠ startOf dir := by
  -- what is behind a count that is not the last of all
  have hbehind : ∀ c, TokenOf b r dir c →
      (scan .debug b user r c dir).map (cutPage see (min limit 100)) = .ok out →
      out.Pairwise (fun x y => precedes dir x.1 y.1) ∧
        ∀ x ∈ out, (∃ p, (r, x.1, p) ∈ b.log) ∧ x.1 ≠ startOf dir := by
    intro c hc hpage
    obtain ⟨l, hl, hsorted, hmem⟩ := @page_of_scan b r s see user dir limit h hr c hc .debug
    obtain rfl := Except.ok.inj (hl.symm.trans hpage)
    refine ⟨page_sorted hsorted _, fun x hx => ?_⟩
    obtain ⟨e, he, _, rfl⟩ := mem_page hx
    obtain ⟨hlog, hlt⟩ := (hmem e).mp he
    refine ⟨⟨e.2, hlog⟩, fun hstart => ?_⟩
    change e.1 = startOf dir at hstart
    rw [hstart] at hlt
    exact not_precedes_start (hc.inRange h) hlt
  cases token with
  | none => exact hbehind _ (Or.inl rfl) hout
  | some c =>
    have hc := htoken c rfl
    by_cases hend : c = endOf dir
    · subst hend
      obtain ⟨rfl, l, rfl, hsorted, hmem⟩ := page_end h hr hout
      refine ⟨page_sorted hsorted _, fun x hx => ?_⟩
      obtain ⟨e, he, _, rfl⟩ := mem_page hx
      obtain ⟨hlog, hmin⟩ := (hmem e).mp he
      refine ⟨⟨e.2, hlog⟩, fun hstart => ?_⟩
      change e.1 = PduCount.max at hstart
      rw [hmin] at hstart
      cases hstart
    · obtain ⟨p, hlog⟩ := hc
      rw [messagesPage_some .debug (h.log_le r c p hlog).1.inRange] at hout
      exact hbehind c (Or.inr ⟨⟨p, hlog⟩, hend⟩) hout

/-- from the last count of all no pages go on to an end -/
theorem not_chain_end (h : Indexed b) (hr : b.roomidShortroomid r = some s) (hlimit : 1 ≤ limit)
    (hlog : (r, e.1, e.2) ∈ b.log) (hsee : see e.2.pdu.eventId = true) (hend : e.1 = endOf dir)
    (out : List (PduCount × PduEvent)) :
    ¬ Chain (messagesPage .debug b see user r dir limit) (some (endOf dir)) out := by
  intro hchain
  obtain ⟨page, hpage⟩ : ∃ page, messagesPage .debug b see user r dir limit (some (endOf dir)) = .ok page := by
    cases hchain with
    | last hpage => exact ⟨_, hpage⟩
    | next hpage => exact ⟨_, hpage⟩
  obtain ⟨rfl, l, rfl, hsorted, hmem⟩ := page_end h hr hpage
  have he : e ∈ l := (hmem e).mpr ⟨hlog, hend⟩
  have hsingle : l = [e] := by
    cases l with
    | nil => exact absurd he List.not_mem_nil
    | cons d ds =>
      have hd := ((hmem d).mp List.mem_cons_self).2
      cases ds with
      | nil => rw [List.mem_singleton.mp he]
      | cons d' ds =>
        have hd' := ((hmem d').mp (List.mem_cons_of_mem _ List.mem_cons_self)).2
        have hlt := (List.pairwise_cons.mp hsorted).1 d' List.mem_cons_self
        rw [hd, hd'] at hlt
        exact absurd hlt (precedes_asymm _ _ hlt)
  have hn : min limit 100 ≠ 0 := by omega
  have hshown : (l.take (min limit 100)).filterMap (shownIf see user) = [Building.shown user e] := by
    rw [hsingle, List.take_of_length_le (by rw [List.length_singleton]; omega), List.filterMap_cons_some
      (shownIf_eq_some.mpr ⟨hsee, rfl⟩), List.filterMap_nil]
  rw [hshown] at hpage
  exact not_chain_of_loop hpage rfl hend out hchain

/-- pages that hold all visible events leave no visible event at an extreme count -/
theorem noExtremes_of_received (h : Indexed b) (hr : b.roomidShortroomid r = some s) (hlimit : 1 ≤ limit)
    (hreceived : Received (messagesPage .debug b see user r dir limit) (VisibleEvent b see user r)) :
    NoExtremes b see r := by
  obtain ⟨out, hchain, _, hmem⟩ := hreceived
  have hstart : Reached b r none := nofun
  have hnext : ∀ t l y, Reached b r t → messagesPage .debug b see user r dir limit t = .ok l → y ∈ l →
      Reached b r (some y.1) := by
    intro t l y ht hl hy c hc
    cases hc
    exact ((page_debug h hr ht hl).2 y hy).1
  have hends : ∀ e : PduCount × PduJson, (r, e.1, e.2) ∈ b.log → see e.2.pdu.eventId = true →
      e.1 ≠ startOf dir ∧ e.1 ≠ endOf dir := by
    intro e hlog hsee
    have hx : Building.shown user e ∈ out := (hmem _).mpr ⟨e, hlog, hsee, rfl⟩
    refine ⟨?_, fun hend => ?_⟩
    · have hall := hchain.forall (P := fun x => (∃ p, (r, x.1, p) ∈ b.log) ∧ x.1 ≠ startOf dir)
        (fun l hl x hx => (page_debug h hr hstart hl).2 x hx)
        (fun x l hx hl y hy => (page_debug h hr (fun c hc => by cases hc; exact hx.1) hl).2 y hy)
      exact (hall _ hx).2
    · have hlast : ∀ t l, Reached b r t → messagesPage .debug b see user r dir limit t = .ok l →
          Building.shown user e ∈ l → l.getLast? = some (Building.shown user e) := by
        intro t l ht hl hin
        obtain ⟨hsorted, hcounts⟩ := page_debug h hr ht hl
        refine getLast?_of_greatest hsorted hin fun y hy hlt => ?_
        obtain ⟨p, hp⟩ := (hcounts y hy).1
        change precedes dir e.1 y.1 at hlt
        rw [hend] at hlt
        exact not_end_precedes (h.log_le r y.1 p hp).1.inRange hlt
      obtain ⟨rest, hrest⟩ := hchain.after_last hstart hnext hlast hx
      change Chain _ (some e.1) rest at hrest
      rw [hend] at hrest
      exact not_chain_end h hr hlimit hlog hsee hend rest hrest
  intro c p hlog hsee
  obtain ⟨hs, he⟩ := hends (c, p) hlog hsee
  cases dir with
  | forward => exact ⟨he, hs⟩
  | backward => exact ⟨hs, he⟩

/-- the pages of every build hold all visible events exactly if none has an extreme count, and none is behind a
whole page of hidden ones -/
theorem messages_received_iff (h : Indexed b) (hr : b.roomidShortroomid r = some s) (hlimit : 1 ≤ limit) :
    (∀ build, Received (messagesPage build b see user r dir limit) (VisibleEvent b see user r)) ↔
      NoExtremes b see r ∧ ¬ HiddenRun b see user r dir (min limit 100) := by
  obtain ⟨l, hl⟩ := exists_history h hr dir
  have hgap : HiddenRun b see user r dir (min limit 100) ↔ Gap (min limit 100) (shownIf see user) l := by
    constructor
    · intro hrun
      obtain ⟨l', hl', hgap⟩ := hrun
      rwa [hl.unique hl']
    · intro hgap
      exact ⟨l, hl, hgap⟩
  have hiff : NoExtremes b see r → ∀ build,
      (Received (messagesPage build b see user r dir limit) (VisibleEvent b see user r) ↔
        ¬ Gap (min limit 100) (shownIf see user) l) := by
    intro hno build
    have hnodup : (l.filterMap (shownIf see user)).Nodup := by
      have hsorted := @page_sorted see user dir l hl.sorted l.length
      rw [List.take_length] at hsorted
      refine hsorted.imp fun {x y} hlt heq => ?_
      rw [heq] at hlt
      exact precedes_asymm _ _ hlt hlt
    rw [← (messages_pages h hr hno hl build).complete_iff (fun _ h => h rfl) hnodup]
    have hvisible : ∀ x, x ∈ l.filterMap (shownIf see user) ↔ VisibleEvent b see user r x := by
      intro x
      rw [List.mem_filterMap]
      refine exists_congr fun e => ?_
      rw [hl.mem e, shownIf_eq_some]
      constructor
      · intro hx
        exact ⟨hx.1.1, hx.2⟩
      · intro hx
        have hne := (hno.ends hx.1 hx.2.1 dir).1
        exact ⟨⟨hx.1, (start_precedes_iff (h.log_le r e.1 e.2 hx.1).1.inRange).mpr hne⟩, hx.2⟩
    unfold Received
    simp only [hvisible]
    rfl
  rw [hgap]
  constructor
  · intro hall
    have hno := noExtremes_of_received h hr hlimit (hall .debug)
    exact ⟨hno, (hiff hno .debug).mp (hall .debug)⟩
  · intro hcond build
    exact (hiff hcond.1 build).mpr hcond.2

end

/-! ## `/threads` -/

def threadsFrom : Option String → Except Error Nat
  | some token =>
    match parseU64 token.toList with
    | some n => .ok n
    | none => .error (.badRequest .invalidParam "")
  | none => .ok u64Max

def getThreads (build : Build) (st : RelationStore) (see : EventId → Bool) (user : UserId) (r : RoomId)
    (limit : Option Nat) (from' : Option String) : Except Error (List (Nat × PduEvent)) := do
  -- limit or else 10, with maximum 100
  let limit := min (limit.getD 10) 100
  let threads ← st.threadsUntil build user r (← threadsFrom from')
  return cutPage see limit threads

def threadsPage (build : Build) (st : RelationStore) (see : EventId → Bool) (user : UserId) (r : RoomId)
    (limit : Option Nat) (token : Option Nat) : Except Error (List (Nat × PduEvent)) :=
  getThreads build st see user r limit (token.map toString)

/-- a root as a reader sees it -/
def rootPdu (user : UserId) (p : PduJson) : PduEvent :=
  if p.pdu.sender ≠ user then p.pdu.removeTransactionId else p.pdu

/-- a visible thread root of the room, with its count -/
def VisibleRoot (st : RelationStore) (see : EventId → Bool) (user : UserId) (r : RoomId) (s : Nat)
    (y : PduCount × PduEvent) : Prop :=
  ∃ p, (r, y.1, p) ∈ st.building.log ∧ st.threadidUserids.get (pduId s y.1) ≠ none ∧
    see p.pdu.eventId = true ∧ y.2 = rootPdu user p

/-- the pages hold the visible roots, each once -/
def RootsReceived (page : Option Nat → Except Error (List (Nat × PduEvent)))
    (expected : PduCount × PduEvent → Prop) : Prop :=
  ∃ out, Chain page none out ∧ out.Nodup ∧
    ∀ y, y ∈ out.map (fun x => (PduCount.normal x.1, x.2)) ↔ expected y

/-- the roots that the pages are cut from -/
structure RootHistory (st : RelationStore) (r : RoomId) (s : Nat) (l : List PduCount) : Prop where
  sorted : l.Pairwise fun c d => d < c
  mem : ∀ c, c ∈ l ↔ st.Root r s c ∧ c < .max

def rootIf (st : RelationStore) (see : EventId → Bool) (user : UserId) (s : Nat) (c : PduCount) :
    Option (Nat × PduEvent) :=
  visible see (st.threadRoot user (pduId s c))

/-- `n` hidden roots in a row, and a visible one behind them -/
def HiddenRoots (st : RelationStore) (see : EventId → Bool) (user : UserId) (r : RoomId) (s n : Nat) : Prop :=
  ∃ l, RootHistory st r s l ∧ Gap n (rootIf st see user s) l

/-- no visible root was backfilled, and none has the last count of all -/
def NoLostRoots (st : RelationStore) (see : EventId → Bool) (r : RoomId) (s : Nat) : Prop :=
  ∀ c p, (r, c, p) ∈ st.building.log → st.threadidUserids.get (pduId s c) ≠ none →
    see p.pdu.eventId = true → c ≠ .max ∧ ∀ x, c ≠ .backfilled x

section
variable {st : RelationStore} {r : RoomId} {s : Nat} {see : EventId → Bool} {user : UserId} {limit : Option Nat}
variable {l : List PduCount}

theorem Inv.word_lt (h : Inv st) (hr : st.building.roomidShortroomid r = some s) : s < 2^64 :=
  (h.events.short_le r s hr).2.trans_lt h.events.counter_lt

/-- the row of a logged event -/
theorem Inv.getPduFromId (h : Inv st) (hr : st.building.roomidShortroomid r = some s)
    (hlog : (r, c, p) ∈ st.building.log) :
    st.building.timeline.getPduFromId (pduId s c) = some p.pdu := by
  have hrow : (pduId s c, p) ∈ st.building.timeline.pduidPdu.rows :=
    (h.events.rows _).mpr ⟨r, c, s, hlog, hr, rfl⟩
  unfold TimelineTables.getPduFromId
  rw [(st.building.timeline.pduidPdu.get_eq_some_iff _ _).mpr hrow]
  rfl

theorem Inv.threadRoot_normal (h : Inv st) (hr : st.building.roomidShortroomid r = some s) {x : Nat}
    (hlog : (r, .normal x, p) ∈ st.building.log) :
    st.threadRoot user (pduId s (.normal x)) = .ok (x, rootPdu user p) := by
  have hbytes : (pduId s (.normal x)).drop 8 = be64 x := by
    show (be64 s ++ be64 x).drop 8 = _
    rw [show (8 : Nat) = (be64 s).length from (be64_length s).symm, List.drop_left]
  have hx := (h.events.log_le r _ p hlog).1.2
  unfold threadRoot
  simp only [hbytes, be64_length, if_true, h.getPduFromId hr hlog, ofBe_be64 hx]
  rfl

theorem threadRoot_backfilled (st : RelationStore) (user : UserId) (s x : Nat) :
    st.threadRoot user (pduId s (.backfilled x)) = .error (.badDatabase "Invalid pduid in threadid_userids.") := by
  unfold threadRoot
  have hlen : ((pduId s (.backfilled x)).drop 8).length ≠ 8 := by
    simp [pduId, countBytes]
  rw [if_neg hlen]

/-- only the unsigned part of an event depends on who asks -/
theorem exists_rootPdu (user : UserId) (p : PduJson) :
    ∃ unsigned, rootPdu user p = { p.pdu with unsigned := unsigned } := by
  unfold rootPdu PduEvent.removeTransactionId
  by_cases hsender : p.pdu.sender ≠ user
  · rw [if_pos hsender]
    split
    · exact ⟨_, rfl⟩
    · exact ⟨p.pdu.unsigned, rfl⟩
  · rw [if_neg hsender]
    exact ⟨p.pdu.unsigned, rfl⟩

theorem rootPdu_eventId (p : PduJson) : (rootPdu user p).eventId = p.pdu.eventId := by
  obtain ⟨unsigned, hroot⟩ := exists_rootPdu user p
  rw [hroot]

theorem Inv.rootIf_eq_some (h : Inv st) (hr : st.building.roomidShortroomid r = some s)
    (hc : ∃ p, (r, c, p) ∈ st.building.log) {x : Nat × PduEvent} :
    rootIf st see user s c = some x ↔ c = .normal x.1 ∧ ∃ p, (r, c, p) ∈ st.building.log ∧
      see p.pdu.eventId = true ∧ x.2 = rootPdu user p := by
  cases c with
  | backfilled y =>
    unfold rootIf
    rw [threadRoot_backfilled]
    exact iff_of_false nofun fun h => by cases h.1
  | normal y =>
    obtain ⟨p, hlog⟩ := hc
    have hroot : rootIf st see user s (.normal y) =
        if see p.pdu.eventId = true then some (y, rootPdu user p) else none := by
      unfold rootIf visible
      rw [h.threadRoot_normal hr hlog]
      show (some (y, rootPdu user p)).filter (fun x => see x.2.eventId) = _
      rw [Option.filter_some, rootPdu_eventId]
    rw [hroot, Option.ite_none_right_eq_some]
    constructor
    · intro hx
      obtain ⟨hsee, hx⟩ := hx
      cases Option.some.inj hx
      exact ⟨rfl, p, hlog, hsee, rfl⟩
    · intro hx
      obtain ⟨hy, q, hq, hsee, hpdu⟩ := hx
      obtain rfl := PduCount.normal.inj hy
      -- the log has one event under a count
      have hsame := Option.some.inj ((h.getPduFromId hr hlog).symm.trans (h.getPduFromId hr hq))
      rw [hsame]
      refine ⟨hsee, ?_⟩
      rw [show rootPdu user p = rootPdu user q by unfold rootPdu; rw [hsame], ← hpdu]

/-- the page behind a count, in every build -/
theorem Inv.threads_page (h : Inv st) (hr : st.building.roomidShortroomid r = some s) {n : Nat} (hn : 2 ≤ n)
    (hlt : n < 2^64) (build : Build) {token : Option Nat} (htoken : token = some n ∨ token = none ∧ n = u64Max) :
    ∃ l : List PduCount, threadsPage build st see user r limit token =
        .ok ((l.take (min (limit.getD 10) 100)).filterMap (rootIf st see user s)) ∧
      l.Pairwise (fun c d => d < c) ∧ ∀ c, c ∈ l ↔ st.Root r s c ∧ c < .normal n := by
  obtain ⟨l, hl, hsorted, hmem⟩ := h.threadsUntil_rows hr user (show 1 ≤ n by omega) hlt build
  refine ⟨l, ?_, hsorted, fun c => (hmem c).trans (and_congr_right fun _ => ?_)⟩
  · have hcut := cutPage_map see (min (limit.getD 10) 100) (fun c => st.threadRoot user (pduId s c)) l
    have hfrom : threadsFrom (token.map toString) = .ok n := by
      rcases htoken with rfl | ⟨rfl, rfl⟩
      · show (match parseU64 (toString n).toList with
          | some n => Except.ok n
          | none => .error (Error.badRequest .invalidParam "")) = _
        rw [Nat.toString_eq_repr, Nat.toList_repr, parseU64_toDigits hlt]
      · rfl
    unfold threadsPage getThreads
    rw [hfrom]
    show Except.bind (threadsUntil build st user r n) _ = _
    rw [hl]
    exact congrArg Except.ok hcut
  · exact and_iff_left fun hone => absurd hone (by omega)

theorem two_le_u64Max : 2 ≤ u64Max := by
  rw [u64Max_eq]
  omega

theorem RootHistory.unique {l' : List PduCount} (h : RootHistory st r s l) (h' : RootHistory st r s l') :
    l = l' := by
  have hasymm : ∀ c d : PduCount, d < c → ¬ c < d := fun c d => @precedes_asymm .backward c d
  have : Std.Irrefl fun c d : PduCount => d < c := ⟨fun c hc => hasymm c c hc hc⟩
  have : Std.Antisymm fun c d : PduCount => d < c := ⟨fun c d hc hd => absurd hd (hasymm c d hc)⟩
  exact h.sorted.eq_of_mem_iff h'.sorted fun c => (h.mem c).trans (h'.mem c).symm

theorem Inv.threads_pages (h : Inv st) (hr : st.building.roomidShortroomid r = some s)
    (hl : RootHistory st r s l) (build : Build) :
    Pages (threadsPage build st see user r limit) (min (limit.getD 10) 100) (rootIf st see user s) l := by
  have hasymm : ∀ c d : PduCount, d < c → ¬ c < d := fun c d => @precedes_asymm .backward c d
  refine Pages.of_behind hasymm hl.sorted ?_ fun c hc x hx => ?_
  · obtain ⟨l', hpage, hsorted, hmem⟩ := @Inv.threads_page st r s see user limit h hr u64Max two_le_u64Max
      u64Max_lt build none (Or.inr ⟨rfl, rfl⟩)
    obtain rfl := hl.unique ⟨hsorted, hmem⟩
    exact hpage
  · obtain ⟨hroot, hmax⟩ := (hl.mem c).mp hc
    obtain ⟨rfl, p, hlog, _, _⟩ := (h.rootIf_eq_some hr hroot.1).mp hx
    obtain ⟨hvalid, hraw⟩ := logged_count h.events hr hlog
    obtain ⟨l', hpage, hsorted, hmem⟩ := @Inv.threads_page st r s see user limit h hr x.1 hraw hvalid.2 build
      (some x.1) (Or.inl rfl)
    refine ⟨l', hpage, hsorted, fun d => (hmem d).trans ?_⟩
    constructor
    · intro hd
      exact ⟨(hl.mem d).mpr ⟨hd.1, @precedes_trans .backward _ _ _ hmax hd.2⟩, hd.2⟩
    · intro hd
      exact ⟨((hl.mem d).mp hd.1).1, hd.2⟩

/-- what the pages hold was found below the last count of all -/
theorem Inv.threads_below (h : Inv st) (hr : st.building.roomidShortroomid r = some s) (build : Build)
    {out : List (Nat × PduEvent)} (hchain : Chain (threadsPage build st see user r limit) none out) :
    ∀ x ∈ out, x.1 < u64Max := by
  have hpage : ∀ n token l, 2 ≤ n → n ≤ u64Max → (token = some n ∨ token = none ∧ n = u64Max) →
      threadsPage build st see user r limit token = .ok l →
        ∀ x ∈ l, 2 ≤ x.1 ∧ x.1 < u64Max := by
    intro n token l hn hle htoken hl x hx
    obtain ⟨l', hpage, _, hmem⟩ := @Inv.threads_page st r s see user limit h hr n hn (hle.trans_lt u64Max_lt)
      build token htoken
    obtain rfl := Except.ok.inj (hpage.symm.trans hl)
    obtain ⟨c, hc, hroot⟩ := List.mem_filterMap.mp hx
    obtain ⟨hroot', hlt⟩ := (hmem c).mp (List.mem_of_mem_take hc)
    obtain ⟨rfl, p, hlog, _, _⟩ := (h.rootIf_eq_some hr hroot'.1).mp hroot
    rw [PduCount.normal_lt_normal] at hlt
    exact ⟨(logged_count h.events hr hlog).2, hlt.trans_le hle⟩
  have hall := hchain.forall (P := fun x => 2 ≤ x.1 ∧ x.1 < u64Max)
    (fun l hl => hpage u64Max none l two_le_u64Max le_rfl (Or.inr ⟨rfl, rfl⟩) hl)
    (fun x l hx hl => hpage x.1 (some x.1) l hx.1 hx.2.le (Or.inl rfl) hl)
  exact fun x hx => (hall x hx).2

theorem Inv.exists_rootHistory (h : Inv st) (hr : st.building.roomidShortroomid r = some s) :
    ∃ l, RootHistory st r s l := by
  obtain ⟨l, _, hsorted, hmem⟩ := @Inv.threads_page st r s (fun _ => true) ⟨.ascii ""⟩ none h hr u64Max
    two_le_u64Max u64Max_lt .debug none (Or.inr ⟨rfl, rfl⟩)
  exact ⟨l, hsorted, hmem⟩

theorem Inv.mem_rootIf (h : Inv st) (hr : st.building.roomidShortroomid r = some s) (hl : RootHistory st r s l)
    (x : Nat × PduEvent) :
    x ∈ l.filterMap (rootIf st see user s) ↔
      x.1 < u64Max ∧ VisibleRoot st see user r s (.normal x.1, x.2) := by
  rw [List.mem_filterMap]
  constructor
  · intro hex
    obtain ⟨c, hc, hroot⟩ := hex
    obtain ⟨hroot', hlt⟩ := (hl.mem c).mp hc
    obtain ⟨rfl, p, hlog, hsee, hpdu⟩ := (h.rootIf_eq_some hr hroot'.1).mp hroot
    exact ⟨(PduCount.normal_lt_normal _ _).mp hlt, p, hlog, hroot'.2, hsee, hpdu⟩
  · intro hx
    obtain ⟨hlt, p, hlog, hstored, hsee, hpdu⟩ := hx
    exact ⟨.normal x.1, (hl.mem _).mpr ⟨⟨⟨p, hlog⟩, hstored⟩, (PduCount.normal_lt_normal _ _).mpr hlt⟩,
      (h.rootIf_eq_some hr ⟨p, hlog⟩).mpr ⟨rfl, p, hlog, hsee, hpdu⟩⟩

theorem Inv.rootIf_nodup (h : Inv st) (hr : st.building.roomidShortroomid r = some s)
    (hl : RootHistory st r s l) : (l.filterMap (rootIf st see user s)).Nodup := by
  have hsorted : (l.filterMap (rootIf st see user s)).Pairwise fun x y => y.1 < x.1 := by
    rw [List.pairwise_filterMap]
    refine hl.sorted.imp_of_mem fun {c d} hc hd hlt x hx y hy => ?_
    obtain ⟨rfl, _⟩ := (h.rootIf_eq_some hr ((hl.mem c).mp hc).1.1).mp hx
    obtain ⟨rfl, _⟩ := (h.rootIf_eq_some hr ((hl.mem d).mp hd).1.1).mp hy
    exact (PduCount.normal_lt_normal _ _).mp hlt
  refine hsorted.imp fun {x y} hlt heq => ?_
  rw [heq] at hlt
  exact Nat.lt_irrefl _ hlt

/-- pages that hold all visible roots leave none that was backfilled or has the last count of all -/
theorem Inv.noLostRoots_of_received (h : Inv st) (hr : st.building.roomidShortroomid r = some s) {build : Build}
    (hreceived : RootsReceived (threadsPage build st see user r limit) (VisibleRoot st see user r s)) :
    NoLostRoots st see r s := by
  intro c p hlog hstored hsee
  obtain ⟨out, hchain, _, hout⟩ := hreceived
  have hc := (hout (c, rootPdu user p)).mpr ⟨p, hlog, hstored, hsee, rfl⟩
  obtain ⟨x, hx, heq⟩ := List.mem_map.mp hc
  obtain rfl : PduCount.normal x.1 = c := congrArg Prod.fst heq
  refine ⟨fun hmax => ?_, nofun⟩
  have hbelow := h.threads_below hr build hchain x hx
  rw [PduCount.normal.inj hmax] at hbelow
  exact Nat.lt_irrefl _ hbelow

/-- a visible root that is not lost has a normal count below the last of all -/
theorem Inv.visibleRoot_count (h : Inv st) (hlost : NoLostRoots st see r s) {y : PduCount × PduEvent}
    (hy : VisibleRoot st see user r s y) : ∃ x < u64Max, y.1 = .normal x := by
  obtain ⟨p, hlog, hstored, hsee, _⟩ := hy
  obtain ⟨hmax, hback⟩ := hlost y.1 p hlog hstored hsee
  cases hcount : y.1 with
  | backfilled x => exact absurd hcount (hback x)
  | normal x =>
    rw [hcount] at hlog hmax
    have hlt : x < 2^64 := (h.events.log_le r _ p hlog).1.2
    have hne : x ≠ u64Max := fun heq => hmax (by rw [heq]; rfl)
    refine ⟨x, ?_, rfl⟩
    rw [u64Max_eq] at hne ⊢
    omega

/-- what the pages hold, with and without the kind of the counts -/
theorem Inv.roots_iff (h : Inv st) (hr : st.building.roomidShortroomid r = some s) (hl : RootHistory st r s l)
    (hlost : NoLostRoots st see r s) (out : List (Nat × PduEvent)) :
    (∀ y, y ∈ out.map (fun x => (PduCount.normal x.1, x.2)) ↔ VisibleRoot st see user r s y) ↔
      ∀ x, x ∈ out ↔ x ∈ l.filterMap (rootIf st see user s) := by
  constructor
  · intro hall x
    rw [h.mem_rootIf hr hl]
    constructor
    · intro hx
      have hvisible := (hall (.normal x.1, x.2)).mp (List.mem_map_of_mem hx)
      obtain ⟨y, hlt, hy⟩ := h.visibleRoot_count hlost hvisible
      rw [← PduCount.normal.inj hy] at hlt
      exact ⟨hlt, hvisible⟩
    · intro hx
      obtain ⟨y, hy, heq⟩ := List.mem_map.mp ((hall (.normal x.1, x.2)).mpr hx.2)
      obtain ⟨h1, h2⟩ := Prod.mk.inj heq
      rwa [← Prod.ext (PduCount.normal.inj h1) h2]
  · intro hall y
    rw [List.mem_map]
    constructor
    · intro hex
      obtain ⟨x, hx, rfl⟩ := hex
      exact ((h.mem_rootIf hr hl x).mp ((hall x).mp hx)).2
    · intro hy
      obtain ⟨x, hlt, hcount⟩ := h.visibleRoot_count hlost hy
      have heq : (PduCount.normal x, y.2) = y := Prod.ext hcount.symm rfl
      rw [← heq] at hy ⊢
      exact ⟨(x, y.2), (hall _).mpr ((h.mem_rootIf hr hl _).mpr ⟨hlt, hy⟩), rfl⟩

/-- the pages of every build hold all visible roots exactly if none was backfilled or has the last count of all,
and none is behind a whole page of hidden ones -/
theorem Inv.threads_received_iff (h : Inv st) (hr : st.building.roomidShortroomid r = some s) :
    (∀ build, RootsReceived (threadsPage build st see user r limit) (VisibleRoot st see user r s)) ↔
      NoLostRoots st see r s ∧ ¬ HiddenRoots st see user r s (min (limit.getD 10) 100) := by
  obtain ⟨l, hl⟩ := h.exists_rootHistory hr
  have hgap : HiddenRoots st see user r s (min (limit.getD 10) 100) ↔
      Gap (min (limit.getD 10) 100) (rootIf st see user s) l := by
    constructor
    · intro hrun
      obtain ⟨l', hl', hgap⟩ := hrun
      rwa [hl.unique hl']
    · intro hgap
      exact ⟨l, hl, hgap⟩
  have hiff : NoLostRoots st see r s → ∀ build,
      (RootsReceived (threadsPage build st see user r limit) (VisibleRoot st see user r s) ↔
        ¬ Gap (min (limit.getD 10) 100) (rootIf st see user s) l) := by
    intro hlost build
    rw [← (h.threads_pages hr hl build).complete_iff (fun _ h => h rfl) (h.rootIf_nodup hr hl)]
    unfold RootsReceived
    simp only [h.roots_iff hr hl hlost]
    rfl
  rw [hgap]
  constructor
  · intro hall
    have hlost := h.noLostRoots_of_received hr (hall .debug)
    exact ⟨hlost, (hiff hlost .debug).mp (hall .debug)⟩
  · intro hcond build
    exact (hiff hcond.1 build).mpr hcond.2

end

/-! ## both routes -/

/-- the pages of `/messages` and of `/threads` hold all that is visible, each exactly under its condition -/
theorem history_received_iff (env : Env) (ops : List Building.Op) {st : RelationStore}
    (hrun : run env empty ops = some st) {r : RoomId} {s : Nat} (hr : st.building.roomidShortroomid r = some s)
    (see : EventId → Bool) (user : UserId) (dir : Direction) {limit : Nat} (hlimit : 1 ≤ limit)
    (threadsLimit : Option Nat) :
    ((∀ build, Received (messagesPage build st.building see user r dir limit)
      (VisibleEvent st.building see user r)) ↔
        NoExtremes st.building see r ∧ ¬ HiddenRun st.building see user r dir (min limit 100)) ∧
    ((∀ build, RootsReceived (threadsPage build st see user r threadsLimit) (VisibleRoot st see user r s)) ↔
      NoLostRoots st see r s ∧ ¬ HiddenRoots st see user r s (min (threadsLimit.getD 10) 100)) := by
  have h : Inv st := inv_empty.run ops hrun
  exact ⟨messages_received_iff h.events hr hlimit, h.threads_received_iff hr⟩

namespace TwoMessages

def room : RoomId := ⟨.ascii "!r:x"⟩
def user : UserId := ⟨.ascii "@u:x"⟩
def older : PduJson := ⟨[], Building.message room ⟨.ascii "$older"⟩ user⟩
def newer : PduJson := ⟨[], Building.message room ⟨.ascii "$newer"⟩ user⟩

/-- the newer event is hidden -/
def see (e : EventId) : Bool := e ≠ newer.pdu.eventId

def ops : List Building.Op := [.room room, .append older.pdu older, .append newer.pdu newer]

theorem exists_run : ∃ st, run .plain empty ops = some st ∧ st.building.roomidShortroomid room = some 1 ∧
    st.building.log = [(room, .normal 3, newer), (room, .normal 2, older)] :=
  ⟨_, rfl, rfl, rfl⟩

/-- backwards the newer event comes first -/
theorem history {b : Building} (hlog : b.log = [(room, .normal 3, newer), (room, .normal 2, older)]) :
    History b room .backward [(.normal 3, newer), (.normal 2, older)] := by
  refine ⟨?_, fun e => ?_⟩
  · refine List.pairwise_pair.mpr ?_
    exact (PduCount.normal_lt_normal 2 3).mpr (by omega)
  · obtain ⟨c, p⟩ := e
    have hlisted : (room, c, p) ∈ b.log ↔ (c, p) ∈ [(PduCount.normal 3, newer), (.normal 2, older)] := by
      rw [hlog]
      simp
    refine (and_iff_left_of_imp fun hlog' => ?_).symm.trans (and_congr_left fun _ => hlisted.symm)
    -- both counts are below the start
    rcases List.mem_cons.mp hlog' with heq | hrest
    · rw [show c = .normal 3 from congrArg Prod.fst heq]
      exact (PduCount.normal_lt_normal 3 u64Max).mpr (by rw [u64Max_eq]; omega)
    · rw [show c = .normal 2 from congrArg Prod.fst (List.mem_singleton.mp hrest)]
      exact (PduCount.normal_lt_normal 2 u64Max).mpr (by rw [u64Max_eq]; omega)

/-- the conditions of both routes in a room with two messages -/
theorem history_received_iff_two : ∃ st, run .plain empty ops = some st ∧
    ((∀ build, Received (messagesPage build st.building see user room .backward 1)
      (VisibleEvent st.building see user room)) ↔
        NoExtremes st.building see room ∧ ¬ HiddenRun st.building see user room .backward (min 1 100)) ∧
    ((∀ build, RootsReceived (threadsPage build st see user room none) (VisibleRoot st see user room 1)) ↔
      NoLostRoots st see room 1 ∧
        ¬ HiddenRoots st see user room 1 (min ((none : Option Nat).getD 10) 100)) := by
  obtain ⟨st, hrun, hr, _⟩ := exists_run
  exact ⟨st, hrun, history_received_iff .plain ops hrun hr see user .backward le_rfl none⟩

/-- a page of the newer event alone is empty, and has no token: the older event is never received -/
theorem history_not_received : ¬ ∀ (env : Env) (ops : List Building.Op) (st : RelationStore),
    run env empty ops = some st → ∀ (r : RoomId) (s : Nat), st.building.roomidShortroomid r = some s →
      ∀ (see : EventId → Bool) (user : UserId) (dir : Direction) (limit : Nat), 1 ≤ limit →
        ∀ build, Received (messagesPage build st.building see user r dir limit)
          (VisibleEvent st.building see user r) := by
  intro hall
  obtain ⟨st, hrun, hr, hlog⟩ := exists_run
  have h : Inv st := inv_empty.run ops hrun
  have hboth := (messages_received_iff h.events hr le_rfl).mp
    (hall .plain ops st hrun room 1 hr see user .backward 1 le_rfl)
  refine hboth.2 ⟨_, history hlog, [], [(.normal 3, newer)], (.normal 2, older), [], rfl, rfl, ?_, ?_⟩
  · intro e he
    rw [List.mem_singleton.mp he]
    rfl
  · rfl

end TwoMessages

end RelationStore

end Grapevine
