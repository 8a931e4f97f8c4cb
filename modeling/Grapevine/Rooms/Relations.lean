import Grapevine.Rooms.History

/-!
# Following relations

`/relations` pages through the events that are related to a target, newest first.  The rows have no room: a
row of an event of another room cannot be read, and takes a place on the page.

* `paginateRelationsWithFilter`   a page;
* `relationsPage`                 the page behind a returned token;
* `Related`                       the events of the room that were appended with the relation.

Main result: `relations_received_iff`.  The pages hold all of them exactly if none was appended before its
target or has the last count of all, and none stands behind a whole page of rows that are not shown.
-/

namespace Grapevine
open Kv

namespace RelationStore

/-! ## the route -/

structure RelationFilter where
  eventType : Option EventType
  relType : Option String

/-- `ExtractRelatesToEventId` of the reader -/
def extractRelType (content : JsonObject) : Option String := do
  let o ← (← content.get "m.relates_to").asObject
  match ← o.get "rel_type" with
  | .str s => some s
  | _ => none

def RelationFilter.accepts (filter : RelationFilter) (pdu : PduEvent) : Bool :=
  (match filter.eventType with
  | some t => pdu.kind = t
  | none => true) &&
  match extractRelType pdu.content with
  | some relType =>
    match filter.relType with
    | some r => relType = r
    | none => true
  | none => false

/-- rows that cannot be read pass the filter -/
def RelationFilter.passes (filter : RelationFilter) : Except Error (PduCount × PduEvent) → Bool
  | .ok x => filter.accepts x.2
  | .error _ => true

/-- the events of a page without `to`, with the counts of which the last is the token -/
def paginateRelationsWithFilter (build : Build) (st : RelationStore) (see : EventId → Bool) (user : UserId)
    (shortroomid : Nat) (target : EventId) (filter : RelationFilter) (from' : PduCount) (limit : Nat) :
    Except Error (List (PduCount × PduEvent)) := do
  let events ← st.eventRelationsUntil build user shortroomid target from'
  return cutPage see limit (events.filter filter.passes)

/-- the `from` of the routes -/
def relationsFrom : Option String → Except Error PduCount
  | some token => PduCount.tryFromString token
  | none => .ok .max

/-- the page behind the token that was made of a count -/
def relationsPage (build : Build) (st : RelationStore) (see : EventId → Bool) (user : UserId) (s : Nat)
    (target : EventId) (filter : RelationFilter) (limit : Nat) (token : Option PduCount) :
    Except Error (List (PduCount × PduEvent)) := do
  let from' ← relationsFrom (token.map PduCount.stringify)
  paginateRelationsWithFilter build st see user s target filter from' limit

/-! ## what is expected -/

/-- an event of the room that was appended with a relation to the target, that the user may see and the
filter accepts -/
def Related (st : RelationStore) (see : EventId → Bool) (r : RoomId) (target : EventId)
    (filter : RelationFilter) (f : Nat) (p : PduJson) : Prop :=
  (target, r, f) ∈ st.named ∧ (r, .normal f, p) ∈ st.building.log ∧ see p.pdu.eventId = true ∧
    filter.accepts p.pdu = true

/-- the pages hold these events, newest first -/
def RelationsReceived (page : Option PduCount → Except Error (List (PduCount × PduEvent)))
    (expected : PduCount × PduEvent → Prop) : Prop :=
  ∃ out, Chain page none out ∧ out.Pairwise (fun x y => y.1 < x.1) ∧ ∀ x, x ∈ out ↔ expected x

/-- the rows of a target that the filter passes, newest first -/
structure RelationHistory (st : RelationStore) (user : UserId) (s t : Nat) (filter : RelationFilter)
    (fs : List Nat) : Prop where
  sorted : fs.Pairwise (· > ·)
  mem : ∀ f, f ∈ fs ↔ st.RelatedTo t f ∧ f < u64Max ∧
    filter.passes (st.relatedEvent user s (be64 t ++ be64 f)) = true

/-- a row that is shown -/
def relatedIf (st : RelationStore) (see : EventId → Bool) (user : UserId) (s t f : Nat) :
    Option (PduCount × PduEvent) :=
  visible see (st.relatedEvent user s (be64 t ++ be64 f))

/-- `n` rows in a row that are hidden or cannot be read, and an event that is shown behind them -/
def HiddenRelations (st : RelationStore) (see : EventId → Bool) (user : UserId) (s t : Nat)
    (filter : RelationFilter) (n : Nat) : Prop :=
  ∃ fs, RelationHistory st user s t filter fs ∧ Gap n (relatedIf st see user s t) fs

section
variable {st : RelationStore} {r : RoomId} {s t : Nat} {see : EventId → Bool} {user : UserId}
  {target : EventId} {filter : RelationFilter} {limit : Nat}
variable {fs : List Nat} {p : PduJson} {f : Nat}

/-! ## rows -/

/-- the event with the count is in the room -/
theorem Inv.relatedEvent_ok (h : Inv st) (hr : st.building.roomidShortroomid r = some s)
    (hlog : (r, .normal f, p) ∈ st.building.log) :
    st.relatedEvent user s (be64 t ++ be64 f) = .ok (.normal f, rootPdu user p) := by
  have hbytes : (be64 t ++ be64 f).drop 8 = be64 f := by
    rw [show (8 : Nat) = (be64 t).length from (be64_length t).symm, List.drop_left]
  have hrow : st.building.timeline.getPduFromId (be64 s ++ be64 f) = some p.pdu := h.getPduFromId hr hlog
  have hf := (h.events.log_le r _ p hlog).1.2
  unfold relatedEvent
  simp only [hbytes, be64_length, if_true, hrow, ofBe_be64 hf]
  rfl

/-- an event of another room cannot be read -/
theorem Inv.relatedEvent_error (h : Inv st) (hr : st.building.roomidShortroomid r = some s) {f : Nat}
    (hf : st.RelatedTo t f) (hnot : ∀ p, (r, .normal f, p) ∉ st.building.log) :
    ∃ e, st.relatedEvent user s (be64 t ++ be64 f) = .error e := by
  have hbytes : (be64 t ++ be64 f).drop 8 = be64 f := by
    rw [show (8 : Nat) = (be64 t).length from (be64_length t).symm, List.drop_left]
  have hvalid : (PduCount.normal f).Valid := ⟨h.relatedTo_pos hf, hf.1⟩
  have hrow : st.building.timeline.getPduFromId (be64 s ++ be64 f) = none := by
    unfold TimelineTables.getPduFromId
    cases hget : st.building.timeline.pduidPdu.get (be64 s ++ be64 f) with
    | none => rfl
    | some p =>
      obtain ⟨q, c, s', hlog, hq, hid⟩ :=
        (h.events.rows _).mp ((st.building.timeline.pduidPdu.get_eq_some_iff _ _).mp hget)
      obtain ⟨rfl, rfl⟩ := pduId_inj (h.word_lt hr) (h.word_lt hq) hvalid (h.events.log_le q c p hlog).1
        (show pduId s (.normal f) = pduId s' c from hid)
      rw [h.events.short_inj q r s hq hr] at hlog
      exact absurd hlog (hnot p)
  unfold relatedEvent
  simp only [hbytes, be64_length, if_true, hrow]
  exact ⟨_, rfl⟩

/-- two events do not share a count -/
theorem countedAs_inj {b : Building} (h : Indexed b) {e e' : EventId} {u : Nat} (he : CountedAs b e t)
    (he' : CountedAs b e' u) (hcount : be64 t = be64 u) : e = e' := by
  obtain ⟨s₁, hs₁⟩ := he
  obtain ⟨s₂, hs₂⟩ := he'
  obtain ⟨r₁, w₁, c₁, p₁, hlog₁, hr₁, hid₁⟩ := h.ids e _ hs₁
  obtain ⟨r₂, w₂, c₂, p₂, hlog₂, hr₂, hid₂⟩ := h.ids e' _ hs₂
  have hbytes₁ := (List.append_inj hid₁ (by simp)).2
  have hbytes₂ := (List.append_inj hid₂ (by simp)).2
  have hsame : c₁ = c₂ := countBytes_inj (h.log_le _ _ _ hlog₁).1 (h.log_le _ _ _ hlog₂).1
    (hbytes₁.symm.trans (Eq.trans hcount hbytes₂))
  obtain ⟨rfl, _⟩ := h.once r₁ c₁ p₁ r₂ c₂ p₂ hlog₁ hlog₂ (by rw [hsame])
  obtain rfl := Option.some.inj (hr₁.symm.trans hr₂)
  subst hsame
  exact h.ids_inj e e' _ (hs₁.trans (congrArg some hid₁)) (hs₂.trans (congrArg some hid₂))

/-- the rows of a stored target, by the events that named it -/
theorem Inv.relatedTo_iff (h : Inv st) (htarget : CountedAs st.building target t) (ht : t < 2^64) (f : Nat) :
    st.RelatedTo t f ↔ t ≤ f ∧ ∃ q, (target, q, f) ∈ st.named := by
  constructor
  · intro hf
    obtain ⟨e, q, g, u, hn, he, hle, hkey⟩ := (h.relations _).mp hf.2
    obtain ⟨hbytes, hbytes'⟩ := List.append_inj hkey (by simp)
    have hg := (h.named_le hn).2
    obtain rfl : f = g := be_inj (two64 ▸ hf.1) (two64 ▸ hg) hbytes'
    obtain rfl := countedAs_inj h.events htarget he hbytes
    obtain rfl : t = u := be_inj (two64 ▸ ht) (two64 ▸ hle.trans_lt hg) hbytes
    exact ⟨hle, q, hn⟩
  · intro hf
    obtain ⟨hle, q, hn⟩ := hf
    exact ⟨(h.named_le hn).2, (h.relations _).mpr ⟨target, q, f, t, hn, htarget, hle, rfl⟩⟩

theorem rootPdu_accepts (p : PduJson) : filter.accepts (rootPdu user p) = filter.accepts p.pdu := by
  obtain ⟨unsigned, hroot⟩ := exists_rootPdu user p
  rw [hroot]
  rfl

/-- the rows that are shown are those of the events of the room -/
theorem Inv.relatedIf_eq_some (h : Inv st) (hr : st.building.roomidShortroomid r = some s)
    (hf : st.RelatedTo t f) {x : PduCount × PduEvent} :
    filter.passes (st.relatedEvent user s (be64 t ++ be64 f)) = true ∧ relatedIf st see user s t f = some x ↔
      ∃ p, (r, .normal f, p) ∈ st.building.log ∧ see p.pdu.eventId = true ∧ filter.accepts p.pdu = true ∧
        x = (.normal f, rootPdu user p) := by
  unfold relatedIf visible
  by_cases hlogged : ∃ p, (r, .normal f, p) ∈ st.building.log
  · obtain ⟨p, hlog⟩ := hlogged
    have hshown : (Except.toOption (.ok (PduCount.normal f, rootPdu user p) : Except Error (PduCount × PduEvent))).filter
        (fun x => see x.2.eventId) = if see p.pdu.eventId = true then some (.normal f, rootPdu user p) else none := by
      show (some (PduCount.normal f, rootPdu user p)).filter (fun x => see x.2.eventId) = _
      rw [Option.filter_some, rootPdu_eventId]
    rw [h.relatedEvent_ok hr hlog, hshown, Option.ite_none_right_eq_some]
    show filter.accepts (rootPdu user p) = true ∧ _ ↔ _
    rw [rootPdu_accepts]
    constructor
    · intro hx
      obtain ⟨haccepts, hsee, hx⟩ := hx
      exact ⟨p, hlog, hsee, haccepts, (Option.some.inj hx).symm⟩
    · intro hx
      obtain ⟨q, hq, hsee, haccepts, rfl⟩ := hx
      -- the log has one event under a count
      have hsame := Option.some.inj ((h.getPduFromId hr hlog).symm.trans (h.getPduFromId hr hq))
      rw [hsame]
      refine ⟨haccepts, hsee, ?_⟩
      unfold rootPdu
      rw [hsame]
  · obtain ⟨e, he⟩ := @Inv.relatedEvent_error st r s t user h hr f hf (not_exists.mp hlogged)
    rw [he]
    refine iff_of_false (fun hx => ?_) fun hx => ?_
    · cases hx.2
    · obtain ⟨p, hlog, _⟩ := hx
      exact hlogged ⟨p, hlog⟩

/-! ## pages -/

theorem Inv.targetWord_eq (h : Inv st) (hr : st.building.roomidShortroomid r = some s)
    (hlog : (r, .normal t, p) ∈ st.building.log)
    (htarget : st.building.timeline.eventidPduid target = some (pduId s (.normal t))) :
    st.targetWord target = t := by
  unfold targetWord
  rw [getPduCount_of_id h.events hlog hr htarget]

/-- the page behind a count, in every build -/
theorem Inv.relations_page (h : Inv st) (htarget : st.targetWord target = t) {n : Nat} (hn : n ≠ 0)
    (hlt : n < 2^64) (build : Build) {token : Option PduCount}
    (htoken : token = some (.normal n) ∨ token = none ∧ n = u64Max) :
    ∃ fs : List Nat, relationsPage build st see user s target filter limit token =
        .ok ((fs.take limit).filterMap (relatedIf st see user s t)) ∧ fs.Pairwise (· > ·) ∧
      ∀ f, f ∈ fs ↔ st.RelatedTo t f ∧ f < n ∧
        filter.passes (st.relatedEvent user s (be64 t ++ be64 f)) = true := by
  have hrange : (PduCount.normal n).InRange := hlt
  obtain ⟨fs, hfs, hsorted, hmem⟩ := (h.relationsUntil_exact_iff user s t hrange).mpr
    ⟨fun heq => hn (PduCount.normal.inj heq), nofun⟩ build
  refine ⟨fs.filter fun f => filter.passes (st.relatedEvent user s (be64 t ++ be64 f)), ?_, hsorted.filter _,
    fun f => ?_⟩
  · have hfrom : relationsFrom (token.map PduCount.stringify) = .ok (.normal n) := by
      rcases htoken with rfl | ⟨rfl, rfl⟩
      · exact PduCount.tryFromString_stringify hrange
      · rfl
    have hscan : st.eventRelationsUntil build user s target (.normal n) =
        .ok (fs.map fun f => st.relatedEvent user s (be64 t ++ be64 f)) := by
      rw [h.eventRelationsUntil_eq, htarget, hfs]
    unfold relationsPage
    rw [hfrom]
    show (st.eventRelationsUntil build user s target (.normal n)).bind _ = _
    rw [hscan]
    have hcut := cutPage_map see limit (fun f => st.relatedEvent user s (be64 t ++ be64 f))
      (fs.filter fun f => filter.passes (st.relatedEvent user s (be64 t ++ be64 f)))
    show Except.ok (cutPage see limit ((fs.map _).filter filter.passes)) = _
    rw [List.filter_map]
    exact congrArg Except.ok hcut
  · rw [List.mem_filter, hmem f, PduCount.normal_lt_normal, and_assoc]

theorem RelationHistory.unique {gs : List Nat} (h : RelationHistory st user s t filter fs)
    (h' : RelationHistory st user s t filter gs) : fs = gs :=
  h.sorted.eq_of_mem_iff h'.sorted fun f => (h.mem f).trans (h'.mem f).symm

theorem Inv.relations_pages (h : Inv st) (hr : st.building.roomidShortroomid r = some s)
    (htarget : st.targetWord target = t) (hfs : RelationHistory st user s t filter fs) (build : Build) :
    Pages (relationsPage build st see user s target filter limit) limit
      (relatedIf st see user s t) fs := by
  have hmax : u64Max ≠ 0 := by
    rw [u64Max_eq]
    omega
  refine Pages.of_behind (fun f g hlt => Nat.lt_asymm hlt) hfs.sorted ?_ fun f hf x hx => ?_
  · obtain ⟨gs, hpage, hsorted, hmem⟩ := @Inv.relations_page st s t see user target filter limit h htarget
      u64Max hmax u64Max_lt build none (Or.inr ⟨rfl, rfl⟩)
    obtain rfl := hfs.unique ⟨hsorted, hmem⟩
    exact hpage
  · obtain ⟨hrelated, hlt, hpasses⟩ := (hfs.mem f).mp hf
    obtain ⟨p, _, _, _, rfl⟩ := (h.relatedIf_eq_some hr hrelated).mp ⟨hpasses, hx⟩
    obtain ⟨gs, hpage, hsorted, hmem⟩ := @Inv.relations_page st s t see user target filter limit h htarget f
      (Nat.one_le_iff_ne_zero.mp (h.relatedTo_pos hrelated)) hrelated.1 build _ (Or.inl rfl)
    refine ⟨gs, hpage, hsorted, fun g => (hmem g).trans ?_⟩
    constructor
    · intro hg
      exact ⟨(hfs.mem g).mpr ⟨hg.1, hg.2.1.trans hlt, hg.2.2⟩, hg.2.1⟩
    · intro hg
      obtain ⟨hrelated', _, hpasses'⟩ := (hfs.mem g).mp hg.1
      exact ⟨hrelated', hg.2, hpasses'⟩

/-! ## all pages -/

/-- a related event in the room as it is shown -/
def ShownRelated (st : RelationStore) (see : EventId → Bool) (user : UserId) (r : RoomId) (target : EventId)
    (filter : RelationFilter) (x : PduCount × PduEvent) : Prop :=
  ∃ f p, st.Related see r target filter f p ∧ x = (.normal f, rootPdu user p)

/-- no related event that is shown was appended before the target, or has the last count of all -/
def NoLostRelations (st : RelationStore) (see : EventId → Bool) (r : RoomId) (target : EventId)
    (filter : RelationFilter) (t : Nat) : Prop :=
  ∀ f p, st.Related see r target filter f p → t ≤ f ∧ f ≠ u64Max

/-- the target is stored in the room under this normal count -/
structure Stored (st : RelationStore) (r : RoomId) (s : Nat) (target : EventId) (t : Nat) : Prop where
  word : st.building.roomidShortroomid r = some s
  id : st.building.timeline.eventidPduid target = some (pduId s (.normal t))
  log : ∃ p, (r, .normal t, p) ∈ st.building.log

theorem Stored.lt (hs : Stored st r s target t) (h : Inv st) : t < 2^64 := by
  obtain ⟨p, hlog⟩ := hs.log
  exact (h.events.log_le r _ p hlog).1.2

theorem Stored.targetWord (hs : Stored st r s target t) (h : Inv st) : st.targetWord target = t := by
  obtain ⟨p, hlog⟩ := hs.log
  exact h.targetWord_eq hs.word hlog hs.id

theorem Inv.exists_relationHistory (h : Inv st) (htarget : st.targetWord target = t) :
    ∃ fs, RelationHistory st user s t filter fs := by
  have hmax : u64Max ≠ 0 := by
    rw [u64Max_eq]
    omega
  obtain ⟨fs, _, hsorted, hmem⟩ := @Inv.relations_page st s t (fun _ => true) user target filter 0 h htarget
    u64Max hmax u64Max_lt .debug none (Or.inr ⟨rfl, rfl⟩)
  exact ⟨fs, hsorted, hmem⟩

/-- what is shown of the rows of a target -/
theorem Inv.mem_relatedIf (h : Inv st) (hs : Stored st r s target t)
    (hfs : RelationHistory st user s t filter fs) (x : PduCount × PduEvent) :
    x ∈ fs.filterMap (relatedIf st see user s t) ↔ ∃ f p, st.Related see r target filter f p ∧
      (t ≤ f ∧ f < u64Max) ∧ x = (.normal f, rootPdu user p) := by
  rw [List.mem_filterMap]
  refine exists_congr fun f => ?_
  constructor
  · intro hx
    obtain ⟨hf, hrelated⟩ := hx
    obtain ⟨hrow, hlt, hpasses⟩ := (hfs.mem f).mp hf
    obtain ⟨p, hlog, hsee, haccepts, hx⟩ := (h.relatedIf_eq_some hs.word hrow).mp ⟨hpasses, hrelated⟩
    obtain ⟨hle, q, hn⟩ := (h.relatedTo_iff ⟨s, hs.id⟩ (hs.lt h) f).mp hrow
    -- the event that named the target is the one with this count
    obtain ⟨p', hlog'⟩ := h.named_log target q f hn
    obtain ⟨rfl, _⟩ := h.events.once r _ p q _ p' hlog hlog' rfl
    exact ⟨p, ⟨hn, hlog, hsee, haccepts⟩, ⟨hle, hlt⟩, hx⟩
  · intro hx
    obtain ⟨p, ⟨hn, hlog, hsee, haccepts⟩, ⟨hle, hlt⟩, hx⟩ := hx
    have hrow := (h.relatedTo_iff ⟨s, hs.id⟩ (hs.lt h) f).mpr ⟨hle, r, hn⟩
    obtain ⟨hpasses, hrelated⟩ := (h.relatedIf_eq_some hs.word hrow).mpr ⟨p, hlog, hsee, haccepts, hx⟩
    exact ⟨(hfs.mem f).mpr ⟨hrow, hlt, hpasses⟩, hrelated⟩

theorem Inv.relatedIf_sorted (h : Inv st) (hr : st.building.roomidShortroomid r = some s)
    (hfs : RelationHistory st user s t filter fs) :
    (fs.filterMap (relatedIf st see user s t)).Pairwise fun x y => y.1 < x.1 := by
  rw [List.pairwise_filterMap]
  refine hfs.sorted.imp_of_mem fun {f g} hf hg hlt x hx y hy => ?_
  obtain ⟨hrow, _, hpasses⟩ := (hfs.mem f).mp hf
  obtain ⟨hrow', _, hpasses'⟩ := (hfs.mem g).mp hg
  obtain ⟨_, _, _, _, rfl⟩ := (h.relatedIf_eq_some hr hrow).mp ⟨hpasses, hx⟩
  obtain ⟨_, _, _, _, rfl⟩ := (h.relatedIf_eq_some hr hrow').mp ⟨hpasses', hy⟩
  exact (PduCount.normal_lt_normal _ _).mpr hlt

/-- what the pages hold was found among the rows of the target -/
theorem Inv.relations_rows (h : Inv st) (hs : Stored st r s target t) (build : Build)
    {out : List (PduCount × PduEvent)}
    (hchain : Chain (relationsPage build st see user s target filter limit) none out) :
    ∀ x ∈ out, ∃ f, x.1 = .normal f ∧ st.RelatedTo t f ∧ f < u64Max := by
  have hpage : ∀ n token l, n ≠ 0 → n ≤ u64Max → (token = some (.normal n) ∨ token = none ∧ n = u64Max) →
      relationsPage build st see user s target filter limit token = .ok l →
        ∀ x ∈ l, ∃ f, x.1 = .normal f ∧ st.RelatedTo t f ∧ f < u64Max := by
    intro n token l hn hle htoken hl x hx
    obtain ⟨fs, hfs, _, hmem⟩ := @Inv.relations_page st s t see user target filter limit h (hs.targetWord h) n hn
      (hle.trans_lt u64Max_lt) build token htoken
    obtain rfl := Except.ok.inj (hfs.symm.trans hl)
    obtain ⟨f, hf, hrelated⟩ := List.mem_filterMap.mp hx
    obtain ⟨hrow, hlt, hpasses⟩ := (hmem f).mp (List.mem_of_mem_take hf)
    obtain ⟨_, _, _, _, rfl⟩ := (h.relatedIf_eq_some hs.word hrow).mp ⟨hpasses, hrelated⟩
    exact ⟨f, rfl, hrow, hlt.trans_le hle⟩
  have hmax : u64Max ≠ 0 := by
    rw [u64Max_eq]
    omega
  refine hchain.forall (P := fun x => ∃ f, x.1 = .normal f ∧ st.RelatedTo t f ∧ f < u64Max)
    (fun l hl => hpage u64Max none l hmax le_rfl (Or.inr ⟨rfl, rfl⟩) hl) fun x l hx hl => ?_
  obtain ⟨f, hf, hrow, hlt⟩ := hx
  rw [hf] at hl
  exact hpage f _ l (Nat.one_le_iff_ne_zero.mp (h.relatedTo_pos hrow)) hlt.le (Or.inl rfl) hl

/-- the pages of every build hold the related events exactly if none is lost, and none is behind a whole page of
rows that are hidden or cannot be read -/
theorem Inv.relationsReceived_iff (h : Inv st) (hs : Stored st r s target t) :
    (∀ build, RelationsReceived (relationsPage build st see user s target filter limit)
      (st.ShownRelated see user r target filter)) ↔
      st.NoLostRelations see r target filter t ∧ ¬ HiddenRelations st see user s t filter limit := by
  have htarget := hs.targetWord h
  obtain ⟨fs, hfs⟩ := @Inv.exists_relationHistory st s t user target filter h htarget
  have hgap : HiddenRelations st see user s t filter limit ↔ Gap limit (relatedIf st see user s t) fs := by
    constructor
    · intro hrun
      obtain ⟨gs, hgs, hgap⟩ := hrun
      rwa [hfs.unique hgs]
    · intro hgap
      exact ⟨fs, hfs, hgap⟩
  have hno : ∀ build, RelationsReceived (relationsPage build st see user s target filter limit)
      (st.ShownRelated see user r target filter) → st.NoLostRelations see r target filter t := by
    intro build hreceived f p hrelated
    obtain ⟨out, hchain, _, hmem⟩ := hreceived
    obtain ⟨g, hg, hrow, hlt⟩ := h.relations_rows hs build hchain _ ((hmem _).mpr ⟨f, p, hrelated, rfl⟩)
    obtain rfl : f = g := PduCount.normal.inj hg
    exact ⟨((h.relatedTo_iff ⟨s, hs.id⟩ (hs.lt h) f).mp hrow).1, hlt.ne⟩
  have hiff : st.NoLostRelations see r target filter t → ∀ build,
      (RelationsReceived (relationsPage build st see user s target filter limit)
        (st.ShownRelated see user r target filter) ↔ ¬ Gap limit (relatedIf st see user s t) fs) := by
    intro hlost build
    have hirrefl : ∀ x : PduCount × PduEvent, ¬ x.1 < x.1 := fun x hx => @precedes_asymm .backward _ _ hx hx
    rw [← (h.relations_pages hs.word htarget hfs build).complete_iff hirrefl (h.relatedIf_sorted hs.word hfs)]
    have hshown : ∀ x, x ∈ fs.filterMap (relatedIf st see user s t) ↔ st.ShownRelated see user r target filter x := by
      intro x
      rw [h.mem_relatedIf hs hfs]
      refine exists_congr fun f => exists_congr fun p => and_congr_right fun hrelated => ?_
      refine and_iff_right ?_
      obtain ⟨hle, hmax⟩ := hlost f p hrelated
      have hlt := (h.named_le hrelated.1).2
      refine ⟨hle, ?_⟩
      rw [u64Max_eq] at hmax ⊢
      omega
    unfold RelationsReceived
    simp only [hshown]
  rw [hgap]
  constructor
  · intro hall
    have hlost := hno .debug (hall .debug)
    exact ⟨hlost, (hiff hlost .debug).mp (hall .debug)⟩
  · intro hcond build
    exact (hiff hcond.1 build).mpr hcond.2

end

/-- the pages of `/relations` hold the related events exactly under this condition, in every store that appends
and backfills built -/
theorem relations_received_iff (env : Env) (ops : List Building.Op) {st : RelationStore}
    (hrun : run env empty ops = some st) {r : RoomId} {s t : Nat} {target : EventId}
    (hs : Stored st r s target t) (see : EventId → Bool) (user : UserId) (filter : RelationFilter)
    (limit : Nat) :
    (∀ build, RelationsReceived (relationsPage build st see user s target filter limit)
      (st.ShownRelated see user r target filter)) ↔
      st.NoLostRelations see r target filter t ∧ ¬ HiddenRelations st see user s t filter limit :=
  (inv_empty.run ops hrun : Inv st).relationsReceived_iff hs

namespace TwoRooms

def room : RoomId := ⟨.ascii "!r:x"⟩
def other : RoomId := ⟨.ascii "!o:x"⟩
def user : UserId := ⟨.ascii "@u:x"⟩
def target : EventId := ⟨.ascii "$t"⟩

def reaction (r : RoomId) (e : EventId) : PduEvent :=
  { Building.message r e user with content := [("m.relates_to", .obj [("rel_type", .str "m.annotation"),
      ("event_id", .str "$t")])] }

def root : PduJson := ⟨[], Building.message room target user⟩
def inRoom : PduJson := ⟨[], reaction room ⟨.ascii "$a"⟩⟩
def inOther : PduJson := ⟨[], reaction other ⟨.ascii "$b"⟩⟩

def ops : List Building.Op := [.room room, .room other, .append root.pdu root, .append inRoom.pdu inRoom,
  .append inOther.pdu inOther]

theorem exists_run : ∃ st, run .plain empty ops = some st ∧ Stored st room 1 target 3 ∧
    st.Related (fun _ => true) room target ⟨none, none⟩ 4 inRoom ∧
      relationsPage .debug st (fun _ => true) user 1 target ⟨none, none⟩ 1 none = .ok [] := by
  refine ⟨_, rfl, ⟨rfl, ?_, root, ?_⟩, ⟨?_, ?_, rfl, rfl⟩, ?_⟩
  · decide +kernel
  · exact List.mem_cons_of_mem _ (List.mem_cons_of_mem _ List.mem_cons_self)
  · decide +kernel
  · exact List.mem_cons_of_mem _ List.mem_cons_self
  · rfl

/-- the condition for the target with two reactions -/
theorem relations_received_iff_two : ∃ st, run .plain empty ops = some st ∧
    ((∀ build, RelationsReceived (relationsPage build st (fun _ => true) user 1 target ⟨none, none⟩ 1)
      (st.ShownRelated (fun _ => true) user room target ⟨none, none⟩)) ↔
      st.NoLostRelations (fun _ => true) room target ⟨none, none⟩ 3 ∧
        ¬ HiddenRelations st (fun _ => true) user 1 3 ⟨none, none⟩ 1) := by
  obtain ⟨st, hrun, hstored, _⟩ := exists_run
  exact ⟨st, hrun, relations_received_iff .plain ops hrun hstored (fun _ => true) user ⟨none, none⟩ 1⟩

/-- the reaction of the other room takes the only place on the page -/
theorem relations_not_received : ¬ ∀ (env : Env) (ops : List Building.Op) (st : RelationStore),
    run env empty ops = some st → ∀ (r : RoomId) (s t : Nat) (target : EventId), Stored st r s target t →
      ∀ (see : EventId → Bool) (user : UserId) (filter : RelationFilter) (limit : Nat), 1 ≤ limit →
        ∀ build, RelationsReceived (relationsPage build st see user s target filter limit)
          (st.ShownRelated see user r target filter) := by
  intro hall
  obtain ⟨st, hrun, hstored, hrelated, hpage⟩ := exists_run
  obtain ⟨out, hchain, _, hmem⟩ := hall .plain ops st hrun room 1 3 target hstored (fun _ => true) user
    ⟨none, none⟩ 1 le_rfl .debug
  obtain rfl := hchain.unique (.last hpage)
  exact List.not_mem_nil ((hmem _).mpr ⟨4, inRoom, hrelated, rfl⟩)

end TwoRooms

end RelationStore

end Grapevine
