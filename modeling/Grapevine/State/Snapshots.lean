import Grapevine.Data.Ids
import Grapevine.Lib.Update
import Grapevine.State.Compressor

/-!
# Stored states are read back exactly

`IsStack rows h st`: the rows of the database hold, under the name `h`, the stack `st` of clean
differences.  A row is written once, under a fresh name, and everything else is derived from the
rows: the cache holds stacks of the rows, the table of hashes names stacks of the hashed sets.

Main result: `load_returned`.  In every run of `save_state`, `set_event_state`,
`append_to_state`, of moves of the room pointers and of evictions from the cache, every
`shortstatehash` that was returned for a set loads to exactly this set.

The condition on `append_to_state` (`OneEntry`) is not checked by the code: two entries of one
short state key in the current state let it add an entry that is there already, and a later
merge of the two layers loses it (`load_returned_two_entries`).
-/

namespace Grapevine
open Kv

namespace StateDb

variable {db db' : StateDb} {rows rows' : Nat → Option Bytes} {h n : Nat} {previous : Option Nat}

/-! ## stacks in the rows -/

/-- the rows hold the layers, each with the name of the layer below -/
def Kept (rows : Nat → Option Bytes) : List CompressedStateLayer → Prop
  | [] => True
  | l :: below =>
    (∃ value, rows l.name = some value ∧
      parseStatediff value = .ok ⟨below.head?.map Layer.name, l.diff⟩) ∧
    (∀ p ∈ below.head?, p.name < l.name) ∧ (∀ e ∈ l.diff.added, e.hasKey 0 = false) ∧
    Kept rows below

structure IsStack (rows : Nat → Option Bytes) (h : Nat) (st : List CompressedStateLayer) : Prop where
  kept : Kept rows st
  layered : Layered st
  name : st.head?.map Layer.name = some h

/-- the rows hold the set `S` under the name `h` -/
def FullOf (rows : Nat → Option Bytes) (h : Nat) (S : Finset CompressedStateEvent) : Prop :=
  ∃ st, IsStack rows h st ∧ topFull st = S

/-- no row is lost or rewritten -/
def Extends (rows rows' : Nat → Option Bytes) : Prop :=
  ∀ h value, rows h = some value → rows' h = some value

theorem Extends.trans {a b c : Nat → Option Bytes} (h : Extends a b) (h' : Extends b c) :
    Extends a c := fun k v hk => h' k v (h k v hk)

theorem Extends.update (hn : rows h = none) (v : Option Bytes) :
    Extends rows (Function.update rows h v) := by
  intro k w hk
  by_cases e : k = h
  · rw [e, hn] at hk
    cases hk
  · rw [Function.update_of_ne e]
    exact hk

theorem Kept.extends (hx : Extends rows rows') {st : List CompressedStateLayer} (h : Kept rows st) :
    Kept rows' st := by
  induction st with
  | nil => trivial
  | cons l below ih =>
    obtain ⟨⟨v, hv, hp⟩, h2, h3, h4⟩ := h
    exact ⟨⟨v, hx _ _ hv, hp⟩, h2, h3, ih h4⟩

theorem IsStack.extends (hx : Extends rows rows') {st : List CompressedStateLayer} (hs : IsStack rows h st) :
    IsStack rows' h st :=
  ⟨hs.kept.extends hx, hs.layered, hs.name⟩

theorem FullOf.extends (hx : Extends rows rows') {S : Finset CompressedStateEvent} (hf : FullOf rows h S) :
    FullOf rows' h S := by
  obtain ⟨st, hs, ht⟩ := hf
  exact ⟨st, hs.extends hx, ht⟩

theorem Kept.row {rows : Nat → Option Bytes} {st : List CompressedStateLayer} (h : Kept rows st) :
    ∀ l ∈ st, ∃ value, rows l.name = some value := by
  induction st with
  | nil => exact fun l hl => absurd hl List.not_mem_nil
  | cons p below ih =>
    intro l hl
    obtain ⟨⟨v, hv, _⟩, _, _, hk⟩ := h
    rcases List.mem_cons.mp hl with rfl | hl
    · exact ⟨v, hv⟩
    · exact ih hk l hl

/-- the rows determine the stack of a name -/
theorem IsStack.unique {st st' : List CompressedStateLayer} (hs : IsStack rows h st) (hs' : IsStack rows h st') :
    st = st' := by
  induction st generalizing h st' with
  | nil => exact absurd hs.name (by simp)
  | cons l below ih =>
    cases st' with
    | nil => exact absurd hs'.name (by simp)
    | cons l' below' =>
      obtain ⟨⟨v, hv, hp⟩, _, _, hk⟩ := hs.kept
      obtain ⟨⟨v', hv', hp'⟩, _, _, hk'⟩ := hs'.kept
      obtain ⟨_, hfull, hlay⟩ := hs.layered
      obtain ⟨_, hfull', hlay'⟩ := hs'.layered
      have hn : l.name = h := Option.some.inj hs.name
      have hn' : l'.name = h := Option.some.inj hs'.name
      rw [hn] at hv
      rw [hn', hv] at hv'
      cases hv'
      have hrow := hp.symm.trans hp'
      have hparent : below.head?.map Layer.name = below'.head?.map Layer.name :=
        congrArg StateDiff.parent (Except.ok.inj hrow)
      have hdiff : l.diff = l'.diff := congrArg StateDiff.diff (Except.ok.inj hrow)
      have hbelow : below = below' := by
        cases below with
        | nil =>
          cases below' with
          | nil => rfl
          | cons p' _ => cases hparent
        | cons p below =>
          exact ih ⟨hk, hlay, rfl⟩ ⟨hk', hlay', hparent.symm⟩
      subst hbelow
      obtain ⟨name, full, diff⟩ := l
      obtain ⟨name', full', diff'⟩ := l'
      simp only at hn hn' hdiff hfull hfull'
      rw [hn, hn', hfull, hfull', hdiff]

theorem FullOf.unique {S S' : Finset CompressedStateEvent} (hf : FullOf rows h S) (hf' : FullOf rows h S') :
    S = S' := by
  obtain ⟨st, hs, ht⟩ := hf
  obtain ⟨st', hs', ht'⟩ := hf'
  rw [← ht, ← ht', hs.unique hs']

/-! ## loading -/

def Coherent (rows : Nat → Option Bytes) (cache : Nat → Option (List CompressedStateLayer)) : Prop :=
  ∀ h st, cache h = some st → IsStack rows h st

theorem Coherent.insert {cache : Nat → Option (List CompressedStateLayer)} (hc : Coherent rows cache)
    {st : List CompressedStateLayer} (hs : IsStack rows h st) :
    Coherent rows (Function.update cache h (some st)) :=
  update_some_entries hc hs

/-- one level of the recursion, when the cache does not know the name -/
theorem loadInfo_miss (fuel : Nat) {d : StateDiff} {response : List CompressedStateLayer}
    (hc : db.stateinfoCache h = none) (hd : db.getStatediff h = .ok d)
    (hr : onParent (loadInfo fuel) h d db = (.ok response, db')) :
    loadInfo (fuel + 1) h db = (.ok response, { db' with
      stateinfoCache := Function.update db'.stateinfoCache h (some response) }) := by
  have hread : (Comp.reads (fun db => db.getStatediff h) : StateComp StateDiff) db = (.ok d, db) := by
    rw [Comp.reads_run, hd]
  unfold loadInfo
  rw [Comp.bind_ok (Comp.get_run db), hc]
  simp only
  rw [Comp.bind_ok hread, Comp.bind_ok hr]
  rfl

theorem loadInfo_ok (st : List CompressedStateLayer) (h fuel : Nat) (db : StateDb)
    (hs : IsStack db.shortstatehashStatediff h st)
    (hc : Coherent db.shortstatehashStatediff db.stateinfoCache) (hfuel : h < fuel) :
    ∃ cache, loadInfo fuel h db = (.ok st, { db with stateinfoCache := cache }) ∧
      Coherent db.shortstatehashStatediff cache := by
  induction st generalizing h fuel db with
  | nil => exact absurd hs.name (by simp)
  | cons l below ih =>
    obtain ⟨n, rfl⟩ : ∃ n, fuel = n + 1 := ⟨fuel - 1, by omega⟩
    cases hcache : db.stateinfoCache h with
    | some r =>
      have hr : r = l :: below := (hc h r hcache).unique hs
      refine ⟨db.stateinfoCache, ?_, hc⟩
      unfold loadInfo
      rw [Comp.bind_ok (Comp.get_run db), hcache, hr]
      rfl
    | none =>
      have hname : l.name = h := Option.some.inj hs.name
      obtain ⟨⟨v, hv, hp⟩, hlt, _, hk⟩ := hs.kept
      obtain ⟨hclean, hfull, hlay⟩ := hs.layered
      have hd : db.getStatediff h = .ok ⟨below.head?.map Layer.name, l.diff⟩ := by
        unfold getStatediff
        rw [← hname, hv]
        exact hp
      have hl : l = ⟨h, l.diff.on (topFull below), l.diff⟩ := by
        obtain ⟨name, full, diff⟩ := l
        simp only at hname hfull
        rw [hname, hfull]
      cases below with
      | nil =>
        have hr : onParent (loadInfo n) h ⟨none, l.diff⟩ db = (.ok [l], db) := by
          show (Except.ok ([⟨h, l.diff.added, l.diff⟩] : List CompressedStateLayer), db) = _
          rw [← (on_empty_of_clean hclean).1]
          exact congrArg (fun x => (Except.ok [x], db)) hl.symm
        exact ⟨Function.update db.stateinfoCache h (some [l]), loadInfo_miss n hcache hd hr, hc.insert hs⟩
      | cons p below =>
        have hpname : p.name < n := by
          have := hlt p rfl
          omega
        obtain ⟨cache, hload, hc'⟩ := ih p.name n db ⟨hk, hlay, rfl⟩ hc hpname
        have hr : onParent (loadInfo n) h ⟨some p.name, l.diff⟩ db
            = (.ok (l :: p :: below), { db with stateinfoCache := cache }) := by
          unfold onParent
          simp only
          rw [Comp.bind_ok hload]
          show (Except.ok ((⟨h, l.diff.on p.full, l.diff⟩ : CompressedStateLayer) :: p :: below), _) = _
          exact congrArg (fun x => (Except.ok (x :: p :: below), _)) hl.symm
        exact ⟨Function.update cache h (some (l :: p :: below)), loadInfo_miss n hcache hd hr,
          hc'.insert hs⟩

/-! ## saving -/

/-- the row of a clean difference on top of a stack -/
theorem statediffBytes_onTop (ord : Order) {st : List CompressedStateLayer} {d : Diff CompressedStateEvent}
    (hk : Kept rows st) (hl : Layered st) (hclean : d.Clean (topFull st))
    (hkeys : ∀ e ∈ d.added, e.hasKey 0 = false) (hnames : ∀ l ∈ st, 1 ≤ l.name ∧ l.name < h) (hh : h < 2^64)
    (hfresh : rows h = none) :
    IsStack (Function.update rows h (some (statediffBytes ord ⟨st.head?.map Layer.name, d⟩))) h
      (⟨h, d.on (topFull st), d⟩ :: st) := by
  have hparent : ∀ p ∈ st.head?, 1 ≤ p.name ∧ p.name < h :=
    fun p hp => hnames p (List.mem_of_mem_head? hp)
  refine ⟨⟨⟨_, Function.update_self h _ rows, ?_⟩, fun p hp => (hparent p hp).2, hkeys,
    hk.extends (Extends.update hfresh _)⟩, ⟨hclean, rfl, hl⟩, rfl⟩
  refine parseStatediff_bytes ord ⟨st.head?.map Layer.name, d⟩ (fun p hp => ?_) hkeys
  obtain ⟨l, hl', rfl⟩ := Option.map_eq_some_iff.mp hp
  have := hparent l hl'
  exact ⟨this.1, this.2.trans hh⟩

/-- wherever in the stack the difference ends up, the new name stands for the new set, in four layers at most -/
theorem saveStateFromDiff_ok (ord : Order) (h : Nat) (st : List CompressedStateLayer)
    (d : Diff CompressedStateEvent) (sibling : Nat) (db : StateDb)
    (hk : Kept db.shortstatehashStatediff st) (hl : Layered st) (hclean : d.Clean (topFull st))
    (hkeys : ∀ e ∈ d.added, e.hasKey 0 = false) (hnames : ∀ l ∈ st, 1 ≤ l.name ∧ l.name < h)
    (hh : h < 2^64) (hfresh : db.shortstatehashStatediff h = none) :
    ∃ row st', saveStateFromDiff ord h st d sibling db = (.ok (), { db with
        shortstatehashStatediff := Function.update db.shortstatehashStatediff h (some row) }) ∧
      IsStack (Function.update db.shortstatehashStatediff h (some row)) h st' ∧
      topFull st' = d.on (topFull st) ∧ st'.length ≤ 4 := by
  induction st generalizing d sibling with
  | nil =>
    exact ⟨_, _, rfl, statediffBytes_onTop ord hk hl hclean hkeys hnames hh hfresh, rfl, (by decide : 1 ≤ 4)⟩
  | cons parent below ih =>
    have hkept := hk
    have hlayered := hl
    obtain ⟨_, _, hpkeys, hk'⟩ := hk
    obtain ⟨hpclean, hpfull, hl'⟩ := hl
    -- merged into the parent, the difference is clean over the layers below it
    have hmerge : ∀ sibling', ∃ row st',
        saveStateFromDiff ord h below (intoParent ord parent d) sibling' db = (.ok (), { db with
          shortstatehashStatediff := Function.update db.shortstatehashStatediff h (some row) }) ∧
        IsStack (Function.update db.shortstatehashStatediff h (some row)) h st' ∧
        topFull st' = d.on parent.full ∧ st'.length ≤ 4 := by
      intro sibling'
      rw [show topFull (parent :: below) = parent.full from rfl, hpfull] at hclean
      obtain ⟨hc, ho⟩ := Diff.merge_on hpclean hclean (ord.nodup d.removed) (ord.nodup d.added)
        (ord.toFinset d.removed) (ord.toFinset d.added)
      rw [hpfull, ← ho]
      refine ih _ sibling' hk' hl' hc (fun e he => ?_) (fun l hl => hnames l (List.mem_cons_of_mem _ hl))
      rcases Diff.merge_added he with he | he
      · exact hpkeys e he
      · exact hkeys e ((ord.mem d.added e).mp he)
    unfold saveStateFromDiff
    by_cases hdeep : (parent :: below).length > 3
    · rw [if_pos hdeep]
      exact hmerge (diffsum d)
    · rw [if_neg hdeep]
      by_cases hbig : diffsum d * diffsum d ≥ 2 * sibling * diffsum parent.diff
      · rw [if_pos hbig]
        exact hmerge (diffsum d)
      · rw [if_neg hbig]
        have hlength : (parent :: below).length + 1 ≤ 4 := by omega
        exact ⟨_, _, rfl, statediffBytes_onTop ord hkept hlayered hclean hkeys hnames hh hfresh, rfl, hlength⟩

/-! ## the invariant -/

structure Core (db : StateDb) : Prop where
  counter_lt : db.counter < 2^64
  rows_le : ∀ h value, db.shortstatehashStatediff h = some value → 1 ≤ h ∧ h ≤ db.counter
  stacked : ∀ h value, db.shortstatehashStatediff h = some value →
    ∃ st, IsStack db.shortstatehashStatediff h st
  cache : Coherent db.shortstatehashStatediff db.stateinfoCache
  pointers : ∀ r h, db.roomidShortstatehash r = some h →
    ∃ value, db.shortstatehashStatediff h = some value
  keys : ∀ k n, db.statekeyShortstatekey k = some n → 1 ≤ n ∧ n ≤ db.counter

variable (digest : Bytes → Bytes)

/-- a hash in the table belongs to one of the hashed lists, and names its set -/
def Hashes (lists : List (List CompressedStateEvent)) (db : StateDb) : Prop :=
  ∀ k h, db.statehashShortstatehash k = some h →
    ∃ l ∈ lists, k = digest (joinSep l) ∧ FullOf db.shortstatehashStatediff h l.toFinset

theorem Core.empty : Core StateDb.empty where
  counter_lt := by decide
  rows_le h v e := by cases e
  stacked h v e := by cases e
  cache h st e := by cases e
  pointers r h e := by cases e
  keys k n e := by cases e

theorem Core.fresh (h : Core db) (hn : db.counter < n) :
    db.shortstatehashStatediff n = none := by
  cases hv : db.shortstatehashStatediff n with
  | none => rfl
  | some v =>
    have := (h.rows_le n v hv).2
    omega

theorem Core.names (h : Core db) {st : List CompressedStateLayer} (hk : Kept db.shortstatehashStatediff st) :
    ∀ l ∈ st, 1 ≤ l.name ∧ l.name ≤ db.counter := by
  intro l hl
  obtain ⟨v, hv⟩ := hk.row l hl
  exact h.rows_le l.name v hv

/-- the counter moves on -/
theorem Core.count {db : StateDb} (h : Core db) {n : Nat} (hle : db.counter ≤ n) (hn : n < 2^64) :
    Core { db with counter := n } where
  counter_lt := hn
  rows_le k v e := ⟨(h.rows_le k v e).1, (h.rows_le k v e).2.trans hle⟩
  stacked := h.stacked
  cache := h.cache
  pointers := h.pointers
  keys k n e := ⟨(h.keys k n e).1, (h.keys k n e).2.trans hle⟩

/-- a fresh row with a stack -/
theorem Core.put (hc : Core db) {row : Bytes} {st : List CompressedStateLayer} (hpos : 1 ≤ h)
    (hle : h ≤ db.counter) (hfresh : db.shortstatehashStatediff h = none)
    (hst : IsStack (Function.update db.shortstatehashStatediff h (some row)) h st) :
    Core { db with
      shortstatehashStatediff := Function.update db.shortstatehashStatediff h (some row) } := by
  have hx := Extends.update hfresh (some row)
  refine ⟨hc.counter_lt, ?_, ?_, fun k s e => (hc.cache k s e).extends hx, ?_, hc.keys⟩
  · intro k v hk
    change Function.update db.shortstatehashStatediff h (some row) k = some v at hk
    by_cases e : k = h
    · exact ⟨e ▸ hpos, e.trans_le hle⟩
    · rw [Function.update_of_ne e] at hk
      exact hc.rows_le k v hk
  · intro k v hk
    change Function.update db.shortstatehashStatediff h (some row) k = some v at hk
    by_cases e : k = h
    · exact ⟨st, e ▸ hst⟩
    · rw [Function.update_of_ne e] at hk
      obtain ⟨st₀, hst₀⟩ := hc.stacked k v hk
      exact ⟨st₀, hst₀.extends hx⟩
  · intro r k hr
    obtain ⟨v, hv⟩ := hc.pointers r k hr
    exact ⟨v, hx k v hv⟩

/-- a fresh row, on top of the stack of an old one -/
theorem Core.save (hc : Core db) (ord : Order) {st : List CompressedStateLayer} {d : Diff CompressedStateEvent}
    (sibling : Nat) (hk : Kept db.shortstatehashStatediff st) (hl : Layered st) (hclean : d.Clean (topFull st))
    (hkeys : ∀ e ∈ d.added, e.hasKey 0 = false) (hcount : h = db.counter) (hpos : 1 ≤ h)
    (hfresh : db.shortstatehashStatediff h = none) :
    ∃ row, saveStateFromDiff ord h st d sibling db = (.ok (), { db with
        shortstatehashStatediff := Function.update db.shortstatehashStatediff h (some row) }) ∧
      Core { db with
        shortstatehashStatediff := Function.update db.shortstatehashStatediff h (some row) } ∧
      FullOf (Function.update db.shortstatehashStatediff h (some row)) h (d.on (topFull st)) := by
  have hh : h < 2^64 := hcount ▸ hc.counter_lt
  have hnames : ∀ l ∈ st, 1 ≤ l.name ∧ l.name < h := by
    intro l hl
    have hle := hc.names hk l hl
    refine ⟨hle.1, lt_of_le_of_ne (hcount ▸ hle.2) (fun e => ?_)⟩
    obtain ⟨v, hv⟩ := hk.row l hl
    rw [e, hfresh] at hv
    cases hv
  obtain ⟨row, st', hsave, hst', htop, _⟩ :=
    saveStateFromDiff_ok ord h st d sibling db hk hl hclean hkeys hnames hh hfresh
  exact ⟨row, hsave, hc.put hpos hcount.le hfresh hst', st', hst', htop⟩

/-! ## the parts of the calls -/

/-- the number that a call uses as the short state key: the one in the table, or a later count -/
def KeyOf (db : StateDb) (k : EventType × String) (n : Nat) : Prop :=
  db.statekeyShortstatekey k = some n ∨ db.statekeyShortstatekey k = none ∧ db.counter < n

/-- only short ids, the cache and the counter have moved -/
structure Kin (db db' : StateDb) : Prop where
  core : Core db'
  rows : db'.shortstatehashStatediff = db.shortstatehashStatediff
  hashes : db'.statehashShortstatehash = db.statehashShortstatehash
  pointers : db'.roomidShortstatehash = db.roomidShortstatehash
  counter : db.counter ≤ db'.counter
  keyOf : ∀ k n, db'.KeyOf k n → db.KeyOf k n

theorem Kin.refl (h : Core db) : Kin db db :=
  ⟨h, rfl, rfl, rfl, le_refl _, fun _ _ hk => hk⟩

theorem Kin.trans {a b c : StateDb} (h : Kin a b) (h' : Kin b c) : Kin a c :=
  ⟨h'.core, h'.rows.trans h.rows, h'.hashes.trans h.hashes, h'.pointers.trans h.pointers,
    h.counter.trans h'.counter, fun k n hk => h.keyOf k n (h'.keyOf k n hk)⟩

/-- the tables that the invariant does not look at -/
theorem Kin.congr {db'' : StateDb} (h : Kin db db') (hcounter : db''.counter = db'.counter)
    (hrows : db''.shortstatehashStatediff = db'.shortstatehashStatediff)
    (hhashes : db''.statehashShortstatehash = db'.statehashShortstatehash)
    (hcache : db''.stateinfoCache = db'.stateinfoCache)
    (hpointers : db''.roomidShortstatehash = db'.roomidShortstatehash)
    (hkeys : db''.statekeyShortstatekey = db'.statekeyShortstatekey) : Kin db db'' := by
  obtain ⟨⟨h1, h2, h3, h4, h5, h6⟩, k2, k3, k4, k5, k6⟩ := h
  refine ⟨⟨?_, ?_, ?_, ?_, ?_, ?_⟩, hrows.trans k2, hhashes.trans k3, hpointers.trans k4, hcounter ▸ k5, ?_⟩
  · rw [hcounter]
    exact h1
  · rw [hrows, hcounter]
    exact h2
  · rw [hrows]
    exact h3
  · rw [hrows, hcache]
    exact h4
  · rw [hpointers, hrows]
    exact h5
  · rw [hkeys, hcounter]
    exact h6
  · intro k n hk
    unfold KeyOf at hk
    rw [hkeys, hcounter] at hk
    exact k6 k n hk

theorem nextCount_ends (db : StateDb) :
    Comp.Ends nextCount db
      (fun n db' => n = db.counter + 1 ∧ n < 2^64 ∧ db' = { db with counter := n })
      (fun _ db' => db' = db) := by
  by_cases h : db.counter + 1 < 2^64
  · exact Comp.Ends.of_ok (if_pos h) ⟨rfl, h, rfl⟩
  · exact Comp.Ends.of_error (if_neg h) rfl

theorem Kin.count {db : StateDb} (h : Core db) {n : Nat} (hn : n = db.counter + 1) (hlt : n < 2^64) :
    Kin db { db with counter := n } := by
  have hle : db.counter ≤ n := by omega
  refine ⟨h.count hle hlt, rfl, rfl, rfl, hle, fun k m hk => ?_⟩
  rcases hk with hk | ⟨hk, hm⟩
  · exact Or.inl hk
  · exact Or.inr ⟨hk, (show db.counter < n by omega).trans hm⟩

/-- the number is the one in the table -/
theorem getOrCreateShorteventid_row (h : Core db) (e : EventId) :
    Comp.Ends (getOrCreateShorteventid e) db
      (fun n db' => Kin db db' ∧ db'.statekeyShortstatekey = db.statekeyShortstatekey ∧
        db'.eventidShorteventid e = some n)
      (fun _ db' => Kin db db') := by
  rcases getOrCreateShorteventid_cases e db with ⟨n, hs, hrun⟩ | ⟨_, hlt, hrun⟩ | hrun
  · exact Comp.Ends.of_ok hrun ⟨Kin.refl h, rfl, hs⟩
  · exact Comp.Ends.of_ok hrun ⟨(Kin.count h rfl hlt).congr rfl rfl rfl rfl rfl rfl, rfl, Function.update_self _ _ _⟩
  · exact Comp.Ends.of_error hrun (Kin.refl h)

theorem getOrCreateShorteventid_ends (h : Core db) (e : EventId) :
    Comp.Ends (getOrCreateShorteventid e) db (fun _ db' => Kin db db') (fun _ db' => Kin db db') :=
  (getOrCreateShorteventid_row h e).imp (fun _ _ hk => hk.1) fun _ _ hk => hk

theorem getOrCreateShortstatekey_ends (h : Core db) (ty : EventType) (sk : String) :
    Comp.Ends (getOrCreateShortstatekey ty sk) db
      (fun n db' => Kin db db' ∧ db'.statekeyShortstatekey (ty, sk) = some n ∧ 1 ≤ n ∧ n < 2^64)
      (fun _ db' => Kin db db') := by
  unfold getOrCreateShortstatekey
  refine Comp.Ends.after (Comp.get_run db) ?_
  cases hs : db.statekeyShortstatekey (ty, sk) with
  | some n =>
    have hn := h.keys _ n hs
    exact Comp.Ends.of_ok rfl ⟨Kin.refl h, hs, hn.1, hn.2.trans_lt h.counter_lt⟩
  | none =>
    refine Comp.Ends.bind ((nextCount_ends db).imp (fun _ _ hq => hq) ?_) ?_
    · intro _ db' hdb
      rw [hdb]
      exact Kin.refl h
    · intro n db' hn
      obtain ⟨hn, hlt, rfl⟩ := hn
      have hcount := Kin.count h hn hlt
      refine Comp.Ends.of_ok rfl ⟨⟨⟨hcount.core.1, hcount.core.2, hcount.core.3, hcount.core.4,
        hcount.core.5, ?_⟩, rfl, rfl, rfl, hcount.counter, ?_⟩, ?_, by omega, hlt⟩
      · intro k m hk
        show 1 ≤ m ∧ m ≤ n
        rcases update_some_eq_some.mp hk with ⟨-, rfl⟩ | ⟨-, hk⟩
        · exact ⟨by omega, le_refl _⟩
        · exact hcount.core.keys k m hk
      · intro k m hk
        by_cases e : k = (ty, sk)
        · rcases hk with hk | ⟨hk, _⟩
          · change Function.update db.statekeyShortstatekey (ty, sk) (some n) k = some m at hk
            rw [e, Function.update_self] at hk
            cases hk
            exact Or.inr ⟨e ▸ hs, by omega⟩
          · change Function.update db.statekeyShortstatekey (ty, sk) (some n) k = none at hk
            rw [e, Function.update_self] at hk
            cases hk
        · refine hcount.keyOf k m ?_
          unfold KeyOf at hk ⊢
          change Function.update db.statekeyShortstatekey (ty, sk) (some n) k = some m ∨
            Function.update db.statekeyShortstatekey (ty, sk) (some n) k = none ∧ _ at hk
          rw [Function.update_of_ne e] at hk
          exact hk
      · exact Function.update_self (ty, sk) (some n) db.statekeyShortstatekey

theorem compressStateEvent_ends (h : Core db) (k : Nat) (e : EventId) :
    Comp.Ends (compressStateEvent k e) db
      (fun c db' => Kin db db' ∧ db'.statekeyShortstatekey = db.statekeyShortstatekey ∧
        ∃ n, c = .of k n ∧ db'.eventidShorteventid e = some n)
      (fun _ db' => Kin db db') :=
  Comp.Ends.bind (getOrCreateShorteventid_row h e)
    (fun n _ hk => Comp.Ends.of_ok rfl ⟨hk.1, hk.2.1, n, rfl, hk.2.2⟩)

theorem Core.load (h : Core db) {p : Nat} {st : List CompressedStateLayer}
    (hs : IsStack db.shortstatehashStatediff p st) :
    ∃ db', loadShortstatehashInfo p db = (.ok st, db') ∧ Kin db db' ∧ db'.counter = db.counter := by
  obtain ⟨cache, hload, hc⟩ := loadInfo_ok st p (p + 1) db hs h.cache (Nat.lt_succ_self p)
  exact ⟨_, hload, ⟨⟨h.1, h.2, h.3, hc, h.5, h.6⟩, rfl, rfl, rfl, le_refl _, fun _ _ hk => hk⟩, rfl⟩

/-- the layers of the state that a room points to -/
theorem statesParents_ok (h : Core db)
    (hp : ∀ p, previous = some p → ∃ value, db.shortstatehashStatediff p = some value) :
    ∃ st db', statesParents previous db = (.ok st, db') ∧ Kin db db' ∧ db'.counter = db.counter ∧
      Kept db.shortstatehashStatediff st ∧ Layered st ∧
      (previous = none → st = []) ∧
      ∀ p, previous = some p → IsStack db.shortstatehashStatediff p st := by
  cases previous with
  | none =>
    exact ⟨[], db, rfl, Kin.refl h, rfl, trivial, trivial, fun _ => rfl, fun p hp => by cases hp⟩
  | some p =>
    obtain ⟨v, hv⟩ := hp p rfl
    obtain ⟨st, hs⟩ := h.stacked p v hv
    obtain ⟨db', hload, hkin, hcount⟩ := h.load hs
    refine ⟨st, db', hload, hkin, hcount, hs.kept, hs.layered, ?_, ?_⟩
    · intro e
      cases e
    · intro q hq
      cases hq
      exact hs

theorem diffToParents_eq (parents : List CompressedStateLayer) (new : Finset CompressedStateEvent) :
    diffToParents parents new = Diff.between (topFull parents) new := by
  cases parents with
  | nil =>
    unfold diffToParents Diff.between topFull
    rw [Finset.sdiff_empty, Finset.empty_sdiff]
  | cons parent below => rfl

/-! ## the calls -/

/-- the invariant holds after the call, and no row was lost -/
structure Good (lists : List (List CompressedStateEvent)) (db db' : StateDb) : Prop where
  core : Core db'
  hashes : Hashes digest lists db'
  rows : Extends db.shortstatehashStatediff db'.shortstatehashStatediff

variable {digest} {lists : List (List CompressedStateEvent)}

theorem Kin.good (h : Kin db db') (hh : Hashes digest lists db) :
    Good digest lists db db' := by
  refine ⟨h.core, ?_, ?_⟩
  · intro k n hk
    rw [h.hashes] at hk
    rw [h.rows]
    exact hh k n hk
  · rw [h.rows]
    exact fun _ _ hv => hv

theorem Good.trans {a b c : StateDb} (h : Good digest lists a b) (h' : Good digest lists b c) :
    Good digest lists a c := ⟨h'.core, h'.hashes, h.rows.trans h'.rows⟩

/-- the lists that were hashed have different digests -/
def CollisionFree (digest : Bytes → Bytes) (lists : List (List CompressedStateEvent)) : Prop :=
  ∀ l ∈ lists, ∀ m ∈ lists, digest (joinSep l) = digest (joinSep m) → joinSep l = joinSep m

/-- a hash that is in the table names the set that was hashed just now -/
theorem Hashes.existing (hh : Hashes digest lists db) (hcf : CollisionFree digest lists) {ord : Order}
    {S : Finset CompressedStateEvent} (hmem : ord.enum S ∈ lists)
    (hn : db.statehashShortstatehash (calculateHash digest (ord.enum S)) = some n) :
    FullOf db.shortstatehashStatediff n S := by
  obtain ⟨l, hl, hd, hf⟩ := hh _ n hn
  have hjoin := hcf _ hmem l hl hd
  rw [← joinSep_inj _ _ hjoin, ord.toFinset] at hf
  exact hf

theorem getOrCreateShortstatehash_ends (db : StateDb) (k : Bytes) :
    Comp.Ends (getOrCreateShortstatehash k) db
      (fun res db' => (db.statehashShortstatehash k = some res.1 ∧ res.2 = true ∧ db' = db) ∨
        (db.statehashShortstatehash k = none ∧ res.2 = false ∧ res.1 = db.counter + 1 ∧
          res.1 < 2^64 ∧ db' = { db with
            counter := res.1
            statehashShortstatehash := Function.update db.statehashShortstatehash k (some res.1) }))
      (fun _ db' => db' = db) := by
  unfold getOrCreateShortstatehash
  refine Comp.Ends.after (Comp.get_run db) ?_
  cases hs : db.statehashShortstatehash k with
  | some n => exact Comp.Ends.of_ok rfl (Or.inl ⟨rfl, rfl, rfl⟩)
  | none =>
    refine Comp.Ends.bind (nextCount_ends db) ?_
    intro n db' hn
    obtain ⟨hn, hlt, rfl⟩ := hn
    exact Comp.Ends.of_ok rfl (Or.inr ⟨rfl, rfl, hn, hlt, rfl⟩)

/-- a new hash: the row behind it is written on top of the room's current state -/
theorem saveFresh (hc : Core db) (hh : Hashes digest lists db) (ord : Order) {S : Finset CompressedStateEvent}
    (hmem : ord.enum S ∈ lists) (hkeys : ∀ e ∈ S, e.hasKey 0 = false)
    (hp : ∀ p, previous = some p → ∃ value, db.shortstatehashStatediff p = some value) (hn : n = db.counter + 1)
    (hlt : n < 2^64) (sibling : Nat) :
    ∃ st db₂ db₃, statesParents previous { db with
          counter := n
          statehashShortstatehash := Function.update db.statehashShortstatehash
            (calculateHash digest (ord.enum S)) (some n) } = (.ok st, db₂) ∧
      saveStateFromDiff ord n st (diffToParents st S) sibling db₂ = (.ok (), db₃) ∧
      Good digest lists db db₃ ∧ FullOf db₃.shortstatehashStatediff n S := by
  have hc₁ := Kin.count hc hn hlt
  have hcore₁ : Core { db with
      counter := n
      statehashShortstatehash := Function.update db.statehashShortstatehash
        (calculateHash digest (ord.enum S)) (some n) } :=
    ⟨hc₁.core.1, hc₁.core.2, hc₁.core.3, hc₁.core.4, hc₁.core.5, hc₁.core.6⟩
  obtain ⟨st, db₂, hload, hkin, hcount, hkept, hlay, _, _⟩ := statesParents_ok hcore₁ hp
  have hrows : db₂.shortstatehashStatediff = db.shortstatehashStatediff := hkin.rows
  have hfresh : db₂.shortstatehashStatediff n = none := by
    rw [hrows]
    exact hc.fresh (by omega)
  have hcount₂ : n = db₂.counter := hcount.symm
  obtain ⟨row, hsave, hcore₃, hfull⟩ := hkin.core.save ord sibling
    (show Kept db₂.shortstatehashStatediff st by rw [hrows]; exact hkept) hlay
    (Diff.between_clean (topFull st) S) (fun e he => hkeys e (Finset.mem_sdiff.mp he).1) hcount₂
    (by omega) hfresh
  rw [← diffToParents_eq] at hsave hfull
  rw [diffToParents_eq, Diff.between_on] at hfull
  refine ⟨st, db₂, _, hload, hsave, ⟨hcore₃, ?_, ?_⟩, hfull⟩
  · -- the new hash names the new set, the old ones keep theirs
    intro k m hk
    have hk' : db₂.statehashShortstatehash k = some m := hk
    rw [hkin.hashes] at hk'
    rcases update_some_eq_some.mp hk' with ⟨e, rfl⟩ | ⟨-, hk'⟩
    · exact ⟨_, hmem, e, (ord.toFinset S).symm ▸ hfull⟩
    · obtain ⟨l, hl, hd, hf⟩ := hh k m hk'
      exact ⟨l, hl, hd, (hrows ▸ hf).extends (Extends.update hfresh _)⟩
  · intro k v hv
    rw [← hrows] at hv
    exact Extends.update hfresh (some row) k v hv

theorem saveState_ends (hc : Core db) (hh : Hashes digest lists db) (hcf : CollisionFree digest lists)
    (ord : Order) (r : RoomId) {S : Finset CompressedStateEvent} (hmem : ord.enum S ∈ lists)
    (hkeys : ∀ e ∈ S, e.hasKey 0 = false) :
    Comp.Ends (saveState digest ord r S) db
      (fun res db' => Good digest lists db db' ∧ FullOf db'.shortstatehashStatediff res.1 S)
      (fun _ db' => Good digest lists db db') := by
  have hself := (Kin.refl hc).good hh
  unfold saveState
  refine Comp.Ends.after (show getRoomShortstatehash r db = (.ok _, db) from rfl) ?_
  refine Comp.Ends.bind ((getOrCreateShortstatehash_ends db _).imp (fun _ _ h => h) ?_) ?_
  · intro _ db' hdb
    rw [hdb]
    exact hself
  · intro res db' hres
    obtain ⟨n, existed⟩ := res
    rcases hres with ⟨hn, he, hdb⟩ | ⟨hn, he, hcount, hlt, hdb⟩
    · -- the set was hashed before
      cases he
      subst hdb
      have hfull := hh.existing hcf hmem hn
      show Comp.Ends (if some n = db'.roomidShortstatehash r then _ else _) db' _ _
      by_cases hsame : some n = db'.roomidShortstatehash r
      · rw [if_pos hsame]
        exact Comp.Ends.of_ok rfl ⟨hself, hfull⟩
      · rw [if_neg hsame]
        obtain ⟨st, db₂, hload, hkin, _⟩ := statesParents_ok hc (hc.pointers r)
        refine Comp.Ends.after hload (Comp.Ends.of_ok rfl ⟨hkin.good hh, ?_⟩)
        rw [hkin.rows]
        exact hfull
    · cases he
      change n = db.counter + 1 at hcount
      subst hdb
      show Comp.Ends (if some n = db.roomidShortstatehash r then _ else _) _ _ _
      have hsame : some n ≠ db.roomidShortstatehash r := by
        intro e
        obtain ⟨v, hv⟩ := hc.pointers r n e.symm
        have := (hc.rows_le n v hv).2
        omega
      rw [if_neg hsame]
      obtain ⟨st, db₂, db₃, hload, hsave, hgood, hfull⟩ :=
        saveFresh hc hh ord hmem hkeys (hc.pointers r) hcount hlt 2
      exact Comp.Ends.after hload (Comp.Ends.after hsave (Comp.Ends.of_ok rfl ⟨hgood, hfull⟩))

theorem setEventState_ends (hc : Core db) (hh : Hashes digest lists db) (hcf : CollisionFree digest lists)
    (ord : Order) (e : EventId) (r : RoomId) {S : Finset CompressedStateEvent} (hmem : ord.enum S ∈ lists)
    (hkeys : ∀ e ∈ S, e.hasKey 0 = false) :
    Comp.Ends (setEventState digest ord e r S) db
      (fun n db' => Good digest lists db db' ∧ FullOf db'.shortstatehashStatediff n S)
      (fun _ db' => Good digest lists db db') := by
  unfold setEventState
  refine Comp.Ends.bind ((getOrCreateShorteventid_ends hc e).imp (fun _ _ h => h)
    (fun _ db' hk => hk.good hh)) ?_
  intro shorteventid db₁ hkin₁
  have hgood₁ := hkin₁.good hh
  have hc₁ := hkin₁.core
  refine Comp.Ends.after (show getRoomShortstatehash r db₁ = (.ok _, db₁) from rfl) ?_
  refine Comp.Ends.bind ((getOrCreateShortstatehash_ends db₁ _).imp (fun _ _ h => h) ?_) ?_
  · intro _ db' hdb
    rw [hdb]
    exact hgood₁
  · intro res db' hres
    obtain ⟨n, existed⟩ := res
    -- the last write touches none of the tables that matter
    have hlast : ∀ db₃, Good digest lists db db₃ → FullOf db₃.shortstatehashStatediff n S →
        Comp.Ends (do
          setEventShortstatehash shorteventid n
          pure n) db₃ (fun n db' => Good digest lists db db' ∧
            FullOf db'.shortstatehashStatediff n S) (fun _ db' => Good digest lists db db') := by
      intro db₃ hg hf
      refine Comp.Ends.of_ok rfl ⟨⟨?_, hg.hashes, hg.rows⟩, hf⟩
      obtain ⟨h1, h2, h3, h4, h5, h6⟩ := hg.core
      exact ⟨h1, h2, h3, h4, h5, h6⟩
    rcases hres with ⟨hn, he, hdb⟩ | ⟨hn, he, hcount, hlt, hdb⟩
    · cases he
      subst hdb
      exact hlast _ hgood₁ (hgood₁.hashes.existing hcf hmem hn)
    · cases he
      change n = db₁.counter + 1 at hcount
      subst hdb
      obtain ⟨st, db₂, db₃, hload, hsave, hgood, hfull⟩ :=
        saveFresh hc₁ hgood₁.hashes ord hmem hkeys (hc₁.pointers r) hcount hlt 1000000
      exact Comp.Ends.after hload (Comp.Ends.after hsave (hlast _ (hgood₁.trans hgood) hfull))

/-- the current state of the room has at most one entry under the key of the event -/
def OneEntry (db : StateDb) (pdu : PduEvent) : Prop :=
  ∀ stateKey p S k, pdu.stateKey = some stateKey → db.roomidShortstatehash pdu.roomId = some p →
    FullOf db.shortstatehashStatediff p S → db.KeyOf (pdu.kind, stateKey) k →
    ∀ e ∈ S, ∀ e' ∈ S, e.hasKey k = true → e'.hasKey k = true → e = e'

/-- what the event replaces is in the current state, and nothing else of its key is -/
theorem replaces_spec (ord : Order) (st : List CompressedStateLayer) (k : Nat)
    (hone : ∀ e ∈ topFull st, ∀ e' ∈ topFull st, e.hasKey k = true → e'.hasKey k = true → e = e') :
    (∀ e, replaces ord st k = some e → e ∈ topFull st) ∧
      ∀ new, new.hasKey k = true → new ∈ topFull st → replaces ord st k = some new := by
  cases st with
  | nil =>
    refine ⟨fun e he => ?_, fun new _ hm => absurd hm (Finset.notMem_empty new)⟩
    cases he
  | cons l below =>
    have hdef : replaces ord (l :: below) k = (ord.enum l.full).find? (fun e => e.hasKey k) := rfl
    rw [hdef]
    refine ⟨fun e he => (ord.mem _ _).mp (List.mem_of_find?_eq_some he), fun new hk hm => ?_⟩
    cases hf : (ord.enum l.full).find? (fun e => e.hasKey k) with
    | none =>
      rw [List.find?_eq_none] at hf
      exact absurd hk (hf new ((ord.mem _ _).mpr hm))
    | some e =>
      have he : e ∈ l.full := (ord.mem _ _).mp (List.mem_of_find?_eq_some hf)
      have hek : e.hasKey k = true := by simpa using List.find?_some hf
      rw [hone e he new hm hek hk]

theorem appendedState_of_clean {st : List CompressedStateLayer} {old : Option CompressedStateEvent}
    {new : CompressedStateEvent} (h : Diff.Clean ⟨{new}, old.toFinset⟩ (topFull st)) :
    appendedState st old new = Diff.on ⟨{new}, old.toFinset⟩ (topFull st) := by
  apply Finset.ext
  intro x
  rw [Diff.mem_on_of_clean h]
  unfold appendedState
  rw [Finset.mem_insert, Finset.mem_sdiff, Finset.mem_singleton]

theorem appendStateEvent_ends (hc : Core db) (hh : Hashes digest lists db) (ord : Order) (pdu : PduEvent)
    {stateKey : String} (hsk : pdu.stateKey = some stateKey) (hone : OneEntry db pdu) :
    Comp.Ends (appendStateEvent ord pdu stateKey (db.roomidShortstatehash pdu.roomId)) db
      (fun res db' => Good digest lists db db' ∧
        ∀ S, res.2 = some S → FullOf db'.shortstatehashStatediff res.1 S)
      (fun _ db' => Good digest lists db db') := by
  obtain ⟨st, db₁, hload, hkin₁, _, hkept, hlay, hnone, hstack⟩ :=
    statesParents_ok hc (hc.pointers pdu.roomId)
  unfold appendStateEvent
  refine Comp.Ends.after hload ?_
  refine Comp.Ends.bind ((getOrCreateShortstatekey_ends hkin₁.core pdu.kind stateKey).imp
    (fun _ _ h => h) (fun _ _ h => (hkin₁.trans h).good hh)) ?_
  intro k db₂ hk
  obtain ⟨hkin₂, hkey, hk1, hk2⟩ := hk
  refine Comp.Ends.bind ((compressStateEvent_ends hkin₂.core k pdu.eventId).imp
    (fun _ _ h => h) (fun _ _ h => (hkin₁.trans (hkin₂.trans h)).good hh)) ?_
  intro new db₃ hnew
  obtain ⟨hkin₃, _, n, rfl, _⟩ := hnew
  have hkin := hkin₁.trans (hkin₂.trans hkin₃)
  have hgood := hkin.good hh
  have hone' : ∀ e ∈ topFull st, ∀ e' ∈ topFull st, e.hasKey k = true → e'.hasKey k = true → e = e' := by
    cases hp : db.roomidShortstatehash pdu.roomId with
    | none =>
      rw [hnone hp]
      exact fun e he => absurd he (Finset.notMem_empty e)
    | some p =>
      exact hone stateKey p _ k hsk hp ⟨st, hstack p hp, rfl⟩
        ((hkin₁.trans hkin₂).keyOf _ k (Or.inl hkey))
  obtain ⟨hold, hnew⟩ := replaces_spec ord st k hone'
  show Comp.Ends (if some (CompressedStateEvent.of k n) = replaces ord st k then _ else _) db₃ _ _
  by_cases hsame : some (CompressedStateEvent.of k n) = replaces ord st k
  · rw [if_pos hsame]
    have hin := hold _ hsame.symm
    cases hp : db.roomidShortstatehash pdu.roomId with
    | none =>
      rw [hnone hp] at hin
      exact absurd hin (Finset.notMem_empty _)
    | some p =>
      refine Comp.Ends.of_ok rfl ⟨hgood, fun S hS => ?_⟩
      have hS' : S = topFull st := by
        rw [← Option.some.inj hS, ← hsame]
        unfold appendedState
        rw [Option.toFinset_some, Finset.sdiff_singleton_eq_erase, Finset.insert_erase hin]
      rw [hS', hkin.rows]
      exact ⟨st, hstack p hp, rfl⟩
  · rw [if_neg hsame]
    refine Comp.Ends.bind ((nextCount_ends db₃).imp (fun _ _ h => h) ?_) ?_
    · intro _ db' hdb
      rw [hdb]
      exact hgood
    · intro h db₄ hh₄
      obtain ⟨hcount, hlt, rfl⟩ := hh₄
      have hkin₄ := hkin.trans (Kin.count hkin.core hcount hlt)
      have hclean : Diff.Clean ⟨{.of k n}, (replaces ord st k).toFinset⟩ (topFull st) := by
        refine ⟨fun x hx hin => ?_, fun x hx => hold x (Option.mem_toFinset.mp hx)⟩
        rw [Finset.mem_singleton] at hx
        subst hx
        exact hsame (hnew _ (CompressedStateEvent.of_hasKey k n) hin).symm
      have hfresh : db.shortstatehashStatediff h = none := by
        have := hkin.counter
        exact hc.fresh (by omega)
      obtain ⟨row, hsave, hcore, hfull⟩ := hkin₄.core.save ord 2
        (show Kept _ st by rw [hkin₄.rows]; exact hkept) hlay hclean
        (fun e he => by
          rw [Finset.mem_singleton.mp he]
          exact CompressedStateEvent.not_hasKey_zero hk1 hk2 n)
        rfl (show 1 ≤ h by omega) (by rw [hkin₄.rows]; exact hfresh)
      have hfresh₃ : db₃.shortstatehashStatediff h = none := by
        rw [hkin.rows]
        exact hfresh
      have hx := Extends.update hfresh₃ (some row)
      refine Comp.Ends.after hsave (Comp.Ends.of_ok rfl ⟨⟨hcore, ?_, ?_⟩, fun S hS => ?_⟩)
      · intro key m hm
        obtain ⟨l, hl, hd, hf⟩ := hgood.hashes key m hm
        exact ⟨l, hl, hd, hf.extends hx⟩
      · exact hgood.rows.trans hx
      · rw [← Option.some.inj hS, appendedState_of_clean hclean]
        exact hfull

theorem appendToStateWith_ends (hc : Core db) (hh : Hashes digest lists db) (ord : Order) (pdu : PduEvent)
    (hone : OneEntry db pdu) :
    Comp.Ends (appendToStateWith ord pdu) db
      (fun res db' => Good digest lists db db' ∧
        ∀ S, res.2 = some S → FullOf db'.shortstatehashStatediff res.1 S)
      (fun _ db' => Good digest lists db db') := by
  unfold appendToStateWith
  refine Comp.Ends.bind ((getOrCreateShorteventid_ends hc pdu.eventId).imp (fun _ _ h => h)
    (fun _ db' hk => hk.good hh)) ?_
  intro shorteventid db₁ hkin₁
  refine Comp.Ends.after (show getRoomShortstatehash pdu.roomId db₁
    = (.ok (db₁.roomidShortstatehash pdu.roomId), db₁) from rfl) ?_
  -- the pointer of the event is outside of the invariant
  have hcur : ∃ db₂, setCurrentState shorteventid (db₁.roomidShortstatehash pdu.roomId) db₁
      = (.ok (), db₂) ∧ Kin db db₂ ∧ db₂.roomidShortstatehash = db₁.roomidShortstatehash := by
    obtain ⟨⟨h1, h2, h3, h4, h5, h6⟩, k2, k3, k4, k5, k6⟩ := hkin₁
    cases db₁.roomidShortstatehash pdu.roomId with
    | none => exact ⟨db₁, rfl, ⟨⟨h1, h2, h3, h4, h5, h6⟩, k2, k3, k4, k5, k6⟩, rfl⟩
    | some p => exact ⟨_, rfl, ⟨⟨h1, h2, h3, h4, h5, h6⟩, k2, k3, k4, k5, k6⟩, rfl⟩
  obtain ⟨db₂, hset, hkin₂, hroom⟩ := hcur
  refine Comp.Ends.after hset ?_
  have hgood₂ := hkin₂.good hh
  cases hsk : pdu.stateKey with
  | none =>
    cases hp : db₁.roomidShortstatehash pdu.roomId with
    | none => exact Comp.Ends.of_error rfl hgood₂
    | some p =>
      refine Comp.Ends.of_ok rfl ⟨hgood₂, fun S hS => ?_⟩
      cases hS
  | some stateKey =>
    have hone₂ : OneEntry db₂ pdu := by
      intro sk p S k hsk' hp hf hk
      rw [hkin₂.pointers] at hp
      rw [hkin₂.rows] at hf
      exact hone sk p S k hsk' hp hf (hkin₂.keyOf _ k hk)
    rw [← hroom]
    exact (appendStateEvent_ends hkin₂.core hgood₂.hashes ord pdu hsk hone₂).imp
      (fun _ _ h => ⟨hgood₂.trans h.1, h.2⟩) (fun _ _ h => hgood₂.trans h)

/-! ## runs -/

/-- the store, with every hash that a call returned and the set it was returned for -/
structure Run where
  db : StateDb
  returned : List (Nat × Finset CompressedStateEvent)

inductive Op where
  | saveState (ord : Order) (r : RoomId) (new : Finset CompressedStateEvent)
  | setEventState (ord : Order) (e : EventId) (r : RoomId) (new : Finset CompressedStateEvent)
  | appendToState (ord : Order) (pdu : PduEvent)
  | setRoomState (r : RoomId) (shortstatehash : Nat)
  /-- a load by another call, which fills the cache -/
  | load (shortstatehash : Nat)
  /-- the cache drops entries -/
  | evict (keep : Nat → Bool)
  /-- short ids that other calls create -/
  | shortstatekey (eventType : EventType) (stateKey : String)
  | shorteventid (e : EventId)
  /-- other calls of `next_count` -/
  | count

/-- the hash and the set that a call returned -/
def answer {α : Type} (x : Except Error α × StateDb)
    (f : α → Option (Nat × Finset CompressedStateEvent)) : Option (Nat × Finset CompressedStateEvent) :=
  match x.1 with
  | .ok a => f a
  | .error _ => none

def Run.call {α : Type} (s : Run) (x : StateComp α)
    (f : α → Option (Nat × Finset CompressedStateEvent)) : Run :=
  ⟨(x s.db).2, (answer (x s.db) f).toList ++ s.returned⟩

variable (digest)

def step (s : Run) : Op → Run
  | .saveState ord r new => s.call (saveState digest ord r new) (fun res => some (res.1, new))
  | .setEventState ord e r new => s.call (setEventState digest ord e r new) (fun h => some (h, new))
  | .appendToState ord pdu =>
    s.call (appendToStateWith ord pdu) (fun res => res.2.map (fun new => (res.1, new)))
  | .setRoomState r h => s.call (setRoomState r h) (fun _ => none)
  | .load h => s.call (loadShortstatehashInfo h) (fun _ => none)
  | .evict keep => { s with db := { s.db with
      stateinfoCache := fun h => if keep h then s.db.stateinfoCache h else none } }
  | .shortstatekey ty sk => s.call (getOrCreateShortstatekey ty sk) (fun _ => none)
  | .shorteventid e => s.call (getOrCreateShorteventid e) (fun _ => none)
  | .count => s.call nextCount (fun _ => none)

def run (s : Run) (ops : List Op) : Run := ops.foldl (step digest) s

def start : Run := ⟨.empty, []⟩

/-- the list that an operation hashes -/
def hashed : Op → Option (List CompressedStateEvent)
  | .saveState ord _ new => some (ord.enum new)
  | .setEventState ord _ _ new => some (ord.enum new)
  | _ => none

/-- what the callers see to: state keys are not zero, pointers are moved to hashes that were
returned, and a state event is appended to a state with at most one entry of its key -/
def Allowed (s : Run) : Op → Prop
  | .saveState _ _ new => ∀ e ∈ new, e.hasKey 0 = false
  | .setEventState _ _ _ new => ∀ e ∈ new, e.hasKey 0 = false
  | .appendToState _ pdu => OneEntry s.db pdu
  | .setRoomState _ h => ∃ new, (h, new) ∈ s.returned
  | _ => True

/-- every step of the run is allowed where it happens -/
def AllAllowed (P : Run → Op → Prop) : Run → List Op → Prop
  | _, [] => True
  | s, op :: ops => P s op ∧ AllAllowed P (step digest s op) ops

structure Inv (lists : List (List CompressedStateEvent)) (s : Run) : Prop where
  core : Core s.db
  hashes : Hashes digest lists s.db
  returned : ∀ h new, (h, new) ∈ s.returned → FullOf s.db.shortstatehashStatediff h new

variable {digest}

/-- a call that keeps the invariant, and answers with the set that the rows hold -/
theorem Inv.call {lists : List (List CompressedStateEvent)} {s : Run} (h : Inv digest lists s)
    {α : Type} {x : StateComp α} {f : α → Option (Nat × Finset CompressedStateEvent)}
    (hx : Comp.Ends x s.db (fun a db' => Good digest lists s.db db' ∧
      ∀ n new, f a = some (n, new) → FullOf db'.shortstatehashStatediff n new)
      (fun _ db' => Good digest lists s.db db')) : Inv digest lists (s.call x f) := by
  unfold Comp.Ends at hx
  unfold Run.call
  generalize x s.db = res at hx
  obtain ⟨o, db'⟩ := res
  cases o with
  | error e =>
    exact ⟨hx.core, hx.hashes, fun n new hm => (h.returned n new hm).extends hx.rows⟩
  | ok a =>
    refine ⟨hx.1.core, hx.1.hashes, fun n new hm => ?_⟩
    rcases List.mem_append.mp hm with hm | hm
    · exact hx.2 n new (Option.mem_toList.mp hm)
    · exact (h.returned n new hm).extends hx.1.rows

theorem Kin.ends (hh : Hashes digest lists db) {α : Type} {x : StateComp α}
    (hx : Comp.Ends x db (fun _ db' => Kin db db') (fun _ db' => Kin db db')) :
    Comp.Ends x db (fun _ db' => Good digest lists db db' ∧ ∀ n new, (none : Option (Nat × _)) = some (n, new) →
      FullOf db'.shortstatehashStatediff n new) (fun _ db' => Good digest lists db db') :=
  hx.imp (fun _ _ h => ⟨h.good hh, fun _ _ e => by cases e⟩) (fun _ _ h => h.good hh)

/-- a load of a name without a row does nothing -/
theorem loadShortstatehashInfo_missing (h : Core db) (hv : db.shortstatehashStatediff n = none) :
    loadShortstatehashInfo n db = (.error (.badDatabase "State hash does not exist"), db) := by
  have hcache : db.stateinfoCache n = none := by
    cases hc : db.stateinfoCache n with
    | none => rfl
    | some st =>
      have hs := h.cache n st hc
      cases st with
      | nil => exact absurd hs.name (by simp)
      | cons l below =>
        obtain ⟨w, hw⟩ := hs.kept.row l List.mem_cons_self
        rw [show l.name = n from Option.some.inj hs.name, hv] at hw
        cases hw
  unfold loadShortstatehashInfo loadInfo
  rw [Comp.bind_ok (Comp.get_run db), hcache]
  refine Comp.bind_error ?_
  rw [Comp.reads_run]
  unfold getStatediff
  rw [hv]

theorem loadShortstatehashInfo_ends (h : Core db) (n : Nat) :
    Comp.Ends (loadShortstatehashInfo n) db (fun _ db' => Kin db db') (fun _ db' => Kin db db') := by
  cases hv : db.shortstatehashStatediff n with
  | some v =>
    obtain ⟨st, hs⟩ := h.stacked n v hv
    obtain ⟨db', hload, hkin, _⟩ := h.load hs
    exact Comp.Ends.of_ok hload hkin
  | none => exact Comp.Ends.of_error (loadShortstatehashInfo_missing h hv) (Kin.refl h)

theorem Inv.step {s : Run} (h : Inv digest lists s) (hcf : CollisionFree digest lists) (op : Op)
    (hlist : ∀ l, hashed op = some l → l ∈ lists) (hok : Allowed s op) :
    Inv digest lists (step digest s op) := by
  cases op with
  | saveState ord r new =>
    refine h.call ((saveState_ends h.core h.hashes hcf ord r (hlist _ rfl) hok).imp ?_ (fun _ _ h => h))
    intro res db' hres
    refine ⟨hres.1, fun n S e => ?_⟩
    cases e
    exact hres.2
  | setEventState ord e r new =>
    refine h.call ((setEventState_ends h.core h.hashes hcf ord e r (hlist _ rfl) hok).imp ?_
      (fun _ _ h => h))
    intro res db' hres
    refine ⟨hres.1, fun n S e => ?_⟩
    cases e
    exact hres.2
  | appendToState ord pdu =>
    refine h.call ((appendToStateWith_ends h.core h.hashes ord pdu hok).imp ?_ (fun _ _ h => h))
    intro res db' hres
    refine ⟨hres.1, fun n S e => ?_⟩
    obtain ⟨S', hS', e'⟩ := Option.map_eq_some_iff.mp e
    cases e'
    exact hres.2 _ hS'
  | setRoomState r n =>
    obtain ⟨new, hnew⟩ := hok
    obtain ⟨st, hs, _⟩ := h.returned n new hnew
    obtain ⟨h1, h2, h3, h4, h5, h6⟩ := h.core
    refine ⟨⟨h1, h2, h3, h4, ?_, h6⟩, h.hashes, h.returned⟩
    refine update_some_entries h5 ?_
    cases st with
    | nil => exact absurd hs.name (by simp)
    | cons l below =>
      obtain ⟨v, hv⟩ := hs.kept.row l List.mem_cons_self
      exact ⟨v, by rw [← Option.some.inj hs.name]; exact hv⟩
  | load n => exact h.call (Kin.ends h.hashes (loadShortstatehashInfo_ends h.core n))
  | evict keep =>
    obtain ⟨h1, h2, h3, h4, h5, h6⟩ := h.core
    refine ⟨⟨h1, h2, h3, ?_, h5, h6⟩, h.hashes, h.returned⟩
    intro n st hn
    change (if keep n then s.db.stateinfoCache n else none) = some st at hn
    by_cases hk : keep n = true
    · rw [if_pos hk] at hn
      exact h4 n st hn
    · rw [if_neg hk] at hn
      cases hn
  | shortstatekey ty sk =>
    exact h.call (Kin.ends h.hashes ((getOrCreateShortstatekey_ends h.core ty sk).imp
      (fun _ _ h => h.1) (fun _ _ h => h)))
  | shorteventid e => exact h.call (Kin.ends h.hashes (getOrCreateShorteventid_ends h.core e))
  | count =>
    refine h.call (Kin.ends h.hashes ((nextCount_ends s.db).imp ?_ ?_))
    · intro n db' hn
      obtain ⟨hn, hlt, rfl⟩ := hn
      exact Kin.count h.core hn hlt
    · intro _ db' hdb
      rw [hdb]
      exact Kin.refl h.core

theorem Inv.run {s : Run} (h : Inv digest lists s) (hcf : CollisionFree digest lists)
    (ops : List Op) (hlist : ∀ op ∈ ops, ∀ l, hashed op = some l → l ∈ lists)
    (hok : AllAllowed digest Allowed s ops) : Inv digest lists (run digest s ops) := by
  induction ops generalizing s with
  | nil => exact h
  | cons op ops ih =>
    exact ih (h.step hcf op (hlist op List.mem_cons_self) hok.1)
      (fun o ho => hlist o (List.mem_cons_of_mem _ ho)) hok.2

theorem Inv.start : Inv digest lists start where
  core := Core.empty
  hashes k h e := by cases e
  returned h new hm := absurd hm List.not_mem_nil

variable (digest)

theorem step_returned (s : Run) (op : Op) : s.returned ⊆ (step digest s op).returned := by
  intro x hx
  cases op with
  | evict keep => exact hx
  | _ => exact List.mem_append_right _ hx

theorem run_returned (s : Run) (ops : List Op) : s.returned ⊆ (run digest s ops).returned := by
  induction ops generalizing s with
  | nil => exact fun _ h => h
  | cons op ops ih => exact fun x hx => ih (step digest s op) (step_returned digest s op hx)

theorem Core.load_full (hcore : Core db) {new : Finset CompressedStateEvent}
    (hnew : FullOf db.shortstatehashStatediff h new) :
    ∃ st db', loadShortstatehashInfo h db = (.ok st, db') ∧ st.head?.map Layer.full = some new := by
  obtain ⟨st, hs, hfull⟩ := hnew
  obtain ⟨db', hload, _⟩ := hcore.load hs
  refine ⟨st, db', hload, ?_⟩
  cases st with
  | nil => exact absurd hs.name (by simp)
  | cons l below => exact congrArg some hfull

/-- a hash that was returned for a set loads to this set, then and after every later call -/
theorem load_returned (ops later : List Op)
    (hcf : CollisionFree digest ((ops ++ later).filterMap hashed))
    (hok : AllAllowed digest Allowed start (ops ++ later)) (h : Nat)
    (new : Finset CompressedStateEvent) (hret : (h, new) ∈ (run digest start ops).returned) :
    ∃ st db', loadShortstatehashInfo h (run digest start (ops ++ later)).db = (.ok st, db') ∧
      st.head?.map Layer.full = some new := by
  have hinv : Inv digest ((ops ++ later).filterMap hashed) (run digest start (ops ++ later)) :=
    Inv.start.run hcf _ (fun op hop l hl => List.mem_filterMap.mpr ⟨op, hop, hl⟩) hok
  have hrun : run digest start (ops ++ later) = run digest (run digest start ops) later :=
    List.foldl_append
  have hret' := run_returned digest (run digest start ops) later hret
  rw [← hrun] at hret'
  exact hinv.core.load_full (hinv.returned h new hret')

/-! ## two entries of one key -/

instance : LinearOrder CompressedStateEvent :=
  LinearOrder.lift' (fun e => e.bytes) (fun _ _ h => CompressedStateEvent.ext_bytes h)

/-- a store that iterates its sets in ascending order -/
def ascendingOrder : Order where
  enum := ascending
  nodup := ascending_nodup
  toFinset s := by
    apply Finset.ext
    intro x
    rw [List.mem_toFinset, mem_ascending]

def exampleRoom : RoomId := ⟨.ascii "!r:x"⟩

/-- a room name, whose entry is `(3, 2)` in the run below -/
def exampleName : PduEvent :=
  ⟨⟨.ascii "$e"⟩, exampleRoom, ⟨.ascii "@u:x"⟩, 0, .roomName, [], some "", [], 0, [], none, none⟩

/-- the current state has two entries of the key `3`; the room name replaces the first of them,
and is the second -/
def twoEntries : List Op :=
  [.saveState ascendingOrder exampleRoom {.of 3 1, .of 3 2}, .setRoomState exampleRoom 1,
    .appendToState ascendingOrder exampleName, .setRoomState exampleRoom 4,
    .saveState ascendingOrder exampleRoom {.of 5 1, .of 5 2}]

theorem load_five : (loadShortstatehashInfo 5 (run id start twoEntries).db).1.toOption.bind
    (fun st => st.head?.map Layer.full) = some {.of 3 2, .of 5 1, .of 5 2} := by
  decide +kernel

/-- what the callers see to, but for the entries of one key -/
def AllowedAnyState (s : Run) : Op → Prop
  | .appendToState _ _ => True
  | op => Allowed s op

theorem twoEntries_allowed : AllAllowed id AllowedAnyState start twoEntries := by
  refine ⟨?_, ⟨{.of 3 1, .of 3 2}, ?_⟩, trivial, ⟨{.of 3 2}, ?_⟩, ?_, trivial⟩
  · show ∀ e ∈ ({.of 3 1, .of 3 2} : Finset CompressedStateEvent), e.hasKey 0 = false
    decide
  · decide +kernel
  · decide +kernel
  · show ∀ e ∈ ({.of 5 1, .of 5 2} : Finset CompressedStateEvent), e.hasKey 0 = false
    decide

/-- the last hash was returned for `{(5, 1), (5, 2)}`, and loads to a state with `(3, 2)` in it -/
theorem load_returned_two_entries :
    ¬ ∀ (digest : Bytes → Bytes) (ops later : List Op),
      CollisionFree digest ((ops ++ later).filterMap hashed) →
      AllAllowed digest AllowedAnyState start (ops ++ later) → ∀ h new,
      (h, new) ∈ (run digest start ops).returned →
      ∃ st db', loadShortstatehashInfo h (run digest start (ops ++ later)).db = (.ok st, db') ∧
        st.head?.map Layer.full = some new := by
  intro hall
  have hret : (5, ({.of 5 1, .of 5 2} : Finset CompressedStateEvent)) ∈
      (run id start twoEntries).returned := by
    decide +kernel
  obtain ⟨st, db', hload, hfull⟩ := hall id twoEntries [] (fun _ _ _ _ h => h)
    (by rw [List.append_nil]; exact twoEntries_allowed) 5 _ hret
  rw [List.append_nil] at hload
  have h5 := load_five
  rw [hload] at h5
  have heq : ({.of 5 1, .of 5 2} : Finset CompressedStateEvent) = {.of 3 2, .of 5 1, .of 5 2} :=
    Option.some.inj (hfull.symm.trans h5)
  exact absurd heq (by decide)

/-- the first event of a room, and a move of the pointer -/
theorem load_returned_first_event :
    ∃ st db', loadShortstatehashInfo 3 (run id start
        ([.appendToState ascendingOrder exampleName] ++ [.setRoomState exampleRoom 3])).db
          = (.ok st, db') ∧
      st.head?.map Layer.full = some {.of 2 1} := by
  refine load_returned id [.appendToState ascendingOrder exampleName] [.setRoomState exampleRoom 3]
    (fun _ _ _ _ h => h) ⟨?_, ⟨{.of 2 1}, ?_⟩, trivial⟩ 3 {.of 2 1} ?_
  · intro stateKey p S k _ hp
    cases hp
  · decide +kernel
  · decide +kernel

end StateDb
end Grapevine
