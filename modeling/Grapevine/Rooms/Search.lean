import Grapevine.Lib.Common
import Grapevine.Rooms.Append
import Grapevine.Timeline.Scan

/-!
# Full-text search

The index `tokenids` has a row for each word of a body: the short room id, the word and a separator, and the
id of the event.  A search reads the rows of each of its words, newest first, and keeps the ids that all
of them have.

* `wordIds`             the ids under one word (`mem_wordIds`);
* `searchPdus`          the ids under all words of the query;
* `IndexRun`            calls of `index_pdu` and `deindex_pdu`: an id is indexed once, and de-indexed with the
                        body it was indexed with.

Main result: `searchPdus_exact`.
-/

namespace Grapevine
open Kv

namespace Db

variable (env : Env)
variable {s : Nat} {body : String}

/-! ## the search -/

def wordPrefix (shortroomid : Nat) (word : Bytes) : Bytes := be64 shortroomid ++ (word ++ [sep])

/-- the ids under a word -/
def wordIds (tokenids : Tree Bytes Unit) (shortroomid : Nat) (word : Bytes) : List Bytes :=
  -- newest pdus first
  ((tokenids.iterFrom (wordPrefix shortroomid word ++ be64 u64Max) true).takeWhile
    (fun row => (wordPrefix shortroomid word).isPrefixOf row.1)).map
      (fun row => row.1.drop (wordPrefix shortroomid word).length)

/-- the ids under all words, if there is a word -/
def searchTokens (tokenids : Tree Bytes Unit) (shortroomid : Nat) (words : List Bytes) : Option (List Bytes) :=
  commonElements backwards (words.map (wordIds tokenids shortroomid))

/-- `search_pdus`: the ids, and the words of the query -/
def searchPdus (db : Db) (r : RoomId) (searchString : String) :
    Except Error (Option (List Bytes × List Bytes)) :=
  match db.roomidShortroomid r with
  | none => .error (.panic "room exists")
  | some s => .ok ((searchTokens db.tokenids s (tokenize env searchString)).map
      (fun ids => (ids, tokenize env searchString)))

/-! ## the rows of a word -/

theorem tokenKey_eq (s : Nat) (id word : Bytes) : tokenKey s id word = wordPrefix s word ++ id := by
  unfold tokenKey wordPrefix
  simp

theorem tokenKey_inj {s' : Nat} (hs : s < 2^64) (hs' : s' < 2^64) {word word' : Bytes} (hw : sep ∉ word)
    (hw' : sep ∉ word') {id id' : Bytes} (h : tokenKey s id word = tokenKey s' id' word') :
    s = s' ∧ word = word' ∧ id = id' := by
  obtain ⟨h1, h2⟩ := be_append_inj (two64 ▸ hs) (two64 ▸ hs') h
  obtain ⟨h3, h4⟩ := sep_append_inj hw hw' h2
  exact ⟨h1, h3, h4⟩

/-- a scan finds the ids up to the greatest eight bytes -/
theorem mem_wordIds {t : Tree Bytes Unit} {word id : Bytes} :
    id ∈ wordIds t s word ↔ t.get (tokenKey s id word) = some () ∧ id ≤ be64 u64Max := by
  unfold wordIds
  rw [t.takeWhile_iterFrom_back (List.prefix_append _ _), tokenKey_eq]
  constructor
  · intro h
    obtain ⟨⟨key, u⟩, hrow, rfl⟩ := List.mem_map.mp h
    obtain ⟨hmem, hkey⟩ := List.mem_filter.mp (List.mem_reverse.mp hrow)
    obtain ⟨hle, id, rfl⟩ : key ≤ _ ∧ _ <+: key := by simpa using hkey
    rw [List.drop_left]
    exact ⟨(t.get_eq_some_iff _ _).mpr hmem, (append_le_append_iff _ _ _).mp hle⟩
  · rintro ⟨hget, hle⟩
    refine List.mem_map.mpr ⟨(wordPrefix s word ++ id, ()), List.mem_reverse.mpr (List.mem_filter.mpr
      ⟨(t.get_eq_some_iff _ _).mp hget, ?_⟩), List.drop_left⟩
    have hle' := (append_le_append_iff (wordPrefix s word) id (be64 u64Max)).mpr hle
    simpa using hle'

theorem wordIds_descend (t : Tree Bytes Unit) (s : Nat) (word : Bytes) :
    (wordIds t s word).Pairwise (· > ·) := by
  unfold wordIds
  rw [t.takeWhile_iterFrom_back (List.prefix_append _ _), List.pairwise_map, List.pairwise_reverse]
  refine List.Pairwise.imp_of_mem ?_ (t.sorted.filter _)
  intro a b ha hb hab
  have hpre : ∀ c ∈ t.rows.filter (fun r => r.1 ≤ wordPrefix s word ++ be64 u64Max ∧ wordPrefix s word <+: r.1),
      wordPrefix s word ++ c.1.drop (wordPrefix s word).length = c.1 := by
    intro c hc
    have hkey := of_decide_eq_true (List.mem_filter.mp hc).2
    exact (List.prefix_append_drop hkey.2).symm
  rw [← hpre a ha, ← hpre b hb, append_lt_append_iff] at hab
  exact hab

/-- the ids under all words -/
theorem searchTokens_spec {t : Tree Bytes Unit} {s : Nat} {words : List Bytes} (hne : words ≠ []) :
    ∃ ids, searchTokens t s words = some ids ∧ ids.Pairwise (· > ·) ∧
      ∀ id, id ∈ ids ↔ ∀ word ∈ words, t.get (tokenKey s id word) = some () ∧ id ≤ be64 u64Max := by
  cases words with
  | nil => exact absurd rfl hne
  | cons word words =>
    have hdescend : ∀ it ∈ (word :: words).map (wordIds t s), it.Pairwise (· > ·) := by
      intro it hit
      obtain ⟨w, -, rfl⟩ := List.mem_map.mp hit
      exact wordIds_descend t s w
    obtain ⟨ids, hids, hsorted, hmem⟩ := commonElements_spec hdescend
    refine ⟨ids, hids, hsorted, fun id => ?_⟩
    have hall : id ∈ ids ↔ ∀ it ∈ (word :: words).map (wordIds t s), id ∈ it := hmem id
    rw [hall, List.forall_mem_map]
    exact forall₂_congr fun w _ => mem_wordIds

/-! ## runs -/

inductive IndexCall where
  | index (shortroomid : Nat) (id : Bytes) (body : String)
  | deindex (shortroomid : Nat) (id : Bytes) (body : String)

def IndexCall.comp : IndexCall → RoomComp Unit
  | .index s id body => indexPdu env s id body
  | .deindex s id body => deindexPdu env s id body

def runIndex (calls : List IndexCall) (db : Db) : Db := calls.foldl (fun db c => (c.comp env db).2) db

/-- an id of the room: it was counted after the room -/
def IdOf (s : Nat) (id : Bytes) : Prop := ∃ c : PduCount, id = pduId s c ∧ c.Valid ∧ s < Building.raw c

/-- how a call may follow the calls before it -/
def IndexCall.Follows (before : List IndexCall) : IndexCall → Prop
  | .index s id _ => IdOf s id ∧ ∀ s' body', .index s' id body' ∉ before
  | .deindex s id body => .index s id body ∈ before

inductive IndexRun : List IndexCall → Prop where
  | nil : IndexRun []
  | step {before : List IndexCall} {c : IndexCall} : IndexRun before → c.Follows before →
      IndexRun (before ++ [c])

/-- the id is indexed with the body, and not de-indexed -/
def Listed (calls : List IndexCall) (s : Nat) (id : Bytes) (body : String) : Prop :=
  .index s id body ∈ calls ∧ .deindex s id body ∉ calls

/-- the row is there for a word of a listed body -/
def ListedKey (calls : List IndexCall) (key : Bytes) : Prop :=
  ∃ s id body, Listed calls s id body ∧ ∃ word ∈ tokenize env body, key = tokenKey s id word

theorem IdOf.room_lt {id : Bytes} (h : IdOf s id) : s < u64Max := by
  obtain ⟨c, -, hc, hlt⟩ := h
  rw [u64Max_eq]
  cases c with
  | normal x =>
    have hx : 1 ≤ x ∧ x < 2^64 := hc
    have hs : s < x := hlt
    omega
  | backfilled x =>
    have hx : x < 2^64 := hc
    have hs : s < x := hlt
    omega

theorem IdOf.le {id : Bytes} (h : IdOf s id) : id ≤ be64 u64Max := by
  have hlt := h.room_lt
  obtain ⟨c, rfl, -⟩ := h
  have hbelow := be_append_lt (w := 8) (show u64Max < 256^8 by rw [two64, u64Max_eq]; omega) hlt (countBytes c) []
  rw [List.append_nil] at hbelow
  exact hbelow.le

theorem IndexRun.idOf {calls : List IndexCall} (h : IndexRun calls) {id : Bytes}
    (hmem : .index s id body ∈ calls) : IdOf s id := by
  induction h with
  | nil => exact absurd hmem List.not_mem_nil
  | step _ hc ih =>
    rcases List.mem_append.mp hmem with hmem | hmem
    · exact ih hmem
    · rw [← List.mem_singleton.mp hmem] at hc
      exact hc.1

theorem IndexRun.indexed {calls : List IndexCall} (h : IndexRun calls) {id : Bytes}
    (hmem : .deindex s id body ∈ calls) : .index s id body ∈ calls := by
  induction h with
  | nil => exact absurd hmem List.not_mem_nil
  | step _ hc ih =>
    rcases List.mem_append.mp hmem with hmem | hmem
    · exact List.mem_append_left _ (ih hmem)
    · rw [← List.mem_singleton.mp hmem] at hc
      exact List.mem_append_left _ hc

theorem IndexRun.once {calls : List IndexCall} (h : IndexRun calls) {s' : Nat} {id : Bytes} {body' : String}
    (hmem : .index s id body ∈ calls) (hmem' : .index s' id body' ∈ calls) :
    s = s' ∧ body = body' := by
  induction h with
  | nil => exact absurd hmem List.not_mem_nil
  | step _ hc ih =>
    rcases List.mem_append.mp hmem with hmem | hmem
    · rcases List.mem_append.mp hmem' with hmem' | hmem'
      · exact ih hmem hmem'
      · rw [← List.mem_singleton.mp hmem'] at hc
        exact absurd hmem (hc.2 s body)
    · rcases List.mem_append.mp hmem' with hmem' | hmem'
      · rw [← List.mem_singleton.mp hmem] at hc
        exact absurd hmem' (hc.2 s' body')
      · rw [← List.mem_singleton.mp hmem] at hmem'
        cases List.mem_singleton.mp hmem'
        exact ⟨rfl, rfl⟩

/-! ## the rows of a run -/

theorem runIndex_snoc (calls : List IndexCall) (c : IndexCall) (db : Db) :
    runIndex env (calls ++ [c]) db = (c.comp env (runIndex env calls db)).2 := by
  unfold runIndex
  rw [List.foldl_append]
  rfl

theorem runIndex_rooms (calls : List IndexCall) (db : Db) :
    (runIndex env calls db).roomidShortroomid = db.roomidShortroomid := by
  induction calls generalizing db with
  | nil => rfl
  | cons c calls ih =>
    show (runIndex env calls (c.comp env db).2).roomidShortroomid = _
    rw [ih]
    cases c with
    | index s id body => rfl
    | deindex s id body => rfl

section
variable {env}

theorem IdOf.lt {id : Bytes} (h : IdOf s id) : s < 2^64 := by
  have hlt := h.room_lt
  rw [u64Max_eq] at hlt
  omega

/-- what was listed before the next call is still listed, unless it is de-indexed -/
theorem listed_snoc {calls : List IndexCall} {c : IndexCall} {id : Bytes} :
    Listed (calls ++ [c]) s id body ↔
      (.index s id body ∈ calls ∨ .index s id body = c) ∧ .deindex s id body ∉ calls ∧ .deindex s id body ≠ c := by
  unfold Listed
  rw [List.mem_append, List.mem_append, List.mem_singleton, List.mem_singleton, not_or]

theorem ListedKey.index_iff {calls : List IndexCall} (h : IndexRun calls) {id : Bytes}
    (hnew : ∀ s' body', .index s' id body' ∉ calls) (key : Bytes) :
    ListedKey env (calls ++ [.index s id body]) key ↔
      key ∈ (tokenize env body).map (tokenKey s id) ∨ ListedKey env calls key := by
  constructor
  · rintro ⟨s', id', body', hlisted, word, hword, rfl⟩
    obtain ⟨hold | heq, hnot, -⟩ := listed_snoc.mp hlisted
    · exact Or.inr ⟨s', id', body', ⟨hold, hnot⟩, word, hword, rfl⟩
    · cases heq
      exact Or.inl (List.mem_map.mpr ⟨word, hword, rfl⟩)
  · rintro (hkey | ⟨s', id', body', ⟨hold, hnot⟩, word, hword, rfl⟩)
    · obtain ⟨word, hword, rfl⟩ := List.mem_map.mp hkey
      refine ⟨s, id, body, listed_snoc.mpr ⟨Or.inr rfl, fun hmem => ?_, nofun⟩, word, hword, rfl⟩
      exact hnew s body (h.indexed hmem)
    · exact ⟨s', id', body', listed_snoc.mpr ⟨Or.inl hold, hnot, nofun⟩, word, hword, rfl⟩

/-- a body of another id has no row in common with the one that is de-indexed -/
theorem ListedKey.deindex_iff (hlower : ∀ w, sep ∉ env.toLowercase w) {calls : List IndexCall}
    (h : IndexRun calls) {id : Bytes} (hold : .index s id body ∈ calls) (key : Bytes) :
    ListedKey env (calls ++ [.deindex s id body]) key ↔
      key ∉ (tokenize env body).map (tokenKey s id) ∧ ListedKey env calls key := by
  have hwords : ∀ b, ∀ word ∈ tokenize env b, sep ∉ word := by
    intro b word hword
    obtain ⟨w, -, rfl⟩ := List.mem_map.mp hword
    exact hlower w
  constructor
  · rintro ⟨s', id', body', hlisted, word, hword, rfl⟩
    obtain ⟨hold' | heq, hnot, hother⟩ := listed_snoc.mp hlisted
    · refine ⟨fun hkey => ?_, s', id', body', ⟨hold', hnot⟩, word, hword, rfl⟩
      obtain ⟨word', hword', hkeys⟩ := List.mem_map.mp hkey
      obtain ⟨rfl, -, rfl⟩ := tokenKey_inj (h.idOf hold).lt (h.idOf hold').lt (hwords _ _ hword')
        (hwords _ _ hword) hkeys
      obtain ⟨-, rfl⟩ := h.once hold hold'
      exact hother rfl
    · cases heq
  · rintro ⟨hkey, s', id', body', ⟨hold', hnot⟩, word, hword, rfl⟩
    refine ⟨s', id', body', listed_snoc.mpr ⟨Or.inl hold', hnot, fun heq => ?_⟩, word, hword, rfl⟩
    cases heq
    exact hkey (List.mem_map.mpr ⟨word, hword, rfl⟩)

/-- the index has exactly the rows of what is listed -/
theorem runIndex_rows (hlower : ∀ w, sep ∉ env.toLowercase w) {calls : List IndexCall} (h : IndexRun calls)
    {db : Db} (hempty : db.tokenids = .empty) (key : Bytes) :
    (runIndex env calls db).tokenids.get key = some () ↔ ListedKey env calls key := by
  induction h with
  | nil =>
    show db.tokenids.get key = _ ↔ _
    rw [hempty]
    refine iff_of_false nofun ?_
    rintro ⟨s, id, body, hlisted, -⟩
    exact absurd hlisted.1 List.not_mem_nil
  | @step before c hrun hc ih =>
    rw [runIndex_snoc]
    cases c with
    | index s id body =>
      rw [ListedKey.index_iff hrun hc.2]
      show ((tokenize env body).foldl (fun t word => t.insert (tokenKey s id word) ())
        (runIndex env before db).tokenids).get key = _ ↔ _
      rw [Tree.get_insert_all]
      by_cases hkey : key ∈ (tokenize env body).map (tokenKey s id)
      · rw [if_pos hkey]
        exact iff_of_true rfl (Or.inl hkey)
      · rw [if_neg hkey, ih]
        exact (or_iff_right hkey).symm
    | deindex s id body =>
      rw [ListedKey.deindex_iff hlower hrun hc]
      show ((tokenize env body).foldl (fun t word => t.remove (tokenKey s id word))
        (runIndex env before db).tokenids).get key = _ ↔ _
      rw [Tree.get_remove_all]
      by_cases hkey : key ∈ (tokenize env body).map (tokenKey s id)
      · rw [if_pos hkey]
        exact iff_of_false nofun fun hlisted => hlisted.1 hkey
      · rw [if_neg hkey, ih]
        exact (and_iff_right hkey).symm

end

namespace Indexed

def room : RoomId := ⟨.ascii "!r:x"⟩

def store : Db := { Db.empty with roomidShortroomid := Function.update Db.empty.roomidShortroomid room (some 1) }

def morning : IndexCall := .index 1 (pduId 1 (.normal 2)) "Good morning"
def day : IndexCall := .index 1 (pduId 1 (.normal 3)) "a good day"

/-- one is indexed, the other one was de-indexed -/
def calls : List IndexCall := [morning, day, .deindex 1 (pduId 1 (.normal 2)) "Good morning"]

theorem run_calls : IndexRun calls := by
  have hid : ∀ n, 1 < n → n < 2^64 → IdOf 1 (pduId 1 (.normal n)) := fun n h1 h2 =>
    ⟨.normal n, rfl, ⟨by omega, h2⟩, h1⟩
  have hne : pduId 1 (.normal 3) ≠ pduId 1 (.normal 2) := by decide
  have hmorning : IndexRun ([] ++ [morning]) :=
    .step .nil ⟨hid 2 (by omega) (by omega), fun _ _ => List.not_mem_nil⟩
  have hday : IndexRun ([morning] ++ [day]) := by
    refine .step hmorning ⟨hid 3 (by omega) (by omega), fun s body hmem => ?_⟩
    injection List.mem_singleton.mp hmem with _ hids
    exact hne hids
  show IndexRun ([morning, day] ++ [_])
  exact .step hday List.mem_cons_self

end Indexed

end Db
end Grapevine
