import Grapevine.Users.Removal
import Mathlib.Algebra.Order.BigOperators.Group.List

/-!
# Counts of one-time keys

`count_one_time_keys` counts the rows that start with the device, without a separator behind it.
`take_one_time_key` looks for a quotation mark, the algorithm as it is and a colon.

* `Drains`      how many keys the claims of an algorithm return, one after the other, until there is
                none (`drains_scan`);
* `Stored`      the rows are those of uploads, as after any operations (`runOps_stored`);
* `Countable`   the condition: the rows that are counted are of the device itself, their algorithms
                are ones that JSON does not escape, and their names have no colon.

Main result: `countOneTimeKeys_exact_iff`.
-/

namespace Grapevine
open Kv

namespace Devices
open Users Federation OneTimeKeys

variable (S : Server) (J : Serde) (K : KeyIds)

/-! ## claims until there is none -/

/-- the part of the store that claims read and write -/
def keyStore (st : Store) : OneTimeKeys.Store where
  db := st.db
  metadata u d := (st.userdeviceidMetadata.get (deviceRow u d)).isSome
  onetimekeyidOnetimekeys := st.onetimekeyidOnetimekeys
  useridLastonetimekeyupdate := st.useridLastonetimekeyupdate

/-- claims of the algorithm return this many keys, and then none -/
inductive Drains (u : UserId) (d : DeviceId) (algorithm : List Char) : OneTimeKeys.Store → Nat → Prop
  | stop {s s' : OneTimeKeys.Store} : takeOneTimeKey K u d algorithm s = (.ok none, s') → Drains u d algorithm s 0
  | key {s s' : OneTimeKeys.Store} {key : DeviceKeyId × Bytes} {n : Nat} :
      takeOneTimeKey K u d algorithm s = (.ok (some key), s') → Drains u d algorithm s' n →
      Drains u d algorithm s (n + 1)

/-- every row is that of an upload -/
def Stored (t : Tree Bytes Bytes) : Prop :=
  ∀ row ∈ t.rows, ∃ v e k value, K.raw value = true ∧ row = (oneTimeRow v e (keyIdText k), value)

/-- what is counted for the device are keys of its own, each of which a claim of its algorithm returns,
and no other claim -/
def Countable (st : Store) (u : UserId) (d : DeviceId) : Prop :=
  ∀ e k value, (oneTimeRow u e (keyIdText k), value) ∈ st.onetimekeyidOnetimekeys.rows → d.bytes <+: e.bytes →
    e = d ∧ Plain k.algorithm ∧ ':' ∉ k.name

section
variable {S J K} {u : UserId} {d : DeviceId} {algorithm : List Char} {s s' : OneTimeKeys.Store} {n m : Nat}
variable {row : Bytes × Bytes} {l : List Char}

theorem Drains.unique (h : Drains K u d algorithm s n) (h' : Drains K u d algorithm s m) : n = m := by
  induction h generalizing m with
  | stop hnone =>
    cases h' with
    | stop => rfl
    | key hsome _ =>
      rw [hnone] at hsome
      cases hsome
  | key hsome _ ih =>
    cases h' with
    | stop hnone =>
      rw [hsome] at hnone
      cases hnone
    | key hsome' hrest =>
      rw [hsome] at hsome'
      cases hsome'
      rw [ih hrest]

/-- a claim where the counter has room: the first row goes, if there is one -/
theorem scanOneTimeKey_ok (hroom : s.db.state.counter + 1 < 2^64) :
    ∃ s', scanOneTimeKey u d algorithm s = (.ok (firstRow s u d algorithm), s') ∧
      s'.onetimekeyidOnetimekeys = s.onetimekeyidOnetimekeys ∧ s'.db.state.counter = s.db.state.counter + 1 := by
  have hcount : OneTimeKeys.nextCount s = (.ok (s.db.state.counter + 1),
      { s with db := { s.db with state := { s.db.state with counter := s.db.state.counter + 1 } } }) := by
    unfold OneTimeKeys.nextCount Db.nextCount Db.onState
    rw [StateDb.nextCount_below hroom]
  have hmark : ∃ s', markUpdate u s = (.ok (), s') ∧
      s'.onetimekeyidOnetimekeys = s.onetimekeyidOnetimekeys ∧ s'.db.state.counter = s.db.state.counter + 1 := by
    unfold markUpdate
    rw [Comp.bind_ok hcount]
    exact ⟨_, rfl, rfl, rfl⟩
  obtain ⟨s', hrun, hkeys, hcounter⟩ := hmark
  refine ⟨s', ?_, hkeys, hcounter⟩
  unfold scanOneTimeKey
  rw [Comp.bind_ok hrun]
  show (Except.ok (firstRow s' u d algorithm), s') = _
  unfold firstRow
  rw [hkeys]

theorem scanPrefix_remove_head {t : Tree Bytes Bytes} {p : Bytes} {rest : List (Bytes × Bytes)}
    (h : t.scanPrefix p = row :: rest) :
    (t.remove row.1).scanPrefix p = rest := by
  have hsorted := t.scanPrefix_sorted p
  rw [h] at hsorted
  obtain ⟨hless, -⟩ := List.pairwise_cons.mp hsorted
  have hfilter : (t.remove row.1).scanPrefix p = (t.scanPrefix p).filter (fun r => decide (r.1 ≠ row.1)) := by
    rw [Tree.scanPrefix_eq, Tree.scanPrefix_eq, List.filter_filter]
    unfold Tree.remove
    rw [List.filter_filter]
    refine List.filter_congr fun r _ => ?_
    rw [Bool.and_comm]
    congr
  rw [hfilter, h, List.filter_cons_of_neg (by simp)]
  exact List.filter_eq_self.mpr fun r hr => decide_eq_true (ne_of_gt (hless r hr))

/-- the claims of an algorithm return the keys of the rows that they look for -/
theorem drains_scan (hstored : Stored K s.onetimekeyidOnetimekeys)
    (hroom : s.db.state.counter + (s.onetimekeyidOnetimekeys.scanPrefix (takePrefix u d algorithm)).length + 1
      < 2^64) :
    Drains K u d algorithm s (s.onetimekeyidOnetimekeys.scanPrefix (takePrefix u d algorithm)).length := by
  induction hrows : s.onetimekeyidOnetimekeys.scanPrefix (takePrefix u d algorithm) generalizing s with
  | nil =>
    rw [hrows] at hroom
    obtain ⟨s', hscan, -, -⟩ := @scanOneTimeKey_ok u d algorithm s hroom
    have hfirst : firstRow s u d algorithm = none := by
      unfold firstRow
      rw [hrows]
      rfl
    refine Drains.stop (?_ : takeOneTimeKey K u d algorithm s = (.ok none, s'))
    unfold takeOneTimeKey
    rw [Comp.bind_ok hscan, hfirst]
    rfl
  | cons row rest ih =>
    rw [hrows, List.length_cons] at hroom
    obtain ⟨s₁, hscan, hkeys, hcounter⟩ := @scanOneTimeKey_ok u d algorithm s (by omega)
    have hfirst : firstRow s u d algorithm = some row := by
      unfold firstRow
      rw [hrows]
      rfl
    have hmem : row ∈ s.onetimekeyidOnetimekeys.rows :=
      ((Tree.mem_scanPrefix _ _ _).mp (hrows ▸ List.mem_cons_self)).1
    obtain ⟨v, e, k, value, hraw, rfl⟩ := hstored row hmem
    have hkey : K.keyId (afterLast (oneTimeRow v e (keyIdText k))) = some k := by
      unfold oneTimeRow
      rw [afterLast_append _ (sep_not_mem_keyIdText k), K.keyId_text]
    have hremove : removeOneTimeKey K (oneTimeRow v e (keyIdText k), value) s₁ = (.ok (k, value),
        { s₁ with onetimekeyidOnetimekeys :=
          s₁.onetimekeyidOnetimekeys.remove (oneTimeRow v e (keyIdText k)) }) := by
      unfold removeOneTimeKey
      rw [hkey, hraw]
      rfl
    have hrest : (s₁.onetimekeyidOnetimekeys.remove (oneTimeRow v e (keyIdText k))).scanPrefix
        (takePrefix u d algorithm) = rest := by
      rw [hkeys]
      exact scanPrefix_remove_head hrows
    have htake : takeOneTimeKey K u d algorithm s = (.ok (some (k, value)),
        { s₁ with onetimekeyidOnetimekeys :=
          s₁.onetimekeyidOnetimekeys.remove (oneTimeRow v e (keyIdText k)) }) := by
      unfold takeOneTimeKey
      rw [Comp.bind_ok hscan, hfirst]
      show (removeOneTimeKey K _ >>= fun key => pure (some key)) s₁ = _
      rw [Comp.bind_ok hremove]
      rfl
    refine .key htake (ih ?_ ?_ ?_)
    · intro row hrow
      change row ∈ (s₁.onetimekeyidOnetimekeys.remove _).rows at hrow
      rw [hkeys] at hrow
      exact hstored row ((Tree.mem_remove _ _ _).mp hrow).1
    · show s₁.db.state.counter + ((s₁.onetimekeyidOnetimekeys.remove _).scanPrefix _).length + 1 < 2^64
      rw [hrest, hcounter]
      omega
    · exact hrest

/-! ## counts -/

/-- the algorithm of the key of a row -/
def algorithmOf (K : KeyIds) (row : Bytes × Bytes) : List Char :=
  ((K.keyId (afterLast row.1)).map DeviceKeyId.algorithm).getD []

theorem algorithmOf_row (v : UserId) (e : DeviceId) (k : DeviceKeyId) (value : Bytes) :
    algorithmOf K (oneTimeRow v e (keyIdText k), value) = k.algorithm := by
  unfold algorithmOf
  rw [keyId_row]
  rfl

theorem countKeys_ok {rows : List (Bytes × Bytes)} (hrows : ∀ row ∈ rows, K.keyId (afterLast row.1) ≠ none)
    (counts : List Char → Option Nat) : ∃ counts', rows.foldlM (countKey K) counts = .ok counts' ∧
      ∀ algorithm, (counts' algorithm).getD 0 =
        (counts algorithm).getD 0 + (rows.map (algorithmOf K)).count algorithm := by
  induction rows generalizing counts with
  | nil => exact ⟨counts, rfl, fun algorithm => rfl⟩
  | cons row rows ih =>
    obtain ⟨k, hk⟩ := Option.ne_none_iff_exists'.mp (hrows row List.mem_cons_self)
    have hrow : countKey K counts row
        = .ok (Function.update counts k.algorithm (some ((counts k.algorithm).getD 0 + 1))) := by
      unfold countKey
      rw [hk]
    have halgorithm : algorithmOf K row = k.algorithm := by
      unfold algorithmOf
      rw [hk]
      rfl
    obtain ⟨counts', hrun, hcounts⟩ := ih (fun r hr => hrows r (List.mem_cons_of_mem _ hr))
      (Function.update counts k.algorithm (some ((counts k.algorithm).getD 0 + 1)))
    refine ⟨counts', ?_, fun algorithm => ?_⟩
    · rw [List.foldlM_cons, hrow]
      exact hrun
    · rw [hcounts, List.map_cons, halgorithm, List.count_cons]
      by_cases ha : algorithm = k.algorithm
      · rw [ha, Function.update_self, beq_self_eq_true, if_pos rfl, Option.getD_some]
        omega
      · rw [Function.update_of_ne ha, if_neg fun he => ha (beq_iff_eq.mp he).symm, Nat.add_zero]

/-! ### what needs no escape -/

theorem escapeChar_length (c : Char) : escapeChar c = [c] ∨ 1 < (escapeChar c).length := by
  unfold escapeChar
  cases shortEscapes.lookup c.toNat with
  | some letter => exact Or.inr (Nat.one_lt_two)
  | none =>
    by_cases h : c.toNat < 32
    · simp only [if_pos h]
      exact Or.inr (by simp)
    · exact Or.inl (if_neg h)

theorem plain_of_length (h : (escape l).length = l.length) : ∀ c ∈ l, escapeChar c = [c] := by
  induction l with
  | nil => exact fun c hc => absurd hc List.not_mem_nil
  | cons c l ih =>
    have hcons : (escape (c :: l)).length = (escapeChar c).length + (escape l).length := List.length_append
    have hrest := length_le_escape l
    rw [hcons, List.length_cons] at h
    rcases escapeChar_length c with hc | hc
    · rw [hc, List.length_singleton] at h
      exact List.forall_mem_cons.mpr ⟨hc, ih (by omega)⟩
    · omega

theorem colon_of_escape (h : ':' ∈ escape l) : ':' ∈ l := by
  obtain ⟨c, hc, hcolon⟩ := List.mem_flatMap.mp h
  rw [← colon_of_escapeChar hcolon]
  exact hc

/-! ### which claims look for a key -/

/-- a claim of the algorithm looks for the key -/
def Reads (algorithm : List Char) (k : DeviceKeyId) : Prop :=
  quote :: (charBytes algorithm ++ [colon]) <+: keyIdText k

theorem keyIdText_eq (k : DeviceKeyId) : keyIdText k =
    quote :: (charBytes (escape k.algorithm) ++ colon :: (charBytes (escape k.name) ++ [quote])) := by
  unfold keyIdText DeviceKeyId.chars
  rw [escape_append, escape_colon, charBytes_append, charBytes_colon, List.append_assoc, List.cons_append]

theorem colon_not_mem_escape (k : DeviceKeyId) : ':' ∉ escape k.algorithm := fun h =>
  k.noColon (colon_of_escape h)

section
variable {k : DeviceKeyId} {a : List Char}
variable {e : DeviceId} {v : UserId}

theorem reads_cons_iff : Reads a k ↔ ∃ rest, charBytes a ++ colon :: rest =
    charBytes (escape k.algorithm) ++ colon :: (charBytes (escape k.name) ++ [quote]) := by
  unfold Reads
  rw [keyIdText_eq]
  refine ⟨fun h => ?_, fun h => ?_⟩
  · obtain ⟨rest, hrest⟩ := h
    refine ⟨rest, ?_⟩
    have htail := (List.cons.inj hrest).2
    rwa [List.append_eq, List.append_assoc] at htail
  · obtain ⟨rest, hrest⟩ := h
    refine ⟨rest, ?_⟩
    rw [List.cons_append, List.append_assoc, ← hrest]
    rfl

/-- an algorithm without a colon: the keys whose algorithm is written so -/
theorem reads_iff (ha : ':' ∉ a) : Reads a k ↔ escape k.algorithm = a := by
  rw [reads_cons_iff]
  refine ⟨fun h => ?_, fun h => ⟨charBytes (escape k.name) ++ [quote], by rw [h]⟩⟩
  obtain ⟨rest, hrest⟩ := h
  exact (charBytes_injective (append_cons_inj (colon_not_mem_charBytes ha)
    (colon_not_mem_charBytes (colon_not_mem_escape k)) hrest).1).symm

/-- an algorithm with a colon reaches into the name -/
theorem colon_of_reads (ha : ':' ∈ a) (h : Reads a k) : ':' ∈ k.name := by
  obtain ⟨a₁, a₂, rfl, hfirst⟩ := List.eq_append_cons_of_mem ha
  obtain ⟨rest, hrest⟩ := reads_cons_iff.mp h
  rw [charBytes_append, charBytes_colon, List.append_assoc, List.cons_append] at hrest
  have hname := (append_cons_inj (colon_not_mem_charBytes hfirst)
    (colon_not_mem_charBytes (colon_not_mem_escape k)) hrest).2
  by_contra hnot
  have hcolon : colon ∉ charBytes (escape k.name) ++ [quote] := by
    rw [List.mem_append, not_or]
    refine ⟨colon_not_mem_charBytes fun hm => hnot (colon_of_escape hm), ?_⟩
    rw [List.mem_singleton]
    decide
  rw [← hname] at hcolon
  exact hcolon (List.mem_append_right _ List.mem_cons_self)

theorem exists_reads (h : ':' ∈ k.name) : ∃ a, ':' ∈ a ∧ Reads a k := by
  obtain ⟨n₁, n₂, hname⟩ := List.append_of_mem h
  refine ⟨escape k.algorithm ++ ':' :: escape n₁, List.mem_append_right _ List.mem_cons_self, ?_⟩
  refine reads_cons_iff.mpr ⟨charBytes (escape n₂) ++ [quote], ?_⟩
  rw [hname, escape_append, escape_colon, charBytes_append, charBytes_append, charBytes_colon, charBytes_colon]
  simp

theorem takePrefix_row_iff :
    takePrefix u d a <+: oneTimeRow v e (keyIdText k) ↔ v = u ∧ e = d ∧ Reads a k := by
  refine ⟨fun h => ?_, fun h => ?_⟩
  · obtain ⟨rfl, rfl⟩ := takePrefix_device h
    refine ⟨rfl, rfl, ?_⟩
    unfold takePrefix oneTimeRow at h
    exact (List.cons_prefix_cons.mp ((List.prefix_append_right_inj _).mp h)).2
  · obtain ⟨rfl, rfl, hreads⟩ := h
    unfold takePrefix oneTimeRow
    exact (List.prefix_append_right_inj _).mpr (List.cons_prefix_cons.mpr ⟨rfl, hreads⟩)

theorem ownRow_iff {text : Bytes} :
    deviceRow u d ++ [sep] <+: oneTimeRow v e text ↔ v = u ∧ e = d := by
  refine ⟨fun h => ?_, fun h => ?_⟩
  · obtain ⟨rest, hrest⟩ := h
    have hsplit : u.bytes ++ sep :: (d.bytes ++ sep :: rest) = v.bytes ++ sep :: (e.bytes ++ sep :: text) := by
      simpa [oneTimeRow, deviceRow] using hrest
    obtain ⟨hu, hd⟩ := sep_append_inj u.noSep v.noSep hsplit
    exact ⟨(UserId.ext_bytes hu).symm, (DeviceId.ext_bytes (sep_append_inj d.noSep e.noSep hd).1).symm⟩
  · obtain ⟨rfl, rfl⟩ := h
    refine ⟨text, ?_⟩
    unfold oneTimeRow
    rw [List.append_assoc]
    rfl

end

/-! ## the counts are those of the claims -/

section
variable {t : Tree Bytes Bytes} {a : List Char}

/-- the rows of the device itself -/
def ownRows (t : Tree Bytes Bytes) (u : UserId) (d : DeviceId) : List (Bytes × Bytes) :=
  t.scanPrefix (deviceRow u d ++ [sep])

theorem ownRows_eq : ownRows t u d =
    (t.scanPrefix (deviceRow u d)).filter (fun row => deviceRow u d ++ [sep] <+: row.1) := by
  unfold ownRows
  rw [Tree.scanPrefix_eq, Tree.scanPrefix_eq, List.filter_filter]
  refine List.filter_congr fun row _ => ?_
  rw [← Bool.decide_and]
  exact decide_eq_decide.mpr ⟨fun h => ⟨h, (List.prefix_append _ _).trans h⟩, fun h => h.1⟩

/-- the rows that a claim of an algorithm without a colon looks for -/
theorem length_taken (hstored : Stored K t) (ha : ':' ∉ a) :
    (t.scanPrefix (takePrefix u d a)).length =
      ((ownRows t u d).map fun row => escape (algorithmOf K row)).count a := by
  unfold ownRows
  rw [Tree.scanPrefix_eq, Tree.scanPrefix_eq, ← List.countP_eq_length_filter, List.count, List.countP_map,
    List.countP_filter]
  refine List.countP_congr fun row hrow => ?_
  obtain ⟨v, e, k, value, -, rfl⟩ := hstored row hrow
  simp only [Function.comp_apply, decide_eq_true_eq, Bool.and_eq_true, beq_iff_eq]
  rw [takePrefix_row_iff, ownRow_iff, algorithmOf_row, reads_iff ha]
  tauto

/-- an algorithm with a colon: no key without a colon in its name is looked for -/
theorem taken_colon_iff (hstored : Stored K t) :
    (∀ a, ':' ∈ a → t.scanPrefix (takePrefix u d a) = []) ↔
      ∀ k value, (oneTimeRow u d (keyIdText k), value) ∈ t.rows → ':' ∉ k.name := by
  refine ⟨fun h k value hrow hcolon => ?_, fun h a ha => List.eq_nil_iff_forall_not_mem.mpr fun row hrow => ?_⟩
  · obtain ⟨a, ha, hreads⟩ := exists_reads hcolon
    have hmem : (oneTimeRow u d (keyIdText k), value) ∈ t.scanPrefix (takePrefix u d a) :=
      (Tree.mem_scanPrefix _ _ _).mpr ⟨hrow, takePrefix_row_iff.mpr ⟨rfl, rfl, hreads⟩⟩
    rw [h a ha] at hmem
    exact absurd hmem List.not_mem_nil
  · obtain ⟨hmem, hpre⟩ := (Tree.mem_scanPrefix _ _ _).mp hrow
    obtain ⟨v, e, k, value, -, rfl⟩ := hstored row hmem
    obtain ⟨rfl, rfl, hreads⟩ := takePrefix_row_iff.mp hpre
    exact h k value hmem (colon_of_reads ha hreads)

theorem noColon_algorithmOf (hstored : Stored K t) (hrow : row ∈ t.rows) :
    ':' ∉ algorithmOf K row ∧ ':' ∉ escape (algorithmOf K row) := by
  obtain ⟨v, e, k, value, -, rfl⟩ := hstored row hrow
  rw [algorithmOf_row]
  exact ⟨k.noColon, colon_not_mem_escape k⟩

/-- two lists of the same algorithms, one of them as JSON writes them -/
theorem plain_of_perm {l : List (Bytes × Bytes)}
    (h : (l.map (algorithmOf K)).Perm (l.map fun row => escape (algorithmOf K row))) :
    ∀ row ∈ l, ∀ c ∈ algorithmOf K row, escapeChar c = [c] := by
  have hsum : (l.map fun row => (algorithmOf K row).length).sum =
      (l.map fun row => (escape (algorithmOf K row)).length).sum := by
    have hlengths := (h.map List.length).sum_eq
    rwa [List.map_map, List.map_map] at hlengths
  intro row hrow
  refine plain_of_length (le_antisymm (not_lt.mp fun hlt => ?_) (length_le_escape _))
  have hless := List.sum_lt_sum (fun row => (algorithmOf K row).length)
    (fun row => (escape (algorithmOf K row)).length) (fun r _ => length_le_escape _) ⟨row, hrow, hlt⟩
  exact absurd hsum (ne_of_lt hless)

/-- **the algorithms that are counted are those that are looked for exactly where** all rows that are
counted are of the device and no algorithm is escaped -/
theorem counts_eq_iff (hstored : Stored K t) :
    (∀ a, ':' ∉ a → ((t.scanPrefix (deviceRow u d)).map (algorithmOf K)).count a =
        (t.scanPrefix (takePrefix u d a)).length) ↔
      ∀ e k value, (oneTimeRow u e (keyIdText k), value) ∈ t.rows → d.bytes <+: e.bytes →
        e = d ∧ Plain k.algorithm := by
  have hmem : ∀ row ∈ t.scanPrefix (deviceRow u d), row ∈ t.rows := fun row hrow =>
    ((Tree.mem_scanPrefix _ _ _).mp hrow).1
  have hown : ∀ row ∈ ownRows t u d, row ∈ t.rows := fun row hrow => ((Tree.mem_scanPrefix _ _ _).mp hrow).1
  refine ⟨fun h => ?_, fun h a ha => ?_⟩
  · have hperm : ((t.scanPrefix (deviceRow u d)).map (algorithmOf K)).Perm
        ((ownRows t u d).map fun row => escape (algorithmOf K row)) := by
      refine List.perm_iff_count.mpr fun a => ?_
      by_cases ha : ':' ∈ a
      · rw [List.count_eq_zero_of_not_mem, List.count_eq_zero_of_not_mem]
        · intro hm
          obtain ⟨row, hrow, he⟩ := List.mem_map.mp hm
          exact (noColon_algorithmOf hstored (hown row hrow)).2 (he ▸ ha)
        · intro hm
          obtain ⟨row, hrow, he⟩ := List.mem_map.mp hm
          exact (noColon_algorithmOf hstored (hmem row hrow)).1 (he ▸ ha)
      · rw [h a ha, length_taken hstored ha]
    -- as many rows of the device itself as are counted, so all are its own
    have hall : ownRows t u d = t.scanPrefix (deviceRow u d) := by
      have hlength := hperm.length_eq
      rw [List.length_map, List.length_map] at hlength
      rw [ownRows_eq] at hlength ⊢
      exact List.filter_sublist.eq_of_length hlength.symm
    rw [hall] at hperm
    intro e k value hrow hprefix
    have hin : (oneTimeRow u e (keyIdText k), value) ∈ t.scanPrefix (deviceRow u d) :=
      (Tree.mem_scanPrefix _ _ _).mpr ⟨hrow, deviceRow_row_iff.mpr ⟨rfl, hprefix⟩⟩
    have hplain := plain_of_perm hperm _ hin
    rw [algorithmOf_row] at hplain
    rw [← hall] at hin
    refine ⟨(ownRow_iff.mp ((Tree.mem_scanPrefix _ _ _).mp hin).2).2, fun c hc => ⟨hplain c hc, ?_⟩⟩
    intro he
    exact k.noColon (he ▸ hc)
  · have hrows : ∀ row ∈ t.scanPrefix (deviceRow u d), deviceRow u d ++ [sep] <+: row.1 ∧
        escape (algorithmOf K row) = algorithmOf K row := by
      intro row hrow
      obtain ⟨hin, hpre⟩ := (Tree.mem_scanPrefix _ _ _).mp hrow
      obtain ⟨v, e, k, value, -, rfl⟩ := hstored row hin
      obtain ⟨rfl, hprefix⟩ := deviceRow_row_iff.mp hpre
      obtain ⟨rfl, hplain⟩ := h e k value hin hprefix
      rw [algorithmOf_row]
      exact ⟨ownRow_iff.mpr ⟨rfl, rfl⟩, escape_plain hplain⟩
    rw [length_taken hstored ha, ownRows_eq,
      List.filter_eq_self.mpr fun row hrow => decide_eq_true (hrows row hrow).1]
    exact congrArg (List.count a) (List.map_congr_left fun row hrow => (hrows row hrow).2.symm)

end

/-! ## any operations -/

section
variable {st : Store}

/-- the values are JSON texts, as those of a `Raw` are -/
def RawValues (K : KeyIds) (ops : List Op) : Prop :=
  ∀ v e k value, .addOneTimeKey v e k value ∈ ops → K.raw value = true

theorem runOps_stored {ops : List Op} (hempty : st.onetimekeyidOnetimekeys = .empty) (hraw : RawValues K ops) :
    Stored K (runOps S J K ops st).onetimekeyidOnetimekeys := by
  induction ops using List.reverseRecOn with
  | nil =>
    intro row hrow
    change row ∈ st.onetimekeyidOnetimekeys.rows at hrow
    rw [hempty] at hrow
    exact absurd hrow List.not_mem_nil
  | append_singleton ops op ih =>
    rw [runOps_snoc]
    intro row hrow
    rcases (op.effects (S := S) (J := J) (K := K) (runOps S J K ops st)).oneTimeKeys row hrow with
      hold | ⟨v, e, k, value, hop, hrow', -⟩
    · exact ih (fun v e k value hmem => hraw v e k value (List.mem_append_left _ hmem)) row hold
    · exact ⟨v, e, k, value, hraw v e k value (List.mem_append_right _ (hop ▸ List.mem_singleton_self _)), hrow'⟩

end

end

/-- the counts of a device are the numbers of keys that claims of the algorithms return -/
def CountsExact (st : Store) (u : UserId) (d : DeviceId) : Prop :=
  ∃ counts, countOneTimeKeys K st u d = .ok counts ∧
    ∀ algorithm, Drains K u d algorithm (keyStore st) ((counts algorithm).getD 0)

/-- **the counts are exact exactly where** the rows that are counted are keys of the device itself,
whose algorithms JSON writes as they are and whose names have no colon -/
theorem countOneTimeKeys_exact_iff {ops : List Op} {st : Store}
    (hempty : st.onetimekeyidOnetimekeys = .empty) (hraw : RawValues K ops)
    (hroom : (runOps S J K ops st).db.state.counter +
      (runOps S J K ops st).onetimekeyidOnetimekeys.rows.length + 1 < 2^64) (u : UserId) (d : DeviceId) :
    CountsExact K (runOps S J K ops st) u d ↔ Countable (runOps S J K ops st) u d := by
  have hstored : Stored K (runOps S J K ops st).onetimekeyidOnetimekeys := runOps_stored hempty hraw
  obtain ⟨st', hst'⟩ : ∃ st', runOps S J K ops st = st' := ⟨_, rfl⟩
  rw [hst'] at hstored hroom ⊢
  have hread : ∀ row ∈ st'.onetimekeyidOnetimekeys.scanPrefix (deviceRow u d),
      K.keyId (afterLast row.1) ≠ none := by
    intro row hrow
    obtain ⟨v, e, k, value, -, rfl⟩ := hstored row ((Tree.mem_scanPrefix _ _ _).mp hrow).1
    rw [keyId_row]
    exact Option.some_ne_none k
  obtain ⟨counts, hcounts, hcount⟩ := countKeys_ok hread fun _ => none
  have hdrains : ∀ a, Drains K u d a (keyStore st')
      (st'.onetimekeyidOnetimekeys.scanPrefix (takePrefix u d a)).length := by
    intro a
    refine drains_scan hstored ?_
    have hle : (st'.onetimekeyidOnetimekeys.scanPrefix (takePrefix u d a)).length
        ≤ st'.onetimekeyidOnetimekeys.rows.length := by
      rw [Tree.scanPrefix_eq]
      exact List.length_filter_le _ _
    show st'.db.state.counter + (st'.onetimekeyidOnetimekeys.scanPrefix _).length + 1 < 2^64
    omega
  have hexact : CountsExact K st' u d ↔ ∀ a,
      ((st'.onetimekeyidOnetimekeys.scanPrefix (deviceRow u d)).map (algorithmOf K)).count a =
        (st'.onetimekeyidOnetimekeys.scanPrefix (takePrefix u d a)).length := by
    have hvalue : ∀ a, (counts a).getD 0 =
        ((st'.onetimekeyidOnetimekeys.scanPrefix (deviceRow u d)).map (algorithmOf K)).count a := fun a => by
      rw [hcount a]
      exact Nat.zero_add _
    refine ⟨fun h a => ?_, fun h => ⟨counts, hcounts, fun a => ?_⟩⟩
    · obtain ⟨counts', hrun, hdrain⟩ := h
      obtain rfl := Except.ok.inj (hcounts.symm.trans hrun)
      rw [← hvalue a]
      exact (hdrain a).unique (hdrains a)
    · rw [hvalue a, h a]
      exact hdrains a
  have hcolon : ∀ a, ':' ∈ a →
      ((st'.onetimekeyidOnetimekeys.scanPrefix (deviceRow u d)).map (algorithmOf K)).count a = 0 := by
    intro a ha
    refine List.count_eq_zero_of_not_mem fun hm => ?_
    obtain ⟨row, hrow, he⟩ := List.mem_map.mp hm
    exact (noColon_algorithmOf hstored ((Tree.mem_scanPrefix _ _ _).mp hrow).1).1 (he ▸ ha)
  have hplain := counts_eq_iff (u := u) (d := d) hstored
  have hnames := taken_colon_iff (u := u) (d := d) hstored
  rw [hexact]
  refine ⟨fun h e k value hrow hprefix => ?_, fun h a => ?_⟩
  · obtain ⟨rfl, halgorithm⟩ := hplain.mp (fun a _ => h a) e k value hrow hprefix
    refine ⟨rfl, halgorithm, hnames.mp (fun a ha => ?_) k value hrow⟩
    rw [← List.length_eq_zero_iff, ← h a, hcolon a ha]
  · by_cases ha : ':' ∈ a
    · rw [hcolon a ha, hnames.mpr (fun k value hrow => (h d k value hrow (List.prefix_refl _)).2.2) a ha]
      rfl
    · refine hplain.mpr (fun e k value hrow hprefix => ?_) a ha
      obtain ⟨he, halgorithm, -⟩ := h e k value hrow hprefix
      exact ⟨he, halgorithm⟩

/-! ### a device whose id extends another one -/

def tablet : DeviceId := ⟨.ascii "phone2"⟩

/-- a key of the second device -/
def extended : List Op :=
  [.device (.create alice tablet "second" none 0), .addOneTimeKey alice tablet exampleKey (strBytes "1")]

/-- the key is the second device's -/
theorem countOneTimeKeys_exact_iff_one :
    CountsExact .plain (runOps plainServer .plain .plain extended noDevices) alice tablet := by
  refine (countOneTimeKeys_exact_iff plainServer .plain .plain rfl (fun _ _ _ _ _ => rfl) (by decide +kernel)
    alice tablet).mpr ?_
  have hrows : (runOps plainServer .plain .plain extended noDevices).onetimekeyidOnetimekeys.rows =
      [(oneTimeRow alice tablet (keyIdText exampleKey), strBytes "1")] := by decide +kernel
  intro e k value hrow _
  rw [hrows, List.mem_singleton] at hrow
  have hkey : oneTimeRow alice e (keyIdText k) = oneTimeRow alice tablet (keyIdText exampleKey) :=
    (Prod.mk.inj hrow).1
  have hdevice : deviceRow alice e ++ [sep] <+: oneTimeRow alice e (keyIdText k) := ownRow_iff.mpr ⟨rfl, rfl⟩
  have hk : k = exampleKey := by
    refine keyId_oneTimeRow (K := .plain) (v := alice) (e := e) ?_
    rw [hkey, keyId_row]
  rw [hkey] at hdevice
  rw [hk]
  exact ⟨(ownRow_iff.mp hdevice).2.symm, by decide, by decide⟩

/-- the first device has none, and one is counted -/
theorem countOneTimeKeys_not_exact : ¬ ∀ (K : KeyIds) (ops : List Op) (st : Store),
    st.onetimekeyidOnetimekeys = .empty → RawValues K ops →
      ∀ u d, CountsExact K (runOps plainServer .plain K ops st) u d := by
  intro h
  obtain ⟨counts, hcounts, hdrains⟩ := h .plain extended noDevices rfl (fun _ _ _ _ _ => rfl) alice phone
  have hone : (countOneTimeKeys .plain (runOps plainServer .plain .plain extended noDevices) alice phone).toOption.map
      (fun counts => counts ['c']) = some (some 1) := by decide +kernel
  rw [hcounts] at hone
  have hcount : counts ['c'] = some 1 := Option.some.inj hone
  have hnone : (takeOneTimeKey .plain alice phone ['c']
      (keyStore (runOps plainServer .plain .plain extended noDevices))).1 = .ok none := by decide +kernel
  have hdrain := hdrains ['c']
  rw [hcount] at hdrain
  exact absurd (hdrain.unique (.stop (Prod.ext hnone rfl))) Nat.one_ne_zero

end Devices
end Grapevine
