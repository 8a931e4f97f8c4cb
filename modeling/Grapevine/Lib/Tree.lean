import Grapevine.Lib.Bytes

/-!
# Ordered key-value trees

A `Tree κ ν` is what an ordered key-value store keeps in one of its trees: rows in strictly
ascending key order.  The structure carries the order, so there is one row per key and the
rows determine the tree (`Tree.ext_get`).

* `get`, `insert`, `remove`   point operations;
* `iterFrom k back`           all rows from the key `k` (inclusive) upwards, or downwards;
* `scanPrefix p`              the rows of byte keys from `p` upwards as long as `p` is a prefix.

`scanPrefix_eq` and `takeWhile_iterFrom_back` say that a scan that stops at the first key
without the prefix misses no key with it: the keys with one prefix are an interval.
-/

namespace Kv

structure Tree (κ ν : Type) [LinearOrder κ] where
  rows : List (κ × ν)
  sorted : rows.Pairwise (fun a b => a.1 < b.1)

namespace Tree

section
variable {κ ν : Type} [LinearOrder κ]
variable {k : κ}

def empty : Tree κ ν := ⟨[], List.Pairwise.nil⟩

def get (t : Tree κ ν) (k : κ) : Option ν := (t.rows.find? (fun r => r.1 = k)).map Prod.snd

theorem sorted_insert (t : Tree κ ν) (k : κ) (v : ν) :
    (t.rows.filter (fun r => r.1 < k) ++ (k, v) :: t.rows.filter (fun r => k < r.1)).Pairwise
      (fun a b => a.1 < b.1) := by
  rw [List.pairwise_append, List.pairwise_cons]
  refine ⟨t.sorted.filter _, ⟨?_, t.sorted.filter _⟩, ?_⟩
  · intro b hb
    simpa using (List.mem_filter.mp hb).2
  · intro a ha b hb
    have h1 : a.1 < k := by simpa using (List.mem_filter.mp ha).2
    rcases List.mem_cons.mp hb with rfl | hb
    · exact h1
    · exact h1.trans (by simpa using (List.mem_filter.mp hb).2)

def insert (t : Tree κ ν) (k : κ) (v : ν) : Tree κ ν :=
  ⟨t.rows.filter (fun r => r.1 < k) ++ (k, v) :: t.rows.filter (fun r => k < r.1),
    t.sorted_insert k v⟩

def remove (t : Tree κ ν) (k : κ) : Tree κ ν :=
  ⟨t.rows.filter (fun r => r.1 ≠ k), t.sorted.filter _⟩

/-- the rows from the key `k` on, in key order or (`back`) in reverse key order -/
def iterFrom (t : Tree κ ν) (k : κ) (back : Bool) : List (κ × ν) :=
  if back then (t.rows.filter (fun r => r.1 ≤ k)).reverse else t.rows.filter (fun r => k ≤ r.1)

/-! ### rows and lookups -/

theorem eq_of_mem (t : Tree κ ν) {v w : ν} (h1 : (k, v) ∈ t.rows) (h2 : (k, w) ∈ t.rows) :
    v = w := by
  have hpw : t.rows.Pairwise (fun a b => a.1 = b.1 → a.2 = b.2) :=
    t.sorted.imp (fun {a b} hab e => absurd e (ne_of_lt hab))
  have hflip : t.rows.Pairwise (fun a b => b.1 = a.1 → b.2 = a.2) :=
    hpw.imp (fun {a b} hab e => (hab e.symm).symm)
  exact hpw.forall_of_forall_of_flip (fun _ _ _ => rfl) hflip h1 h2 rfl

theorem get_eq_some_iff (t : Tree κ ν) (k : κ) (v : ν) : t.get k = some v ↔ (k, v) ∈ t.rows := by
  unfold get
  constructor
  · intro h
    obtain ⟨⟨k', v'⟩, hf, rfl⟩ := Option.map_eq_some_iff.mp h
    have hk : k' = k := by simpa using List.find?_some hf
    exact hk ▸ List.mem_of_find?_eq_some hf
  · intro h
    cases hf : t.rows.find? (fun r => decide (r.1 = k)) with
    | none =>
      have := List.find?_eq_none.mp hf _ h
      simp at this
    | some r =>
      obtain ⟨k', v'⟩ := r
      have hk : k' = k := by simpa using List.find?_some hf
      subst hk
      rw [Option.map_some, t.eq_of_mem h (List.mem_of_find?_eq_some hf)]

theorem get_eq_none_iff (t : Tree κ ν) (k : κ) : t.get k = none ↔ ∀ v, (k, v) ∉ t.rows := by
  constructor
  · intro h v hv
    rw [(t.get_eq_some_iff k v).mpr hv] at h
    cases h
  · intro h
    cases hg : t.get k with
    | none => rfl
    | some v => exact absurd ((t.get_eq_some_iff k v).mp hg) (h v)

@[simp] theorem get_empty (k : κ) : (empty : Tree κ ν).get k = none := rfl

theorem mem_insert (t : Tree κ ν) (k : κ) (v : ν) (r : κ × ν) :
    r ∈ (t.insert k v).rows ↔ r = (k, v) ∨ r ∈ t.rows ∧ r.1 ≠ k := by
  simp only [insert, List.mem_append, List.mem_cons, List.mem_filter, decide_eq_true_eq]
  constructor
  · rintro (⟨h1, h2⟩ | h | ⟨h1, h2⟩)
    · exact Or.inr ⟨h1, ne_of_lt h2⟩
    · exact Or.inl h
    · exact Or.inr ⟨h1, (ne_of_lt h2).symm⟩
  · rintro (h | ⟨h1, h2⟩)
    · exact Or.inr (Or.inl h)
    · rcases lt_or_gt_of_ne h2 with h3 | h3
      · exact Or.inl ⟨h1, h3⟩
      · exact Or.inr (Or.inr ⟨h1, h3⟩)

theorem mem_remove (t : Tree κ ν) (k : κ) (r : κ × ν) :
    r ∈ (t.remove k).rows ↔ r ∈ t.rows ∧ r.1 ≠ k := by
  simp [remove]

@[simp] theorem get_insert_self (t : Tree κ ν) (k : κ) (v : ν) : (t.insert k v).get k = some v := by
  rw [get_eq_some_iff, mem_insert]
  exact Or.inl rfl

@[simp] theorem get_insert_of_ne (t : Tree κ ν) {k' : κ} (v : ν) (h : k' ≠ k) :
    (t.insert k v).get k' = t.get k' := by
  ext w
  rw [get_eq_some_iff, get_eq_some_iff, mem_insert]
  simp [h]

@[simp] theorem get_remove_self (t : Tree κ ν) (k : κ) : (t.remove k).get k = none := by
  rw [get_eq_none_iff]
  intro v hv
  exact ((t.mem_remove k _).mp hv).2 rfl

@[simp] theorem get_remove_of_ne (t : Tree κ ν) {k' : κ} (h : k' ≠ k) :
    (t.remove k).get k' = t.get k' := by
  ext w
  rw [get_eq_some_iff, get_eq_some_iff, mem_remove]
  simp [h]

theorem get_insert (t : Tree κ ν) (k k' : κ) (v : ν) :
    (t.insert k v).get k' = if k' = k then some v else t.get k' := by
  split
  · next h => rw [h, get_insert_self]
  · next h => exact t.get_insert_of_ne v h

theorem get_remove (t : Tree κ ν) (k k' : κ) :
    (t.remove k).get k' = if k' = k then none else t.get k' := by
  split
  · next h => rw [h, get_remove_self]
  · next h => exact t.get_remove_of_ne h

/-! ### a row for each element of a list -/

section
variable {α : Type} (key : α → κ)

theorem get_insert_all (l : List α) (v : ν) (t : Tree κ ν) (k : κ) :
    (l.foldl (fun t x => t.insert (key x) v) t).get k =
      if k ∈ l.map key then some v else t.get k := by
  induction l generalizing t with
  | nil => rfl
  | cons x l ih =>
    rw [List.foldl_cons, ih, get_insert, List.map_cons]
    by_cases hx : k = key x
    · rw [if_pos hx, if_pos (List.mem_cons.mpr (.inl hx)), ite_self]
    · rw [if_neg hx]
      simp only [List.mem_cons, hx, false_or]

theorem get_remove_all (l : List α) (t : Tree κ ν) (k : κ) :
    (l.foldl (fun t x => t.remove (key x)) t).get k = if k ∈ l.map key then none else t.get k := by
  induction l generalizing t with
  | nil => rfl
  | cons x l ih =>
    rw [List.foldl_cons, ih, get_remove, List.map_cons]
    by_cases hx : k = key x
    · rw [if_pos hx, if_pos (List.mem_cons.mpr (.inl hx)), ite_self]
    · rw [if_neg hx]
      simp only [List.mem_cons, hx, false_or]

end

end

/-! ### scans over byte keys -/

section
variable {ν : Type}

def scanPrefix (t : Tree Bytes ν) (p : Bytes) : List (Bytes × ν) :=
  (t.iterFrom p false).takeWhile (fun r => p.isPrefixOf r.1)

/-- a list in which the wanted rows come first is cut exactly behind them -/
theorem takeWhile_eq_filter {α : Type} {P : α → Bool} {l : List α}
    (h : l.Pairwise (fun a b => P b = true → P a = true)) : l.takeWhile P = l.filter P := by
  induction l with
  | nil => rfl
  | cons a l ih =>
    rw [List.pairwise_cons] at h
    cases hP : P a with
    | true => rw [List.takeWhile_cons_of_pos hP, List.filter_cons_of_pos hP, ih h.2]
    | false =>
      rw [List.takeWhile_cons_of_neg (by simp [hP]), List.filter_cons_of_neg (by simp [hP])]
      symm
      rw [List.filter_eq_nil_iff]
      intro b hb hPb
      rw [h.1 b hb hPb] at hP
      cases hP

/-- upwards from a key with the prefix, a scan that stops at the first key without the prefix
yields all the keys with the prefix -/
theorem takeWhile_iterFrom (t : Tree Bytes ν) {p k : Bytes} (hk : p <+: k) :
    (t.iterFrom k false).takeWhile (fun r => p.isPrefixOf r.1)
      = t.rows.filter (fun r => k ≤ r.1 ∧ p <+: r.1) := by
  have hl : t.iterFrom k false = t.rows.filter (fun r => k ≤ r.1) := rfl
  rw [hl, takeWhile_eq_filter, List.filter_filter]
  · apply List.filter_congr
    intro r _
    rw [Bool.eq_iff_iff]
    simp [and_comm]
  · rw [List.pairwise_filter]
    refine t.sorted.imp (fun {a b} hab ha hb hPb => ?_)
    have ha' : k ≤ a.1 := by simpa using ha
    have hPb' : p <+: b.1 := by simpa using hPb
    simpa using prefix_of_between hk hPb' ha' hab.le

/-- the same downwards -/
theorem takeWhile_iterFrom_back (t : Tree Bytes ν) {p k : Bytes} (hk : p <+: k) :
    (t.iterFrom k true).takeWhile (fun r => p.isPrefixOf r.1)
      = (t.rows.filter (fun r => r.1 ≤ k ∧ p <+: r.1)).reverse := by
  have hl : t.iterFrom k true = (t.rows.filter (fun r => r.1 ≤ k)).reverse := rfl
  rw [hl, takeWhile_eq_filter, List.filter_reverse, List.filter_filter]
  · congr 1
    apply List.filter_congr
    intro r _
    rw [Bool.eq_iff_iff]
    simp [and_comm]
  · rw [List.pairwise_reverse, List.pairwise_filter]
    refine t.sorted.imp (fun {a b} hab ha hb hPa => ?_)
    have hb' : b.1 ≤ k := by simpa using hb
    have hPa' : p <+: a.1 := by simpa using hPa
    simpa using prefix_of_between hPa' hk hab.le hb'

theorem scanPrefix_eq (t : Tree Bytes ν) (p : Bytes) :
    t.scanPrefix p = t.rows.filter (fun r => p <+: r.1) := by
  unfold scanPrefix
  rw [takeWhile_iterFrom t (List.prefix_refl p)]
  apply List.filter_congr
  intro r _
  have h : p <+: r.1 → p ≤ r.1 := prefix_le
  simpa using h

theorem mem_scanPrefix (t : Tree Bytes ν) (p : Bytes) (r : Bytes × ν) :
    r ∈ t.scanPrefix p ↔ r ∈ t.rows ∧ p <+: r.1 := by
  rw [scanPrefix_eq, List.mem_filter]
  simp

theorem scanPrefix_sorted (t : Tree Bytes ν) (p : Bytes) :
    (t.scanPrefix p).Pairwise (fun a b => a.1 < b.1) := by
  rw [scanPrefix_eq]
  exact t.sorted.filter _

end

/-! ### families of keys -/

section
variable {κ ν ι : Type}

theorem exists_family {rows : List (κ × ν)} {D : ι → Prop} {f : ι → κ}
    (h : ∀ row ∈ rows, ∃ i, D i ∧ row.1 = f i) :
    ∃ l : List ι, rows.map Prod.fst = l.map f ∧ ∀ i ∈ l, D i := by
  induction rows with
  | nil => exact ⟨[], rfl, nofun⟩
  | cons row rows ih =>
    obtain ⟨i, hi, hrow⟩ := h row List.mem_cons_self
    obtain ⟨l, hl, hD⟩ := ih fun row hrow => h row (List.mem_cons_of_mem _ hrow)
    exact ⟨i :: l, by rw [List.map_cons, List.map_cons, hl, hrow], List.forall_mem_cons.mpr ⟨hi, hD⟩⟩

variable [LinearOrder κ]

/-- the rows under some of the keys of a family, downwards -/
theorem exists_family_back (t : Tree κ ν) {P : κ → Prop} [DecidablePred P] {D : ι → Prop} {f : ι → κ}
    {lt : ι → ι → Prop} (hkeys : ∀ row ∈ t.rows, P row.1 → ∃ i, D i ∧ row.1 = f i)
    (hinj : ∀ i j, D i → D j → f i = f j → i = j) (hlt : ∀ i j, D i → D j → f i < f j → lt i j) :
    ∃ l : List ι, (t.rows.filter fun row => P row.1).reverse.map Prod.fst = l.map f ∧
      l.Pairwise (fun i j => lt j i) ∧ ∀ i, i ∈ l ↔ D i ∧ t.get (f i) ≠ none ∧ P (f i) := by
  obtain ⟨l, hl, hD⟩ := @exists_family κ ν ι (t.rows.filter fun row => P row.1).reverse D f fun row hrow => by
    obtain ⟨hmem, hP⟩ := List.mem_filter.mp (List.mem_reverse.mp hrow)
    exact hkeys row hmem (of_decide_eq_true hP)
  refine ⟨l, hl, ?_, fun i => ?_⟩
  · have hsorted : (l.map f).Pairwise (fun a b => b < a) := by
      rw [← hl, List.pairwise_map, List.pairwise_reverse]
      exact t.sorted.filter _
    rw [List.pairwise_map] at hsorted
    exact hsorted.imp_of_mem fun hi hj hlt' => hlt _ _ (hD _ hj) (hD _ hi) hlt'
  · have hmem : f i ∈ l.map f ↔ t.get (f i) ≠ none ∧ P (f i) := by
      rw [← hl, List.mem_map]
      constructor
      · intro hex
        obtain ⟨row, hrow, hkey⟩ := hex
        obtain ⟨hrow, hP⟩ := List.mem_filter.mp (List.mem_reverse.mp hrow)
        rw [← hkey, (t.get_eq_some_iff row.1 row.2).mpr hrow]
        exact ⟨Option.some_ne_none _, of_decide_eq_true hP⟩
      · intro hget
        obtain ⟨v, hv⟩ := Option.ne_none_iff_exists'.mp hget.1
        exact ⟨(f i, v), List.mem_reverse.mpr (List.mem_filter.mpr
          ⟨(t.get_eq_some_iff _ _).mp hv, decide_eq_true hget.2⟩), rfl⟩
    constructor
    · intro hi
      exact ⟨hD i hi, hmem.mp (List.mem_map_of_mem hi)⟩
    · intro hi
      obtain ⟨j, hj, hij⟩ := List.mem_map.mp (hmem.mpr hi.2)
      rwa [← hinj j i (hD j hj) hi.1 hij]

end

end Tree
end Kv
