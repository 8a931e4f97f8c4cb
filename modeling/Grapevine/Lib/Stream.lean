import Grapevine.Lib.Tree
import Mathlib.Data.List.Sort
import Mathlib.Data.Set.Basic

/-!
# Streams: rows under counts, read from a token on

A row of a stream is stored under a count that one growing counter has given out.  A reader keeps
a token, the count up to which it has been told everything, and asks for the rows above it.

* `streamKey p w n s`   the key of such a row: the prefix of its stream, its count as a word, and
                        a rest;
* `Tree.above`          the scan of a stream from a count upwards (`Tree.mem_above`);
* `Tree.upTo`           the scan of a stream from a count downwards (`Tree.mem_upTo`);
* `Covers`              every row up to the token has been seen.  A row stored above the token
                        keeps it (`Covers.insert`), and a read of all the rows above an old token
                        makes it for a new one (`Covers.read`).
-/

namespace Kv

/-! ## keys -/

section
variable {ν : Type}
variable {p : Bytes}

def streamKey (p : Bytes) (w n : Nat) (s : Bytes) : Bytes := p ++ (be w n ++ s)

theorem prefix_streamKey (p : Bytes) (w n : Nat) (s : Bytes) : p <+: streamKey p w n s :=
  List.prefix_append p _

theorem streamKey_inj {w n m : Nat} {s s' : Bytes} (hn : n < 256^w) (hm : m < 256^w)
    (h : streamKey p w n s = streamKey p w m s') : n = m ∧ s = s' :=
  be_append_inj hn hm (List.append_cancel_left h)

theorem streamKey_le_iff (p : Bytes) {w n m : Nat} (hn : n < 256^w) (hm : m < 256^w) (s s' : Bytes) :
    streamKey p w n s ≤ streamKey p w m s' ↔ n < m ∨ n = m ∧ s ≤ s' := by
  unfold streamKey
  rw [append_le_append_iff, be_append_le_iff hn hm]

/-- the rows of the stream `p` from the count `n` on, in the order of the counts -/
def Tree.above (t : Tree Bytes ν) (p : Bytes) (w n : Nat) : List (Bytes × ν) :=
  (t.iterFrom (p ++ be w n) false).takeWhile (fun r => p.isPrefixOf r.1)

/-- the rows of the stream `p` up to the count `n`, the last one first -/
def Tree.upTo (t : Tree Bytes ν) (p : Bytes) (w n : Nat) : List (Bytes × ν) :=
  (t.iterFrom (p ++ be w n) true).takeWhile (fun r => p.isPrefixOf r.1)

theorem Tree.mem_above_iff (t : Tree Bytes ν) (p : Bytes) (w n : Nat) (row : Bytes × ν) :
    row ∈ t.above p w n ↔ row ∈ t.rows ∧ p ++ be w n ≤ row.1 ∧ p <+: row.1 := by
  unfold Tree.above
  rw [Tree.takeWhile_iterFrom t (List.prefix_append p _), List.mem_filter, decide_eq_true_eq]

theorem Tree.mem_upTo_iff (t : Tree Bytes ν) (p : Bytes) (w n : Nat) (row : Bytes × ν) :
    row ∈ t.upTo p w n ↔ row ∈ t.rows ∧ row.1 ≤ p ++ be w n ∧ p <+: row.1 := by
  unfold Tree.upTo
  rw [Tree.takeWhile_iterFrom_back t (List.prefix_append p _), List.mem_reverse, List.mem_filter,
    decide_eq_true_eq]

theorem Tree.mem_above (t : Tree Bytes ν) {w n m : Nat} (hn : n < 256^w) (hm : m < 256^w) (s : Bytes) (v : ν) :
    (streamKey p w m s, v) ∈ t.above p w n ↔ (streamKey p w m s, v) ∈ t.rows ∧ n ≤ m := by
  have hle : p ++ be w n ≤ streamKey p w m s ↔ n ≤ m := by
    have h := streamKey_le_iff p hn hm [] s
    have hs : ([] : Bytes) ≤ s := not_lt.mp (List.not_lt_nil s)
    unfold streamKey at h ⊢
    rw [List.append_nil] at h
    rw [h, Nat.le_iff_lt_or_eq]
    simp only [hs, and_true]
  rw [t.mem_above_iff]
  constructor
  · intro h
    exact ⟨h.1, hle.mp h.2.1⟩
  · intro h
    exact ⟨h.1, hle.mpr h.2, prefix_streamKey p w m s⟩

theorem Tree.above_sorted (t : Tree Bytes ν) (p : Bytes) (w n : Nat) :
    (t.above p w n).Pairwise (fun a b => a.1 < b.1) := by
  unfold Tree.above
  rw [Tree.takeWhile_iterFrom t (List.prefix_append p _)]
  exact t.sorted.filter _

/-- rows in the order of their keys are determined by what they are -/
theorem eq_of_sorted_keys {κ : Type} [LinearOrder κ] {l l' : List (κ × ν)}
    (h : l.Pairwise (fun a b => a.1 < b.1)) (h' : l'.Pairwise (fun a b => a.1 < b.1))
    (hmem : ∀ row, row ∈ l ↔ row ∈ l') : l = l' := by
  have hanti : Std.Antisymm fun a b : κ × ν => a.1 < b.1 :=
    ⟨fun a b hab hba => absurd (hab.trans hba) (lt_irrefl _)⟩
  have hirrefl : Std.Irrefl fun a b : κ × ν => a.1 < b.1 := ⟨fun a => lt_irrefl _⟩
  exact h.eq_of_mem_iff h' hmem

/-- without rests, the scan downwards ends with the count itself -/
theorem Tree.mem_upTo (t : Tree Bytes ν) {w n m : Nat} (hn : n < 256^w) (hm : m < 256^w) (v : ν) :
    (streamKey p w m [], v) ∈ t.upTo p w n ↔ (streamKey p w m [], v) ∈ t.rows ∧ m ≤ n := by
  have hle : streamKey p w m [] ≤ p ++ be w n ↔ m ≤ n := by
    have h := streamKey_le_iff p hm hn [] []
    unfold streamKey at h ⊢
    rw [List.append_nil, List.append_nil] at h
    rw [List.append_nil, h, Nat.le_iff_lt_or_eq]
    simp
  rw [t.mem_upTo_iff]
  constructor
  · intro h
    exact ⟨h.1, hle.mp h.2.1⟩
  · intro h
    exact ⟨h.1, hle.mpr h.2, prefix_streamKey p w m []⟩

end

/-! ## maps of rows -/

section
variable {ι κ ν : Type} [LinearOrder κ]

/-- in a map that the rows are put into one after the other, the last one with a key stays -/
theorem Tree.get_foldl_insert (key : ι → κ) (val : ι → ν) (l : List ι) (t : Tree κ ν) {k : κ}
    (h : ∀ y ∈ l, key y ≠ k) :
    (l.foldl (fun t y => t.insert (key y) (val y)) t).get k = t.get k := by
  induction l generalizing t with
  | nil => rfl
  | cons y l ih =>
    rw [List.foldl_cons, ih _ fun z hz => h z (List.mem_cons_of_mem _ hz)]
    exact Tree.get_insert_of_ne _ _ (h y List.mem_cons_self).symm

theorem Tree.get_foldl_insert_last (key : ι → κ) (val : ι → ν) (l rest : List ι) (x : ι)
    (t : Tree κ ν) (h : ∀ y ∈ rest, key y ≠ key x) :
    ((l ++ x :: rest).foldl (fun t y => t.insert (key y) (val y)) t).get (key x) = some (val x) := by
  rw [List.foldl_append, List.foldl_cons, Tree.get_foldl_insert key val rest _ h]
  exact Tree.get_insert_self _ _ _

/-- a map of rows with distinct keys has exactly the rows -/
theorem Tree.get_foldl_insert_iff (key : ι → κ) (val : ι → ν) {l : List ι}
    (h : l.Pairwise fun x y => key x ≠ key y) (k : κ) (v : ν) :
    (l.foldl (fun t y => t.insert (key y) (val y)) (.empty : Tree κ ν)).get k = some v ↔ ∃ y ∈ l, key y = k ∧ val y = v := by
  by_cases hk : ∃ y ∈ l, key y = k
  · obtain ⟨y, hy, rfl⟩ := hk
    obtain ⟨before, behind, rfl⟩ := List.append_of_mem hy
    obtain ⟨-, hbehind, hbefore⟩ := List.pairwise_append.mp h
    rw [Tree.get_foldl_insert_last key val before behind y .empty
      fun z hz he => (List.pairwise_cons.mp hbehind).1 z hz he.symm]
    constructor
    · intro hv
      exact ⟨y, hy, rfl, Option.some.inj hv⟩
    · rintro ⟨z, hz, he, rfl⟩
      rcases List.mem_append.mp hz with hz | hz
      · exact absurd he (hbefore z hz y List.mem_cons_self)
      · rcases List.mem_cons.mp hz with rfl | hz
        · rfl
        · exact absurd he.symm ((List.pairwise_cons.mp hbehind).1 z hz)
  · rw [Tree.get_foldl_insert key val l .empty fun y hy he => hk ⟨y, hy, he⟩]
    refine iff_of_false nofun ?_
    rintro ⟨y, hy, he, -⟩
    exact hk ⟨y, hy, he⟩

end

/-! ## tokens -/

section
variable {ρ : Type} {count : ρ → Nat}

/-- every row up to the token has been seen -/
def Covers (count : ρ → Nat) (rows seen : Set ρ) (token : Nat) : Prop :=
  ∀ x ∈ rows, count x ≤ token → x ∈ seen

variable {rows rows' seen seen' : Set ρ} {token token' : Nat}

theorem Covers.mono (h : Covers count rows seen token) (hrows : rows' ⊆ rows) (hseen : seen ⊆ seen') :
    Covers count rows' seen' token := fun x hx hc => hseen (h x (hrows hx) hc)

/-- a new row above the token need not have been seen -/
theorem Covers.insert (h : Covers count rows seen token) {x : ρ} (hx : token < count x) :
    Covers count (insert x rows) seen token := by
  intro y hy hc
  rcases Set.mem_insert_iff.mp hy with rfl | hy
  · exact absurd hc (not_le.mpr hx)
  · exact h y hy hc

/-- a reader that has seen everything up to an old token, and gets what lies above it -/
theorem Covers.read {got : Set ρ} (h : Covers count rows seen token)
    (hgot : ∀ x ∈ rows, token < count x → x ∈ got) : Covers count rows (seen ∪ got) token' := by
  intro x hx _
  rcases Nat.lt_or_ge token (count x) with hlt | hge
  · exact Or.inr (hgot x hx hlt)
  · exact Or.inl (h x hx hge)

/-- no count is `0`, so the token `0` promises nothing -/
theorem Covers.zero (hpos : ∀ x ∈ rows, 0 < count x) : Covers count rows seen 0 := by
  intro x hx hc
  exact absurd hc (not_le.mpr (hpos x hx))

end
end Kv
