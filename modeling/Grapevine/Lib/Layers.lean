import Mathlib.Data.Finset.Basic
import Mathlib.Data.Finset.SDiff
import Mathlib.Data.Finset.Union
import Mathlib.Data.List.Sort
import Mathlib.Tactic.Tauto

/-!
# Layered set differences

A set is stored as a stack of differences.  A difference is CLEAN over a base when it adds only
what the base lacks and removes only what the base has.  Only clean differences can be merged
without looking at the base.

* `Diff.on`          the set that a difference makes of a base;
* `Diff.merge`       one difference in place of two, by the loop that cancels an addition against
                     a removal and the other way round;
* `merge_on`         merging clean differences does not change the set;
* `Layered`          a stack of layers, each with the set it stands for;
* `ascending`        the elements of a set, in order.
-/

namespace Kv

variable {α : Type} [DecidableEq α]

structure Diff (α : Type) where
  added : Finset α
  removed : Finset α

namespace Diff

variable {base : Finset α} {d p : Diff α} {x : α}

def on (d : Diff α) (base : Finset α) : Finset α := (base ∪ d.added) \ d.removed

structure Clean (d : Diff α) (base : Finset α) : Prop where
  added_new : ∀ x ∈ d.added, x ∉ base
  removed_old : ∀ x ∈ d.removed, x ∈ base

/-- the difference between two sets -/
def between (base new : Finset α) : Diff α := ⟨new \ base, base \ new⟩

theorem between_clean (base new : Finset α) : (between base new).Clean base :=
  ⟨fun _ hx => (Finset.mem_sdiff.mp hx).2, fun _ hx => (Finset.mem_sdiff.mp hx).1⟩

theorem between_on (base new : Finset α) : (between base new).on base = new := by
  apply Finset.ext
  intro x
  simp only [on, between, Finset.mem_sdiff, Finset.mem_union]
  tauto

theorem mem_on_of_clean (h : d.Clean base) (x : α) :
    x ∈ d.on base ↔ x ∈ d.added ∨ x ∈ base ∧ x ∉ d.removed := by
  have h1 := h.added_new x
  have h2 := h.removed_old x
  simp only [on, Finset.mem_sdiff, Finset.mem_union]
  tauto

/-! ## merging -/

/-- one removal on top of a difference -/
def unadd (d : Diff α) (x : α) : Diff α :=
  if x ∈ d.added then ⟨d.added.erase x, d.removed⟩ else ⟨d.added, insert x d.removed⟩

/-- one addition on top of a difference -/
def readd (d : Diff α) (x : α) : Diff α :=
  if x ∈ d.removed then ⟨d.added, d.removed.erase x⟩ else ⟨insert x d.added, d.removed⟩

/-- all the removals, then all the additions -/
def merge (d : Diff α) (removed added : List α) : Diff α :=
  added.foldl readd (removed.foldl unadd d)

theorem unadd_clean (h : d.Clean base) (hx : x ∈ d.on base) :
    (d.unadd x).Clean base ∧ (d.unadd x).on base = (d.on base).erase x := by
  rw [mem_on_of_clean h] at hx
  unfold unadd
  by_cases ha : x ∈ d.added
  · rw [if_pos ha]
    have hc : Clean ⟨d.added.erase x, d.removed⟩ base :=
      ⟨fun y hy => h.added_new y (Finset.mem_of_mem_erase hy), h.removed_old⟩
    refine ⟨hc, Finset.ext (fun y => ?_)⟩
    simp only [mem_on_of_clean hc, Finset.mem_erase, mem_on_of_clean h]
    have hb := h.added_new x ha
    by_cases e : y = x
    · subst e
      tauto
    · tauto
  · rw [if_neg ha]
    have hb : x ∈ base := by tauto
    have hc : Clean ⟨d.added, insert x d.removed⟩ base := by
      refine ⟨h.added_new, fun y hy => ?_⟩
      rcases Finset.mem_insert.mp hy with rfl | hy
      · exact hb
      · exact h.removed_old y hy
    refine ⟨hc, Finset.ext (fun y => ?_)⟩
    rw [mem_on_of_clean hc, Finset.mem_erase, mem_on_of_clean h, Finset.mem_insert]
    by_cases e : y = x
    · subst e
      tauto
    · tauto

theorem readd_clean (h : d.Clean base) (hx : x ∉ d.on base) :
    (d.readd x).Clean base ∧ (d.readd x).on base = insert x (d.on base) := by
  rw [mem_on_of_clean h] at hx
  unfold readd
  by_cases hr : x ∈ d.removed
  · rw [if_pos hr]
    have hb := h.removed_old x hr
    have hc : Clean ⟨d.added, d.removed.erase x⟩ base :=
      ⟨h.added_new, fun y hy => h.removed_old y (Finset.mem_of_mem_erase hy)⟩
    refine ⟨hc, Finset.ext (fun y => ?_)⟩
    rw [mem_on_of_clean hc, Finset.mem_insert, mem_on_of_clean h, Finset.mem_erase]
    by_cases e : y = x
    · subst e
      tauto
    · tauto
  · rw [if_neg hr]
    have hb : x ∉ base := by tauto
    have hc : Clean ⟨insert x d.added, d.removed⟩ base := by
      refine ⟨fun y hy => ?_, h.removed_old⟩
      rcases Finset.mem_insert.mp hy with rfl | hy
      · exact hb
      · exact h.added_new y hy
    refine ⟨hc, Finset.ext (fun y => ?_)⟩
    simp only [mem_on_of_clean hc, Finset.mem_insert, mem_on_of_clean h]
    tauto

theorem foldl_unadd (l : List α) (h : d.Clean base) (hl : l.Nodup) (hmem : ∀ x ∈ l, x ∈ d.on base) :
    (l.foldl unadd d).Clean base ∧ (l.foldl unadd d).on base = d.on base \ l.toFinset := by
  induction l generalizing d with
  | nil => exact ⟨h, by simp⟩
  | cons x l ih =>
    rw [List.nodup_cons] at hl
    obtain ⟨hc, ho⟩ := unadd_clean h (hmem x List.mem_cons_self)
    have hrest : ∀ y ∈ l, y ∈ (d.unadd x).on base := by
      intro y hy
      rw [ho, Finset.mem_erase]
      exact ⟨fun e => hl.1 (e ▸ hy), hmem y (List.mem_cons_of_mem _ hy)⟩
    obtain ⟨hc', ho'⟩ := ih hc hl.2 hrest
    refine ⟨hc', ?_⟩
    rw [List.foldl_cons, ho', ho]
    apply Finset.ext
    intro y
    simp only [Finset.mem_sdiff, Finset.mem_erase, List.toFinset_cons, Finset.mem_insert,
      List.mem_toFinset]
    tauto

theorem foldl_readd (l : List α) (h : d.Clean base) (hl : l.Nodup) (hmem : ∀ x ∈ l, x ∉ d.on base) :
    (l.foldl readd d).Clean base ∧ (l.foldl readd d).on base = d.on base ∪ l.toFinset := by
  induction l generalizing d with
  | nil => exact ⟨h, by simp⟩
  | cons x l ih =>
    rw [List.nodup_cons] at hl
    obtain ⟨hc, ho⟩ := readd_clean h (hmem x List.mem_cons_self)
    have hrest : ∀ y ∈ l, y ∉ (d.readd x).on base := by
      intro y hy hy'
      rw [ho, Finset.mem_insert] at hy'
      rcases hy' with rfl | hy'
      · exact hl.1 hy
      · exact hmem y (List.mem_cons_of_mem _ hy) hy'
    obtain ⟨hc', ho'⟩ := ih hc hl.2 hrest
    refine ⟨hc', ?_⟩
    rw [List.foldl_cons, ho', ho]
    apply Finset.ext
    intro y
    simp only [Finset.mem_union, Finset.mem_insert, List.toFinset_cons, List.mem_toFinset]
    tauto

/-- merging a clean difference into the clean one below it -/
theorem merge_on (hp : p.Clean base) (hd : d.Clean (p.on base)) {removed added : List α} (hr : removed.Nodup)
    (ha : added.Nodup) (hr' : removed.toFinset = d.removed) (ha' : added.toFinset = d.added) :
    (p.merge removed added).Clean base ∧ (p.merge removed added).on base = d.on (p.on base) := by
  have hmr : ∀ x ∈ removed, x ∈ p.on base := fun x hx =>
    hd.removed_old x (hr' ▸ List.mem_toFinset.mpr hx)
  obtain ⟨hc, ho⟩ := foldl_unadd removed hp hr hmr
  have hma : ∀ x ∈ added, x ∉ (removed.foldl unadd p).on base := by
    intro x hx hx'
    rw [ho] at hx'
    exact hd.added_new x (ha' ▸ List.mem_toFinset.mpr hx) (Finset.mem_sdiff.mp hx').1
  obtain ⟨hc', ho'⟩ := foldl_readd added hc ha hma
  refine ⟨hc', ?_⟩
  unfold merge
  rw [ho', ho, hr', ha']
  apply Finset.ext
  intro x
  rw [mem_on_of_clean hd, Finset.mem_union, Finset.mem_sdiff]
  tauto

theorem foldl_unadd_added (l : List α) (d : Diff α) : (l.foldl unadd d).added ⊆ d.added := by
  induction l generalizing d with
  | nil => exact fun _ h => h
  | cons x l ih =>
    refine (ih (d.unadd x)).trans ?_
    unfold unadd
    by_cases h : x ∈ d.added
    · rw [if_pos h]
      exact Finset.erase_subset x d.added
    · rw [if_neg h]

theorem foldl_readd_added (l : List α) (d : Diff α) (hx : x ∈ (l.foldl readd d).added) :
    x ∈ d.added ∨ x ∈ l := by
  induction l generalizing d with
  | nil => exact Or.inl hx
  | cons y l ih =>
    rcases ih (d.readd y) hx with h | h
    · unfold readd at h
      by_cases hy : y ∈ d.removed
      · rw [if_pos hy] at h
        exact Or.inl h
      · rw [if_neg hy] at h
        rcases Finset.mem_insert.mp h with rfl | h
        · exact Or.inr List.mem_cons_self
        · exact Or.inl h
    · exact Or.inr (List.mem_cons_of_mem _ h)

/-- a merged difference adds nothing of its own -/
theorem merge_added {removed added : List α} (hx : x ∈ (p.merge removed added).added) :
    x ∈ p.added ∨ x ∈ added := by
  rcases foldl_readd_added added _ hx with h | h
  · exact Or.inl (foldl_unadd_added removed p h)
  · exact Or.inr h

end Diff

/-! ## stacks -/

/-- a layer: its name, the set it stands for, and the difference to the layer below -/
structure Layer (ι α : Type) where
  name : ι
  full : Finset α
  diff : Diff α

variable {ι : Type}

/-- the set that a stack (top layer first) stands for -/
def topFull : List (Layer ι α) → Finset α
  | [] => ∅
  | l :: _ => l.full

/-- every layer is clean over the layers below, and knows its own set -/
def Layered : List (Layer ι α) → Prop
  | [] => True
  | l :: below => l.diff.Clean (topFull below) ∧ l.full = l.diff.on (topFull below) ∧ Layered below

theorem on_empty_of_clean {d : Diff α} (h : d.Clean ∅) : d.on ∅ = d.added ∧ d.removed = ∅ := by
  have hr : d.removed = ∅ :=
    Finset.eq_empty_of_forall_notMem (fun x hx => Finset.notMem_empty x (h.removed_old x hx))
  refine ⟨?_, hr⟩
  unfold Diff.on
  rw [hr, Finset.empty_union, Finset.sdiff_empty]

/-! ## sets in order -/

/-- the elements of a set in ascending order -/
def ascending {β : Type} [LinearOrder β] (s : Finset β) : List β :=
  Quot.liftOn s.val (List.insertionSort (· ≤ ·)) (fun a b hab =>
    List.Perm.eq_of_pairwise' (List.pairwise_insertionSort _ a) (List.pairwise_insertionSort _ b)
      ((List.perm_insertionSort _ a).trans (hab.trans (List.perm_insertionSort _ b).symm)))

theorem ascending_perm {β : Type} [LinearOrder β] (s : Finset β) :
    (ascending s : Multiset _) = s.val := by
  obtain ⟨⟨l⟩, hl⟩ := s
  exact Quot.sound (List.perm_insertionSort _ l)

theorem ascending_nodup {β : Type} [LinearOrder β] (s : Finset β) : (ascending s).Nodup := by
  rw [← Multiset.coe_nodup, ascending_perm]
  exact s.nodup

theorem mem_ascending {β : Type} [LinearOrder β] (s : Finset β) (x : β) : x ∈ ascending s ↔ x ∈ s := by
  rw [← Multiset.mem_coe, ascending_perm]
  rfl

end Kv
