import Mathlib.Data.Set.Insert

/-!
# Frontiers

A history is a set of events, each with the events that it refers to.  Its frontier is made of the
events that no other event refers to.

* `frontier_insert`      what one more event does to the frontier;
* `replace_frontier_iff`, `extend_frontier_iff`, `shrink_frontier_iff`   when a set that is kept
  beside a history is still the frontier after it was replaced by the new event, extended with it, or
  made smaller.
-/

namespace History

variable {ε : Type} (h : Set (ε × List ε))
variable {e : ε}

/-- another event of the history refers to the event -/
def Referenced (e : ε) : Prop := ∃ x ∈ h, x.1 ≠ e ∧ e ∈ x.2

def frontier : Set ε := {e | (∃ refs, (e, refs) ∈ h) ∧ ¬ Referenced h e}

theorem mem_frontier : e ∈ frontier h ↔ (∃ refs, (e, refs) ∈ h) ∧ ¬ Referenced h e := Iff.rfl

theorem frontier_empty : frontier (∅ : Set (ε × List ε)) = ∅ := by
  apply Set.eq_empty_of_forall_notMem
  rintro e ⟨⟨refs, hmem⟩, -⟩
  exact hmem

theorem referenced_insert {n : ε} {refs : List ε} :
    Referenced (insert (n, refs) h) e ↔ (n ≠ e ∧ e ∈ refs) ∨ Referenced h e := by
  constructor
  · rintro ⟨x, hx, hne, he⟩
    rcases hx with rfl | hx
    · exact Or.inl ⟨hne, he⟩
    · exact Or.inr ⟨x, hx, hne, he⟩
  · rintro (⟨hne, he⟩ | ⟨x, hx, hne, he⟩)
    · exact ⟨(n, refs), Or.inl rfl, hne, he⟩
    · exact ⟨x, Or.inr hx, hne, he⟩

/-- the new event is in the frontier unless it is referred to; of the others those are left that
it does not refer to -/
theorem frontier_insert {n : ε} {refs : List ε} : e ∈ frontier (insert (n, refs) h) ↔
    (e = n ∧ ¬ Referenced h n) ∨ (e ≠ n ∧ e ∈ frontier h ∧ e ∉ refs) := by
  rw [mem_frontier, mem_frontier, referenced_insert]
  by_cases hn : e = n
  · subst hn
    constructor
    · rintro ⟨-, hr⟩
      exact Or.inl ⟨rfl, fun hr' => hr (Or.inr hr')⟩
    · rintro (⟨-, hr⟩ | ⟨hne, -⟩)
      · refine ⟨⟨refs, Or.inl rfl⟩, ?_⟩
        rintro (⟨hne, -⟩ | hr')
        · exact hne rfl
        · exact hr hr'
      · exact absurd rfl hne
  · constructor
    · rintro ⟨⟨refs', hmem⟩, hr⟩
      refine Or.inr ⟨hn, ⟨⟨refs', ?_⟩, fun hr' => hr (Or.inr hr')⟩, fun he => hr (Or.inl ⟨Ne.symm hn, he⟩)⟩
      rcases hmem with heq | hmem
      · exact absurd (Prod.mk.inj heq).1 hn
      · exact hmem
    · rintro (⟨heq, -⟩ | ⟨-, ⟨⟨refs', hmem⟩, hr⟩, he⟩)
      · exact absurd heq hn
      · refine ⟨⟨refs', Or.inr hmem⟩, ?_⟩
        rintro (⟨-, he'⟩ | hr')
        · exact he he'
        · exact hr hr'

section
variable {h} {s : Set ε} (hs : s = frontier h) {n : ε} {refs : List ε}
variable {P : ε → Prop}
include hs

/-- the new event in place of the frontier -/
theorem replace_frontier_iff : {n} = frontier (insert (n, refs) h) ↔
    ¬ Referenced h n ∧ ∀ e ∈ s, e ≠ n → e ∈ refs := by
  constructor
  · intro heq
    have hmem : ∀ e, e = n ↔ (e = n ∧ ¬ Referenced h n) ∨ (e ≠ n ∧ e ∈ frontier h ∧ e ∉ refs) := by
      intro e
      rw [← frontier_insert, ← heq]
      rfl
    constructor
    · rcases (hmem n).mp rfl with ⟨-, hr⟩ | ⟨hne, -⟩
      · exact hr
      · exact absurd rfl hne
    · intro e he hne
      by_contra hrefs
      exact hne ((hmem e).mpr (Or.inr ⟨hne, hs ▸ he, hrefs⟩))
  · rintro ⟨hr, hall⟩
    ext e
    rw [frontier_insert]
    constructor
    · rintro rfl
      exact Or.inl ⟨rfl, hr⟩
    · rintro (⟨rfl, -⟩ | ⟨hne, he, hrefs⟩)
      · rfl
      · exact absurd (hall e (hs ▸ he) hne) hrefs

/-- the new event beside what is left of the frontier -/
theorem extend_frontier_iff :
    insert n {e ∈ s | e ∉ refs ∧ P e} = frontier (insert (n, refs) h) ↔
      ¬ Referenced h n ∧ ∀ e ∈ s, e ≠ n → e ∉ refs → P e := by
  constructor
  · intro heq
    have hmem : ∀ e, (e = n ∨ (e ∈ s ∧ e ∉ refs ∧ P e)) ↔
        (e = n ∧ ¬ Referenced h n) ∨ (e ≠ n ∧ e ∈ frontier h ∧ e ∉ refs) := by
      intro e
      rw [← frontier_insert, ← heq]
      rfl
    constructor
    · rcases (hmem n).mp (Or.inl rfl) with ⟨-, hr⟩ | ⟨hne, -⟩
      · exact hr
      · exact absurd rfl hne
    · intro e he hne hrefs
      rcases (hmem e).mpr (Or.inr ⟨hne, hs ▸ he, hrefs⟩) with heq' | ⟨-, -, hp⟩
      · exact absurd heq' hne
      · exact hp
  · rintro ⟨hr, hall⟩
    ext e
    rw [frontier_insert]
    constructor
    · rintro (rfl | ⟨he, hrefs, -⟩)
      · exact Or.inl ⟨rfl, hr⟩
      · by_cases hn : e = n
        · exact Or.inl ⟨hn, hr⟩
        · exact Or.inr ⟨hn, hs ▸ he, hrefs⟩
    · rintro (⟨rfl, -⟩ | ⟨hne, he, hrefs⟩)
      · exact Or.inl rfl
      · exact Or.inr ⟨hs ▸ he, hrefs, hall e (hs ▸ he) hne hrefs⟩

/-- a smaller set, and no new event -/
theorem shrink_frontier_iff : {e ∈ s | P e} = frontier h ↔ ∀ e ∈ s, P e := by
  rw [← hs]
  exact Set.sep_eq_self_iff_mem_true

end

end History
