import Mathlib.Data.List.Basic

/-!
# The best entry of a list

A scan for the best entry remembers one: it takes an entry of the right kind if it has none so far,
or if the entry is better than the one it has.

* `scanBest good better start l`   the entry that is remembered after `l`;
* `Ranked`   among the entries of the right kind, to be better is to have the higher rank.  `better`
  may be any relation outside of this kind;
* `scanBest_cases`   what is remembered under `Ranked`;
* `scanBest_beats_iff`   to decide whether some entry of one list is better than all the entries of
  another one, it is enough to remember the best entry of each.
-/

namespace Kv

variable {α : Type} (good : α → Bool) (better : α → α → Bool)
variable {a : α}

def keepBest (best : Option α) (a : α) : Option α :=
  if good a then
    match best with
    | some prev => if !better a prev then best else some a
    | none => some a
  else best

def scanBest (start : Option α) (l : List α) : Option α := l.foldl (keepBest good better) start

/-- `rank` decides what is better, for the entries of the right kind -/
def Ranked (rank : α → Nat) : Prop :=
  ∀ a b, good a = true → good b = true → (better a b = true ↔ rank b < rank a)

variable {good better}

theorem keepBest_of_bad (h : good a = false) (best : Option α) : keepBest good better best a = best := by
  unfold keepBest
  rw [h]
  rfl

theorem scanBest_cons (start : Option α) (a : α) (l : List α) :
    scanBest good better start (a :: l) = scanBest good better (keepBest good better start a) l := rfl

/-- what is remembered is never forgotten -/
theorem scanBest_some (good : α → Bool) (better : α → α → Bool) (a : α) (l : List α) : ∃ best, scanBest good better (some a) l = some best := by
  induction l generalizing a with
  | nil => exact ⟨a, rfl⟩
  | cons c l ih =>
    rw [scanBest_cons]
    cases hc : good c with
    | false =>
      rw [keepBest_of_bad hc]
      exact ih a
    | true =>
      unfold keepBest
      rw [if_pos hc]
      show ∃ best, scanBest good better (if !better c a then some a else some c) l = some best
      split
      · exact ih a
      · exact ih c

/-- an entry of the wrong kind makes no difference -/
theorem scanBest_insert (h : good a = false) (start : Option α) (front back : List α) :
    scanBest good better start (front ++ a :: back) = scanBest good better start (front ++ back) := by
  unfold scanBest
  rw [List.foldl_append, List.foldl_append, List.foldl_cons, keepBest_of_bad h]

section
variable {rank : α → Nat} (hrank : Ranked good better rank)
variable {start : Option α}
include hrank

/-- after an entry of the right kind there is one that is remembered, and it is no worse than this
entry and than the one before -/
theorem keepBest_of_good (hstart : ∀ a, start = some a → good a = true) {c : α} (hc : good c = true) :
    ∃ k, keepBest good better start c = some k ∧ good k = true ∧ (k = c ∨ start = some k) ∧
      rank c ≤ rank k ∧ ∀ a, start = some a → rank a ≤ rank k := by
  unfold keepBest
  rw [if_pos hc]
  cases start with
  | none => exact ⟨c, rfl, hc, Or.inl rfl, Nat.le_refl _, fun a ha => by cases ha⟩
  | some prev =>
    have hprev := hstart prev rfl
    cases hb : better c prev with
    | true =>
      refine ⟨c, by simp [hb], hc, Or.inl rfl, Nat.le_refl _, fun a ha => ?_⟩
      cases ha
      exact Nat.le_of_lt ((hrank c prev hc hprev).mp hb)
    | false =>
      refine ⟨prev, by simp [hb], hprev, Or.inr rfl, ?_, fun a ha => ?_⟩
      · apply Nat.le_of_not_lt
        intro hlt
        exact absurd (hb.symm.trans ((hrank c prev hc hprev).mpr hlt)) Bool.false_ne_true
      · cases ha
        exact Nat.le_refl _

/-- nothing is remembered exactly if there is nothing of the right kind; otherwise it is an entry of
the highest rank -/
theorem scanBest_cases (hstart : ∀ a, start = some a → good a = true) (l : List α) :
    (scanBest good better start l = none ∧ ∀ b ∈ l, good b = false) ∨
    ∃ best, scanBest good better start l = some best ∧ good best = true ∧ (start = some best ∨ best ∈ l) ∧
      ∀ b, start = some b ∨ b ∈ l → good b = true → rank b ≤ rank best := by
  induction l generalizing start with
  | nil =>
    cases start with
    | none => exact Or.inl ⟨rfl, fun b hb => by cases hb⟩
    | some a =>
      refine Or.inr ⟨a, rfl, hstart a rfl, Or.inl rfl, fun b hb _ => ?_⟩
      rcases hb with hb | hb
      · cases hb
        exact Nat.le_refl _
      · cases hb
  | cons c l ih =>
    rw [scanBest_cons]
    cases hc : good c with
    | false =>
      have hskip : ∀ b, start = some b ∨ b ∈ c :: l → good b = true → start = some b ∨ b ∈ l := by
        intro b hb hgood
        rcases hb with hb | hb
        · exact Or.inl hb
        · cases hb with
          | head => exact absurd (hc.symm.trans hgood) Bool.false_ne_true
          | tail _ hb => exact Or.inr hb
      rw [keepBest_of_bad hc]
      rcases ih hstart with ⟨hnone, hall⟩ | ⟨best, hbest, hgood, hmem, hmax⟩
      · refine Or.inl ⟨hnone, fun b hb => ?_⟩
        cases hb with
        | head => exact hc
        | tail _ hb => exact hall b hb
      · exact Or.inr ⟨best, hbest, hgood, hmem.imp_right (List.mem_cons_of_mem c),
          fun b hb hbgood => hmax b (hskip b hb hbgood) hbgood⟩
    | true =>
      obtain ⟨k, hk, hkgood, hkmem, hck, hstartk⟩ := keepBest_of_good hrank hstart hc
      rw [hk]
      have hsome : ∀ a, some k = some a → good a = true := by
        intro a ha
        cases ha
        exact hkgood
      right
      rcases ih hsome with ⟨hnone, -⟩ | ⟨best, hbest, hgood, hmem, hmax⟩
      · -- something was remembered already
        obtain ⟨best, hbest⟩ := scanBest_some good better k l
        rw [hbest] at hnone
        cases hnone
      · have hkle : rank k ≤ rank best := hmax k (Or.inl rfl) hkgood
        refine ⟨best, hbest, hgood, ?_, fun b hb hbgood => ?_⟩
        · rcases hmem with hmem | hmem
          · cases hmem
            rcases hkmem with rfl | hkmem
            · exact Or.inr List.mem_cons_self
            · exact Or.inl hkmem
          · exact Or.inr (List.mem_cons_of_mem c hmem)
        · rcases hb with hb | hb
          · exact Nat.le_trans (hstartk b hb) hkle
          · cases hb with
            | head => exact Nat.le_trans hck hkle
            | tail _ hb => exact hmax b (Or.inr hb) hbgood

/-- whether the best entries of two lists decide for the first list -/
def beats (better : α → α → Bool) : Option α → Option α → Bool
  | some a, some b => better a b
  | some _, none => true
  | none, _ => false

theorem scanBest_beats_iff (l m : List α) :
    beats better (scanBest good better none l) (scanBest good better none m) = true ↔
      ∃ a ∈ l, good a = true ∧ ∀ b ∈ m, good b = true → better a b = true := by
  have hnothing : ∀ a, none = some a → good a = true := fun a ha => by cases ha
  rcases scanBest_cases hrank hnothing l with ⟨hl, hnone⟩ | ⟨a, hl, hagood, hal, hamax⟩
  · rw [hl]
    refine iff_of_false (by exact Bool.false_ne_true) fun h => ?_
    obtain ⟨a, ha, hgood, -⟩ := h
    exact absurd ((hnone a ha).symm.trans hgood) Bool.false_ne_true
  · have hal : a ∈ l := hal.resolve_left nofun
    rw [hl]
    rcases scanBest_cases hrank hnothing m with ⟨hm, hnone⟩ | ⟨b, hm, hbgood, hbm, hbmax⟩
    · rw [hm]
      refine iff_of_true rfl ⟨a, hal, hagood, fun b hb hgood => ?_⟩
      exact absurd ((hnone b hb).symm.trans hgood) Bool.false_ne_true
    · have hbm : b ∈ m := hbm.resolve_left nofun
      rw [hm]
      refine ⟨fun h => ⟨a, hal, hagood, fun c hc hcgood => ?_⟩, fun h => ?_⟩
      · have hab : rank b < rank a := (hrank a b hagood hbgood).mp h
        exact (hrank a c hagood hcgood).mpr (Nat.lt_of_le_of_lt (hbmax c (Or.inr hc) hcgood) hab)
      · obtain ⟨a', ha', hgood', hbetter⟩ := h
        have hab : rank b < rank a' := (hrank a' b hgood' hbgood).mp (hbetter b hbm hbgood)
        exact (hrank a b hagood hbgood).mpr (Nat.lt_of_lt_of_le hab (hamax a' (Or.inr ha') hgood'))

end

end Kv
