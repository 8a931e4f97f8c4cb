import Mathlib.Data.List.Basic
import Grapevine.Lib.Bytes

/-!
# Lists joined with a mark

A list of parts is written with a mark between them, and without the lengths of the parts.  The parts
may contain the mark, as long as it can be seen where each of them ends.

* `Delimited x P`     two parts of the kind `P` that start alike, and end before a mark or at the end,
                      are one; kinds with different first elements can be mixed (`Delimited.or`);
* `intercalate_inj`   the parts are determined by what they are joined to.
-/

namespace Kv

variable {α : Type} {x : α}

/-- nothing, or the mark and more -/
def Ends (x : α) (t : List α) : Prop := t = [] ∨ ∃ r, t = x :: r

structure Delimited (x : α) (P : List α → Prop) : Prop where
  ne_nil : ∀ a, P a → a ≠ []
  inj : ∀ {a b t t' : List α}, P a → P b → Ends x t → Ends x t' → a ++ t = b ++ t' → a = b

/-! ## kinds of parts -/

theorem Delimited.ofLength (x : α) {n : Nat} (hn : 0 < n) : Delimited x (fun a => a.length = n) where
  ne_nil a ha hnil := by
    rw [hnil, List.length_nil] at ha
    omega
  inj ha hb _ _ h := (List.append_inj h (ha.trans hb.symm)).1

/-- without the mark -/
theorem Delimited.ofNotMem (x : α) : Delimited x (fun a => a ≠ [] ∧ x ∉ a) where
  ne_nil _ ha := ha.1
  inj {a b t t'} ha hb ht ht' h := by
    rcases ht with rfl | ⟨r, rfl⟩
    · rcases ht' with rfl | ⟨r', rfl⟩
      · simpa using h
      · rw [List.append_nil] at h
        exact absurd (h ▸ List.mem_append_right b List.mem_cons_self) ha.2
    · rcases ht' with rfl | ⟨r', rfl⟩
      · rw [List.append_nil] at h
        exact absurd (h ▸ List.mem_append_right a List.mem_cons_self) hb.2
      · exact (append_cons_inj ha.2 hb.2 h).1

theorem Delimited.mono {P Q : List α → Prop} (h : Delimited x Q) (hPQ : ∀ a, P a → Q a) : Delimited x P where
  ne_nil a ha := h.ne_nil a (hPQ a ha)
  inj ha hb := h.inj (hPQ _ ha) (hPQ _ hb)

theorem Delimited.or {P Q : List α → Prop} (hP : Delimited x P) (hQ : Delimited x Q)
    (hfirst : ∀ a b, P a → Q b → a.head? ≠ b.head?) : Delimited x (fun a => P a ∨ Q a) where
  ne_nil a ha := ha.elim (hP.ne_nil a) (hQ.ne_nil a)
  inj {a b t t'} ha hb ht ht' h := by
    have hhead : a ≠ [] → b ≠ [] → a.head? = b.head? := by
      intro hne hne'
      rw [← List.head?_append_of_ne_nil a hne, h, List.head?_append_of_ne_nil b hne']
    rcases ha with ha | ha
    · rcases hb with hb | hb
      · exact hP.inj ha hb ht ht' h
      · exact absurd (hhead (hP.ne_nil a ha) (hQ.ne_nil b hb)) (hfirst a b ha hb)
    · rcases hb with hb | hb
      · exact absurd (hhead (hQ.ne_nil a ha) (hP.ne_nil b hb)).symm (hfirst b a hb ha)
      · exact hQ.inj ha hb ht ht' h

/-! ## the joined list -/

theorem intercalate_cons (x : α) (a : List α) (l : List (List α)) :
    [x].intercalate (a :: l) = a ++ l.flatMap (x :: ·) := by
  induction l generalizing a with
  | nil => simp
  | cons b l ih =>
    rw [List.intercalate_cons_cons, ih b]
    simp

theorem ends_flatMap (x : α) (l : List (List α)) : Ends x (l.flatMap (x :: ·)) := by
  cases l with
  | nil => exact .inl rfl
  | cons a l => exact .inr ⟨a ++ l.flatMap (x :: ·), rfl⟩

section
variable {P : List α → Prop} (hP : Delimited x P)
include hP

/-- the first part, and then what is behind it -/
theorem Delimited.cons_inj {a b : List α} {l m : List (List α)} (ha : P a) (hb : P b)
    (h : a ++ l.flatMap (x :: ·) = b ++ m.flatMap (x :: ·)) :
    a = b ∧ l.flatMap (x :: ·) = m.flatMap (x :: ·) := by
  have hab : a = b := hP.inj ha hb (ends_flatMap x l) (ends_flatMap x m) h
  subst hab
  exact ⟨rfl, List.append_cancel_left h⟩

theorem Delimited.flatMap_inj {l m : List (List α)} (hl : ∀ a ∈ l, P a) (hm : ∀ a ∈ m, P a)
    (h : l.flatMap (x :: ·) = m.flatMap (x :: ·)) : l = m := by
  induction l generalizing m with
  | nil =>
    cases m with
    | nil => rfl
    | cons b m => simp at h
  | cons a l ih =>
    cases m with
    | nil => simp at h
    | cons b m =>
      rw [List.forall_mem_cons] at hl hm
      rw [List.flatMap_cons, List.flatMap_cons, List.cons_append, List.cons_append] at h
      obtain ⟨rfl, hrest⟩ := hP.cons_inj hl.1 hm.1 (List.cons.inj h).2
      rw [ih hl.2 hm.2 hrest]

theorem intercalate_inj {l m : List (List α)} (hl : ∀ a ∈ l, P a) (hm : ∀ a ∈ m, P a)
    (h : [x].intercalate l = [x].intercalate m) : l = m := by
  cases l with
  | nil =>
    cases m with
    | nil => rfl
    | cons b m =>
      rw [List.forall_mem_cons] at hm
      rw [intercalate_cons, List.intercalate_nil] at h
      exact absurd (List.append_eq_nil_iff.mp h.symm).1 (hP.ne_nil b hm.1)
  | cons a l =>
    rw [List.forall_mem_cons] at hl
    cases m with
    | nil =>
      rw [intercalate_cons, List.intercalate_nil] at h
      exact absurd (List.append_eq_nil_iff.mp h).1 (hP.ne_nil a hl.1)
    | cons b m =>
      rw [List.forall_mem_cons] at hm
      rw [intercalate_cons, intercalate_cons] at h
      obtain ⟨rfl, hrest⟩ := hP.cons_inj hl.1 hm.1 h
      rw [hP.flatMap_inj hl.2 hm.2 hrest]

end

end Kv
