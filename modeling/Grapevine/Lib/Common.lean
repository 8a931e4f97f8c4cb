import Mathlib.Data.List.Pairwise
import Mathlib.Order.Compare
import Mathlib.Order.Lattice

/-!
# Common elements of sorted lists

The lists are gone through side by side: for each element of the first one, every other list is advanced
up to it.  An element that some list lacks stops the advance of the lists behind it.

* `seek`, `seekAll`      one list, or all of them, up to a target;
* `commonElements`       the elements of the first list that all others have.

The lists are sorted by `check`.  Nothing is lost (`commonElements_sorted`): what `seek` has passed by is
before its target, and all later targets are behind it.  `commonElements_spec` is the case of descending
lists, which are sorted by the order `backwards`; ascending lists are sorted by `forwards`.
-/

set_option linter.unusedSectionVars false

namespace Kv

section
variable {α : Type} (check : α → α → Ordering)

/-- up to the target, and whether it is there -/
def seek (target : α) : List α → Bool × List α
  | [] => (false, [])
  | element :: rest =>
    match check element target with
    | .gt => (false, element :: rest)
    | .eq => (true, element :: rest)
    | .lt => seek target rest

/-- all lists up to the target, as long as they have it -/
def seekAll (target : α) : List (List α) → Bool × List (List α)
  | [] => (true, [])
  | it :: its =>
    match seek check target it with
    | (true, it) => ((seekAll target its).1, it :: (seekAll target its).2)
    | (false, it) => (false, it :: its)

def filterCommon : List α → List (List α) → List α
  | [], _ => []
  | target :: targets, its =>
    match seekAll check target its with
    | (true, its) => target :: filterCommon targets its
    | (false, its) => filterCommon targets its

def commonElements : List (List α) → Option (List α)
  | [] => none
  | first :: others => some (filterCommon check first others)

end

section
variable {α : Type}

theorem not_before_self (check : α → α → Ordering) [Std.ReflCmp check] (a : α) : check a a ≠ .lt := by
  have hself : check a a = .eq := Std.ReflCmp.compare_self
  rw [hself]
  decide

/-- strictly sorted -/
def SortedBy (check : α → α → Ordering) (l : List α) : Prop := l.Pairwise (fun a b => check a b = .lt)

theorem SortedBy.nodup {check : α → α → Ordering} [Std.ReflCmp check] {l : List α} (h : SortedBy check l) :
    l.Nodup := by
  refine List.Pairwise.imp (fun {a b} hab => ?_) h
  rintro rfl
  exact not_before_self check a hab

variable [DecidableEq α] {check : α → α → Ordering} [Std.TransCmp check] [Std.LawfulEqCmp check]

theorem seek_eq (target : α) (l : List α) (h : SortedBy check l) :
    seek check target l = (decide (target ∈ l), l.dropWhile (fun a => check a target = .lt)) := by
  induction l with
  | nil => rfl
  | cons a l ih =>
    obtain ⟨hfirst, hrest⟩ := List.pairwise_cons.mp h
    unfold seek
    cases ha : check a target with
    | lt =>
      have hne : target ≠ a := by
        rintro rfl
        exact not_before_self check target ha
      show seek check target l = _
      rw [ih hrest, List.dropWhile_cons_of_pos (by simpa using ha)]
      simp [hne]
    | eq =>
      obtain rfl : a = target := Std.LawfulEqCmp.eq_of_compare ha
      simp [ha]
    | gt =>
      have hbefore : check target a = .lt := Std.OrientedCmp.lt_of_gt ha
      have hnot : target ∉ a :: l := by
        intro hmem
        have hlt : check target target = .lt := by
          rcases List.mem_cons.mp hmem with rfl | hmem
          · exact hbefore
          · exact Std.TransCmp.lt_trans hbefore (hfirst target hmem)
        exact not_before_self check target hlt
      rw [List.dropWhile_cons_of_neg (by simp [ha])]
      simp [hnot]

/-- what is passed by is before the target -/
theorem mem_seek {target x : α} (hx : check x target ≠ .lt) (l : List α) :
    x ∈ l.dropWhile (fun a => check a target = .lt) ↔ x ∈ l := by
  induction l with
  | nil => rfl
  | cons a l ih =>
    by_cases ha : check a target = .lt
    · have hne : x ≠ a := fun he => hx (he ▸ ha)
      rw [List.dropWhile_cons_of_pos (by simpa using ha), ih, List.mem_cons]
      simp [hne]
    · rw [List.dropWhile_cons_of_neg (by simpa using ha)]

theorem seekAll_spec (target : α) (its : List (List α)) (h : ∀ it ∈ its, SortedBy check it) :
    ((seekAll check target its).1 = true ↔ ∀ it ∈ its, target ∈ it) ∧
      (∀ it ∈ (seekAll check target its).2, SortedBy check it) ∧
      ∀ x, check x target ≠ .lt → ((∀ it ∈ (seekAll check target its).2, x ∈ it) ↔ ∀ it ∈ its, x ∈ it) := by
  induction its with
  | nil => exact ⟨iff_of_true rfl (fun it hit => absurd hit List.not_mem_nil), h, fun _ _ => Iff.rfl⟩
  | cons it its ih =>
    have hit := h it List.mem_cons_self
    obtain ⟨hfound, hsorted, hkept⟩ := ih fun l hl => h l (List.mem_cons_of_mem _ hl)
    have hdrop : SortedBy check (it.dropWhile (fun a => check a target = .lt)) :=
      List.Pairwise.sublist (List.dropWhile_sublist _) hit
    unfold seekAll
    rw [seek_eq target it hit]
    by_cases hmem : target ∈ it
    · rw [decide_eq_true hmem]
      refine ⟨?_, ?_, fun x hx => ?_⟩
      · rw [List.forall_mem_cons]
        exact hfound.trans (and_iff_right hmem).symm
      · rw [List.forall_mem_cons]
        exact ⟨hdrop, hsorted⟩
      · rw [List.forall_mem_cons, List.forall_mem_cons, mem_seek hx, hkept x hx]
    · rw [decide_eq_false hmem]
      refine ⟨iff_of_false Bool.false_ne_true fun hall => hmem (hall it List.mem_cons_self), ?_, fun x hx => ?_⟩
      · rw [List.forall_mem_cons]
        exact ⟨hdrop, fun l hl => h l (List.mem_cons_of_mem _ hl)⟩
      · rw [List.forall_mem_cons, List.forall_mem_cons, mem_seek hx]

theorem filterCommon_eq (targets : List α) (its : List (List α)) (ht : SortedBy check targets)
    (h : ∀ it ∈ its, SortedBy check it) :
    filterCommon check targets its = targets.filter (fun x => ∀ it ∈ its, x ∈ it) := by
  induction targets generalizing its with
  | nil => rfl
  | cons t ts ih =>
    obtain ⟨hfirst, hrest⟩ := List.pairwise_cons.mp ht
    obtain ⟨hfound, hsorted, hkept⟩ := seekAll_spec t its h
    have hnext : filterCommon check ts (seekAll check t its).2
        = ts.filter (fun x => ∀ it ∈ its, x ∈ it) := by
      rw [ih _ hrest hsorted]
      refine List.filter_congr fun x hx => ?_
      have hbehind : check x t ≠ .lt := by
        rw [Std.OrientedCmp.gt_of_lt (hfirst x hx)]
        decide
      rw [decide_eq_decide]
      exact hkept x hbehind
    unfold filterCommon
    cases hs : seekAll check t its with
    | mk all rest =>
      rw [hs] at hfound hnext
      cases all with
      | true =>
        rw [List.filter_cons_of_pos (by simpa using hfound.mp rfl)]
        exact congrArg (t :: ·) hnext
      | false =>
        rw [List.filter_cons_of_neg fun hall => Bool.false_ne_true (hfound.mpr (by simpa using hall))]
        exact hnext

theorem commonElements_sorted {first : List α} {others : List (List α)}
    (h : ∀ it ∈ first :: others, SortedBy check it) :
    ∃ l, commonElements check (first :: others) = some l ∧ SortedBy check l ∧
      ∀ x, x ∈ l ↔ ∀ it ∈ first :: others, x ∈ it := by
  obtain ⟨hf, ho⟩ := List.forall_mem_cons.mp h
  refine ⟨_, congrArg some (filterCommon_eq first others hf ho), List.Pairwise.filter _ hf, fun x => ?_⟩
  rw [List.mem_filter, decide_eq_true_eq, List.forall_mem_cons]

end

/-! ## linear orders -/

section
variable {α : Type} [LinearOrder α]
variable {l : List α}

theorem cmp_eq_compare_fun : (cmp : α → α → Ordering) = compare := funext₂ cmp_eq_compare

instance transCmp_cmp : Std.TransCmp (cmp : α → α → Ordering) := by
  rw [cmp_eq_compare_fun]
  infer_instance

instance lawfulEqCmp_cmp : Std.LawfulEqCmp (cmp : α → α → Ordering) := by
  rw [cmp_eq_compare_fun]
  infer_instance

/-- the elements of an ascending list -/
def forwards (a b : α) : Ordering := cmp a b

instance : Std.TransCmp (forwards : α → α → Ordering) := inferInstanceAs (Std.TransCmp (cmp : α → α → Ordering))

instance : Std.LawfulEqCmp (forwards : α → α → Ordering) :=
  inferInstanceAs (Std.LawfulEqCmp (cmp : α → α → Ordering))

theorem sortedBy_forwards : SortedBy forwards l ↔ l.Pairwise (· < ·) :=
  List.Pairwise.iff fun a b => cmp_eq_lt_iff a b

/-- the elements of a descending list are compared backwards -/
def backwards (a b : α) : Ordering := cmp b a

instance : Std.TransCmp (backwards : α → α → Ordering) := @Std.TransCmp.opposite α cmp _

instance : Std.LawfulEqCmp (backwards : α → α → Ordering) := @Std.LawfulEqCmp.opposite α cmp _ _

theorem sortedBy_backwards : SortedBy backwards l ↔ l.Pairwise (· > ·) :=
  List.Pairwise.iff fun a b => cmp_eq_lt_iff b a

theorem commonElements_spec {first : List α} {others : List (List α)}
    (h : ∀ it ∈ first :: others, it.Pairwise (· > ·)) :
    ∃ l, commonElements backwards (first :: others) = some l ∧ l.Pairwise (· > ·) ∧
      ∀ x, x ∈ l ↔ ∀ it ∈ first :: others, x ∈ it := by
  obtain ⟨l, hl, hsorted, hmem⟩ := commonElements_sorted fun it hit => sortedBy_backwards.mpr (h it hit)
  exact ⟨l, hl, sortedBy_backwards.mp hsorted, hmem⟩

end

end Kv
