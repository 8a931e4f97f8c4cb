import Mathlib.Data.Fintype.Card
import Mathlib.Data.Set.Finite.List
import Mathlib.Data.List.Perm.Lattice
import Mathlib.Data.List.MinMax
import Mathlib.Logic.Relation
import Mathlib.Order.WellFounded

/-!
# Topological orders

A graph is the list of its nodes, each with the nodes that it refers to.

* `Acyclic`     no node reaches itself;
* `OrderOf g l` all the nodes of `g`, each once and behind the nodes that it refers to;
* `Sorts sort`  an order of this kind is what `sort` makes of every graph that has no cycle and
                refers to its own nodes only;
* `kahn`        takes the least node that refers to nothing which is still to come, and so on.
                It `Sorts`, whichever node is the least.
-/

set_option linter.unusedSectionVars false

namespace Sorting

variable {α : Type} [DecidableEq α]
variable {sorted : List α} {a : α}

abbrev Graph (α : Type) := List (α × List α)

def nodes (g : Graph α) : List α := g.map Prod.fst

/-- `a` refers to `b` -/
def Edge (g : Graph α) (a b : α) : Prop := ∃ x ∈ g, x.1 = a ∧ b ∈ x.2

def Closed (g : Graph α) : Prop := ∀ a b, Edge g a b → b ∈ nodes g

def Acyclic (edge : α → α → Prop) : Prop := ∀ a, ¬ Relation.TransGen edge a a

theorem Acyclic.mono {edge edge' : α → α → Prop} (h : Acyclic edge) (hsub : ∀ a b, edge' a b → edge a b) :
    Acyclic edge' := fun a hc => h a (Relation.TransGen.mono hsub a a hc)

/-- whatever stands in the list stands behind what it refers to -/
def Ordered (g : Graph α) (l : List α) : Prop :=
  ∀ a b, Edge g a b → ∀ front rest, l = front ++ a :: rest → b ∈ front

structure OrderOf (g : Graph α) (l : List α) : Prop where
  perm : l.Perm (nodes g)
  ordered : Ordered g l

def Sorts (sort : Graph α → Option (List α)) : Prop :=
  ∀ g l, sort g = some l → (nodes g).Nodup → Closed g → Acyclic (Edge g) → OrderOf g l

/-! ## a sort -/

/-- the nodes that refer to nothing which is still to come -/
def ready (g : Graph α) (sorted : List α) : List α :=
  nodes (g.filter (fun x => x.1 ∉ sorted ∧ ∀ b ∈ x.2, b ∈ sorted))

def kahnFrom (least : List α → Option α) (g : Graph α) : Nat → List α → List α
  | 0, sorted => sorted
  | n + 1, sorted =>
    match least (ready g sorted) with
    | some a => kahnFrom least g n (sorted ++ [a])
    | none => sorted

def kahn (least : List α → Option α) (g : Graph α) : Option (List α) :=
  some (kahnFrom least g g.length [])

theorem mem_ready {g : Graph α} : a ∈ ready g sorted ↔
    ∃ x ∈ g, x.1 = a ∧ a ∉ sorted ∧ ∀ b ∈ x.2, b ∈ sorted := by
  constructor
  · intro h
    obtain ⟨x, hx, rfl⟩ := List.mem_map.mp h
    obtain ⟨hx, hp⟩ := List.mem_filter.mp hx
    obtain ⟨hn, hall⟩ := of_decide_eq_true hp
    exact ⟨x, hx, rfl, hn, hall⟩
  · intro h
    obtain ⟨x, hx, rfl, hn, hall⟩ := h
    exact List.mem_map_of_mem (List.mem_filter.mpr ⟨hx, decide_eq_true ⟨hn, hall⟩⟩)

/-- as long as a node is to come there is one that is ready -/
theorem exists_ready {g : Graph α} (hc : Closed g) (ha : Acyclic (Edge g)) (hmem : a ∈ nodes g)
    (hleft : a ∉ sorted) : ∃ b, b ∈ ready g sorted := by
  let r : {x // x ∈ nodes g} → {x // x ∈ nodes g} → Prop := fun x y =>
    Relation.TransGen (Edge g) y.1 x.1
  have : IsTrans {x // x ∈ nodes g} r := ⟨fun x y z hxy hyz => Relation.TransGen.trans hyz hxy⟩
  have : Std.Irrefl r := ⟨fun x hx => ha x.1 hx⟩
  have : Finite {x // x ∈ nodes g} := List.finite_toSet (nodes g)
  have hwf : WellFounded r := Finite.wellFounded_of_trans_of_irrefl r
  obtain ⟨b, hb, hmin⟩ := hwf.has_min {x | x.1 ∉ sorted} ⟨⟨a, hmem⟩, hleft⟩
  obtain ⟨x, hx, hxb⟩ := List.mem_map.mp b.2
  refine ⟨b.1, mem_ready.mpr ⟨x, hx, hxb, hb, fun c hcx => ?_⟩⟩
  have hedge : Edge g b.1 c := ⟨x, hx, hxb, hcx⟩
  by_contra hn
  exact hmin ⟨c, hc _ _ hedge⟩ hn (Relation.TransGen.single hedge)

/-- what is sorted so far -/
structure Partial (g : Graph α) (sorted : List α) : Prop where
  nodup : sorted.Nodup
  sub : ∀ a ∈ sorted, a ∈ nodes g
  ordered : Ordered g sorted

theorem Partial.nil (g : Graph α) : Partial g [] where
  nodup := List.nodup_nil
  sub _ h := absurd h List.not_mem_nil
  ordered _ _ _ front rest h := absurd h.symm (List.append_ne_nil_of_right_ne_nil front (List.cons_ne_nil _ rest))

theorem Partial.snoc {g : Graph α} (h : Partial g sorted) (hg : (nodes g).Nodup) (ha : a ∈ ready g sorted) :
    Partial g (sorted ++ [a]) := by
  obtain ⟨x, hx, rfl, hn, hall⟩ := mem_ready.mp ha
  constructor
  · exact List.Nodup.append h.nodup (List.nodup_singleton _)
      (List.disjoint_singleton.mpr hn)
  · intro c hc
    rcases List.mem_append.mp hc with hc | hc
    · exact h.sub c hc
    · obtain rfl := List.mem_singleton.mp hc
      exact List.mem_map_of_mem hx
  · intro c b hedge front rest heq
    rcases List.append_eq_append_iff.mp heq with ⟨mid, rfl, hmid⟩ | ⟨mid, rfl, hmid⟩
    · cases mid with
      | nil =>
        obtain ⟨rfl, -⟩ := List.cons.inj hmid
        obtain ⟨y, hy, hyx, hb⟩ := hedge
        obtain rfl : y = x := List.inj_on_of_nodup_map hg hy hx hyx
        rw [List.append_nil]
        exact hall b hb
      | cons m mid => exact absurd (List.cons.inj hmid).2 (by simp)
    · cases mid with
      | nil =>
        obtain ⟨rfl, -⟩ := List.cons.inj hmid
        obtain ⟨y, hy, hyx, hb⟩ := hedge
        obtain rfl : y = x := List.inj_on_of_nodup_map hg hy hx hyx
        have hb := hall b hb
        rwa [List.append_nil] at hb
      | cons m mid =>
        obtain ⟨rfl, -⟩ := List.cons.inj hmid
        exact h.ordered _ b hedge front mid rfl

section
variable {least : List α → Option α} (hmem : ∀ l a, least l = some a → a ∈ l)
  (hnone : ∀ l, least l = none → l = [])
include hmem hnone

theorem kahnFrom_orderOf {g : Graph α} (hg : (nodes g).Nodup) (hc : Closed g) (ha : Acyclic (Edge g))
    (n : Nat) (sorted : List α) (h : Partial g sorted) (hn : g.length ≤ sorted.length + n) :
    OrderOf g (kahnFrom least g n sorted) := by
  induction n generalizing sorted with
  | zero =>
    refine ⟨?_, h.ordered⟩
    refine List.Subperm.perm_of_length_le (List.subperm_of_subset h.nodup h.sub) ?_
    rw [nodes, List.length_map]
    exact hn
  | succ n ih =>
    unfold kahnFrom
    cases hl : least (ready g sorted) with
    | some a =>
      refine ih (sorted ++ [a]) (h.snoc hg (hmem _ _ hl)) ?_
      rw [List.length_append, List.length_singleton]
      omega
    | none =>
      have hready : ready g sorted = [] := hnone _ hl
      refine ⟨List.Subperm.antisymm (List.subperm_of_subset h.nodup h.sub) ?_, h.ordered⟩
      refine List.subperm_of_subset hg fun a hna => ?_
      by_contra hleft
      obtain ⟨b, hb⟩ := exists_ready hc ha hna hleft
      rw [hready] at hb
      exact absurd hb List.not_mem_nil

theorem kahn_sorts : Sorts (kahn least) := by
  intro g l hl hg hc ha
  obtain rfl := Option.some.inj hl
  exact kahnFrom_orderOf hmem hnone hg hc ha g.length [] (Partial.nil g) (Nat.le_add_left _ _)

end

/-- the least by a key -/
theorem kahn_argmin_sorts (key : α → Nat) : Sorts (kahn (List.argmin key)) :=
  kahn_sorts (fun _ _ h => List.argmin_mem h) fun _ h => List.argmin_eq_none.mp h

end Sorting
