import Grapevine.Lib.Comp

/-!
# Loops over items

A loop runs a computation for each item of a list, and an error ends it.

* `Along f P l s`       each item of `l` has the property `P` in the store that it meets, in a loop
                         that starts from `s`;
* `forM_succeeds_iff`   a loop ends well iff each of its items does;
* `forM_filter`         items that change nothing can be left out.
-/

namespace Kv
namespace Comp

variable {σ ε α β : Type}

def Succeeds (x : Comp σ ε α) (s : σ) : Prop := ∃ a s', x s = (.ok a, s')

theorem succeeds_or_fails (x : Comp σ ε α) (s : σ) : Succeeds x s ∨ FailsIn (fun _ => True) x s := by
  cases h : x s with
  | mk o s' =>
    cases o with
    | ok a => exact Or.inl ⟨a, s', h⟩
    | error e => exact Or.inr ⟨e, s', h, trivial⟩

/-- a computation that has failures of the kind `P` only, and none here -/
theorem Succeeds.of_never {P : ε → Prop} {x : Comp σ ε α} {s : σ} (hx : Never (fun e => ¬ P e) x)
    (h : ¬ FailsIn P x s) : Succeeds x s := by
  rcases succeeds_or_fails x s with hs | ⟨e, s', he, _⟩
  · exact hs
  · by_cases hP : P e
    · exact absurd ⟨e, s', he, hP⟩ h
    · exact absurd ⟨e, s', he, hP⟩ (hx s)

theorem Succeeds.bind_left {x : Comp σ ε α} {g : α → Comp σ ε β} {s : σ} (h : Succeeds (x >>= g) s) :
    Succeeds x s := by
  obtain ⟨b, s', hb⟩ := h
  obtain ⟨a, s₁, ha, _⟩ := bind_eq_ok.mp hb
  exact ⟨a, s₁, ha⟩

theorem Succeeds.not_failsIn {P : ε → Prop} {x : Comp σ ε α} {s : σ} (h : Succeeds x s) :
    ¬ FailsIn P x s := by
  rintro ⟨e, s', he, _⟩
  obtain ⟨a, s'', ha⟩ := h
  rw [ha] at he
  cases he

section
variable (f : α → Comp σ ε PUnit) (P : α → σ → Prop)

def Along : List α → σ → Prop
  | [], _ => True
  | a :: l, s => P a s ∧ ∀ u s', f a s = (.ok u, s') → Along l s'

variable {f P} {l : List α} {s s' : σ}

theorem forM_cons_ok {a : α} {u : PUnit} : (a :: l).forM f s = (.ok u, s') ↔
    ∃ s₁, f a s = (.ok ⟨⟩, s₁) ∧ l.forM f s₁ = (.ok ⟨⟩, s') := by
  constructor
  · intro h
    obtain ⟨_, s₁, ha, hl⟩ := bind_eq_ok.mp h
    exact ⟨s₁, ha, hl⟩
  · rintro ⟨s₁, ha, hl⟩
    exact bind_eq_ok.mpr ⟨⟨⟩, s₁, ha, hl⟩

theorem Along.imp {Q : α → σ → Prop} (h : Along f P l s) (hPQ : ∀ a s, P a s → Q a s) :
    Along f Q l s := by
  induction l generalizing s with
  | nil => trivial
  | cons a l ih => exact ⟨hPQ a s h.1, fun u s' hs => ih (h.2 u s' hs)⟩

theorem forM_succeeds_iff : Succeeds (l.forM f) s ↔ Along f (fun a s => Succeeds (f a) s) l s := by
  induction l generalizing s with
  | nil => exact iff_of_true ⟨⟨⟩, s, rfl⟩ trivial
  | cons a l ih =>
    constructor
    · rintro ⟨u, s', h⟩
      obtain ⟨s₁, ha, hl⟩ := forM_cons_ok.mp h
      refine ⟨⟨⟨⟩, s₁, ha⟩, fun u s₂ ha' => ?_⟩
      rw [ha] at ha'
      cases ha'
      exact ih.mp ⟨⟨⟩, s', hl⟩
    · rintro ⟨⟨u, s₁, ha⟩, hrest⟩
      obtain ⟨u', s', hl⟩ := ih.mpr (hrest u s₁ ha)
      exact ⟨u', s', forM_cons_ok.mpr ⟨s₁, ha, hl⟩⟩

theorem Along.mem (hl : Succeeds (l.forM f) s) (h : Along f P l s) {a : α} (ha : a ∈ l) :
    ∃ s₁, P a s₁ := by
  induction l generalizing s with
  | nil => cases ha
  | cons b l ih =>
    obtain ⟨u, s', hrun⟩ := hl
    obtain ⟨s₁, hb, hl⟩ := forM_cons_ok.mp hrun
    rcases List.mem_cons.mp ha with rfl | ha
    · exact ⟨s, h.1⟩
    · exact ih ⟨⟨⟩, s', hl⟩ (h.2 _ _ hb) ha

/-- each item of a loop that ends well ends well from somewhere -/
theorem Succeeds.of_mem (hl : Succeeds (l.forM f) s) {a : α} (ha : a ∈ l) : ∃ s₁, Succeeds (f a) s₁ :=
  (forM_succeeds_iff.mp hl).mem hl ha

/-- an item that is not kept changes nothing where it is met -/
theorem forM_filter {keep : α → Bool}
    (h : Along f (fun a s => keep a = false → f a s = (.ok ⟨⟩, s)) l s) :
    (l.filter keep).forM f s = l.forM f s := by
  induction l generalizing s with
  | nil => rfl
  | cons a l ih =>
    cases hkeep : keep a with
    | false =>
      have ha := h.1 hkeep
      rw [List.filter_cons_of_neg (by rw [hkeep]; exact Bool.false_ne_true), ih (h.2 _ _ ha)]
      show l.forM f s = (f a >>= fun _ => l.forM f) s
      rw [bind_ok ha]
    | true =>
      rw [List.filter_cons_of_pos hkeep]
      show (f a >>= fun _ => (l.filter keep).forM f) s = (f a >>= fun _ => l.forM f) s
      cases hrun : f a s with
      | mk o s₁ =>
        cases o with
        | error e => rw [bind_error hrun, bind_error hrun]
        | ok u =>
          rw [bind_ok hrun, bind_ok hrun]
          exact ih (h.2 u s₁ hrun)

/-- what an item leaves behind, and the items after it keep -/
theorem Along.after {R : α → σ → σ → Prop} (hl : l.forM f s = (.ok ⟨⟩, s'))
    (hitem : ∀ a s s', f a s = (.ok ⟨⟩, s') → R a s s')
    (hkeep : ∀ a b s s₁ s₂, R a s s₁ → f b s₁ = (.ok ⟨⟩, s₂) → R a s s₂) :
    Along f (fun a s => R a s s') l s := by
  have hrest : ∀ (l : List α) (a : α) (s s₁ s₂ : σ), R a s s₁ → l.forM f s₁ = (.ok ⟨⟩, s₂) → R a s s₂ := by
    intro l
    induction l with
    | nil =>
      intro a s s₁ s₂ hR hl
      cases hl
      exact hR
    | cons b l ih =>
      intro a s s₁ s₂ hR hl
      obtain ⟨s₃, hb, hl⟩ := forM_cons_ok.mp hl
      exact ih a s s₃ s₂ (hkeep a b s s₁ s₃ hR hb) hl
  induction l generalizing s with
  | nil => trivial
  | cons a l ih =>
    obtain ⟨s₁, ha, hl⟩ := forM_cons_ok.mp hl
    refine ⟨hrest l a s s₁ s' (hitem a s s₁ ha) hl, fun u s₂ ha' => ?_⟩
    rw [ha] at ha'
    cases ha'
    exact ih hl

end
end Comp
end Kv
