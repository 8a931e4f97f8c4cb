import Mathlib.Logic.Basic

/-!
# Runs of a machine

A machine has states to start from and labelled steps.  `RunsTo` are the states that its runs reach
when each step meets a condition, which sees the label and the state before it.

* `RunsTo.inv`    what the steps preserve holds in every state reached;
* `RunsTo.mono`   a run under one condition is a run under a weaker one;
* `Steps`         what can be reached from a state;
* `Throughout`    what holds at each step of a run that its labels determine.
-/

namespace Kv

section
variable {σ act : Type} (init : σ → Prop) (step : act → σ → σ → Prop) (P : act → σ → Prop)
variable {s : σ}

inductive RunsTo : σ → Prop
  | start {s : σ} : init s → RunsTo s
  | step {a : act} {s s' : σ} : RunsTo s → step a s s' → P a s → RunsTo s'

/-- a run under no condition -/
def Runs : σ → Prop := RunsTo init step fun _ _ => True

inductive Steps : σ → σ → Prop
  | refl (s : σ) : Steps s s
  | step {a : act} {s s' s'' : σ} : Steps s s' → step a s' s'' → Steps s s''

variable {init step P}

theorem RunsTo.inv (I : σ → Prop) (hinit : ∀ s, init s → I s)
    (hstep : ∀ a s s', I s → step a s s' → P a s → I s') (h : RunsTo init step P s) : I s := by
  induction h with
  | start h => exact hinit _ h
  | step _ hs hp ih => exact hstep _ _ _ ih hs hp

theorem RunsTo.mono {Q : act → σ → Prop} (hPQ : ∀ a s, P a s → Q a s) (h : RunsTo init step P s) :
    RunsTo init step Q s := by
  induction h with
  | start h => exact .start h
  | step _ hs hp ih => exact .step ih hs (hPQ _ _ hp)

theorem Runs.steps {s' : σ} (h : Runs init step s) (hs : Steps step s s') : Runs init step s' := by
  induction hs with
  | refl => exact h
  | step _ hstep ih => exact .step (ih h) hstep trivial

end

/-! ## runs of a machine that the labels determine -/

section
variable {σ act : Type} (step : σ → act → σ) (P Q B : σ → act → Prop)

/-- the property holds of each label and the state before it -/
def Throughout (s : σ) (labels : List act) : Prop :=
  ∀ before a after, labels = before ++ a :: after → P (before.foldl step s) a

variable {step P Q B} {s : σ} {labels : List act}

theorem throughout_nil : Throughout step P s [] :=
  fun before _ _ h => by cases before <;> cases h

theorem throughout_cons {a : act} :
    Throughout step P s (a :: labels) ↔ P s a ∧ Throughout step P (step s a) labels := by
  refine ⟨fun h => ⟨h [] a labels rfl, fun before b after he => h (a :: before) b after (he ▸ rfl)⟩,
    fun h before b after he => ?_⟩
  cases before with
  | nil =>
    cases he
    exact h.1
  | cons c before =>
    obtain ⟨rfl, hrest⟩ := List.cons.inj he
    exact h.2 before b after hrest

/-- two properties that come to the same as long as an invariant holds, which steps with the properties keep -/
theorem throughout_congr {I : σ → Prop} (hiff : ∀ s a, I s → B s a → (P s a ↔ Q s a))
    (hkeep : ∀ s a, I s → B s a → P s a → I (step s a)) (hI : I s) (hB : Throughout step B s labels) :
    Throughout step P s labels ↔ Throughout step Q s labels := by
  induction labels generalizing s with
  | nil => exact iff_of_true throughout_nil throughout_nil
  | cons a labels ih =>
    obtain ⟨ha, hrest⟩ := throughout_cons.mp hB
    rw [throughout_cons, throughout_cons, hiff s a hI ha]
    refine and_congr_right fun hQ => ih (hkeep s a hI ha ((hiff s a hI ha).mpr hQ)) hrest

end
end Kv
