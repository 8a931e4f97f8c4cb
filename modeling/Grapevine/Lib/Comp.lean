import Mathlib.Logic.Basic

/-!
# Computations with a state and an error

`Comp σ ε α` is a computation over a store `σ` that ends in a result or in an error.  What was
written before an error stays written: there is no transaction to roll back.

* `bind_ok`, `bind_error`   running a computation step by step;
* `bind_eq_ok`              a computation that ended well, taken apart;
* `Keeps R x`               whatever `x` does, and however it ends, it moves the store along `R`;
                            for a reflexive and transitive `R` this goes through every
                            construct, so a frame condition is checked write by write;
* `Commutes g x`            `x` neither looks at nor writes what `g` changes;
* `Ends x Q R`              total pre- and postconditions: `Q` on a result, `R` on an error;
* `Gives I x P`             `x` keeps the invariant `I`, and what it returns has the property `P`;
* `FailsIn P x`, `Never`    failures of one kind, taken apart along a sequence.
-/

namespace Kv

theorem except_bind_eq_ok {ε α β : Type} {x : Except ε α} {f : α → Except ε β} {b : β} :
    (x >>= f) = .ok b ↔ ∃ a, x = .ok a ∧ f a = .ok b := by
  cases x with
  | error e =>
    refine iff_of_false (fun h => by cases h) fun h => ?_
    obtain ⟨a, ha, _⟩ := h
    cases ha
  | ok a =>
    refine ⟨fun h => ⟨a, rfl, h⟩, fun h => ?_⟩
    obtain ⟨a', ha, hf⟩ := h
    cases ha
    exact hf

theorem toOption_eq_some {ε α : Type} {x : Except ε α} {a : α} : x.toOption = some a ↔ x = .ok a := by
  cases x with
  | ok b =>
    constructor
    · intro h
      cases h
      rfl
    · intro h
      cases h
      rfl
  | error e => exact iff_of_false nofun nofun

def Comp (σ ε α : Type) : Type := σ → Except ε α × σ

namespace Comp

variable {σ ε α β : Type}
variable {x : Comp σ ε α} {f g : α → Comp σ ε β} {R : ε → σ → Prop} {s s' : σ} {Q : α → σ → Prop}
  {a : α} {o : Except ε α} {e : ε} {b : β}

protected def bind (x : Comp σ ε α) (f : α → Comp σ ε β) : Comp σ ε β := fun s =>
  match x s with
  | (.ok a, s) => f a s
  | (.error e, s) => (.error e, s)

instance : Monad (Comp σ ε) where
  pure a := fun s => (.ok a, s)
  bind := Comp.bind

/-- read the store -/
def get : Comp σ ε σ := fun s => (.ok s, s)

/-- read a part of the store -/
def gets (f : σ → α) : Comp σ ε α := fun s => (.ok (f s), s)

def modify (f : σ → σ) : Comp σ ε Unit := fun s => (.ok (), f s)

def throw (e : ε) : Comp σ ε α := fun s => (.error e, s)

/-- a result or an error that was computed without the store -/
def ofExcept (x : Except ε α) : Comp σ ε α := fun s => (x, s)

/-- a result or an error that was computed from the store -/
def reads (f : σ → Except ε α) : Comp σ ε α := fun s => (f s, s)

/-- an expectation of the code: `e` if there is nothing -/
def expect (o : Option α) (e : ε) : Comp σ ε α := fun s =>
  match o with
  | some a => (.ok a, s)
  | none => (.error e, s)

/-! ## running -/

@[simp] theorem pure_run (a : α) (s : σ) : (pure a : Comp σ ε α) s = (.ok a, s) := rfl
@[simp] theorem get_run (s : σ) : (get : Comp σ ε σ) s = (.ok s, s) := rfl
@[simp] theorem gets_run (f : σ → α) (s : σ) : (gets f : Comp σ ε α) s = (.ok (f s), s) := rfl
@[simp] theorem modify_run (f : σ → σ) (s : σ) : (modify f : Comp σ ε Unit) s = (.ok (), f s) := rfl
@[simp] theorem throw_run (e : ε) (s : σ) : (throw e : Comp σ ε α) s = (.error e, s) := rfl
@[simp] theorem ofExcept_run (x : Except ε α) (s : σ) : (ofExcept x : Comp σ ε α) s = (x, s) := rfl
@[simp] theorem reads_run (f : σ → Except ε α) (s : σ) : (reads f : Comp σ ε α) s = (f s, s) := rfl
@[simp] theorem expect_some (a : α) (e : ε) (s : σ) :
    (expect (some a) e : Comp σ ε α) s = (.ok a, s) := rfl
@[simp] theorem expect_none (e : ε) (s : σ) :
    (expect none e : Comp σ ε α) s = (.error e, s) := rfl

theorem expect_eq_ok {o : Option α} (h : expect o e s = (.ok a, s')) :
    o = some a ∧ s = s' := by
  cases o with
  | some b =>
    cases h
    exact ⟨rfl, rfl⟩
  | none => cases h

theorem bind_ok (h : x s = (.ok a, s')) : (x >>= f) s = f a s' := by
  show Comp.bind x f s = f a s'
  unfold Comp.bind
  rw [h]

theorem bind_error (h : x s = (.error e, s')) : (x >>= f) s = (.error e, s') := by
  show Comp.bind x f s = _
  unfold Comp.bind
  rw [h]

theorem bind_assoc {γ : Type} (x : Comp σ ε α) (f : α → Comp σ ε β) (g : β → Comp σ ε γ) :
    (x >>= f) >>= g = x >>= fun a => f a >>= g := by
  funext s
  cases hx : x s with
  | mk o s' =>
    cases o with
    | error e => rw [bind_error hx, bind_error (bind_error hx)]
    | ok a =>
      rw [bind_ok hx]
      cases hf : f a s' with
      | mk o' s'' =>
        cases o' with
        | error e => rw [bind_error ((bind_ok hx).trans hf), bind_error hf]
        | ok b => rw [bind_ok ((bind_ok hx).trans hf), bind_ok hf]

theorem reads_bind (f : σ → Except ε α) (g : α → Comp σ ε β) (s : σ) :
    (reads f >>= g) s = match f s with
      | .ok a => g a s
      | .error e => (.error e, s) := by
  cases h : f s with
  | ok a => exact bind_ok (by rw [reads_run, h])
  | error e => exact bind_error (by rw [reads_run, h])

theorem ofExcept_bind (x : Except ε α) (g : α → Comp σ ε β) (s : σ) :
    (ofExcept x >>= g) s = match x with
      | .ok a => g a s
      | .error e => (.error e, s) := reads_bind (fun _ => x) g s

theorem run_of_fst (h : (x s).1 = o) :
    x s = (o, (x s).2) := Prod.ext h rfl

/-- the outcome alone, when the store it ends in does not matter -/
theorem exists_run (h : (x s).1 = o) :
    ∃ s', x s = (o, s') := ⟨(x s).2, run_of_fst h⟩

theorem bind_eq_ok {s'' : σ} :
    (x >>= f) s = (.ok b, s'') ↔ ∃ a s', x s = (.ok a, s') ∧ f a s' = (.ok b, s'') := by
  cases h : x s with
  | mk o s' =>
    cases o with
    | error e =>
      rw [bind_error h]
      refine iff_of_false (fun h => by cases h) ?_
      intro hex
      obtain ⟨a, s₁, h1, _⟩ := hex
      cases h1
    | ok a =>
      rw [bind_ok h]
      refine ⟨fun hb => ⟨a, s', rfl, hb⟩, fun hex => ?_⟩
      obtain ⟨a', s₁, h1, h2⟩ := hex
      cases h1
      exact h2

/-- a computation that ended well, behind a read -/
theorem reads_eq_ok {f : σ → Except ε α} (h : (reads f >>= g) s = (.ok b, s')) :
    ∃ a, f s = .ok a ∧ g a s = (.ok b, s') := by
  obtain ⟨a, s₁, ha, hb⟩ := bind_eq_ok.mp h
  obtain ⟨hok, rfl⟩ := Prod.mk.inj ha
  exact ⟨a, hok, hb⟩

theorem bind_eq_error {s'' : σ} :
    (x >>= f) s = (.error e, s'') ↔
      x s = (.error e, s'') ∨ ∃ a s', x s = (.ok a, s') ∧ f a s' = (.error e, s'') := by
  cases h : x s with
  | mk o s' =>
    cases o with
    | error e' =>
      rw [bind_error h]
      refine ⟨fun he => Or.inl ?_, fun hor => ?_⟩
      · cases he
        rfl
      · rcases hor with he | ⟨a, s₁, ha, _⟩
        · cases he
          rfl
        · cases ha
    | ok a =>
      rw [bind_ok h]
      refine ⟨fun hf => Or.inr ⟨a, s', rfl, hf⟩, fun hor => ?_⟩
      rcases hor with he | ⟨a', s₁, ha, hf⟩
      · cases he
      · cases ha
        exact hf

/-! ## frames -/

/-- the computation moves the store along `R`, however it ends -/
def Keeps (R : σ → σ → Prop) (x : Comp σ ε α) : Prop := ∀ s, R s (x s).2

section
variable {R : σ → σ → Prop}

/-- from one store on: the second part may use what the first one ended in -/
theorem keeps_bind_at (ht : ∀ a b c, R a b → R b c → R a c) (hx : R s (x s).2)
    (hf : ∀ a s', x s = (.ok a, s') → R s' (f a s').2) :
    R s ((x >>= f) s).2 := by
  cases h : x s with
  | mk o s' =>
    rw [h] at hx
    cases o with
    | error e =>
      rw [bind_error h]
      exact hx
    | ok a =>
      rw [bind_ok h]
      exact ht _ _ _ hx (hf a s' h)

theorem Keeps.bind (ht : ∀ a b c, R a b → R b c → R a c) (hx : Keeps R x) (hf : ∀ a, Keeps R (f a)) :
    Keeps R (x >>= f) :=
  fun s => keeps_bind_at ht (hx s) (fun a s' _ => hf a s')

/-- a run ends in its first part, or goes on behind it -/
theorem Keeps.bind_run (hx : Keeps R x) {o : Except ε β} (h : (x >>= f) s = (o, s')) :
    R s s' ∨ ∃ a s₁, R s s₁ ∧ x s = (.ok a, s₁) ∧ f a s₁ = (o, s') := by
  have hs := hx s
  cases h1 : x s with
  | mk o₁ s₁ =>
    rw [h1] at hs
    cases o₁ with
    | error e =>
      rw [bind_error h1] at h
      cases h
      exact Or.inl hs
    | ok a =>
      rw [bind_ok h1] at h
      exact Or.inr ⟨a, s₁, hs, rfl, h⟩

theorem Keeps.of_read (hr : ∀ s, R s s) (h : ∀ s, (x s).2 = s) : Keeps R x := by
  intro s
  rw [h s]
  exact hr s

theorem Keeps.pure (hr : ∀ s, R s s) (a : α) : Keeps R (Pure.pure a : Comp σ ε α) :=
  Keeps.of_read hr (fun _ => rfl)

theorem Keeps.modify {f : σ → σ} (h : ∀ s, R s (f s)) : Keeps R (modify f : Comp σ ε Unit) := h

theorem Keeps.forM (hr : ∀ s, R s s) (ht : ∀ a b c, R a b → R b c → R a c) (l : List α)
    {f : α → Comp σ ε PUnit} (hf : ∀ a ∈ l, Keeps R (f a)) : Keeps R (l.forM f) := by
  induction l with
  | nil => exact Keeps.pure hr _
  | cons a l ih =>
    exact Keeps.bind ht (hf a List.mem_cons_self) (fun _ => ih (fun b hb => hf b (List.mem_cons_of_mem _ hb)))

end

/-! ## parts of the store that are not looked at -/

/-- the computation neither looks at nor writes what `g` changes -/
def Commutes (g : σ → σ) (x : Comp σ ε α) : Prop := ∀ s, x (g s) = ((x s).1, g (x s).2)

section
variable {g : σ → σ}

theorem Commutes.bind (hx : Commutes g x) (hf : ∀ a, Commutes g (f a)) : Commutes g (x >>= f) := by
  intro s
  have h1 := hx s
  cases h : x s with
  | mk o s' =>
    rw [h] at h1
    cases o with
    | error e => rw [bind_error h, bind_error h1]
    | ok a => rw [bind_ok h, bind_ok h1, hf a s']

theorem Commutes.pure (a : α) : Commutes g (Pure.pure a : Comp σ ε α) := fun _ => rfl

/-- reading the store, and going on with a part of it that `g` does not change -/
theorem Commutes.get {f : σ → Comp σ ε β} (hg : ∀ s, f (g s) = f s) (hf : ∀ s, Commutes g (f s)) :
    Commutes g (Comp.get >>= f) := by
  intro s
  rw [bind_ok (get_run (g s)), bind_ok (get_run s), hg s, hf s s]

theorem Commutes.reads {f : σ → Except ε α} (hf : ∀ s, f (g s) = f s) :
    Commutes g (reads f : Comp σ ε α) := fun s => by rw [reads_run, reads_run, hf s]

theorem Commutes.modify {f : σ → σ} (hf : ∀ s, f (g s) = g (f s)) :
    Commutes g (modify f : Comp σ ε Unit) := fun s => by rw [modify_run, modify_run, hf s]

end

/-! ## pre- and postconditions -/

/-- from `s`, the computation ends in a result with `Q` or in an error with `R` -/
def Ends (x : Comp σ ε α) (s : σ) (Q : α → σ → Prop) (R : ε → σ → Prop) : Prop :=
  match x s with
  | (.ok a, s') => Q a s'
  | (.error e, s') => R e s'

theorem Ends.of_ok (h : x s = (.ok a, s')) (hQ : Q a s') : Ends x s Q R := by
  unfold Ends
  rw [h]
  exact hQ

theorem Ends.of_error (h : x s = (.error e, s')) (hR : R e s') : Ends x s Q R := by
  unfold Ends
  rw [h]
  exact hR

/-- how a computation ends that does not look at what `g` changes -/
theorem Commutes.ends {g : σ → σ} (hx : Commutes g x) (h : Ends x (g s) Q R) :
    Ends x s (fun a s' => Q a (g s')) (fun e s' => R e (g s')) := by
  unfold Ends at h ⊢
  rw [hx s] at h
  cases hs : x s with
  | mk o s' =>
    rw [hs] at h
    cases o with
    | ok a => exact h
    | error e => exact h

/-- a first step that is known -/
theorem Ends.after {Q : β → σ → Prop} (h : x s = (.ok a, s')) (hf : Ends (f a) s' Q R) : Ends (x >>= f) s Q R := by
  unfold Ends at hf ⊢
  rw [bind_ok h]
  exact hf

theorem Ends.bind {P : α → σ → Prop} {Q : β → σ → Prop} (hx : Ends x s P R)
    (hf : ∀ a s', P a s' → Ends (f a) s' Q R) : Ends (x >>= f) s Q R := by
  unfold Ends at hx
  cases h : x s with
  | mk o s' =>
    rw [h] at hx
    cases o with
    | error e => exact Ends.of_error (bind_error h) hx
    | ok a =>
      have hb := hf a s' hx
      unfold Ends at hb ⊢
      rw [bind_ok h]
      exact hb

/-- a part of a computation, and what comes behind it -/
theorem Ends.step {x : Comp σ ε α} {f : α → Comp σ ε β} {s : σ} {Q : β → σ → Prop} {R : ε → σ → Prop}
    (hok : ∀ a s', x s = (.ok a, s') → Ends (f a) s' Q R) (herror : ∀ e s', x s = (.error e, s') → R e s') :
    Ends (x >>= f) s Q R := by
  cases h : x s with
  | mk o s' =>
    cases o with
    | ok a => exact Ends.after h (hok a s' h)
    | error e => exact Ends.of_error (bind_error h) (herror e s' h)

theorem Ends.reads {f : σ → Except ε α} {Q : β → σ → Prop} (hok : ∀ a, f s = .ok a → Ends (g a) s Q R)
    (herror : ∀ e, R e s) : Ends (Comp.reads f >>= g) s Q R := by
  refine Ends.step (fun a s' h => ?_) fun e s' h => ?_
  · obtain ⟨ha, rfl⟩ := Prod.mk.inj h
    exact hok a ha
  · obtain ⟨-, rfl⟩ := Prod.mk.inj h
    exact herror e

theorem Ends.imp {Q' : α → σ → Prop} {R' : ε → σ → Prop} (h : Ends x s Q R) (hQ : ∀ a s', Q a s' → Q' a s')
    (hR : ∀ e s', R e s' → R' e s') :
    Ends x s Q' R' := by
  unfold Ends at h ⊢
  cases hx : x s with
  | mk o s' =>
    rw [hx] at h
    cases o with
    | error e => exact hR e s' h
    | ok a => exact hQ a s' h

/-- what both ends have in common -/
theorem Ends.store {P : σ → Prop} (h : Ends x s Q R) (hQ : ∀ a s', Q a s' → P s') (hR : ∀ e s', R e s' → P s') :
    P (x s).2 := by
  unfold Ends at h
  cases hx : x s with
  | mk o s' =>
    rw [hx] at h
    cases o with
    | error e => exact hR e s' h
    | ok a => exact hQ a s' h

/-! ## invariants and results -/

/-- the computation keeps the invariant, however it ends, and its result has the property `P` -/
def Gives (I : σ → Prop) (x : Comp σ ε α) (P : α → Prop) : Prop :=
  ∀ s, I s → Ends x s (fun a s' => I s' ∧ P a) (fun _ s' => I s')

section
variable {I : σ → Prop}
variable {P : α → Prop}

theorem Gives.bind {Q : β → Prop} (hx : Gives I x P) (hf : ∀ a, P a → Gives I (f a) Q) : Gives I (x >>= f) Q :=
  fun s hs => Ends.bind (hx s hs) fun a s' h => hf a h.2 s' h.1

theorem Gives.pure (h : P a) : Gives I (Pure.pure a : Comp σ ε α) P :=
  fun s hs => Ends.of_ok (pure_run a s) ⟨hs, h⟩

/-- what a read returns may be judged by the store that it reads -/
theorem Gives.of_read (hr : ∀ s, (x s).2 = s) (hP : ∀ s a, I s → (x s).1 = .ok a → P a) : Gives I x P := by
  intro s hs
  have h := hr s
  cases hx : x s with
  | mk o s' =>
    rw [hx] at h
    obtain rfl : s' = s := h
    cases o with
    | ok a => exact Ends.of_ok hx ⟨hs, hP s' a hs (by rw [hx])⟩
    | error e => exact Ends.of_error hx hs

/-- reading the store and going on with it -/
theorem Gives.get {f : σ → Comp σ ε β} {Q : β → Prop} (hf : ∀ s, I s → Gives I (f s) Q) :
    Gives I (Comp.get >>= f) Q := by
  intro s hs
  exact Ends.after (get_run s) (hf s hs s hs)

theorem Gives.of_keeps (h : Keeps (fun s s' => I s → I s') x) (hP : ∀ s a s', x s = (.ok a, s') → P a) :
    Gives I x P := by
  intro s hs
  have hx := h s hs
  cases h1 : x s with
  | mk o s' =>
    rw [h1] at hx
    cases o with
    | ok a => exact Ends.of_ok h1 ⟨hx, hP s a s' h1⟩
    | error e => exact Ends.of_error h1 hx

theorem Gives.keeps (h : Gives I x P) :
    Keeps (fun s s' => I s → I s') x := by
  intro s hs
  have hx := h s hs
  unfold Ends at hx
  cases h1 : x s with
  | mk o s' =>
    rw [h1] at hx
    cases o with
    | ok a => exact hx.1
    | error e => exact hx

theorem Gives.imp {Q : α → Prop} (h : Gives I x P) (hPQ : ∀ a, P a → Q a) :
    Gives I x Q := fun s hs => (h s hs).imp (fun a _ ha => ⟨ha.1, hPQ a ha.2⟩) (fun _ _ h => h)

end

/-! ## failures -/

/-- from `s`, the computation fails with an error of the kind `P` -/
def FailsIn (P : ε → Prop) (x : Comp σ ε α) (s : σ) : Prop := ∃ e s', x s = (.error e, s') ∧ P e

section
variable {P : ε → Prop}

theorem failsIn_bind :
    FailsIn P (x >>= f) s ↔ FailsIn P x s ∨ ∃ a s', x s = (.ok a, s') ∧ FailsIn P (f a) s' := by
  refine ⟨fun h => ?_, fun h => ?_⟩
  · obtain ⟨e, s'', he, hP⟩ := h
    rcases bind_eq_error.mp he with he | ⟨a, s', ha, he⟩
    · exact Or.inl ⟨e, s'', he, hP⟩
    · exact Or.inr ⟨a, s', ha, e, s'', he, hP⟩
  · rcases h with ⟨e, s'', he, hP⟩ | ⟨a, s', ha, e, s'', he, hP⟩
    · exact ⟨e, s'', bind_eq_error.mpr (Or.inl he), hP⟩
    · exact ⟨e, s'', bind_eq_error.mpr (Or.inr ⟨a, s', ha, he⟩), hP⟩

/-- the computation has no failure of the kind `P`, wherever it starts -/
def Never (P : ε → Prop) (x : Comp σ ε α) : Prop := ∀ s, ¬ FailsIn P x s

theorem Never.bind (hx : Never P x) (hf : ∀ a, Never P (f a)) :
    Never P (x >>= f) := by
  intro s h
  rcases failsIn_bind.mp h with h | ⟨a, s', _, h⟩
  · exact hx s h
  · exact hf a s' h

theorem Never.of_ok (h : ∀ s, ∃ a s', x s = (.ok a, s')) : Never P x := by
  intro s hf
  obtain ⟨e, s', he, _⟩ := hf
  obtain ⟨a, s'', ha⟩ := h s
  rw [ha] at he
  cases he

theorem Never.forM (l : List α) {f : α → Comp σ ε PUnit} (hf : ∀ a ∈ l, Never P (f a)) :
    Never P (l.forM f) := by
  induction l with
  | nil => exact Never.of_ok fun s => ⟨_, s, rfl⟩
  | cons a l ih =>
    exact Never.bind (hf a List.mem_cons_self) fun _ => ih fun b hb => hf b (List.mem_cons_of_mem _ hb)

end

end Comp
end Kv
