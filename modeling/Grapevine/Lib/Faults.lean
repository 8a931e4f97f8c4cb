import Grapevine.Lib.Comp

/-!
# Operations that fail

A computation over a store, with a counter of the operations that it has tried.  A plan says which operations
fail, by their number and their kind; the computation stops at the first one that does.

* `attempt`    an operation of the store, which the plan may fail;
* `lift`       a part of the computation that is no operation of the store;
* `Mirrors`    the computation runs as one without failures does, or stops in a store of which `stop` holds;
* `attempts`   a list of operations, one after the other; all of them are performed if the plan
               spares them (`Spares`), and else those before the first one that fails.
-/

namespace Kv
namespace Comp

variable {σ ε α β op : Type}

def lift (x : Comp σ ε α) : Comp (σ × Nat) ε α := fun s => ((x s.1).1, ((x s.1).2, s.2))

def attempt (fails : Nat → op → Bool) (e : ε) (o : op) (x : Comp σ ε α) : Comp (σ × Nat) ε α := fun s =>
  if fails s.2 o then (.error e, (s.1, s.2 + 1)) else ((x s.1).1, ((x s.1).2, s.2 + 1))

/-- the computation from its first operation on, with the store alone -/
def fromFirst (x : Comp (σ × Nat) ε α) : Comp σ ε α := fun s => ((x (s, 0)).1, (x (s, 0)).2.1)

def Mirrors (stop : σ → Prop) (x : Comp (σ × Nat) ε α) (y : Comp σ ε α) (s : σ) : Prop :=
  ∀ n, (∃ n', x (s, n) = ((y s).1, ((y s).2, n'))) ∨ ∃ e s' n', x (s, n) = (.error e, (s', n')) ∧ stop s'

section
variable {stop : σ → Prop} {s : σ}
variable {x : Comp (σ × Nat) ε α} {y : Comp σ ε α}

theorem Mirrors.lift (x : Comp σ ε α) : Mirrors stop (lift x) x s := fun n => .inl ⟨n, rfl⟩

theorem Mirrors.pure (a : α) : Mirrors stop (Pure.pure a : Comp (σ × Nat) ε α) (Pure.pure a) s :=
  fun n => .inl ⟨n, rfl⟩

theorem Mirrors.throw (e : ε) : Mirrors stop (throw e : Comp (σ × Nat) ε α) (throw e) s := fun n => .inl ⟨n, rfl⟩

theorem Mirrors.expect (o : Option α) (e : ε) :
    Mirrors stop (expect o e : Comp (σ × Nat) ε α) (expect o e) s := by
  cases o with
  | some a => exact fun n => .inl ⟨n, rfl⟩
  | none => exact fun n => .inl ⟨n, rfl⟩

/-- an operation stops before it has touched the store -/
theorem Mirrors.attempt (fails : Nat → op → Bool) (e : ε) (o : op) (x : Comp σ ε α) (hs : stop s) :
    Mirrors stop (attempt fails e o x) x s := by
  intro n
  by_cases hf : fails n o = true
  · exact .inr ⟨e, s, n + 1, if_pos hf, hs⟩
  · exact .inl ⟨n + 1, if_neg hf⟩

/-- an operation that the plan spares -/
theorem Mirrors.attempt_of_spared {fails : Nat → op → Bool} {o : op} (hf : ∀ n, fails n o = false) (e : ε)
    (x : Comp σ ε α) : Mirrors stop (Comp.attempt fails e o x) x s :=
  fun n => .inl ⟨n + 1, if_neg (by rw [hf n]; exact Bool.false_ne_true)⟩

theorem Mirrors.bind {f : α → Comp (σ × Nat) ε β} {g : α → Comp σ ε β} (hx : Mirrors stop x y s)
    (hf : ∀ a s', y s = (.ok a, s') → Mirrors stop (f a) (g a) s') : Mirrors stop (x >>= f) (y >>= g) s := by
  intro n
  rcases hx n with ⟨n', hn⟩ | ⟨e, s', n', hn, hstop⟩
  · cases hy : y s with
    | mk o s' =>
      rw [hy] at hn
      cases o with
      | error e =>
        rw [bind_error hn, bind_error hy]
        exact .inl ⟨n', rfl⟩
      | ok a =>
        rw [bind_ok hn, bind_ok hy]
        exact hf a s' hy n'
  · exact .inr ⟨e, s', n', bind_error hn, hstop⟩

theorem Mirrors.imp {stop' : σ → Prop} (h : Mirrors stop x y s) (hstop : ∀ s', stop s' → stop' s') :
    Mirrors stop' x y s := fun n =>
  (h n).imp_right fun ⟨e, s', n', hn, hs⟩ => ⟨e, s', n', hn, hstop s' hs⟩

/-- what the computation without failures ends in, or a store where it stopped -/
theorem Mirrors.ends {Q : α → σ → Prop} {R : ε → σ → Prop} (h : Mirrors stop x y s) (hy : Ends y s Q R)
    (hstop : ∀ e s', stop s' → R e s') :
    Ends (fromFirst x) s Q R := by
  rcases h 0 with ⟨n', hn⟩ | ⟨e, s', n', hn, hs⟩
  · have hrun : fromFirst x s = y s := by
      unfold fromFirst
      rw [hn]
    unfold Ends at hy ⊢
    rw [hrun]
    exact hy
  · have hrun : fromFirst x s = (.error e, s') := by
      unfold fromFirst
      rw [hn]
    exact Ends.of_error hrun (hstop e s' hs)

/-- where nothing stops, the two run alike -/
theorem Mirrors.run_eq (h : Mirrors (fun _ => False) x y s) :
    fromFirst x s = y s := by
  rcases h 0 with ⟨n', hn⟩ | ⟨_, _, _, _, hs⟩
  · unfold fromFirst
    rw [hn]
  · exact hs.elim

end

/-! ## lists of operations -/

section
variable (fails : Nat → op → Bool)

/-- the plan fails none of the operations, which are tried from number `n` on -/
def Spares (n : Nat) (ops : List op) : Prop := ∀ i o, ops[i]? = some o → fails (n + i) o = false

theorem spares_nil (n : Nat) : Spares fails n [] := by
  intro i o h
  cases h

theorem spares_cons (n : Nat) (o : op) (ops : List op) :
    Spares fails n (o :: ops) ↔ fails n o = false ∧ Spares fails (n + 1) ops := by
  refine ⟨fun h => ⟨h 0 o rfl, fun i o' hi => ?_⟩, fun h i o' hi => ?_⟩
  · have hnext := h (i + 1) o' hi
    rwa [show n + (i + 1) = n + 1 + i by omega] at hnext
  · cases i with
    | zero =>
      cases hi
      exact h.1
    | succ i =>
      rw [show n + (i + 1) = n + 1 + i by omega]
      exact h.2 i o' hi

variable (e : ε) (perform : σ → op → σ)

def attempts : List op → Comp (σ × Nat) ε Unit
  | [] => Pure.pure ()
  | o :: ops => do
    attempt fails e o (modify (perform · o))
    attempts ops

theorem attempts_append (ops ops' : List op) :
    attempts fails e perform (ops ++ ops')
      = attempts fails e perform ops >>= fun _ => attempts fails e perform ops' := by
  induction ops with
  | nil => rfl
  | cons o ops ih =>
    show (attempt fails e o (modify (perform · o)) >>= fun _ => attempts fails e perform (ops ++ ops')) = _
    rw [ih, attempts, bind_assoc]

theorem attempts_spared {ops : List op} {s : σ} {n : Nat} (h : Spares fails n ops) :
    attempts fails e perform ops (s, n) = (.ok (), (ops.foldl perform s, n + ops.length)) := by
  induction ops generalizing s n with
  | nil => rfl
  | cons o ops ih =>
    obtain ⟨ho, hops⟩ := (spares_cons fails n o ops).mp h
    have hrun : attempt fails e o (modify (perform · o) : Comp σ ε Unit) (s, n) = (.ok (), (perform s o, n + 1)) :=
      if_neg (by rw [ho]; exact Bool.false_ne_true)
    unfold attempts
    rw [bind_ok hrun, ih hops, List.length_cons, show n + (ops.length + 1) = n + 1 + ops.length by omega]
    rfl

theorem attempts_failed {ops : List op} {s : σ} {n : Nat} (h : ¬ Spares fails n ops) :
    ∃ k, attempts fails e perform ops (s, n) = (.error e, ((ops.take k).foldl perform s, n + k + 1)) := by
  induction ops generalizing s n with
  | nil => exact absurd (spares_nil fails n) h
  | cons o ops ih =>
    unfold attempts
    by_cases ho : fails n o = true
    · have hrun : attempt fails e o (modify (perform · o) : Comp σ ε Unit) (s, n) = (.error e, (s, n + 1)) :=
        if_pos ho
      exact ⟨0, bind_error hrun⟩
    · have hrun : attempt fails e o (modify (perform · o) : Comp σ ε Unit) (s, n)
          = (.ok (), (perform s o, n + 1)) := if_neg ho
      have hops : ¬ Spares fails (n + 1) ops := fun hops =>
        h ((spares_cons fails n o ops).mpr ⟨Bool.not_eq_true _ ▸ ho, hops⟩)
      obtain ⟨k, hk⟩ := @ih (perform s o) (n + 1) hops
      refine ⟨k + 1, ?_⟩
      rw [bind_ok hrun, hk, show n + (k + 1) + 1 = n + 1 + k + 1 by omega]
      rfl

end

end Comp
end Kv
