import Mathlib.Data.List.TakeWhile
import Mathlib.Logic.Basic

/-!
# Readers of texts

A reader takes what it recognises from the front of a text, and gives back the rest.  A reader that
fails has read nothing, so that another one can be tried.

* `Local t p`   the reader `p` stops before `t`: what follows a text there changes nothing;
* `Leaves p`    what `p` gives back is an end of the text;
* `number`      digits of a radix, as many as there are.
-/

namespace Kv

abbrev Reader (α : Type) := List Char → Option (α × List Char)

namespace Reader

variable {s : List Char} {c : Char}

section
variable {α β : Type}
variable {r : List Char} {a : α}

def ret (a : α) : Reader α := fun s => some (a, s)

def andThen (p : Reader α) (q : α → Reader β) : Reader β := fun s => (p s).bind fun x => q x.1 x.2

def orElse (p q : Reader α) : Reader α := fun s =>
  match p s with
  | some x => some x
  | none => q s

def map (f : α → β) (p : Reader α) : Reader β := fun s => (p s).map fun x => (f x.1, x.2)

def char (c : Char) : Reader Unit := fun s =>
  match s with
  | a :: s => if a = c then some ((), s) else none
  | [] => none

/-- the whole text -/
def all (p : Reader α) (s : List Char) : Option α :=
  match p s with
  | some (a, []) => some a
  | _ => none

theorem all_eq {p : Reader α} : p.all s = some a ↔ p s = some (a, []) := by
  unfold all
  split
  · next b h => rw [h, Option.some.injEq, Option.some.injEq, Prod.mk.injEq, and_iff_left rfl]
  · next h => exact iff_of_false nofun fun ha => h a ha

theorem all_of_none {p : Reader α} (h : p s = none) : p.all s = none := by
  unfold all
  rw [h]

theorem all_of_rest {p : Reader α} (h : p s = some (a, c :: r)) :
    p.all s = none := by
  unfold all
  rw [h]

theorem andThen_of_none {p : Reader α} {q : α → Reader β} (h : p s = none) :
    p.andThen q s = none := by
  unfold andThen
  rw [h, Option.bind_none]

theorem andThen_of_some {p : Reader α} {q : α → Reader β} (h : p s = some (a, r)) :
    p.andThen q s = q a r := by
  unfold andThen
  rw [h, Option.bind_some]

theorem orElse_of_none {p q : Reader α} (h : p s = none) : p.orElse q s = q s := by
  unfold orElse
  rw [h]

theorem orElse_none {p q : Reader α} (h : q s = none) : p.orElse q s = p s := by
  unfold orElse
  rw [h]
  cases p s <;> rfl

theorem char_self (c : Char) (s : List Char) : char c (c :: s) = some ((), s) := if_pos rfl

theorem char_of_ne {a : Char} (h : a ≠ c) (s : List Char) : char c (a :: s) = none := if_neg h

/-! ## what follows a text -/

def Local (t : List Char) (p : Reader α) : Prop := ∀ s, p (s ++ t) = (p s).map fun x => (x.1, x.2 ++ t)

variable {t : List Char} {p q : Reader α}

theorem local_ret (a : α) : Local t (ret a) := fun _ => rfl

theorem Local.andThen (hp : Local t p) {q : α → Reader β} (hq : ∀ a, Local t (q a)) : Local t (p.andThen q) := by
  intro s
  unfold Reader.andThen
  rw [hp]
  cases p s with
  | none => rfl
  | some x => exact hq x.1 x.2

theorem Local.orElse (hp : Local t p) (hq : Local t q) : Local t (p.orElse q) := by
  intro s
  unfold Reader.orElse
  rw [hp]
  cases p s with
  | none => exact hq s
  | some x => rfl

theorem Local.map (hp : Local t p) (f : α → β) : Local t (p.map f) := by
  intro s
  unfold Reader.map
  rw [hp]
  cases p s <;> rfl

theorem local_char (h : t.head? ≠ some c) : Local t (char c) := by
  intro s
  cases s with
  | nil =>
    cases t with
    | nil => rfl
    | cons a t => exact if_neg fun ha => h (congrArg some ha)
  | cons a s =>
    show (if a = c then some ((), s ++ t) else none) = (if a = c then some ((), s) else none).map _
    split <;> rfl

/-! ## what is left -/

def Leaves (p : Reader α) : Prop := ∀ s a r, p s = some (a, r) → r <:+ s

theorem leaves_ret (a : α) : Leaves (ret a) := by
  rintro s b r h
  cases h
  exact List.suffix_refl s

theorem Leaves.andThen (hp : Leaves p) {q : α → Reader β} (hq : ∀ a, Leaves (q a)) : Leaves (p.andThen q) := by
  intro s b r h
  obtain ⟨x, hx, h⟩ := Option.bind_eq_some_iff.mp h
  exact (hq x.1 x.2 b r h).trans (hp s x.1 x.2 hx)

theorem Leaves.map (hp : Leaves p) (f : α → β) : Leaves (p.map f) := by
  intro s b r h
  obtain ⟨x, hx, h⟩ := Option.map_eq_some_iff.mp h
  cases h
  exact hp s x.1 x.2 hx

theorem char_eq {u : Unit} (h : char c s = some (u, r)) : s = c :: r := by
  cases s with
  | nil => cases h
  | cons a s =>
    change (if a = c then some ((), s) else none) = some (u, r) at h
    split at h
    · next ha =>
      cases h
      rw [ha]
    · cases h

theorem leaves_char (c : Char) : Leaves (char c) := by
  intro s u r h
  rw [char_eq h]
  exact List.suffix_cons c r

end

/-! ## numbers -/

/-- `to_digit` -/
def digitOf (radix : Nat) (c : Char) : Option Nat :=
  let v := if '0' ≤ c ∧ c ≤ '9' then c.toNat - 48
    else if 'a' ≤ c ∧ c ≤ 'z' then c.toNat - 87
    else if 'A' ≤ c ∧ c ≤ 'Z' then c.toNat - 55
    else 36
  if v < radix then some v else none

def isDigit (radix : Nat) (c : Char) : Bool := (digitOf radix c).isSome

def value (radix : Nat) (digits : List Char) : Nat :=
  digits.foldl (fun n c => n * radix + (digitOf radix c).getD 0) 0

/-- `read_number`, of a type with `w` values -/
def number (radix : Nat) (maxDigits : Option Nat) (zeroPrefix : Bool) (w : Nat) : Reader (Fin w) := fun s =>
  let digits := s.takeWhile (isDigit radix)
  if h : value radix digits < w then
    if digits = [] ∨ maxDigits.any (· < digits.length) ∨
      (zeroPrefix = false ∧ digits.head? = some '0' ∧ 1 < digits.length) then none
    else some (⟨value radix digits, h⟩, s.dropWhile (isDigit radix))
  else none

section
variable {radix : Nat} {t : List Char}
variable {maxDigits : Option Nat} {zeroPrefix : Bool} {w : Nat}

theorem takeWhile_append {f : Char → Bool} (h : ∀ c, t.head? = some c → f c = false) (s : List Char) :
    (s ++ t).takeWhile f = s.takeWhile f ∧ (s ++ t).dropWhile f = s.dropWhile f ++ t := by
  induction s with
  | nil =>
    cases t with
    | nil => exact ⟨rfl, rfl⟩
    | cons c t =>
      have hc := h c rfl
      exact ⟨List.takeWhile_cons_of_neg (by simp [hc]), List.dropWhile_cons_of_neg (by simp [hc])⟩
  | cons a s ih =>
    rw [List.cons_append]
    cases ha : f a with
    | true =>
      rw [List.takeWhile_cons_of_pos ha, List.takeWhile_cons_of_pos ha, List.dropWhile_cons_of_pos ha,
        List.dropWhile_cons_of_pos ha, ih.1]
      exact ⟨rfl, ih.2⟩
    | false =>
      rw [List.takeWhile_cons_of_neg (by simp [ha]), List.takeWhile_cons_of_neg (by simp [ha]),
        List.dropWhile_cons_of_neg (by simp [ha]), List.dropWhile_cons_of_neg (by simp [ha])]
      exact ⟨rfl, rfl⟩

theorem local_number (h : ∀ c, t.head? = some c → isDigit radix c = false) :
    Local t (number radix maxDigits zeroPrefix w) := by
  intro s
  obtain ⟨htake, hdrop⟩ := takeWhile_append h s
  unfold number
  simp only [htake, hdrop]
  split
  · split <;> rfl
  · rfl

theorem leaves_number :
    Leaves (number radix maxDigits zeroPrefix w) := by
  intro s a r h
  unfold number at h
  dsimp only at h
  split at h
  · split at h
    · cases h
    · cases h
      exact List.dropWhile_suffix _
  · cases h

theorem number_of_head (h : isDigit radix c = false) : number radix maxDigits zeroPrefix w (c :: s) = none := by
  unfold number
  dsimp only
  rw [List.takeWhile_cons_of_neg (by simp [h])]
  split
  · exact if_pos (Or.inl rfl)
  · rfl

/-- all of the text are digits -/
theorem number_all (hne : s ≠ []) (h : ∀ c ∈ s, isDigit radix c = true) :
    number radix none true w s = if h : value radix s < w then some (⟨value radix s, h⟩, []) else none := by
  have htake : s.takeWhile (isDigit radix) = s := List.takeWhile_eq_self_iff.mpr h
  have hdrop : s.dropWhile (isDigit radix) = [] := List.dropWhile_eq_nil_iff.mpr h
  unfold number
  simp only [htake, hdrop]
  refine dite_congr rfl (fun hlt => if_neg ?_) fun _ => rfl
  rintro (hnil | hmax | ⟨hzero, _⟩)
  · exact hne hnil
  · cases hmax
  · cases hzero

end
end Reader
end Kv
