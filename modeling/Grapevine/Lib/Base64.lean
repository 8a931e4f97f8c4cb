import Grapevine.Lib.Bytes
import Mathlib.Tactic.IntervalCases

/-!
# Base64 without padding

Three bytes are written as four digits of six bits each, in the alphabet that is safe in URLs.  What is
left at the end, one byte or two, is filled up with zero bits.

Main result: `encode_inj`.
-/

namespace Kv

namespace Base64

/-! ## digits -/

/-- the digit of a number below 64 -/
def digit (n : Nat) : Char :=
  if n < 26 then Char.ofNat (65 + n)
  else if n < 52 then Char.ofNat (71 + n)
  else if n < 62 then Char.ofNat (n - 4)
  else if n = 62 then '-'
  else '_'

def value (c : Char) : Nat :=
  if c = '-' then 62
  else if c = '_' then 63
  else if c.toNat < 58 then c.toNat + 4
  else if c.toNat < 91 then c.toNat - 65
  else c.toNat - 71

theorem value_digit : ∀ n < 64, value (digit n) = n := by decide

theorem digit_inj {n m : Nat} (hn : n < 64) (hm : m < 64) (h : digit n = digit m) : n = m := by
  rw [← value_digit n hn, h, value_digit m hm]

/-! ## groups -/

/-- the digit of the six bits of `n` from the given place on -/
def digitAt (n place : Nat) : Char := digit (n / 64^place % 64)

theorem digitAt_inj {n m place : Nat} (h : digitAt n place = digitAt m place) :
    n / 64^place % 64 = m / 64^place % 64 :=
  digit_inj (Nat.mod_lt _ (by norm_num)) (Nat.mod_lt _ (by norm_num)) h

def encode : Bytes → List Char
  | a :: b :: c :: rest =>
    let n := (a.val * 256 + b.val) * 256 + c.val
    digitAt n 3 :: digitAt n 2 :: digitAt n 1 :: digitAt n 0 :: encode rest
  | [a, b] =>
    let n := (a.val * 256 + b.val) * 4
    [digitAt n 2, digitAt n 1, digitAt n 0]
  | [a] =>
    let n := a.val * 16
    [digitAt n 1, digitAt n 0]
  | [] => []

example : encode [77, 97, 110, 255, 239] = ['T', 'W', 'F', 'u', '_', '-', '8'] := by decide

/-- a number is determined by its digits -/
theorem digits_inj {k n m : Nat} (hn : n < 64^k) (hm : m < 64^k)
    (h : ∀ place < k, digitAt n place = digitAt m place) : n = m := by
  induction k generalizing n m with
  | zero =>
    rw [pow_zero] at hn hm
    omega
  | succ k ih =>
    have hshift : ∀ place < k, digitAt (n / 64) place = digitAt (m / 64) place := by
      intro place hplace
      have hnext := h (place + 1) (by omega)
      unfold digitAt at hnext ⊢
      rw [pow_succ'] at hnext
      rw [Nat.div_div_eq_div_mul, Nat.div_div_eq_div_mul]
      exact hnext
    have hrest := ih (Nat.div_lt_of_lt_mul (by rwa [pow_succ'] at hn)) (Nat.div_lt_of_lt_mul (by rwa [pow_succ'] at hm))
      hshift
    have hlast := digitAt_inj (h 0 (Nat.succ_pos k))
    rw [pow_zero, Nat.div_one, Nat.div_one] at hlast
    omega

/-- the two texts have the same number of digits, so their bytes fall into the same groups -/
theorem encode_inj (l m : Bytes) (h : encode l = encode m) : l = m := by
  induction l using encode.induct generalizing m with
  | case1 a b c rest ih =>
    match m with
    | a' :: b' :: c' :: rest' =>
      simp only [encode, List.cons.injEq] at h
      obtain ⟨h3, h2, h1, h0, hrest⟩ := h
      have ha := a.isLt
      have hb := b.isLt
      have hc := c.isLt
      have ha' := a'.isLt
      have hb' := b'.isLt
      have hc' := c'.isLt
      have hn : (a.val * 256 + b.val) * 256 + c.val = (a'.val * 256 + b'.val) * 256 + c'.val := by
        refine digits_inj (k := 4) (by norm_num; omega) (by norm_num; omega) fun place hplace => ?_
        interval_cases place <;> assumption
      rw [ih rest' hrest, Fin.ext (show a.val = a'.val by omega), Fin.ext (show b.val = b'.val by omega),
        Fin.ext (show c.val = c'.val by omega)]
    | [a', b'] => simp [encode] at h
    | [a'] => simp [encode] at h
    | [] => simp [encode] at h
  | case2 a b =>
    match m with
    | a' :: b' :: c' :: rest' => simp [encode] at h
    | [a', b'] =>
      simp only [encode, List.cons.injEq, and_true] at h
      obtain ⟨h2, h1, h0⟩ := h
      have ha := a.isLt
      have hb := b.isLt
      have ha' := a'.isLt
      have hb' := b'.isLt
      have hn : (a.val * 256 + b.val) * 4 = (a'.val * 256 + b'.val) * 4 := by
        refine digits_inj (k := 3) (by norm_num; omega) (by norm_num; omega) fun place hplace => ?_
        interval_cases place <;> assumption
      rw [Fin.ext (show a.val = a'.val by omega), Fin.ext (show b.val = b'.val by omega)]
    | [a'] => simp [encode] at h
    | [] => simp [encode] at h
  | case3 a =>
    match m with
    | a' :: b' :: c' :: rest' => simp [encode] at h
    | [a', b'] => simp [encode] at h
    | [a'] =>
      simp only [encode, List.cons.injEq, and_true] at h
      obtain ⟨h1, h0⟩ := h
      have ha := a.isLt
      have ha' := a'.isLt
      have hn : a.val * 16 = a'.val * 16 := by
        refine digits_inj (k := 2) (by norm_num; omega) (by norm_num; omega) fun place hplace => ?_
        interval_cases place <;> assumption
      rw [Fin.ext (show a.val = a'.val by omega)]
    | [] => simp [encode] at h
  | case4 =>
    match m with
    | a' :: b' :: c' :: rest' => simp [encode] at h
    | [a', b'] => simp [encode] at h
    | [a'] => simp [encode] at h
    | [] => rfl

end Base64

end Kv
