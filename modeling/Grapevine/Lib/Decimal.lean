import Grapevine.Lib.Bytes

/-!
# Decimal texts as keys

A table that keys its rows by the decimal text of a number compares the texts byte by byte, and not the
numbers.

* `decimal`          the digits of a number, as bytes;
* `decimal_lt_iff`   between texts of one length the byte order is the order of the numbers;
* `decimal_le_iff`   a smaller number stands before a greater one iff it is at most the number that the first
                     digits of the greater one, as many as it has, make up.
-/

namespace Kv

variable {m n : Nat}

/-- `to_string` -/
def decimal (n : Nat) : Bytes := (Nat.toDigits 10 n).map fun c => Fin.ofNat 256 c.toNat

/-- how many digits a number has -/
def digits (n : Nat) : Nat := (decimal n).length

theorem digits_eq (n : Nat) : digits n = (Nat.toDigits 10 n).length := List.length_map _

theorem digits_pos (n : Nat) : 0 < digits n := by
  rw [digits_eq]
  exact Nat.length_toDigits_pos

theorem digits_le_iff {k : Nat} (h : 0 < k) : digits n ≤ k ↔ n < 10^k := by
  rw [digits_eq]
  exact Nat.length_toDigits_le_iff (by decide) h

theorem digits_mono (h : n ≤ m) : digits n ≤ digits m := by
  rw [digits_le_iff (digits_pos m)]
  exact h.trans_lt ((digits_le_iff (digits_pos m)).mp le_rfl)

/-! ## digits -/

def digit (d : Nat) : Byte := Fin.ofNat 256 d.digitChar.toNat

theorem decimal_of_lt (h : n < 10) : decimal n = [digit n] := by
  unfold decimal
  rw [Nat.toDigits_of_lt_base h]
  rfl

theorem decimal_of_le (h : 10 ≤ n) : decimal n = decimal (n / 10) ++ [digit (n % 10)] := by
  unfold decimal
  rw [Nat.toDigits_of_base_le (by decide) h, List.map_append]
  rfl

theorem digits_of_le (h : 10 ≤ n) : digits n = digits (n / 10) + 1 := by
  unfold digits
  rw [decimal_of_le h, List.length_append]
  rfl

theorem digit_val {d : Nat} (h : d < 10) : (digit d).val = 48 + d := by
  unfold digit
  rw [Fin.val_ofNat, Nat.toNat_digitChar_of_lt_ten h]
  omega

theorem digit_lt_iff {d e : Nat} (hd : d < 10) (he : e < 10) : digit d < digit e ↔ d < e := by
  rw [Fin.lt_def, digit_val hd, digit_val he]
  omega

/-- a text begins with a digit, far below the separator -/
theorem exists_head (n : Nat) : ∃ d rest, decimal n = d :: rest ∧ d < sep := by
  induction n using Nat.strongRecOn with
  | ind n ih =>
    by_cases h : n < 10
    · refine ⟨digit n, [], decimal_of_lt h, ?_⟩
      rw [Fin.lt_def, digit_val h]
      show 48 + n < 255
      omega
    · obtain ⟨d, rest, hhead, hd⟩ := ih (n / 10) (by omega)
      refine ⟨d, rest ++ [digit (n % 10)], ?_, hd⟩
      rw [decimal_of_le (by omega), hhead]
      rfl

theorem sep_not_mem_decimal (n : Nat) : sep ∉ decimal n := by
  induction n using Nat.strongRecOn with
  | ind n ih =>
    have hdigit : ∀ d, d < 10 → sep ≠ digit d := by
      intro d hd he
      have hval := congrArg Fin.val he
      rw [digit_val hd] at hval
      have : (255 : Nat) = 48 + d := hval
      omega
    by_cases h : n < 10
    · rw [decimal_of_lt h, List.mem_singleton]
      exact hdigit n h
    · rw [decimal_of_le (by omega), List.mem_append, List.mem_singleton]
      intro hmem
      rcases hmem with hmem | hmem
      · exact ih (n / 10) (by omega) hmem
      · exact hdigit _ (Nat.mod_lt _ (by decide)) hmem

/-! ## the byte order -/

theorem append_lt_of_lt {a b : Bytes} (hlen : a.length = b.length) (h : a < b) (x y : Bytes) :
    a ++ x < b ++ y := by
  induction a generalizing b with
  | nil =>
    rw [List.length_nil] at hlen
    rw [List.eq_nil_of_length_eq_zero hlen.symm] at h
    exact absurd h (List.not_lt_nil [])
  | cons c a ih =>
    cases b with
    | nil => exact absurd h (List.not_lt_nil _)
    | cons d b =>
      rw [List.cons_append, List.cons_append, List.cons_lt_cons_iff]
      rcases List.cons_lt_cons_iff.mp h with hlt | ⟨he, hlt⟩
      · exact Or.inl hlt
      · exact Or.inr ⟨he, ih (Nat.succ.inj hlen) hlt⟩

theorem decimal_lt (hlen : digits n = digits m) (h : n < m) : decimal n < decimal m := by
  induction m using Nat.strongRecOn generalizing n with
  | ind m ih =>
    by_cases hm : m < 10
    · have hn : n < 10 := h.trans hm
      rw [decimal_of_lt hm, decimal_of_lt hn, List.cons_lt_cons_iff, digit_lt_iff hn hm]
      exact Or.inl h
    · have hten : 10 ≤ m := by omega
      have hn : 10 ≤ n := by
        by_contra hn
        have hone := (digits_le_iff (n := n) (k := 1) Nat.one_pos).mpr (by omega)
        have htwo := digits_of_le hten
        have hpos := digits_pos (m / 10)
        omega
      have hrest : digits (n / 10) = digits (m / 10) := by
        rw [digits_of_le hn, digits_of_le hten] at hlen
        exact Nat.succ.inj hlen
      rw [decimal_of_le hn, decimal_of_le hten]
      rcases (Nat.div_le_div_right (c := 10) h.le).lt_or_eq with hlt | heq
      · exact append_lt_of_lt hrest (ih (m / 10) (by omega) hrest hlt) _ _
      · rw [heq, append_lt_append_iff, List.cons_lt_cons_iff,
          digit_lt_iff (Nat.mod_lt n (by decide)) (Nat.mod_lt m (by decide))]
        exact Or.inl (by omega)

theorem decimal_lt_iff (hlen : digits n = digits m) : decimal n < decimal m ↔ n < m := by
  rcases lt_trichotomy n m with h | h | h
  · exact iff_of_true (decimal_lt hlen h) h
  · rw [h]
    exact iff_of_false (lt_irrefl _) (lt_irrefl _)
  · exact iff_of_false (decimal_lt hlen.symm h).asymm h.asymm

theorem decimal_inj (h : decimal n = decimal m) : n = m := by
  have hlen : digits n = digits m := congrArg List.length h
  rcases lt_trichotomy n m with hlt | he | hlt
  · exact absurd h (decimal_lt hlen hlt).ne
  · exact he
  · exact absurd h (decimal_lt hlen.symm hlt).ne'

/-- a number begins with the digits of what is left when its last ones are cut off -/
theorem decimal_begins {m k : Nat} (h : k < digits m) :
    digits (m / 10^k) = digits m - k ∧ decimal (m / 10^k) <+: decimal m := by
  induction k generalizing m with
  | zero =>
    rw [pow_zero, Nat.div_one]
    exact ⟨rfl, List.prefix_refl _⟩
  | succ k ih =>
    have hten : 10 ≤ m := by
      by_contra hm
      have hone := (digits_le_iff (n := m) (k := 1) Nat.one_pos).mpr (by omega)
      omega
    have hdigits := digits_of_le hten
    obtain ⟨hlen, hprefix⟩ := @ih (m / 10) (by omega)
    rw [pow_succ', ← Nat.div_div_eq_div_mul, hlen]
    refine ⟨by omega, hprefix.trans ?_⟩
    rw [decimal_of_le hten]
    exact List.prefix_append _ _

/-- the texts of two numbers, compared: the first digits of the greater one decide -/
theorem decimal_le_iff (h : n ≤ m) :
    decimal n ≤ decimal m ↔ n ≤ m / 10 ^ (digits m - digits n) := by
  have hle := digits_mono h
  have hpos := digits_pos n
  obtain ⟨hlen, rest, hrest⟩ := @decimal_begins m (digits m - digits n) (by omega)
  have hsame : digits n = digits (m / 10 ^ (digits m - digits n)) := by omega
  rw [← hrest]
  refine ⟨fun hbytes => ?_, fun hnum => ?_⟩
  · by_contra hlt
    have hgt := append_lt_of_lt hsame.symm (decimal_lt hsame.symm (not_le.mp hlt)) rest []
    rw [List.append_nil] at hgt
    exact absurd hbytes (not_le.mpr hgt)
  · have hfirst : decimal n ≤ decimal (m / 10 ^ (digits m - digits n)) := by
      rw [← not_lt, decimal_lt_iff hsame.symm]
      exact not_lt.mpr hnum
    exact hfirst.trans (prefix_le ⟨rest, rfl⟩)

end Kv
