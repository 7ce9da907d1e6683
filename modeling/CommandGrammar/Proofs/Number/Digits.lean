import CommandGrammar.Number.Digits
import Mathlib.Data.Nat.Digits.Defs
import Mathlib.Tactic.Linarith
import Mathlib.Tactic.Ring

/-!
# What digits spell

Digits spell the number that they are the base ten digits of. More digits behind them shift it, zeros
in front of them do not count.
-/

namespace CommandGrammar.Digits

theorem foldl_weight (digits : List Char) (n : Nat) :
    digits.foldl (fun n c => 10 * n + weight c) n = n * 10 ^ digits.length + value digits := by
  induction digits generalizing n with
  | nil => simp [value]
  | cons c digits ih =>
      rw [value, List.foldl_cons, List.foldl_cons, ih, ih (10 * 0 + weight c), List.length_cons]
      ring

theorem value_append (left right : List Char) :
    value (left ++ right) = value left * 10 ^ right.length + value right := by
  rw [value, List.foldl_append, foldl_weight]
  rfl

theorem value_cons (c : Char) (digits : List Char) :
    value (c :: digits) = weight c * 10 ^ digits.length + value digits := by
  rw [value, List.foldl_cons, foldl_weight, Nat.mul_zero, Nat.zero_add]

/-- The value of digits, least significant first, is that of the number with these digits. -/
theorem value_eq_ofDigits (digits : List Char) :
    value digits = Nat.ofDigits 10 (digits.reverse.map weight) := by
  induction digits with
  | nil => rfl
  | cons c digits ih =>
      rw [value_cons, ih, List.reverse_cons, List.map_append, Nat.ofDigits_append, List.length_map,
        List.length_reverse, List.map_singleton, Nat.ofDigits_singleton]
      ring

theorem weight_lt_ten {c : Char} (hc : c.isDigit = true) : weight c < 10 := by
  simp only [Char.isDigit, Bool.and_eq_true, decide_eq_true_eq, ge_iff_le,
    UInt32.le_iff_toNat_le] at hc
  have hupper : c.toNat ≤ 57 := hc.2
  rw [weight]
  omega

theorem digit_weight {c : Char} (hc : c.isDigit = true) : digit (weight c) = c := by
  simp only [Char.isDigit, Bool.and_eq_true, decide_eq_true_eq, ge_iff_le,
    UInt32.le_iff_toNat_le] at hc
  have hlower : 48 ≤ c.toNat := hc.1
  rw [digit, weight, Nat.add_sub_cancel' hlower, Char.ofNat_toNat]

theorem digit_eq_digitChar {d : Nat} (hd : d < 10) : digit d = d.digitChar := by
  have hall : ∀ d : Fin 10, digit d = d.val.digitChar := by decide
  exact hall ⟨d, hd⟩

theorem value_lt {digits : List Char} (h : ∀ c ∈ digits, c.isDigit = true) :
    value digits < 10 ^ digits.length := by
  induction digits with
  | nil => exact Nat.one_pos
  | cons c digits ih =>
      have hc := weight_lt_ten (h c List.mem_cons_self)
      have hrest := ih fun d hd => h d (List.mem_cons_of_mem c hd)
      rw [value_cons, List.length_cons, Nat.pow_succ]
      nlinarith

theorem value_replicate (n : Nat) : value (List.replicate n '0') = 0 := by
  induction n with
  | zero => rfl
  | succ n ih =>
      rw [List.replicate_succ, value_cons, ih]
      exact Nat.zero_mul _

/-- Without zeros in front there are no more digits than the number needs. -/
theorem pow_length_le {n : Nat} (hn : 0 < n) : 10 ^ ((ofNat n).length - 1) ≤ n := by
  induction n using ofNat.induct with
  | case1 n hlt =>
      rw [ofNat, if_pos hlt]
      exact hn
  | case2 n hge ih =>
      have hdigits := List.length_pos_iff.mpr (ofNat_ne_nil (n / 10))
      have hrest := ih (by omega)
      obtain ⟨count, hcount⟩ := Nat.exists_eq_add_of_lt hdigits
      rw [ofNat, if_neg hge, List.length_append, List.length_singleton, Nat.add_sub_cancel]
      rw [hcount, Nat.zero_add, Nat.add_sub_cancel] at hrest
      rw [hcount, Nat.zero_add, Nat.pow_succ]
      omega

/-! ### The texts of the library -/

theorem ofNat_eq_toDigits (n : Nat) : ofNat n = Nat.toDigits 10 n := by
  induction n using ofNat.induct with
  | case1 n hlt => rw [ofNat, if_pos hlt, Nat.toDigits_of_lt_base hlt, digit_eq_digitChar hlt]
  | case2 n hge ih =>
      rw [ofNat, if_neg hge, ih, Nat.toDigits_of_base_le (by decide) (Nat.not_lt.mp hge),
        digit_eq_digitChar (Nat.mod_lt n (by decide))]

theorem ofInt_eq_toString (n : Int) : String.ofList (ofInt n) = toString n := by
  apply String.toList_inj.mp
  cases n <;> simp [ofInt, ofNat_eq_toDigits, Int.repr]

end CommandGrammar.Digits
