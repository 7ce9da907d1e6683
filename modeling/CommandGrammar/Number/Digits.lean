/-!
# Decimal digits

Natural numbers as runs of the digits `0` to `9`, most significant first. `value_ofNat` says that a
number is read back from its digits.
-/

namespace CommandGrammar.Digits

def digit (d : Nat) : Char := Char.ofNat (48 + d)

def weight (c : Char) : Nat := c.toNat - 48

/-- The number that a run of digits spells. -/
def value (digits : List Char) : Nat := digits.foldl (fun n c => 10 * n + weight c) 0

/-- The digits of a number, without leading zeros. -/
def ofNat (n : Nat) : List Char :=
  if n < 10 then [digit n] else ofNat (n / 10) ++ [digit (n % 10)]

/-- The digits of an integer behind a minus sign if it is negative. -/
def ofInt : Int → List Char
  | .ofNat n => ofNat n
  | .negSucc n => '-' :: ofNat (n + 1)

theorem value_append_singleton (digits : List Char) (c : Char) :
    value (digits ++ [c]) = 10 * value digits + weight c := by
  simp [value, List.foldl_append]

theorem weight_digit {d : Nat} (h : d < 10) : weight (digit d) = d := by
  have : ∀ d : Fin 10, weight (digit d) = d := by decide
  exact this ⟨d, h⟩

theorem isDigit_digit {d : Nat} (h : d < 10) : (digit d).isDigit = true := by
  have : ∀ d : Fin 10, (digit d).isDigit = true := by decide
  exact this ⟨d, h⟩

@[simp] theorem value_ofNat (n : Nat) : value (ofNat n) = n := by
  induction n using ofNat.induct with
  | case1 n h => rw [ofNat, if_pos h]; simp [value, weight_digit h]
  | case2 n h ih =>
    rw [ofNat, if_neg h, value_append_singleton, ih, weight_digit (Nat.mod_lt _ (by decide))]
    omega

theorem isDigit_of_mem_ofNat {n : Nat} {c : Char} (h : c ∈ ofNat n) : c.isDigit = true := by
  induction n using ofNat.induct with
  | case1 n hn =>
    rw [ofNat, if_pos hn, List.mem_singleton] at h
    exact h ▸ isDigit_digit hn
  | case2 n hn ih =>
    rw [ofNat, if_neg hn, List.mem_append, List.mem_singleton] at h
    exact h.elim ih fun h => h ▸ isDigit_digit (Nat.mod_lt _ (by decide))

theorem ofNat_ne_nil (n : Nat) : ofNat n ≠ [] := by
  rw [ofNat]
  split <;> simp

end CommandGrammar.Digits
