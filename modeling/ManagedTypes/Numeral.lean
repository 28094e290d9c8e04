/-! Positional numerals: the digits of a natural number, most significant first, and their value. -/
namespace ManagedTypes.Numeral

/-- No leading zero, and `[0]` for zero. -/
def digits (base n : Nat) : List Nat :=
  if _h : 2 ≤ base ∧ base ≤ n then digits base (n / base) ++ [n % base] else [n]
termination_by n
decreasing_by exact Nat.div_lt_self (by omega) (by omega)

def value (base : Nat) (ds : List Nat) : Nat := ds.foldl (fun n d => n * base + d) 0

/-- How many decimal digits `n` has; zero has none. -/
def length10 (n : Nat) : Nat := if n = 0 then 0 else (digits 10 n).length

def padded (width : Nat) (ds : List Nat) : List Nat := List.replicate (width - ds.length) 0 ++ ds

def lowerChar (d : Nat) : Char := Nat.digitChar d
def upperChar (d : Nat) : Char := (Nat.digitChar d).toUpper

/-- The value of a decimal digit character. -/
def digitValue (c : Char) : Nat := c.toNat - '0'.toNat

def chars (n : Nat) : List Char := (digits 10 n).map lowerChar
def text (n : Nat) : String := String.ofList (chars n)

def intChars (v : Int) : List Char := if v < 0 then '-' :: chars v.natAbs else chars v.natAbs
def intText (v : Int) : String := String.ofList (intChars v)

theorem digits_of_lt {base n : Nat} (h : n < base) : digits base n = [n] := by
  rw [digits, dif_neg (by omega)]

theorem digits_of_le {base n : Nat} (hb : 2 ≤ base) (h : base ≤ n) :
    digits base n = digits base (n / base) ++ [n % base] := by
  rw [digits, dif_pos ⟨hb, h⟩]

theorem value_append_one (base : Nat) (ds : List Nat) (d : Nat) :
    value base (ds ++ [d]) = value base ds * base + d := by
  simp [value]

theorem value_digits (base n : Nat) : value base (digits base n) = n := by
  rw [digits]
  split
  · rw [value_append_one, value_digits base (n / base), Nat.mul_comm]
    exact Nat.div_add_mod n base
  · simp [value]
termination_by n
decreasing_by exact Nat.div_lt_self (by omega) (by omega)

theorem digits_ne_nil (base n : Nat) : digits base n ≠ [] := by
  rw [digits]; split <;> simp

theorem digits_lt {base n : Nat} (hb : 2 ≤ base) : ∀ d ∈ digits base n, d < base := by
  rw [digits]
  split
  · intro d hd
    rcases List.mem_append.1 hd with hd | hd
    · exact digits_lt (n := n / base) hb d hd
    · simp only [List.mem_singleton] at hd
      exact hd ▸ Nat.mod_lt _ (by omega)
  · intro d hd
    simp only [List.mem_singleton] at hd
    omega
termination_by n
decreasing_by exact Nat.div_lt_self (by omega) (by omega)

end ManagedTypes.Numeral
