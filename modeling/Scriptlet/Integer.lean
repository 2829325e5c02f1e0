/-!
# Exact 64-bit integers

The integers of the language are the signed 64-bit ones, and no operation on them ever wraps: a
result is either the mathematical one or there is none. All arithmetic goes through
`Integer.ofInt?`, which takes the mathematical result and keeps it if it fits.

Main statement: `ofInt?_eq_some_iff`, by which `ofInt?` gives an integer exactly when that
integer *is* the result.
-/

namespace Scriptlet

/-- A signed 64-bit integer. -/
abbrev Integer := Int64

namespace Integer

/-- The integer `r`, if 64 bits hold it. -/
def ofInt? (r : Int) : Option Integer :=
  if Int64.minValue.toInt ≤ r ∧ r ≤ Int64.maxValue.toInt then some (Int64.ofInt r) else none

/-- Nothing wraps: what `ofInt?` gives is the number it was given. -/
theorem ofInt?_eq_some_iff {r : Int} {n : Integer} : ofInt? r = some n ↔ n.toInt = r := by
  unfold ofInt?
  constructor
  · split
    · rename_i h
      intro hn; injection hn with hn; subst hn
      exact Int64.toInt_ofInt_of_le h.1 (Int.lt_of_le_sub_one h.2)
    · simp
  · rintro rfl
    rw [if_pos ⟨n.le_toInt, Int.le_sub_one_of_lt n.toInt_lt⟩, Int64.ofInt_toInt]

@[simp] theorem ofInt?_toInt (n : Integer) : ofInt? n.toInt = some n := ofInt?_eq_some_iff.2 rfl

def add? (a b : Integer) : Option Integer := ofInt? (a.toInt + b.toInt)

def sub? (a b : Integer) : Option Integer := ofInt? (a.toInt - b.toInt)

def mul? (a b : Integer) : Option Integer := ofInt? (a.toInt * b.toInt)

/-- The quotient without its fractional part, so `-7 / 2` is `-3`. A divisor of zero is for the
caller to refuse. -/
def div? (a b : Integer) : Option Integer := ofInt? (a.toInt.tdiv b.toInt)

def neg? (a : Integer) : Option Integer := ofInt? (-a.toInt)

/-- The place in a list that an integer says, counted from zero. -/
def place? (n : Integer) : Option Nat := if 0 ≤ n.toInt then some n.toInt.toNat else none

/-! ## Decimal text -/

def text (n : Integer) : String := toString n.toInt

/-- The integer that decimal digits spell, with a minus sign in front of them if `negative`.
There is none if the number does not fit or there are no digits. Leading zeros count for
nothing. -/
def ofDigits? (negative : Bool) (digits : List Char) : Option Integer :=
  if digits.isEmpty then none
  else
    let magnitude : Int := Nat.ofDigitChars 10 digits 0
    ofInt? (if negative then -magnitude else magnitude)

end Integer

end Scriptlet
