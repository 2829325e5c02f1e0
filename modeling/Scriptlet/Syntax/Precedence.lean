import Scriptlet.Syntax

/-!
# Operator precedence

An expression is a head followed by suffixes: a binary operator with its right operand, a call,
an index, or the value of an assignment. The precedence of a suffix says how tightly it holds on
to what stands before it.
-/

namespace Scriptlet

/-- From the loosest to the tightest. `lowest` and `unary` belong to no suffix: they say how much
of the following text a statement or the operand of a unary operator takes. -/
inductive Precedence where
  | lowest | assign | equals | lessGreater | sum | product | unary | call
deriving DecidableEq, Repr

namespace Precedence

def level : Precedence → Nat
  | lowest => 0 | assign => 1 | equals => 2 | lessGreater => 3
  | sum => 4 | product => 5 | unary => 6 | call => 7

instance : LT Precedence := ⟨fun p q => p.level < q.level⟩

instance : LE Precedence := ⟨fun p q => p.level ≤ q.level⟩

instance (p q : Precedence) : Decidable (p < q) := inferInstanceAs (Decidable (p.level < q.level))

instance (p q : Precedence) : Decidable (p ≤ q) := inferInstanceAs (Decidable (p.level ≤ q.level))

end Precedence

def BinaryOp.precedence : BinaryOp → Precedence
  | eq | ne => .equals
  | lt | gt => .lessGreater
  | add | sub => .sum
  | mul | div => .product

/-- What may follow an expression and take it in. -/
inductive Suffix where
  | binary (op : BinaryOp)
  | call
  | index
  | assign
deriving DecidableEq, Repr

namespace Suffix

def precedence : Suffix → Precedence
  | binary op => op.precedence
  | call | index => .call
  | assign => .assign

/-- The suffix that a token of this kind starts. -/
def ofKind : Kind → Option Suffix
  | .plus => some (binary .add) | .minus => some (binary .sub)
  | .asterisk => some (binary .mul) | .slash => some (binary .div)
  | .less => some (binary .lt) | .greater => some (binary .gt)
  | .equal => some (binary .eq) | .notEqual => some (binary .ne)
  | .lparen => some call
  | .lbracket => some index
  | .assign => some assign
  | _ => none

end Suffix

end Scriptlet
