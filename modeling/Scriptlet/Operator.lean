import Scriptlet.Store

/-!
# Operators on values

What the operators do once their operands are values. Arithmetic is exact or fails. Equality is
defined between two values of one type, for the types that have it, and between anything and
`null`; between other values it fails like any operator that they do not have.
-/

namespace Scriptlet

namespace Value

/-- The failure of an operator that the operands do not have: of one type, it is unknown to that
type; of two, they do not go together. -/
def noOperator (op : BinaryOp) (l r : Value) : RuntimeError :=
  if l.type = r.type then .unknownOperator l.type.name op.spelling r.type.name
  else .typeMismatch l.type.name op.spelling r.type.name

/-- The exact result of an operation on two integers, or its overflow. -/
def exactly (op : BinaryOp) (a b : Integer) : Option Integer → Except RuntimeError Value
  | some n => .ok (.integer n)
  | none => .error (.integerOverflow a op.spelling b)

def arithmetic (op : BinaryOp) (a b : Integer) : Except RuntimeError Value :=
  match op with
  | .add => exactly op a b (Integer.add? a b)
  | .sub => exactly op a b (Integer.sub? a b)
  | .mul => exactly op a b (Integer.mul? a b)
  | .div => if b = 0 then .error .divisionByZero else exactly op a b (Integer.div? a b)
  | .lt => .ok (.bool (a < b))
  | .gt => .ok (.bool (b < a))
  | .eq => .ok (.bool (a = b))
  | .ne => .ok (.bool (a ≠ b))

/-- Whether two values, not both integers, can be asked if they are equal. -/
def comparable : Value → Value → Bool
  | .string _, .string _ | .bool _, .bool _ | .array _, .array _ | .hash _, .hash _ => true
  | .null, _ | _, .null => true
  | _, _ => false

def binary : BinaryOp → Value → Value → Except RuntimeError Value
  | op, .integer a, .integer b => arithmetic op a b
  | .add, .string a, .string b => .ok (.string (a ++ b))
  | .eq, l, r => if comparable l r then .ok (.bool (l.same r)) else .error (noOperator .eq l r)
  | .ne, l, r => if comparable l r then .ok (.bool (!l.same r)) else .error (noOperator .ne l r)
  | op, l, r => .error (noOperator op l r)

def unary : UnaryOp → Value → Except RuntimeError Value
  | .not, v => .ok (.bool (!v.truthy))
  | .neg, .integer n =>
    match Integer.neg? n with
    | some m => .ok (.integer m)
    | none => .error (.negationOverflow n)
  | .neg, v => .error (.operandNotSupported UnaryOp.neg.spelling v.type.name)

end Value

namespace Store

/-- The element of an array or the value of a hash. What is not there is `null`. -/
def index (σ : Store) : Value → Value → Except RuntimeError Value
  | .array id, .integer n => .ok ((n.place?.bind fun i => (σ.items id)[i]?).getD .null)
  | .hash id, v =>
    match v.key with
    | .ok k => .ok (((σ.pairs id).find? k).getD .null)
    | .error e => .error e
  | base, v => .error (.indexNotSupported base.type.name v.type.name)

end Store

end Scriptlet
