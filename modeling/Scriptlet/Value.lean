import Scriptlet.RuntimeError
import Scriptlet.Syntax

/-!
# Values

Scalars are values in themselves. Arrays and hashes are shared: a value holds only the identity
of a collection, and the contents are in the store. Functions and finished loops hold what they
were made from and the scope they were made in; like collections they are told apart by identity,
which for them is a stamp that no two of them share.

`ret` and `error` are no data. They are how a pending return and a failure look from outside,
when something other than a function call receives them.
-/

namespace Scriptlet

/-- The types that values have at run time. -/
inductive ValueType where
  | integer | string | bool | null | returnValue | error | function | builtin | array | hash | loop
deriving DecidableEq, Repr

/-- How programs and messages name the type. -/
def ValueType.name : ValueType → String
  | integer => "INTEGER" | string => "STRING" | bool => "BOOL" | null => "NULL"
  | returnValue => "RETURN_VALUE" | error => "ERROR" | function => "FUNCTION"
  | builtin => "BUILTIN" | array => "ARRAY" | hash => "HASH" | loop => "FOR"

abbrev ScopeId := Nat

abbrev ArrayId := Nat

abbrev HashId := Nat

/-- A function together with the scope in which it was written. -/
structure Closure where
  stamp : Nat
  params : List Ident
  body : Block
  scope : ScopeId

/-- What a loop leaves behind when it has run. -/
structure Loop where
  stamp : Nat
  index : Ident
  value : Ident
  target : Ident
  body : Block
  scope : ScopeId

inductive Value where
  | integer (n : Integer)
  | string (s : String)
  | bool (b : Bool)
  | null
  /-- A value on its way out of a function. -/
  | ret (v : Value)
  /-- A failure on its way to whoever reports it. -/
  | error (e : RuntimeError)
  | function (c : Closure)
  /-- The native that the registry of the run has under this name. A run keeps one registry, so
  the name stands for one native from beginning to end. -/
  | native (name : String)
  | array (id : ArrayId)
  | hash (id : HashId)
  | loop (l : Loop)

instance : Inhabited Value := ⟨.null⟩

/-- What can be a key of a hash. Keys of different types are different keys. -/
inductive HashKey where
  | integer (n : Integer)
  | string (s : String)
  | bool (b : Bool)
deriving DecidableEq, Repr

namespace HashKey

/-- The key as a value. -/
def value : HashKey → Value
  | integer n => .integer n
  | string s => .string s
  | bool b => .bool b

end HashKey

namespace Value

def type : Value → ValueType
  | integer _ => .integer
  | string _ => .string
  | bool _ => .bool
  | null => .null
  | ret _ => .returnValue
  | error _ => .error
  | function _ => .function
  | native _ => .builtin
  | array _ => .array
  | hash _ => .hash
  | loop _ => .loop

/-- Everything counts as true but `false` and `null`. -/
def truthy : Value → Bool
  | null | bool false => false
  | _ => true

def isError : Value → Bool
  | error _ => true
  | _ => false

/-- Scalars are the same if they are equal, and everything with an identity if that is. -/
def same : Value → Value → Bool
  | integer a, integer b => a = b
  | string a, string b => a = b
  | bool a, bool b => a = b
  | null, null => true
  | ret a, ret b => same a b
  | error a, error b => a = b
  | function a, function b => a.stamp = b.stamp
  | native a, native b => a = b
  | array a, array b => a = b
  | hash a, hash b => a = b
  | loop a, loop b => a.stamp = b.stamp
  | _, _ => false

/-- The value as a key. -/
def key : Value → Except RuntimeError HashKey
  | integer n => .ok (.integer n)
  | string s => .ok (.string s)
  | bool b => .ok (.bool b)
  | v => .error (.unusableKey v.type.name)

/-- Keys are values: a key comes from a value exactly when it is that value. -/
theorem key_eq_ok_iff {v : Value} {k : HashKey} : v.key = .ok k ↔ v = k.value := by
  cases v <;> cases k <;> simp [key, HashKey.value]

@[simp] theorem key_value (k : HashKey) : k.value.key = .ok k := key_eq_ok_iff.2 rfl

end Value

end Scriptlet
