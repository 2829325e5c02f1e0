import Scriptlet.Token

/-!
# Diagnostics

What can be wrong with a source, and where. The position is that of the token that could not be
used.
-/

namespace Scriptlet

/-- Why a statement was given up. -/
inductive Fault where
  /-- A character that starts no token stands where an expression should start. -/
  | illegalCharacter (text : String)
  /-- No expression starts with a token of this kind. -/
  | noExpression (found : Kind)
  /-- Only one kind of token can follow, and another one did. -/
  | unexpectedToken (expected found : Kind)
  /-- The digits of an integer spell a number beyond 64 bits. -/
  | integerOutOfRange (digits : String)
  /-- The left side of an assignment is not a name. -/
  | invalidTarget (target : String)
deriving DecidableEq, Repr

def Fault.code : Fault → String
  | illegalCharacter _ => "L001"
  | noExpression _ => "P001"
  | unexpectedToken _ _ => "P002"
  | integerOutOfRange _ => "P003"
  | invalidTarget _ => "P004"

def Fault.message : Fault → String
  | illegalCharacter text => "illegal character `" ++ text ++ "`"
  | noExpression found => "no prefix parse rule for `" ++ found.spelling ++ "` found"
  | unexpectedToken expected found =>
    "expected next token to be `" ++ expected.spelling ++ "`, found `" ++ found.spelling ++ "`"
  | integerOutOfRange digits => "could not parse `" ++ digits ++ "` as integer"
  | invalidTarget target => "invalid assignment target `" ++ target ++ "`, expected identifier"

structure Diagnostic where
  fault : Fault
  position : Position
deriving DecidableEq, Repr

namespace Diagnostic

def atToken (t : Token) (fault : Fault) : Diagnostic := ⟨fault, t.position⟩

def text (d : Diagnostic) : String :=
  "[" ++ d.fault.code ++ "] " ++ toString d.position.line ++ ":" ++ toString d.position.column ++
    " — " ++ d.fault.message

/-- The diagnostic for a token that starts no expression. -/
def noExpressionAt (t : Token) : Diagnostic :=
  .atToken t (if t.kind = .illegal then .illegalCharacter t.text else .noExpression t.kind)

end Diagnostic

end Scriptlet
