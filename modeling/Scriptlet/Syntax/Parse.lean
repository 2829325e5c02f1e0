import Scriptlet.Syntax.Grammar

/-!
# Reading programs

The rules of the grammar, applied to a source. The depth and the number of passes that the rules
ask for come from the number of tokens ahead. That bound is never met; one that was too small
would show as `Outcome.outOfFuel`.
-/

namespace Scriptlet

namespace Parse

/-- Read by a rule over whatever the tokens ahead can nest. -/
def nested {α : Type} (rule : Rules → Parse α) : Parse α := fun s =>
  rule (rules (s.ahead.tokens.length + 1)) s

/-- An expression up to the first suffix that does not bind tighter than `p`. -/
def expression (p : Precedence) : Parse Expr := nested fun r => r.expression p

/-- A whole program. -/
def program : Parse Program := do
  let ss ← nested fun r => r.programStmts r.passes
  pure ⟨ss⟩

end Parse

/-- The program that a source says, if nothing is wrong with it; otherwise every diagnostic, since
a program with statements missing is no program. -/
def parse (source : String) : Except (List Diagnostic) Program :=
  match Parse.program (.ofSource source) with
  | .ok p s => if s.recorded.isEmpty then .ok p else .error s.recorded.toList
  | .error d s => .error (s.recorded.push d).toList
  | .outOfFuel => .error []

end Scriptlet
