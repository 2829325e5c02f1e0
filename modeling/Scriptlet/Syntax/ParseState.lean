import Scriptlet.Diagnostic
import Scriptlet.Outcome
import Scriptlet.Syntax
import Scriptlet.TokenStream

/-!
# Parsing steps

A `Parse` works on the tokens that are left and on the diagnostics recorded so far. One that fails
says why and leaves the tokens where it failed.

**Recovery.** A failure does not end the reading of a source. `recover` takes it in: it records
the diagnostic and skips to the end of the broken statement, from where the next one can be read.
-/

namespace Scriptlet

structure ParseState where
  /-- The tokens that are left, the current one first. -/
  ahead : TokenStream
  /-- The diagnostics of the statements given up so far, in the order found. -/
  recorded : Array Diagnostic
deriving DecidableEq, Repr

def ParseState.ofSource (source : String) : ParseState := ⟨.ofSource source, #[]⟩

abbrev Parse := Run ParseState Diagnostic

namespace Parse

/-! ## Tokens -/

def current : Parse Token := Run.read fun s => s.ahead.current

def upcoming : Parse Token := Run.read fun s => s.ahead.upcoming

def advance : Parse Unit := Run.update fun s => { s with ahead := s.ahead.advance }

/-- Give up on account of the token `t`. -/
def giveUp {α : Type} (t : Token) (fault : Fault) : Parse α := Run.fail (.atToken t fault)

/-- Move on to the next token, which has to be of this kind. -/
def expect (kind : Kind) : Parse Unit := do
  let t ← upcoming
  if t.kind = kind then advance else giveUp t (.unexpectedToken kind t.kind)

/-- Move on to the next token if it is of this kind. -/
def skip (kind : Kind) : Parse Unit := do
  let t ← upcoming
  if t.kind = kind then advance else pure ()

/-- Move on to the next token, which has to be a name. -/
def name : Parse Ident := do
  expect .ident
  let t ← current
  pure (.ofToken t)

/-! ## Recovery -/

/-- A broken statement ends at this token. -/
def endsBroken (k : Kind) : Bool := k = .semicolon || k = .rbrace || k = .eof

/-- A broken statement ends before this token. -/
def endsBrokenBefore (k : Kind) : Bool := k = .eof || k = .rbrace || k.startsStatement

/-- Skip to the last token of a broken statement. -/
def skipBroken : List Token → List Token
  | [] => []
  | [t] => [t]
  | t :: u :: rest =>
    if endsBroken t.kind || endsBrokenBefore u.kind then t :: u :: rest
    else skipBroken (u :: rest)

/-- Read by `p`; if that fails, record why and skip what is broken. -/
def recover {α : Type} (p : Parse α) : Parse (Option α) := fun s =>
  match p s with
  | .ok a t => .ok (some a) t
  | .error d t =>
    .ok none ⟨{ t.ahead with tokens := skipBroken t.ahead.tokens }, t.recorded.push d⟩
  | .outOfFuel => .outOfFuel

end Parse

end Scriptlet
