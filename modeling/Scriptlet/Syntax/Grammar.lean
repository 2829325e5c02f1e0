import Scriptlet.Syntax.ParseState
import Scriptlet.Syntax.Precedence
import Scriptlet.Syntax.Render

/-!
# The grammar

A rule of the grammar starts on the first token of what it reads and, if it succeeds, ends *on*
the last one.

**Nesting.** Expressions and blocks contain each other. `Rules` is the pair of rules for what is
nested in the rule at hand, and each rule is written over it, without recursion. `rules` ties the
knot: `rules n` reads what nests to depth `n`. Every level of nesting uses up a token, so a depth
above the number of tokens ahead is enough.

**Repetition.** A list is read in passes, and every pass but the last uses up a token. So the
depth that is enough for nesting is also enough passes, and `Rules.passes` grants as many.

**Broken statements.** A statement that cannot be read is caught by the nearest list of
statements, that of a block or of the program, which goes on with the next one. So a program is
read to its end whatever is wrong with it, and every broken statement is reported.
-/

namespace Scriptlet

namespace Parse

/-- The rules for what is nested in the rule at hand. -/
structure Rules where
  /-- An expression up to the first suffix that does not bind tighter than this. -/
  expression : Precedence → Parse Expr
  /-- A block, from its opening brace. -/
  block : Parse Block
  /-- How many passes a list may take. -/
  passes : Nat

namespace Rules

variable (r : Rules)

/-! ## Lists -/

/-- One name at least, separated by commas, and the closing parenthesis. -/
def names : Nat → Parse (List Ident)
  | 0 => Run.exhausted
  | k + 1 => do
    let x ← name
    let t ← upcoming
    if t.kind = .comma then do
      advance
      let xs ← names k
      pure (x :: xs)
    else do
      expect .rparen
      pure [x]

/-- Names between parentheses, perhaps none. The current token is the opening parenthesis. -/
def params : Parse (List Ident) := do
  let t ← upcoming
  if t.kind = .rparen then do
    advance
    pure []
  else names r.passes

/-- One expression at least, separated by commas, and the closing token. -/
def exprs (close : Kind) : Nat → Parse (List Expr)
  | 0 => Run.exhausted
  | k + 1 => do
    let e ← r.expression .lowest
    let t ← upcoming
    if t.kind = .comma then do
      advance
      advance
      let es ← exprs close k
      pure (e :: es)
    else do
      expect close
      pure [e]

/-- Expressions separated by commas, perhaps none. The current token is the opening one. -/
def list (close : Kind) : Parse (List Expr) := do
  let t ← upcoming
  advance
  if t.kind = close then pure [] else r.exprs close r.passes

/-- What follows a pair: a comma, which may be left out before the closing brace. -/
def pairEnd : Parse Unit := do
  let t ← upcoming
  if t.kind = .rbrace then pure () else expect .comma

/-- Pairs of a key and a value, perhaps none, and the closing brace. -/
def pairs : Nat → Parse (List (Expr × Expr))
  | 0 => Run.exhausted
  | k + 1 => do
    let t ← upcoming
    advance
    if t.kind = .rbrace then pure []
    else do
      let key ← r.expression .lowest
      expect .colon
      advance
      let value ← r.expression .lowest
      pairEnd
      let rest ← pairs k
      pure ((key, value) :: rest)

/-! ## Expressions -/

/-- A block that has to follow. -/
def blockAhead : Parse Block := do
  expect .lbrace
  r.block

def elseBranch : Parse (Option Block) := do
  let t ← upcoming
  if t.kind = .elseKw then do
    advance
    let b ← r.blockAhead
    pure (some b)
  else pure none

/-- A unary operator and its operand. -/
def unary (t : Token) (op : UnaryOp) : Parse Expr := do
  advance
  let e ← r.expression .unary
  pure (.unary t op e)

def group : Parse Expr := do
  advance
  let e ← r.expression .lowest
  expect .rparen
  pure e

def conditional (t : Token) : Parse Expr := do
  advance
  let test ← r.expression .lowest
  let yes ← r.blockAhead
  let no ← r.elseBranch
  pure (.ifElse t test yes no)

def function (t : Token) : Parse Expr := do
  expect .lparen
  let ps ← r.params
  let body ← r.blockAhead
  pure (.fn t ps body)

/-- A loop. Its target has to be a name. -/
def loop (t : Token) : Parse Expr := do
  let index ← name
  expect .comma
  let value ← name
  expect .inKw
  let target ← name
  let body ← r.blockAhead
  pure (.forIn t index value target body)

/-- What an expression starts with, by the kind of the current token. -/
def head : Parse Expr := do
  let t ← current
  match t.kind with
  | .ident => pure (.ident (.ofToken t))
  | .int =>
    match Integer.ofDigits? false t.text.toList with
    | some n => pure (.int t n)
    | none => giveUp t (.integerOutOfRange t.text)
  | .string => pure (.str t t.text)
  | .trueKw => pure (.bool t true)
  | .falseKw => pure (.bool t false)
  | .nullKw => pure (.null t)
  | .bang => r.unary t .not
  | .minus => r.unary t .neg
  | .lparen => r.group
  | .ifKw => r.conditional t
  | .fnKw => r.function t
  | .lbracket => do
    let es ← r.list .rbracket
    pure (.array t es)
  | .lbrace => do
    let kvs ← r.pairs r.passes
    pure (.hash t kvs)
  | .forKw => r.loop t
  | _ => Run.fail (.noExpressionAt t)

/-- Add to `left` the suffix at the current token. A binary operator takes on its right only what
binds tighter than itself, so operators of one precedence group to the left; an assignment takes
all it can. -/
def extend (left : Expr) : Suffix → Parse Expr
  | .binary op => do
    let t ← current
    advance
    let right ← r.expression op.precedence
    pure (.binary t op left right)
  | .call => do
    let t ← current
    let es ← r.list .rparen
    pure (.call t left es)
  | .index => do
    let t ← current
    advance
    let i ← r.expression .lowest
    expect .rbracket
    pure (.index t left i)
  | .assign => do
    let t ← current
    match left with
    | .ident x => do
      advance
      let e ← r.expression .lowest
      pure (.assign t x e)
    | _ => giveUp t (.invalidTarget left.render)

/-- Add suffixes to `left` as long as they bind tighter than `p`. -/
def suffixes (p : Precedence) : Nat → Expr → Parse Expr
  | 0, _ => Run.exhausted
  | k + 1, left => do
    let t ← upcoming
    match Suffix.ofKind t.kind with
    | none => pure left
    | some suffix =>
      if p < suffix.precedence then do
        advance
        let e ← r.extend left suffix
        suffixes p k e
      else pure left

/-- A head and its suffixes. -/
def climb (p : Precedence) : Parse Expr := do
  let left ← r.head
  r.suffixes p r.passes left

/-! ## Statements -/

/-- A binding after `let` or `const`. -/
def declaration (t : Token) (constant : Bool) : Parse Stmt := do
  let x ← name
  expect .assign
  advance
  let e ← r.expression .lowest
  pure (.declare t constant x e)

/-- A statement, without the semicolon after it. -/
def bareStatement : Parse Stmt := do
  let t ← current
  match t.kind with
  | .letKw => r.declaration t false
  | .constKw => r.declaration t true
  | .returnKw => do
    advance
    let e ← r.expression .lowest
    pure (.ret t e)
  | _ => do
    let e ← r.expression .lowest
    pure (.expr t e)

/-- A statement, with the semicolon after it if there is one. -/
def statement : Parse Stmt := do
  let s ← r.bareStatement
  skip .semicolon
  pure s

/-- Past a broken statement. A closing brace is left to close the block. -/
def passBroken : Parse Unit := do
  let t ← current
  if t.kind = .rbrace then pure () else advance

/-- The statements of a block, up to its closing brace or the end of the source. -/
def blockStmts : Nat → Parse (List Stmt)
  | 0 => Run.exhausted
  | k + 1 => do
    let t ← current
    if t.kind = .rbrace ∨ t.kind = .eof then pure []
    else do
      let s? ← recover r.statement
      match s? with
      | some s => do
        advance
        let ss ← blockStmts k
        pure (s :: ss)
      | none => do
        passBroken
        blockStmts k

/-- A block, from its opening brace. It ends on its closing brace, or at the end of the source if
that is missing. -/
def braces : Parse Block := do
  let t ← current
  advance
  let ss ← r.blockStmts r.passes
  pure (.mk t ss)

/-- The statements of a program, up to the end of the source. -/
def programStmts : Nat → Parse (List Stmt)
  | 0 => Run.exhausted
  | k + 1 => do
    let t ← current
    if t.kind = .eof then pure []
    else do
      let s? ← recover r.statement
      advance
      let ss ← programStmts k
      pure (s?.toList ++ ss)

end Rules

/-! ## Nesting -/

/-- The rules for what nests to depth `n`. -/
def rules : Nat → Rules
  | 0 => ⟨fun _ => Run.exhausted, Run.exhausted, 1⟩
  | n + 1 => ⟨fun p s => (rules n).climb p s, fun s => (rules n).braces s, n + 2⟩

end Parse

end Scriptlet
