import Scriptlet.Integer
import Scriptlet.Token

/-!
# Syntax trees

Programs, statements, blocks and expressions. Almost everything is an expression: conditionals,
loops and assignments have values too. Every node keeps the token it was built from, for
diagnostics; which one that is stands at its constructor where it is not the first token of the
node. What a node means never depends on its token.
-/

namespace Scriptlet

/-- A name as it stands in a program. -/
structure Ident where
  token : Token
  name : String
deriving DecidableEq, Repr

/-- The name that the token `t` spells. -/
def Ident.ofToken (t : Token) : Ident := ⟨t, t.text⟩

inductive UnaryOp where
  | not | neg
deriving DecidableEq, Repr

def UnaryOp.spelling : UnaryOp → String
  | not => "!" | neg => "-"

inductive BinaryOp where
  | add | sub | mul | div | lt | gt | eq | ne
deriving DecidableEq, Repr

def BinaryOp.spelling : BinaryOp → String
  | add => "+" | sub => "-" | mul => "*" | div => "/"
  | lt => "<" | gt => ">" | eq => "==" | ne => "!="

mutual

inductive Expr where
  | ident (id : Ident)
  | int (token : Token) (value : Integer)
  | str (token : Token) (value : String)
  | bool (token : Token) (value : Bool)
  | null (token : Token)
  /-- The token is the operator. -/
  | unary (token : Token) (op : UnaryOp) (operand : Expr)
  /-- The token is the operator. -/
  | binary (token : Token) (op : BinaryOp) (left right : Expr)
  /-- The token is the equals sign. -/
  | assign (token : Token) (target : Ident) (value : Expr)
  | ifElse (token : Token) (test : Expr) (yes : Block) (no : Option Block)
  | fn (token : Token) (params : List Ident) (body : Block)
  /-- The token is the opening parenthesis. -/
  | call (token : Token) (callee : Expr) (args : List Expr)
  | array (token : Token) (items : List Expr)
  | hash (token : Token) (pairs : List (Expr × Expr))
  /-- The token is the opening bracket. -/
  | index (token : Token) (base position : Expr)
  | forIn (token : Token) (index value target : Ident) (body : Block)

inductive Stmt where
  /-- A binding made by `let`, or by `const` if it is constant. -/
  | declare (token : Token) (constant : Bool) (name : Ident) (value : Expr)
  | ret (token : Token) (value : Expr)
  | expr (token : Token) (value : Expr)
  /-- A block in statement position. It opens no scope. -/
  | block (body : Block)

/-- Statements in braces. The token is the opening brace. -/
inductive Block where
  | mk (token : Token) (stmts : List Stmt)

end

structure Program where
  stmts : List Stmt

namespace Block

def token : Block → Token
  | mk t _ => t

def stmts : Block → List Stmt
  | mk _ ss => ss

end Block

def Expr.token : Expr → Token
  | ident id => id.token
  | int t _ | str t _ | bool t _ | null t | unary t _ _ | binary t _ _ _ | assign t _ _
  | ifElse t _ _ _ | fn t _ _ | call t _ _ | array t _ | hash t _ | index t _ _
  | forIn t _ _ _ _ => t

def Stmt.token : Stmt → Token
  | declare t _ _ _ | ret t _ | expr t _ => t
  | block b => b.token

/-- The text of the first token, empty for the empty program. -/
def Program.tokenText (p : Program) : String :=
  match p.stmts with
  | [] => ""
  | s :: _ => s.token.text

end Scriptlet
