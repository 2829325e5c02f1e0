import Scriptlet.Syntax

/-!
# The canonical text of a program

`render` writes a tree back as source text in one fixed layout. Every use of an operator gets
parentheses, so the text shows how the parser grouped it. Strings are written between quotes as
they are, since the language has no escapes.
-/

namespace Scriptlet

/-- Names separated by commas, as in a parameter list. -/
def renderNames (names : List Ident) : String := ", ".intercalate (names.map Ident.name)

/-- The texts of statements between braces. -/
def braced : List String → String
  | [] => "\x7b\x7d"
  | stmts => "\x7b " ++ " ".intercalate stmts ++ " \x7d"

mutual

def Expr.render : Expr → String
  | .ident id => id.name
  | .int _ n => n.text
  | .str _ s => "\"" ++ s ++ "\""
  | .bool _ b => if b then "true" else "false"
  | .null _ => "null"
  | .unary _ op e => "(" ++ op.spelling ++ e.render ++ ")"
  | .binary _ op l r => "(" ++ l.render ++ " " ++ op.spelling ++ " " ++ r.render ++ ")"
  | .assign _ x e => x.name ++ " = " ++ e.render
  | .ifElse _ e yes no => "if " ++ e.render ++ " " ++ yes.render ++ renderElse no
  | .fn _ ps b => "fn(" ++ renderNames ps ++ ") " ++ b.render
  | .call _ f es => f.render ++ "(" ++ ", ".intercalate (renderExprs es) ++ ")"
  | .array _ es => "[" ++ ", ".intercalate (renderExprs es) ++ "]"
  | .hash _ kvs => "\x7b" ++ ", ".intercalate (renderPairs kvs) ++ "\x7d"
  | .index _ e i => "(" ++ e.render ++ "[" ++ i.render ++ "])"
  | .forIn _ i v t b =>
    "for " ++ i.name ++ ", " ++ v.name ++ " in " ++ t.name ++ " " ++ b.render

def Stmt.render : Stmt → String
  | .declare _ constant x e =>
    (if constant then "const " else "let ") ++ x.name ++ " = " ++ e.render ++ ";"
  | .ret _ e => "return " ++ e.render ++ ";"
  | .expr _ e => e.render
  | .block b => b.render

/-- The text of a block, braces included. -/
def Block.render : Block → String
  | .mk _ ss => braced (renderStmts ss)

/-- The text of an `else` branch, if there is one. -/
def renderElse : Option Block → String
  | none => ""
  | some b => " else " ++ b.render

def renderExprs : List Expr → List String
  | [] => []
  | e :: es => e.render :: renderExprs es

def renderPairs : List (Expr × Expr) → List String
  | [] => []
  | (k, v) :: kvs => (k.render ++ ": " ++ v.render) :: renderPairs kvs

def renderStmts : List Stmt → List String
  | [] => []
  | s :: ss => s.render :: renderStmts ss

end

/-- One statement a line. -/
def Program.render (p : Program) : String := "\n".intercalate (renderStmts p.stmts)

end Scriptlet
