import Mathlib.Algebra.Group.Nat.Defs
import Scriptlet.Syntax.Precedence
import Scriptlet.TokenStream

/-!
# The grammar as a relation

Which trees a list of tokens derives, said without reference to any way of reading them. Each
relation `XAt ts x rest` says that `ts` starts with tokens that derive `x`, and that `rest` is
what follows those tokens.

**Choices.** Where the next token could be taken or left, the grammar says which: a semicolon
after a statement is taken, an `else` after a block is taken, and an expression ends only where
no suffix follows that binds tighter than the expression asks for. So `rest` stands in the rules,
and not only the tokens that are used up.

**Blocks.** A block ends at its closing brace, or at the end of the source if the brace is
missing.
-/

namespace Scriptlet

/-- The kind of the token that stands first, `eof` if there is none. -/
def nextKind (ts : List Token) : Kind := (ts.head?.map Token.kind).getD .eof

@[simp] theorem nextKind_nil : nextKind [] = .eof := rfl

@[simp] theorem nextKind_cons (t : Token) (ts : List Token) : nextKind (t :: ts) = t.kind := rfl

/-- The number that the decimal digits of a text spell. -/
def decimal (text : String) : Nat := Nat.ofDigitChars 10 text.toList 0

/-! ## Names -/

/-- One name at least, separated by commas, and the closing parenthesis. -/
inductive NamesAt : List Token → List Ident → List Token → Prop
  | last {x c : Token} {rest : List Token} :
      x.kind = .ident → c.kind = .rparen → NamesAt (x :: c :: rest) [.ofToken x] rest
  | more {x c : Token} {ts rest : List Token} {xs : List Ident} :
      x.kind = .ident → c.kind = .comma → NamesAt ts xs rest →
      NamesAt (x :: c :: ts) (.ofToken x :: xs) rest

/-- What follows the opening parenthesis of a parameter list. -/
inductive ParamsAt : List Token → List Ident → List Token → Prop
  | none {c : Token} {rest : List Token} : c.kind = .rparen → ParamsAt (c :: rest) [] rest
  | some {ts rest : List Token} {xs : List Ident} : NamesAt ts xs rest → ParamsAt ts xs rest

/-! ## Expressions, blocks and statements -/

mutual

/-- An expression is a head and its suffixes, all of them of a precedence above `p`. -/
inductive ExprAt : Precedence → List Token → Expr → List Token → Prop
  | mk {p : Precedence} {t : Token} {ts mid rest : List Token} {left e : Expr} :
      HeadAt t.kind t ts left mid → SuffixesAt p left mid e rest → ExprAt p (t :: ts) e rest

/-- What an expression starts with, by its first token `t`, the kind of `t` and what follows. -/
inductive HeadAt : Kind → Token → List Token → Expr → List Token → Prop
  | name {t : Token} {ts : List Token} : HeadAt .ident t ts (.ident (.ofToken t)) ts
  | int {t : Token} {ts : List Token} :
      decimal t.text ≤ 2 ^ 63 - 1 → HeadAt .int t ts (.int t (.ofNat (decimal t.text))) ts
  | str {t : Token} {ts : List Token} : HeadAt .string t ts (.str t t.text) ts
  | yes {t : Token} {ts : List Token} : HeadAt .trueKw t ts (.bool t true) ts
  | no {t : Token} {ts : List Token} : HeadAt .falseKw t ts (.bool t false) ts
  | null {t : Token} {ts : List Token} : HeadAt .nullKw t ts (.null t) ts
  | not {t : Token} {ts rest : List Token} {e : Expr} :
      ExprAt .unary ts e rest → HeadAt .bang t ts (.unary t .not e) rest
  | neg {t : Token} {ts rest : List Token} {e : Expr} :
      ExprAt .unary ts e rest → HeadAt .minus t ts (.unary t .neg e) rest
  | group {t c : Token} {ts rest : List Token} {e : Expr} :
      ExprAt .lowest ts e (c :: rest) → c.kind = .rparen → HeadAt .lparen t ts e rest
  | ifElse {t : Token} {ts mid mid' rest : List Token} {test : Expr} {yes : Block}
      {no : Option Block} :
      ExprAt .lowest ts test mid → BlockAt mid yes mid' → ElseAt mid' no rest →
      HeadAt .ifKw t ts (.ifElse t test yes no) rest
  | fn {t c : Token} {ts mid rest : List Token} {ps : List Ident} {body : Block} :
      c.kind = .lparen → ParamsAt ts ps mid → BlockAt mid body rest →
      HeadAt .fnKw t (c :: ts) (.fn t ps body) rest
  | array {t : Token} {ts rest : List Token} {es : List Expr} :
      ListAt .rbracket ts es rest → HeadAt .lbracket t ts (.array t es) rest
  | hash {t : Token} {ts rest : List Token} {kvs : List (Expr × Expr)} :
      PairsAt ts kvs rest → HeadAt .lbrace t ts (.hash t kvs) rest
  | forIn {t i c v k x : Token} {ts rest : List Token} {body : Block} :
      i.kind = .ident → c.kind = .comma → v.kind = .ident → k.kind = .inKw → x.kind = .ident →
      BlockAt ts body rest →
      HeadAt .forKw t (i :: c :: v :: k :: x :: ts)
        (.forIn t (.ofToken i) (.ofToken v) (.ofToken x) body) rest

/-- Suffixes to `left`, as long as they bind tighter than `p`. -/
inductive SuffixesAt : Precedence → Expr → List Token → Expr → List Token → Prop
  | stop {p : Precedence} {left : Expr} {ts : List Token} :
      (∀ s, Suffix.ofKind (nextKind ts) = some s → ¬ p < s.precedence) →
      SuffixesAt p left ts left ts
  | more {p : Precedence} {left e e' : Expr} {s : Suffix} {t : Token} {ts mid rest : List Token} :
      Suffix.ofKind t.kind = some s → p < s.precedence → SuffixAt left s t ts e mid →
      SuffixesAt p e mid e' rest → SuffixesAt p left (t :: ts) e' rest

/-- One suffix to `left`, by what follows its first token `t`. Only a name can be assigned to. -/
inductive SuffixAt : Expr → Suffix → Token → List Token → Expr → List Token → Prop
  | binary {left right : Expr} {op : BinaryOp} {t : Token} {ts rest : List Token} :
      ExprAt op.precedence ts right rest →
      SuffixAt left (.binary op) t ts (.binary t op left right) rest
  | call {left : Expr} {t : Token} {ts rest : List Token} {es : List Expr} :
      ListAt .rparen ts es rest → SuffixAt left .call t ts (.call t left es) rest
  | index {left i : Expr} {t c : Token} {ts rest : List Token} :
      ExprAt .lowest ts i (c :: rest) → c.kind = .rbracket →
      SuffixAt left .index t ts (.index t left i) rest
  | assign {x : Ident} {e : Expr} {t : Token} {ts rest : List Token} :
      ExprAt .lowest ts e rest → SuffixAt (.ident x) .assign t ts (.assign t x e) rest

/-- Expressions separated by commas, perhaps none, and the closing token. -/
inductive ListAt : Kind → List Token → List Expr → List Token → Prop
  | none {close : Kind} {c : Token} {rest : List Token} :
      c.kind = close → ListAt close (c :: rest) [] rest
  | some {close : Kind} {ts rest : List Token} {es : List Expr} :
      ItemsAt close ts es rest → ListAt close ts es rest

/-- One expression at least, separated by commas, and the closing token. -/
inductive ItemsAt : Kind → List Token → List Expr → List Token → Prop
  | last {close : Kind} {c : Token} {ts rest : List Token} {e : Expr} :
      ExprAt .lowest ts e (c :: rest) → c.kind = close → ItemsAt close ts [e] rest
  | more {close : Kind} {c : Token} {ts mid rest : List Token} {e : Expr} {es : List Expr} :
      ExprAt .lowest ts e (c :: mid) → c.kind = .comma → ItemsAt close mid es rest →
      ItemsAt close ts (e :: es) rest

/-- Pairs separated by commas, perhaps none, and the closing brace. A comma may follow the last
pair. -/
inductive PairsAt : List Token → List (Expr × Expr) → List Token → Prop
  | none {c : Token} {rest : List Token} : c.kind = .rbrace → PairsAt (c :: rest) [] rest
  | last {c b : Token} {ts mid rest : List Token} {k v : Expr} :
      ExprAt .lowest ts k (c :: mid) → c.kind = .colon → ExprAt .lowest mid v (b :: rest) →
      b.kind = .rbrace → PairsAt ts [(k, v)] rest
  | more {c d : Token} {ts mid mid' rest : List Token} {k v : Expr} {kvs : List (Expr × Expr)} :
      ExprAt .lowest ts k (c :: mid) → c.kind = .colon → ExprAt .lowest mid v (d :: mid') →
      d.kind = .comma → PairsAt mid' kvs rest → PairsAt ts ((k, v) :: kvs) rest

/-- A block, from its opening brace. -/
inductive BlockAt : List Token → Block → List Token → Prop
  | mk {t : Token} {ts rest : List Token} {ss : List Stmt} :
      t.kind = .lbrace → StmtsAt ts ss rest → BlockAt (t :: ts) (.mk t ss) rest

/-- The branch after `else`, if there is one. -/
inductive ElseAt : List Token → Option Block → List Token → Prop
  | none {ts : List Token} : nextKind ts ≠ .elseKw → ElseAt ts none ts
  | some {t : Token} {ts rest : List Token} {b : Block} :
      t.kind = .elseKw → BlockAt ts b rest → ElseAt (t :: ts) (some b) rest

/-- The statements of a block and the closing brace, or the end of the source. -/
inductive StmtsAt : List Token → List Stmt → List Token → Prop
  | close {c : Token} {rest : List Token} : c.kind = .rbrace → StmtsAt (c :: rest) [] rest
  | finish : StmtsAt [] [] []
  | more {ts mid rest : List Token} {s : Stmt} {ss : List Stmt} :
      StmtAt ts s mid → StmtsAt mid ss rest → StmtsAt ts (s :: ss) rest

/-- A statement and the semicolon after it, if there is one. -/
inductive StmtAt : List Token → Stmt → List Token → Prop
  | ended {ts rest : List Token} {c : Token} {s : Stmt} :
      BareStmtAt ts s (c :: rest) → c.kind = .semicolon → StmtAt ts s rest
  | bare {ts rest : List Token} {s : Stmt} :
      BareStmtAt ts s rest → nextKind rest ≠ .semicolon → StmtAt ts s rest

/-- A statement without the semicolon. -/
inductive BareStmtAt : List Token → Stmt → List Token → Prop
  | letName {t x a : Token} {ts rest : List Token} {e : Expr} :
      t.kind = .letKw → x.kind = .ident → a.kind = .assign → ExprAt .lowest ts e rest →
      BareStmtAt (t :: x :: a :: ts) (.declare t false (.ofToken x) e) rest
  | constName {t x a : Token} {ts rest : List Token} {e : Expr} :
      t.kind = .constKw → x.kind = .ident → a.kind = .assign → ExprAt .lowest ts e rest →
      BareStmtAt (t :: x :: a :: ts) (.declare t true (.ofToken x) e) rest
  | ret {t : Token} {ts rest : List Token} {e : Expr} :
      t.kind = .returnKw → ExprAt .lowest ts e rest → BareStmtAt (t :: ts) (.ret t e) rest
  | expr {t : Token} {ts rest : List Token} {e : Expr} :
      ExprAt .lowest (t :: ts) e rest → BareStmtAt (t :: ts) (.expr t e) rest

end

/-- A kind that no head is of cannot be next where an expression stands. -/
theorem ExprAt.nextKind_ne {k : Kind} {p : Precedence} {ts rest : List Token} {e : Expr}
    (h : ExprAt p ts e rest) (hk : ∀ t us left mid, ¬ HeadAt k t us left mid) :
    nextKind ts ≠ k := by
  rintro rfl
  cases h with
  | mk hhead _ => exact hk _ _ _ _ hhead

/-- Nor can it be next where a statement stands, unless a statement starts with it. -/
theorem StmtAt.nextKind_ne {k : Kind} {ts rest : List Token} {s : Stmt} (h : StmtAt ts s rest)
    (hk : ∀ t us left mid, ¬ HeadAt k t us left mid) (hs : k.startsStatement = false) :
    nextKind ts ≠ k := by
  have hbare {mid : List Token} (h : BareStmtAt ts s mid) : nextKind ts ≠ k := by
    rintro rfl
    cases h with
    | letName ht _ _ _ | constName ht _ _ _ | ret ht _ => rw [nextKind_cons, ht] at hs; cases hs
    | expr he => exact he.nextKind_ne hk rfl
  cases h with
  | ended h _ | bare h _ => exact hbare h

/-! ## Programs -/

/-- The tokens of a whole source derive the statements. -/
inductive ProgramAt : List Token → List Stmt → Prop
  | finish : ProgramAt [] []
  | more {ts rest : List Token} {s : Stmt} {ss : List Stmt} :
      StmtAt ts s rest → ProgramAt rest ss → ProgramAt ts (s :: ss)

end Scriptlet
