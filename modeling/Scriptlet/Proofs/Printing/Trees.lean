import Scriptlet.Syntax

/-!
# Trees up to their tokens

The tokens kept in a tree are for diagnostics; what the tree says does not depend on them. `bare`
takes them out, so two trees are equal up to their tokens exactly if their bare trees are equal.

`Every p q` says of a whole tree that each expression in it has `p` and each list of statements in
it has `q`.
-/

namespace Scriptlet

/-- A token that says nothing. -/
def Token.blank : Token := ⟨.eof, "", .start⟩

def Ident.bare (x : Ident) : Ident := ⟨.blank, x.name⟩

mutual

def Expr.bare : Expr → Expr
  | .ident x => .ident x.bare
  | .int _ n => .int .blank n
  | .str _ s => .str .blank s
  | .bool _ b => .bool .blank b
  | .null _ => .null .blank
  | .unary _ op e => .unary .blank op e.bare
  | .binary _ op l r => .binary .blank op l.bare r.bare
  | .assign _ x e => .assign .blank x.bare e.bare
  | .ifElse _ e yes no => .ifElse .blank e.bare yes.bare (bareElse no)
  | .fn _ ps b => .fn .blank (ps.map Ident.bare) b.bare
  | .call _ f es => .call .blank f.bare (bareExprs es)
  | .array _ es => .array .blank (bareExprs es)
  | .hash _ kvs => .hash .blank (barePairs kvs)
  | .index _ e i => .index .blank e.bare i.bare
  | .forIn _ i v x b => .forIn .blank i.bare v.bare x.bare b.bare

def Stmt.bare : Stmt → Stmt
  | .declare _ constant x e => .declare .blank constant x.bare e.bare
  | .ret _ e => .ret .blank e.bare
  | .expr _ e => .expr .blank e.bare
  | .block b => .block b.bare

def Block.bare : Block → Block
  | .mk _ ss => .mk .blank (bareStmts ss)

def bareElse : Option Block → Option Block
  | none => none
  | some b => some b.bare

def bareExprs : List Expr → List Expr
  | [] => []
  | e :: es => e.bare :: bareExprs es

def barePairs : List (Expr × Expr) → List (Expr × Expr)
  | [] => []
  | (k, v) :: kvs => (k.bare, v.bare) :: barePairs kvs

def bareStmts : List Stmt → List Stmt
  | [] => []
  | s :: ss => s.bare :: bareStmts ss

end

def Program.bare (p : Program) : Program := ⟨bareStmts p.stmts⟩

theorem bareExprs_eq_map (es : List Expr) : bareExprs es = es.map Expr.bare := by
  induction es with
  | nil => rfl
  | cons e es ih => rw [bareExprs, ih, List.map_cons]

theorem barePairs_eq_map (kvs : List (Expr × Expr)) :
    barePairs kvs = kvs.map fun kv => (kv.1.bare, kv.2.bare) := by
  induction kvs with
  | nil => rfl
  | cons kv kvs ih => rw [barePairs, ih, List.map_cons]

/-! ## Throughout a tree -/

section

variable (p : Expr → Prop) (q : List Stmt → Prop)

mutual

/-- Every expression in the tree has `p`, and every list of statements has `q`. -/
def Expr.Every : Expr → Prop
  | .ident x => p (.ident x)
  | .int t n => p (.int t n)
  | .str t s => p (.str t s)
  | .bool t b => p (.bool t b)
  | .null t => p (.null t)
  | .unary t op e => p (.unary t op e) ∧ e.Every
  | .binary t op l r => p (.binary t op l r) ∧ l.Every ∧ r.Every
  | .assign t x e => p (.assign t x e) ∧ e.Every
  | .ifElse t e yes no => p (.ifElse t e yes no) ∧ e.Every ∧ yes.Every ∧ everyElse no
  | .fn t ps b => p (.fn t ps b) ∧ b.Every
  | .call t f es => p (.call t f es) ∧ f.Every ∧ everyExprs es
  | .array t es => p (.array t es) ∧ everyExprs es
  | .hash t kvs => p (.hash t kvs) ∧ everyPairs kvs
  | .index t e i => p (.index t e i) ∧ e.Every ∧ i.Every
  | .forIn t i v x b => p (.forIn t i v x b) ∧ b.Every

def Stmt.Every : Stmt → Prop
  | .declare _ _ _ e => e.Every
  | .ret _ e => e.Every
  | .expr _ e => e.Every
  | .block b => b.Every

def Block.Every : Block → Prop
  | .mk _ ss => q ss ∧ everyStmts ss

def everyElse : Option Block → Prop
  | none => True
  | some b => b.Every

def everyExprs : List Expr → Prop
  | [] => True
  | e :: es => e.Every ∧ everyExprs es

def everyPairs : List (Expr × Expr) → Prop
  | [] => True
  | (k, v) :: kvs => k.Every ∧ v.Every ∧ everyPairs kvs

def everyStmts : List Stmt → Prop
  | [] => True
  | s :: ss => s.Every ∧ everyStmts ss

end

def Program.Every (P : Program) : Prop := q P.stmts ∧ everyStmts p q P.stmts

variable {p q}

theorem everyExprs_iff {es : List Expr} : everyExprs p q es ↔ ∀ e ∈ es, e.Every p q := by
  induction es with
  | nil => simp [everyExprs]
  | cons e es ih => simp [everyExprs, ih]

theorem everyPairs_iff {kvs : List (Expr × Expr)} :
    everyPairs p q kvs ↔ ∀ kv ∈ kvs, kv.1.Every p q ∧ kv.2.Every p q := by
  induction kvs with
  | nil => simp [everyPairs]
  | cons kv kvs ih => simp [everyPairs, ih, and_assoc]

variable {p' : Expr → Prop} {q' : List Stmt → Prop}

mutual

/-- What is so throughout a tree on two counts is so on both at once. -/
theorem Expr.Every.and : (e : Expr) → e.Every p q → e.Every p' q' →
    e.Every (fun e => p e ∧ p' e) fun ss => q ss ∧ q' ss
  | .ident _, h, h' | .int _ _, h, h' | .str _ _, h, h' | .bool _ _, h, h' | .null _, h, h' =>
    ⟨h, h'⟩
  | .unary _ _ e, h, h' => ⟨⟨h.1, h'.1⟩, .and e h.2 h'.2⟩
  | .binary _ _ l r, h, h' => ⟨⟨h.1, h'.1⟩, .and l h.2.1 h'.2.1, .and r h.2.2 h'.2.2⟩
  | .assign _ _ e, h, h' => ⟨⟨h.1, h'.1⟩, .and e h.2 h'.2⟩
  | .ifElse _ e yes no, h, h' => ⟨⟨h.1, h'.1⟩, .and e h.2.1 h'.2.1,
      .and yes h.2.2.1 h'.2.2.1, everyElse_and no h.2.2.2 h'.2.2.2⟩
  | .fn _ _ b, h, h' => ⟨⟨h.1, h'.1⟩, .and b h.2 h'.2⟩
  | .call _ f es, h, h' => ⟨⟨h.1, h'.1⟩, .and f h.2.1 h'.2.1, everyExprs_and es h.2.2 h'.2.2⟩
  | .array _ es, h, h' => ⟨⟨h.1, h'.1⟩, everyExprs_and es h.2 h'.2⟩
  | .hash _ kvs, h, h' => ⟨⟨h.1, h'.1⟩, everyPairs_and kvs h.2 h'.2⟩
  | .index _ e i, h, h' => ⟨⟨h.1, h'.1⟩, .and e h.2.1 h'.2.1, .and i h.2.2 h'.2.2⟩
  | .forIn _ _ _ _ b, h, h' => ⟨⟨h.1, h'.1⟩, .and b h.2 h'.2⟩

theorem Stmt.Every.and : (s : Stmt) → s.Every p q → s.Every p' q' →
    s.Every (fun e => p e ∧ p' e) fun ss => q ss ∧ q' ss
  | .declare _ _ _ e, h, h' => Expr.Every.and e h h'
  | .ret _ e, h, h' => Expr.Every.and e h h'
  | .expr _ e, h, h' => Expr.Every.and e h h'
  | .block b, h, h' => Block.Every.and b h h'

theorem Block.Every.and : (b : Block) → b.Every p q → b.Every p' q' →
    b.Every (fun e => p e ∧ p' e) fun ss => q ss ∧ q' ss
  | .mk _ ss, h, h' => ⟨⟨h.1, h'.1⟩, everyStmts_and ss h.2 h'.2⟩

theorem everyElse_and : (no : Option Block) → everyElse p q no → everyElse p' q' no →
    everyElse (fun e => p e ∧ p' e) (fun ss => q ss ∧ q' ss) no
  | none, _, _ => trivial
  | some b, h, h' => Block.Every.and b h h'

theorem everyExprs_and : (es : List Expr) → everyExprs p q es → everyExprs p' q' es →
    everyExprs (fun e => p e ∧ p' e) (fun ss => q ss ∧ q' ss) es
  | [], _, _ => trivial
  | e :: es, h, h' => ⟨.and e h.1 h'.1, everyExprs_and es h.2 h'.2⟩

theorem everyPairs_and : (kvs : List (Expr × Expr)) → everyPairs p q kvs → everyPairs p' q' kvs →
    everyPairs (fun e => p e ∧ p' e) (fun ss => q ss ∧ q' ss) kvs
  | [], _, _ => trivial
  | (k, v) :: kvs, h, h' =>
    ⟨.and k h.1 h'.1, .and v h.2.1 h'.2.1, everyPairs_and kvs h.2.2 h'.2.2⟩

theorem everyStmts_and : (ss : List Stmt) → everyStmts p q ss → everyStmts p' q' ss →
    everyStmts (fun e => p e ∧ p' e) (fun ss => q ss ∧ q' ss) ss
  | [], _, _ => trivial
  | s :: ss, h, h' => ⟨.and s h.1 h'.1, everyStmts_and ss h.2 h'.2⟩

end

end

end Scriptlet
