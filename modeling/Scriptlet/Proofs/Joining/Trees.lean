import Scriptlet.Proofs.Scanning.Spelling
import Scriptlet.Syntax.Render

/-!
# Trees up to positions

`unplaced` takes the positions out of a tree and leaves everything else. The text of a tree does
not show positions.
-/

namespace Scriptlet

def Ident.unplaced (x : Ident) : Ident := ⟨x.token.unplaced, x.name⟩

@[simp] theorem Ident.unplaced_name (x : Ident) : x.unplaced.name = x.name := rfl

mutual

def Expr.unplaced : Expr → Expr
  | .ident x => .ident x.unplaced
  | .int t n => .int t.unplaced n
  | .str t s => .str t.unplaced s
  | .bool t b => .bool t.unplaced b
  | .null t => .null t.unplaced
  | .unary t op e => .unary t.unplaced op e.unplaced
  | .binary t op l r => .binary t.unplaced op l.unplaced r.unplaced
  | .assign t x e => .assign t.unplaced x.unplaced e.unplaced
  | .ifElse t e yes no => .ifElse t.unplaced e.unplaced yes.unplaced (unplacedElse no)
  | .fn t ps b => .fn t.unplaced (ps.map Ident.unplaced) b.unplaced
  | .call t f es => .call t.unplaced f.unplaced (unplacedExprs es)
  | .array t es => .array t.unplaced (unplacedExprs es)
  | .hash t kvs => .hash t.unplaced (unplacedPairs kvs)
  | .index t e i => .index t.unplaced e.unplaced i.unplaced
  | .forIn t i v x b => .forIn t.unplaced i.unplaced v.unplaced x.unplaced b.unplaced

def Stmt.unplaced : Stmt → Stmt
  | .declare t constant x e => .declare t.unplaced constant x.unplaced e.unplaced
  | .ret t e => .ret t.unplaced e.unplaced
  | .expr t e => .expr t.unplaced e.unplaced
  | .block b => .block b.unplaced

def Block.unplaced : Block → Block
  | .mk t ss => .mk t.unplaced (unplacedStmts ss)

def unplacedElse : Option Block → Option Block
  | none => none
  | some b => some b.unplaced

def unplacedExprs : List Expr → List Expr
  | [] => []
  | e :: es => e.unplaced :: unplacedExprs es

def unplacedPairs : List (Expr × Expr) → List (Expr × Expr)
  | [] => []
  | (k, v) :: kvs => (k.unplaced, v.unplaced) :: unplacedPairs kvs

def unplacedStmts : List Stmt → List Stmt
  | [] => []
  | s :: ss => s.unplaced :: unplacedStmts ss

end

theorem unplacedStmts_eq_map (ss : List Stmt) : unplacedStmts ss = ss.map Stmt.unplaced := by
  induction ss with
  | nil => rfl
  | cons s ss ih => rw [unplacedStmts, ih, List.map_cons]

@[simp] theorem Block.unplaced_stmts (b : Block) :
    b.unplaced.stmts = b.stmts.map Stmt.unplaced := by
  cases b with
  | mk t ss => exact unplacedStmts_eq_map ss

def Program.unplaced (p : Program) : Program := ⟨p.stmts.map Stmt.unplaced⟩

/-! ## Texts -/

theorem renderNames_unplaced (xs : List Ident) :
    renderNames (xs.map Ident.unplaced) = renderNames xs := by
  rw [renderNames, renderNames, List.map_map]
  rfl

mutual

theorem Expr.render_unplaced : (e : Expr) → e.unplaced.render = e.render
  | .ident _ | .int _ _ | .str _ _ | .bool _ _ | .null _ => rfl
  | .unary _ _ e => by simp only [Expr.unplaced, Expr.render, e.render_unplaced]
  | .binary _ _ l r => by
    simp only [Expr.unplaced, Expr.render, l.render_unplaced, r.render_unplaced]
  | .assign _ _ e => by
    simp only [Expr.unplaced, Expr.render, Ident.unplaced_name, e.render_unplaced]
  | .ifElse _ e yes no => by
    simp only [Expr.unplaced, Expr.render, e.render_unplaced, yes.render_unplaced,
      renderElse_unplaced no]
  | .fn _ ps b => by simp only [Expr.unplaced, Expr.render, renderNames_unplaced, b.render_unplaced]
  | .call _ f es => by
    simp only [Expr.unplaced, Expr.render, f.render_unplaced, renderExprs_unplaced es]
  | .array _ es => by simp only [Expr.unplaced, Expr.render, renderExprs_unplaced es]
  | .hash _ kvs => by simp only [Expr.unplaced, Expr.render, renderPairs_unplaced kvs]
  | .index _ e i => by simp only [Expr.unplaced, Expr.render, e.render_unplaced, i.render_unplaced]
  | .forIn _ _ _ _ b => by
    simp only [Expr.unplaced, Expr.render, Ident.unplaced_name, b.render_unplaced]

theorem Stmt.render_unplaced : (s : Stmt) → s.unplaced.render = s.render
  | .declare _ _ _ e => by
    simp only [Stmt.unplaced, Stmt.render, Ident.unplaced_name, e.render_unplaced]
  | .ret _ e => by simp only [Stmt.unplaced, Stmt.render, e.render_unplaced]
  | .expr _ e => by simp only [Stmt.unplaced, Stmt.render, e.render_unplaced]
  | .block b => by simp only [Stmt.unplaced, Stmt.render, b.render_unplaced]

theorem Block.render_unplaced : (b : Block) → b.unplaced.render = b.render
  | .mk _ ss => by simp only [Block.unplaced, Block.render, renderStmts_unplaced ss]

theorem renderElse_unplaced : (no : Option Block) →
    renderElse (unplacedElse no) = renderElse no
  | none => rfl
  | some b => by rw [unplacedElse, renderElse, renderElse, b.render_unplaced]

theorem renderExprs_unplaced : (es : List Expr) →
    renderExprs (unplacedExprs es) = renderExprs es
  | [] => rfl
  | e :: es => by
    rw [unplacedExprs, renderExprs, renderExprs, e.render_unplaced, renderExprs_unplaced es]

theorem renderPairs_unplaced : (kvs : List (Expr × Expr)) →
    renderPairs (unplacedPairs kvs) = renderPairs kvs
  | [] => rfl
  | (k, v) :: kvs => by
    rw [unplacedPairs, renderPairs, renderPairs, k.render_unplaced, v.render_unplaced,
      renderPairs_unplaced kvs]

theorem renderStmts_unplaced : (ss : List Stmt) →
    renderStmts (unplacedStmts ss) = renderStmts ss
  | [] => rfl
  | s :: ss => by
    rw [unplacedStmts, renderStmts, renderStmts, s.render_unplaced, renderStmts_unplaced ss]

end

end Scriptlet
