import Scriptlet.Proofs.Printing.Trees

/-!
# The heights of trees

The height of a tree is the depth to which its evaluation nests as long as no function is called.
Lists do not count for themselves, and so neither does a block, for a list of statements, arguments
or pairs costs no depth.

`Fits n` says of a tree without function literals that its height is at most `n`. The parts of a
tree that fits `n + 1` fit `n`.
-/

namespace Scriptlet

/-! ## Heights -/

mutual

def Expr.height : Expr → Nat
  | .ident _ | .int _ _ | .str _ _ | .bool _ _ | .null _ => 1
  | .unary _ _ e => e.height + 1
  | .binary _ _ l r => max l.height r.height + 1
  | .assign _ _ e => e.height + 1
  | .ifElse _ e yes no => max e.height (max yes.height (elseHeight no)) + 1
  | .fn _ _ b => b.height + 1
  | .call _ f es => max f.height (exprsHeight es) + 1
  | .array _ es => exprsHeight es + 1
  | .hash _ kvs => pairsHeight kvs + 1
  | .index _ e i => max e.height i.height + 1
  | .forIn _ _ _ _ b => b.height + 1

def Stmt.height : Stmt → Nat
  | .declare _ _ _ e => e.height + 1
  | .ret _ e => e.height + 1
  | .expr _ e => e.height + 1
  | .block b => b.height + 1

def Block.height : Block → Nat
  | .mk _ ss => stmtsHeight ss

def elseHeight : Option Block → Nat
  | none => 0
  | some b => b.height

def exprsHeight : List Expr → Nat
  | [] => 0
  | e :: es => max e.height (exprsHeight es)

def pairsHeight : List (Expr × Expr) → Nat
  | [] => 0
  | (k, v) :: kvs => max (max k.height v.height) (pairsHeight kvs)

def stmtsHeight : List Stmt → Nat
  | [] => 0
  | s :: ss => max s.height (stmtsHeight ss)

end

def Program.height (p : Program) : Nat := stmtsHeight p.stmts

/-! ## Trees without function literals -/

def Expr.isFunction : Expr → Bool
  | .fn _ _ _ => true
  | _ => false

/-- No function literal is in the program, at whatever depth. -/
def Program.Functionless (p : Program) : Prop := p.Every (·.isFunction = false) fun _ => True

/-- The expression has no function literal in it, and a height of at most `n`. -/
structure Expr.Fits (n : Nat) (e : Expr) : Prop where
  functionless : e.Every (·.isFunction = false) fun _ => True
  height_le : e.height ≤ n

structure Stmt.Fits (n : Nat) (s : Stmt) : Prop where
  functionless : s.Every (·.isFunction = false) fun _ => True
  height_le : s.height ≤ n

structure Block.Fits (n : Nat) (b : Block) : Prop where
  functionless : b.Every (·.isFunction = false) fun _ => True
  height_le : b.height ≤ n

variable {n : Nat}

theorem fits_stmts {ss : List Stmt} (h : everyStmts (·.isFunction = false) (fun _ => True) ss)
    (hn : stmtsHeight ss ≤ n) : ∀ s ∈ ss, s.Fits n := by
  induction ss with
  | nil => exact List.forall_mem_nil _
  | cons s ss ih =>
    rw [stmtsHeight, Nat.max_le] at hn
    exact List.forall_mem_cons.2 ⟨⟨h.1, hn.1⟩, ih h.2 hn.2⟩

theorem fits_exprs {es : List Expr} (h : everyExprs (·.isFunction = false) (fun _ => True) es)
    (hn : exprsHeight es ≤ n) : ∀ e ∈ es, e.Fits n := by
  induction es with
  | nil => exact List.forall_mem_nil _
  | cons e es ih =>
    rw [exprsHeight, Nat.max_le] at hn
    exact List.forall_mem_cons.2 ⟨⟨h.1, hn.1⟩, ih h.2 hn.2⟩

theorem fits_pairs {kvs : List (Expr × Expr)}
    (h : everyPairs (·.isFunction = false) (fun _ => True) kvs) (hn : pairsHeight kvs ≤ n) :
    ∀ kv ∈ kvs, kv.1.Fits n ∧ kv.2.Fits n := by
  induction kvs with
  | nil => exact List.forall_mem_nil _
  | cons kv kvs ih =>
    rw [pairsHeight, Nat.max_le, Nat.max_le] at hn
    exact List.forall_mem_cons.2 ⟨⟨⟨h.1, hn.1.1⟩, h.2.1, hn.1.2⟩, ih h.2.2 hn.2⟩

theorem Block.Fits.stmts {b : Block} (h : b.Fits n) : ∀ s ∈ b.stmts, s.Fits n := by
  obtain ⟨hb, hn⟩ := h
  cases b with
  | mk t ss => exact fits_stmts hb.2 hn

/-! ## The parts of a tree that fits -/

section

variable {t : Token} {x y z : Ident} {e f : Expr} {b : Block}

theorem Stmt.Fits.declare {constant : Bool} (h : (Stmt.declare t constant x e).Fits (n + 1)) :
    e.Fits n :=
  ⟨h.functionless, Nat.le_of_succ_le_succ h.height_le⟩

theorem Stmt.Fits.ret (h : (Stmt.ret t e).Fits (n + 1)) : e.Fits n :=
  ⟨h.functionless, Nat.le_of_succ_le_succ h.height_le⟩

theorem Stmt.Fits.expr (h : (Stmt.expr t e).Fits (n + 1)) : e.Fits n :=
  ⟨h.functionless, Nat.le_of_succ_le_succ h.height_le⟩

theorem Stmt.Fits.block (h : (Stmt.block b).Fits (n + 1)) : b.Fits n :=
  ⟨h.functionless, Nat.le_of_succ_le_succ h.height_le⟩

namespace Expr.Fits

theorem unary {op : UnaryOp} (h : (Expr.unary t op e).Fits (n + 1)) : e.Fits n :=
  ⟨h.functionless.2, Nat.le_of_succ_le_succ h.height_le⟩

theorem binary {op : BinaryOp} (h : (Expr.binary t op e f).Fits (n + 1)) :
    e.Fits n ∧ f.Fits n :=
  have hn := Nat.max_le.1 (Nat.le_of_succ_le_succ h.height_le)
  ⟨⟨h.functionless.2.1, hn.1⟩, h.functionless.2.2, hn.2⟩

theorem assign (h : (Expr.assign t x e).Fits (n + 1)) : e.Fits n :=
  ⟨h.functionless.2, Nat.le_of_succ_le_succ h.height_le⟩

theorem ifElse {no : Option Block} (h : (Expr.ifElse t e b no).Fits (n + 1)) :
    e.Fits n ∧ b.Fits n ∧ ∀ b' ∈ no, b'.Fits n := by
  obtain ⟨⟨-, he, hb, hno⟩, hn⟩ := h
  obtain ⟨hen, hn⟩ := Nat.max_le.1 (Nat.le_of_succ_le_succ hn)
  obtain ⟨hbn, hnon⟩ := Nat.max_le.1 hn
  refine ⟨⟨he, hen⟩, ⟨hb, hbn⟩, fun b' hb' => ?_⟩
  cases hb'
  exact ⟨hno, hnon⟩

theorem call {es : List Expr} (h : (Expr.call t f es).Fits (n + 1)) :
    f.Fits n ∧ ∀ e ∈ es, e.Fits n :=
  have hn := Nat.max_le.1 (Nat.le_of_succ_le_succ h.height_le)
  ⟨⟨h.functionless.2.1, hn.1⟩, fits_exprs h.functionless.2.2 hn.2⟩

theorem array {es : List Expr} (h : (Expr.array t es).Fits (n + 1)) : ∀ e ∈ es, e.Fits n :=
  fits_exprs h.functionless.2 (Nat.le_of_succ_le_succ h.height_le)

theorem hash {kvs : List (Expr × Expr)} (h : (Expr.hash t kvs).Fits (n + 1)) :
    ∀ kv ∈ kvs, kv.1.Fits n ∧ kv.2.Fits n :=
  fits_pairs h.functionless.2 (Nat.le_of_succ_le_succ h.height_le)

theorem index (h : (Expr.index t e f).Fits (n + 1)) : e.Fits n ∧ f.Fits n :=
  have hn := Nat.max_le.1 (Nat.le_of_succ_le_succ h.height_le)
  ⟨⟨h.functionless.2.1, hn.1⟩, h.functionless.2.2, hn.2⟩

theorem forIn (h : (Expr.forIn t x y z b).Fits (n + 1)) : b.Fits n :=
  ⟨h.functionless.2, Nat.le_of_succ_le_succ h.height_le⟩

theorem not_fn {xs : List Ident} : ¬ (Expr.fn t xs b).Fits n := fun h => nomatch h.functionless.1

end Expr.Fits

end

end Scriptlet
