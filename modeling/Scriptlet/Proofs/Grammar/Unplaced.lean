import Scriptlet.Proofs.Joining.Trees
import Scriptlet.Syntax.Parse

/-!
# Reading without positions

The grammar never looks at the position of a token. It copies it into trees and diagnostics.

**Theorem (`unplaces_program`).** Reading a program and then taking out all positions comes to the
same as taking them out of the tokens first.

`Unplaces f x x'` says so of a step `x`, where `f` takes the positions out of what it reads. The
other step, `x'`, is the same rule, with positions taken out of what it has been given, as the
token of an operator or the left side of an assignment.
-/

namespace Scriptlet

/-- The diagnostic wherever it stands. -/
def Diagnostic.unplaced (d : Diagnostic) : Diagnostic := { d with position := .start }

namespace ParseState

def unplaced (s : ParseState) : ParseState :=
  ⟨⟨s.ahead.tokens.map Token.unplaced, .start⟩, s.recorded.map Diagnostic.unplaced⟩

theorem unplaced_current (s : ParseState) :
    s.unplaced.ahead.current = s.ahead.current.unplaced := by
  obtain ⟨⟨_ | ⟨t, ts⟩, q⟩, ds⟩ := s <;> rfl

theorem unplaced_upcoming (s : ParseState) :
    s.unplaced.ahead.upcoming = s.ahead.upcoming.unplaced := by
  obtain ⟨⟨_ | ⟨t, _ | ⟨u, ts⟩⟩, q⟩, ds⟩ := s <;> rfl

end ParseState

namespace Parse

variable {α β γ δ : Type}

/-- The outcome without positions, where `f` takes them out of the value. -/
def unplacedBy (f : α → β) :
    Outcome ParseState Diagnostic α → Outcome ParseState Diagnostic β
  | .ok a t => .ok (f a) t.unplaced
  | .error d t => .error d.unplaced t.unplaced
  | .outOfFuel => .outOfFuel

/-- `x'` does without positions what `x` does with them. -/
def Unplaces (f : α → β) (x : Parse α) (x' : Parse β) : Prop :=
  ∀ s, x' s.unplaced = unplacedBy f (x s)

namespace Unplaces

variable {f : α → β} {g : γ → δ} {x y : Parse α} {x' y' : Parse β}

theorem pure (a : α) : Unplaces f (Pure.pure a) (Pure.pure (f a)) := fun _ => rfl

theorem exhausted : Unplaces f Run.exhausted Run.exhausted := fun _ => rfl

theorem fail (d : Diagnostic) : Unplaces f (Run.fail d) (Run.fail d.unplaced) := fun _ => rfl

theorem bind {h : α → Parse γ} {h' : β → Parse δ} (hx : Unplaces f x x')
    (hh : ∀ a, Unplaces g (h a) (h' (f a))) : Unplaces g (x >>= h) (x' >>= h') := by
  intro s
  rw [Run.bind_apply, Run.bind_apply, hx s]
  cases x s with
  | ok a t => exact hh a t
  | error d t => rfl
  | outOfFuel => rfl

theorem ite {c : Prop} [Decidable c] (hx : Unplaces f x x') (hy : Unplaces f y y') :
    Unplaces f (if c then x else y) (if c then x' else y') := by
  split
  · exact hx
  · exact hy

/-! ## Tokens -/

theorem current {h : Token → Parse γ} {h' : Token → Parse δ}
    (hh : ∀ t, Unplaces g (h t) (h' t.unplaced)) :
    Unplaces g (Parse.current >>= h) (Parse.current >>= h') := by
  intro s
  rw [Parse.current, Run.bind_apply, Run.bind_apply, Run.read_apply, Run.read_apply,
    s.unplaced_current]
  exact hh s.ahead.current s

theorem upcoming {h : Token → Parse γ} {h' : Token → Parse δ}
    (hh : ∀ t, Unplaces g (h t) (h' t.unplaced)) :
    Unplaces g (Parse.upcoming >>= h) (Parse.upcoming >>= h') := by
  intro s
  rw [Parse.upcoming, Run.bind_apply, Run.bind_apply, Run.read_apply, Run.read_apply,
    s.unplaced_upcoming]
  exact hh s.ahead.upcoming s

theorem advance : Unplaces id Parse.advance Parse.advance := by
  rintro ⟨⟨_ | ⟨t, ts⟩, q⟩, ds⟩ <;> rfl

theorem expect (k : Kind) : Unplaces id (Parse.expect k) (Parse.expect k) :=
  upcoming fun _ => .ite advance (fail _)

theorem skip (k : Kind) : Unplaces id (Parse.skip k) (Parse.skip k) :=
  upcoming fun _ => .ite advance (pure ())

theorem name : Unplaces Ident.unplaced Parse.name Parse.name :=
  (expect .ident).bind fun _ => current fun t => pure (Ident.ofToken t)

/-! ## Recovery -/

theorem skipBroken_map (ts : List Token) :
    skipBroken (ts.map Token.unplaced) = (skipBroken ts).map Token.unplaced := by
  fun_induction skipBroken ts with
  | case1 => rfl
  | case2 t => rfl
  | case3 t u rest h =>
    rw [List.map_cons, List.map_cons, skipBroken]
    exact if_pos h
  | case4 t u rest h ih =>
    rw [List.map_cons, List.map_cons, skipBroken]
    exact (if_neg h).trans ih

theorem recover (hx : Unplaces f x x') :
    Unplaces (Option.map f) (Parse.recover x) (Parse.recover x') := by
  intro s
  unfold Parse.recover
  rw [hx s]
  cases x s with
  | ok a t => rfl
  | error d t =>
    show Outcome.ok none _ = Outcome.ok none _
    congr 1
    rw [ParseState.unplaced, ParseState.unplaced, skipBroken_map, Array.map_push]
  | outOfFuel => rfl

end Unplaces

/-! ## Rule by rule -/

namespace Rules

theorem unplaces_names (k : Nat) : Unplaces (List.map Ident.unplaced) (names k) (names k) := by
  induction k with
  | zero => exact .exhausted
  | succ k ih =>
    exact .bind .name fun x => .upcoming fun _ => .ite
      (.bind .advance fun _ => ih.bind fun xs => .pure _)
      (.bind (.expect _) fun _ => .pure _)

theorem unplaces_params (r : Rules) :
    Unplaces (List.map Ident.unplaced) r.params r.params :=
  .upcoming fun _ => .ite (.bind .advance fun _ => .pure []) (unplaces_names _)

theorem unplaces_pairEnd : Unplaces id pairEnd pairEnd :=
  .upcoming fun _ => .ite (.pure ()) (.expect _)

theorem unplaces_passBroken : Unplaces id passBroken passBroken :=
  .current fun _ => .ite (.pure ()) .advance

/-- What is nested in the rules is read alike without positions. -/
structure Unplace (r : Rules) : Prop where
  expression : ∀ p, Unplaces Expr.unplaced (r.expression p) (r.expression p)
  block : Unplaces Block.unplaced r.block r.block

namespace Unplace

variable {r : Rules} (hr : r.Unplace)
include hr

theorem exprs (close : Kind) (k : Nat) :
    Unplaces unplacedExprs (r.exprs close k) (r.exprs close k) := by
  induction k with
  | zero => exact .exhausted
  | succ k ih =>
    exact (hr.expression _).bind fun e => .upcoming fun _ => .ite
      (.bind .advance fun _ => .bind .advance fun _ => ih.bind fun es => .pure _)
      (.bind (.expect _) fun _ => .pure _)

theorem list (close : Kind) : Unplaces unplacedExprs (r.list close) (r.list close) :=
  .upcoming fun _ => .bind .advance fun _ => .ite (.pure []) (hr.exprs close _)

theorem pairs (k : Nat) : Unplaces unplacedPairs (r.pairs k) (r.pairs k) := by
  induction k with
  | zero => exact .exhausted
  | succ k ih =>
    exact .upcoming fun _ => .bind .advance fun _ => .ite (.pure []) <|
      (hr.expression _).bind fun key => .bind (.expect _) fun _ => .bind .advance fun _ =>
        (hr.expression _).bind fun value => unplaces_pairEnd.bind fun _ =>
          ih.bind fun rest => .pure _

theorem blockAhead : Unplaces Block.unplaced r.blockAhead r.blockAhead :=
  .bind (.expect _) fun _ => hr.block

theorem elseBranch : Unplaces unplacedElse r.elseBranch r.elseBranch :=
  .upcoming fun _ => .ite (.bind .advance fun _ => hr.blockAhead.bind fun _ => .pure _)
    (.pure none)

theorem unary (t : Token) (op : UnaryOp) :
    Unplaces Expr.unplaced (r.unary t op) (r.unary t.unplaced op) :=
  .bind .advance fun _ => (hr.expression _).bind fun _ => .pure _

theorem group : Unplaces Expr.unplaced r.group r.group :=
  .bind .advance fun _ => (hr.expression _).bind fun e => .bind (.expect _) fun _ => .pure e

theorem conditional (t : Token) :
    Unplaces Expr.unplaced (r.conditional t) (r.conditional t.unplaced) :=
  .bind .advance fun _ => (hr.expression _).bind fun _ => hr.blockAhead.bind fun _ =>
    hr.elseBranch.bind fun _ => .pure _

theorem function (t : Token) : Unplaces Expr.unplaced (r.function t) (r.function t.unplaced) :=
  .bind (.expect _) fun _ => (unplaces_params r).bind fun _ => hr.blockAhead.bind fun _ => .pure _

theorem loop (t : Token) : Unplaces Expr.unplaced (r.loop t) (r.loop t.unplaced) :=
  .bind .name fun _ => .bind (.expect _) fun _ => .bind .name fun _ =>
    .bind (.expect _) fun _ => .bind .name fun _ => hr.blockAhead.bind fun _ => .pure _

theorem head : Unplaces Expr.unplaced r.head r.head := by
  refine .current fun t => ?_
  rw [Token.unplaced_kind]
  cases t.kind with
  | ident | string | trueKw | falseKw | nullKw => exact .pure _
  | int =>
    dsimp only
    rw [Token.unplaced_text]
    cases Integer.ofDigits? false t.text.toList with
    | some n => exact .pure _
    | none => exact .fail _
  | bang => exact hr.unary t .not
  | minus => exact hr.unary t .neg
  | lparen => exact hr.group
  | ifKw => exact hr.conditional t
  | fnKw => exact hr.function t
  | lbracket => exact (hr.list .rbracket).bind fun es => .pure _
  | lbrace => exact (hr.pairs r.passes).bind fun kvs => .pure _
  | forKw => exact hr.loop t
  | _ => exact .fail _

theorem extend (left : Expr) (suffix : Suffix) :
    Unplaces Expr.unplaced (r.extend left suffix) (r.extend left.unplaced suffix) := by
  cases suffix with
  | binary op =>
    exact .current fun t => .bind .advance fun _ => (hr.expression _).bind fun right => .pure _
  | call => exact .current fun t => (hr.list .rparen).bind fun es => .pure _
  | index =>
    exact .current fun t => .bind .advance fun _ => (hr.expression _).bind fun i =>
      .bind (.expect _) fun _ => .pure _
  | assign =>
    refine .current fun t => ?_
    have hrefused (e : Expr) : Unplaces Expr.unplaced (giveUp t (.invalidTarget e.render))
        (giveUp t.unplaced (.invalidTarget e.unplaced.render)) := by
      rw [e.render_unplaced]
      exact .fail _
    cases left with
    | ident x => exact .bind .advance fun _ => (hr.expression _).bind fun e => .pure _
    | _ => exact hrefused _

theorem suffixes (p : Precedence) (k : Nat) (left : Expr) :
    Unplaces Expr.unplaced (r.suffixes p k left) (r.suffixes p k left.unplaced) := by
  induction k generalizing left with
  | zero => exact .exhausted
  | succ k ih =>
    refine .upcoming fun t => ?_
    rw [Token.unplaced_kind]
    cases Suffix.ofKind t.kind with
    | none => exact .pure _
    | some suffix =>
      exact .ite (.bind .advance fun _ => (hr.extend left suffix).bind fun e => ih e) (.pure _)

theorem climb (p : Precedence) : Unplaces Expr.unplaced (r.climb p) (r.climb p) :=
  hr.head.bind fun left => hr.suffixes p r.passes left

/-! ## Statements -/

theorem declaration (t : Token) (constant : Bool) :
    Unplaces Stmt.unplaced (r.declaration t constant) (r.declaration t.unplaced constant) :=
  .bind .name fun _ => .bind (.expect _) fun _ => .bind .advance fun _ =>
    (hr.expression _).bind fun _ => .pure _

theorem bareStatement : Unplaces Stmt.unplaced r.bareStatement r.bareStatement := by
  refine .current fun t => ?_
  rw [Token.unplaced_kind]
  cases t.kind with
  | letKw => exact hr.declaration t false
  | constKw => exact hr.declaration t true
  | returnKw => exact .bind .advance fun _ => (hr.expression _).bind fun e => .pure _
  | _ => exact (hr.expression _).bind fun e => .pure _

theorem statement : Unplaces Stmt.unplaced r.statement r.statement :=
  hr.bareStatement.bind fun s => .bind (.skip _) fun _ => .pure s

theorem blockStmts (k : Nat) : Unplaces unplacedStmts (r.blockStmts k) (r.blockStmts k) := by
  induction k with
  | zero => exact .exhausted
  | succ k ih =>
    refine .current fun _ => .ite (.pure []) (hr.statement.recover.bind fun s? => ?_)
    cases s? with
    | some s => exact .bind .advance fun _ => ih.bind fun ss => .pure _
    | none => exact unplaces_passBroken.bind fun _ => ih

theorem braces : Unplaces Block.unplaced r.braces r.braces :=
  .current fun _ => .bind .advance fun _ => (hr.blockStmts r.passes).bind fun _ => .pure _

theorem programStmts (k : Nat) :
    Unplaces (List.map Stmt.unplaced) (r.programStmts k) (r.programStmts k) := by
  induction k with
  | zero => exact .exhausted
  | succ k ih =>
    refine .current fun _ => .ite (.pure []) (hr.statement.recover.bind fun s? =>
      .bind .advance fun _ => ih.bind fun ss => ?_)
    cases s? with
    | some s => exact .pure _
    | none => exact .pure ss

end Unplace

theorem unplace_rules (n : Nat) : (rules n).Unplace := by
  induction n with
  | zero => exact ⟨fun _ => .exhausted, .exhausted⟩
  | succ n ih => exact ⟨ih.climb, ih.braces⟩

end Rules

/-- **The grammar does not look at positions.** -/
theorem unplaces_program : Unplaces Program.unplaced program program := by
  have hstmts : Unplaces (List.map Stmt.unplaced) (nested fun r => r.programStmts r.passes)
      (nested fun r => r.programStmts r.passes) := by
    intro s
    rw [nested, nested, show s.unplaced.ahead.tokens.length = s.ahead.tokens.length from
      List.length_map _]
    exact (Rules.unplace_rules _).programStmts _ s
  exact hstmts.bind fun ss => .pure _

end Parse

end Scriptlet
