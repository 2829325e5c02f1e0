import Mathlib.Algebra.Group.Int.Defs
import Scriptlet.Proofs.Printing.Rereading
import Scriptlet.Session

/-!
# Integer programs

**Theorem (`arithmetic_exact_or_first_failure`).** The text of an arithmetic tree, run as a
source, gives the exact value of the tree if every operation in it can be done in 64 bits.
Otherwise it gives the failure of the first operation that cannot.

**Operations in order** (`Arith.steps`). A tree stands for a list of operations with their exact
operands: first those of its left operand, then those of its right operand, then its own. This
list knows nothing of 64 bits. An operation can be done (`Operation.Fits`) if its exact result is a
64-bit integer and it divides by no zero, and if it cannot it fails in one way (`Operation.Fails`).

The proof is one induction on the tree. If the operations of an operand can all be done, its
exact value is an integer, so the operands of the next operation are the exact ones too.
-/

namespace Scriptlet

/-! ## Trees -/

inductive ArithOp where
  | add | sub | mul | div
deriving DecidableEq, Repr

namespace ArithOp

def binary : ArithOp → BinaryOp
  | add => .add | sub => .sub | mul => .mul | div => .div

/-- The exact result. A quotient is truncated toward zero. -/
def exact : ArithOp → Int → Int → Int
  | add, a, b => a + b
  | sub, a, b => a - b
  | mul, a, b => a * b
  | div, a, b => a.tdiv b

end ArithOp

/-- Arithmetic on integers as a program can write it. -/
inductive Arith where
  | lit (n : Fin (2 ^ 63))
  | neg (e : Arith)
  | op (o : ArithOp) (l r : Arith)
deriving DecidableEq, Repr

/-- An operation and its exact operands. -/
inductive Operation where
  | neg (a : Int)
  | op (o : ArithOp) (a b : Int)
deriving DecidableEq, Repr

namespace Arith

/-- The exact value, if nothing divides by zero. -/
def value : Arith → Int
  | lit n => n.val
  | neg e => -e.value
  | op o l r => o.exact l.value r.value

/-- The operations from left to right, each after its operands. -/
def steps : Arith → List Operation
  | lit _ => []
  | neg e => e.steps ++ [.neg e.value]
  | op o l r => l.steps ++ r.steps ++ [.op o l.value r.value]

def height : Arith → Nat
  | lit _ => 1
  | neg e => e.height + 1
  | op _ l r => max l.height r.height + 1

/-- The tree as an expression without tokens. -/
def expr : Arith → Expr
  | lit n => .int .blank (.ofNat n.val)
  | neg e => .unary .blank .neg e.expr
  | op o l r => .binary .blank o.binary l.expr r.expr

/-- The canonical text. -/
def text (t : Arith) : String := t.expr.render

end Arith

/-! ## What can be done in 64 bits -/

/-- The number is a 64-bit integer. -/
def Held (r : Int) : Prop := -2 ^ 63 ≤ r ∧ r ≤ 2 ^ 63 - 1

instance (r : Int) : Decidable (Held r) := inferInstanceAs (Decidable (_ ∧ _))

theorem held_iff {r : Int} : Held r ↔ ∃ n : Integer, n.toInt = r := by
  refine ⟨fun h => ⟨.ofInt r, Int64.toInt_ofInt_of_le h.1 (by have := h.2; omega)⟩, ?_⟩
  rintro ⟨n, rfl⟩
  have := n.toInt_lt
  exact ⟨n.le_toInt, by omega⟩

theorem ofInt?_eq_none {r : Int} (h : ¬ Held r) : Integer.ofInt? r = none := by
  refine Option.eq_none_iff_forall_ne_some.2 fun n hn => h ?_
  exact held_iff.2 ⟨n, Integer.ofInt?_eq_some_iff.1 hn⟩

namespace Operation

/-- The operation has a result, and it is a 64-bit integer. -/
def Fits : Operation → Prop
  | neg a => Held (-a)
  | op o a b => (o = .div → b ≠ 0) ∧ Held (o.exact a b)

instance : (s : Operation) → Decidable s.Fits
  | neg _ => inferInstanceAs (Decidable (Held _))
  | op _ _ _ => inferInstanceAs (Decidable (_ ∧ _))

/-- How an operation on 64-bit integers fails. Operands are reported as they are. -/
inductive Fails : Operation → RuntimeError → Prop
  | neg {n : Integer} : n.toInt = -2 ^ 63 → Fails (.neg (-2 ^ 63)) (.negationOverflow n)
  | zero {a : Int} : Fails (.op .div a 0) .divisionByZero
  | overflow {o : ArithOp} {a b : Int} {m n : Integer} : m.toInt = a → n.toInt = b →
      (o = .div → b ≠ 0) → ¬ Held (o.exact a b) →
      Fails (.op o a b) (.integerOverflow m o.binary.spelling n)

theorem Fails.not_fits {s : Operation} {e : RuntimeError} (h : s.Fails e) : ¬ s.Fits := by
  cases h with
  | neg => exact fun h => absurd h.2 (by decide)
  | zero => exact fun h => h.1 rfl rfl
  | overflow _ _ _ hheld => exact fun h => hheld h.2

theorem Fails.unique {s : Operation} {e e' : RuntimeError} (h : s.Fails e) (h' : s.Fails e') :
    e = e' := by
  cases h with
  | neg hn =>
    cases h' with
    | neg hn' => rw [Int64.toInt_inj.1 (hn.trans hn'.symm)]
  | zero =>
    cases h' with
    | zero => rfl
    | overflow _ _ hb _ => exact absurd rfl (hb rfl)
  | overflow hm hn hb _ =>
    cases h' with
    | zero => exact absurd rfl (hb rfl)
    | overflow hm' hn' _ _ =>
      rw [Int64.toInt_inj.1 (hm.trans hm'.symm), Int64.toInt_inj.1 (hn.trans hn'.symm)]

end Operation

/-- The operations, taken in order, come to one that fails with `e`. -/
inductive FirstFailure : List Operation → RuntimeError → Prop
  | here {s : Operation} {ss : List Operation} {e : RuntimeError} :
      s.Fails e → FirstFailure (s :: ss) e
  | later {s : Operation} {ss : List Operation} {e : RuntimeError} :
      s.Fits → FirstFailure ss e → FirstFailure (s :: ss) e

namespace FirstFailure

variable {ss ss' : List Operation} {e e' : RuntimeError}

theorem append (h : FirstFailure ss e) (ss' : List Operation) : FirstFailure (ss ++ ss') e := by
  induction h with
  | here h => exact .here h
  | later h _ ih => exact .later h ih

theorem after (h : FirstFailure ss' e) (hfit : ∀ s ∈ ss, s.Fits) : FirstFailure (ss ++ ss') e := by
  induction ss with
  | nil => exact h
  | cons s ss ih =>
    exact .later (hfit s List.mem_cons_self) (ih fun u hu => hfit u (List.mem_cons_of_mem s hu))

theorem not_fits (h : FirstFailure ss e) : ¬ ∀ s ∈ ss, s.Fits := by
  induction h with
  | here h => exact fun hfit => h.not_fits (hfit _ List.mem_cons_self)
  | later _ _ ih => exact fun hfit => ih fun u hu => hfit u (List.mem_cons_of_mem _ hu)

theorem unique (h : FirstFailure ss e) (h' : FirstFailure ss e') : e = e' := by
  induction h with
  | here h =>
    cases h' with
    | here h' => exact h.unique h'
    | later h' _ => exact absurd h' h.not_fits
  | later h _ ih =>
    cases h' with
    | here h' => exact absurd h h'.not_fits
    | later _ h' => exact ih h'

end FirstFailure

theorem fits_append_singleton {ss : List Operation} {s : Operation} (hss : ∀ u ∈ ss, u.Fits)
    (hs : s.Fits) : ∀ u ∈ ss ++ [s], u.Fits := by
  intro u hu
  rcases List.mem_append.1 hu with hu | hu
  · exact hss u hu
  · exact List.mem_singleton.1 hu ▸ hs

/-! ## One operation -/

/-- The operators on integers do what fits and fail otherwise. -/
theorem unary_neg (n : Integer) :
    (∃ k : Integer, (Operation.neg n.toInt).Fits ∧ k.toInt = -n.toInt ∧
        Value.unary .neg (.integer n) = .ok (.integer k)) ∨
      ∃ e, (Operation.neg n.toInt).Fails e ∧ Value.unary .neg (.integer n) = .error e := by
  by_cases hheld : Held (-n.toInt)
  · obtain ⟨k, hk⟩ := held_iff.1 hheld
    refine .inl ⟨k, hheld, hk, ?_⟩
    rw [Value.unary, Integer.neg?, Integer.ofInt?_eq_some_iff.2 hk]
  · have hmin : n.toInt = -2 ^ 63 := by
      have := n.le_toInt
      have := n.toInt_lt
      unfold Held at hheld
      omega
    refine .inr ⟨.negationOverflow n, hmin ▸ Operation.Fails.neg hmin, ?_⟩
    rw [Value.unary, Integer.neg?, ofInt?_eq_none hheld]

theorem binary_integer (o : ArithOp) (m n : Integer) :
    (∃ k : Integer, (Operation.op o m.toInt n.toInt).Fits ∧ k.toInt = o.exact m.toInt n.toInt ∧
        Value.binary o.binary (.integer m) (.integer n) = .ok (.integer k)) ∨
      ∃ e, (Operation.op o m.toInt n.toInt).Fails e ∧
        Value.binary o.binary (.integer m) (.integer n) = .error e := by
  have hzero : n = 0 ↔ n.toInt = 0 := by rw [← Int64.toInt_inj]; rfl
  by_cases hdiv : o = .div ∧ n.toInt = 0
  · obtain ⟨rfl, hn⟩ := hdiv
    refine .inr ⟨.divisionByZero, hn ▸ Operation.Fails.zero, ?_⟩
    show Value.arithmetic .div m n = _
    rw [Value.arithmetic, if_pos (hzero.2 hn)]
  · have hb : o = .div → n.toInt ≠ 0 := fun ho hn => hdiv ⟨ho, hn⟩
    have hexact : Value.binary o.binary (.integer m) (.integer n) =
        Value.exactly o.binary m n (Integer.ofInt? (o.exact m.toInt n.toInt)) := by
      cases o with
      | add | sub | mul => rfl
      | div =>
        show Value.arithmetic .div m n = _
        rw [Value.arithmetic, if_neg (mt hzero.1 (hb rfl))]
        rfl
    rw [hexact]
    by_cases hheld : Held (o.exact m.toInt n.toInt)
    · obtain ⟨k, hk⟩ := held_iff.1 hheld
      exact .inl ⟨k, ⟨hb, hheld⟩, hk, by rw [Integer.ofInt?_eq_some_iff.2 hk]; rfl⟩
    · exact .inr ⟨_, .overflow rfl rfl hb hheld, by rw [ofInt?_eq_none hheld]; rfl⟩

/-! ## Evaluating a tree -/

/-- How an evaluation of the tree `t` in the store `σ` may end. -/
inductive Arith.Ends (t : Arith) (σ : Store) : Outcome Store Signal Value → Prop
  | value {n : Integer} :
      (∀ s ∈ t.steps, s.Fits) → n.toInt = t.value → Ends t σ (.ok (.integer n) σ)
  | failure {e : RuntimeError} : FirstFailure t.steps e → Ends t σ (.error (.raised e) σ)

/-- An expression without tokens, taken apart. -/
theorem Expr.eq_int_of_bare {e : Expr} {t : Token} {n : Integer} (h : e.bare = .int t n) :
    ∃ t', e = .int t' n := by
  cases e with
  | int t' m => exact ⟨t', by cases h; rfl⟩
  | _ => cases h

theorem Expr.eq_unary_of_bare {e e₁ : Expr} {t : Token} {o : UnaryOp}
    (h : e.bare = .unary t o e₁) : ∃ t' e₁', e = .unary t' o e₁' ∧ e₁'.bare = e₁ := by
  cases e with
  | unary t' o' e₁' => cases h; exact ⟨t', e₁', rfl, rfl⟩
  | _ => cases h

theorem Expr.eq_binary_of_bare {e l r : Expr} {t : Token} {o : BinaryOp}
    (h : e.bare = .binary t o l r) :
    ∃ t' l' r', e = .binary t' o l' r' ∧ l'.bare = l ∧ r'.bare = r := by
  cases e with
  | binary t' o' l' r' => cases h; exact ⟨t', l', r', rfl, rfl, rfl⟩
  | _ => cases h

theorem eq_expr_of_bareStmts {ss : List Stmt} {t : Token} {e : Expr}
    (h : bareStmts ss = [.expr t e]) : ∃ k e', ss = [.expr k e'] ∧ e'.bare = e := by
  obtain _ | ⟨s, _ | ⟨s', ss⟩⟩ := ss
  · cases h
  · have hs : s.bare = .expr t e := (List.cons.inj h).1
    cases s with
    | expr k e' => exact ⟨k, e', rfl, (Stmt.expr.inj hs).2⟩
    | _ => cases hs
  · cases (List.cons.inj h).2

/-- A result that needed no state. -/
theorem Eval.ofExcept_ok {α : Type} (a : α) (σ : Store) : Eval.ofExcept (.ok a) σ = .ok a σ := rfl

theorem Eval.ofExcept_error {α : Type} (e : RuntimeError) (σ : Store) :
    (Eval.ofExcept (.error e) : Eval α) σ = .error (.raised e) σ := rfl

/-- An expression that is the tree up to tokens evaluates as the tree says. -/
theorem Arith.ends_eval (reg : Registry) (env : ScopeId) (σ : Store) (t : Arith) {n : Nat}
    (hn : t.height ≤ n) {e : Expr} (he : e.bare = t.expr) :
    t.Ends σ (Eval.eval reg n env e σ) := by
  induction t generalizing n e with
  | lit k =>
    obtain ⟨t', rfl⟩ := Expr.eq_int_of_bare he
    obtain ⟨n, rfl⟩ := Nat.exists_eq_add_of_le' hn
    exact .value nofun (Int64.toInt_ofNat_of_lt k.isLt)
  | neg a ih =>
    obtain ⟨t', e', rfl, he'⟩ := Expr.eq_unary_of_bare he
    obtain _ | n := n
    · cases hn
    rw [Eval.eval, Run.bind_apply]
    have ha := ih (Nat.le_of_succ_le_succ hn) he'
    generalize Eval.eval reg n env e' σ = o at ha
    cases ha with
    | failure h => exact .failure (h.append _)
    | @value m hfit hm =>
      dsimp only
      obtain ⟨k, hstep, hk, hval⟩ | ⟨e, hfails, hval⟩ := unary_neg m
      · rw [hval, Eval.ofExcept_ok]
        rw [hm] at hstep hk
        exact .value (fits_append_singleton hfit hstep) hk
      · rw [hval, Eval.ofExcept_error]
        rw [hm] at hfails
        exact .failure (.after (.here hfails) hfit)
  | op o l r ihl ihr =>
    obtain ⟨t', l', r', rfl, hl', hr'⟩ := Expr.eq_binary_of_bare he
    obtain _ | n := n
    · cases hn
    have hheight : max l.height r.height ≤ n := Nat.le_of_succ_le_succ hn
    rw [Eval.eval, Run.bind_apply]
    have hl := ihl (Nat.le_trans (Nat.le_max_left _ _) hheight) hl'
    generalize Eval.eval reg n env l' σ = out at hl
    cases hl with
    | failure h =>
      refine .failure ?_
      rw [steps, List.append_assoc]
      exact h.append _
    | @value a hfitl ha =>
      dsimp only
      rw [Run.bind_apply]
      have hr := ihr (Nat.le_trans (Nat.le_max_right _ _) hheight) hr'
      generalize Eval.eval reg n env r' σ = out at hr
      cases hr with
      | failure h => exact .failure ((h.after hfitl).append _)
      | @value b hfitr hb =>
        dsimp only
        have hfit : ∀ s ∈ l.steps ++ r.steps, s.Fits := by
          intro s hs
          exact (List.mem_append.1 hs).elim (hfitl s) (hfitr s)
        -- The operands have their exact values, so the operation has its exact operands.
        obtain ⟨k, hstep, hk, hval⟩ | ⟨e, hfails, hval⟩ := binary_integer o a b
        · rw [hval, Eval.ofExcept_ok]
          rw [ha, hb] at hstep hk
          exact .value (fits_append_singleton hfit hstep) hk
        · rw [hval, Eval.ofExcept_error]
          rw [ha, hb] at hfails
          exact .failure (.after (.here hfails) hfit)

/-! ## Reading a tree -/

/-- A source that is one expression evaluates it. -/
theorem Session.eval_of_expr (session : Session) {source : String} {k : Token} {e : Expr}
    (hparse : parse source = .ok ⟨[.expr k e]⟩) (depth : Nat) :
    session.eval (depth + 1) source =
      .ok ((Eval.answer (Eval.eval session.registry depth session.globals e) session.store).map
        fun a => (a.1, { session with store := a.2 })) := by
  have hrun : Eval.sequence (Eval.exec session.registry (depth + 1) session.globals) [.expr k e] =
      Eval.eval session.registry depth session.globals e := bind_pure _
  rw [← hrun, Session.eval, hparse]
  rfl

namespace Arith

theorem written_expr (t : Arith) : t.expr.Every Expr.Written StmtsWritten := by
  induction t with
  | lit n =>
    show (0 : Int) ≤ (Int64.ofNat n.val).toInt
    rw [Int64.toInt_ofNat_of_lt n.isLt]
    exact Int.natCast_nonneg _
  | neg _ ih => exact ⟨trivial, ih⟩
  | op _ _ _ ihl ihr => exact ⟨trivial, ihl, ihr⟩

theorem isAssign_expr (t : Arith) : t.expr.isAssign = false := by cases t <;> rfl

theorem grouped_expr (t : Arith) : t.expr.Every Expr.Grouped Separate := by
  induction t with
  | lit n => trivial
  | neg a ih => exact ⟨a.isAssign_expr, ih⟩
  | op _ l r ihl ihr => exact ⟨⟨l.isAssign_expr, r.isAssign_expr⟩, ihl, ihr⟩

theorem bare_expr (t : Arith) : t.expr.bare = t.expr := by
  induction t with
  | lit n => rfl
  | neg _ ih => exact congrArg (Expr.unary _ _) ih
  | op _ _ _ ihl ihr => exact congrArg₂ (Expr.binary _ _) ihl ihr

/-- The text of a tree is read as one expression, which is the tree up to tokens. -/
theorem parse_text (t : Arith) :
    ∃ k e, parse t.text = .ok ⟨[.expr k e]⟩ ∧ e.bare = t.expr := by
  obtain ⟨Q, hparse, hbare⟩ := Program.parse_render_written (P := ⟨[.expr .blank t.expr]⟩)
    ⟨fun s hs => by rw [List.mem_singleton.1 hs]; trivial, t.written_expr, trivial⟩
    ⟨.singleton _, t.grouped_expr, trivial⟩
  obtain ⟨k, e, hQ, he⟩ := eq_expr_of_bareStmts (congrArg Program.stmts hbare)
  rw [t.bare_expr] at he
  obtain ⟨ss⟩ := Q
  cases hQ
  exact ⟨k, e, hparse, he⟩

/-- A session that runs the text of a tree evaluates the tree. -/
theorem session_eval (session : Session) (t : Arith) {depth : Nat} (hdepth : t.height < depth) :
    (∃ n : Integer, (∀ s ∈ t.steps, s.Fits) ∧ n.toInt = t.value ∧
        session.eval depth t.text = .ok (some (.integer n, session))) ∨
      ∃ e, FirstFailure t.steps e ∧
        session.eval depth t.text = .ok (some (.error e, session)) := by
  obtain ⟨k, e, hparse, he⟩ := t.parse_text
  obtain _ | depth := depth
  · cases hdepth
  have hends := t.ends_eval session.registry session.globals session.store
    (Nat.le_of_lt_succ hdepth) he
  rw [session.eval_of_expr hparse, Eval.answer]
  generalize Eval.eval session.registry depth session.globals e session.store = o at hends
  cases hends with
  | @value n hfit hn => exact .inl ⟨n, hfit, hn, rfl⟩
  | @failure e h => exact .inr ⟨e, h, rfl⟩

end Arith

/-- **Integer programs compute exactly or fail at the right operation.** -/
theorem arithmetic_exact_or_first_failure (session : Session) (t : Arith) {depth : Nat}
    (hdepth : t.height < depth) :
    (∀ n : Integer, session.eval depth t.text = .ok (some (.integer n, session)) ↔
      (∀ s ∈ t.steps, s.Fits) ∧ n.toInt = t.value) ∧
    (∀ e, session.eval depth t.text = .ok (some (.error e, session)) ↔
      FirstFailure t.steps e) ∧
    ((∃ n, session.eval depth t.text = .ok (some (.integer n, session))) ∨
      ∃ e, session.eval depth t.text = .ok (some (.error e, session))) := by
  obtain ⟨m, hfit, hm, heval⟩ | ⟨e, hfirst, heval⟩ := t.session_eval session hdepth
  · refine ⟨fun n => ⟨fun h => ?_, fun ⟨_, hn⟩ => ?_⟩, fun e => ⟨fun h => ?_, fun h => ?_⟩,
      .inl ⟨m, heval⟩⟩
    · rw [heval] at h
      cases h
      exact ⟨hfit, hm⟩
    · rw [heval, Int64.toInt_inj.1 (hm.trans hn.symm)]
    · rw [heval] at h
      cases h
    · exact absurd hfit h.not_fits
  · refine ⟨fun n => ⟨fun h => ?_, fun ⟨hfit, _⟩ => absurd hfit hfirst.not_fits⟩,
      fun e' => ⟨fun h => ?_, fun h => ?_⟩, .inr ⟨e, heval⟩⟩
    · rw [heval] at h
      cases h
    · rw [heval] at h
      cases h
      exact hfirst
    · rw [heval, hfirst.unique h]

/-- In `((-9223372036854775807) - 1) / (-1)` the last operation is the first that fails. -/
theorem first_failure_is_quotient : ∃ t : Arith,
    t.text = "(((-9223372036854775807) - 1) / (-1))" ∧ t.height < 5 ∧
      (Session.new .standard (.console #[])).eval 5 t.text =
        .ok (some (.error (.integerOverflow Int64.minValue "/" (-1)),
          .new .standard (.console #[]))) := by
  refine ⟨.op .div (.op .sub (.neg (.lit 9223372036854775807)) (.lit 1)) (.neg (.lit 1)),
    by decide +kernel, by decide, ?_⟩
  refine ((arithmetic_exact_or_first_failure _ _ (by decide)).2.1 _).2 ?_
  refine .later (by decide) (.later (by decide) (.later (by decide) (.here ?_)))
  exact .overflow (o := .div) (by decide) (by decide) (by decide) (by decide)

end Scriptlet
