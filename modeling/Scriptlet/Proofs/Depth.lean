import Scriptlet.Evaluator

/-!
# What a larger depth changes

The depth that an evaluation is granted decides whether it comes to an end, and nothing else.

**Theorem (`shortens_eval`).** An evaluation ends as it does at every larger depth, unless it is cut
off.

So of an evaluation that comes to an end one may speak without its depth: what it `Gives`, or the
signal in which it `Stops`, is the same at all depths that are enough.
-/

namespace Scriptlet

/-- `x` ends as `y` does, unless it is cut off. -/
def Shortens {α : Type} (x y : Eval α) : Prop := ∀ σ, x σ = .outOfFuel ∨ x σ = y σ

namespace Shortens

variable {α β γ : Type}

theorem refl (x : Eval α) : Shortens x x := fun _ => .inr rfl

theorem exhausted (y : Eval α) : Shortens Run.exhausted y := fun _ => .inl rfl

/-- How `x` has ended `y` ends, too. -/
theorem keeps {x y : Eval α} {σ : Store} {o : Outcome Store Signal α} (h : Shortens x y)
    (hx : x σ = o) (ho : o ≠ .outOfFuel) : y σ = o := by
  rcases h σ with hcut | hsame
  · exact absurd (hx.symm.trans hcut) ho
  · exact hsame.symm.trans hx

theorem bind {x y : Eval α} {f g : α → Eval β} (h : Shortens x y)
    (hf : ∀ a, Shortens (f a) (g a)) : Shortens (x >>= f) (y >>= g) := by
  intro σ
  rw [Run.bind_apply, Run.bind_apply]
  rcases h σ with hx | hx
  · rw [hx]
    exact .inl rfl
  · rw [← hx]
    cases x σ with
    | ok a τ => exact hf a τ
    | error sig τ => exact .inr rfl
    | outOfFuel => exact .inl rfl

theorem endCall {x y : Eval Value} (h : Shortens x y) :
    Shortens (Eval.endCall x) (Eval.endCall y) := by
  intro σ
  unfold Eval.endCall
  rcases h σ with hx | hx
  · rw [hx]
    exact .inl rfl
  · rw [hx]
    exact .inr rfl

/-! ## Lists -/

theorem foldlM {f g : β → γ → Eval β} (h : ∀ b c, Shortens (f b c) (g b c)) (cs : List γ) (b : β) :
    Shortens (cs.foldlM f b) (cs.foldlM g b) := by
  induction cs generalizing b with
  | nil => exact .refl _
  | cons c cs ih =>
    rw [List.foldlM_cons, List.foldlM_cons]
    exact (h b c).bind ih

theorem mapM {f g : γ → Eval β} (h : ∀ c, Shortens (f c) (g c)) (cs : List γ) :
    Shortens (cs.mapM f) (cs.mapM g) := by
  induction cs with
  | nil => exact .refl _
  | cons c cs ih =>
    rw [List.mapM_cons, List.mapM_cons]
    exact (h c).bind fun b => ih.bind fun bs => .refl _

theorem forM {f g : γ → Eval PUnit} (h : ∀ c, Shortens (f c) (g c)) (cs : List γ) :
    Shortens (cs.forM f) (cs.forM g) := by
  induction cs with
  | nil => exact .refl _
  | cons c cs ih => exact (h c).bind fun _ => ih

end Shortens

namespace Eval

variable {reg : Registry} {m n : Nat} {env : ScopeId}

/-! ## Parts of an evaluation -/

theorem shortens_sequence {run run' : Stmt → Eval Value} (h : ∀ s, Shortens (run s) (run' s))
    (ss : List Stmt) : Shortens (sequence run ss) (sequence run' ss) :=
  .foldlM (fun _ => h) ss .null

theorem shortens_pair {run run' : Expr → Eval Value} (h : ∀ e, Shortens (run e) (run' e))
    (entries : OrderedMap HashKey Value) (kv : Expr × Expr) :
    Shortens (pair run entries kv) (pair run' entries kv) :=
  (h kv.1).bind fun _ => (Shortens.refl _).bind fun _ => (h kv.2).bind fun _ => .refl _

section

variable {run run' : ScopeId → Stmt → Eval Value} (h : ∀ s st, Shortens (run s st) (run' s st))
include h

theorem shortens_apply (f : Expr) (callee : Value) (args : List Value) :
    Shortens (apply reg run f callee args) (apply reg run' f callee args) := by
  cases callee with
  | function c =>
    rw [apply, apply]
    split
    · exact (Shortens.refl _).bind fun s => (Shortens.refl _).bind fun _ =>
        (shortens_sequence (h s) c.body.stmts).endCall
    · exact .refl _
  | _ => exact .refl _

theorem shortens_pass (index value : Ident) (body : Block) (entry : Value × Value) :
    Shortens (pass run env index value body entry) (pass run' env index value body entry) :=
  (Shortens.refl _).bind fun s => (Shortens.refl _).bind fun _ =>
    (shortens_sequence (h s) body.stmts).bind fun _ => .refl _

end

/-! ## Statements and expressions -/

section

variable (hexec : ∀ env s, Shortens (exec reg m env s) (exec reg n env s))
  (heval : ∀ env e, Shortens (eval reg m env e) (eval reg n env e))
include hexec heval

theorem shortens_exec_succ (s : Stmt) :
    Shortens (exec reg (m + 1) env s) (exec reg (n + 1) env s) := by
  cases s with
  | declare t constant x e => exact (heval env e).bind fun _ => .refl _
  | ret t e => exact (heval env e).bind fun _ => .refl _
  | expr t e => exact heval env e
  | block b => exact shortens_sequence (hexec env) b.stmts

theorem shortens_eval_succ (e : Expr) :
    Shortens (eval reg (m + 1) env e) (eval reg (n + 1) env e) := by
  cases e with
  | ident x => exact .refl _
  | int t k => exact .refl _
  | str t s => exact .refl _
  | bool t b => exact .refl _
  | null t => exact .refl _
  | unary t op e => exact (heval env e).bind fun _ => .refl _
  | binary t op l r => exact (heval env l).bind fun _ => (heval env r).bind fun _ => .refl _
  | assign t x e => exact (heval env e).bind fun _ => .refl _
  | ifElse t test yes no =>
    refine (heval env test).bind fun v => ?_
    split
    · exact shortens_sequence (hexec env) yes.stmts
    · cases no with
      | some b => exact shortens_sequence (hexec env) b.stmts
      | none => exact .refl _
  | fn t params body => exact .refl _
  | call t f args =>
    exact (heval env f).bind fun callee => (Shortens.mapM (heval env) args).bind fun vs =>
      shortens_apply hexec f callee vs
  | array t es => exact (Shortens.mapM (heval env) es).bind fun _ => .refl _
  | hash t kvs =>
    exact (Shortens.foldlM (shortens_pair (heval env)) kvs .empty).bind fun _ => .refl _
  | index t e i => exact (heval env e).bind fun _ => (heval env i).bind fun _ => .refl _
  | forIn t index value target body =>
    exact (Shortens.refl _).bind fun _ => (Shortens.refl _).bind fun es =>
      (Shortens.forM (shortens_pass hexec index value body) es).bind fun _ => .refl _

end

/-- **A larger depth changes nothing** but whether an evaluation is cut off. -/
theorem shortens_eval (h : m ≤ n) :
    (∀ env s, Shortens (exec reg m env s) (exec reg n env s)) ∧
      ∀ env e, Shortens (eval reg m env e) (eval reg n env e) := by
  induction m generalizing n with
  | zero => exact ⟨fun _ _ => .exhausted _, fun _ _ => .exhausted _⟩
  | succ m ih =>
    obtain ⟨n, rfl⟩ := Nat.exists_eq_add_of_le' h
    have ih := ih (Nat.le_add_left m n)
    rw [← Nat.add_assoc]
    exact ⟨fun _ => shortens_exec_succ ih.1 ih.2, fun _ => shortens_eval_succ ih.1 ih.2⟩

end Eval

/-! ## Coming to an end -/

/-- With enough depth `x` gives `a`, and leaves the store `τ`. -/
def Gives {α : Type} (x : Nat → Eval α) (σ : Store) (a : α) (τ : Store) : Prop :=
  ∃ n, x n σ = .ok a τ

/-- With enough depth `x` stops in the signal, and leaves the store `τ`. -/
def Stops {α : Type} (x : Nat → Eval α) (σ : Store) (sig : Signal) (τ : Store) : Prop :=
  ∃ n, x n σ = .error sig τ

/-- What `x` does at some depth it does at every larger one, unless it was cut off. -/
def Deepens {α : Type} (x : Nat → Eval α) : Prop := ∀ m n, m ≤ n → Shortens (x m) (x n)

namespace Deepens

variable {α : Type} {x : Nat → Eval α} {σ : Store} {o : Outcome Store Signal α} {m n : Nat}

/-- How an evaluation has ended stays so. -/
theorem keeps (hx : Deepens x) (h : x m σ = o) (ho : o ≠ .outOfFuel) (hmn : m ≤ n) :
    x n σ = o :=
  (hx m n hmn).keeps h ho

/-- An evaluation that has come to an end does so at every depth that is enough. -/
theorem ends_or_cut (hx : Deepens x) (h : x m σ = o) (ho : o ≠ .outOfFuel) (n : Nat) :
    x n σ = .outOfFuel ∨ x n σ = o := by
  rcases Nat.le_total m n with hmn | hnm
  · exact .inr (hx.keeps h ho hmn)
  · exact (hx n m hnm σ).imp_right fun hsame => hsame.trans h

end Deepens

namespace Eval

theorem deepens_exec (reg : Registry) (env : ScopeId) (s : Stmt) :
    Deepens fun n => exec reg n env s := fun _ _ h => (shortens_eval h).1 env s

theorem deepens_eval (reg : Registry) (env : ScopeId) (e : Expr) :
    Deepens fun n => eval reg n env e := fun _ _ h => (shortens_eval h).2 env e

theorem deepens_sequence (reg : Registry) (env : ScopeId) (ss : List Stmt) :
    Deepens fun n => sequence (exec reg n env) ss :=
  fun _ _ h => shortens_sequence ((shortens_eval h).1 env) ss

theorem deepens_mapM (reg : Registry) (env : ScopeId) (es : List Expr) :
    Deepens fun n => es.mapM (eval reg n env) :=
  fun _ _ h => .mapM ((shortens_eval h).2 env) es

theorem deepens_pairs (reg : Registry) (env : ScopeId) (entries : OrderedMap HashKey Value)
    (kvs : List (Expr × Expr)) :
    Deepens fun n => kvs.foldlM (pair (eval reg n env)) entries :=
  fun _ _ h => .foldlM (shortens_pair ((shortens_eval h).2 env)) kvs entries

end Eval

end Scriptlet
