import Scriptlet.Evaluator

/-!
# Evaluation one step at a time

The evaluator says how an evaluation ends. What holds *at every point* of a run, also of one that
never ends, needs the points. Here the same evaluation is a machine: a `Config` has what is being
done (`Control`), the `Frame`s that wait for its value, innermost first, and the store. A step
makes at most one change to the store, and it is always one of the operations of
`Scriptlet.Store` or a native.

The steps follow the evaluator case by case. A value goes to the innermost frame (`resume`); a
signal takes the frames away one by one (`pop`), and only the frame of a call takes in a return.
That the two evaluations are one is proved in `Scriptlet.Proofs.Machine.Adequacy`.
-/

namespace Scriptlet

namespace Machine

open Eval

/-! ## Configurations -/

/-- What a list of values is wanted for. -/
inductive Goal where
  | array
  | call (f : Expr) (callee : Value)

/-- A loop as it is written, and the scope it runs in. -/
structure LoopHead where
  env : ScopeId
  index : Ident
  value : Ident
  target : Ident
  body : Block

/-- What is being done. -/
inductive Control where
  | exec (env : ScopeId) (s : Stmt)
  | eval (env : ScopeId) (e : Expr)
  /-- Statements still to be run; `last` is the value of the one before. -/
  | sequence (env : ScopeId) (last : Value) (stmts : List Stmt)
  /-- Expressions still to be evaluated, after those that gave `values`. -/
  | collect (env : ScopeId) (goal : Goal) (values : List Value) (exprs : List Expr)
  /-- Pairs of a hash still to be evaluated, after those that gave `entries`. -/
  | pairs (env : ScopeId) (entries : OrderedMap HashKey Value) (kvs : List (Expr × Expr))
  /-- Entries that a loop has still to pass over. -/
  | passes (loop : LoopHead) (entries : List (Value × Value))
  /-- Names still to be bound in a scope just opened, and the statements to be run there. -/
  | enter (scope : ScopeId) (bindings : List (Ident × Value)) (stmts : List Stmt)
  | done (v : Value)
  | unwind (sig : Signal)
  /-- A native that does not come back. -/
  | hang

/-- What waits for a value. -/
inductive Frame where
  | declare (env : ScopeId) (constant : Bool) (x : Ident)
  | ret
  | unary (op : UnaryOp)
  /-- The left operand is being evaluated. -/
  | left (env : ScopeId) (op : BinaryOp) (r : Expr)
  /-- The right operand is being evaluated. -/
  | right (op : BinaryOp) (l : Value)
  | assign (env : ScopeId) (x : Ident)
  | branch (env : ScopeId) (yes : Block) (no : Option Block)
  | callee (env : ScopeId) (f : Expr) (args : List Expr)
  | element (env : ScopeId) (goal : Goal) (values : List Value) (exprs : List Expr)
  | key (env : ScopeId) (entries : OrderedMap HashKey Value) (value : Expr)
      (kvs : List (Expr × Expr))
  | entry (env : ScopeId) (entries : OrderedMap HashKey Value) (key : HashKey)
      (kvs : List (Expr × Expr))
  | base (env : ScopeId) (i : Expr)
  | position (base : Value)
  | statement (env : ScopeId) (stmts : List Stmt)
  | pass (loop : LoopHead) (entries : List (Value × Value))
  /-- The body of a function is being run. -/
  | body

structure Config where
  control : Control
  stack : List Frame
  store : Store

/-! ## Steps -/

/-- Do `x`, and go on with what `next` says. -/
def perform {α : Type} (x : Eval α) (next : α → Control) (K : List Frame) (σ : Store) : Config :=
  match x σ with
  | .ok a τ => ⟨next a, K, τ⟩
  | .error sig τ => ⟨.unwind sig, K, τ⟩
  | .outOfFuel => ⟨.hang, K, σ⟩

def execute (env : ScopeId) (K : List Frame) (σ : Store) : Stmt → Config
  | .declare _ constant x e => ⟨.eval env e, .declare env constant x :: K, σ⟩
  | .ret _ e => ⟨.eval env e, .ret :: K, σ⟩
  | .expr _ e => ⟨.eval env e, K, σ⟩
  | .block b => ⟨.sequence env .null b.stmts, K, σ⟩

section

variable (reg : Registry)

def evaluate (env : ScopeId) (K : List Frame) (σ : Store) : Expr → Config
  | .ident x => perform (name reg env x.name) .done K σ
  | .int _ k => ⟨.done (.integer k), K, σ⟩
  | .str _ s => ⟨.done (.string s), K, σ⟩
  | .bool _ b => ⟨.done (.bool b), K, σ⟩
  | .null _ => ⟨.done .null, K, σ⟩
  | .unary _ op e => ⟨.eval env e, .unary op :: K, σ⟩
  | .binary _ op l r => ⟨.eval env l, .left env op r :: K, σ⟩
  | .assign _ x e => ⟨.eval env e, .assign env x :: K, σ⟩
  | .ifElse _ test yes no => ⟨.eval env test, .branch env yes no :: K, σ⟩
  | .fn _ params body =>
    perform Store.newStamp (fun stamp => .done (.function ⟨stamp, params, body, env⟩)) K σ
  | .call _ f args => ⟨.eval env f, .callee env f args :: K, σ⟩
  | .array _ es => ⟨.collect env .array [] es, K, σ⟩
  | .hash _ kvs => ⟨.pairs env .empty kvs, K, σ⟩
  | .index _ e i => ⟨.eval env e, .base env i :: K, σ⟩
  | .forIn _ index value target body =>
    perform (name reg env target.name >>= entries) (.passes ⟨env, index, value, target, body⟩) K σ

/-- Call `callee`, which the expression `f` gave. Only a function has statements to run, so
nothing else asks for a run of one. -/
def call (f : Expr) (callee : Value) (args : List Value) (K : List Frame) (σ : Store) : Config :=
  match callee with
  | .function c =>
    if args.length = c.params.length then
      perform (Store.openScope (some c.scope)) (fun s => .enter s (c.params.zip args) c.body.stmts)
        (.body :: K) σ
    else
      ⟨.unwind (.raised (.wrongArgumentCount f.render (toString c.params.length) args.length)),
        K, σ⟩
  | v => perform (apply reg (fun _ _ => Run.exhausted) f v args) .done K σ

theorem call_eq_perform {reg : Registry} (run : ScopeId → Stmt → Eval Value) {f : Expr}
    {callee : Value} {args : List Value} {K : List Frame} {σ : Store}
    (h : ∀ c, callee ≠ .function c) :
    call reg f callee args K σ = perform (apply reg run f callee args) .done K σ := by
  cases callee with
  | function c => exact absurd rfl (h c)
  | _ => rfl

/-- A value is there for the innermost frame. -/
def resume (v : Value) (K : List Frame) (σ : Store) : Frame → Config
  | .declare env constant x =>
    perform (raising
        (if constant then Store.defineConstant env x.name v else Store.define env x.name v))
      (fun _ => .done .null) K σ
  | .ret => ⟨.unwind (.ret v), K, σ⟩
  | .unary op => perform (ofExcept (Value.unary op v)) .done K σ
  | .left env op r => ⟨.eval env r, .right op v :: K, σ⟩
  | .right op l => perform (ofExcept (Value.binary op l v)) .done K σ
  | .assign env x => perform (raising (Store.reassign env x.name v)) (fun _ => .done v) K σ
  | .branch env yes no =>
    if v.truthy then ⟨.sequence env .null yes.stmts, K, σ⟩
    else
      match no with
      | some b => ⟨.sequence env .null b.stmts, K, σ⟩
      | none => ⟨.done .null, K, σ⟩
  | .callee env f args => ⟨.collect env (.call f v) [] args, K, σ⟩
  | .element env goal vs es => ⟨.collect env goal (vs ++ [v]) es, K, σ⟩
  | .key env entries e kvs =>
    match v.key with
    | .ok k => ⟨.eval env e, .entry env entries k kvs :: K, σ⟩
    | .error e => ⟨.unwind (.raised e), K, σ⟩
  | .entry env entries k kvs => ⟨.pairs env (entries.insert k v) kvs, K, σ⟩
  | .base env i => ⟨.eval env i, .position v :: K, σ⟩
  | .position base => perform (ofExcept (σ.index base v)) .done K σ
  | .statement env ss => ⟨.sequence env v ss, K, σ⟩
  | .pass loop es => ⟨.passes loop es, K, σ⟩
  | .body => ⟨.done v, K, σ⟩

/-- A signal takes the innermost frame away. The frame of a call takes in a return. -/
def pop (sig : Signal) (K : List Frame) (σ : Store) : Frame → Config
  | .body =>
    match sig with
    | .ret v => ⟨.done v, K, σ⟩
    | .raised e => ⟨.unwind (.raised e), K, σ⟩
  | _ => ⟨.unwind sig, K, σ⟩

/-- Go on with a control that is neither a value nor a signal. -/
def advance (K : List Frame) (σ : Store) : Control → Config
  | .exec env s => execute env K σ s
  | .eval env e => evaluate reg env K σ e
  | .sequence _ last [] => ⟨.done last, K, σ⟩
  | .sequence env _ (s :: ss) => ⟨.exec env s, .statement env ss :: K, σ⟩
  | .collect env goal vs (e :: es) => ⟨.eval env e, .element env goal vs es :: K, σ⟩
  | .collect _ .array vs [] =>
    perform (Store.newArray vs.toArray) (fun id => .done (.array id)) K σ
  | .collect _ (.call f callee) vs [] => call reg f callee vs K σ
  | .pairs _ entries [] => perform (Store.newHash entries) (fun id => .done (.hash id)) K σ
  | .pairs env entries (kv :: kvs) => ⟨.eval env kv.1, .key env entries kv.2 kvs :: K, σ⟩
  | .passes l [] =>
    perform Store.newStamp
      (fun stamp => .done (.loop ⟨stamp, l.index, l.value, l.target, l.body, l.env⟩)) K σ
  | .passes l (e :: es) =>
    perform (Store.openScope (some l.env))
      (fun s => .enter s [(l.index, e.1), (l.value, e.2)] l.body.stmts) (.pass l es :: K) σ
  | .enter s [] ss => ⟨.sequence s .null ss, K, σ⟩
  | .enter s ((x, v) :: bs) ss =>
    perform (raising (Store.define s x.name v)) (fun _ => .enter s bs ss) K σ
  | k => ⟨k, K, σ⟩

/-- One step. There is none from a value or a signal that nothing waits for. -/
def step : Config → Option Config
  | ⟨.done _, [], _⟩ | ⟨.unwind _, [], _⟩ => none
  | ⟨.done v, F :: K, σ⟩ => some (resume v K σ F)
  | ⟨.unwind sig, F :: K, σ⟩ => some (pop sig K σ F)
  | ⟨k, K, σ⟩ => some (advance reg K σ k)

end

/-! ## Runs -/

/-- What can be evaluated in a scope: a list of statements or an expression. -/
inductive Code where
  | stmts (ss : List Stmt)
  | expr (e : Expr)

/-- How the evaluator runs a piece of code. -/
def Code.eval (reg : Registry) (depth : Nat) (env : ScopeId) : Code → Eval Value
  | .stmts ss => sequence (Eval.exec reg depth env) ss
  | .expr e => Eval.eval reg depth env e

/-- Where the machine begins with a piece of code. -/
def Code.start (env : ScopeId) : Code → Control
  | .stmts ss => .sequence env .null ss
  | .expr e => .eval env e

/-- Where the machine is when it has come to an end. -/
def final : Except Signal Value → Control
  | .ok v => .done v
  | .error sig => .unwind sig

/-- `d` is reached from `c` by steps. -/
inductive Reaches (reg : Registry) (c : Config) : Config → Prop
  | refl : Reaches reg c c
  | tail {d e : Config} : Reaches reg c d → step reg d = some e → Reaches reg c e

/-- The configuration in which a program begins. -/
def begin (p : Program) (env : ScopeId) (σ : Store) : Config := ⟨.sequence env .null p.stmts, [], σ⟩

/-- `d` comes after `c`, or is it, where programs are run in the scope `env` one after the other:
each goes step by step, and when it has come to an end, the next begins with the store it left. -/
inductive Later (reg : Registry) (env : ScopeId) (c : Config) : Config → Prop
  | refl : Later reg env c c
  | step {d e : Config} : Later reg env c d → step reg d = some e → Later reg env c e
  | next {d : Config} (p : Program) : Later reg env c d → step reg d = none →
      Later reg env c (begin p env d.store)

end Machine

end Scriptlet
