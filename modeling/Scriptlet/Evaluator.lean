import Scriptlet.Native
import Scriptlet.Operator
import Scriptlet.Syntax.Render

/-!
# Evaluation

`exec` runs a statement and `eval` evaluates an expression, each in a scope and over the store.
Both end in a value or in a `Signal`: a return on its way to the end of the function it is written
in, or an error on its way to whoever asked. A signal ends everything on its way, and only a call
takes in a return.

**Depth.** `exec` and `eval` take the depth to which they may nest. A list of statements, of
arguments or of loop passes costs no depth, however long, so without calls the height of the
syntax tree is enough. Programs that call functions may need any depth, and some never end; a run
that was not given enough ends in `Outcome.outOfFuel`.

**Scopes.** Only a call and the pass of a loop open a scope. A call opens it inside the scope in
which the function was written, a loop inside the scope it runs in. Blocks and the branches of a
conditional open none.
-/

namespace Scriptlet

/-- What cuts an evaluation short. -/
inductive Signal where
  | ret (v : Value)
  | raised (e : RuntimeError)

abbrev Eval := Run Store Signal

namespace Eval

/-- Do `x`; its failure is raised. -/
def raising {α : Type} (x : Action α) : Eval α := x.mapError .raised

def raise {α : Type} (e : RuntimeError) : Eval α := Run.fail (.raised e)

/-- Settle a result that needed no state; a failure is raised. -/
def ofExcept {α : Type} (x : Except RuntimeError α) : Eval α := raising (Run.ofExcept x)

/-- Run one statement after the other by `run`. The value is that of the last one, and `null` if
there are none. -/
def sequence (run : Stmt → Eval Value) (stmts : List Stmt) : Eval Value :=
  stmts.foldlM (fun _ s => run s) .null

/-- Take in a return: whatever was on its way is the value. -/
def endCall (x : Eval Value) : Eval Value := fun σ =>
  match x σ with
  | .error (.ret v) τ => .ok v τ
  | o => o

/-- What a native gave back, as the value of the call. An error is raised, and a return has come
to its end. -/
def ofNative : Value → Eval Value
  | .error e => raise e
  | .ret v => pure v
  | v => pure v

section

variable (reg : Registry)

/-- What a name stands for: its nearest binding, or else the native of that name. -/
def name (env : ScopeId) (x : String) : Eval Value := do
  let bound ← Run.read fun σ => σ.lookup? env x
  match bound with
  | some b => pure b.value
  | none => if reg.contains x then pure (.native x) else raise (.unboundName x)

/-- Bind the names to the values, in order, in the scope `s`. -/
def bindAll (s : ScopeId) : List (Ident × Value) → Eval Unit
  | [] => pure ()
  | (x, v) :: rest => do
    raising (Store.define s x.name v)
    bindAll s rest

/-- Call what the expression `f` gave. The body of a function runs by `run` in a scope of its own,
in which only the parameters are bound. -/
def apply (run : ScopeId → Stmt → Eval Value) (f : Expr) (callee : Value) (args : List Value) :
    Eval Value :=
  match callee with
  | .function c =>
    if args.length = c.params.length then do
      let s ← Store.openScope (some c.scope)
      bindAll s (c.params.zip args)
      endCall (sequence (run s) c.body.stmts)
    else raise (.wrongArgumentCount f.render (toString c.params.length) args.length)
  | .native x =>
    match reg.find? x with
    | some native => do
      let v ← raising (native args)
      ofNative v
    | none => raise (.unboundName x)
  | v => raise (.notAFunction v.type.name)

end

/-- The places and elements of an array, or the keys and values of a hash, as they are now. -/
def entries : Value → Eval (List (Value × Value))
  | .array id => Run.read fun σ =>
    (σ.items id).toList.zipIdx.map fun e => (.integer (.ofNat e.2), e.1)
  | .hash id => Run.read fun σ => (σ.pairs id).entries.map fun e => (e.1.value, e.2)
  | v => raise (.notIterable v.type.name)

/-- One pass of a loop, in a scope of its own, in which only the two loop names are bound. -/
def pass (run : ScopeId → Stmt → Eval Value) (env : ScopeId) (index value : Ident) (body : Block)
    (entry : Value × Value) : Eval Unit := do
  let s ← Store.openScope (some env)
  bindAll s [(index, entry.1), (value, entry.2)]
  let _ ← sequence (run s) body.stmts

/-- Add a pair to the entries of a hash, both evaluated by `run`. Whether the key can be one is
settled before the value is evaluated. -/
def pair (run : Expr → Eval Value) (entries : OrderedMap HashKey Value) (kv : Expr × Expr) :
    Eval (OrderedMap HashKey Value) := do
  let k ← run kv.1
  let key ← ofExcept k.key
  let v ← run kv.2
  pure (entries.insert key v)

mutual

/-- Run a statement in the scope `env`, nesting no deeper than the number says. -/
def exec (reg : Registry) : Nat → ScopeId → Stmt → Eval Value
  | 0, _, _ => Run.exhausted
  | n + 1, env, s =>
    match s with
    | .declare _ constant x e => do
      let v ← eval reg n env e
      raising (if constant then Store.defineConstant env x.name v else Store.define env x.name v)
      pure .null
    | .ret _ e => do
      let v ← eval reg n env e
      Run.fail (.ret v)
    | .expr _ e => eval reg n env e
    | .block b => sequence (exec reg n env) b.stmts

/-- Evaluate an expression in the scope `env`, nesting no deeper than the number says. -/
def eval (reg : Registry) : Nat → ScopeId → Expr → Eval Value
  | 0, _, _ => Run.exhausted
  | n + 1, env, e =>
    match e with
    | .ident x => name reg env x.name
    | .int _ k => pure (.integer k)
    | .str _ s => pure (.string s)
    | .bool _ b => pure (.bool b)
    | .null _ => pure .null
    | .unary _ op e => do
      let v ← eval reg n env e
      ofExcept (Value.unary op v)
    | .binary _ op l r => do
      let v ← eval reg n env l
      let w ← eval reg n env r
      ofExcept (Value.binary op v w)
    | .assign _ x e => do
      let v ← eval reg n env e
      raising (Store.reassign env x.name v)
      pure v
    | .ifElse _ test yes no => do
      let v ← eval reg n env test
      if v.truthy then sequence (exec reg n env) yes.stmts
      else
        match no with
        | some b => sequence (exec reg n env) b.stmts
        | none => pure .null
    | .fn _ params body => do
      let stamp ← Store.newStamp
      pure (.function ⟨stamp, params, body, env⟩)
    | .call _ f args => do
      let callee ← eval reg n env f
      let vs ← args.mapM (eval reg n env)
      apply reg (exec reg n) f callee vs
    | .array _ es => do
      let vs ← es.mapM (eval reg n env)
      let id ← Store.newArray vs.toArray
      pure (.array id)
    | .hash _ kvs => do
      let entries ← kvs.foldlM (pair (eval reg n env)) .empty
      let id ← Store.newHash entries
      pure (.hash id)
    | .index _ e i => do
      let base ← eval reg n env e
      let v ← eval reg n env i
      let σ ← Run.read id
      ofExcept (σ.index base v)
    | .forIn _ index value target body => do
      let v ← name reg env target.name
      let es ← entries v
      es.forM (pass (exec reg n) env index value body)
      let stamp ← Store.newStamp
      pure (.loop ⟨stamp, index, value, target, body, env⟩)

end

end Eval

/-! ## From outside -/

/-- The value and the store that an evaluation leaves, unless it was cut off for its depth. -/
abbrev Answer := Option (Value × Store)

/-- The answer of a whole program: a return ends it with its value, and an error is its value. -/
def Eval.answer (x : Eval Value) (σ : Store) : Answer :=
  match x σ with
  | .ok v τ | .error (.ret v) τ => some (v, τ)
  | .error (.raised e) τ => some (.error e, τ)
  | .outOfFuel => none

/-- The answer of a part of a program: a signal shows as the value that stands for it. -/
def Eval.settle (x : Eval Value) (σ : Store) : Answer :=
  match x σ with
  | .ok v τ => some (v, τ)
  | .error (.ret v) τ => some (.ret v, τ)
  | .error (.raised e) τ => some (.error e, τ)
  | .outOfFuel => none

section

variable (reg : Registry) (depth : Nat) (env : ScopeId)

def Program.run (p : Program) : Store → Answer :=
  (Eval.sequence (Eval.exec reg depth env) p.stmts).answer

def Block.run (b : Block) : Store → Answer :=
  (Eval.sequence (Eval.exec reg depth env) b.stmts).settle

def Stmt.run (s : Stmt) : Store → Answer := (Eval.exec reg depth env s).settle

def Expr.run (e : Expr) : Store → Answer := (Eval.eval reg depth env e).settle

end

end Scriptlet
