import Scriptlet.Evaluator
import Scriptlet.Proofs.Joining.Operations

/-!
# Evaluation up to positions

**Lemma (`mirrors_eval`).** Code without positions, in a store without positions, does what the code
does in the store, and leaves the same without positions. The natives have to do so too.

Positions are only handed on. What is decided on the way depends on the types of values, on scalars
and on identities, and a text shows no position.
-/

namespace Scriptlet

def Signal.unplaced : Signal → Signal
  | .ret v => .ret v.unplaced
  | .raised e => .raised e

/-! ## Operators -/

def withoutPositions : Except RuntimeError Value → Except RuntimeError Value
  | .ok v => .ok v.unplaced
  | .error e => .error e

namespace Value

theorem unplaced_unary (op : UnaryOp) (v : Value) :
    unary op v.unplaced = withoutPositions (unary op v) := by
  cases op with
  | not => rw [unary, unary, truthy_unplaced]; rfl
  | neg =>
    cases v with
    | integer n =>
      show unary .neg (.integer n) = _
      rw [unary]
      cases Integer.neg? n <;> rfl
    | _ => rfl

theorem withoutPositions_exactly (op : BinaryOp) (a b : Integer) (r : Option Integer) :
    withoutPositions (exactly op a b r) = exactly op a b r := by cases r <;> rfl

theorem withoutPositions_arithmetic (op : BinaryOp) (a b : Integer) :
    withoutPositions (arithmetic op a b) = arithmetic op a b := by
  cases op with
  | add | sub | mul => exact withoutPositions_exactly ..
  | div =>
    rw [arithmetic]
    split
    · rfl
    · exact withoutPositions_exactly ..
  | lt | gt | eq | ne => rfl

/-- What an operator gives holds no code. -/
theorem withoutPositions_binary (op : BinaryOp) (v w : Value) :
    withoutPositions (binary op v w) = binary op v w := by
  unfold binary
  split
  · exact withoutPositions_arithmetic ..
  · rfl
  · split <;> rfl
  · split <;> rfl
  · rfl

theorem unplaced_binary (op : BinaryOp) (v w : Value) :
    binary op v.unplaced w.unplaced = withoutPositions (binary op v w) := by
  rw [withoutPositions_binary]
  cases v <;> cases w <;> first | rfl | (cases op <;> rfl)

end Value

theorem Store.unplaced_index (σ : Store) (v w : Value) :
    σ.unplaced.index v.unplaced w.unplaced = withoutPositions (σ.index v w) := by
  have hother (base : String) :
      Except.error (.indexNotSupported base w.unplaced.type.name) =
        withoutPositions (.error (.indexNotSupported base w.type.name)) := by
    rw [Value.type_unplaced]
    rfl
  cases v with
  | array id =>
    cases w with
    | integer n =>
      show Except.ok _ = Except.ok _
      rw [items_unplaced]
      cases n.place? with
      | none => rfl
      | some i =>
        dsimp only [Option.bind_some]
        rw [Array.getElem?_map]
        cases (σ.items id)[i]? <;> rfl
    | _ => exact hother "ARRAY"
  | hash id =>
    rw [Value.unplaced, index, index, Value.key_unplaced, pairs_unplaced]
    cases w.key with
    | error e => rfl
    | ok k =>
      dsimp only
      rw [OrderedMap.find?_map]
      cases (σ.pairs id).find? k <;> rfl
  | _ => exact hother _

/-! ## Parts of an evaluation -/

/-- An evaluation and the same without positions. -/
abbrev MirrorsEval {α β : Type} (f : α → β) (x : Eval α) (y : Eval β) : Prop :=
  Mirrors Signal.unplaced f x y

namespace Eval

variable {α β : Type} {f : α → β}

theorem mirrors_raising {x : Action α} {y : Action β} (h : Mirrors id f x y) :
    MirrorsEval f (raising x) (raising y) := by
  intro σ
  rw [raising, raising, Run.mapError, Run.mapError, h σ]
  cases x σ <;> rfl

theorem mirrors_raise (e : RuntimeError) : MirrorsEval f (raise e) (raise e) := .fail rfl

theorem mirrors_ofExcept {r r' : Except RuntimeError Value} (h : r' = withoutPositions r) :
    MirrorsEval Value.unplaced (ofExcept r) (ofExcept r') := by
  rw [h]
  cases r with
  | ok v => exact fun _ => rfl
  | error e => exact fun _ => rfl

section

variable {reg : Registry} {env : ScopeId}

theorem mirrors_name (x : String) :
    MirrorsEval Value.unplaced (name reg env x) (name reg env x) := by
  refine .bind (.read fun σ => σ.lookup?_unplaced env x) fun bound => ?_
  cases bound with
  | some b => exact .pure b.value
  | none => exact .ite Iff.rfl (.pure (Value.native x)) (mirrors_raise _)

/-- A name of a program and a value, without positions. -/
def unplacedBinding (b : Ident × Value) : Ident × Value := (b.1.unplaced, b.2.unplaced)

theorem mirrors_bindAll (s : ScopeId) (bs : List (Ident × Value)) :
    MirrorsEval id (bindAll s bs) (bindAll s (bs.map unplacedBinding)) := by
  induction bs with
  | nil => exact .pure ()
  | cons b bs ih => exact .bind (mirrors_raising (Store.mirrors_define s b.1.name b.2)) fun _ => ih

/-! ### Lists -/

theorem mirrors_sequence {run run' : Stmt → Eval Value}
    (hrun : ∀ st, MirrorsEval Value.unplaced (run st) (run' st.unplaced)) (ss : List Stmt) :
    MirrorsEval Value.unplaced (sequence run ss) (sequence run' (ss.map Stmt.unplaced)) := by
  have hfrom (v : Value) : MirrorsEval Value.unplaced (ss.foldlM (fun _ st => run st) v)
      ((ss.map Stmt.unplaced).foldlM (fun _ st => run' st) v.unplaced) := by
    induction ss generalizing v with
    | nil => exact .pure v
    | cons st ss ih => exact .bind (hrun st) ih
  exact hfrom .null

theorem mirrors_block {run run' : Stmt → Eval Value}
    (hrun : ∀ st, MirrorsEval Value.unplaced (run st) (run' st.unplaced)) (b : Block) :
    MirrorsEval Value.unplaced (sequence run b.stmts) (sequence run' b.unplaced.stmts) := by
  rw [Block.unplaced_stmts]
  exact mirrors_sequence hrun b.stmts

theorem mirrors_mapM {run run' : Expr → Eval Value}
    (hrun : ∀ e, MirrorsEval Value.unplaced (run e) (run' e.unplaced)) (es : List Expr) :
    MirrorsEval (List.map Value.unplaced) (es.mapM run) ((unplacedExprs es).mapM run') := by
  induction es with
  | nil => exact .pure []
  | cons e es ih =>
    rw [unplacedExprs, List.mapM_cons, List.mapM_cons]
    exact .bind (hrun e) fun v => .bind ih fun vs => .pure (v :: vs)

theorem mirrors_pair {run run' : Expr → Eval Value}
    (hrun : ∀ e, MirrorsEval Value.unplaced (run e) (run' e.unplaced))
    (m : OrderedMap HashKey Value) (k v : Expr) :
    MirrorsEval (OrderedMap.map Value.unplaced) (pair run m (k, v))
      (pair run' (m.map Value.unplaced) (k.unplaced, v.unplaced)) := by
  refine .bind (hrun k) fun kv => ?_
  rw [Value.key_unplaced]
  cases kv.key with
  | error e => exact .fail rfl
  | ok key =>
    refine .bind (f := id) (.pure key) fun key => .bind (hrun v) fun w => ?_
    rw [← OrderedMap.map_insert]
    exact .pure _

theorem mirrors_pairs {run run' : Expr → Eval Value}
    (hrun : ∀ e, MirrorsEval Value.unplaced (run e) (run' e.unplaced))
    (kvs : List (Expr × Expr)) (m : OrderedMap HashKey Value) :
    MirrorsEval (OrderedMap.map Value.unplaced) (kvs.foldlM (pair run) m)
      ((unplacedPairs kvs).foldlM (pair run') (m.map Value.unplaced)) := by
  induction kvs generalizing m with
  | nil => exact .pure m
  | cons kv kvs ih => exact .bind (mirrors_pair hrun m kv.1 kv.2) ih

/-- An entry of a collection without positions. -/
def unplacedEntry (e : Value × Value) : Value × Value := (e.1.unplaced, e.2.unplaced)

theorem mirrors_entries (v : Value) :
    MirrorsEval (List.map unplacedEntry) (entries v) (entries v.unplaced) := by
  cases v with
  | array id' =>
    refine .read fun σ => ?_
    rw [Store.items_unplaced, Array.toList_map, List.zipIdx_map, List.map_map, List.map_map]
    rfl
  | hash id' =>
    refine .read fun σ => ?_
    rw [Store.pairs_unplaced, OrderedMap.map, List.map_map, List.map_map]
    refine List.map_congr_left fun e _ => ?_
    exact congrArg (·, e.2.unplaced) (Value.unplaced_value e.1).symm
  | _ => exact mirrors_raise _

/-! ### Calls and loops -/

theorem mirrors_endCall {x y : Eval Value} (h : MirrorsEval Value.unplaced x y) :
    MirrorsEval Value.unplaced (endCall x) (endCall y) := by
  intro σ
  rw [endCall, endCall, h σ]
  match x σ with
  | .ok _ _ | .error (.ret _) _ | .error (.raised _) _ | .outOfFuel => rfl

theorem mirrors_ofNative (v : Value) :
    MirrorsEval Value.unplaced (ofNative v) (ofNative v.unplaced) := by
  cases v with
  | error e => exact mirrors_raise e
  | ret v => exact .pure v
  | _ => exact .pure _

theorem mirrors_apply (hreg : reg.Blind) {run run' : ScopeId → Stmt → Eval Value}
    (hrun : ∀ s st, MirrorsEval Value.unplaced (run s st) (run' s st.unplaced)) (f : Expr)
    (callee : Value) (args : List Value) :
    MirrorsEval Value.unplaced (apply reg run f callee args)
      (apply reg run' f.unplaced callee.unplaced (args.map Value.unplaced)) := by
  cases callee with
  | function c =>
    show MirrorsEval Value.unplaced
      (if args.length = c.params.length then do
        let s ← Store.openScope (some c.scope)
        bindAll s (c.params.zip args)
        endCall (sequence (run s) c.body.stmts)
      else raise (.wrongArgumentCount f.render (toString c.params.length) args.length))
      (if (args.map Value.unplaced).length = (c.params.map Ident.unplaced).length then do
        let s ← Store.openScope (some c.scope)
        bindAll s ((c.params.map Ident.unplaced).zip (args.map Value.unplaced))
        endCall (sequence (run' s) c.body.unplaced.stmts)
      else raise (.wrongArgumentCount f.unplaced.render
        (toString (c.params.map Ident.unplaced).length) (args.map Value.unplaced).length))
    rw [List.length_map, List.length_map, List.zip_map, f.render_unplaced]
    refine .ite Iff.rfl (.bind (Store.mirrors_openScope _) fun s => ?_) (mirrors_raise _)
    exact .bind (mirrors_bindAll s (c.params.zip args)) fun _ =>
      mirrors_endCall (mirrors_block (hrun s) c.body)
  | native x =>
    rw [Value.unplaced, apply, apply]
    cases hx : reg.find? x with
    | none => exact mirrors_raise _
    | some native =>
      exact .bind (mirrors_raising (hreg x native hx args)) mirrors_ofNative
  | _ => exact mirrors_raise _

theorem mirrors_pass {run run' : ScopeId → Stmt → Eval Value}
    (hrun : ∀ s st, MirrorsEval Value.unplaced (run s st) (run' s st.unplaced))
    (index value : Ident) (body : Block) (entry : Value × Value) :
    MirrorsEval id (pass run env index value body entry)
      (pass run' env index.unplaced value.unplaced body.unplaced (unplacedEntry entry)) := by
  exact .bind (Store.mirrors_openScope _) fun s => .bind (mirrors_bindAll s [_, _]) fun _ =>
    .bind (mirrors_block (hrun s) body) fun _ => .pure _

theorem mirrors_passes {run run' : ScopeId → Stmt → Eval Value}
    (hrun : ∀ s st, MirrorsEval Value.unplaced (run s st) (run' s st.unplaced))
    (index value : Ident) (body : Block) (es : List (Value × Value)) :
    MirrorsEval id (es.forM (pass run env index value body))
      ((es.map unplacedEntry).forM
        (pass run' env index.unplaced value.unplaced body.unplaced)) := by
  induction es with
  | nil => exact .pure _
  | cons e es ih => exact .bind (mirrors_pass hrun index value body e) fun _ => ih

end

/-! ## Statements and expressions -/

variable {reg : Registry} {n : Nat} {env : ScopeId}

theorem mirrors_exec_succ
    (hexec : ∀ env st, MirrorsEval Value.unplaced (exec reg n env st) (exec reg n env st.unplaced))
    (heval : ∀ env e, MirrorsEval Value.unplaced (eval reg n env e) (eval reg n env e.unplaced))
    (st : Stmt) :
    MirrorsEval Value.unplaced (exec reg (n + 1) env st) (exec reg (n + 1) env st.unplaced) := by
  cases st with
  | declare t constant x e =>
    refine .bind (heval env e) fun v => ?_
    have hdefine : Mirrors id id
        (if constant then Store.defineConstant env x.name v else Store.define env x.name v)
        (if constant then Store.defineConstant env x.name v.unplaced
          else Store.define env x.name v.unplaced) :=
      .ite Iff.rfl (Store.mirrors_defineConstant env x.name v) (Store.mirrors_define env x.name v)
    exact .bind (mirrors_raising hdefine) fun _ => .pure Value.null
  | ret t e => exact .bind (heval env e) fun v => .fail rfl
  | expr t e => exact heval env e
  | block b => exact mirrors_block (hexec env) b

theorem mirrors_eval_succ (hreg : reg.Blind)
    (hexec : ∀ env st, MirrorsEval Value.unplaced (exec reg n env st) (exec reg n env st.unplaced))
    (heval : ∀ env e, MirrorsEval Value.unplaced (eval reg n env e) (eval reg n env e.unplaced))
    (e : Expr) :
    MirrorsEval Value.unplaced (eval reg (n + 1) env e) (eval reg (n + 1) env e.unplaced) := by
  cases e with
  | ident x => exact mirrors_name x.name
  | int t k => exact .pure (Value.integer k)
  | str t s => exact .pure (Value.string s)
  | bool t b => exact .pure (Value.bool b)
  | null t => exact .pure Value.null
  | unary t op e =>
    exact .bind (heval env e) fun v => mirrors_ofExcept (v.unplaced_unary op)
  | binary t op l r =>
    exact .bind (heval env l) fun v => .bind (heval env r) fun w =>
      mirrors_ofExcept (v.unplaced_binary op w)
  | assign t x e =>
    exact .bind (heval env e) fun v =>
      .bind (mirrors_raising (Store.mirrors_reassign env x.name v)) fun _ => .pure v
  | ifElse t test yes no =>
    refine .bind (heval env test) fun v =>
      .ite (by rw [v.truthy_unplaced]) (mirrors_block (hexec env) yes) ?_
    cases no with
    | none => exact .pure Value.null
    | some b => exact mirrors_block (hexec env) b
  | fn t params body =>
    exact .bind Store.mirrors_newStamp fun stamp =>
      .pure (Value.function ⟨stamp, params, body, env⟩)
  | call t f args =>
    exact .bind (heval env f) fun callee => .bind (mirrors_mapM (heval env) args) fun vs =>
      mirrors_apply hreg hexec f callee vs
  | array t es =>
    refine .bind (mirrors_mapM (heval env) es) fun vs => ?_
    rw [← List.map_toArray]
    exact .bind (Store.mirrors_newArray vs.toArray) fun id' => .pure (Value.array id')
  | hash t kvs =>
    exact .bind (mirrors_pairs (heval env) kvs .empty) fun m =>
      .bind (Store.mirrors_newHash m) fun id' => .pure (Value.hash id')
  | index t e i =>
    -- Here the value of a step is the store itself, so its positions are taken out too.
    exact .bind (heval env e) fun base => .bind (heval env i) fun v =>
      .bind (f := Store.unplaced) (.read fun _ => rfl) fun σ =>
        mirrors_ofExcept (σ.unplaced_index base v)
  | forIn t index value target body =>
    exact .bind (mirrors_name target.name) fun v => .bind (mirrors_entries v) fun es =>
      .bind (mirrors_passes hexec index value body es) fun _ =>
        .bind Store.mirrors_newStamp fun stamp =>
          .pure (Value.loop ⟨stamp, index, value, target, body, env⟩)

/-- **Evaluation does not look at positions.** -/
theorem mirrors_eval (hreg : reg.Blind) (n : Nat) :
    (∀ env st, MirrorsEval Value.unplaced (exec reg n env st) (exec reg n env st.unplaced)) ∧
      ∀ env e, MirrorsEval Value.unplaced (eval reg n env e) (eval reg n env e.unplaced) := by
  induction n with
  | zero => exact ⟨fun _ _ => .exhausted, fun _ _ => .exhausted⟩
  | succ n ih =>
    exact ⟨fun _ => mirrors_exec_succ ih.1 ih.2, fun _ => mirrors_eval_succ hreg ih.1 ih.2⟩

end Eval

end Scriptlet
