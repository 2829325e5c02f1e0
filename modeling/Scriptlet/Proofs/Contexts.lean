import Scriptlet.Native.Standard
import Scriptlet.Proofs.Depth

/-!
# What a signal leaves out

Evaluation goes from left to right, and nothing after a signal runs.

**Contexts** (`Context`). A piece of code with a hole is taken layer by layer, and each layer is
taken apart into what stands before the hole (`Front`) and what stands after it (`Front.Back`).
No hole is in a function or in the body of a loop, for these run in scopes of their own, and at
any time or none.

**Arriving** (`Context.Arrives`). Evaluation gets to the hole if all that stands before it gives
values. This is a matter of the fronts alone.

**Theorem (`nothing_after_signal_runs`).** Suppose that evaluation arrives at the hole, and that
what is in the hole stops in a signal. Then so does all of the code, whatever stands after the
hole, and at no depth can two such codes be told apart. The same goes for the key of a hash that
has a value, but one that no key can have.

`StopsAlike` is what each layer preserves (`Front.stopsAlike`). It says not only that two
evaluations stop in the same signal, but also that at every depth they do the same. So whatever
goes on after the one (`StopsAlike.bind`) is no different from what goes on after the other.
-/

namespace Scriptlet

open Eval

/-! ## Contexts -/

/-- What can be evaluated. -/
inductive Category where
  | expr
  | stmt
  | stmts

abbrev Category.Node : Category → Type
  | .expr => Expr
  | .stmt => Stmt
  | .stmts => List Stmt

def Category.run (reg : Registry) (n : Nat) (env : ScopeId) : (k : Category) → k.Node → Eval Value
  | .expr, e => eval reg n env e
  | .stmt, s => exec reg n env s
  | .stmts, ss => sequence (exec reg n env) ss

theorem Category.deepens (reg : Registry) (env : ScopeId) (k : Category) (M : k.Node) :
    Deepens fun n => k.run reg n env M := by
  cases k with
  | expr => exact deepens_eval reg env M
  | stmt => exact deepens_exec reg env M
  | stmts => exact deepens_sequence reg env M

/-- What stands before the hole in a piece of code of the second category, with a hole for one of
the first. -/
inductive Front : Category → Category → Type
  /-- The statements before one of a list. -/
  | statement (before : List Stmt) : Front .stmt .stmts
  | declared (t : Token) (constant : Bool) (x : Ident) : Front .expr .stmt
  | returned (t : Token) : Front .expr .stmt
  | only (t : Token) : Front .expr .stmt
  /-- A hole for all that is in a block. -/
  | inside (t : Token) : Front .stmts .stmt
  | operand (t : Token) (op : UnaryOp) : Front .expr .expr
  | left (t : Token) (op : BinaryOp) : Front .expr .expr
  | right (t : Token) (op : BinaryOp) (l : Expr) : Front .expr .expr
  | assigned (t : Token) (x : Ident) : Front .expr .expr
  | test (t : Token) : Front .expr .expr
  /-- A hole for all that is in the first branch. -/
  | yes (t : Token) (c : Expr) (brace : Token) : Front .stmts .expr
  | no (t : Token) (c : Expr) (first : Block) (brace : Token) : Front .stmts .expr
  | callee (t : Token) : Front .expr .expr
  | argument (t : Token) (f : Expr) (before : List Expr) : Front .expr .expr
  | item (t : Token) (before : List Expr) : Front .expr .expr
  | key (t : Token) (before : List (Expr × Expr)) : Front .expr .expr
  | value (t : Token) (before : List (Expr × Expr)) (k : Expr) : Front .expr .expr
  | base (t : Token) : Front .expr .expr
  | position (t : Token) (base : Expr) : Front .expr .expr

namespace Front

variable {k l : Category}

/-- What stands after the hole. -/
def Back : Front k l → Type
  | .statement _ => List Stmt
  | .left _ _ | .base _ => Expr
  | .test _ => Block × Option Block
  | .yes _ _ _ => Option Block
  | .callee _ | .argument _ _ _ | .item _ _ => List Expr
  | .key _ _ => Expr × List (Expr × Expr)
  | .value _ _ _ => List (Expr × Expr)
  | .declared _ _ _ | .returned _ | .only _ | .inside _ | .operand _ _ | .right _ _ _
  | .assigned _ _ | .no _ _ _ _ | .position _ _ => Unit

def fill : (F : Front k l) → F.Back → k.Node → l.Node
  | .statement before, after, s => before ++ s :: after
  | .declared t constant x, _, e => .declare t constant x e
  | .returned t, _, e => .ret t e
  | .only t, _, e => .expr t e
  | .inside t, _, ss => .block (.mk t ss)
  | .operand t op, _, e => .unary t op e
  | .left t op, r, l => .binary t op l r
  | .right t op l, _, r => .binary t op l r
  | .assigned t x, _, e => .assign t x e
  | .test t, branches, e => .ifElse t e branches.1 branches.2
  | .yes t c brace, second, ss => .ifElse t c (.mk brace ss) second
  | .no t c first brace, _, ss => .ifElse t c first (some (.mk brace ss))
  | .callee t, args, f => .call t f args
  | .argument t f before, after, e => .call t f (before ++ e :: after)
  | .item t before, after, e => .array t (before ++ e :: after)
  | .key t before, rest, k => .hash t (before ++ (k, rest.1) :: rest.2)
  | .value t before k, after, v => .hash t (before ++ (k, v) :: after)
  | .base t, i, e => .index t e i
  | .position t e, _, i => .index t e i

/-- What stands before the hole gives values, and leaves the store `ρ`. -/
def Arrives (reg : Registry) (env : ScopeId) : Front k l → Store → Store → Prop
  | .statement before, σ, ρ => ∃ v, Gives (fun n => sequence (exec reg n env) before) σ v ρ
  | .right _ _ e, σ, ρ | .position _ e, σ, ρ => ∃ v, Gives (fun n => eval reg n env e) σ v ρ
  | .yes _ c _, σ, ρ => ∃ v, Gives (fun n => eval reg n env c) σ v ρ ∧ v.truthy
  | .no _ c _ _, σ, ρ => ∃ v, Gives (fun n => eval reg n env c) σ v ρ ∧ ¬v.truthy
  | .argument _ f before, σ, ρ => ∃ callee π vs, Gives (fun n => eval reg n env f) σ callee π ∧
      Gives (fun n => before.mapM (eval reg n env)) π vs ρ
  | .item _ before, σ, ρ => ∃ vs, Gives (fun n => before.mapM (eval reg n env)) σ vs ρ
  | .key _ before, σ, ρ =>
    ∃ entries, Gives (fun n => before.foldlM (pair (eval reg n env)) .empty) σ entries ρ
  | .value _ before k, σ, ρ => ∃ entries π v key,
      Gives (fun n => before.foldlM (pair (eval reg n env)) .empty) σ entries π ∧
        Gives (fun n => eval reg n env k) π v ρ ∧ v.key = .ok key
  | .declared _ _ _, σ, ρ | .returned _, σ, ρ | .only _, σ, ρ | .inside _, σ, ρ | .operand _ _, σ, ρ
  | .left _ _, σ, ρ | .assigned _ _, σ, ρ | .test _, σ, ρ | .callee _, σ, ρ | .base _, σ, ρ => ρ = σ

end Front

/-- Fronts around fronts, from the outside to the hole. -/
inductive Context : Category → Category → Type
  | hole {k : Category} : Context k k
  | layer {k l m : Category} (F : Front l m) (C : Context k l) : Context k m

namespace Context

def Back {k l : Category} : Context k l → Type
  | .hole => Unit
  | .layer F C => F.Back × C.Back

def fill {k l : Category} : (C : Context k l) → C.Back → k.Node → l.Node
  | .hole, _, M => M
  | .layer F C, b, M => F.fill b.1 (C.fill b.2 M)

/-- Evaluation from the store `σ` gets to the hole, and to the store `ρ`. -/
inductive Arrives (reg : Registry) (env : ScopeId) : {k l : Category} → Context k l → Store →
    Store → Prop
  | hole {k : Category} {σ : Store} : Arrives reg env (hole : Context k k) σ σ
  | layer {k l m : Category} {F : Front l m} {C : Context k l} {σ π ρ : Store} :
    F.Arrives reg env σ π → Arrives reg env C π ρ → Arrives reg env (.layer F C) σ ρ

end Context

/-! ## Stopping alike -/

/-- From the store `σ`, `x` and `y` stop in the signal, and do the same at every depth. -/
structure StopsAlike {α : Type} (x y : Nat → Eval α) (σ : Store) (sig : Signal) (τ : Store) :
    Prop where
  stops : ∃ N, ∀ n, N ≤ n → x n σ = .error sig τ
  cut_or_stops : ∀ n, x n σ = .outOfFuel ∨ x n σ = .error sig τ
  same : ∀ n, y n σ = x n σ

theorem Deepens.stopsAlike {α : Type} {x : Nat → Eval α} {σ τ : Store} {sig : Signal}
    (hx : Deepens x) (h : Stops x σ sig τ) : StopsAlike x x σ sig τ := by
  obtain ⟨N, hN⟩ := h
  exact ⟨⟨N, fun n hn => hx.keeps hN nofun hn⟩, hx.ends_or_cut hN nofun, fun n => rfl⟩

namespace StopsAlike

variable {α β : Type} {x y : Nat → Eval α} {σ ρ τ : Store} {sig : Signal}

theorem raise (e : RuntimeError) :
    StopsAlike (fun _ => (Eval.raise e : Eval α)) (fun _ => Eval.raise e) τ (.raised e) τ :=
  ⟨⟨0, fun _ _ => rfl⟩, fun _ => .inr rfl, fun _ => rfl⟩

/-- What would go on after the signal does not matter. -/
theorem bind (h : StopsAlike x y σ sig τ) (f g : Nat → α → Eval β) :
    StopsAlike (fun n => x n >>= f n) (fun n => y n >>= g n) σ sig τ := by
  have hstop {n} (hn : x n σ = .error sig τ) : (x n >>= f n) σ = .error sig τ := by
    rw [Run.bind_apply, hn]
  have hcut {n} (hn : x n σ = .outOfFuel) : (x n >>= f n) σ = .outOfFuel := by
    rw [Run.bind_apply, hn]
  obtain ⟨N, hN⟩ := h.stops
  refine ⟨⟨N, fun n hn => hstop (hN n hn)⟩, fun n => (h.cut_or_stops n).imp hcut hstop, fun n => ?_⟩
  show (y n >>= g n) σ = (x n >>= f n) σ
  rcases h.cut_or_stops n with hn | hn
  · rw [hcut hn, Run.bind_apply, h.same n, hn]
  · rw [hstop hn, Run.bind_apply, h.same n, hn]

/-- What has gone on before makes no difference. -/
theorem after {z : Nat → Eval β} {b : β} (hz : Deepens z) (hb : Gives z σ b ρ)
    {x y : Nat → β → Eval α} (h : StopsAlike (x · b) (y · b) ρ sig τ) :
    StopsAlike (fun n => z n >>= x n) (fun n => z n >>= y n) σ sig τ := by
  obtain ⟨m, hm⟩ := hb
  obtain ⟨N, hN⟩ := h.stops
  have hgo {n} (hn : z n σ = .ok b ρ) (x : β → Eval α) : (z n >>= x) σ = x b ρ := by
    rw [Run.bind_apply, hn]
  have hcut {n} (hn : z n σ = .outOfFuel) (x : β → Eval α) : (z n >>= x) σ = .outOfFuel := by
    rw [Run.bind_apply, hn]
  refine ⟨⟨max m N, fun n hn => ?_⟩, fun n => ?_, fun n => ?_⟩
  · obtain ⟨hmn, hNn⟩ := Nat.max_le.1 hn
    exact (hgo (hz.keeps hm nofun hmn) (x n)).trans (hN n hNn)
  · rcases hz.ends_or_cut hm nofun n with hn | hn
    · exact .inl (hcut hn (x n))
    · exact (h.cut_or_stops n).imp (hgo hn (x n)).trans (hgo hn (x n)).trans
  · rcases hz.ends_or_cut hm nofun n with hn | hn
    · exact (hcut hn (y n)).trans (hcut hn (x n)).symm
    · exact (hgo hn (y n)).trans ((h.same n).trans (hgo hn (x n)).symm)

/-- A depth of one more is needed around them. -/
theorem succ (hx : x 0 = Run.exhausted) (hy : y 0 = Run.exhausted)
    (h : StopsAlike (fun n => x (n + 1)) (fun n => y (n + 1)) σ sig τ) :
    StopsAlike x y σ sig τ := by
  obtain ⟨N, hN⟩ := h.stops
  refine ⟨⟨N + 1, fun n hn => ?_⟩, fun n => ?_, fun n => ?_⟩
  · obtain ⟨n, rfl⟩ := Nat.exists_eq_add_of_le' hn
    exact hN _ (Nat.le_add_left N n)
  · cases n with
    | zero => exact .inl (congrFun hx σ)
    | succ n => exact h.cut_or_stops n
  · cases n with
    | zero => rw [hx, hy]
    | succ n => exact h.same n

end StopsAlike

/-! ## One layer -/

section

variable {reg : Registry} {env : ScopeId} {σ ρ τ : Store} {sig : Signal}

theorem stopsAlike_mapM {before after after' : List Expr} {e e' : Expr} {vs : List Value}
    (hbefore : Gives (fun n => before.mapM (eval reg n env)) σ vs ρ)
    (h : StopsAlike (fun n => eval reg n env e) (fun n => eval reg n env e') ρ sig τ) :
    StopsAlike (fun n => (before ++ e :: after).mapM (eval reg n env))
      (fun n => (before ++ e' :: after').mapM (eval reg n env)) σ sig τ := by
  simp only [List.mapM_append, List.mapM_cons]
  exact .after (deepens_mapM reg env before) hbefore ((h.bind _ _).bind _ _)

theorem stopsAlike_pairs {before after after' : List (Expr × Expr)} {kv kv' : Expr × Expr}
    {entries : OrderedMap HashKey Value}
    (hbefore : Gives (fun n => before.foldlM (pair (eval reg n env)) .empty) σ entries ρ)
    (h : StopsAlike (fun n => pair (eval reg n env) entries kv)
      (fun n => pair (eval reg n env) entries kv') ρ sig τ) :
    StopsAlike (fun n => (before ++ kv :: after).foldlM (pair (eval reg n env)) .empty)
      (fun n => (before ++ kv' :: after').foldlM (pair (eval reg n env)) .empty) σ sig τ := by
  simp only [List.foldlM_append, List.foldlM_cons]
  exact .after (deepens_pairs reg env .empty before) hbefore (h.bind _ _)

/-- **What one layer preserves.** -/
theorem Front.stopsAlike {k l : Category} (F : Front k l) (b b' : F.Back) {M M' : k.Node}
    (hF : F.Arrives reg env σ ρ)
    (h : StopsAlike (fun n => k.run reg n env M) (fun n => k.run reg n env M') ρ sig τ) :
    StopsAlike (fun n => l.run reg n env (F.fill b M)) (fun n => l.run reg n env (F.fill b' M'))
      σ sig τ := by
  -- What is done before the hole is the same on both sides (`after`), and what is done after it is
  -- anything (`bind`), so `b` and `b'` never have to be taken apart.
  cases F with
  | statement before =>
    obtain ⟨v, hv⟩ := hF
    simp only [fill, Category.run, Eval.sequence, List.foldlM_append]
    exact .after (deepens_sequence reg env before) hv (h.bind _ _)
  | declared t constant x | returned t | operand t op | left t op | assigned t x | test t
  | callee t | base t =>
    obtain rfl : ρ = σ := hF
    exact .succ rfl rfl (h.bind _ _)
  | only t | inside t =>
    obtain rfl : ρ = σ := hF
    exact .succ rfl rfl h
  | right t op e | position t e =>
    obtain ⟨v, hv⟩ := hF
    exact .succ rfl rfl (.after (deepens_eval reg env e) hv (h.bind _ _))
  | yes t c brace =>
    obtain ⟨v, hv, htrue⟩ := hF
    refine .succ rfl rfl (.after (deepens_eval reg env c) hv ?_)
    simp only [htrue, if_true]
    exact h
  | no t c first brace =>
    obtain ⟨v, hv, hfalse⟩ := hF
    refine .succ rfl rfl (.after (deepens_eval reg env c) hv ?_)
    simp only [hfalse]
    exact h
  | argument t f before =>
    obtain ⟨callee, π, vs, hcallee, hvs⟩ := hF
    exact .succ rfl rfl (.after (deepens_eval reg env f) hcallee ((stopsAlike_mapM hvs h).bind _ _))
  | item t before =>
    obtain ⟨vs, hvs⟩ := hF
    exact .succ rfl rfl ((stopsAlike_mapM hvs h).bind _ _)
  | key t before =>
    obtain ⟨entries, hentries⟩ := hF
    exact .succ rfl rfl ((stopsAlike_pairs hentries (h.bind _ _)).bind _ _)
  | value t before k =>
    obtain ⟨entries, π, v, key, hentries, hv, hkey⟩ := hF
    refine .succ rfl rfl ((stopsAlike_pairs hentries ?_).bind _ _)
    refine .after (deepens_eval reg env k) hv ?_
    rw [hkey]
    exact h.bind _ _

theorem Context.stopsAlike {k l : Category} {C : Context k l} (b b' : C.Back) {M M' : k.Node}
    (hC : C.Arrives reg env σ ρ)
    (h : StopsAlike (fun n => k.run reg n env M) (fun n => k.run reg n env M') ρ sig τ) :
    StopsAlike (fun n => l.run reg n env (C.fill b M)) (fun n => l.run reg n env (C.fill b' M'))
      σ sig τ := by
  induction hC with
  | hole => exact h
  | layer hF _ ih => exact Front.stopsAlike _ b.1 b'.1 hF (ih b.2 b'.2 h)

/-- What a key gives may be no key. Then the hash stops before the value of the pair. -/
theorem stopsAlike_hash (t : Token) (before : List (Expr × Expr))
    (rest rest' : Expr × List (Expr × Expr)) {M : Expr} {v : Value} {e : RuntimeError}
    (hF : (Front.key t before).Arrives reg env σ ρ)
    (hM : Gives (fun n => eval reg n env M) ρ v τ) (hv : v.key = .error e) :
    StopsAlike (fun n => eval reg n env ((Front.key t before).fill rest M))
      (fun n => eval reg n env ((Front.key t before).fill rest' M)) σ (.raised e) τ := by
  obtain ⟨entries, hentries⟩ := hF
  refine .succ rfl rfl ((stopsAlike_pairs hentries ?_).bind _ _)
  refine .after (deepens_eval reg env M) hM ?_
  rw [hv]
  exact (StopsAlike.raise e).bind _ _

end

/-- **Nothing after a signal runs.** -/
theorem nothing_after_signal_runs (reg : Registry) (env : ScopeId) :
    (∀ {k l : Category} (C : Context k l) (b b' : C.Back) (M : k.Node) (σ ρ τ : Store)
        (sig : Signal), C.Arrives reg env σ ρ → Stops (fun n => k.run reg n env M) ρ sig τ →
      Stops (fun n => l.run reg n env (C.fill b M)) σ sig τ ∧
        ∀ n, l.run reg n env (C.fill b' M) σ = l.run reg n env (C.fill b M) σ) ∧
    ∀ {l : Category} (C : Context .expr l) (b b' : C.Back) (t : Token) (before : List (Expr × Expr))
        (rest rest' : Expr × List (Expr × Expr)) (M : Expr) (σ π ρ τ : Store) (v : Value)
        (e : RuntimeError), C.Arrives reg env σ π → (Front.key t before).Arrives reg env π ρ →
        Gives (fun n => eval reg n env M) ρ v τ → v.key = .error e →
      Stops (fun n => l.run reg n env (C.fill b ((Front.key t before).fill rest M))) σ
          (.raised e) τ ∧
        ∀ n, l.run reg n env (C.fill b' ((Front.key t before).fill rest' M)) σ =
          l.run reg n env (C.fill b ((Front.key t before).fill rest M)) σ := by
  refine ⟨fun {k l} C b b' M σ ρ τ sig hC hM => ?_,
    fun {l} C b b' t before rest rest' M σ π ρ τ v e hC hF hM hv => ?_⟩
  · have h := Context.stopsAlike b b' hC ((k.deepens reg env M).stopsAlike hM)
    exact ⟨h.stops.imp fun N hN => hN N (Nat.le_refl N), h.same⟩
  · have h := Context.stopsAlike b b' hC (stopsAlike_hash t before rest rest' hF hM hv)
    exact ⟨h.stops.imp fun N hN => hN N (Nat.le_refl N), h.same⟩

/-- In `1; [2, -true, 3]; 4` the last statement and the 3 make no difference, and neither do the 3
and the 4 in `[2, {1: 2, null: 3}, 4]`. -/
theorem nothing_after_negation_runs :
    ∃ (t : Token) (σ : Store) (e e' : RuntimeError),
      (∀ (after : List Stmt) (items : List Expr),
        Stops (fun n => sequence (exec .standard n 0) ([.expr t (.int t 1)] ++
            .expr t (.array t ([.int t 2] ++ .unary t .neg (.bool t true) :: items)) :: after))
          σ (.raised e) σ) ∧
      ∀ (x : Expr) (pairs : List (Expr × Expr)) (items : List Expr),
        Stops (fun n => eval .standard n 0 (.array t ([.int t 2] ++
            .hash t ([(.int t 1, .int t 2)] ++ (.null t, x) :: pairs) :: items)))
          σ (.raised e') σ := by
  let t : Token := ⟨.ident, "", ⟨1, 1⟩⟩
  let σ : Store := .empty (.console #[])
  refine ⟨t, σ, .operandNotSupported UnaryOp.neg.spelling ValueType.bool.name,
    .unusableKey ValueType.null.name, fun after items => ?_, fun x pairs items => ?_⟩
  · exact ((nothing_after_signal_runs .standard 0).1 (.layer (.statement [.expr t (.int t 1)])
      (.layer (.only t) (.layer (.item t [.int t 2]) .hole))) (after, (), items, ())
      (after, (), items, ()) (.unary t .neg (.bool t true)) σ σ σ _
      (.layer ⟨_, 2, rfl⟩ (.layer rfl (.layer ⟨_, 2, rfl⟩ .hole))) ⟨2, rfl⟩).1
  · exact ((nothing_after_signal_runs .standard 0).2 (.layer (.item t [.int t 2]) .hole) (items, ())
      (items, ()) t [(.int t 1, .int t 2)] (x, pairs) (x, pairs) (.null t) σ σ σ σ .null _
      (.layer ⟨_, 2, rfl⟩ .hole) ⟨_, 2, rfl⟩ ⟨1, rfl⟩ rfl).1

end Scriptlet
