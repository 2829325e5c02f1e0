import Scriptlet.Proofs.Machine
import Scriptlet.Session

/-!
# The machine is the evaluator

**Theorem (`Code.finishes_iff`).** A piece of code ends in the evaluator, at some depth, with a
value or a signal and a store exactly if the machine gets from its beginning to that value or
signal and that store. So the one goes on for ever exactly if the other does.

**Theorem (`later_of_session_eval`).** The sources that a session reads one after the other are
programs that the machine runs one after the other.

`Follows n c k K o` says what the machine does from `c` when the evaluator's outcome is `o`: it
gets to the control that `k` makes of the value, or to the signal, with the frames `K` left
waiting and the same store; or, if the evaluator ran out of a depth of `n`, it can go on for `n`
steps at least. The last part is what turns the theorem around: a machine that has come to an end
cannot go on for ever, so a depth that is large enough is one that suffices.

The proof goes by induction on the depth. `Follows.bind` takes care of all that a `do` block of the
evaluator has in common with a frame of the machine, so every case is the step into the case and
one `bind` for each operand.
-/

namespace Scriptlet

namespace Machine

open Eval

variable {reg : Registry} {α β : Type}

/-! ## Reaching and running on -/

theorem Reaches.head {c d e : Config} (hs : step reg c = some d) (h : Reaches reg d e) :
    Reaches reg c e := by
  induction h with
  | refl => exact .tail .refl hs
  | tail _ hs' ih => exact .tail ih hs'

theorem Reaches.trans {c d e : Config} (h : Reaches reg c d) (h' : Reaches reg d e) :
    Reaches reg c e := by
  induction h' with
  | refl => exact h
  | tail _ hs ih => exact .tail ih hs

/-- At least `n` steps can be made. -/
inductive Runs (reg : Registry) : Nat → Config → Prop
  | zero {c : Config} : Runs reg 0 c
  | succ {n : Nat} {c d : Config} : step reg c = some d → Runs reg n d → Runs reg (n + 1) c

theorem Runs.mono {m n : Nat} {c : Config} (h : Runs reg n c) (hmn : m ≤ n) : Runs reg m c := by
  induction h generalizing m with
  | zero => rw [Nat.le_zero.1 hmn]; exact .zero
  | succ hs _ ih =>
    cases m with
    | zero => exact .zero
    | succ m => exact .succ hs (ih (Nat.le_of_succ_le_succ hmn))

theorem Runs.of_reaches {n : Nat} {c d : Config} (hcd : Reaches reg c d) (h : Runs reg n d) :
    Runs reg n c := by
  induction hcd generalizing n with
  | refl => exact h
  | tail _ hs ih => exact (ih (.succ hs h)).mono (Nat.le_succ n)

theorem runs_hang (n : Nat) (K : List Frame) (σ : Store) : Runs reg n ⟨.hang, K, σ⟩ := by
  induction n with
  | zero => exact .zero
  | succ n ih => exact .succ rfl ih

theorem not_runs_of_step {n : Nat} {c d : Config} (hs : step reg c = some d)
    (h : ¬ Runs reg n d) : ¬ Runs reg (n + 1) c := by
  intro hr
  cases hr with
  | succ hs' hr' =>
    rw [hs] at hs'
    cases hs'
    exact h hr'

/-- A run that comes to an end has a bound on its steps. -/
theorem exists_not_runs {c d : Config} (h : Reaches reg c d) (hd : step reg d = none) :
    ∃ n, ¬ Runs reg n c := by
  -- Back from the end, each step adds one to the bound.
  have bounded : ∀ n, ¬ Runs reg n d → ∃ m, ¬ Runs reg m c := by
    clear hd
    induction h with
    | refl => exact fun n hn => ⟨n, hn⟩
    | tail _ hs ih => exact fun n hn => ih (n + 1) (not_runs_of_step hs hn)
  refine bounded 1 fun hr => ?_
  cases hr with
  | succ hs _ => rw [hd] at hs; cases hs

theorem Reaches.eq_or_step {c e : Config} (h : Reaches reg c e) :
    c = e ∨ ∃ d, step reg c = some d ∧ Reaches reg d e := by
  induction h with
  | refl => exact Or.inl rfl
  | @tail d e _ hs ih =>
    rcases ih with rfl | ⟨d', hs', h'⟩
    · exact Or.inr ⟨e, hs, .refl⟩
    · exact Or.inr ⟨d', hs', .tail h' hs⟩

/-- Whatever is reached lies on the way to the end. -/
theorem Reaches.to_end {c d e : Config} (h : Reaches reg c d) (hd : step reg d = none)
    (h' : Reaches reg c e) : Reaches reg e d := by
  induction h' with
  | refl => exact h
  | tail _ hs ih =>
    rcases ih.eq_or_step with rfl | ⟨d', hs', hd'⟩
    · rw [hd] at hs; cases hs
    · rw [hs] at hs'
      cases hs'
      exact hd'

/-- A run that comes to an end comes to one end only. -/
theorem Reaches.unique {c d e : Config} (h : Reaches reg c d) (hd : step reg d = none)
    (h' : Reaches reg c e) (he : step reg e = none) : e = d := by
  rcases (h.to_end hd h').eq_or_step with h | ⟨d', hs, _⟩
  · exact h
  · rw [he] at hs; cases hs

/-! ## Following the evaluator -/

/-- From `c` the machine does what the outcome says: it gets to the control that `k` makes of the
value, or to the signal, with the frames `K` still waiting; or it goes on for `n` steps. -/
def Follows (reg : Registry) (n : Nat) (c : Config) (k : α → Control) (K : List Frame) :
    Outcome Store Signal α → Prop
  | .ok a τ => Reaches reg c ⟨k a, K, τ⟩
  | .error sig τ => Reaches reg c ⟨.unwind sig, K, τ⟩
  | .outOfFuel => Runs reg n c

variable {n : Nat} {c d : Config} {k : α → Control} {k' : β → Control} {F : Frame}
  {K : List Frame} {σ : Store} {o : Outcome Store Signal α} {x : Eval α} {f : α → Eval β}

/-- One step more is one more to count on. -/
theorem Follows.head (hs : step reg c = some d) (h : Follows reg n d k K o) :
    Follows reg (n + 1) c k K o := by
  cases o with
  | ok a τ => exact Reaches.head hs h
  | error sig τ => exact Reaches.head hs h
  | outOfFuel => exact Runs.succ hs h

theorem Follows.after (hcd : Reaches reg c d) (h : Follows reg n d k K o) :
    Follows reg n c k K o := by
  cases o with
  | ok a τ => exact hcd.trans h
  | error sig τ => exact hcd.trans h
  | outOfFuel => exact Runs.of_reaches hcd h

theorem Follows.ofStep (hs : step reg c = some d) (h : Follows reg n d k K o) :
    Follows reg n c k K o :=
  Follows.after (.tail .refl hs) h

theorem follows_perform : Follows reg n (perform x k K σ) k K (x σ) := by
  unfold perform
  cases x σ with
  | ok a τ => exact Reaches.refl
  | error sig τ => exact Reaches.refl
  | outOfFuel => exact runs_hang n K σ

theorem Follows.ofPerform (hs : step reg c = some (perform x k K σ)) :
    Follows reg n c k K (x σ) :=
  .ofStep hs follows_perform

/-- If nothing waits for the first part, its signals are signals of the whole. -/
theorem Follows.andThen (hx : Follows reg n c k K (x σ))
    (hf : ∀ a τ, Follows reg n ⟨k a, K, τ⟩ k' K (f a τ)) :
    Follows reg n c k' K ((x >>= f) σ) := by
  rw [Run.bind_apply]
  cases hxσ : x σ with
  | ok a τ => rw [hxσ] at hx; exact Follows.after hx (hf a τ)
  | error sig τ => rw [hxσ] at hx; exact hx
  | outOfFuel => rw [hxσ] at hx; exact hx

/-- If a frame waits for the first part, a signal has to take that frame away. -/
theorem Follows.bind (hx : Follows reg n c k (F :: K) (x σ))
    (hF : ∀ sig τ, pop sig K τ F = ⟨.unwind sig, K, τ⟩)
    (hf : ∀ a τ, Follows reg n ⟨k a, F :: K, τ⟩ k' K (f a τ)) :
    Follows reg n c k' K ((x >>= f) σ) := by
  rw [Run.bind_apply]
  cases hxσ : x σ with
  | ok a τ => rw [hxσ] at hx; exact Follows.after hx (hf a τ)
  | error sig τ =>
    rw [hxσ] at hx
    have hs : step reg ⟨.unwind sig, F :: K, τ⟩ = some ⟨.unwind sig, K, τ⟩ :=
      congrArg some (hF sig τ)
    exact Reaches.tail hx hs
  | outOfFuel => rw [hxσ] at hx; exact hx

theorem Follows.map {f : α → β} (hx : Follows reg n c k K (x σ)) (hk : ∀ a, k a = k' (f a)) :
    Follows reg n c k' K ((x >>= fun a => pure (f a)) σ) := by
  refine hx.andThen fun a τ => ?_
  rw [hk a]
  exact Reaches.refl

/-! ## Returns -/

/-- Operations on the store fail, but they do not return. -/
theorem endCall_raising_bind (x : Action α) (f : α → Eval Value) :
    endCall (raising x >>= f) = raising x >>= fun a => endCall (f a) := by
  funext σ
  rw [Run.bind_apply]
  unfold endCall
  rw [Run.bind_apply]
  unfold raising Run.mapError
  cases x σ <;> rfl

theorem endCall_openScope_bind (outer : Option ScopeId) (f : ScopeId → Eval Value) :
    endCall (Store.openScope outer >>= f) = Store.openScope outer >>= fun s => endCall (f s) :=
  rfl

theorem endCall_bindAll_bind (s : ScopeId) (bs : List (Ident × Value)) (x : Eval Value) :
    endCall (bindAll s bs >>= fun _ => x) = bindAll s bs >>= fun _ => endCall x := by
  induction bs with
  | nil => rfl
  | cons b bs ih =>
    unfold bindAll
    rw [bind_assoc, bind_assoc, endCall_raising_bind]
    simp only [ih]

/-- The frame of a call makes a value of the return, as `endCall` does. -/
theorem Follows.endCall {x : Eval Value} (hx : Follows reg n c .done (.body :: K) (x σ)) :
    Follows reg n c .done K (Eval.endCall x σ) := by
  unfold Eval.endCall
  cases hxσ : x σ with
  | ok v τ => rw [hxσ] at hx; exact Reaches.tail hx rfl
  | error sig τ =>
    rw [hxσ] at hx
    cases sig with
    | ret v => exact Reaches.tail hx rfl
    | raised e => exact Reaches.tail hx rfl
  | outOfFuel => rw [hxσ] at hx; exact hx

/-! ## Lists of statements and of expressions -/

section

variable {env : ScopeId} {run : ScopeId → Stmt → Eval Value} {ev : Expr → Eval Value}

theorem follows_sequence
    (hrun : ∀ env s K σ, Follows reg n ⟨.exec env s, K, σ⟩ .done K (run env s σ))
    (ss : List Stmt) (last : Value) (σ : Store) :
    Follows reg n ⟨.sequence env last ss, K, σ⟩ .done K
      (ss.foldlM (fun _ s => run env s) last σ) := by
  induction ss generalizing last σ with
  | nil => exact Reaches.tail .refl rfl
  | cons s ss ih =>
    rw [List.foldlM_cons]
    refine .ofStep rfl (.bind (hrun env s _ σ) (fun _ _ => rfl) fun v τ => ?_)
    exact .ofStep rfl (ih v τ)

theorem follows_collect
    (hev : ∀ e K σ, Follows reg n ⟨.eval env e, K, σ⟩ .done K (ev e σ))
    (goal : Goal) (vs : List Value) (es : List Expr) (σ : Store) :
    Follows reg n ⟨.collect env goal vs es, K, σ⟩
      (fun ws => .collect env goal (vs ++ ws) []) K (es.mapM ev σ) := by
  induction es generalizing vs σ with
  | nil =>
    rw [List.mapM_nil, ← List.append_nil vs]
    show Reaches reg _ ⟨.collect env goal (vs ++ [] ++ []) [], K, σ⟩
    rw [List.append_nil (vs ++ [])]
    exact Reaches.refl
  | cons e es ih =>
    rw [List.mapM_cons]
    refine .ofStep rfl (.bind (hev e _ σ) (fun _ _ => rfl) fun v τ => ?_)
    refine .ofStep rfl (.map (ih (vs ++ [v]) τ) fun ws => ?_)
    rw [List.append_assoc]
    rfl

theorem follows_pair (hev : ∀ e K σ, Follows reg n ⟨.eval env e, K, σ⟩ .done K (ev e σ))
    (entries : OrderedMap HashKey Value) (kv : Expr × Expr) (kvs : List (Expr × Expr))
    (σ : Store) :
    Follows reg n ⟨.pairs env entries (kv :: kvs), K, σ⟩ (fun es => .pairs env es kvs) K
      (pair ev entries kv σ) := by
  unfold pair
  refine .ofStep rfl
    (.bind (F := .key env entries kv.2 kvs) (hev kv.1 _ σ) (fun _ _ => rfl) fun v τ => ?_)
  cases hk : v.key with
  | error e =>
    have hs : step reg ⟨.done v, .key env entries kv.2 kvs :: K, τ⟩ =
        some ⟨.unwind (.raised e), K, τ⟩ := by
      simp only [step, resume, hk]
    exact Reaches.tail .refl hs
  | ok key =>
    have hs : step reg ⟨.done v, .key env entries kv.2 kvs :: K, τ⟩ =
        some ⟨.eval env kv.2, .entry env entries key kvs :: K, τ⟩ := by
      simp only [step, resume, hk]
    show Follows reg n _ _ K ((ev kv.2 >>= fun w => pure (entries.insert key w)) τ)
    refine .ofStep hs (.bind (F := .entry env entries key kvs) (hev kv.2 _ τ) (fun _ _ => rfl)
      fun w τ => ?_)
    exact Reaches.tail .refl rfl

theorem follows_pairs (hev : ∀ e K σ, Follows reg n ⟨.eval env e, K, σ⟩ .done K (ev e σ))
    (entries : OrderedMap HashKey Value) (kvs : List (Expr × Expr)) (σ : Store) :
    Follows reg n ⟨.pairs env entries kvs, K, σ⟩ (fun es => .pairs env es []) K
      (kvs.foldlM (pair ev) entries σ) := by
  induction kvs generalizing entries σ with
  | nil => exact Reaches.refl
  | cons kv kvs ih =>
    rw [List.foldlM_cons]
    exact .andThen (follows_pair hev entries kv kvs σ) fun es τ => ih es τ

theorem follows_bindAll (s : ScopeId) (bs : List (Ident × Value)) (ss : List Stmt) (σ : Store) :
    Follows reg n ⟨.enter s bs ss, K, σ⟩ (fun _ => .enter s [] ss) K (bindAll s bs σ) := by
  induction bs generalizing σ with
  | nil => exact Reaches.refl
  | cons b bs ih => exact .ofStep rfl (.andThen follows_perform fun _ τ => ih τ)

/-- A scope of its own for some statements, as calls and loops make it. -/
theorem follows_enter
    (hrun : ∀ env s K σ, Follows reg n ⟨.exec env s, K, σ⟩ .done K (run env s σ))
    (outer : Option ScopeId) (bs : List (Ident × Value)) (ss : List Stmt) (σ : Store) :
    Follows reg n (perform (Store.openScope outer) (fun s => .enter s bs ss) K σ) .done K
      ((Store.openScope outer >>= fun s => bindAll s bs >>= fun _ => sequence (run s) ss) σ) := by
  refine .andThen follows_perform fun s τ => .andThen (follows_bindAll s bs ss τ) fun _ τ => ?_
  exact .ofStep rfl (follows_sequence hrun ss .null τ)

/-! ## Calls and loops -/

theorem follows_call
    (hrun : ∀ env s K σ, Follows reg n ⟨.exec env s, K, σ⟩ .done K (run env s σ))
    (f : Expr) (callee : Value) (args : List Value) (σ : Store) :
    Follows reg n (call reg f callee args K σ) .done K (apply reg run f callee args σ) := by
  cases callee with
  | function c =>
    unfold call apply
    by_cases hlen : args.length = c.params.length
    · simp only [if_pos hlen]
      -- The parameters are bound above the frame of the call. Binding them never returns, so
      -- taking in the return may be moved in front of it.
      have h := (follows_enter (K := .body :: K) hrun (some c.scope) (c.params.zip args)
        c.body.stmts σ).endCall
      rw [endCall_openScope_bind] at h
      simp only [endCall_bindAll_bind] at h
      exact h
    · simp only [if_neg hlen]
      exact Reaches.refl
  | _ =>
    rw [call_eq_perform run]
    · exact follows_perform
    · exact nofun

theorem follows_passes
    (hrun : ∀ env s K σ, Follows reg n ⟨.exec env s, K, σ⟩ .done K (run env s σ))
    (l : LoopHead) (es : List (Value × Value)) (σ : Store) :
    Follows reg n ⟨.passes l es, K, σ⟩ (fun _ => .passes l []) K
      (es.forM (Eval.pass run l.env l.index l.value l.body) σ) := by
  induction es generalizing σ with
  | nil => exact Reaches.refl
  | cons e es ih =>
    -- The frame of the pass gets the value of the body, which `Eval.pass` drops.
    have h := (follows_enter (K := .pass l es :: K) hrun (some l.env)
      [(l.index, e.1), (l.value, e.2)] l.body.stmts σ).bind (fun _ _ => rfl)
      fun v τ => .ofStep rfl (ih τ)
    show Follows reg n _ _ K ((Eval.pass run l.env l.index l.value l.body e >>= fun _ =>
      es.forM (Eval.pass run l.env l.index l.value l.body)) σ)
    unfold Eval.pass
    simp only [bind_assoc, pure_bind] at h ⊢
    exact .ofStep rfl h

end

/-! ## Statements and expressions -/

theorem follows_exec
    (heval : ∀ env e K σ,
      Follows reg n ⟨.eval env e, K, σ⟩ .done K (Eval.eval reg n env e σ))
    (hexec : ∀ env s K σ,
      Follows reg n ⟨.exec env s, K, σ⟩ .done K (Eval.exec reg n env s σ))
    (env : ScopeId) (s : Stmt) (K : List Frame) (σ : Store) :
    Follows reg (n + 1) ⟨.exec env s, K, σ⟩ .done K (Eval.exec reg (n + 1) env s σ) := by
  cases s with
  | declare t constant x e =>
    rw [Eval.exec]
    refine .head rfl (.bind (heval env e _ σ) (fun _ _ => rfl) fun v τ => ?_)
    exact .map (.ofPerform rfl) fun _ => rfl
  | ret t e =>
    rw [Eval.exec]
    refine .head rfl (.bind (heval env e _ σ) (fun _ _ => rfl) fun v τ => ?_)
    exact Reaches.tail .refl rfl
  | expr t e => exact .head rfl (heval env e K σ)
  | block b => exact .head rfl (follows_sequence hexec b.stmts .null σ)

theorem follows_eval
    (heval : ∀ env e K σ,
      Follows reg n ⟨.eval env e, K, σ⟩ .done K (Eval.eval reg n env e σ))
    (hexec : ∀ env s K σ,
      Follows reg n ⟨.exec env s, K, σ⟩ .done K (Eval.exec reg n env s σ))
    (env : ScopeId) (e : Expr) (K : List Frame) (σ : Store) :
    Follows reg (n + 1) ⟨.eval env e, K, σ⟩ .done K (Eval.eval reg (n + 1) env e σ) := by
  have hstmts : ∀ (b : Block) K σ, Follows reg n ⟨.sequence env .null b.stmts, K, σ⟩ .done K
      (sequence (Eval.exec reg n env) b.stmts σ) :=
    fun b K σ => follows_sequence hexec b.stmts .null σ
  cases e with
  | ident x => exact .ofPerform rfl
  | int t k => exact .head rfl Reaches.refl
  | str t s => exact .head rfl Reaches.refl
  | bool t b => exact .head rfl Reaches.refl
  | null t => exact .head rfl Reaches.refl
  | unary t op e =>
    rw [Eval.eval]
    refine .head rfl (.bind (heval env e _ σ) (fun _ _ => rfl) fun v τ => ?_)
    exact .ofPerform rfl
  | binary t op l r =>
    rw [Eval.eval]
    refine .head rfl (.bind (heval env l _ σ) (fun _ _ => rfl) fun v τ => ?_)
    refine .ofStep rfl (.bind (heval env r _ τ) (fun _ _ => rfl) fun w τ => ?_)
    exact .ofPerform rfl
  | assign t x e =>
    rw [Eval.eval]
    refine .head rfl (.bind (heval env e _ σ) (fun _ _ => rfl) fun v τ => ?_)
    exact .map (.ofPerform rfl) fun _ => rfl
  | ifElse t test yes no =>
    rw [Eval.eval.eq_def]
    refine .head rfl (.bind (heval env test _ σ) (fun _ _ => rfl) fun v τ => ?_)
    refine .ofStep rfl ?_
    unfold resume
    by_cases hv : v.truthy
    · simp only [if_pos hv]
      exact hstmts yes K τ
    · simp only [if_neg hv]
      cases no with
      | some b => exact hstmts b K τ
      | none => exact Reaches.refl
  | fn t params body =>
    rw [Eval.eval]
    exact .map (.ofPerform rfl) fun _ => rfl
  | call t f args =>
    rw [Eval.eval]
    refine .head rfl (.bind (heval env f _ σ) (fun _ _ => rfl) fun callee τ => ?_)
    refine .ofStep rfl (.andThen (follows_collect (heval env) (.call f callee) [] args τ)
      fun vs τ => ?_)
    exact .ofStep rfl (follows_call hexec f callee vs τ)
  | array t es =>
    rw [Eval.eval]
    refine .head rfl (.andThen (follows_collect (heval env) .array [] es σ) fun vs τ => ?_)
    exact .map (.ofPerform rfl) fun _ => rfl
  | hash t kvs =>
    rw [Eval.eval]
    refine .head rfl (.andThen (follows_pairs (heval env) .empty kvs σ) fun entries τ => ?_)
    exact .map (.ofPerform rfl) fun _ => rfl
  | index t e i =>
    rw [Eval.eval]
    refine .head rfl (.bind (heval env e _ σ) (fun _ _ => rfl) fun base τ => ?_)
    refine .ofStep rfl (.bind (heval env i _ τ) (fun _ _ => rfl) fun v τ => ?_)
    exact .ofPerform rfl
  | forIn t index value target body =>
    rw [Eval.eval, ← bind_assoc]
    refine .head rfl (.andThen follows_perform fun es τ => ?_)
    refine .andThen (follows_passes hexec ⟨env, index, value, target, body⟩ es τ) fun _ τ => ?_
    exact .map (.ofPerform rfl) fun _ => rfl

/-- The machine follows the evaluator, whatever frames wait. -/
theorem follows (n : Nat) :
    (∀ env s K σ, Follows reg n ⟨.exec env s, K, σ⟩ .done K (Eval.exec reg n env s σ)) ∧
    (∀ env e K σ, Follows reg n ⟨.eval env e, K, σ⟩ .done K (Eval.eval reg n env e σ)) := by
  induction n with
  | zero => exact ⟨fun _ _ _ _ => Runs.zero, fun _ _ _ _ => Runs.zero⟩
  | succ n ih => exact ⟨follows_exec ih.2 ih.1, follows_eval ih.2 ih.1⟩

/-! ## Whole evaluations -/

/-- The outcome of an evaluation that has come to an end. -/
def outcome : Except Signal Value → Store → Outcome Store Signal Value
  | .ok v, τ => .ok v τ
  | .error sig, τ => .error sig τ

@[simp] theorem step_final (r : Except Signal Value) (τ : Store) :
    step reg ⟨final r, [], τ⟩ = none := by
  cases r <;> rfl

namespace Code

variable {code : Code} {env : ScopeId} {r : Except Signal Value} {τ : Store}

theorem follows_eval (code : Code) (n : Nat) (env : ScopeId) (K : List Frame) (σ : Store) :
    Follows reg n ⟨code.start env, K, σ⟩ .done K (code.eval reg n env σ) := by
  cases code with
  | stmts ss => exact follows_sequence (follows n).1 ss .null σ
  | expr e => exact (follows n).2 env e K σ

theorem reaches_of_eval (h : code.eval reg n env σ = outcome r τ) :
    Reaches reg ⟨code.start env, K, σ⟩ ⟨final r, K, τ⟩ := by
  have hf : Follows reg n _ _ K _ := code.follows_eval n env K σ
  rw [h] at hf
  cases r with
  | ok v => exact hf
  | error sig => exact hf

/-- The evaluator ends at some depth exactly if the machine ends, and in the same way. -/
theorem finishes_iff :
    (∃ n, code.eval reg n env σ = outcome r τ) ↔
      Reaches reg ⟨code.start env, [], σ⟩ ⟨final r, [], τ⟩ := by
  refine ⟨fun ⟨n, h⟩ => reaches_of_eval h, fun h => ?_⟩
  obtain ⟨n, hn⟩ := exists_not_runs h (step_final r τ)
  refine ⟨n, ?_⟩
  have hf : Follows reg n _ _ [] _ := code.follows_eval n env [] σ
  cases ho : code.eval reg n env σ with
  | ok v ρ =>
    rw [ho] at hf
    have heq := h.unique (step_final r τ) hf rfl
    cases r <;> cases heq
    rfl
  | error sig ρ =>
    rw [ho] at hf
    have heq := h.unique (step_final r τ) hf rfl
    cases r <;> cases heq
    rfl
  | outOfFuel =>
    rw [ho] at hf
    exact absurd hf hn

end Code

/-- A program gives the value it comes to or that it returns, or the error that is raised. -/
theorem reaches_of_run {p : Program} {depth : Nat} {env : ScopeId} {v : Value} {τ : Store}
    (h : p.run reg depth env σ = some (v, τ)) :
    Reaches reg (begin p env σ) ⟨.done v, [], τ⟩ ∨
      Reaches reg (begin p env σ) ⟨.unwind (.ret v), [], τ⟩ ∨
      ∃ e, v = .error e ∧ Reaches reg (begin p env σ) ⟨.unwind (.raised e), [], τ⟩ := by
  have hf : Follows reg depth (begin p env σ) .done []
      (sequence (Eval.exec reg depth env) p.stmts σ) :=
    (Code.stmts p.stmts).follows_eval depth env [] σ
  unfold Program.run answer at h
  cases ho : sequence (Eval.exec reg depth env) p.stmts σ with
  | ok w ρ =>
    rw [ho] at h hf
    cases h
    exact Or.inl hf
  | error sig ρ =>
    rw [ho] at h hf
    cases sig with
    | ret w =>
      cases h
      exact Or.inr (Or.inl hf)
    | raised e =>
      cases h
      exact Or.inr (Or.inr ⟨e, rfl, hf⟩)
  | outOfFuel =>
    rw [ho] at h
    cases h

/-- What a session does with a source goes on from where its earlier sources came to an end. -/
theorem later_of_session_eval {session session' : Session} {source : String} {depth : Nat}
    {v : Value} {c₀ c : Config} (hc : Later session.registry session.globals c₀ c)
    (hend : step session.registry c = none) (hstore : c.store = session.store)
    (h : session.eval depth source = .ok (some (v, session'))) :
    ∃ d, Later session.registry session.globals c₀ d ∧ step session.registry d = none ∧
      session' = { session with store := d.store } := by
  unfold Session.eval at h
  cases hp : parse source with
  | error ds => rw [hp] at h; cases h
  | ok p =>
    rw [hp] at h
    obtain ⟨⟨w, τ⟩, hrun, hanswer⟩ := Option.map_eq_some_iff.1 (Except.ok.inj h)
    cases hanswer
    have hlater : ∀ {d}, Reaches session.registry (begin p session.globals session.store) d →
        Later session.registry session.globals c₀ d := by
      intro d hd
      induction hd with
      | refl => exact hstore ▸ .next p hc hend
      | tail _ hs ih => exact .step ih hs
    rcases reaches_of_run hrun with h | h | ⟨e, -, h⟩
    · exact ⟨_, hlater h, rfl, rfl⟩
    · exact ⟨_, hlater h, rfl, rfl⟩
    · exact ⟨_, hlater h, rfl, rfl⟩

end Machine

end Scriptlet
