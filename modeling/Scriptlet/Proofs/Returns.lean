import Scriptlet.Proofs.Machine.Adequacy
import Scriptlet.Session

/-!
# Where a return ends

A return ends the body that it is written in, and no other.

**Theorem (`return_ends_its_own_body`).** Code in which no return stands, unless in the body of a
function, does not end in a return, whatever functions and natives it calls. So a program without
such a return runs its statements in turn, all of them unless one raises an error, and its value is
that of the last one.

The induction is on the depth, and it is about the code as written: the body of a function may
return, but its call takes the return in, whatever the body is (`neverReturns_apply`). A loop takes
in none, so its body counts as part of the code around it.
-/

namespace Scriptlet

open Machine

/-! ## Code without returns of its own -/

mutual

/-- No return stands in the expression, unless in the body of a function. -/
def Expr.Returnless : Expr → Prop
  | .ident _ | .int _ _ | .str _ _ | .bool _ _ | .null _ | .fn _ _ _ => True
  | .unary _ _ e => e.Returnless
  | .binary _ _ l r => l.Returnless ∧ r.Returnless
  | .assign _ _ e => e.Returnless
  | .ifElse _ e yes no => e.Returnless ∧ yes.Returnless ∧ elseReturnless no
  | .call _ f es => f.Returnless ∧ exprsReturnless es
  | .array _ es => exprsReturnless es
  | .hash _ kvs => pairsReturnless kvs
  | .index _ e i => e.Returnless ∧ i.Returnless
  | .forIn _ _ _ _ b => b.Returnless

def Stmt.Returnless : Stmt → Prop
  | .declare _ _ _ e => e.Returnless
  | .ret _ _ => False
  | .expr _ e => e.Returnless
  | .block b => b.Returnless

def Block.Returnless : Block → Prop
  | .mk _ ss => stmtsReturnless ss

def elseReturnless : Option Block → Prop
  | none => True
  | some b => b.Returnless

def exprsReturnless : List Expr → Prop
  | [] => True
  | e :: es => e.Returnless ∧ exprsReturnless es

def pairsReturnless : List (Expr × Expr) → Prop
  | [] => True
  | (k, v) :: kvs => (k.Returnless ∧ v.Returnless) ∧ pairsReturnless kvs

def stmtsReturnless : List Stmt → Prop
  | [] => True
  | s :: ss => s.Returnless ∧ stmtsReturnless ss

end

def Machine.Code.Returnless : Code → Prop
  | .stmts ss => stmtsReturnless ss
  | .expr e => e.Returnless

def Program.Returnless (p : Program) : Prop := stmtsReturnless p.stmts

theorem exprsReturnless_iff {es : List Expr} :
    exprsReturnless es ↔ ∀ e ∈ es, e.Returnless := by
  induction es with
  | nil => simp [exprsReturnless]
  | cons e es ih => simp [exprsReturnless, ih]

theorem pairsReturnless_iff {kvs : List (Expr × Expr)} :
    pairsReturnless kvs ↔ ∀ kv ∈ kvs, kv.1.Returnless ∧ kv.2.Returnless := by
  induction kvs with
  | nil => simp [pairsReturnless]
  | cons kv kvs ih => simp [pairsReturnless, ih]

theorem stmtsReturnless_iff {ss : List Stmt} :
    stmtsReturnless ss ↔ ∀ s ∈ ss, s.Returnless := by
  induction ss with
  | nil => simp [stmtsReturnless]
  | cons s ss ih => simp [stmtsReturnless, ih]

theorem Block.returnless_iff {b : Block} : b.Returnless ↔ ∀ s ∈ b.stmts, s.Returnless := by
  cases b with
  | mk t ss => exact stmtsReturnless_iff

/-! ## Evaluations that do not return -/

/-- Wherever it starts, `x` does not end in a return. -/
def NeverReturns {α : Type} (x : Eval α) : Prop := ∀ σ v τ, x σ ≠ .error (.ret v) τ

namespace NeverReturns

variable {α β γ : Type}

theorem pure (a : α) : NeverReturns (Pure.pure a : Eval α) := fun _ _ _ => nofun

theorem raise (e : RuntimeError) : NeverReturns (Eval.raise e : Eval α) := by
  intro σ v τ h
  cases h

theorem read (f : Store → α) : NeverReturns (Run.read f : Eval α) := fun _ _ _ => nofun

/-- What an operation on the store fails with is raised. -/
theorem raising (x : Action α) : NeverReturns (Eval.raising x) := by
  intro σ v τ h
  unfold Eval.raising Run.mapError at h
  cases hx : x σ with
  | ok a ρ =>
    rw [hx] at h
    cases h
  | error e ρ =>
    rw [hx] at h
    cases h
  | outOfFuel =>
    rw [hx] at h
    cases h

theorem bind {x : Eval α} {f : α → Eval β} (hx : NeverReturns x)
    (hf : ∀ a, NeverReturns (f a)) : NeverReturns (x >>= f) := by
  intro σ v τ h
  rcases Run.bind_eq_error_iff.1 h with h | ⟨a, ρ, -, h⟩
  · exact hx σ v τ h
  · exact hf a ρ v τ h

/-! ## Lists -/

theorem foldlM {f : β → γ → Eval β} {cs : List γ} (h : ∀ b, ∀ c ∈ cs, NeverReturns (f b c))
    (b : β) : NeverReturns (cs.foldlM f b) := by
  induction cs generalizing b with
  | nil => exact .pure b
  | cons c cs ih =>
    rw [List.foldlM_cons]
    exact (h b c List.mem_cons_self).bind (ih fun b d hd => h b d (List.mem_cons_of_mem _ hd))

theorem mapM {f : γ → Eval β} {cs : List γ} (h : ∀ c ∈ cs, NeverReturns (f c)) :
    NeverReturns (cs.mapM f) := by
  induction cs with
  | nil => exact .pure []
  | cons c cs ih =>
    rw [List.mapM_cons]
    exact (h c List.mem_cons_self).bind fun b =>
      (ih fun d hd => h d (List.mem_cons_of_mem _ hd)).bind fun bs => .pure (b :: bs)

theorem forM {f : γ → Eval PUnit} (h : ∀ c, NeverReturns (f c)) (cs : List γ) :
    NeverReturns (cs.forM f) := by
  induction cs with
  | nil => exact .pure PUnit.unit
  | cons c cs ih => exact (h c).bind fun _ => ih

end NeverReturns

namespace Eval

variable {reg : Registry} {n : Nat} {env : ScopeId}

/-! ## Parts of an evaluation -/

theorem neverReturns_sequence {run : Stmt → Eval Value} {ss : List Stmt}
    (h : ∀ s ∈ ss, NeverReturns (run s)) : NeverReturns (sequence run ss) :=
  .foldlM (fun _ => h) .null

theorem neverReturns_name (x : String) : NeverReturns (name reg env x) := by
  refine (NeverReturns.read _).bind fun bound => ?_
  cases bound with
  | some b => exact .pure b.value
  | none =>
    dsimp only
    split
    · exact .pure _
    · exact .raise _

theorem neverReturns_bindAll (s : ScopeId) (bs : List (Ident × Value)) :
    NeverReturns (bindAll s bs) := by
  induction bs with
  | nil => exact .pure ()
  | cons b bs ih => exact (NeverReturns.raising _).bind fun _ => ih

theorem neverReturns_openScope (outer : Option ScopeId) :
    NeverReturns (Store.openScope outer : Eval ScopeId) := fun _ _ _ => nofun

theorem neverReturns_newStamp : NeverReturns (Store.newStamp : Eval Nat) := fun _ _ _ => nofun

theorem neverReturns_entries (v : Value) : NeverReturns (entries v) := by
  cases v with
  | array id => exact .read _
  | hash id => exact .read _
  | _ => exact .raise _

theorem neverReturns_ofNative (v : Value) : NeverReturns (ofNative v) := by
  cases v with
  | error e => exact .raise e
  | _ => exact .pure _

theorem neverReturns_pair {run : Expr → Eval Value} {kv : Expr × Expr}
    (hk : NeverReturns (run kv.1)) (hv : NeverReturns (run kv.2))
    (m : OrderedMap HashKey Value) : NeverReturns (pair run m kv) :=
  hk.bind fun _ => (NeverReturns.raising _).bind fun _ => hv.bind fun _ => .pure _

/-- The body of a function may return. Its call does not. -/
theorem neverReturns_endCall (x : Eval Value) : NeverReturns (endCall x) := by
  intro σ v τ h
  unfold endCall at h
  cases hx : x σ with
  | ok w ρ =>
    rw [hx] at h
    cases h
  | error sig ρ =>
    rw [hx] at h
    cases sig with
    | ret w => cases h
    | raised e => cases h
  | outOfFuel =>
    rw [hx] at h
    cases h

/-- **No return gets out of a call**, whatever is called. -/
theorem neverReturns_apply (run : ScopeId → Stmt → Eval Value) (f : Expr) (callee : Value)
    (args : List Value) : NeverReturns (apply reg run f callee args) := by
  cases callee with
  | function c =>
    rw [apply]
    split
    · exact (neverReturns_openScope _).bind fun s => (neverReturns_bindAll s _).bind fun _ =>
        neverReturns_endCall _
    · exact .raise _
  | native x =>
    rw [apply]
    cases reg.find? x with
    | none => exact .raise _
    | some native => exact (NeverReturns.raising _).bind neverReturns_ofNative
  | _ => exact .raise _

/-- A loop takes in no return, but it makes none either. -/
theorem neverReturns_pass {run : ScopeId → Stmt → Eval Value} {body : Block}
    (h : ∀ s, ∀ st ∈ body.stmts, NeverReturns (run s st)) (index value : Ident)
    (entry : Value × Value) : NeverReturns (pass run env index value body entry) :=
  (neverReturns_openScope _).bind fun s => (neverReturns_bindAll s _).bind fun _ =>
    (neverReturns_sequence (h s)).bind fun _ => .pure _

/-! ## Statements and expressions -/

section

variable (hexec : ∀ env s, s.Returnless → NeverReturns (exec reg n env s))
  (heval : ∀ env e, e.Returnless → NeverReturns (eval reg n env e))
include hexec heval

theorem neverReturns_exec_succ (s : Stmt) (hs : s.Returnless) :
    NeverReturns (exec reg (n + 1) env s) := by
  cases s with
  | declare t constant x e =>
    exact (heval env e hs).bind fun _ => (NeverReturns.raising _).bind fun _ => .pure _
  | ret t e => exact hs.elim
  | expr t e => exact heval env e hs
  | block b => exact neverReturns_sequence fun s hb => hexec env s (Block.returnless_iff.1 hs s hb)

theorem neverReturns_eval_succ (e : Expr) (he : e.Returnless) :
    NeverReturns (eval reg (n + 1) env e) := by
  have hblock (b : Block) (hb : b.Returnless) (env : ScopeId) :
      ∀ s ∈ b.stmts, NeverReturns (exec reg n env s) :=
    fun s hs => hexec env s (Block.returnless_iff.1 hb s hs)
  have hexprs (es : List Expr) (hes : exprsReturnless es) :
      ∀ e ∈ es, NeverReturns (eval reg n env e) :=
    fun e he => heval env e (exprsReturnless_iff.1 hes e he)
  cases e with
  | ident x => exact neverReturns_name x.name
  | int t k => exact .pure _
  | str t s => exact .pure _
  | bool t b => exact .pure _
  | null t => exact .pure _
  | unary t op e => exact (heval env e he).bind fun _ => .raising _
  | binary t op l r =>
    exact (heval env l he.1).bind fun _ => (heval env r he.2).bind fun _ => .raising _
  | assign t x e =>
    exact (heval env e he).bind fun _ => (NeverReturns.raising _).bind fun _ => .pure _
  | ifElse t test yes no =>
    obtain ⟨htest, hyes, hno⟩ := he
    refine (heval env test htest).bind fun v => ?_
    split
    · exact neverReturns_sequence (hblock yes hyes env)
    · cases no with
      | some b => exact neverReturns_sequence (hblock b hno env)
      | none => exact .pure _
  | fn t params body => exact neverReturns_newStamp.bind fun _ => .pure _
  | call t f args =>
    exact (heval env f he.1).bind fun callee =>
      (NeverReturns.mapM (hexprs args he.2)).bind fun vs => neverReturns_apply _ f callee vs
  | array t es =>
    exact (NeverReturns.mapM (hexprs es he)).bind fun vs σ v τ h => nomatch h
  | hash t kvs =>
    have hpair (m : OrderedMap HashKey Value) (kv : Expr × Expr) (hkv : kv ∈ kvs) :
        NeverReturns (pair (eval reg n env) m kv) :=
      have hkv := pairsReturnless_iff.1 he kv hkv
      neverReturns_pair (heval env kv.1 hkv.1) (heval env kv.2 hkv.2) m
    exact (NeverReturns.foldlM hpair .empty).bind fun m σ v τ h => nomatch h
  | index t e i =>
    exact (heval env e he.1).bind fun _ => (heval env i he.2).bind fun _ =>
      (NeverReturns.read _).bind fun _ => .raising _
  | forIn t index value target body =>
    exact (neverReturns_name target.name).bind fun v => (neverReturns_entries v).bind fun es =>
      (NeverReturns.forM (neverReturns_pass (hblock body he) index value) es).bind fun _ =>
        neverReturns_newStamp.bind fun _ => .pure _

end

theorem neverReturns_eval (reg : Registry) (n : Nat) :
    (∀ env s, s.Returnless → NeverReturns (exec reg n env s)) ∧
      ∀ env e, e.Returnless → NeverReturns (eval reg n env e) := by
  induction n with
  | zero => exact ⟨fun _ _ _ _ _ _ => nofun, fun _ _ _ _ _ _ => nofun⟩
  | succ n ih =>
    exact ⟨fun _ => neverReturns_exec_succ ih.1 ih.2, fun _ => neverReturns_eval_succ ih.1 ih.2⟩

/-! ## Statements in turn -/

/-- The value of a list of statements is that of the last one. -/
theorem sequence_eq_mapM (run : Stmt → Eval Value) (ss : List Stmt) :
    sequence run ss = ss.mapM run >>= fun vs => pure (vs.getLastD .null) := by
  have hfrom (v : Value) : ss.foldlM (fun _ s => run s) v =
      ss.mapM run >>= fun vs => pure (vs.getLastD v) := by
    induction ss generalizing v with
    | nil => rfl
    | cons s ss ih =>
      rw [List.foldlM_cons, List.mapM_cons, bind_assoc]
      refine bind_congr fun w => ?_
      rw [ih w, bind_assoc]
      exact bind_congr fun ws => by rw [pure_bind, List.getLastD_cons]
  exact hfrom .null

/-- What stops a list of statements is the first one that stops, after all before it have run. -/
theorem mapM_eq_error_iff {run : Stmt → Eval Value} {ss : List Stmt} {σ τ : Store} {sig : Signal} :
    ss.mapM run σ = .error sig τ ↔ ∃ before s after vs ρ, ss = before ++ s :: after ∧
      before.mapM run σ = .ok vs ρ ∧ run s ρ = .error sig τ := by
  induction ss generalizing σ with
  | nil =>
    refine iff_of_false (fun h => nomatch h) ?_
    rintro ⟨before, s, after, vs, ρ, h, -⟩
    cases before <;> cases h
  | cons s ss ih =>
    rw [List.mapM_cons, Run.bind_eq_error_iff]
    constructor
    · rintro (h | ⟨v, π, hs, h⟩)
      · exact ⟨[], s, ss, [], σ, rfl, rfl, h⟩
      · rcases Run.bind_eq_error_iff.1 h with h | ⟨vs, ρ, -, h⟩
        · obtain ⟨before, s', after, vs, ρ, rfl, hbefore, h⟩ := ih.1 h
          refine ⟨s :: before, s', after, v :: vs, ρ, rfl, ?_, h⟩
          rw [List.mapM_cons, Run.bind_eq_ok_iff]
          exact ⟨v, π, hs, Run.bind_eq_ok_iff.2 ⟨vs, ρ, hbefore, rfl⟩⟩
        · cases h
    · rintro ⟨before, s', after, vs, ρ, hss, hbefore, h⟩
      cases before with
      | nil =>
        cases hss
        cases hbefore
        exact .inl h
      | cons _ before =>
        cases hss
        rw [List.mapM_cons] at hbefore
        obtain ⟨v, π, hs, hbefore⟩ := Run.bind_eq_ok_iff.1 hbefore
        obtain ⟨ws, π', hws, hbefore⟩ := Run.bind_eq_ok_iff.1 hbefore
        cases hbefore
        exact .inr ⟨v, π, hs, Run.bind_eq_error_iff.2
          (.inl (ih.2 ⟨before, s', after, ws, ρ, rfl, hws, h⟩))⟩

end Eval

open Eval

theorem Machine.Code.Returnless.neverReturns {code : Code} (h : code.Returnless) (reg : Registry)
    (depth : Nat) (env : ScopeId) : NeverReturns (code.eval reg depth env) := by
  obtain ⟨hexec, heval⟩ := neverReturns_eval reg depth
  cases code with
  | stmts ss => exact neverReturns_sequence fun s hs => hexec env s (stmtsReturnless_iff.1 h s hs)
  | expr e => exact heval env e h

/-- A program that does not return ends in the value of its last statement or in an error. -/
theorem answer_eq_some_iff {x : Eval Value} (hx : NeverReturns x) {σ τ : Store} {v : Value} :
    x.answer σ = some (v, τ) ↔
      x σ = .ok v τ ∨ ∃ e, x σ = .error (.raised e) τ ∧ v = .error e := by
  unfold Eval.answer
  cases hxσ : x σ with
  | ok w ρ => simp
  | error sig ρ =>
    cases sig with
    | ret w => exact absurd hxσ (hx σ w ρ)
    | raised e =>
      simp only [Option.some.injEq, Prod.mk.injEq, reduceCtorEq, false_or, Outcome.error.injEq,
        Signal.raised.injEq]
      constructor
      · rintro ⟨rfl, rfl⟩
        exact ⟨e, ⟨rfl, rfl⟩, rfl⟩
      · rintro ⟨e', ⟨rfl, rfl⟩, rfl⟩
        exact ⟨rfl, rfl⟩
  | outOfFuel => simp

/-- **A return ends the body that it is written in**, and does not get out of a call. -/
theorem return_ends_its_own_body (reg : Registry) :
    (∀ (code : Code) (depth : Nat) (env : ScopeId) (σ τ : Store) (r : Except Signal Value),
      code.Returnless → code.eval reg depth env σ = outcome r τ →
        (∃ v, r = .ok v) ∨ ∃ e, r = .error (.raised e)) ∧
    (∀ (f : Expr) (callee : Value) (args : List Value) (depth : Nat) (σ τ : Store) (v : Value),
      apply reg (exec reg depth) f callee args σ ≠ .error (.ret v) τ) ∧
    ∀ (p : Program) (depth : Nat) (env : ScopeId) (σ τ : Store) (v : Value), p.Returnless →
      (p.run reg depth env σ = some (v, τ) ↔
        (∃ vs, p.stmts.mapM (exec reg depth env) σ = .ok vs τ ∧ v = vs.getLastD .null) ∨
        ∃ before s after vs ρ e, p.stmts = before ++ s :: after ∧
          before.mapM (exec reg depth env) σ = .ok vs ρ ∧
          exec reg depth env s ρ = .error (.raised e) τ ∧ v = .error e) := by
  refine ⟨fun code depth env σ τ r hcode h => ?_, fun f callee args depth σ τ v => ?_,
    fun p depth env σ τ v hp => ?_⟩
  · match r with
    | .ok v => exact .inl ⟨v, rfl⟩
    | .error (.raised e) => exact .inr ⟨e, rfl⟩
    | .error (.ret v) => exact absurd h (hcode.neverReturns reg depth env σ v τ)
  · exact neverReturns_apply _ f callee args σ v τ
  · have hcode : (Code.stmts p.stmts).Returnless := hp
    refine (answer_eq_some_iff (hcode.neverReturns reg depth env)).trans ?_
    rw [Code.eval, sequence_eq_mapM]
    refine or_congr ?_ ?_
    · rw [Run.bind_eq_ok_iff]
      constructor
      · rintro ⟨vs, ρ, hvs, h⟩
        cases h
        exact ⟨vs, hvs, rfl⟩
      · rintro ⟨vs, hvs, rfl⟩
        exact ⟨vs, τ, hvs, rfl⟩
    · constructor
      · rintro ⟨e, h, rfl⟩
        rcases Run.bind_eq_error_iff.1 h with h | ⟨vs, ρ, -, h⟩
        · obtain ⟨before, s, after, vs, ρ, hp, hbefore, hs⟩ := mapM_eq_error_iff.1 h
          exact ⟨before, s, after, vs, ρ, e, hp, hbefore, hs, rfl⟩
        · cases h
      · rintro ⟨before, s, after, vs, ρ, e, hp, hbefore, hs, rfl⟩
        exact ⟨e, Run.bind_eq_error_iff.2
          (.inl (mapM_eq_error_iff.2 ⟨before, s, after, vs, ρ, hp, hbefore, hs⟩)), rfl⟩

/-- The program `fn() { return 1; 3 }(); 2`. The call gives 1, and the program goes on. -/
theorem return_ends_called_body :
    ∃ (p : Program) (σ τ : Store) (vs : List Value), p.Returnless ∧
      p.stmts.mapM (exec .standard 4 0) σ = .ok vs τ ∧ vs = [.integer 1, .integer 2] ∧
      p.run .standard 4 0 σ = some (.integer 2, τ) := by
  let t : Token := ⟨.ident, "", ⟨1, 1⟩⟩
  let body : Block := .mk t [.ret t (.int t 1), .expr t (.int t 3)]
  let p : Program := ⟨[.expr t (.call t (.fn t [] body) []), .expr t (.int t 2)]⟩
  let σ : Store := (Session.new .standard (.console #[])).store
  have hp : p.Returnless := ⟨⟨trivial, trivial⟩, trivial, trivial⟩
  have hrun : p.stmts.mapM (exec .standard 4 0) σ = .ok [.integer 1, .integer 2]
      { σ with scopes := σ.scopes.push ⟨.empty, some 0⟩, stamps := 1 } := rfl
  exact ⟨p, σ, _, _, hp, hrun, rfl,
    ((return_ends_its_own_body .standard).2.2 p 4 0 σ _ _ hp).2 (.inl ⟨_, hrun, rfl⟩)⟩

end Scriptlet
