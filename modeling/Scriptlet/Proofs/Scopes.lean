import Scriptlet.Proofs.Machine.Adequacy
import Scriptlet.Proofs.Scopeless

/-!
# Who gains names

**Theorem (`only_current_scope_gains`).** Let statements or an expression be evaluated in a scope,
with natives that leave the scopes alone, and let the evaluation come to an end, with a value or a
signal. Then every other scope of the store binds the names it bound, has the constants it had and
is inside the scope it was inside. The scope of the evaluation keeps its names and constants and
may have more. A call, and a loop, gives no scope of the store a name.

The evaluator writes to a scope in three ways. `define` and `defineConstant` write to the scope
that the code runs in; `reassign` may write anywhere, but only to a name that is bound already and
is no constant. A call and the pass of a loop run their code in a scope that they have just opened,
so what that scope gains is gained by none that was there before (`Alters.inside`).
-/

namespace Scriptlet

namespace Store

/-- In `τ` the scope `s` is inside the same scope as in `σ`, and still has all names and all
constants. -/
structure KeepsNames (σ τ : Store) (s : ScopeId) : Prop where
  outer : τ.outer? s = σ.outer? s
  bound : ∀ x, (σ.binding? s x).isSome → (τ.binding? s x).isSome
  constant : ∀ x b, b.constant → σ.binding? s x = some b → τ.binding? s x = some b

/-- In `τ` the scope `s` is inside the same scope as in `σ`, and has the same names, the same of
them for good, and these with the same values. -/
structure SameNames (σ τ : Store) (s : ScopeId) : Prop where
  outer : τ.outer? s = σ.outer? s
  bound : ∀ x, (τ.binding? s x).isSome ↔ (σ.binding? s x).isSome
  constant : ∀ x b, b.constant → (τ.binding? s x = some b ↔ σ.binding? s x = some b)

/-- The scopes of `σ` are in `τ`, and of these only the ones that `may` has may have gained
names. -/
structure Gains (may : ScopeId → Prop) (σ τ : Store) : Prop where
  size : σ.scopes.size ≤ τ.scopes.size
  keeps : ∀ s < σ.scopes.size, σ.KeepsNames τ s
  same : ∀ s < σ.scopes.size, ¬ may s → σ.SameNames τ s

variable {σ τ ρ : Store} {s : ScopeId} {may : ScopeId → Prop}

theorem KeepsNames.trans (h : σ.KeepsNames τ s) (h' : τ.KeepsNames ρ s) : σ.KeepsNames ρ s where
  outer := h'.outer.trans h.outer
  bound x hx := h'.bound x (h.bound x hx)
  constant x b hb hx := h'.constant x b hb (h.constant x b hb hx)

theorem SameNames.keeps (h : σ.SameNames τ s) : σ.KeepsNames τ s where
  outer := h.outer
  bound x := (h.bound x).2
  constant x b hb := (h.constant x b hb).2

theorem SameNames.trans (h : σ.SameNames τ s) (h' : τ.SameNames ρ s) : σ.SameNames ρ s where
  outer := h'.outer.trans h.outer
  bound x := (h'.bound x).trans (h.bound x)
  constant x b hb := (h'.constant x b hb).trans (h.constant x b hb)

/-- A scope that is as it was has the names that it had. -/
theorem sameNames_of_eq (h : τ.scopes[s]? = σ.scopes[s]?) : σ.SameNames τ s := by
  have hb : ∀ x, τ.binding? s x = σ.binding? s x := fun x => by rw [binding?, binding?, h]
  exact {
    outer := by rw [outer?, outer?, h]
    bound := fun x => by rw [hb]
    constant := fun x b _ => by rw [hb] }

theorem gains_of_eq (h : τ.scopes = σ.scopes) : Gains may σ τ where
  size := Nat.le_of_eq (by rw [h])
  keeps _ _ := (sameNames_of_eq (by rw [h])).keeps
  same _ _ _ := sameNames_of_eq (by rw [h])

theorem Gains.refl (σ : Store) : Gains may σ σ := gains_of_eq rfl

theorem Gains.trans (h : Gains may σ τ) (h' : Gains may τ ρ) : Gains may σ ρ where
  size := Nat.le_trans h.size h'.size
  keeps s hs := (h.keeps s hs).trans (h'.keeps s (Nat.lt_of_lt_of_le hs h.size))
  same s hs hmay := (h.same s hs hmay).trans (h'.same s (Nat.lt_of_lt_of_le hs h.size) hmay)

/-- What gives no scope a name is allowed everywhere. -/
theorem Gains.weaken (h : Gains (fun _ => False) σ τ) : Gains may σ τ where
  size := h.size
  keeps := h.keeps
  same s hs _ := h.same s hs id

/-! ## What the operations do to names -/

/-- Whatever is bound, the names bound before stay, if the binding written over is no constant. -/
theorem keepsNames_bind {o : ScopeId} {x : String} {b : Binding}
    (h : (σ.binding? o x).any Binding.constant = false) (s : ScopeId) :
    σ.KeepsNames (σ.bind o x b) s where
  outer := outer?_bind ..
  bound y hy := by
    rw [binding?_bind]
    split
    · rfl
    · exact hy
  constant y c hc hy := by
    rw [binding?_bind]
    split
    · rename_i hat
      obtain ⟨rfl, rfl, -⟩ := hat
      rw [hy, Option.any_some, hc] at h
      cases h
    · exact hy

theorem gains_bind {x : String} {b : Binding}
    (h : (σ.binding? s x).any Binding.constant = false) : Gains (· = s) σ (σ.bind s x b) where
  size := by simp [bind]
  keeps t _ := keepsNames_bind h t
  same t _ hne := by
    have hb : ∀ y, (σ.bind s x b).binding? t y = σ.binding? t y := fun y => by
      rw [binding?_bind, if_neg fun hat => hne hat.1.symm]
    exact {
      outer := outer?_bind ..
      bound := fun y => by rw [hb]
      constant := fun y c _ => by rw [hb] }

/-- A name that is bound gets another value: no scope gains a name. -/
theorem gains_rebind {x : String} {v : Value} (hbound : (σ.binding? s x).isSome)
    (h : (σ.binding? s x).any Binding.constant = false) :
    Gains (fun _ => False) σ (σ.bind s x ⟨v, false⟩) where
  size := by simp [bind]
  keeps t _ := keepsNames_bind h t
  same t _ _ := by
    refine { outer := outer?_bind .., bound := fun y => ?_, constant := fun y c hc => ?_ }
    · rw [binding?_bind]
      split
      · rename_i hat
        obtain ⟨rfl, rfl, -⟩ := hat
        simp [hbound]
      · rfl
    · rw [binding?_bind]
      split
      · rename_i hat
        obtain ⟨rfl, rfl, -⟩ := hat
        -- On neither side is the name a constant.
        constructor
        · intro hv
          cases hv
          cases hc
        · intro hv
          rw [hv, Option.any_some, hc] at h
          cases h
      · rfl

theorem gains_pushScope (outer : Option ScopeId) :
    Gains may σ { σ with scopes := σ.scopes.push ⟨.empty, outer⟩ } where
  size := by simp
  keeps s hs := (sameNames_of_eq (by simp [Array.getElem?_push, Nat.ne_of_lt hs])).keeps
  same s hs _ := sameNames_of_eq (by simp [Array.getElem?_push, Nat.ne_of_lt hs])

end Store

/-! ## What a run does to a store -/

/-- However `x` ends, it changes the store only as `R` says. -/
structure Alters {ε α : Type} (R : Store → Store → Prop) (x : Run Store ε α) : Prop where
  ok : ∀ {σ a τ}, x σ = .ok a τ → R σ τ
  error : ∀ {σ e τ}, x σ = .error e τ → R σ τ

namespace Alters

variable {ε α β : Type} {R R' : Store → Store → Prop} {x : Run Store ε α} {f : α → Run Store ε β}

theorem mono (h : Alters R x) (hR : ∀ {σ τ}, R σ τ → R' σ τ) : Alters R' x :=
  ⟨fun hx => hR (h.ok hx), fun hx => hR (h.error hx)⟩

theorem mapError {ε' : Type} (g : ε → ε') (h : Alters R x) : Alters R (Run.mapError g x) := by
  refine ⟨fun {σ a τ} hx => ?_, fun {σ e τ} hx => ?_⟩
  all_goals
    unfold Run.mapError at hx
    split at hx
  · rename_i ho; cases hx; exact h.ok ho
  · cases hx
  · cases hx
  · cases hx
  · rename_i ho; cases hx; exact h.error ho
  · cases hx

theorem pure (refl : ∀ σ, R σ σ) (a : α) : Alters R (Pure.pure a : Run Store ε α) := by
  refine ⟨fun h => ?_, fun h => ?_⟩ <;> cases h
  exact refl _

theorem read (refl : ∀ σ, R σ σ) (g : Store → α) : Alters R (Run.read g : Run Store ε α) := by
  refine ⟨fun h => ?_, fun h => ?_⟩ <;> cases h
  exact refl _

theorem fail (refl : ∀ σ, R σ σ) (e : ε) : Alters R (Run.fail e : Run Store ε α) := by
  refine ⟨fun h => ?_, fun h => ?_⟩ <;> cases h
  exact refl _

theorem exhausted : Alters R (Run.exhausted : Run Store ε α) :=
  ⟨fun {_ _ _} h => (by cases h), fun {_ _ _} h => (by cases h)⟩

theorem bind (trans : ∀ {σ τ ρ}, R σ τ → R τ ρ → R σ ρ) (hx : Alters R x)
    (hf : ∀ a, Alters R (f a)) : Alters R (x >>= f) := by
  refine ⟨fun h => ?_, fun h => ?_⟩
  · obtain ⟨a, τ, hxτ, hfa⟩ := Run.bind_eq_ok_iff.1 h
    exact trans (hx.ok hxτ) ((hf a).ok hfa)
  · rcases Run.bind_eq_error_iff.1 h with hxe | ⟨a, τ, hxτ, hfa⟩
    · exact hx.error hxe
    · exact trans (hx.ok hxτ) ((hf a).error hfa)

end Alters

/-! ## Natives -/

/-- All scopes are as they were. -/
def Store.SameScopes (σ τ : Store) : Prop := τ.scopes = σ.scopes

/-- The native leaves all scopes as they are. -/
def Native.SparesScopes (native : Native) : Prop := ∀ args, Alters Store.SameScopes (native args)

/-- All natives of the registry leave the scopes as they are. -/
def Registry.SparesScopes (reg : Registry) : Prop :=
  ∀ x native, reg.find? x = some native → native.SparesScopes

/-- What does not look at scopes leaves them as they are. -/
theorem Scopeless.spares {ε α : Type} {x : Run Store ε α} (h : Scopeless x) :
    Alters Store.SameScopes x :=
  ⟨h.ok, h.error⟩

/-- The standard natives leave the scopes alone. -/
theorem Registry.sparesScopes_standard : Registry.standard.SparesScopes :=
  Registry.scopeless_standard.mono fun _ h args => (h args).spares

/-! ## Evaluation -/

namespace Eval

open Store

/-- However `x` ends, of the scopes that were there only those that `may` has gain names. -/
abbrev GainsAt {ε α : Type} (may : ScopeId → Prop) (x : Run Store ε α) : Prop :=
  Alters (Gains may) x

section

variable {ε α β : Type} {may : ScopeId → Prop} {x : Run Store ε α} {f : α → Run Store ε β}
  {reg : Registry} {env s : ScopeId}

theorem gains_pure (a : α) : GainsAt may (Pure.pure a : Run Store ε α) := .pure Gains.refl a

theorem gains_fail (e : ε) : GainsAt may (Run.fail e : Run Store ε α) := .fail Gains.refl e

theorem gains_read (g : Store → α) : GainsAt may (Run.read g : Run Store ε α) := .read Gains.refl g

theorem gains_seq (hx : GainsAt may x) (hf : ∀ a, GainsAt may (f a)) : GainsAt may (x >>= f) :=
  hx.bind Gains.trans hf

/-- What spares the scopes gives none a name. -/
theorem gains_of_spares (h : Alters SameScopes x) : GainsAt may x := h.mono gains_of_eq

theorem gains_of_scopeless (h : Scopeless x) : GainsAt may x := gains_of_spares h.spares

theorem gains_weaken (h : GainsAt (fun _ => False) x) : GainsAt may x := h.mono Gains.weaken

/-- Code that is run in a scope of its own gives no scope a name that was there before. -/
theorem gains_inside {outer : Option ScopeId} {f : ScopeId → Run Store ε β}
    (hf : ∀ s, GainsAt (· = s) (f s)) :
    GainsAt (fun _ => False) (openScope outer >>= f) := by
  have hinside : ∀ {σ τ : Store},
      Gains (· = σ.scopes.size) { σ with scopes := σ.scopes.push ⟨.empty, outer⟩ } τ →
        Gains (fun _ => False) σ τ := by
    intro σ τ h
    have hpush : Gains (fun _ => False) σ { σ with scopes := σ.scopes.push ⟨.empty, outer⟩ } :=
      gains_pushScope outer
    have hlt : ∀ s < σ.scopes.size, s < (σ.scopes.push ⟨.empty, outer⟩).size := fun s hs => by
      rw [Array.size_push]
      exact Nat.lt_succ_of_lt hs
    exact {
      size := Nat.le_trans hpush.size h.size
      keeps := fun s hs => (hpush.keeps s hs).trans (h.keeps s (hlt s hs))
      same := fun s hs _ =>
        (hpush.same s hs id).trans (h.same s (hlt s hs) (Nat.ne_of_lt hs)) }
  refine ⟨fun {σ b τ} h => ?_, fun {σ e τ} h => ?_⟩
  · exact hinside ((hf _).ok h)
  · exact hinside ((hf _).error h)

/-! ### Names -/

theorem gains_raising {y : Action α} (h : GainsAt may y) : GainsAt may (raising y) :=
  h.mapError _

theorem gains_name (y : String) : GainsAt may (name reg env y) := by
  refine gains_seq (gains_read _) fun bound => ?_
  split
  · exact gains_pure _
  · split
    · exact gains_pure _
    · exact gains_fail _

theorem gains_define (y : String) (v : Value) : GainsAt (· = s) (define s y v) := by
  refine ⟨fun {σ _ τ} h => ?_, fun {σ _ τ} h => ?_⟩ <;> unfold define at h <;> split at h
  · cases h
  · rename_i hb
    cases h
    exact gains_bind (by rw [hb]; rfl)
  · cases h
    exact Gains.refl _
  · cases h

theorem gains_defineConstant (y : String) (v : Value) :
    GainsAt (· = s) (defineConstant s y v) := by
  refine ⟨fun {σ _ τ} h => ?_, fun {σ _ τ} h => ?_⟩ <;> unfold defineConstant at h <;> split at h
  · cases h
  · rename_i hb
    cases h
    exact gains_bind (by simpa using hb)
  · cases h
    exact Gains.refl _
  · cases h

/-- An assignment writes where the name is bound already. -/
theorem gains_reassign (y : String) (v : Value) :
    GainsAt (fun _ => False) (reassign s y v) := by
  refine ⟨fun {σ _ τ} h => ?_, fun {σ _ τ} h => ?_⟩ <;> unfold reassign at h <;> split at h
  · cases h
  · rename_i o ho
    split at h
    · cases h
    · rename_i hb
      cases h
      exact gains_rebind (isSome_of_owner? ho) (by simpa using hb)
  · cases h
    exact Gains.refl _
  · split at h
    · cases h
      exact Gains.refl _
    · cases h

theorem gains_bindAll (bs : List (Ident × Value)) : GainsAt (· = s) (bindAll s bs) := by
  induction bs with
  | nil => exact gains_pure ()
  | cons b bs ih => exact gains_seq (gains_raising (gains_define ..)) fun _ => ih

/-! ### Lists -/

theorem gains_sequence {run : Stmt → Eval Value} (hrun : ∀ st, GainsAt may (run st))
    (ss : List Stmt) : GainsAt may (sequence run ss) := by
  have hfrom : ∀ v, GainsAt may (ss.foldlM (fun _ st => run st) v) := by
    induction ss with
    | nil => exact gains_pure
    | cons st ss ih => exact fun _ => gains_seq (hrun st) ih
  exact hfrom .null

theorem gains_mapM {run : Expr → Eval Value} (hrun : ∀ e, GainsAt may (run e))
    (es : List Expr) : GainsAt may (es.mapM run) := by
  induction es with
  | nil => exact gains_pure []
  | cons e es ih =>
    rw [List.mapM_cons]
    exact gains_seq (hrun e) fun v => gains_seq ih fun vs => gains_pure _

theorem gains_pairs {run : Expr → Eval Value} (hrun : ∀ e, GainsAt may (run e))
    (kvs : List (Expr × Expr)) (entries : OrderedMap HashKey Value) :
    GainsAt may (kvs.foldlM (pair run) entries) := by
  have hpair : ∀ m kv, GainsAt may (pair run m kv) := fun m kv =>
    gains_seq (hrun kv.1) fun k => gains_seq (gains_of_scopeless (scopeless_ofExcept _)) fun key =>
      gains_seq (hrun kv.2) fun v => gains_pure _
  induction kvs generalizing entries with
  | nil => exact gains_pure entries
  | cons kv kvs ih => exact gains_seq (hpair entries kv) ih

/-! ### Calls and loops -/

theorem gains_endCall {y : Eval Value} (h : GainsAt may y) : GainsAt may (endCall y) := by
  refine ⟨fun {σ v τ} hx => ?_, fun {σ sig τ} hx => ?_⟩ <;> unfold endCall at hx <;> split at hx
  · rename_i hy
    cases hx
    exact h.error hy
  · exact h.ok hx
  · cases hx
  · exact h.error hx

/-- A call gives no scope a name that was there before it. -/
theorem gains_apply (hreg : reg.SparesScopes) {run : ScopeId → Stmt → Eval Value}
    (hrun : ∀ s st, GainsAt (· = s) (run s st)) (f : Expr) (callee : Value) (args : List Value) :
    GainsAt (fun _ => False) (apply reg run f callee args) := by
  cases callee with
  | function c =>
    show GainsAt _ (if args.length = c.params.length then do
        let s ← openScope (some c.scope)
        bindAll s (c.params.zip args)
        endCall (sequence (run s) c.body.stmts)
      else raise (.wrongArgumentCount f.render (toString c.params.length) args.length) : Eval Value)
    split
    · exact gains_inside fun s => gains_seq (gains_bindAll _) fun _ =>
        gains_endCall (gains_sequence (hrun s) _)
    · exact gains_fail _
  | native y =>
    rw [apply]
    cases hy : reg.find? y with
    | none => exact gains_fail _
    | some native =>
      exact gains_seq (gains_raising (gains_of_spares (hreg y native hy args))) fun v =>
        gains_of_scopeless (scopeless_ofNative v)
  | _ => exact gains_fail _

/-- Nor does a loop. -/
theorem gains_passes {run : ScopeId → Stmt → Eval Value}
    (hrun : ∀ s st, GainsAt (· = s) (run s st)) (index value : Ident) (body : Block)
    (es : List (Value × Value)) :
    GainsAt (fun _ => False) (es.forM (pass run env index value body)) := by
  induction es with
  | nil => exact gains_pure PUnit.unit
  | cons e es ih =>
    refine gains_seq (gains_inside fun s => ?_) fun _ => ih
    exact gains_seq (gains_bindAll _) fun _ =>
      gains_seq (gains_sequence (hrun s) _) fun _ => gains_pure _

theorem gains_loop {run : ScopeId → Stmt → Eval Value}
    (hrun : ∀ s st, GainsAt (· = s) (run s st)) (index value : Ident) (target : String)
    (body : Block) (make : Nat → Value) :
    GainsAt (fun _ => False) (do
      let v ← name reg env target
      let es ← entries v
      es.forM (pass run env index value body)
      let stamp ← newStamp
      Pure.pure (make stamp)) :=
  gains_seq (gains_name _) fun v => gains_seq (gains_of_scopeless (scopeless_entries v)) fun es =>
    gains_seq (gains_passes hrun index value body es) fun _ =>
      gains_seq (gains_of_scopeless scopeless_newStamp) fun _ => gains_pure _

end

/-! ### Statements and expressions -/

variable {reg : Registry} {n : Nat} {env : ScopeId}

theorem gains_exec_succ (hexec : ∀ env st, GainsAt (· = env) (exec reg n env st))
    (heval : ∀ env e, GainsAt (· = env) (eval reg n env e)) (st : Stmt) :
    GainsAt (· = env) (exec reg (n + 1) env st) := by
  cases st with
  | declare t constant x e =>
    refine gains_seq (heval env e) fun v => gains_seq (gains_raising ?_) fun _ => gains_pure _
    cases constant with
    | true => exact gains_defineConstant ..
    | false => exact gains_define ..
  | ret t e => exact gains_seq (heval env e) fun v => gains_fail _
  | expr t e => exact heval env e
  | block b => exact gains_sequence (hexec env) _

theorem gains_eval_succ (hreg : reg.SparesScopes)
    (hexec : ∀ env st, GainsAt (· = env) (exec reg n env st))
    (heval : ∀ env e, GainsAt (· = env) (eval reg n env e)) (e : Expr) :
    GainsAt (· = env) (eval reg (n + 1) env e) := by
  cases e with
  | ident x => exact gains_name _
  | int t k => exact gains_pure _
  | str t s => exact gains_pure _
  | bool t b => exact gains_pure _
  | null t => exact gains_pure _
  | unary t op e =>
    exact gains_seq (heval env e) fun v => gains_of_scopeless (scopeless_ofExcept _)
  | binary t op l r =>
    exact gains_seq (heval env l) fun v => gains_seq (heval env r) fun w =>
      gains_of_scopeless (scopeless_ofExcept _)
  | assign t x e =>
    exact gains_seq (heval env e) fun v =>
      gains_seq (gains_raising (gains_weaken (gains_reassign ..))) fun _ => gains_pure _
  | ifElse t test yes no =>
    refine gains_seq (heval env test) fun v => ?_
    split
    · exact gains_sequence (hexec env) _
    · split
      · exact gains_sequence (hexec env) _
      · exact gains_pure _
  | fn t params body =>
    exact gains_seq (gains_of_scopeless scopeless_newStamp) fun _ => gains_pure _
  | call t f args =>
    exact gains_seq (heval env f) fun callee => gains_seq (gains_mapM (heval env) args) fun vs =>
      gains_weaken (gains_apply hreg hexec f callee vs)
  | array t es =>
    exact gains_seq (gains_mapM (heval env) es) fun vs =>
      gains_seq (gains_of_scopeless (scopeless_newArray _)) fun _ => gains_pure _
  | hash t kvs =>
    exact gains_seq (gains_pairs (heval env) kvs _) fun m =>
      gains_seq (gains_of_scopeless (scopeless_newHash _)) fun _ => gains_pure _
  | index t e i =>
    exact gains_seq (heval env e) fun base => gains_seq (heval env i) fun v =>
      gains_of_scopeless (scopeless_index base v)
  | forIn t index value target body =>
    exact gains_weaken (gains_loop hexec index value target.name body _)

/-- Code gives names to the scope that it runs in and to no other. -/
theorem gains_eval (hreg : reg.SparesScopes) (n : Nat) :
    (∀ env st, GainsAt (· = env) (exec reg n env st)) ∧
      ∀ env e, GainsAt (· = env) (eval reg n env e) := by
  induction n with
  | zero => exact ⟨fun _ _ => .exhausted, fun _ _ => .exhausted⟩
  | succ n ih =>
    exact ⟨fun _ => gains_exec_succ ih.1 ih.2, fun _ => gains_eval_succ hreg ih.1 ih.2⟩

end Eval

namespace Machine

/-- **Only the current scope gains names.** -/
theorem only_current_scope_gains {reg : Registry} (hreg : reg.SparesScopes) (depth : Nat)
    (env : ScopeId) (σ τ : Store) (r : Except Signal Value) :
    (∀ code : Code, code.eval reg depth env σ = outcome r τ →
      (env < σ.scopes.size → σ.KeepsNames τ env) ∧
        ∀ s < σ.scopes.size, s ≠ env → σ.SameNames τ s) ∧
    (∀ (f : Expr) (callee : Value) (args : List Value),
      Eval.apply reg (Eval.exec reg depth) f callee args σ = outcome r τ →
        ∀ s < σ.scopes.size, σ.SameNames τ s) ∧
    ∀ (t : Token) (index value target : Ident) (body : Block),
      Eval.eval reg depth env (.forIn t index value target body) σ = outcome r τ →
        ∀ s < σ.scopes.size, σ.SameNames τ s := by
  have hends : ∀ {may : ScopeId → Prop} {x : Eval Value}, Eval.GainsAt may x →
      x σ = outcome r τ → σ.Gains may τ := by
    intro may x hx h
    cases r with
    | ok v => exact hx.ok h
    | error sig => exact hx.error h
  obtain ⟨hexec, heval⟩ := Eval.gains_eval hreg depth
  refine ⟨fun code h => ?_, fun f callee args h => ?_, fun t index value target body h => ?_⟩
  · have hcode : Eval.GainsAt (· = env) (code.eval reg depth env) := by
      cases code with
      | stmts ss => exact Eval.gains_sequence (hexec env) ss
      | expr e => exact heval env e
    have hgains := hends hcode h
    exact ⟨fun henv => hgains.keeps env henv, hgains.same⟩
  · exact fun s hs => (hends (Eval.gains_apply hreg hexec f callee args) h).same s hs id
  · cases depth with
    | zero => cases r <;> cases h
    | succ n =>
      have hloop : Eval.GainsAt (fun _ => False)
          (Eval.eval reg (n + 1) env (.forIn t index value target body)) :=
        Eval.gains_loop (Eval.gains_eval hreg n).1 index value target.name body _
      exact fun s hs => (hends hloop h).same s hs id

/-- `let y = fn(a) { let b = 3 }(2)` in a scope inside the one that binds `x`: the scope it runs in
gains `y`, the scope of the call has `a` and `b`, and the outer scope gains nothing. -/
theorem call_gains_only_inside :
    ∃ σ τ : Store, σ.scopes.size = 2 ∧ σ.SameNames τ 0 ∧ σ.KeepsNames τ 1 ∧
      (τ.binding? 0 "x").isSome ∧ (τ.binding? 1 "y").isSome ∧ (τ.binding? 1 "b").isNone ∧
      (τ.binding? 2 "a").isSome ∧ (τ.binding? 2 "b").isSome := by
  let t : Token := ⟨.ident, "", ⟨1, 1⟩⟩
  let body : Block := .mk t [.declare t false ⟨t, "b"⟩ (.int t 3)]
  let code : Code := .stmts
    [.declare t false ⟨t, "y"⟩ (.call t (.fn t [⟨t, "a"⟩] body) [.int t 2])]
  let x : Scope := ⟨⟨[("x", ⟨.integer 1, false⟩)]⟩, none⟩
  let σ : Store := { Store.empty (.console #[]) with scopes := #[x, ⟨.empty, some 0⟩] }
  let τ : Store := { σ with
    scopes := #[x, ⟨⟨[("y", ⟨.null, false⟩)]⟩, some 0⟩,
      ⟨⟨[("a", ⟨.integer 2, false⟩), ("b", ⟨.integer 3, false⟩)]⟩, some 1⟩]
    stamps := 1 }
  have heval : code.eval .standard 8 1 σ = outcome (.ok .null) τ := rfl
  obtain ⟨hown, hothers⟩ := (only_current_scope_gains Registry.sparesScopes_standard 8 1 σ τ
    (.ok .null)).1 code heval
  exact ⟨σ, τ, rfl, hothers 0 (by decide) (by decide), hown (by decide), rfl, rfl, rfl, rfl, rfl⟩

end Machine

end Scriptlet
