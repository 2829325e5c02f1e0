import Scriptlet.Proofs.Contents
import Scriptlet.Proofs.Termination.Heights
import Scriptlet.Session

/-!
# Programs without functions come to an end

**Theorem (`functionless_program_finishes`).** Run a program in which there is no function literal,
with the standard natives, in a scope that reaches no function. It comes to an end, and it never
nests deeper than the height of its syntax tree, whatever the store holds and however many passes
its loops make. Afterwards the scope still reaches no function, so another such program may follow.

The proof is an induction on the depth, with the invariant `Completes`: the run is not cut off, and
nothing in use is a function or reaches one (`Machine.contents`). Only a call of a function leaves
the syntax tree, and there is none; a loop makes one pass for each entry that was there when it
began, so its passes are an induction over a list (`completes_passes`); and no standard native is
cut off (`ends_standard`).
-/

namespace Scriptlet

open Machine Store

/-! ## What is no function -/

/-- The value is not a function, nor the return of one. -/
def Value.Functionless : Value → Prop
  | .function _ => False
  | .ret v => v.Functionless
  | _ => True

namespace Machine

/-- Nothing in use is a function or reaches one. -/
def functionless : Invariant := contents Value.Functionless

theorem functionless_stable : functionless.Stable :=
  contents_stable {
    integer := fun _ => trivial
    string := fun _ => trivial
    bool := fun _ => trivial
    null := trivial
    native := fun _ => trivial
    array := fun _ => trivial
    hash := fun _ => trivial
    returned := id }

end Machine

variable {env s : ScopeId} {σ τ : Store} {α β γ : Type}

/-- From `σ`, the evaluation comes to an end, and gives what has `Q`. -/
structure Completes (Q : Store → α → Prop) (σ : Store) (y : Eval α) : Prop where
  ends : y σ ≠ .outOfFuel
  safe : functionless.Safe functionless.Carried Q σ (y σ)

/-- In every scope that reaches no function, code that has `fits` comes to an end. -/
def Completing (fits : γ → Prop) (run : ScopeId → γ → Eval Value) : Prop :=
  ∀ σ env c, functionless.scope σ env → fits c → Completes functionless.value σ (run env c)

theorem raising_ne_outOfFuel {y : Action α} (h : y σ ≠ .outOfFuel) :
    Eval.raising y σ ≠ .outOfFuel := by
  rw [Eval.raising, Run.mapError]
  cases hy : y σ with
  | outOfFuel => exact absurd hy h
  | ok a τ => exact nofun
  | error e τ => exact nofun

namespace Completes

variable {Q : Store → α → Prop} {R : Store → β → Prop} {y : Eval α}

theorem pure {a : α} (ha : Q σ a) : Completes Q σ (Pure.pure a) where
  ends := nofun
  safe := functionless_stable.safe_pure trivial ha

theorem raise (e : RuntimeError) : Completes Q σ (Eval.raise e) where
  ends := nofun
  safe := functionless_stable.safe_raise trivial

theorem ofExcept {r : Except RuntimeError α} (hr : ∀ a, r = .ok a → Q σ a) :
    Completes Q σ (Eval.ofExcept r) := by
  cases r with
  | ok a => exact .pure (hr a rfl)
  | error e => exact .raise e

theorem bind {f : α → Eval β} (hy : Completes Q σ y)
    (hf : ∀ a τ, functionless.change σ τ → Q τ a → Completes R τ (f a)) :
    Completes R σ (y >>= f) where
  ends := by
    rw [ne_eq, Run.bind_eq_outOfFuel_iff, not_or]
    refine ⟨hy.ends, ?_⟩
    rintro ⟨a, τ, hyσ, hfτ⟩
    have hsafe := hy.safe
    rw [hyσ] at hsafe
    exact (hf a τ hsafe.1.2 hsafe.2).ends hfτ
  safe := functionless_stable.safe_bind hy.safe fun a τ hτ ha => (hf a τ hτ.2 ha).safe

theorem raising {y : Action α} (hends : y σ ≠ .outOfFuel)
    (hsafe : functionless.Safe (fun _ _ => True) Q σ (y σ)) :
    Completes Q σ (Eval.raising y) where
  ends := raising_ne_outOfFuel hends
  safe := Invariant.safe_raising hsafe

end Completes

/-! ## Natives -/

/-- The native is never cut off. -/
def Native.Ends (native : Native) : Prop := ∀ args σ, native args σ ≠ .outOfFuel

namespace Native

theorem ends_ofUnary {name : String} {f : Value → Action Value}
    (h : ∀ v σ, f v σ ≠ .outOfFuel) : (ofUnary name f).Ends := by
  intro args σ
  unfold ofUnary
  split
  · exact h _ σ
  · exact nofun

theorem ends_ofBinary {name : String} {f : Value → Value → Action Value}
    (h : ∀ v w σ, f v w σ ≠ .outOfFuel) : (ofBinary name f).Ends := by
  intro args σ
  unfold ofBinary
  split
  · exact h _ _ σ
  · exact nofun

theorem ends_append : append.Ends := by
  intro args σ
  unfold append
  split
  · exact nofun
  · rename_i id k v
    rw [ne_eq, Run.bind_eq_outOfFuel_iff, not_or, Store.setEntry]
    refine ⟨?_, fun ⟨_, _, _, h⟩ => nomatch h⟩
    cases k.key with
    | ok key => exact nofun
    | error e => exact nofun
  all_goals exact nofun

theorem ends_remove : remove.Ends := by
  refine ends_ofBinary fun v w σ => ?_
  split
  · rename_i id n
    rw [ne_eq, Run.bind_eq_outOfFuel_iff, not_or, Store.takeItem]
    refine ⟨?_, fun ⟨_, _, _, h⟩ => nomatch h⟩
    cases n.place? with
    | none => exact nofun
    | some i => exact nofun
  · exact nofun
  · rename_i id
    rw [ne_eq, Run.bind_eq_outOfFuel_iff, not_or, Store.takeEntry]
    refine ⟨?_, fun ⟨_, _, _, h⟩ => nomatch h⟩
    cases w.key with
    | ok key => exact nofun
    | error e => exact nofun
  · exact nofun

theorem ends_int : int.Ends := by
  refine ends_ofUnary fun v σ => ?_
  cases v with
  | string s =>
    dsimp only
    cases leadingInteger? s with
    | some n => exact nofun
    | none => exact nofun
  | _ => exact nofun

theorem ends_print : print.Ends := by
  intro args σ
  rw [print, Run.bind_apply, Run.read_apply, ne_eq, Run.bind_eq_outOfFuel_iff, not_or, Store.print]
  refine ⟨?_, by simp⟩
  cases σ.output.write _ with
  | mk refusal output => cases refusal <;> simp

theorem ends_standard : Registry.standard.Every Ends := by
  have hlen : len.Ends := ends_ofUnary fun v σ => by cases v <;> exact nofun
  have htypeOf : typeOf.Ends := ends_ofUnary fun v σ => nofun
  exact Registry.every_standard hlen ends_append ends_remove htypeOf ends_print
    (fun _ _ => nofun) ends_int

end Native

namespace Eval

variable {n : Nat}

/-! ## Parts of an evaluation -/

section

variable {reg : Registry}

theorem completes_name {x : String} (hs : functionless.scope σ env) :
    Completes functionless.value σ (name reg env x) where
  ends h := by
    rw [name, Run.bind_apply, Run.read_apply] at h
    dsimp only at h
    cases hb : σ.lookup? env x with
    | some b =>
      rw [hb] at h
      cases h
    | none =>
      rw [hb] at h
      by_cases hx : reg.contains x
      · simp only [if_pos hx] at h
        cases h
      · simp only [if_neg hx] at h
        cases h
  safe := functionless_stable.safe_name trivial hs

theorem completes_define {x : String} {v : Value} (hs : functionless.scope σ s)
    (hv : functionless.value σ v) :
    Completes (fun _ _ => True) σ (raising (Store.define s x v)) := by
  refine .raising ?_ (functionless_stable.safe_define trivial hs hv)
  unfold Store.define
  cases σ.binding? s x with
  | some b => exact nofun
  | none => exact nofun

theorem completes_declare {constant : Bool} {x : String} {v : Value}
    (hs : functionless.scope σ s) (hv : functionless.value σ v) :
    Completes (fun _ _ => True) σ
      (raising (if constant then Store.defineConstant s x v else Store.define s x v)) := by
  cases constant with
  | true =>
    refine .raising ?_ (functionless_stable.safe_defineConstant trivial hs hv)
    show Store.defineConstant s x v σ ≠ _
    unfold Store.defineConstant
    split <;> exact nofun
  | false => exact completes_define hs hv

theorem completes_reassign {x : String} {v : Value} (hs : functionless.scope σ s)
    (hv : functionless.value σ v) :
    Completes (fun _ _ => True) σ (raising (Store.reassign s x v)) := by
  refine .raising ?_ (functionless_stable.safe_reassign trivial hs hv)
  unfold Store.reassign
  cases σ.owner? s x with
  | none => exact nofun
  | some o =>
    dsimp only
    split <;> exact nofun

theorem completes_openScope (hs : functionless.scope σ s) :
    Completes functionless.scope σ (Store.openScope (some s)) where
  ends := nofun
  safe := functionless_stable.safe_openScope trivial hs

theorem completes_bindAll {bs : List (Ident × Value)} (hs : functionless.scope σ s)
    (hbs : ∀ b ∈ bs, functionless.value σ b.2) :
    Completes (fun _ _ => True) σ (bindAll s bs) := by
  induction bs generalizing σ with
  | nil => exact .pure trivial
  | cons b bs ih =>
    obtain ⟨hb, hbs⟩ := List.forall_mem_cons.1 hbs
    refine (completes_define hs hb).bind fun _ τ hτ _ => ih (hτ _ hs) fun c hc => ?_
    exact functionless_stable.value_mono hτ (hbs c hc)

/-! ### Lists -/

theorem completes_sequence {fits : Stmt → Prop} {run : ScopeId → Stmt → Eval Value}
    (hrun : Completing fits run) {ss : List Stmt} (hs : functionless.scope σ env)
    (hss : ∀ st ∈ ss, fits st) :
    Completes functionless.value σ (sequence (run env) ss) := by
  have hfrom : ∀ v, functionless.value σ v →
      Completes functionless.value σ (ss.foldlM (fun _ st => run env st) v) := by
    induction ss generalizing σ with
    | nil => exact fun v hv => .pure hv
    | cons st ss ih =>
      intro v _
      obtain ⟨hst, hss⟩ := List.forall_mem_cons.1 hss
      exact (hrun σ env st hs hst).bind fun w τ hτ hw => ih (hτ _ hs) hss w hw
  exact hfrom .null functionless_stable.null

theorem completes_mapM {fits : Expr → Prop} {run : ScopeId → Expr → Eval Value}
    (hrun : Completing fits run) {es : List Expr} (hs : functionless.scope σ env)
    (hes : ∀ e ∈ es, fits e) :
    Completes (fun τ vs => ∀ v ∈ vs, functionless.value τ v) σ (es.mapM (run env)) := by
  induction es generalizing σ with
  | nil => exact .pure (List.forall_mem_nil _)
  | cons e es ih =>
    obtain ⟨he, hes⟩ := List.forall_mem_cons.1 hes
    rw [List.mapM_cons]
    refine (hrun σ env e hs he).bind fun v τ hτ hv => ?_
    refine (ih (hτ _ hs) hes).bind fun vs ρ hρ hvs => ?_
    exact .pure (List.forall_mem_cons.2 ⟨functionless_stable.value_mono hρ hv, hvs⟩)

theorem completes_pair {fits : Expr → Prop} {run : ScopeId → Expr → Eval Value}
    (hrun : Completing fits run) {m : OrderedMap HashKey Value} {kv : Expr × Expr}
    (hs : functionless.scope σ env) (hm : ∀ v ∈ m.values, functionless.value σ v)
    (hkv : fits kv.1 ∧ fits kv.2) :
    Completes (fun τ m => ∀ v ∈ m.values, functionless.value τ v) σ (pair (run env) m kv) := by
  refine (hrun σ env kv.1 hs hkv.1).bind fun k τ hτ _ => ?_
  refine (Completes.ofExcept (Q := fun _ _ => True) fun _ _ => trivial).bind fun key ρ hρ _ => ?_
  refine (hrun ρ env kv.2 (hρ _ (hτ _ hs)) hkv.2).bind fun v π hπ hv => .pure fun w hw => ?_
  rcases OrderedMap.mem_values_insert hw with rfl | hw
  · exact hv
  · have hchange : functionless.change σ π :=
      functionless_stable.trans hτ (functionless_stable.trans hρ hπ)
    exact functionless_stable.value_mono hchange (hm w hw)

theorem completes_pairs {fits : Expr → Prop} {run : ScopeId → Expr → Eval Value}
    (hrun : Completing fits run) {kvs : List (Expr × Expr)} {m : OrderedMap HashKey Value}
    (hs : functionless.scope σ env) (hm : ∀ v ∈ m.values, functionless.value σ v)
    (hkvs : ∀ kv ∈ kvs, fits kv.1 ∧ fits kv.2) :
    Completes (fun τ m => ∀ v ∈ m.values, functionless.value τ v) σ
      (kvs.foldlM (pair (run env)) m) := by
  induction kvs generalizing σ m with
  | nil => exact .pure hm
  | cons kv kvs ih =>
    obtain ⟨hkv, hkvs⟩ := List.forall_mem_cons.1 hkvs
    exact (completes_pair hrun hs hm hkv).bind fun m' τ hτ hm' => ih (hτ _ hs) hm' hkvs

theorem completes_entries {v : Value} (hv : functionless.value σ v) :
    Completes (fun τ es => ∀ e ∈ es, functionless.value τ e.1 ∧ functionless.value τ e.2) σ
      (entries v) where
  ends := by cases v <;> exact nofun
  safe := functionless_stable.safe_entries trivial hv

theorem completes_newStamp : Completes (fun _ _ => True) σ (Store.newStamp : Eval Nat) where
  ends := nofun
  safe := functionless_stable.safe_newStamp trivial

/-! ### Calls and loops -/

/-- What can be called where there is no function is a native. -/
theorem completes_apply (hanswers : reg.Every functionless.Answers) (hends : reg.Every Native.Ends)
    (run : ScopeId → Stmt → Eval Value) (f : Expr) {callee : Value} {args : List Value}
    (hcallee : functionless.value σ callee) (hargs : ∀ v ∈ args, functionless.value σ v) :
    Completes functionless.value σ (apply reg run f callee args) := by
  cases callee with
  | function c => exact hcallee.1.elim
  | native x =>
    rw [apply]
    cases hx : reg.find? x with
    | none => exact .raise _
    | some native =>
      refine ⟨?_, hanswers x native hx args σ trivial hargs⟩
      rw [ne_eq, Run.bind_eq_outOfFuel_iff, not_or]
      refine ⟨raising_ne_outOfFuel (hends x native hx args σ), ?_⟩
      rintro ⟨v, τ, -, h⟩
      cases v <;> cases h
  | _ => exact .raise _

theorem completes_pass {fits : Stmt → Prop} {run : ScopeId → Stmt → Eval Value}
    (hrun : Completing fits run) {index value : Ident} {body : Block} {entry : Value × Value}
    (hs : functionless.scope σ env) (hbody : ∀ st ∈ body.stmts, fits st)
    (hentry : functionless.value σ entry.1 ∧ functionless.value σ entry.2) :
    Completes (fun _ _ => True) σ (pass run env index value body entry) := by
  refine (completes_openScope hs).bind fun s τ hτ hs => ?_
  have hbs : ∀ b ∈ [(index, entry.1), (value, entry.2)], functionless.value τ b.2 :=
    List.forall_mem_cons.2 ⟨functionless_stable.value_mono hτ hentry.1,
      List.forall_mem_singleton.2 (functionless_stable.value_mono hτ hentry.2)⟩
  refine (completes_bindAll hs hbs).bind fun _ ρ hρ _ => ?_
  exact (completes_sequence hrun (hρ _ hs) hbody).bind fun _ _ _ _ => .pure trivial

/-- There are as many passes as entries, whatever a pass does to the collection they are from. -/
theorem completes_passes {fits : Stmt → Prop} {run : ScopeId → Stmt → Eval Value}
    (hrun : Completing fits run) {index value : Ident} {body : Block} {es : List (Value × Value)}
    (hs : functionless.scope σ env) (hbody : ∀ st ∈ body.stmts, fits st)
    (hes : ∀ e ∈ es, functionless.value σ e.1 ∧ functionless.value σ e.2) :
    Completes (fun _ _ => True) σ (es.forM (pass run env index value body)) := by
  induction es generalizing σ with
  | nil => exact .pure trivial
  | cons e es ih =>
    obtain ⟨he, hes⟩ := List.forall_mem_cons.1 hes
    refine (completes_pass hrun hs hbody he).bind fun _ τ hτ _ => ih (hτ _ hs) fun e he => ?_
    exact (hes e he).imp (functionless_stable.value_mono hτ) (functionless_stable.value_mono hτ)

end

/-! ## Statements and expressions -/

variable {reg : Registry}

theorem completing_exec_succ (hexec : Completing (Stmt.Fits n) (exec reg n))
    (heval : Completing (Expr.Fits n) (eval reg n)) :
    Completing (Stmt.Fits (n + 1)) (exec reg (n + 1)) := by
  intro σ env st hs hst
  cases st with
  | declare t constant x e =>
    refine (heval σ env e hs hst.declare).bind fun v τ hτ hv => ?_
    exact (completes_declare (hτ _ hs) hv).bind fun _ _ _ _ => .pure functionless_stable.null
  | ret t e =>
    refine (heval σ env e hs hst.ret).bind fun v τ hτ hv => ⟨nofun, ?_⟩
    exact functionless_stable.safe_fail trivial ⟨nofun, List.forall_mem_singleton.2 hv⟩
  | expr t e => exact heval σ env e hs hst.expr
  | block body => exact completes_sequence hexec hs hst.block.stmts

theorem completing_eval_succ (hanswers : reg.Every functionless.Answers)
    (hends : reg.Every Native.Ends) (hexec : Completing (Stmt.Fits n) (exec reg n))
    (heval : Completing (Expr.Fits n) (eval reg n)) :
    Completing (Expr.Fits (n + 1)) (eval reg (n + 1)) := by
  intro σ env e hs he
  have hI := functionless_stable
  cases e with
  | ident x => exact completes_name hs
  | int t k => exact .pure (hI.integer k)
  | str t s => exact .pure (hI.string s)
  | bool t b => exact .pure (hI.bool b)
  | null t => exact .pure hI.null
  | unary t op e =>
    exact (heval σ env e hs he.unary).bind fun v τ _ _ => .ofExcept fun w hw => hI.unary hw
  | binary t op l r =>
    refine (heval σ env l hs he.binary.1).bind fun v τ hτ _ => ?_
    exact (heval τ env r (hτ _ hs) he.binary.2).bind fun w ρ _ _ => .ofExcept fun u hu =>
      hI.binary hu
  | assign t x e =>
    refine (heval σ env e hs he.assign).bind fun v τ hτ hv => ?_
    exact (completes_reassign (hτ _ hs) hv).bind fun _ ρ hρ _ => .pure (hI.value_mono hρ hv)
  | ifElse t test yes no =>
    obtain ⟨htest, hyes, hno⟩ := he.ifElse
    refine (heval σ env test hs htest).bind fun v τ hτ _ => ?_
    by_cases htrue : v.truthy
    · simp only [if_pos htrue]
      exact completes_sequence hexec (hτ _ hs) hyes.stmts
    · simp only [if_neg htrue]
      cases no with
      | none => exact .pure hI.null
      | some body => exact completes_sequence hexec (hτ _ hs) (hno body rfl).stmts
  | fn t params body => exact absurd he Expr.Fits.not_fn
  | call t f args =>
    refine (heval σ env f hs he.call.1).bind fun callee τ hτ hcallee => ?_
    refine (completes_mapM heval (hτ _ hs) he.call.2).bind fun vs ρ hρ hvs => ?_
    exact completes_apply hanswers hends (exec reg n) f (hI.value_mono hρ hcallee) hvs
  | array t es =>
    refine (completes_mapM heval hs he.array).bind fun vs τ _ hvs => ?_
    have hvs : ∀ v ∈ vs.toArray, functionless.value τ v := fun v hv => hvs v (List.mem_toArray.1 hv)
    refine Completes.bind ⟨nofun, hI.safe_newArray trivial hvs⟩ fun id ρ _ hid => .pure hid
  | hash t kvs =>
    have hempty : ∀ v ∈ (OrderedMap.empty : OrderedMap HashKey Value).values,
        functionless.value σ v := nofun
    refine (completes_pairs heval hs hempty he.hash).bind fun m τ _ hm => ?_
    exact Completes.bind ⟨nofun, hI.safe_newHash trivial hm⟩ fun id ρ _ hid => .pure hid
  | index t e i =>
    refine (heval σ env e hs he.index.1).bind fun base τ hτ hbase => ?_
    refine (heval τ env i (hτ _ hs) he.index.2).bind fun v ρ hρ _ => ?_
    have hread : Completes (fun π π' => π' = π) ρ (Run.read id : Eval Store) :=
      ⟨nofun, hI.allows_refl trivial, rfl⟩
    refine hread.bind fun _ π hπ hπ' => .ofExcept fun w hw => ?_
    rw [hπ'] at hw
    exact hI.index trivial (hI.value_mono (hI.trans hρ hπ) hbase) hw
  | forIn t index value target body =>
    refine (completes_name hs).bind fun v τ hτ hv => ?_
    refine (completes_entries hv).bind fun es ρ hρ hes => ?_
    have hsρ : functionless.scope ρ env := hρ _ (hτ _ hs)
    refine (completes_passes hexec hsρ he.forIn.stmts hes).bind fun _ π hπ _ => ?_
    refine completes_newStamp.bind fun stamp κ hκ _ => .pure ⟨trivial, fun l hl => ?_⟩
    cases hl
    exact hκ _ (hπ _ hsρ)

/-- Trees of a height of at most `n` come to an end without nesting deeper than `n`. -/
theorem completing (hanswers : reg.Every functionless.Answers) (hends : reg.Every Native.Ends)
    (n : Nat) :
    Completing (Stmt.Fits n) (exec reg n) ∧ Completing (Expr.Fits n) (eval reg n) := by
  induction n with
  | zero =>
    refine ⟨fun _ _ st _ hst => ?_, fun _ _ e _ he => ?_⟩
    · cases st <;> exact absurd hst.height_le (Nat.not_succ_le_zero _)
    · cases e <;> exact absurd he.height_le (Nat.not_succ_le_zero _)
  | succ n ih =>
    exact ⟨completing_exec_succ ih.1 ih.2, completing_eval_succ hanswers hends ih.1 ih.2⟩

end Eval

open Eval

theorem Completes.exists_outcome {Q : Store → Value → Prop} {y : Eval Value}
    (h : Completes Q σ y) : ∃ r τ, y σ = outcome r τ ∧ functionless.change σ τ := by
  obtain ⟨hends, hsafe⟩ := h
  cases hy : y σ with
  | ok v τ =>
    rw [hy] at hsafe
    exact ⟨.ok v, τ, rfl, hsafe.1.2⟩
  | error sig τ =>
    rw [hy] at hsafe
    exact ⟨.error sig, τ, rfl, hsafe.1.2⟩
  | outOfFuel => exact absurd hy hends

/-- An evaluation comes to the same end at every depth at which it comes to one. -/
theorem Machine.Code.eval_unique {reg : Registry} {code : Code} {m n : Nat}
    {r r' : Except Signal Value} {τ' : Store} (h : code.eval reg m env σ = outcome r τ)
    (h' : code.eval reg n env σ = outcome r' τ') : r' = r ∧ τ' = τ := by
  have heq := (Code.reaches_of_eval (K := []) h).unique (step_final r τ) (Code.reaches_of_eval h')
    (step_final r' τ')
  cases r <;> cases r' <;> cases heq <;> exact ⟨rfl, rfl⟩

/-- **Programs without functions come to an end.** -/
theorem functionless_program_finishes {p : Program} (hp : p.Functionless)
    (hσ : σ.AllStored Value.Functionless (.scope env)) :
    ∃ v τ, (∀ depth, p.height ≤ depth → p.run .standard depth env σ = some (v, τ)) ∧
      τ.AllStored Value.Functionless (.scope env) ∧
      ∃ k, Reaches .standard (begin p env σ) ⟨k, [], τ⟩ ∧ step .standard ⟨k, [], τ⟩ = none := by
  have hends (depth : Nat) (hdepth : p.height ≤ depth) :
      ∃ r τ, (Code.stmts p.stmts).eval .standard depth env σ = outcome r τ ∧
        functionless.change σ τ := by
    have hexec : Completing (Stmt.Fits depth) (exec .standard depth) :=
      (completing functionless_stable.answers_standard Native.ends_standard depth).1
    exact (completes_sequence hexec hσ (fits_stmts hp.2 hdepth)).exists_outcome
  obtain ⟨r, τ, hr, hchange⟩ := hends p.height (Nat.le_refl _)
  have hsame (depth : Nat) (hdepth : p.height ≤ depth) :
      (Code.stmts p.stmts).eval .standard depth env σ = outcome r τ := by
    obtain ⟨r', τ', hr', -⟩ := hends depth hdepth
    obtain ⟨rfl, rfl⟩ := Code.eval_unique hr hr'
    exact hr'
  obtain ⟨v, hv⟩ : ∃ v, ∀ x : Eval Value, x σ = outcome r τ → x.answer σ = some (v, τ) := by
    match r with
    | .ok v | .error (.ret v) => exact ⟨v, fun x hx => by rw [answer, hx]; rfl⟩
    | .error (.raised e) => exact ⟨.error e, fun x hx => by rw [answer, hx]; rfl⟩
  exact ⟨v, τ, fun depth hdepth => hv _ (hsame depth hdepth), hchange _ hσ, final r,
    Code.reaches_of_eval hr, step_final r τ⟩

/-- The program `for i, v in xs { append(xs, xs) } print(xs)`, where `xs` is an array of two
elements: it grows in every pass and comes to contain itself. -/
theorem functionless_growing_loop_finishes :
    ∃ (p : Program) (σ : Store), σ.items 0 = #[.integer 1, .integer 2] ∧
      σ.binding? 0 "xs" = some ⟨.array 0, false⟩ ∧ p.height = 5 ∧ p.Functionless ∧
      σ.AllStored Value.Functionless (.scope 0) ∧
      ∃ v τ, ∀ depth, 5 ≤ depth → p.run .standard depth 0 σ = some (v, τ) := by
  let t : Token := ⟨.ident, "", ⟨1, 1⟩⟩
  let xs : Ident := ⟨t, "xs"⟩
  let grow : Expr := .call t (.ident ⟨t, "append"⟩) [.ident xs, .ident xs]
  let loop : Expr := .forIn t ⟨t, "i"⟩ ⟨t, "v"⟩ xs (.mk t [.expr t grow])
  let p : Program := ⟨[.expr t loop, .expr t (.call t (.ident ⟨t, "print"⟩) [.ident xs])]⟩
  let σ : Store := { Store.empty (.console #[]) with
    scopes := #[⟨⟨[("xs", ⟨.array 0, false⟩)]⟩, none⟩]
    arrays := #[#[.integer 1, .integer 2]] }
  have hp : p.Functionless := by
    simp [Program.Functionless, p, loop, grow, Program.Every, everyStmts, Stmt.Every, Expr.Every,
      Block.Every, everyExprs, Expr.isFunction]
  have harray : σ.AllStored Value.Functionless (.array 0) := by
    have hitem (v : Value) (hv : v ∈ σ.items 0) : v.Functionless ∧ v.location? = none := by
      have hv : v ∈ #[.integer 1, .integer 2] := hv
      rcases (by simpa using hv : v = .integer 1 ∨ v = .integer 2) with rfl | rfl
      · exact ⟨trivial, rfl⟩
      · exact ⟨trivial, rfl⟩
    refine AllStored.intro (fun m hm => ?_) fun v hv => ?_
    · cases hm with
      | item hv hm =>
        rw [(hitem _ hv).2] at hm
        cases hm
    · cases hv with
      | item hv => exact (hitem v hv).1
  have hscope : σ.AllStored Value.Functionless (.scope 0) := by
    have hbinding (x : String) (b : Binding) (hb : σ.binding? 0 x = some b) :
        b.value = .array 0 := by
      have hb : (if "xs" = x then some ⟨.array 0, false⟩ else none) = some b := hb
      split at hb
      · cases hb
        rfl
      · cases hb
    refine AllStored.intro (fun m hm => ?_) fun v hv => ?_
    · cases hm with
      | outer ho => cases ho
      | binding hb hm =>
        rw [hbinding _ _ hb] at hm
        cases hm
        exact harray
    · cases hv with
      | binding hb =>
        rw [hbinding _ _ hb]
        trivial
  have hheight : p.height = 5 := by decide
  obtain ⟨v, τ, hrun, -⟩ := functionless_program_finishes hp hscope
  rw [hheight] at hrun
  exact ⟨p, σ, rfl, rfl, hheight, hp, hscope, v, τ, hrun⟩

end Scriptlet
