import Scriptlet.Proofs.Unnamed.Clear
import Scriptlet.Proofs.Unnamed.Stores
import Scriptlet.Session

/-!
# Bindings that nobody names

**Theorem (`unnamed_binding_invisible`).** Take a name that neither the statements nor any function
that can be reached from their scope names. To bind it, in whatever scope and to whatever value,
changes nothing about a run of the statements, but for that the binding is there in the end. This
is also so if the name is that of a native.

The proof is an induction on the depth, with the invariant `Overlooks`:

* *clearness*: whatever is in use keeps clear of the name (`Machine.clear`), so no function that is
  called names it, and
* *agreement*: the runs with and without the binding end alike (`Outcome.Alike`), so what one of
  them passes on to the rest of the code the other does too.

Clearness is what makes agreement go through a call: the body that runs then was not there to be
looked at when the run began.
-/

namespace Scriptlet

open Machine Store

variable {S env s : ScopeId} {x : String} {b : Binding} {σ τ σ' : Store} {α β γ : Type}

/-- From `σ`, the evaluation keeps clear of `x` and gives what has `Q`; and from a store that binds
`x` in `S` besides, it does the same. -/
structure Overlooks (S : ScopeId) (x : String) (b : Binding) (Q : Store → α → Prop) (σ : Store)
    (y : Eval α) : Prop where
  safe : (clear x).Safe (clear x).Carried Q σ (y σ)
  alike {σ' : Store} : Adds S x b σ σ' → Outcome.Alike (Adds S x b) (y σ) (y σ')

/-- In every scope that is clear of `x`, code that does not name `x` overlooks the binding. -/
def Overlooking (S : ScopeId) (x : String) (b : Binding) (names : γ → List String)
    (run : ScopeId → γ → Eval Value) : Prop :=
  ∀ σ env c, σ.Clear x (.scope env) → x ∉ names c →
    Overlooks S x b (clear x).value σ (run env c)

namespace Overlooks

variable {Q : Store → α → Prop} {R : Store → β → Prop} {y : Eval α}

theorem pure {a : α} (ha : Q σ a) : Overlooks S x b Q σ (Pure.pure a) where
  safe := (clear_stable x).safe_pure trivial ha
  alike h := .ok h

theorem raise (e : RuntimeError) : Overlooks S x b Q σ (Eval.raise e) where
  safe := (clear_stable x).safe_raise trivial
  alike h := .error h

theorem ofExcept {r : Except RuntimeError α} (hr : ∀ a, r = .ok a → Q σ a) :
    Overlooks S x b Q σ (Eval.ofExcept r) := by
  cases r with
  | ok a => exact .pure (hr a rfl)
  | error e => exact .raise e

theorem bind {f : α → Eval β} (hy : Overlooks S x b Q σ y)
    (hf : ∀ a τ, (clear x).change σ τ → Q τ a → Overlooks S x b R τ (f a)) :
    Overlooks S x b R σ (y >>= f) where
  safe := (clear_stable x).safe_bind hy.safe fun a τ hτ ha => (hf a τ hτ.2 ha).safe
  alike h := by
    refine (hy.alike h).bind fun a τ τ' hyσ hadds => ?_
    have hsafe := hy.safe
    rw [hyσ] at hsafe
    exact (hf a τ hsafe.1.2 hsafe.2).alike hadds

theorem raising {y : Action α} (hsafe : (clear x).Safe (fun _ _ => True) Q σ (y σ))
    (halike : ∀ σ', Adds S x b σ σ' → Outcome.Alike (Adds S x b) (y σ) (y σ')) :
    Overlooks S x b Q σ (Eval.raising y) where
  safe := Invariant.safe_raising hsafe
  alike h := (halike _ h).mapError _

theorem of_scopeless (hy : Scopeless y) (hsafe : (clear x).Safe (clear x).Carried Q σ (y σ)) :
    Overlooks S x b Q σ y := ⟨hsafe, hy.alike⟩

end Overlooks

namespace Eval

/-! ## Parts of an evaluation -/

section

variable {reg : Registry}

theorem overlooks_name {y : String} (hs : σ.Clear x (.scope env)) (hy : y ≠ x) :
    Overlooks S x b (clear x).value σ (name reg env y) where
  safe := (clear_stable x).safe_name trivial hs
  alike {σ'} h := by
    rw [name, Run.bind_apply, Run.bind_apply, Run.read_apply, Run.read_apply, h.lookup? env hy]
    dsimp only
    cases σ'.lookup? env y with
    | some c => exact .ok h
    | none =>
      by_cases hreg : reg.contains y
      · simp only [if_pos hreg]
        exact .ok h
      · simp only [if_neg hreg]
        exact .error h

theorem overlooks_define {y : String} {v : Value} (hs : σ.Clear x (.scope s))
    (hv : (clear x).value σ v) (hy : y ≠ x) :
    Overlooks S x b (fun _ _ => True) σ (raising (Store.define s y v)) :=
  .raising ((clear_stable x).safe_define trivial hs hv) fun _ h => h.define hy

theorem overlooks_declare {constant : Bool} {y : String} {v : Value}
    (hs : σ.Clear x (.scope s)) (hv : (clear x).value σ v) (hy : y ≠ x) :
    Overlooks S x b (fun _ _ => True) σ
      (raising (if constant then Store.defineConstant s y v else Store.define s y v)) := by
  cases constant with
  | true =>
    exact .raising ((clear_stable x).safe_defineConstant trivial hs hv) fun _ h =>
      h.defineConstant hy
  | false => exact overlooks_define hs hv hy

theorem overlooks_openScope (hs : σ.Clear x (.scope s)) :
    Overlooks S x b (clear x).scope σ (Store.openScope (some s)) where
  safe := (clear_stable x).safe_openScope trivial hs
  alike h := h.openScope (some s)

/-- A scope of its own begins with values in use, under names other than `x`. -/
theorem overlooks_bindAll {bs : List (Ident × Value)} (hs : σ.Clear x (.scope s))
    (hbs : ∀ p ∈ bs, (clear x).value σ p.2 ∧ p.1.name ≠ x) :
    Overlooks S x b (fun _ _ => True) σ (bindAll s bs) := by
  induction bs generalizing σ with
  | nil => exact .pure trivial
  | cons p bs ih =>
    obtain ⟨hp, hbs⟩ := List.forall_mem_cons.1 hbs
    refine (overlooks_define hs hp.1 hp.2).bind fun _ τ hτ _ => ih (hτ _ hs) fun q hq => ?_
    exact ⟨(clear_stable x).value_mono hτ (hbs q hq).1, (hbs q hq).2⟩

/-! ### Lists -/

theorem overlooks_sequence {run : ScopeId → Stmt → Eval Value}
    (hrun : Overlooking S x b Stmt.names run) {ss : List Stmt} (hs : σ.Clear x (.scope env))
    (hss : ∀ st ∈ ss, x ∉ st.names) :
    Overlooks S x b (clear x).value σ (sequence (run env) ss) := by
  have hfrom : ∀ v, (clear x).value σ v →
      Overlooks S x b (clear x).value σ (ss.foldlM (fun _ st => run env st) v) := by
    induction ss generalizing σ with
    | nil => exact fun v hv => .pure hv
    | cons st ss ih =>
      intro v _
      obtain ⟨hst, hss⟩ := List.forall_mem_cons.1 hss
      exact (hrun σ env st hs hst).bind fun w τ hτ hw => ih (hτ _ hs) hss w hw
  exact hfrom .null (clear_stable x).null

theorem overlooks_block {run : ScopeId → Stmt → Eval Value}
    (hrun : Overlooking S x b Stmt.names run) {body : Block} (hs : σ.Clear x (.scope env))
    (hbody : x ∉ body.names) :
    Overlooks S x b (clear x).value σ (sequence (run env) body.stmts) :=
  overlooks_sequence hrun hs (Block.not_mem_names.1 hbody)

theorem overlooks_mapM {run : ScopeId → Expr → Eval Value}
    (hrun : Overlooking S x b Expr.names run) {es : List Expr} (hs : σ.Clear x (.scope env))
    (hes : ∀ e ∈ es, x ∉ e.names) :
    Overlooks S x b (fun τ vs => ∀ v ∈ vs, (clear x).value τ v) σ (es.mapM (run env)) := by
  induction es generalizing σ with
  | nil => exact .pure (List.forall_mem_nil _)
  | cons e es ih =>
    obtain ⟨he, hes⟩ := List.forall_mem_cons.1 hes
    rw [List.mapM_cons]
    refine (hrun σ env e hs he).bind fun v τ hτ hv => ?_
    refine (ih (hτ _ hs) hes).bind fun vs ρ hρ hvs => ?_
    exact .pure (List.forall_mem_cons.2 ⟨(clear_stable x).value_mono hρ hv, hvs⟩)

theorem overlooks_pair {run : ScopeId → Expr → Eval Value}
    (hrun : Overlooking S x b Expr.names run) {m : OrderedMap HashKey Value} {kv : Expr × Expr}
    (hs : σ.Clear x (.scope env)) (hm : ∀ v ∈ m.values, (clear x).value σ v)
    (hkv : x ∉ kv.1.names ∧ x ∉ kv.2.names) :
    Overlooks S x b (fun τ m => ∀ v ∈ m.values, (clear x).value τ v) σ
      (pair (run env) m kv) := by
  refine (hrun σ env kv.1 hs hkv.1).bind fun k τ hτ _ => ?_
  refine (Overlooks.ofExcept (Q := fun _ _ => True) fun _ _ => trivial).bind fun key ρ hρ _ => ?_
  have hsρ : ρ.Clear x (.scope env) := hρ _ (hτ _ hs)
  refine (hrun ρ env kv.2 hsρ hkv.2).bind fun v π hπ hv => .pure fun w hw => ?_
  rcases OrderedMap.mem_values_insert hw with rfl | hw
  · exact hv
  · have hchange : (clear x).change σ π :=
      (clear_stable x).trans hτ ((clear_stable x).trans hρ hπ)
    exact (clear_stable x).value_mono hchange (hm w hw)

theorem overlooks_pairs {run : ScopeId → Expr → Eval Value}
    (hrun : Overlooking S x b Expr.names run) {kvs : List (Expr × Expr)}
    {m : OrderedMap HashKey Value} (hs : σ.Clear x (.scope env))
    (hm : ∀ v ∈ m.values, (clear x).value σ v)
    (hkvs : ∀ kv ∈ kvs, x ∉ kv.1.names ∧ x ∉ kv.2.names) :
    Overlooks S x b (fun τ m => ∀ v ∈ m.values, (clear x).value τ v) σ
      (kvs.foldlM (pair (run env)) m) := by
  induction kvs generalizing σ m with
  | nil => exact .pure hm
  | cons kv kvs ih =>
    obtain ⟨hkv, hkvs⟩ := List.forall_mem_cons.1 hkvs
    exact (overlooks_pair hrun hs hm hkv).bind fun m' τ hτ hm' => ih (hτ _ hs) hm' hkvs

theorem overlooks_entries {v : Value} (hv : (clear x).value σ v) :
    Overlooks S x b (fun τ es => ∀ e ∈ es, (clear x).value τ e.1 ∧ (clear x).value τ e.2) σ
      (entries v) :=
  .of_scopeless (scopeless_entries v) ((clear_stable x).safe_entries trivial hv)

theorem overlooks_newStamp :
    Overlooks S x b (fun _ _ => True) σ (Store.newStamp : Eval Nat) :=
  .of_scopeless scopeless_newStamp ((clear_stable x).safe_newStamp trivial)

theorem overlooks_newArray {vs : Array Value} (hvs : ∀ v ∈ vs, (clear x).value σ v) :
    Overlooks S x b (fun τ id => (clear x).value τ (.array id)) σ (Store.newArray vs) :=
  .of_scopeless (scopeless_newArray vs) ((clear_stable x).safe_newArray trivial hvs)

theorem overlooks_newHash {m : OrderedMap HashKey Value}
    (hm : ∀ v ∈ m.values, (clear x).value σ v) :
    Overlooks S x b (fun τ id => (clear x).value τ (.hash id)) σ (Store.newHash m) :=
  .of_scopeless (scopeless_newHash m) ((clear_stable x).safe_newHash trivial hm)

theorem overlooks_index {base v : Value} (hbase : (clear x).value σ base) :
    Overlooks S x b (clear x).value σ (Run.read id >>= fun σ => ofExcept (σ.index base v)) :=
  .of_scopeless (scopeless_index base v) ((clear_stable x).safe_ofExcept trivial fun _ hw =>
    (clear_stable x).index trivial hbase hw)

/-! ### Calls and loops -/

theorem overlooks_endCall {y : Eval Value} (hy : Overlooks S x b (clear x).value σ y) :
    Overlooks S x b (clear x).value σ (endCall y) where
  safe := by
    have hsafe := hy.safe
    unfold endCall
    generalize y σ = o at hsafe
    match o with
    | .error (.ret v) τ => exact ⟨hsafe.1, hsafe.2.2 v List.mem_cons_self⟩
    | .ok _ _ | .error (.raised _) _ | .outOfFuel => exact hsafe
  alike {σ'} h := by
    have halike := hy.alike h
    unfold endCall
    generalize y σ = o, y σ' = o' at halike
    cases halike with
    | ok hadds => exact .ok hadds
    | @error sig τ τ' hadds =>
      cases sig with
      | ret v => exact .ok hadds
      | raised e => exact .error hadds
    | outOfFuel => exact .outOfFuel

/-- A function in use does not name `x`, and its scope is clear of it. -/
theorem overlooks_apply (hanswers : reg.Every (clear x).Answers)
    (hscopeless : reg.Every Native.Scopeless) {run : ScopeId → Stmt → Eval Value}
    (hrun : Overlooking S x b Stmt.names run) (f : Expr) {callee : Value} {args : List Value}
    (hcallee : (clear x).value σ callee) (hargs : ∀ v ∈ args, (clear x).value σ v) :
    Overlooks S x b (clear x).value σ (apply reg run f callee args) := by
  cases callee with
  | function c =>
    obtain ⟨hnames, hclear⟩ := hcallee
    rw [Value.names, List.mem_append, not_or] at hnames
    have hs : σ.Clear x (.scope c.scope) := hclear _ rfl
    unfold apply
    by_cases hlen : args.length = c.params.length
    · simp only [if_pos hlen]
      refine (overlooks_openScope hs).bind fun s τ hτ hs => ?_
      have hbs : ∀ p ∈ c.params.zip args, (clear x).value τ p.2 ∧ p.1.name ≠ x := by
        intro p hp
        obtain ⟨hparam, harg⟩ := List.of_mem_zip hp
        refine ⟨(clear_stable x).value_mono hτ (hargs _ harg), fun hpx => hnames.1 ?_⟩
        rw [← hpx]
        exact List.mem_map_of_mem hparam
      refine (overlooks_bindAll hs hbs).bind fun _ ρ hρ _ => ?_
      exact overlooks_endCall (overlooks_block hrun (hρ _ hs) hnames.2)
    · simp only [if_neg hlen]
      exact .raise _
  | native y =>
    rw [apply]
    cases hy : reg.find? y with
    | none => exact .raise _
    | some native =>
      have hnative : Scopeless (raising (native args) >>= ofNative) :=
        .bind (.mapError _ (hscopeless y native hy args)) scopeless_ofNative
      exact .of_scopeless hnative (hanswers y native hy args σ trivial hargs)
  | _ => exact .raise _

theorem overlooks_pass {run : ScopeId → Stmt → Eval Value}
    (hrun : Overlooking S x b Stmt.names run) {index value : Ident} {body : Block}
    {entry : Value × Value} (hs : σ.Clear x (.scope env)) (hindex : index.name ≠ x)
    (hvalue : value.name ≠ x) (hbody : x ∉ body.names)
    (hentry : (clear x).value σ entry.1 ∧ (clear x).value σ entry.2) :
    Overlooks S x b (fun _ _ => True) σ (pass run env index value body entry) := by
  refine (overlooks_openScope hs).bind fun s τ hτ hs => ?_
  have hbs : ∀ p ∈ [(index, entry.1), (value, entry.2)],
      (clear x).value τ p.2 ∧ p.1.name ≠ x := by
    refine List.forall_mem_cons.2 ⟨?_, List.forall_mem_singleton.2 ?_⟩
    · exact ⟨(clear_stable x).value_mono hτ hentry.1, hindex⟩
    · exact ⟨(clear_stable x).value_mono hτ hentry.2, hvalue⟩
  refine (overlooks_bindAll hs hbs).bind fun _ ρ hρ _ => ?_
  exact (overlooks_block hrun (hρ _ hs) hbody).bind fun _ _ _ _ => .pure trivial

theorem overlooks_passes {run : ScopeId → Stmt → Eval Value}
    (hrun : Overlooking S x b Stmt.names run) {index value : Ident} {body : Block}
    {es : List (Value × Value)} (hs : σ.Clear x (.scope env)) (hindex : index.name ≠ x)
    (hvalue : value.name ≠ x) (hbody : x ∉ body.names)
    (hes : ∀ e ∈ es, (clear x).value σ e.1 ∧ (clear x).value σ e.2) :
    Overlooks S x b (fun _ _ => True) σ (es.forM (pass run env index value body)) := by
  induction es generalizing σ with
  | nil => exact .pure trivial
  | cons e es ih =>
    obtain ⟨he, hes⟩ := List.forall_mem_cons.1 hes
    refine (overlooks_pass hrun hs hindex hvalue hbody he).bind fun _ τ hτ _ => ?_
    refine ih (hτ _ hs) fun e he => ?_
    exact ⟨(clear_stable x).value_mono hτ (hes e he).1, (clear_stable x).value_mono hτ (hes e he).2⟩

end

/-! ## Statements and expressions -/

variable {reg : Registry} {n : Nat}

theorem overlooking_exec_succ (hexec : Overlooking S x b Stmt.names (exec reg n))
    (heval : Overlooking S x b Expr.names (eval reg n)) :
    Overlooking S x b Stmt.names (exec reg (n + 1)) := by
  intro σ env st hs hst
  cases st with
  | declare t constant y e =>
    rw [Stmt.names, List.mem_cons, not_or] at hst
    refine (heval σ env e hs hst.2).bind fun v τ hτ hv => ?_
    refine (overlooks_declare (hτ _ hs) hv (Ne.symm hst.1)).bind fun _ _ _ _ => ?_
    exact .pure (clear_stable x).null
  | ret t e =>
    refine (heval σ env e hs hst).bind fun v τ hτ hv => ⟨?_, fun h => .error h⟩
    exact (clear_stable x).safe_fail trivial ⟨nofun, List.forall_mem_singleton.2 hv⟩
  | expr t e => exact heval σ env e hs hst
  | block body => exact overlooks_block hexec hs hst

theorem overlooking_eval_succ (hanswers : reg.Every (clear x).Answers)
    (hscopeless : reg.Every Native.Scopeless)
    (hexec : Overlooking S x b Stmt.names (exec reg n))
    (heval : Overlooking S x b Expr.names (eval reg n)) :
    Overlooking S x b Expr.names (eval reg (n + 1)) := by
  intro σ env e hs he
  have hI := clear_stable x
  cases e with
  | ident y =>
    rw [Expr.names, List.mem_singleton] at he
    exact overlooks_name hs (Ne.symm he)
  | int t k => exact .pure (hI.integer k)
  | str t s => exact .pure (hI.string s)
  | bool t b => exact .pure (hI.bool b)
  | null t => exact .pure hI.null
  | unary t op e =>
    exact (heval σ env e hs he).bind fun v τ _ _ => .ofExcept fun w hw => hI.unary hw
  | binary t op l r =>
    rw [Expr.names, List.mem_append, not_or] at he
    refine (heval σ env l hs he.1).bind fun v τ hτ _ => ?_
    exact (heval τ env r (hτ _ hs) he.2).bind fun w ρ _ _ => .ofExcept fun u hu => hI.binary hu
  | assign t y e =>
    rw [Expr.names, List.mem_cons, not_or] at he
    refine (heval σ env e hs he.2).bind fun v τ hτ hv => ?_
    have hreassign : Overlooks S x b (fun _ _ => True) τ (raising (Store.reassign env y.name v)) :=
      .raising (hI.safe_reassign trivial (hτ _ hs) hv) fun _ h => h.reassign (Ne.symm he.1)
    exact hreassign.bind fun _ ρ hρ _ => .pure (hI.value_mono hρ hv)
  | ifElse t test yes no =>
    rw [Expr.names, List.mem_append, List.mem_append, not_or, not_or] at he
    obtain ⟨⟨htest, hyes⟩, hno⟩ := he
    refine (heval σ env test hs htest).bind fun v τ hτ _ => ?_
    by_cases htrue : v.truthy
    · simp only [if_pos htrue]
      exact overlooks_block hexec (hτ _ hs) hyes
    · simp only [if_neg htrue]
      cases no with
      | none => exact .pure hI.null
      | some body => exact overlooks_block hexec (hτ _ hs) hno
  | fn t params body =>
    refine overlooks_newStamp.bind fun stamp τ hτ _ => .pure ⟨he, fun l hl => ?_⟩
    cases hl
    exact hτ _ hs
  | call t f args =>
    rw [Expr.names, List.mem_append, not_or] at he
    refine (heval σ env f hs he.1).bind fun callee τ hτ hcallee => ?_
    refine (overlooks_mapM heval (hτ _ hs) (not_mem_exprsNames.1 he.2)).bind fun vs ρ hρ hvs => ?_
    exact overlooks_apply hanswers hscopeless hexec f (hI.value_mono hρ hcallee) hvs
  | array t es =>
    refine (overlooks_mapM heval hs (not_mem_exprsNames.1 he)).bind fun vs τ _ hvs => ?_
    have hvs : ∀ v ∈ vs.toArray, (clear x).value τ v := fun v hv => hvs v (List.mem_toArray.1 hv)
    exact (overlooks_newArray hvs).bind fun id ρ _ hid => .pure hid
  | hash t kvs =>
    have hempty : ∀ v ∈ (OrderedMap.empty : OrderedMap HashKey Value).values,
        (clear x).value σ v := nofun
    refine (overlooks_pairs heval hs hempty (not_mem_pairsNames.1 he)).bind fun m τ _ hm => ?_
    exact (overlooks_newHash hm).bind fun id ρ _ hid => .pure hid
  | index t e i =>
    rw [Expr.names, List.mem_append, not_or] at he
    refine (heval σ env e hs he.1).bind fun base τ hτ hbase => ?_
    refine (heval τ env i (hτ _ hs) he.2).bind fun v ρ hρ _ => ?_
    exact overlooks_index (hI.value_mono hρ hbase)
  | forIn t index value target body =>
    rw [Expr.names, List.mem_cons, List.mem_cons, List.mem_cons, not_or, not_or, not_or] at he
    obtain ⟨hindex, hvalue, htarget, hbody⟩ := he
    refine (overlooks_name hs (Ne.symm htarget)).bind fun v τ hτ hv => ?_
    refine (overlooks_entries hv).bind fun es ρ hρ hes => ?_
    have hsρ : ρ.Clear x (.scope env) := hρ _ (hτ _ hs)
    refine (overlooks_passes hexec hsρ (Ne.symm hindex) (Ne.symm hvalue) hbody hes).bind
      fun _ π hπ _ => ?_
    refine overlooks_newStamp.bind fun stamp κ hκ _ => .pure ⟨List.not_mem_nil, fun l hl => ?_⟩
    cases hl
    exact hκ _ (hπ _ hsρ)

/-- Code in which `x` is not named overlooks the binding, to every depth. -/
theorem overlooking (hanswers : reg.Every (clear x).Answers)
    (hscopeless : reg.Every Native.Scopeless) (n : Nat) :
    Overlooking S x b Stmt.names (exec reg n) ∧ Overlooking S x b Expr.names (eval reg n) := by
  induction n with
  | zero => exact ⟨fun _ _ _ _ _ => ⟨trivial, fun _ => .outOfFuel⟩,
      fun _ _ _ _ _ => ⟨trivial, fun _ => .outOfFuel⟩⟩
  | succ n ih =>
    exact ⟨overlooking_exec_succ ih.1 ih.2, overlooking_eval_succ hanswers hscopeless ih.1 ih.2⟩

end Eval

open Eval

/-- Where nothing is bound there are no functions. -/
theorem clear_new (reg : Registry) (output : Output) (x : String) :
    (Session.new reg output).store.Clear x (.scope 0) := by
  refine AllStored.intro (fun m hm => ?_) fun v hv => ?_
  · cases hm with
    | outer ho => cases ho
    | binding hb _ => cases hb
  · cases hv with
    | binding hb => cases hb

/-- **A binding that nobody names is invisible.** The run over the store with the binding ends as
the run over the store without it, and leaves the same with the binding. -/
theorem unnamed_binding_invisible {ss : List Stmt} (hS : S < σ.scopes.size)
    (hunbound : σ.binding? S x = none) (hss : ∀ st ∈ ss, x ∉ st.names)
    (henv : σ.Clear x (.scope env)) (b : Binding) (depth : Nat) :
    Outcome.Alike (Adds S x b) (sequence (exec .standard depth env) ss σ)
      (sequence (exec .standard depth env) ss (σ.bind S x b)) := by
  have hanswers : Registry.standard.Every (clear x).Answers := (clear_stable x).answers_standard
  have hexec : Overlooking S x b Stmt.names (exec .standard depth) :=
    (overlooking hanswers Registry.scopeless_standard depth).1
  exact (overlooks_sequence hexec henv hss).alike (adds_bind hunbound hS)

/-- The program `let kind = typeof(7)` in a new session, and in one in which the name of the native
`len` is bound. -/
theorem let_beside_bound_native :
    ∃ (ss : List Stmt) (σ τ τ' : Store),
      σ = (Session.new .standard (.console #[])).store ∧
      sequence (exec .standard 3 0) ss σ = .ok .null τ ∧
      sequence (exec .standard 3 0) ss (σ.bind 0 "len" ⟨.integer 5, true⟩) = .ok .null τ' ∧
      τ.binding? 0 "kind" = some ⟨.string "INTEGER", false⟩ ∧
      Adds 0 "len" ⟨.integer 5, true⟩ τ τ' := by
  let σ := (Session.new .standard (.console #[])).store
  let callee : Expr := .ident ⟨⟨.ident, "typeof", ⟨1, 12⟩⟩, "typeof"⟩
  let call : Expr := .call ⟨.lparen, "(", ⟨1, 18⟩⟩ callee [.int ⟨.int, "7", ⟨1, 19⟩⟩ 7]
  let s : Stmt := .declare ⟨.letKw, "let", ⟨1, 1⟩⟩ false ⟨⟨.ident, "kind", ⟨1, 5⟩⟩, "kind"⟩ call
  let τ := σ.bind 0 "kind" ⟨.string "INTEGER", false⟩
  have hname : name .standard 0 "typeof" σ = .ok (.native "typeof") σ := Session.name_new _ rfl
  have hcall : Eval.eval .standard 2 0 call σ = .ok (.string "INTEGER") σ := by
    show (name .standard 0 "typeof" >>= fun callee => _) σ = _
    rw [Run.bind_apply, hname]
    rfl
  have hlet : sequence (exec .standard 3 0) [s] σ = .ok .null τ := by
    show ((Eval.eval .standard 2 0 call >>= fun v => _) >>= fun v => _) σ = _
    rw [Run.bind_apply, Run.bind_apply, hcall]
    rfl
  have hss : ∀ st ∈ [s], "len" ∉ st.names := by decide
  have halike := unnamed_binding_invisible Nat.one_pos (show σ.binding? 0 "len" = none from rfl) hss
    (clear_new .standard (.console #[]) "len") ⟨.integer 5, true⟩ 3
  rw [hlet] at halike
  generalize hrun : sequence (exec .standard 3 0) [s] (σ.bind 0 "len" ⟨.integer 5, true⟩) = o
    at halike
  cases halike with
  | ok hadds => exact ⟨[s], σ, τ, _, rfl, hlet, hrun, rfl, hadds⟩

end Scriptlet
