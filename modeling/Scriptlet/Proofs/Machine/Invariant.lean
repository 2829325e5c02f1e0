import Scriptlet.Native.Standard
import Scriptlet.Proofs.Machine

/-!
# Invariants of runs

An `Invariant` says of a store whether it is good, which scopes and values may be in use over it,
and how it may change. It is `Kept` if the operations that programs have on a store keep it, each
taken by itself. What is in use in a configuration is read off its parts (`Control.values`,
`Frame.values`), so that whole configurations can be good (`Holds`).

This module has the definitions, and for each operation of the evaluator that is not made of
others the lemma that it is `Safe`: however it ends, the store has changed as it may, and what it
gives may be in use. That the steps of the machine and whole runs keep what the operations keep
is proved in `Scriptlet.Proofs.Machine.Preservation`.
-/

namespace Scriptlet

namespace Machine

/-! ## What is in use -/

def Goal.values : Goal → List Value
  | .array => []
  | .call _ callee => [callee]

/-- The scopes in which a control works. -/
@[simp] def Control.scopes : Control → List ScopeId
  | .exec env _ | .eval env _ | .sequence env _ _ | .collect env _ _ _ | .pairs env _ _
  | .enter env _ _ => [env]
  | .passes l _ => [l.env]
  | .done _ | .unwind _ | .hang => []

/-- The values with which a control works. -/
@[simp] def Control.values : Control → List Value
  | .exec _ _ | .eval _ _ | .unwind (.raised _) | .hang => []
  | .sequence _ last _ => [last]
  | .collect _ goal vs _ => goal.values ++ vs
  | .pairs _ entries _ => entries.values
  | .passes _ es => es.map Prod.fst ++ es.map Prod.snd
  | .enter _ bs _ => bs.map Prod.snd
  | .done v | .unwind (.ret v) => [v]

@[simp] def Frame.scopes : Frame → List ScopeId
  | .declare env _ _ | .left env _ _ | .assign env _ | .branch env _ _ | .callee env _ _
  | .element env _ _ _ | .key env _ _ _ | .entry env _ _ _ | .base env _ | .statement env _ => [env]
  | .pass l _ => [l.env]
  | .ret | .unary _ | .right _ _ | .position _ | .body => []

@[simp] def Frame.values : Frame → List Value
  | .declare _ _ _ | .ret | .unary _ | .left _ _ _ | .assign _ _ | .branch _ _ _ | .callee _ _ _
  | .base _ _ | .statement _ _ | .body => []
  | .right _ v | .position v => [v]
  | .element _ goal vs _ => goal.values ++ vs
  | .key _ entries _ _ | .entry _ entries _ _ => entries.values
  | .pass _ es => es.map Prod.fst ++ es.map Prod.snd

/-- All values that a configuration works with, apart from those in its store. -/
def Config.values (c : Config) : List Value := c.control.values ++ c.stack.flatMap Frame.values

/-! ## Invariants -/

structure Invariant where
  store : Store → Prop
  /-- The scopes that may be in use over a store. -/
  scope : Store → ScopeId → Prop
  /-- The values that may be in use over a store. -/
  value : Store → Value → Prop
  /-- How a store may change. -/
  change : Store → Store → Prop

namespace Invariant

variable (I : Invariant)

/-- `τ` is good, and `σ` may change to it. -/
def Allows (σ τ : Store) : Prop := I.store τ ∧ I.change σ τ

/-- The operations on a store keep the invariant, each by itself. Nothing is said of functions and
loops, which are made where programs are run. -/
structure Stable : Prop where
  refl (σ : Store) : I.change σ σ
  trans {σ τ ρ : Store} : I.change σ τ → I.change τ ρ → I.change σ ρ
  scope_mono {σ τ : Store} {s : ScopeId} : I.change σ τ → I.scope σ s → I.scope τ s
  value_mono {σ τ : Store} {v : Value} : I.change σ τ → I.value σ v → I.value τ v
  integer {σ : Store} (n : Integer) : I.value σ (.integer n)
  string {σ : Store} (s : String) : I.value σ (.string s)
  bool {σ : Store} (b : Bool) : I.value σ (.bool b)
  null {σ : Store} : I.value σ .null
  native {σ : Store} (x : String) : I.value σ (.native x)
  /-- What a native returns is taken out of the return. -/
  returned {σ : Store} {v : Value} : I.value σ (.ret v) → I.value σ v
  outer {σ : Store} {s o : ScopeId} :
    I.store σ → I.scope σ s → σ.outer? s = some o → I.scope σ o
  binding {σ : Store} {s : ScopeId} {x : String} {b : Binding} :
    I.store σ → I.scope σ s → σ.binding? s x = some b → I.value σ b.value
  item {σ : Store} {id : ArrayId} {v : Value} :
    I.store σ → I.value σ (.array id) → v ∈ σ.items id → I.value σ v
  entry {σ : Store} {id : HashId} {v : Value} :
    I.store σ → I.value σ (.hash id) → v ∈ (σ.pairs id).values → I.value σ v
  /-- A name is never bound again once it is constant. -/
  bind {σ : Store} {s : ScopeId} {x : String} {b : Binding} :
    I.store σ → I.scope σ s → I.value σ b.value →
      (σ.binding? s x).any Binding.constant = false → I.Allows σ (σ.bind s x b)
  openScope {σ : Store} {s : ScopeId} : I.store σ → I.scope σ s →
    I.Allows σ { σ with scopes := σ.scopes.push ⟨.empty, some s⟩ } ∧
      I.scope { σ with scopes := σ.scopes.push ⟨.empty, some s⟩ } σ.scopes.size
  newArray {σ : Store} {vs : Array Value} : I.store σ → (∀ v ∈ vs, I.value σ v) →
    I.Allows σ { σ with arrays := σ.arrays.push vs } ∧
      I.value { σ with arrays := σ.arrays.push vs } (.array σ.arrays.size)
  newHash {σ : Store} {m : OrderedMap HashKey Value} :
    I.store σ → (∀ v ∈ m.values, I.value σ v) →
      I.Allows σ { σ with hashes := σ.hashes.push m } ∧
        I.value { σ with hashes := σ.hashes.push m } (.hash σ.hashes.size)
  modifyItems {σ : Store} {id : ArrayId} {f : Array Value → Array Value} :
    I.store σ → I.value σ (.array id) → (∀ v ∈ f (σ.items id), I.value σ v) →
      I.Allows σ (σ.modifyItems id f)
  modifyPairs {σ : Store} {id : HashId}
    {f : OrderedMap HashKey Value → OrderedMap HashKey Value} :
    I.store σ → I.value σ (.hash id) → (∀ v ∈ (f (σ.pairs id)).values, I.value σ v) →
      I.Allows σ (σ.modifyPairs id f)
  /-- Nothing depends on the stamps and the output. -/
  rest {σ : Store} (stamps : Nat) (output : Output) :
    I.store σ → I.Allows σ { σ with stamps, output }

/-- The operations keep the invariant, and a function or a loop may be in use wherever the scope
may that it was made in. -/
structure Kept : Prop extends I.Stable where
  function {σ : Store} {c : Closure} : I.value σ (.function c) ↔ I.scope σ c.scope
  loop {σ : Store} {l : Loop} : I.scope σ l.scope → I.value σ (.loop l)

/-- Scopes and values that may be in use. -/
def Uses (σ : Store) (ss : List ScopeId) (vs : List Value) : Prop :=
  (∀ s ∈ ss, I.scope σ s) ∧ ∀ v ∈ vs, I.value σ v

/-- Frames with scopes and values that may be in use. -/
def Waits (σ : Store) (K : List Frame) : Prop := ∀ F ∈ K, I.Uses σ F.scopes F.values

/-- The invariant holds of all parts of a configuration. -/
structure Holds (c : Config) : Prop where
  store : I.store c.store
  control : I.Uses c.store c.control.scopes c.control.values
  stack : I.Waits c.store c.stack

/-- However a run from `σ` ends, it was allowed, the value has `Q` and the reason for a failure
has `E`. -/
def Safe {α ε : Type} (E : Store → ε → Prop) (Q : Store → α → Prop) (σ : Store) :
    Outcome Store ε α → Prop
  | .ok a τ => I.Allows σ τ ∧ Q τ a
  | .error e τ => I.Allows σ τ ∧ E τ e
  | .outOfFuel => True

/-- A signal carries nothing but values that may be in use. -/
def Carried (σ : Store) (sig : Signal) : Prop := I.Uses σ [] (Control.unwind sig).values

/-- A native keeps the invariant, and its value may be in use. -/
def Respects (native : Native) : Prop :=
  ∀ args σ, I.store σ → (∀ v ∈ args, I.value σ v) →
    I.Safe (fun _ _ => True) I.value σ (native args σ)

/-- A native keeps the invariant, and the value of a call of it may be in use. -/
def Answers (native : Native) : Prop :=
  ∀ args σ, I.store σ → (∀ v ∈ args, I.value σ v) →
    I.Safe I.Carried I.value σ ((Eval.raising (native args) >>= Eval.ofNative) σ)

variable {I}

theorem Holds.values {c : Config} (hc : I.Holds c) {v : Value} (hv : v ∈ c.values) :
    I.value c.store v := by
  rcases List.mem_append.1 hv with hv | hv
  · exact hc.control.2 v hv
  · obtain ⟨F, hF, hv⟩ := List.mem_flatMap.1 hv
    exact (hc.stack F hF).2 v hv

variable {α β ε : Type} {E : Store → ε → Prop} {Q : Store → α → Prop} {R : Store → β → Prop}
  {σ τ ρ : Store}

/-! ## Safe runs -/

theorem Stable.allows_refl (hI : I.Stable) (hσ : I.store σ) : I.Allows σ σ := ⟨hσ, hI.refl σ⟩

theorem Stable.allows_trans (hI : I.Stable) (h : I.Allows σ τ) (h' : I.Allows τ ρ) :
    I.Allows σ ρ :=
  ⟨h'.1, hI.trans h.2 h'.2⟩

theorem Stable.uses_mono (hI : I.Stable) (h : I.change σ τ) {ss : List ScopeId} {vs : List Value}
    (hu : I.Uses σ ss vs) : I.Uses τ ss vs :=
  ⟨fun s hs => hI.scope_mono h (hu.1 s hs), fun v hv => hI.value_mono h (hu.2 v hv)⟩

theorem Stable.waits_mono (hI : I.Stable) (h : I.change σ τ) {K : List Frame} (hK : I.Waits σ K) :
    I.Waits τ K :=
  fun F hF => hI.uses_mono h (hK F hF)

theorem Waits.push {K : List Frame} {F : Frame} (hK : I.Waits σ K)
    (hF : I.Uses σ F.scopes F.values) : I.Waits σ (F :: K) :=
  List.forall_mem_cons.2 ⟨hF, hK⟩

theorem Stable.safe_pure (hI : I.Stable) {a : α} (hσ : I.store σ) (ha : Q σ a) :
    I.Safe E Q σ ((pure a : Run Store ε α) σ) :=
  ⟨hI.allows_refl hσ, ha⟩

theorem Stable.safe_fail (hI : I.Stable) {e : ε} (hσ : I.store σ) (he : E σ e) :
    I.Safe E Q σ ((Run.fail e : Run Store ε α) σ) :=
  ⟨hI.allows_refl hσ, he⟩

/-- What is allowed after an allowed change is allowed. -/
theorem Stable.safe_after (hI : I.Stable) {o : Outcome Store ε α} (h : I.Allows σ τ)
    (ho : I.Safe E Q τ o) : I.Safe E Q σ o := by
  cases o with
  | ok a ρ => exact ⟨hI.allows_trans h ho.1, ho.2⟩
  | error e ρ => exact ⟨hI.allows_trans h ho.1, ho.2⟩
  | outOfFuel => trivial

theorem Stable.safe_bind (hI : I.Stable) {x : Run Store ε α} {f : α → Run Store ε β}
    (hx : I.Safe E Q σ (x σ)) (hf : ∀ a τ, I.Allows σ τ → Q τ a → I.Safe E R τ (f a τ)) :
    I.Safe E R σ ((x >>= f) σ) := by
  rw [Run.bind_apply]
  cases hxσ : x σ with
  | ok a τ =>
    rw [hxσ] at hx
    exact hI.safe_after hx.1 (hf a τ hx.1 hx.2)
  | error e τ => rw [hxσ] at hx; exact hx
  | outOfFuel => trivial

/-- A failure of an operation on the store carries no value. -/
theorem safe_raising {x : Action α} (hx : I.Safe (fun _ _ => True) Q σ (x σ)) :
    I.Safe I.Carried Q σ (Eval.raising x σ) := by
  unfold Eval.raising Run.mapError
  cases hxσ : x σ with
  | ok a τ => rw [hxσ] at hx; exact hx
  | error e τ => rw [hxσ] at hx; exact ⟨hx.1, nofun, nofun⟩
  | outOfFuel => trivial

theorem Stable.safe_raise (hI : I.Stable) {e : RuntimeError} (hσ : I.store σ) :
    I.Safe I.Carried Q σ ((Eval.raise e : Eval α) σ) :=
  hI.safe_fail hσ ⟨nofun, nofun⟩

theorem Stable.safe_ofExcept (hI : I.Stable) {r : Except RuntimeError α} (hσ : I.store σ)
    (hr : ∀ a, r = .ok a → Q σ a) : I.Safe I.Carried Q σ (Eval.ofExcept r σ) := by
  cases r with
  | ok a => exact hI.safe_pure hσ (hr a rfl)
  | error e => exact hI.safe_raise hσ

/-! ## Names -/

theorem Stable.owner (hI : I.Stable) (hσ : I.store σ) {s o : ScopeId} {x : String}
    (hs : I.scope σ s) (ho : σ.owner? s x = some o) : I.scope σ o := by
  induction s using Store.owner?.induct σ x with
  | case1 s hbound =>
    rw [Store.owner?, if_pos hbound] at ho
    cases ho
    exact hs
  | case2 s hbound houter =>
    rw [Store.owner?, if_neg hbound, houter] at ho
    cases ho
  | case3 s hbound t houter hlt ih =>
    rw [Store.owner?, if_neg hbound, houter] at ho
    exact ih (hI.outer hσ hs houter) (by simpa [hlt] using ho)
  | case4 s hbound t houter hlt =>
    rw [Store.owner?, if_neg hbound, houter] at ho
    simp [hlt] at ho

theorem Stable.lookup (hI : I.Stable) (hσ : I.store σ) {s : ScopeId} {x : String} {b : Binding}
    (hs : I.scope σ s) (hb : σ.lookup? s x = some b) : I.value σ b.value := by
  obtain ⟨o, ho, hob⟩ := Option.bind_eq_some_iff.1 hb
  exact hI.binding hσ (hI.owner hσ hs ho) hob

theorem Stable.safe_name (hI : I.Stable) {reg : Registry} {env : ScopeId} {x : String}
    (hσ : I.store σ) (hs : I.scope σ env) :
    I.Safe I.Carried I.value σ (Eval.name reg env x σ) := by
  rw [Eval.name, Run.bind_apply, Run.read_apply]
  dsimp only
  cases hb : σ.lookup? env x with
  | some b => exact hI.safe_pure hσ (hI.lookup hσ hs hb)
  | none =>
    by_cases hx : reg.contains x
    · simp only [if_pos hx]
      exact hI.safe_pure hσ (hI.native x)
    · simp only [if_neg hx]
      exact hI.safe_raise hσ

theorem Stable.safe_define (hI : I.Stable) {s : ScopeId} {x : String} {v : Value} (hσ : I.store σ)
    (hs : I.scope σ s) (hv : I.value σ v) :
    I.Safe (fun _ _ => True) (fun _ _ => True) σ (Store.define s x v σ) := by
  unfold Store.define
  cases hb : σ.binding? s x with
  | some b => exact ⟨hI.allows_refl hσ, trivial⟩
  | none => exact ⟨hI.bind hσ hs hv (by rw [hb]; rfl), trivial⟩

theorem Stable.safe_defineConstant (hI : I.Stable) {s : ScopeId} {x : String} {v : Value}
    (hσ : I.store σ) (hs : I.scope σ s) (hv : I.value σ v) :
    I.Safe (fun _ _ => True) (fun _ _ => True) σ (Store.defineConstant s x v σ) := by
  unfold Store.defineConstant
  by_cases hb : (σ.binding? s x).any Binding.constant
  · rw [if_pos hb]
    exact ⟨hI.allows_refl hσ, trivial⟩
  · rw [if_neg hb]
    exact ⟨hI.bind hσ hs hv (by simpa using hb), trivial⟩

theorem Stable.safe_reassign (hI : I.Stable) {s : ScopeId} {x : String} {v : Value}
    (hσ : I.store σ) (hs : I.scope σ s) (hv : I.value σ v) :
    I.Safe (fun _ _ => True) (fun _ _ => True) σ (Store.reassign s x v σ) := by
  unfold Store.reassign
  cases ho : σ.owner? s x with
  | none => exact ⟨hI.allows_refl hσ, trivial⟩
  | some o =>
    have hso : I.scope σ o := hI.owner hσ hs ho
    by_cases hb : (σ.binding? o x).any Binding.constant
    · simp only [if_pos hb]
      exact ⟨hI.allows_refl hσ, trivial⟩
    · simp only [if_neg hb]
      exact ⟨hI.bind hσ hso hv (by simpa using hb), trivial⟩

theorem Stable.safe_openScope (hI : I.Stable) {s : ScopeId} (hσ : I.store σ) (hs : I.scope σ s) :
    I.Safe E I.scope σ (Store.openScope (some s) σ) :=
  hI.openScope hσ hs

theorem Stable.safe_newStamp (hI : I.Stable) (hσ : I.store σ) :
    I.Safe E (fun _ _ => True) σ (Store.newStamp σ) :=
  ⟨hI.rest (σ.stamps + 1) σ.output hσ, trivial⟩

/-! ## Collections -/

theorem Stable.safe_newArray (hI : I.Stable) {vs : Array Value} (hσ : I.store σ)
    (hvs : ∀ v ∈ vs, I.value σ v) :
    I.Safe E (fun τ id => I.value τ (.array id)) σ (Store.newArray vs σ) :=
  hI.newArray hσ hvs

theorem Stable.safe_newHash (hI : I.Stable) {m : OrderedMap HashKey Value} (hσ : I.store σ)
    (hm : ∀ v ∈ m.values, I.value σ v) :
    I.Safe E (fun τ id => I.value τ (.hash id)) σ (Store.newHash m σ) :=
  hI.newHash hσ hm

theorem Stable.key (hI : I.Stable) (k : HashKey) : I.value σ k.value := by
  cases k with
  | integer n => exact hI.integer n
  | string s => exact hI.string s
  | bool b => exact hI.bool b

theorem Stable.safe_entries (hI : I.Stable) {v : Value} (hσ : I.store σ) (hv : I.value σ v) :
    I.Safe I.Carried (fun τ es => ∀ e ∈ es, I.value τ e.1 ∧ I.value τ e.2) σ
      (Eval.entries v σ) := by
  cases v with
  | array id =>
    refine ⟨hI.allows_refl hσ, fun e he => ?_⟩
    obtain ⟨⟨w, i⟩, hw, rfl⟩ := List.mem_map.1 he
    have hmem : w ∈ σ.items id := Array.mem_toList_iff.1 (List.fst_mem_of_mem_zipIdx hw)
    exact ⟨hI.integer _, hI.item hσ hv hmem⟩
  | hash id =>
    refine ⟨hI.allows_refl hσ, fun e he => ?_⟩
    obtain ⟨⟨k, w⟩, hw, rfl⟩ := List.mem_map.1 he
    exact ⟨hI.key k, hI.entry hσ hv (List.mem_map_of_mem hw)⟩
  | _ => exact hI.safe_raise hσ

theorem Stable.index (hI : I.Stable) (hσ : I.store σ) {base i v : Value} (hb : I.value σ base)
    (hv : σ.index base i = .ok v) : I.value σ v := by
  unfold Store.index at hv
  split at hv
  · rename_i id n
    cases hv
    cases hget : n.place?.bind fun i => (σ.items id)[i]? with
    | none => exact hI.null
    | some w =>
      obtain ⟨i, -, hi⟩ := Option.bind_eq_some_iff.1 hget
      exact hI.item hσ hb (Array.mem_of_getElem? hi)
  · rename_i id
    split at hv
    · rename_i k hk
      cases hv
      cases hget : (σ.pairs id).find? k with
      | none => exact hI.null
      | some w => exact hI.entry hσ hb (OrderedMap.mem_values_of_find? hget)
    · cases hv
  · cases hv

theorem Stable.unary (hI : I.Stable) {op : UnaryOp} {v w : Value}
    (h : Value.unary op v = .ok w) : I.value σ w := by
  unfold Value.unary at h
  split at h
  · cases h
    exact hI.bool _
  · split at h
    · cases h
      exact hI.integer _
    · cases h
  · cases h

theorem Stable.arithmetic (hI : I.Stable) {op : BinaryOp} {a b : Integer} {w : Value}
    (h : Value.arithmetic op a b = .ok w) : I.value σ w := by
  have hexact : ∀ r, Value.exactly op a b r = .ok w → I.value σ w := by
    intro r hr
    cases r with
    | some n => cases hr; exact hI.integer n
    | none => cases hr
  unfold Value.arithmetic at h
  split at h
  case h_4 =>
    by_cases hb : b = 0
    · rw [if_pos hb] at h
      cases h
    · rw [if_neg hb] at h
      exact hexact _ h
  all_goals first
    | exact hexact _ h
    | cases h; exact hI.bool _

theorem Stable.binary (hI : I.Stable) {op : BinaryOp} {l r w : Value}
    (h : Value.binary op l r = .ok w) : I.value σ w := by
  unfold Value.binary at h
  split at h
  · exact hI.arithmetic h
  · cases h
    exact hI.string _
  · split at h
    · cases h; exact hI.bool _
    · cases h
  · split at h
    · cases h; exact hI.bool _
    · cases h
  · cases h

end Invariant

end Machine

end Scriptlet
