import Mathlib.Data.List.Induction
import Mathlib.Data.List.Nodup
import Scriptlet.Proofs.Loops
import Scriptlet.Proofs.Machine.Preservation
import Scriptlet.Proofs.Scopes

/-!
# What a call binds

**Theorem (`call_binds_parameters`).** A call with the wrong number of arguments fails before
anything is done. A call of a function that has a parameter twice fails at the first parameter that
was there before. Every other call runs the body in a new scope inside the one in which the function
was written; the scope binds each parameter to its argument, and nothing else. The call ends as the
body does, but for a return, which ends with it. Of two calls in a run, the later one has the newer
scope.

The arguments are bound one by one, like the two names of a loop (`bindAll_pushBound`), so all that
is left is to find the first parameter that repeats. That no two calls share a scope is an
invariant about change alone (`growing`): a call takes the number of scopes for its own scope, and
that number never gets smaller.
-/

namespace Scriptlet

open Eval Machine

/-! ## How a call begins and ends -/

/-- A call of `c` with these arguments makes `τ` of the store `σ` before the body runs, and `s` is
the scope in which it will run. -/
structure Store.EntersCall (σ : Store) (c : Closure) (args : List Value) (s : ScopeId) (τ : Store) :
    Prop where
  absent : σ.scopes[s]? = none
  present : s < τ.scopes.size
  outer : τ.outer? s = some c.scope
  /-- The scope binds each parameter to the argument in its place, and nothing else. -/
  binding (x : String) (b : Binding) : τ.binding? s x = some b ↔
    ∃ (j : Nat) (p : Ident) (v : Value),
      c.params[j]? = some p ∧ args[j]? = some v ∧ p.name = x ∧ b = ⟨v, false⟩
  no_constant (x : String) (b : Binding) : τ.binding? s x = some b → b.constant = false
  /-- The other scopes are what they were. -/
  others (t : ScopeId) : t ≠ s → τ.scopes[t]? = σ.scopes[t]?
  rest : τ.withScopes σ.scopes = σ

/-- A call has the outcome `call` if its body has the outcome `body`. -/
structure EndsCall (body call : Outcome Store Signal Value) : Prop where
  ok (v : Value) (τ : Store) : call = .ok v τ ↔ body = .ok v τ ∨ body = .error (.ret v) τ
  raised (e : RuntimeError) (τ : Store) :
    call = .error (.raised e) τ ↔ body = .error (.raised e) τ
  not_ret (v : Value) (τ : Store) : call ≠ .error (.ret v) τ
  outOfFuel : call = .outOfFuel ↔ body = .outOfFuel

theorem endsCall_endCall (x : Eval Value) (σ : Store) : EndsCall (x σ) (endCall x σ) := by
  unfold endCall
  cases x σ with
  | ok v τ => constructor <;> simp
  | error sig τ =>
    cases sig with
    | ret v => constructor <;> simp
    | raised e => constructor <;> simp
  | outOfFuel => constructor <;> simp

/-! ## Binding the parameters -/

/-- Where not all are different, there is a first one that was there before. -/
theorem exists_first_repeated {α β : Type} (f : α → β) {l : List α} (h : ¬ (l.map f).Nodup) :
    ∃ j a, l[j]? = some a ∧ ((l.take j).map f).Nodup ∧ f a ∈ (l.take j).map f := by
  induction l using List.reverseRecOn with
  | nil => exact absurd List.nodup_nil h
  | append_singleton l a ih =>
    by_cases hl : (l.map f).Nodup
    · refine ⟨l.length, a, by simp, by simpa using hl, ?_⟩
      by_contra ha
      apply h
      rw [List.map_append, List.nodup_append]
      refine ⟨hl, List.nodup_singleton _, ?_⟩
      rintro b hb - (_ | ⟨_, ⟨⟩⟩) rfl
      exact ha (by simpa using hb)
    · obtain ⟨j, b, hj, hnodup, hmem⟩ := ih hl
      have hlt : j < l.length := (List.getElem?_eq_some_iff.1 hj).1
      have htake : (l ++ [a]).take j = l.take j := List.take_append_of_le_length (Nat.le_of_lt hlt)
      rw [← htake] at hnodup hmem
      exact ⟨j, b, by rw [List.getElem?_append_left hlt, hj], hnodup, hmem⟩

section

variable {c : Closure} {args : List Value}

theorem map_name_zip (h : args.length = c.params.length) :
    (c.params.zip args).map (·.1.name) = c.params.map Ident.name := by
  have hfst : (c.params.zip args).map Prod.fst = c.params := List.map_fst_zip (Nat.le_of_eq h.symm)
  rw [← congrArg (List.map Ident.name) hfst, List.map_map]
  rfl

/-- Each parameter stands for the argument in its place. -/
theorem find?_bindingsOf_zip (hlen : args.length = c.params.length)
    (hnodup : (c.params.map Ident.name).Nodup) (x : String) (b : Binding) :
    (bindingsOf (c.params.zip args)).find? x = some b ↔ ∃ (j : Nat) (p : Ident) (v : Value),
      c.params[j]? = some p ∧ args[j]? = some v ∧ p.name = x ∧ b = ⟨v, false⟩ := by
  have hkeys : (bindingsOf (c.params.zip args)).keys.Nodup := by
    rw [keys_bindingsOf, map_name_zip hlen]
    exact hnodup
  rw [OrderedMap.find?_eq_some_iff hkeys]
  constructor
  · intro h
    obtain ⟨⟨p, v⟩, hp, heq⟩ := List.mem_map.1 h
    obtain ⟨hx, hb⟩ := Prod.mk.inj heq
    obtain ⟨j, hj⟩ := List.mem_iff_getElem?.1 hp
    obtain ⟨hparam, harg⟩ := List.getElem?_zip_eq_some.1 hj
    exact ⟨j, p, v, hparam, harg, hx, hb.symm⟩
  · rintro ⟨j, p, v, hparam, harg, rfl, rfl⟩
    have hj : (c.params.zip args)[j]? = some (p, v) := List.getElem?_zip_eq_some.2 ⟨hparam, harg⟩
    exact List.mem_map_of_mem (List.mem_iff_getElem?.2 ⟨j, hj⟩)

theorem entersCall_pushBound (hlen : args.length = c.params.length)
    (hnodup : (c.params.map Ident.name).Nodup) (σ : Store) :
    σ.EntersCall c args σ.scopes.size (σ.pushBound (some c.scope) (c.params.zip args)) where
  absent := by simp
  present := by simp [Store.pushBound]
  outer := by simp [Store.outer?, Store.pushBound]
  binding x b := by
    rw [binding?_pushBound]
    exact find?_bindingsOf_zip hlen hnodup x b
  no_constant x b h := by
    rw [binding?_pushBound] at h
    obtain ⟨-, -, v, -, -, -, rfl⟩ := (find?_bindingsOf_zip hlen hnodup x b).1 h
    rfl
  others t ht := by
    simp [Store.pushBound, Array.getElem?_push, ht]
  rest := rfl

variable (reg : Registry) (run : ScopeId → Stmt → Eval Value) (f : Expr) (σ : Store)

theorem apply_of_length_ne (h : args.length ≠ c.params.length) :
    apply reg run f (.function c) args σ =
      .error (.raised (.wrongArgumentCount f.render (toString c.params.length) args.length)) σ := by
  rw [apply, if_neg h]
  rfl

theorem apply_of_length_eq (h : args.length = c.params.length) :
    apply reg run f (.function c) args σ = (do
      bindAll σ.scopes.size (c.params.zip args)
      endCall (sequence (run σ.scopes.size) c.body.stmts)) (σ.pushBound (some c.scope) []) := by
  rw [apply, if_pos h]
  rfl

theorem apply_of_nodup (hlen : args.length = c.params.length)
    (hnodup : (c.params.map Ident.name).Nodup) :
    apply reg run f (.function c) args σ =
      endCall (sequence (run σ.scopes.size) c.body.stmts)
        (σ.pushBound (some c.scope) (c.params.zip args)) := by
  have hbind : bindAll σ.scopes.size (c.params.zip args) (σ.pushBound (some c.scope) []) =
      .ok () (σ.pushBound (some c.scope) (c.params.zip args)) := by
    apply bindAll_pushBound
    rw [List.nil_append, map_name_zip hlen]
    exact hnodup
  rw [apply_of_length_eq reg run f σ hlen, Run.bind_apply, hbind]

theorem apply_of_repeated (hlen : args.length = c.params.length) {j : Nat} {p : Ident}
    (hj : c.params[j]? = some p) (hnodup : ((c.params.take j).map Ident.name).Nodup)
    (hmem : p.name ∈ (c.params.take j).map Ident.name) :
    apply reg run f (.function c) args σ = .error (.raised (.alreadyBound p.name))
      (σ.pushBound (some c.scope) ((c.params.zip args).take j)) := by
  have hlt : j < c.params.length := (List.getElem?_eq_some_iff.1 hj).1
  have hzip : (c.params.zip args)[j]? = some (p, args[j]) :=
    List.getElem?_zip_eq_some.2 ⟨hj, List.getElem?_eq_getElem (hlen ▸ hlt)⟩
  have hsplit : c.params.zip args = (c.params.zip args).take j ++
      (p, args[j]) :: (c.params.zip args).drop (j + 1) := by
    obtain ⟨hj', hget⟩ := List.getElem?_eq_some_iff.1 hzip
    rw [← hget, ← List.drop_eq_getElem_cons hj', List.take_append_drop]
  have hnames : ((c.params.zip args).take j).map (·.1.name) = (c.params.take j).map Ident.name := by
    rw [List.map_take, map_name_zip hlen, ← List.map_take]
  have hbind : bindAll σ.scopes.size (c.params.zip args) (σ.pushBound (some c.scope) []) =
      .error (.raised (.alreadyBound p.name))
        (σ.pushBound (some c.scope) ((c.params.zip args).take j)) := by
    rw [congrArg (bindAll σ.scopes.size) hsplit]
    apply bindAll_pushBound_of_mem
    · rw [hnames]
      exact hnodup
    · rw [hnames]
      exact hmem
  rw [apply_of_length_eq reg run f σ hlen, Run.bind_apply, hbind]

end

/-! ## Scopes of calls -/

/-- The native takes no scope away, however it ends. -/
def Native.KeepsScopes (native : Native) : Prop :=
  ∀ args, Alters (fun σ τ => σ.scopes.size ≤ τ.scopes.size) (native args)

theorem Registry.keepsScopes_standard : Registry.standard.Every Native.KeepsScopes :=
  Registry.scopeless_standard.mono fun _ h args =>
    (h args).spares.mono fun hsame => Nat.le_of_eq (congrArg Array.size hsame.symm)

namespace Machine

/-- There are never fewer scopes. -/
def growing : Invariant where
  store _ := True
  scope _ _ := True
  value _ _ := True
  change σ τ := σ.scopes.size ≤ τ.scopes.size

theorem growing_kept : growing.Kept where
  refl _ := Nat.le_refl _
  trans := Nat.le_trans
  scope_mono _ _ := trivial
  value_mono _ _ := trivial
  integer _ := trivial
  string _ := trivial
  bool _ := trivial
  null := trivial
  native _ := trivial
  function := ⟨fun _ => trivial, fun _ => trivial⟩
  loop _ := trivial
  returned _ := trivial
  outer _ _ _ := trivial
  binding _ _ _ := trivial
  item _ _ _ := trivial
  entry _ _ _ := trivial
  bind _ _ _ _ := ⟨trivial, by simp [growing, Store.bind]⟩
  openScope _ _ := ⟨⟨trivial, by simp [growing]⟩, trivial⟩
  newArray _ _ := ⟨⟨trivial, Nat.le_refl _⟩, trivial⟩
  newHash _ _ := ⟨⟨trivial, Nat.le_refl _⟩, trivial⟩
  modifyItems _ _ _ := ⟨trivial, Nat.le_refl _⟩
  modifyPairs _ _ _ := ⟨trivial, Nat.le_refl _⟩
  rest _ _ _ := ⟨trivial, Nat.le_refl _⟩

theorem answers_of_keepsScopes {native : Native} (h : native.KeepsScopes) :
    growing.Answers native := by
  intro args σ _ _
  have hcall : Alters (fun σ τ => σ.scopes.size ≤ τ.scopes.size)
      (raising (native args) >>= ofNative) := by
    apply Alters.bind (R := fun σ τ => σ.scopes.size ≤ τ.scopes.size) Nat.le_trans
    · exact (h args).mapError _
    · intro v
      exact (scopeless_ofNative v).spares.mono fun hsame =>
        Nat.le_of_eq (congrArg Array.size hsame.symm)
  cases ho : (raising (native args) >>= ofNative) σ with
  | ok v τ => exact ⟨⟨trivial, hcall.ok ho⟩, trivial⟩
  | error sig τ => exact ⟨⟨trivial, hcall.error ho⟩, fun _ _ => trivial, fun _ _ => trivial⟩
  | outOfFuel => trivial

theorem size_scopes_later {reg : Registry} (hreg : reg.Every Native.KeepsScopes) {env : ScopeId}
    {c d : Config} (h : Later reg env c d) : c.store.scopes.size ≤ d.store.scopes.size := by
  have hc : growing.Holds c :=
    ⟨trivial, ⟨fun _ _ => trivial, fun _ _ => trivial⟩,
      fun _ _ => ⟨fun _ _ => trivial, fun _ _ => trivial⟩⟩
  have hanswers : reg.Every growing.Answers := hreg.mono fun _ => answers_of_keepsScopes
  exact (hc.later growing_kept hanswers trivial h).2

/-- The step from `c` to `d` begins the call of a function in the scope `s`. -/
def StepsIntoCall (reg : Registry) (c d : Config) (s : ScopeId) : Prop :=
  ∃ env f callee args, c.control = .collect env (.call f (.function callee)) args [] ∧
    step reg c = some d ∧ d.control = .enter s (callee.params.zip args) callee.body.stmts

/-- A call takes the number of scopes for its scope. -/
theorem StepsIntoCall.scope_eq {reg : Registry} {c d : Config} {s : ScopeId}
    (h : StepsIntoCall reg c d s) :
    s = c.store.scopes.size ∧ d.store.scopes.size = c.store.scopes.size + 1 := by
  obtain ⟨env, f, callee, args, hc, hstep, hd⟩ := h
  obtain ⟨k, K, σ⟩ := c
  subst hc
  have hcall : call reg f (.function callee) args K σ = d := Option.some.inj hstep
  rw [call] at hcall
  by_cases hlen : args.length = callee.params.length
  · rw [if_pos hlen] at hcall
    subst hcall
    cases hd
    exact ⟨rfl, Array.size_push _⟩
  · rw [if_neg hlen] at hcall
    subst hcall
    cases hd

end Machine

/-- **A call binds the parameters, and nothing else,** in a scope of its own. -/
theorem call_binds_parameters {reg : Registry} (hreg : reg.Every Native.KeepsScopes) :
    (∀ (f : Expr) (c : Closure) (args : List Value) (σ : Store),
      (args.length ≠ c.params.length → ∀ run, apply reg run f (.function c) args σ =
        .error (.raised (.wrongArgumentCount f.render (toString c.params.length) args.length)) σ) ∧
      (args.length = c.params.length → ¬ (c.params.map Ident.name).Nodup →
        ∃ j p, c.params[j]? = some p ∧ ((c.params.take j).map Ident.name).Nodup ∧
          p.name ∈ (c.params.take j).map Ident.name ∧
          ∀ run, apply reg run f (.function c) args σ = .error (.raised (.alreadyBound p.name))
            (σ.pushBound (some c.scope) ((c.params.zip args).take j))) ∧
      (args.length = c.params.length → (c.params.map Ident.name).Nodup →
        ∃ s τ, σ.EntersCall c args s τ ∧ ∀ run,
          EndsCall (sequence (run s) c.body.stmts τ) (apply reg run f (.function c) args σ))) ∧
    ∀ env c d s c' d' s', StepsIntoCall reg c d s → Later reg env d c' →
      StepsIntoCall reg c' d' s' → s < s' := by
  refine ⟨fun f c args σ => ⟨fun hlen run => ?_, fun hlen hrepeated => ?_,
    fun hlen hnodup => ?_⟩, fun env c d s c' d' s' hcall hlater hcall' => ?_⟩
  · exact apply_of_length_ne reg run f σ hlen
  · obtain ⟨j, p, hj, hnodup, hmem⟩ := exists_first_repeated Ident.name hrepeated
    exact ⟨j, p, hj, hnodup, hmem, fun run => apply_of_repeated reg run f σ hlen hj hnodup hmem⟩
  · refine ⟨_, _, entersCall_pushBound hlen hnodup σ, fun run => ?_⟩
    rw [apply_of_nodup reg run f σ hlen hnodup]
    exact endsCall_endCall _ _
  · obtain ⟨rfl, hd⟩ := hcall.scope_eq
    obtain ⟨rfl, -⟩ := hcall'.scope_eq
    have hsize := size_scopes_later hreg hlater
    rw [hd] at hsize
    exact hsize

/-- A function with the parameters `a` and `b` calls another function. The first call, with `1` and
`2`, and the one inside it have different scopes. -/
theorem nested_calls_in_two_scopes :
    ∃ (c : Closure) (σ τ : Store) (s : ScopeId), σ.EntersCall c [.integer 1, .integer 2] s τ ∧
      τ.binding? s "a" = some ⟨.integer 1, false⟩ ∧ τ.binding? s "b" = some ⟨.integer 2, false⟩ ∧
        ∃ call d nested e s' s'', StepsIntoCall .standard call d s' ∧ Later .standard 0 d nested ∧
          StepsIntoCall .standard nested e s'' ∧ s' < s'' := by
  let t : Token := ⟨.ident, "", ⟨1, 1⟩⟩
  let f : Expr := .fn t [] (.mk t [])
  let body : Block := .mk t [.expr t (.call t f [])]
  let c : Closure := ⟨0, [⟨t, "a"⟩, ⟨t, "b"⟩], body, 0⟩
  let σ : Store := { Store.empty (.console #[]) with scopes := #[⟨.empty, none⟩], stamps := 1 }
  let τ : Store := σ.pushBound (some c.scope) [(⟨t, "a"⟩, .integer 1), (⟨t, "b"⟩, .integer 2)]
  let args : List Value := [.integer 1, .integer 2]
  let call : Config := ⟨.collect 0 (.call f (.function c)) args [], [], σ⟩
  let nested : Config := ⟨.collect 1 (.call f (.function ⟨1, [], .mk t [], 1⟩)) [] [],
    [.statement 1 [], .body], { τ with stamps := 2 }⟩
  obtain ⟨hcalls, hscopes⟩ := call_binds_parameters Registry.keepsScopes_standard
  obtain ⟨-, -, henter⟩ := hcalls f c args σ
  obtain ⟨s, ρ, henters, -⟩ := henter rfl (by decide)
  have hcall : ∃ d, StepsIntoCall .standard call d 1 ∧ Later .standard 0 d nested := by
    refine ⟨_, ⟨0, f, c, args, rfl, rfl, rfl⟩, ?_⟩
    -- Two steps bind the parameters, six come to the call inside.
    exact .step (.step (.step (.step (.step (.step (.step (.step .refl
      rfl) rfl) rfl) rfl) rfl) rfl) rfl) rfl
  have hnested : ∃ e, StepsIntoCall .standard nested e 2 := ⟨_, ⟨1, f, _, [], rfl, rfl, rfl⟩⟩
  obtain ⟨d, hd, hlater⟩ := hcall
  obtain ⟨e, he⟩ := hnested
  exact ⟨c, σ, ρ, s, henters, (henters.binding "a" _).2 ⟨0, _, _, rfl, rfl, rfl, rfl⟩,
    (henters.binding "b" _).2 ⟨1, _, _, rfl, rfl, rfl, rfl⟩, call, d, nested, e, 1, 2, hd, hlater,
    he, hscopes 0 call d 1 nested e 2 hd hlater he⟩

end Scriptlet
