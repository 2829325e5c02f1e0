import Scriptlet.Proofs.Isolation

/-!
# Constants are for good

**Theorem (`constant_forever`).** Let programs be run one after the other with the standard
natives, and let a `const` succeed at some point, in some scope. Then at every later point that
scope binds the name to the very value that was declared, as a constant. A `let` of the name in
that scope fails at every later point because the name is bound, a `const` because it is a
constant, and so does every assignment that gets to that binding; the failure leaves the store as
it was.

That a constant stays is an invariant about change alone (`constants`): of the three operations
that bind a name, each asks first whether the name is a constant of the scope it is about to
write to. That the `const` bound the name in the first place needs the scope to exist. It does,
because in a store without dangling references the scopes in use are in the store (`confined`).
-/

namespace Scriptlet

/-- No reference dangles. -/
def Store.Sound (σ : Store) : Prop := ∀ l m, σ.Points l m → σ.Has m

theorem sound_new (reg : Registry) (output : Output) : (Session.new reg output).store.Sound := by
  intro l m h
  cases h with
  | @outer s o ho =>
    obtain ⟨scope, hs, ho⟩ := Option.bind_eq_some_iff.1 ho
    obtain rfl := Array.mem_singleton.1 (Array.mem_of_getElem? hs)
    cases ho
  | @binding s x b _ hb _ =>
    obtain ⟨scope, hs, hb⟩ := Option.bind_eq_some_iff.1 hb
    obtain rfl := Array.mem_singleton.1 (Array.mem_of_getElem? hs)
    cases hb
  | item hv _ => cases Array.not_mem_empty _ hv
  | entry hv _ => cases hv

namespace Machine

open Eval

/-! ## Names bound by a step -/

section

variable {reg : Registry} {s o : ScopeId} {x : Ident} {v : Value} {K : List Frame} {σ : Store}

theorem step_const :
    step reg ⟨.done v, .declare s true x :: K, σ⟩ =
      if (σ.binding? s x.name).any Binding.constant then
        some ⟨.unwind (.raised (.constantReassigned x.name)), K, σ⟩
      else some ⟨.done .null, K, σ.bind s x.name ⟨v, true⟩⟩ := by
  by_cases h : (σ.binding? s x.name).any Binding.constant
  · simp [step, resume, perform, raising, Run.mapError, Store.defineConstant, h]
  · simp [step, resume, perform, raising, Run.mapError, Store.defineConstant, h]

theorem step_let {b : Binding} (h : σ.binding? s x.name = some b) :
    step reg ⟨.done v, .declare s false x :: K, σ⟩ =
      some ⟨.unwind (.raised (.alreadyBound x.name)), K, σ⟩ := by
  simp [step, resume, perform, raising, Run.mapError, Store.define, h]

theorem step_assign (ho : σ.owner? s x.name = some o)
    (h : (σ.binding? o x.name).any Binding.constant) :
    step reg ⟨.done v, .assign s x :: K, σ⟩ =
      some ⟨.unwind (.raised (.constantReassigned x.name)), K, σ⟩ := by
  simp [step, resume, perform, raising, Run.mapError, Store.reassign, ho, h]

end

/-! ## Constants stay -/

/-- Every constant keeps its value and stays a constant. -/
def constants : Invariant where
  store _ := True
  scope _ _ := True
  value _ _ := True
  change σ τ := ∀ s x v, σ.binding? s x = some ⟨v, true⟩ → τ.binding? s x = some ⟨v, true⟩

theorem constants_kept : constants.Kept where
  refl _ _ _ _ h := h
  trans h h' s x v hv := h' s x v (h s x v hv)
  scope_mono _ _ := trivial
  value_mono _ _ := trivial
  integer _ := trivial
  string _ := trivial
  bool _ := trivial
  null := trivial
  native _ := trivial
  function := ⟨fun _ => trivial, fun _ => trivial⟩
  loop _ := trivial
  returned _ := trivial
  outer _ _ _ := trivial
  binding _ _ _ := trivial
  item _ _ _ := trivial
  entry _ _ _ := trivial
  bind {σ s x b} _ _ _ hb := by
    refine ⟨trivial, fun t y v hv => ?_⟩
    rw [Store.binding?_bind]
    split
    · rename_i h
      obtain ⟨rfl, rfl, -⟩ := h
      rw [hv] at hb
      cases hb
    · exact hv
  openScope _ _ := by
    refine ⟨⟨trivial, fun t y v hv => ?_⟩, trivial⟩
    rw [Store.binding?_pushScope]
    exact hv
  newArray _ _ := ⟨⟨trivial, fun _ _ _ hv => hv⟩, trivial⟩
  newHash _ _ := ⟨⟨trivial, fun _ _ _ hv => hv⟩, trivial⟩
  modifyItems _ _ _ := ⟨trivial, fun _ _ _ hv => hv⟩
  modifyPairs _ _ _ := ⟨trivial, fun _ _ _ hv => hv⟩
  rest _ _ _ := ⟨trivial, fun _ _ _ hv => hv⟩

/-- The constants at one point of a run are constants at every later one. -/
theorem constants_later {env : ScopeId} {c d : Config} (h : Later .standard env c d) :
    constants.change c.store d.store := by
  have hc : constants.Holds c :=
    ⟨trivial, ⟨fun _ _ => trivial, fun _ _ => trivial⟩,
      fun _ _ => ⟨fun _ _ => trivial, fun _ _ => trivial⟩⟩
  exact (hc.later constants_kept constants_kept.answers_standard trivial h).2

/-- In runs from a store without dangling references, the scopes in use exist. -/
theorem has_scope_later {σ : Store} {env s : ScopeId} {p : Program} {c : Config} {F : Frame}
    (hσ : σ.Sound) (henv : σ.Has (.scope env)) (h : Later .standard env (begin p env σ) c)
    (hF : F ∈ c.stack) (hs : s ∈ F.scopes) : c.store.Has (.scope s) := by
  have hI := confined_kept σ σ.Has
  have hstore : (confined σ σ.Has).store σ :=
    ⟨Store.Grows.refl σ, fun l m _ hp => Or.inl (hσ l m hp), fun l _ _ => Store.Same.refl σ l⟩
  obtain ⟨hc, hgrows⟩ := (hI.holds_begin hstore (Or.inl henv) p).later hI hI.answers_standard
    (Or.inl henv) h
  rcases (hc.stack F hF).1 s hs with hold | hnew
  · exact hgrows _ hold
  · exact hnew.2

/-- **Constants are for good.** -/
theorem constant_forever {σ ρ τ : Store} {env s : ScopeId} {p : Program} {x : Ident} {v : Value}
    {K : List Frame} {d : Config} (hσ : σ.Sound) (henv : env < σ.scopes.size)
    (hc : Later .standard env (begin p env σ) ⟨.done v, .declare s true x :: K, ρ⟩)
    (hconst : step .standard ⟨.done v, .declare s true x :: K, ρ⟩ = some ⟨.done .null, K, τ⟩)
    (hd : Later .standard env ⟨.done .null, K, τ⟩ d) :
    d.store.binding? s x.name = some ⟨v, true⟩ ∧
      ∀ (y : Ident) (w : Value) (K' : List Frame), y.name = x.name →
        step .standard ⟨.done w, .declare s false y :: K', d.store⟩ =
            some ⟨.unwind (.raised (.alreadyBound y.name)), K', d.store⟩ ∧
          step .standard ⟨.done w, .declare s true y :: K', d.store⟩ =
            some ⟨.unwind (.raised (.constantReassigned y.name)), K', d.store⟩ ∧
          ∀ t, d.store.owner? t y.name = some s →
            step .standard ⟨.done w, .assign t y :: K', d.store⟩ =
              some ⟨.unwind (.raised (.constantReassigned y.name)), K', d.store⟩ := by
  have hs : s < ρ.scopes.size :=
    has_scope_later hσ henv hc List.mem_cons_self List.mem_cons_self
  have hbound : τ.binding? s x.name = some ⟨v, true⟩ := by
    rw [step_const] at hconst
    split at hconst
    · cases hconst
    · cases hconst
      rw [Store.binding?_bind, if_pos ⟨rfl, rfl, hs⟩]
  have hlater : d.store.binding? s x.name = some ⟨v, true⟩ :=
    constants_later hd s x.name v hbound
  refine ⟨hlater, fun y w K' hy => ?_⟩
  rw [← hy] at hlater
  have hconstant : (d.store.binding? s y.name).any Binding.constant := by
    rw [hlater]
    rfl
  refine ⟨step_let hlater, ?_, fun t ht => step_assign ht hconstant⟩
  rw [step_const, if_pos hconstant]

/-- `const x = 1` in a new session: the next program begins with the constant. -/
theorem constant_in_next_program :
    ∃ d : Config, d.control = .sequence 0 .null [] ∧ d.stack = [] ∧
      d.store.binding? 0 "x" = some ⟨.integer 1, true⟩ := by
  let σ : Store := (Session.new .standard (.console #[])).store
  let x : Ident := ⟨⟨.ident, "x", ⟨1, 7⟩⟩, "x"⟩
  let p : Program := ⟨[.declare ⟨.constKw, "const", ⟨1, 1⟩⟩ true x (.int ⟨.int, "1", ⟨1, 11⟩⟩ 1)]⟩
  let τ : Store := σ.bind 0 "x" ⟨.integer 1, true⟩
  have hc : Later .standard 0 (begin p 0 σ)
      ⟨.done (.integer 1), .declare 0 true x :: [.statement 0 []], σ⟩ :=
    .step (.step (.step .refl rfl) rfl) rfl
  have hend : Later .standard 0 ⟨.done .null, [.statement 0 []], τ⟩ ⟨.done .null, [], τ⟩ :=
    .step (.step .refl rfl) rfl
  have h := constant_forever (sound_new .standard (.console #[])) Nat.one_pos hc rfl
    (.next ⟨[]⟩ hend rfl)
  exact ⟨begin ⟨[]⟩ 0 τ, rfl, rfl, h.1⟩

end Machine

end Scriptlet
