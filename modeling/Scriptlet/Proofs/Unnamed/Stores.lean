import Scriptlet.Proofs.Scopeless

/-!
# One binding more

`Adds S x b σ σ'` says that the store `σ'` is `σ` with one binding more, that of `x` to `b` in the
scope `S`. To take it out of `σ'` (`unbind`) gives `σ` back, to the order in which names are listed.

**Lemma.** Operations on names other than `x` do the same to both stores, and so does every
computation that does not look at scopes (`Scopeless.alike`).

The two stores have the same scopes outside of each other, and bind every other name to the same.
So a walk along a chain for another name stops at the same scope, also if it passes `S`.
-/

namespace Scriptlet

/-- Both ended in the same way, with the same value or for the same reason, and left stores that are
related by `R`. -/
inductive Outcome.Alike {σ ε α : Type} (R : σ → σ → Prop) :
    Outcome σ ε α → Outcome σ ε α → Prop
  | ok {a : α} {s t : σ} : R s t → Alike R (.ok a s) (.ok a t)
  | error {e : ε} {s t : σ} : R s t → Alike R (.error e s) (.error e t)
  | outOfFuel : Alike R .outOfFuel .outOfFuel

namespace Outcome.Alike

variable {σ ε ε' α β : Type} {R : σ → σ → Prop} {x : Run σ ε α} {s t : σ}

/-- What follows is the same code, and begins with the same value. -/
theorem bind {f : α → Run σ ε β} (hx : Alike R (x s) (x t))
    (hf : ∀ a s' t', x s = .ok a s' → R s' t' → Alike R (f a s') (f a t')) :
    Alike R ((x >>= f) s) ((x >>= f) t) := by
  rw [Run.bind_apply, Run.bind_apply]
  generalize hs : x s = o, x t = o' at hx
  cases hx with
  | ok hR => exact hf _ _ _ hs hR
  | error hR => exact .error hR
  | outOfFuel => exact .outOfFuel

theorem mapError (g : ε → ε') (hx : Alike R (x s) (x t)) :
    Alike R (Run.mapError g x s) (Run.mapError g x t) := by
  unfold Run.mapError
  generalize x s = o, x t = o' at hx
  cases hx with
  | ok hR => exact .ok hR
  | error hR => exact .error hR
  | outOfFuel => exact .outOfFuel

end Outcome.Alike

namespace Store

/-- The store without the binding of `x` in the scope `s`. -/
def unbind (σ : Store) (s : ScopeId) (x : String) : Store :=
  { σ with
    scopes := σ.scopes.modify s fun scope => { scope with bindings := scope.bindings.erase x } }

/-- `σ'` is `σ` and binds `x` to `b` in the scope `S` besides. -/
structure Adds (S : ScopeId) (x : String) (b : Binding) (σ σ' : Store) : Prop where
  bound : σ'.binding? S x = some b
  rest : σ'.unbind S x = σ

variable {σ σ' : Store} {S s : ScopeId} {x y : String} {b : Binding}

theorem binding?_unbind (σ : Store) (S s : ScopeId) (x y : String) :
    (σ.unbind S x).binding? s y = if S = s ∧ x = y then none else σ.binding? s y := by
  unfold unbind binding?
  simp only [Array.getElem?_modify]
  by_cases hs : S = s
  · subst hs
    cases σ.scopes[S]? <;> simp [OrderedMap.find?_erase]
  · simp [hs]

theorem outer?_unbind (σ : Store) (S s : ScopeId) (x : String) :
    (σ.unbind S x).outer? s = σ.outer? s := by
  unfold unbind outer?
  simp only [Array.getElem?_modify]
  by_cases hs : S = s
  · subst hs
    cases σ.scopes[S]? <;> simp
  · simp [hs]

theorem size_unbind (σ : Store) (S : ScopeId) (x : String) :
    (σ.unbind S x).scopes.size = σ.scopes.size := Array.size_modify

/-- Another name is bound all the same. -/
theorem bind_unbind (σ : Store) (S s : ScopeId) {x y : String} (c : Binding) (h : y ≠ x) :
    (σ.bind s y c).unbind S x = (σ.unbind S x).bind s y c := by
  have hscopes : ((σ.bind s y c).unbind S x).scopes = ((σ.unbind S x).bind s y c).scopes := by
    refine Array.ext_getElem? fun i => ?_
    simp only [bind, unbind, Array.getElem?_modify]
    by_cases hS : S = i
    · by_cases hs : s = i
      · cases σ.scopes[i]? <;> simp [hS, hs, OrderedMap.erase_insert_of_ne _ _ h]
      · simp [hS, hs]
    · simp [hS]
  exact congrArg (fun scopes => { σ with scopes }) hscopes

theorem pushScope_unbind (σ : Store) {S : ScopeId} (x : String) (scope : Scope)
    (h : S < σ.scopes.size) :
    ({ σ with scopes := σ.scopes.push scope } : Store).unbind S x =
      { σ.unbind S x with scopes := (σ.unbind S x).scopes.push scope } := by
  have hscopes : (({ σ with scopes := σ.scopes.push scope } : Store).unbind S x).scopes =
      (σ.unbind S x).scopes.push scope := by
    refine Array.ext_getElem? fun i => ?_
    have hne : S ≠ σ.scopes.size := Nat.ne_of_lt h
    simp only [unbind, Array.getElem?_modify, Array.getElem?_push, Array.size_modify]
    by_cases hi : i = σ.scopes.size
    · simp [hi, hne]
    · simp [hi]
  exact congrArg (fun scopes => { σ with scopes }) hscopes

/-- A name that is bound in a scope which did not bind it. -/
theorem adds_bind (h : σ.binding? S x = none) (hS : S < σ.scopes.size) :
    Adds S x b σ (σ.bind S x b) where
  bound := by rw [binding?_bind, if_pos ⟨rfl, rfl, hS⟩]
  rest := by
    have hscopes : ((σ.bind S x b).unbind S x).scopes = σ.scopes := by
      refine Array.ext_getElem? fun i => ?_
      simp only [bind, unbind, Array.getElem?_modify]
      by_cases hi : S = i
      · subst hi
        rw [binding?, Array.getElem?_eq_getElem hS, Option.bind_some] at h
        simp [Array.getElem?_eq_getElem hS, OrderedMap.erase_insert_self _ _ h]
      · simp [hi]
    exact congrArg (fun scopes => { σ with scopes }) hscopes

namespace Adds

theorem size (h : Adds S x b σ σ') : σ.scopes.size = σ'.scopes.size := by
  rw [← h.rest, size_unbind]

theorem binding? (h : Adds S x b σ σ') (s : ScopeId) (hy : y ≠ x) :
    σ.binding? s y = σ'.binding? s y := by
  rw [← h.rest, binding?_unbind, if_neg fun hat => hy hat.2.symm]

theorem owner? (h : Adds S x b σ σ') (s : ScopeId) (hy : y ≠ x) :
    σ.owner? s y = σ'.owner? s y :=
  owner?_congr (fun t => by rw [h.binding? t hy])
    (fun t => by rw [← h.rest, outer?_unbind]) s

theorem lookup? (h : Adds S x b σ σ') (s : ScopeId) (hy : y ≠ x) :
    σ.lookup? s y = σ'.lookup? s y := by
  rw [Store.lookup?, Store.lookup?, h.owner? s hy]
  exact congrArg _ (funext fun o => h.binding? o hy)

theorem bind (h : Adds S x b σ σ') (s : ScopeId) (c : Binding) (hy : y ≠ x) :
    Adds S x b (σ.bind s y c) (σ'.bind s y c) where
  bound := by rw [binding?_bind, if_neg fun hat => hy hat.2.1, h.bound]
  rest := by rw [bind_unbind σ' S s c hy, h.rest]

theorem pushScope (h : Adds S x b σ σ') (outer : Option ScopeId) :
    Adds S x b { σ with scopes := σ.scopes.push ⟨.empty, outer⟩ }
      { σ' with scopes := σ'.scopes.push ⟨.empty, outer⟩ } where
  bound := by rw [binding?_pushScope, h.bound]
  rest := by rw [pushScope_unbind σ' x _ (lt_size_of_binding? h.bound), h.rest]

end Adds

/-! ## Operations -/

variable {v : Value} {ε α : Type}

theorem Adds.define (h : Adds S x b σ σ') (hy : y ≠ x) :
    Outcome.Alike (Adds S x b) (Store.define s y v σ) (Store.define s y v σ') := by
  unfold Store.define
  rw [h.binding? s hy]
  cases σ'.binding? s y with
  | some c => exact .error h
  | none => exact .ok (h.bind s _ hy)

theorem Adds.defineConstant (h : Adds S x b σ σ') (hy : y ≠ x) :
    Outcome.Alike (Adds S x b) (Store.defineConstant s y v σ) (Store.defineConstant s y v σ') := by
  unfold Store.defineConstant
  rw [h.binding? s hy]
  by_cases hb : (σ'.binding? s y).any Binding.constant
  · rw [if_pos hb, if_pos hb]
    exact .error h
  · rw [if_neg hb, if_neg hb]
    exact .ok (h.bind s _ hy)

theorem Adds.reassign (h : Adds S x b σ σ') (hy : y ≠ x) :
    Outcome.Alike (Adds S x b) (Store.reassign s y v σ) (Store.reassign s y v σ') := by
  unfold Store.reassign
  rw [h.owner? s hy]
  cases σ'.owner? s y with
  | none => exact .error h
  | some o =>
    dsimp only
    rw [h.binding? o hy]
    by_cases hb : (σ'.binding? o y).any Binding.constant
    · rw [if_pos hb, if_pos hb]
      exact .error h
    · rw [if_neg hb, if_neg hb]
      exact .ok (h.bind o _ hy)

theorem Adds.openScope (h : Adds S x b σ σ') (outer : Option ScopeId) :
    Outcome.Alike (Adds S x b) ((Store.openScope outer : Run Store ε ScopeId) σ)
      (Store.openScope outer σ') := by
  unfold Store.openScope
  rw [h.size]
  exact .ok (h.pushScope outer)

end Store

open Store

variable {σ σ' : Store} {S : ScopeId} {x : String} {b : Binding} {ε α : Type}

/-- What does not look at scopes does not see the binding. -/
theorem Scopeless.alike {y : Run Store ε α} (hy : Scopeless y) (h : Adds S x b σ σ') :
    Outcome.Alike (Adds S x b) (y σ) (y σ') := by
  have hσ : σ = σ'.withScopes σ.scopes := by
    rw [← h.rest]
    rfl
  have hadds : ∀ τ' : Store, τ'.scopes = σ'.scopes →
      Adds S x b (τ'.withScopes σ.scopes) τ' := by
    intro τ' hτ'
    refine ⟨?_, ?_⟩
    · rw [Store.binding?, hτ']
      exact h.bound
    · rw [← h.rest, unbind, hτ']
      rfl
  rw [hσ, hy σ' σ.scopes]
  cases hyσ' : y σ' with
  | ok a τ' => exact .ok (hadds τ' (hy.ok hyσ'))
  | error e τ' => exact .error (hadds τ' (hy.error hyσ'))
  | outOfFuel => exact .outOfFuel

end Scriptlet
