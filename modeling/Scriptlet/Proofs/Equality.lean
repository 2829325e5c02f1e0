import Scriptlet.Proofs.Scopeless

/-!
# Equality

**Theorem (`equality_coherent`).** Where it has an answer, `==` is reflexive, symmetric and
transitive, and `!=` has the opposite answer; elsewhere both fail in one way. Keys of one type are
equal if they are one key, and collections if they are one collection. So whatever is done to the
contents of collections, comparisons of the same values give what they gave.

Which values can be compared is a matter of their types alone (`ValueType.Comparable`), and it is
symmetric. Where it holds, the values that `same` takes for the same are equal
(`Value.same_iff_eq`). Of functions and loops that could not be said: two of them are the same if
they have one stamp.
-/

namespace Scriptlet

/-! ## What can be compared -/

namespace ValueType

/-- Values of these types can be asked if they are equal: `null` and any other, and two of one type
if it is that of a scalar or a collection. -/
def Comparable (s t : ValueType) : Prop :=
  s = .null ∨ t = .null ∨ s = t ∧ s ∈ [.integer, .string, .bool, .array, .hash]

variable {s t : ValueType}

instance : Decidable (s.Comparable t) := inferInstanceAs (Decidable (_ ∨ _))

theorem Comparable.symm (h : s.Comparable t) : t.Comparable s := by
  obtain rfl | rfl | ⟨rfl, h⟩ := h
  · simp [Comparable]
  · simp [Comparable]
  · simp [Comparable, h]

/-- No two types go by one name. -/
theorem name_inj : s.name = t.name ↔ s = t := by
  cases s <;> cases t <;> simp [name]

end ValueType

namespace Value

variable {a b c : Value}

theorem noOperator_eq (op : BinaryOp) (a b : Value) : noOperator op a b =
    if a.type.name = b.type.name then .unknownOperator a.type.name op.spelling b.type.name
    else .typeMismatch a.type.name op.spelling b.type.name := by
  simp only [noOperator, ValueType.name_inj]

/-- Integers are compared like other scalars, if by another way. -/
theorem binary_eq (a b : Value) : binary .eq a b =
    if a.type.Comparable b.type then .ok (.bool (a.same b)) else .error (noOperator .eq a b) := by
  cases a <;> cases b <;> simp [binary, comparable, arithmetic, same, ValueType.Comparable, type]

theorem binary_ne (a b : Value) : binary .ne a b =
    if a.type.Comparable b.type then .ok (.bool (!a.same b)) else .error (noOperator .ne a b) := by
  cases a <;> cases b <;> simp [binary, comparable, arithmetic, same, ValueType.Comparable, type]

/-- What can be compared is the same only as itself. -/
theorem same_iff_eq (h : a.type.Comparable b.type) : a.same b ↔ a = b := by
  cases a <;> cases b <;> simp_all [same, ValueType.Comparable, type]

theorem same_comm (h : a.type.Comparable b.type) : a.same b = b.same a := by
  rw [Bool.eq_iff_iff, same_iff_eq h, same_iff_eq h.symm, eq_comm]

theorem binary_eq_true_iff :
    binary .eq a b = .ok (.bool true) ↔ a.type.Comparable b.type ∧ a = b := by
  rw [binary_eq]
  by_cases h : a.type.Comparable b.type
  · simp [h, same_iff_eq h]
  · simp [h]

theorem binary_eq_self {v : Value} (h : binary .eq a a = .ok v) : v = .bool true := by
  rw [binary_eq] at h
  by_cases hc : a.type.Comparable a.type
  · have hsame : a.same a = true := (same_iff_eq hc).2 rfl
    rw [if_pos hc, hsame] at h
    cases h
    rfl
  · rw [if_neg hc] at h
    cases h

/-- `==` and `!=` succeed together, with opposite answers, or fail alike. -/
theorem equality_cases (a b : Value) :
    (a.type.Comparable b.type ∧
        ∃ same : Bool, binary .eq a b = .ok (.bool same) ∧ binary .ne a b = .ok (.bool !same)) ∨
      ¬ a.type.Comparable b.type ∧
        ∀ op, op = .eq ∨ op = .ne → binary op a b = .error (noOperator op a b) := by
  by_cases h : a.type.Comparable b.type
  · left
    exact ⟨h, a.same b, by rw [binary_eq, if_pos h], by rw [binary_ne, if_pos h]⟩
  · right
    refine ⟨h, ?_⟩
    rintro op (rfl | rfl)
    · rw [binary_eq, if_neg h]
    · rw [binary_ne, if_neg h]

theorem equality_ok_swap {op : BinaryOp} (hop : op = .eq ∨ op = .ne) {v : Value}
    (h : binary op a b = .ok v) : binary op b a = .ok v := by
  by_cases hc : a.type.Comparable b.type
  · obtain rfl | rfl := hop
    · rw [binary_eq, if_pos hc] at h
      rw [binary_eq, if_pos hc.symm, ← same_comm hc, h]
    · rw [binary_ne, if_pos hc] at h
      rw [binary_ne, if_pos hc.symm, ← same_comm hc, h]
  · obtain rfl | rfl := hop
    · rw [binary_eq, if_neg hc] at h
      cases h
    · rw [binary_ne, if_neg hc] at h
      cases h

/-- Two values of one type that can be keys are equal if they are one key. -/
theorem binary_eq_keys {k l : HashKey} (htype : a.type = b.type) (hk : a.key = .ok k)
    (hl : b.key = .ok l) : binary .eq a b = .ok (.bool (k = l)) := by
  obtain rfl := key_eq_ok_iff.1 hk
  obtain rfl := key_eq_ok_iff.1 hl
  rw [binary_eq]
  cases k <;> cases l <;> simp_all [HashKey.value, type, ValueType.Comparable, same]

end Value

/-! ## What comparisons do not look at -/

/-- The store is what calls of `append` and `remove` can make of `σ`. -/
inductive Mutated (σ : Store) : Store → Prop
  | refl : Mutated σ σ
  | append {τ ρ : Store} {args : List Value} {v : Value} :
      Mutated σ τ → Native.append args τ = .ok v ρ → Mutated σ ρ
  | remove {τ ρ : Store} {args : List Value} {v : Value} :
      Mutated σ τ → Native.remove args τ = .ok v ρ → Mutated σ ρ

variable {σ τ ρ : Store}

theorem Mutated.scopes_eq (h : Mutated σ τ) : τ.scopes = σ.scopes := by
  induction h with
  | refl => rfl
  | append _ hcall ih => rw [(Native.scopeless_append _).ok hcall, ih]
  | remove _ hcall ih => rw [(Native.scopeless_remove _).ok hcall, ih]

/-- What a name stands for is a matter of the scopes. -/
theorem Store.lookup?_of_scopes (h : τ.scopes = σ.scopes) (s : ScopeId) (x : String) :
    τ.lookup? s x = σ.lookup? s x := by
  have hbinding : ∀ t, τ.binding? t x = σ.binding? t x := by
    intro t
    rw [binding?, binding?, h]
  have howner : τ.owner? s x = σ.owner? s x := by
    apply owner?_congr
    · intro t
      rw [hbinding]
    · intro t
      rw [outer?, outer?, h]
  rw [lookup?, lookup?, howner]
  simp only [hbinding]

namespace Eval

variable {reg : Registry} {n : Nat} {env : ScopeId} {a b : Value}

/-- An operator works on the values of its operands, whatever the store has come to be. -/
theorem eval_binary {l r : Expr} (hl : eval reg n env l σ = .ok a ρ)
    (hr : eval reg n env r ρ = .ok b τ) (t : Token) (op : BinaryOp) :
    eval reg (n + 1) env (.binary t op l r) σ = ofExcept (Value.binary op a b) τ := by
  rw [eval, Run.bind_apply, hl]
  show (eval reg n env r >>= fun w => ofExcept (Value.binary op a w)) ρ = _
  rw [Run.bind_apply, hr]

theorem eval_bound {x : Ident} {c : Binding} (h : σ.lookup? env x.name = some c) :
    eval reg (n + 1) env (.ident x) σ = .ok c.value σ := by
  rw [eval, name, Run.bind_apply, Run.read_apply, h]
  rfl

/-- Two names are compared as before when collections have been changed. -/
theorem eval_names_of_mutated {x y : Ident} {c d : Binding}
    (hx : σ.lookup? env x.name = some c) (hy : σ.lookup? env y.name = some d)
    (h : Mutated σ τ) (t : Token) (op : BinaryOp) :
    eval reg (n + 2) env (.binary t op (.ident x) (.ident y)) τ =
      ofExcept (Value.binary op c.value d.value) τ := by
  rw [← Store.lookup?_of_scopes h.scopes_eq] at hx hy
  exact eval_binary (eval_bound hx) (eval_bound hy) t op

end Eval

namespace Value

open Eval

/-- **Equality is coherent.** -/
theorem equality_coherent (a b c : Value) :
    -- `==` and `!=` have opposite answers, or fail in one way.
    ((a.type.Comparable b.type ∧
        ∃ same : Bool, binary .eq a b = .ok (.bool same) ∧ binary .ne a b = .ok (.bool !same)) ∨
      ¬ a.type.Comparable b.type ∧ ∀ op, op = .eq ∨ op = .ne → binary op a b = .error
        (if a.type.name = b.type.name then .unknownOperator a.type.name op.spelling b.type.name
          else .typeMismatch a.type.name op.spelling b.type.name)) ∧
    -- They have the same answers the other way round.
    (∀ op, op = .eq ∨ op = .ne → ∀ v, binary op a b = .ok v ↔ binary op b a = .ok v) ∧
    -- `==` is reflexive and transitive.
    (∀ v, binary .eq a a = .ok v → v = .bool true) ∧
    (binary .eq a b = .ok (.bool true) → binary .eq b c = .ok (.bool true) →
      binary .eq a c = .ok (.bool true)) ∧
    -- Keys of one type are equal if they are one key, and collections if they are one collection.
    (∀ k l, a.type = b.type → a.key = .ok k → b.key = .ok l →
      binary .eq a b = .ok (.bool (k = l))) ∧
    (∀ i j, binary .eq (.array i) (.array j) = .ok (.bool (i = j)) ∧
      binary .eq (.hash i) (.hash j) = .ok (.bool (i = j))) ∧
    -- A comparison in a program gives what it gives for the values, whatever is in the store,
    (∀ reg n env t op l r σ ρ τ, eval reg n env l σ = .ok a ρ → eval reg n env r ρ = .ok b τ →
      eval reg (n + 1) env (.binary t op l r) σ = ofExcept (binary op a b) τ) ∧
    -- so what two names compare to stays when collections are changed.
    ∀ reg n env t op (x y : Ident) σ τ, (σ.lookup? env x.name).map Binding.value = some a →
      (σ.lookup? env y.name).map Binding.value = some b → Mutated σ τ →
        eval reg (n + 2) env (.binary t op (.ident x) (.ident y)) τ =
          ofExcept (binary op a b) τ := by
  refine ⟨?opposite, fun op hop v => ⟨equality_ok_swap hop, equality_ok_swap hop⟩,
    fun v => binary_eq_self, ?trans, fun k l => binary_eq_keys, fun i j => ?collections,
    fun reg n env t op l r σ ρ τ hl hr => eval_binary hl hr t op, ?names⟩
  case opposite =>
    have hcases := equality_cases a b
    simp only [noOperator_eq] at hcases
    exact hcases
  case trans =>
    intro hab hbc
    rw [binary_eq_true_iff] at hab hbc ⊢
    obtain ⟨-, rfl⟩ := hab
    exact hbc
  case collections =>
    constructor
    · simp [binary_eq, ValueType.Comparable, type, same]
    · simp [binary_eq, ValueType.Comparable, type, same]
  case names =>
    intro reg n env t op x y σ τ hx hy hmutated
    obtain ⟨c, hc, rfl⟩ := Option.map_eq_some_iff.1 hx
    obtain ⟨d, hd, rfl⟩ := Option.map_eq_some_iff.1 hy
    exact eval_names_of_mutated hc hd hmutated t op

/-- Two names for two empty arrays: an element that one of them gets makes no difference to whether
they are equal. -/
theorem empty_arrays_stay_unequal :
    ∃ (t : Token) (σ τ : Store), Mutated σ τ ∧ (σ.items 0).size = 0 ∧ (τ.items 0).size = 1 ∧
      ∀ ρ, ρ = σ ∨ ρ = τ →
        eval .standard 2 0 (.binary t .eq (.ident ⟨t, "x"⟩) (.ident ⟨t, "y"⟩)) ρ =
          .ok (.bool false) ρ := by
  let t : Token := ⟨.ident, "x", ⟨1, 1⟩⟩
  let scope : Scope := ⟨⟨[("x", ⟨.array 0, true⟩), ("y", ⟨.array 1, true⟩)]⟩, none⟩
  let σ : Store := { Store.empty (.console #[]) with scopes := #[scope], arrays := #[#[], #[]] }
  let τ : Store := { σ with arrays := #[#[.null], #[]] }
  have hx : σ.lookup? 0 "x" = some ⟨.array 0, true⟩ := by
    rw [Store.lookup?, Store.owner?_of_bound rfl]
    rfl
  have hy : σ.lookup? 0 "y" = some ⟨.array 1, true⟩ := by
    rw [Store.lookup?, Store.owner?_of_bound rfl]
    rfl
  have hcall : Native.append [.array 0, .null] σ = .ok (.array 0) τ := rfl
  have hmutated : Mutated σ τ := .append .refl hcall
  obtain ⟨-, -, -, -, -, -, -, hnames⟩ := equality_coherent (.array 0) (.array 1) .null
  refine ⟨t, σ, τ, hmutated, rfl, rfl, ?_⟩
  rintro ρ (rfl | rfl)
  · exact hnames .standard 0 0 t .eq _ _ σ σ (by rw [hx]; rfl) (by rw [hy]; rfl) .refl
  · exact hnames .standard 0 0 t .eq _ _ σ τ (by rw [hx]; rfl) (by rw [hy]; rfl) hmutated

end Value

end Scriptlet
