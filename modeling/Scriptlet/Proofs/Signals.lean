import Scriptlet.Proofs.Machine.Preservation

/-!
# Signals never become data

A pending return and a failure can be looked at as values, `Value.ret` and `Value.error`, but no
program ever gets hold of one.

**Theorem (`signals_stay_signals`).** Let programs be run one after the other, with the standard
natives, over a store that holds no signal. Then at every point of the run the store holds none,
no value that the run works with is one, and in particular no operand, no key and no callee or
argument. A program that comes to an end gives no return, and gives an error only if its run
ended in that error being raised.

Signals become values only where an evaluation is looked at from outside (`Eval.answer`), and
the natives that could hand one back are not among the standard ones. So "is data" is an invariant
that every operation on the store keeps for the simplest of reasons: none makes a value that is
not made of what it was given.
-/

namespace Scriptlet

/-- Whether a value is data, and not a signal seen from outside. -/
def Value.isData : Value → Bool
  | .ret _ | .error _ => false
  | _ => true

theorem HashKey.isData_value (k : HashKey) : k.value.isData := by
  cases k <;> rfl

/-- A store that holds data only. -/
structure Store.Clean (σ : Store) : Prop where
  binding (s : ScopeId) (x : String) (b : Binding) : σ.binding? s x = some b → b.value.isData
  item (id : ArrayId) (v : Value) : v ∈ σ.items id → v.isData
  entry (id : HashId) (e : HashKey × Value) :
    e ∈ (σ.pairs id).entries → e.1.value.isData ∧ e.2.isData

theorem clean_new (reg : Registry) (output : Output) : (Session.new reg output).store.Clean := by
  refine ⟨fun s x b hb => ?_, fun id v hv => ?_, fun id e he => ?_⟩
  · obtain ⟨scope, hs, hb⟩ := Option.bind_eq_some_iff.1 hb
    obtain rfl := Array.mem_singleton.1 (Array.mem_of_getElem? hs)
    cases hb
  · cases Array.not_mem_empty v hv
  · cases he

namespace Machine

open Invariant

/-- The values that the next step hands to an operator, an index or a key, or that it calls or
passes to a call. -/
def Config.operands : Config → List Value
  | ⟨.done v, .unary _ :: _, _⟩ => [v]
  | ⟨.done w, .right _ v :: _, _⟩ => [v, w]
  | ⟨.done v, .position base :: _, _⟩ => [base, v]
  | ⟨.done k, .key _ _ _ _ :: _, _⟩ => [k]
  | ⟨.collect _ (.call _ callee) args [], _, _⟩ => callee :: args
  | _ => []

theorem Config.operands_subset (c : Config) : c.operands ⊆ c.values := by
  intro v hv
  unfold operands at hv
  split at hv
  · exact List.mem_append_left _ hv
  · rcases List.mem_cons.1 hv with rfl | hv
    · exact List.mem_append_right _ (List.mem_append_left _ List.mem_cons_self)
    · exact List.mem_append_left _ hv
  · rcases List.mem_cons.1 hv with rfl | hv
    · exact List.mem_append_right _ (List.mem_append_left _ List.mem_cons_self)
    · exact List.mem_append_left _ hv
  · exact List.mem_append_left _ hv
  · exact List.mem_append_left _ hv
  · cases hv

/-- A store of data, and values that are data. -/
def data : Invariant where
  store := Store.Clean
  scope _ _ := True
  value _ v := v.isData
  change _ _ := True

theorem data_kept : data.Kept where
  refl _ := trivial
  trans _ _ := trivial
  scope_mono _ _ := trivial
  value_mono _ hv := hv
  integer _ := rfl
  string _ := rfl
  bool _ := rfl
  null := rfl
  native _ := rfl
  function := ⟨fun _ => trivial, fun _ => rfl⟩
  loop _ := rfl
  returned := nofun
  outer _ _ _ := trivial
  binding hσ _ hb := hσ.binding _ _ _ hb
  item hσ _ hv := hσ.item _ _ hv
  entry {σ id v} hσ _ hv := by
    obtain ⟨e, he, rfl⟩ := List.mem_map.1 hv
    exact (hσ.entry id e he).2
  bind {σ s x b} hσ _ hb _ := by
    refine ⟨⟨fun t y b' hb' => ?_, hσ.item, hσ.entry⟩, trivial⟩
    rw [Store.binding?_bind] at hb'
    split at hb'
    · cases hb'
      exact hb
    · exact hσ.binding t y b' hb'
  openScope {σ s} hσ _ := by
    refine ⟨⟨⟨fun t y b hb => ?_, hσ.item, hσ.entry⟩, trivial⟩, trivial⟩
    rw [Store.binding?_pushScope] at hb
    exact hσ.binding t y b hb
  newArray {σ vs} hσ hvs := by
    refine ⟨⟨⟨hσ.binding, fun id v hv => ?_, hσ.entry⟩, trivial⟩, rfl⟩
    rw [Store.items_pushArray] at hv
    split at hv
    · exact hvs v hv
    · exact hσ.item id v hv
  newHash {σ m} hσ hm := by
    refine ⟨⟨⟨hσ.binding, hσ.item, fun id e he => ?_⟩, trivial⟩, rfl⟩
    rw [Store.pairs_pushHash] at he
    split at he
    · exact ⟨e.1.isData_value, hm e.2 (List.mem_map_of_mem he)⟩
    · exact hσ.entry id e he
  modifyItems {σ id f} hσ _ hf := by
    refine ⟨⟨hσ.binding, fun id' v hv => ?_, hσ.entry⟩, trivial⟩
    rw [Store.items_modifyItems] at hv
    split at hv
    · exact hf v hv
    · exact hσ.item id' v hv
  modifyPairs {σ id f} hσ _ hf := by
    refine ⟨⟨hσ.binding, hσ.item, fun id' e he => ?_⟩, trivial⟩
    rw [Store.pairs_modifyPairs] at he
    split at he
    · exact ⟨e.1.isData_value, hf e.2 (List.mem_map_of_mem he)⟩
    · exact hσ.entry id' e he
  rest _ _ hσ := ⟨⟨hσ.binding, hσ.item, hσ.entry⟩, trivial⟩

/-- What a program gives over a store of data: data, or the error that was raised. -/
theorem isData_of_run {q : Program} {depth : Nat} {env : ScopeId} {σ τ : Store} {v : Value}
    (hσ : σ.Clean) (h : q.run .standard depth env σ = some (v, τ)) :
    τ.Clean ∧ (v.isData ∨
      ∃ e, v = .error e ∧ Reaches .standard (begin q env σ) ⟨.unwind (.raised e), [], τ⟩) := by
  have hbegin : data.Holds (begin q env σ) := data_kept.holds_begin hσ trivial q
  have hend : ∀ {d}, Reaches .standard (begin q env σ) d → data.Holds d :=
    fun hd => (hbegin.reaches data_kept data_kept.answers_standard hd).1
  rcases reaches_of_run h with h | h | ⟨e, hv, h⟩
  · exact ⟨(hend h).store, Or.inl ((hend h).values List.mem_cons_self)⟩
  · exact ⟨(hend h).store, Or.inl ((hend h).values List.mem_cons_self)⟩
  · exact ⟨(hend h).store, Or.inr ⟨e, hv, h⟩⟩

/-- **Signals never become data.** -/
theorem signals_stay_signals {σ : Store} {env : ScopeId} {p : Program} {c : Config}
    (hσ : σ.Clean) (hc : Later .standard env (begin p env σ) c) :
    c.store.Clean ∧ (∀ v ∈ c.values, v.isData) ∧ (∀ v ∈ c.operands, v.isData) ∧
      ∀ (q : Program) (depth : Nat) (v : Value) (τ : Store),
        q.run .standard depth env c.store = some (v, τ) →
          (∀ w, v ≠ .ret w) ∧ ∀ e, v = .error e →
            Reaches .standard (begin q env c.store) ⟨.unwind (.raised e), [], τ⟩ := by
  have hbegin : data.Holds (begin p env σ) := data_kept.holds_begin hσ trivial p
  have hholds : data.Holds c :=
    (hbegin.later data_kept data_kept.answers_standard trivial hc).1
  refine ⟨hholds.store, fun v hv => hholds.values hv,
    fun v hv => hholds.values (c.operands_subset hv), fun q depth v τ hrun => ?_⟩
  rcases (isData_of_run hholds.store hrun).2 with hv | ⟨e, rfl, h⟩
  · refine ⟨fun w hw => ?_, fun e he => ?_⟩
    · rw [hw] at hv
      cases hv
    · rw [he] at hv
      cases hv
  · refine ⟨nofun, fun e' he => ?_⟩
    cases he
    exact h

/-- The program `return 1` in a new session, where its value is on its way out. -/
theorem return_stays_signal :
    ∃ c, Later .standard 0 (begin ⟨[.ret ⟨.returnKw, "return", ⟨1, 1⟩⟩
        (.int ⟨.int, "1", ⟨1, 8⟩⟩ 1)]⟩ 0 (Session.new .standard (.console #[])).store) c ∧
      c.control = .unwind (.ret (.integer 1)) ∧ c.store.Clean ∧ ∀ v ∈ c.values, v.isData := by
  have hlater : Later .standard 0 (begin ⟨[.ret ⟨.returnKw, "return", ⟨1, 1⟩⟩
      (.int ⟨.int, "1", ⟨1, 8⟩⟩ 1)]⟩ 0 (Session.new .standard (.console #[])).store)
      ⟨.unwind (.ret (.integer 1)), [], (Session.new .standard (.console #[])).store⟩ :=
    .step (.step (.step (.step (.step .refl rfl) rfl) rfl) rfl) rfl
  have h := signals_stay_signals (clean_new .standard (.console #[])) hlater
  exact ⟨_, hlater, rfl, h.1, h.2.1⟩

end Machine

end Scriptlet
