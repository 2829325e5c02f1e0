import Scriptlet.Proofs.Machine.Preservation
import Scriptlet.Proofs.Reachability

/-!
# Evaluations keep to what they can reach

**Theorem (`eval_isolated`).** Let statements or an expression be evaluated in a scope with the
standard natives, and let the evaluation come to an end, with a value or a signal. Then everything
that was in the store before and could not be reached from the scope is as it was, and everything
that can be reached afterwards, from the scope or from the result, could be reached from the scope
before or is new.

The invariant is that of confinement to a region (`confined`). Given a set `R` of locations that
nothing in the store `σ` points out of, the region at a later store has the locations of `R` and
all that is new since `σ`. Nothing points out of the region, everything in use lies in it, and
old locations outside are as they were. An operation on the store touches one location, one in
use, and stores there only what is in use, so it cannot lead out of the region
(`confined_of_write`).
-/

namespace Scriptlet

namespace Machine

variable {R : Location → Prop} {σ₀ σ τ : Store}

/-- The locations of `R`, and those that are new since `σ₀`. -/
def region (σ₀ : Store) (R : Location → Prop) (σ : Store) (l : Location) : Prop :=
  R l ∨ ¬ σ₀.Has l ∧ σ.Has l

/-- All that goes on stays in the region, and outside of it nothing changes. -/
def confined (σ₀ : Store) (R : Location → Prop) : Invariant where
  store σ := σ₀.Grows σ ∧ (∀ l m, region σ₀ R σ l → σ.Points l m → region σ₀ R σ m) ∧
    ∀ l, σ₀.Has l → ¬ R l → σ₀.Same σ l
  scope σ s := region σ₀ R σ (.scope s)
  value σ v := ∀ l, v.location? = some l → region σ₀ R σ l
  change := Store.Grows

theorem region_mono (h : σ.Grows τ) {l : Location} (hl : region σ₀ R σ l) : region σ₀ R τ l :=
  hl.imp_right fun hnew => ⟨hnew.1, h l hnew.2⟩

/-- What is in the region now and was there before was in the region before. -/
theorem region_of_has {l : Location} (hl : region σ₀ R τ l) (h : σ.Has l) : region σ₀ R σ l :=
  hl.imp_right fun hnew => ⟨hnew.1, h⟩

/-- What an operation adds is in the region. -/
theorem region_of_new (h : σ₀.Grows σ) {l : Location} (hl : ¬ σ.Has l) (hτ : τ.Has l) :
    region σ₀ R τ l :=
  Or.inr ⟨fun h₀ => hl (h l h₀), hτ⟩

/-- What values of the region point to stays in the region. -/
theorem region_of_values {p : Value → Prop} {m : Location} (h : σ.Grows τ)
    (hp : ∀ v, p v → (confined σ₀ R).value σ v) (hm : ∃ v, p v ∧ v.location? = some m) :
    region σ₀ R τ m := by
  obtain ⟨v, hv, hm⟩ := hm
  exact region_mono h (hp v hv m hm)

/-- A write is allowed if it changes nothing outside the region and whatever it adds points into
the region. -/
theorem confined_of_write (hσ : (confined σ₀ R).store σ) (hgrows : σ.Grows τ)
    (hpoints : ∀ l m, τ.Points l m → σ.Points l m ∨ region σ₀ R τ m)
    (hsame : ∀ l, σ.Has l → ¬ region σ₀ R σ l → σ.Same τ l) :
    (confined σ₀ R).Allows σ τ := by
  obtain ⟨hgrows₀, hclosed, hsame₀⟩ := hσ
  refine ⟨⟨hgrows₀.trans hgrows, fun l m hl hp => ?_, fun l hl hR => ?_⟩, hgrows⟩
  · rcases hpoints l m hp with hp | hm
    -- Only what was there before `τ` points anywhere in `σ`, so `l` is not new in `τ`.
    · exact region_mono hgrows (hclosed l m (region_of_has hl hp.has) hp)
    · exact hm
  · have hout : ¬ region σ₀ R σ l := fun h => h.elim hR fun hnew => hnew.1 hl
    exact (hsame₀ l hl hR).trans (hsame l (hgrows₀ l hl) hout)

theorem confined_kept (σ₀ : Store) (R : Location → Prop) : (confined σ₀ R).Kept where
  refl := Store.Grows.refl
  trans := Store.Grows.trans
  scope_mono h hs := region_mono h hs
  value_mono h hv l hl := region_mono h (hv l hl)
  integer _ _ h := absurd h (Option.some_ne_none _).symm
  string _ _ h := absurd h (Option.some_ne_none _).symm
  bool _ _ h := absurd h (Option.some_ne_none _).symm
  null _ h := absurd h (Option.some_ne_none _).symm
  native _ _ h := absurd h (Option.some_ne_none _).symm
  function {σ c} := by
    refine ⟨fun h => h _ rfl, fun h l hl => ?_⟩
    cases hl
    exact h
  loop h l hl := by
    cases hl
    exact h
  returned h := h
  outer hσ hs ho := hσ.2.1 _ _ hs (.outer ho)
  binding hσ hs hb l hl := hσ.2.1 _ l hs (.binding hb hl)
  item hσ hid hv l hl := hσ.2.1 _ l (hid _ rfl) (.item hv hl)
  entry hσ hid hv l hl := hσ.2.1 _ l (hid _ rfl) (.entry hv hl)
  bind {σ s x b} hσ hs hb _ := by
    have hgrows := Store.grows_bind σ s x b
    refine confined_of_write hσ hgrows (fun l m hp => ?_) fun l _ hout => ?_
    · exact hp.of_bind.imp_right fun hm => region_mono hgrows (hb m hm)
    · refine Store.same_bind σ x b fun hl => hout ?_
      rw [hl]
      exact hs
  openScope {σ s} hσ hs := by
    have hgrows := Store.grows_pushScope σ ⟨.empty, some s⟩
    refine ⟨confined_of_write hσ hgrows (fun l m hp => ?_) fun l hl _ => ?_, ?_⟩
    · refine hp.of_pushScope.imp_right fun ⟨o, ho, hm⟩ => ?_
      cases ho
      rw [hm]
      exact region_mono hgrows hs
    · exact Store.same_pushScope σ _ hl
    · exact region_of_new hσ.1 (Nat.lt_irrefl _) (by simp [Store.Has])
  newArray {σ vs} hσ hvs := by
    have hgrows := Store.grows_pushArray σ vs
    refine ⟨confined_of_write hσ hgrows (fun l m hp => ?_) fun l hl _ => ?_, fun l hl => ?_⟩
    · exact hp.of_pushArray.imp_right (region_of_values hgrows hvs)
    · exact Store.same_pushArray σ _ hl
    · cases hl
      exact region_of_new hσ.1 (Nat.lt_irrefl _) (by simp [Store.Has])
  newHash {σ m'} hσ hm' := by
    have hgrows := Store.grows_pushHash σ m'
    refine ⟨confined_of_write hσ hgrows (fun l m hp => ?_) fun l hl _ => ?_, fun l hl => ?_⟩
    · exact hp.of_pushHash.imp_right (region_of_values hgrows hm')
    · exact Store.same_pushHash σ _ hl
    · cases hl
      exact region_of_new hσ.1 (Nat.lt_irrefl _) (by simp [Store.Has])
  modifyItems {σ id f} hσ hid hf := by
    have hgrows := Store.grows_modifyItems σ id f
    refine confined_of_write hσ hgrows (fun l m hp => ?_) fun l _ hout => ?_
    · exact hp.of_modifyItems.imp_right (region_of_values hgrows hf)
    · refine Store.same_modifyItems σ f fun hl => hout ?_
      rw [hl]
      exact hid _ rfl
  modifyPairs {σ id f} hσ hid hf := by
    have hgrows := Store.grows_modifyPairs σ id f
    refine confined_of_write hσ hgrows (fun l m hp => ?_) fun l _ hout => ?_
    · exact hp.of_modifyPairs.imp_right (region_of_values hgrows hf)
    · refine Store.same_modifyPairs σ f fun hl => hout ?_
      rw [hl]
      exact hid _ rfl
  rest stamps output hσ :=
    confined_of_write hσ (fun l hl => by cases l <;> exact hl) (fun l m hp => Or.inl hp.of_rest)
      fun l _ _ => by cases l <;> rfl

/-- What was reached from the scope is a region to which the store it was reached in is
confined. -/
theorem confined_reachable (σ : Store) (env : ScopeId) :
    (confined σ (σ.Reachable (.scope env))).store σ := by
  refine ⟨Store.Grows.refl σ, fun l m hl hp => ?_, fun l _ _ => Store.Same.refl σ l⟩
  rcases hl with hl | ⟨hnot, hhas⟩
  · exact Or.inl (.tail hl hp)
  · exact absurd hhas hnot

/-- **Evaluations keep to what they can reach.** -/
theorem eval_isolated {code : Code} {depth : Nat} {env : ScopeId} {σ τ : Store}
    {r : Except Signal Value} (h : code.eval .standard depth env σ = outcome r τ) :
    (∀ l, σ.Has l → ¬ σ.Reachable (.scope env) l → σ.Same τ l) ∧
      ∀ l m, (l = .scope env ∨ ∃ v ∈ (final r).values, v.location? = some l) →
        τ.Reachable l m → σ.Reachable (.scope env) m ∨ ¬ σ.Has m ∧ τ.Has m := by
  have hI := confined_kept σ (σ.Reachable (.scope env))
  obtain ⟨⟨hstore, hvalues, _⟩, hgrows⟩ :=
    hI.of_eval hI.answers_standard (confined_reachable σ env) (Or.inl .refl) h
  obtain ⟨_, hclosed, hsame⟩ := hstore
  refine ⟨hsame, fun l m hl hm => ?_⟩
  have hroot : region σ (σ.Reachable (.scope env)) τ l := by
    rcases hl with rfl | ⟨v, hv, hloc⟩
    · exact Or.inl .refl
    · exact hvalues.2 v hv l hloc
  exact hm.closed hroot hclosed

/-- An array literal in a new session leaves an array alone that nothing reaches. -/
theorem unreachable_array_isolated :
    ∃ σ τ : Store, (Code.expr (.array ⟨.lbracket, "[", ⟨1, 1⟩⟩ [])).eval .standard 1 0 σ =
        outcome (.ok (.array 1)) τ ∧
      σ.items 0 = #[.null] ∧ ¬ σ.Reachable (.scope 0) (.array 0) ∧ σ.Same τ (.array 0) := by
  let σ : Store := { (Session.new .standard (.console #[])).store with arrays := #[#[.null]] }
  have hunreached : ¬ σ.Reachable (.scope 0) (.array 0) := by
    intro h
    have honly : (Location.array 0) = .scope 0 := by
      refine h.closed (P := fun l => l = .scope 0) rfl fun l m hl hp => ?_
      subst hl
      cases hp with
      | outer ho => cases ho
      | binding hb _ => cases hb
    cases honly
  have heval : (Code.expr (.array ⟨.lbracket, "[", ⟨1, 1⟩⟩ [])).eval .standard 1 0 σ =
      outcome (.ok (.array 1)) { σ with arrays := #[#[.null], #[]] } := rfl
  exact ⟨σ, _, heval, rfl, hunreached,
    (eval_isolated heval).1 (.array 0) Nat.one_pos hunreached⟩

end Machine

end Scriptlet
