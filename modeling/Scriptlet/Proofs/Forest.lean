import Scriptlet.Proofs.Constants
import Scriptlet.Proofs.Forest.Reached

/-!
# The forest of scopes

The scopes of a store are a forest of environments (`Store.Shows`): a binding is what the two
tables of a scope say of a name, its value and whether it is a constant. What the store does to its
scopes and what is done to environments are the same operations (`ScopeOp`), and they keep step
(`Shows.run`): they succeed together, and then the store still shows the environments, or both fail
for the same reason and both are as before.

**Theorem (`forest_well_formed`).** Whatever comes of no scopes by operations is a forest. An
operation comes to an end; if it fails all tables are as they were, and if it succeeds it opened
one scope or changed one name in one scope, which is the scope it was asked for, and for an
assignment the nearest one that binds the name. Outer scopes never change. Programs do to their
scopes only what can be done by these operations, and make no roots, so in a session all scopes are
inside the global one.

Programs can do no harm because no reference of theirs dangles (`growth`), and so every scope that
they ask for is there.
-/

namespace Scriptlet

/-- What the value holds on to is there. -/
def Value.LivesIn (σ : Store) (v : Value) : Prop := ∀ l, v.location? = some l → σ.Has l

namespace Store

variable {σ τ ρ : Store} {E F : Environments} {s o : ScopeId} {x : String} {v : Value}
  {c : Bool} {ss roots : List ScopeId}

/-! ## Chains -/

/-- The scopes from `s` outwards, up to one that has no outer scope. -/
inductive Chain (σ : Store) : ScopeId → List ScopeId → Prop
  | root {s : ScopeId} : σ.outer? s = none → Chain σ s [s]
  | inner {s o : ScopeId} {ss : List ScopeId} :
      σ.outer? s = some o → Chain σ o ss → Chain σ s (s :: ss)

/-- Outer scopes are older. -/
def Older (σ : Store) : Prop := ∀ ⦃s o : ScopeId⦄, σ.outer? s = some o → o < s

/-- Following outer scopes, one need not ask whether they are older. -/
theorem Older.owner?_eq (h : σ.Older) (s : ScopeId) (x : String) :
    σ.owner? s x = if (σ.binding? s x).isSome then some s
      else (σ.outer? s).bind fun o => σ.owner? o x := by
  rw [owner?]
  by_cases hb : (σ.binding? s x).isSome
  · rw [if_pos hb, if_pos hb]
  · rw [if_neg hb, if_neg hb]
    cases ho : σ.outer? s with
    | none => rfl
    | some o => simp only [if_pos (h ho), Option.bind_some]

theorem Older.owner?_eq_find? (h : σ.Older) (hc : σ.Chain s ss) (x : String) :
    σ.owner? s x = ss.find? fun t => (σ.binding? t x).isSome := by
  induction hc with
  | root ho =>
    rw [h.owner?_eq, ho, List.find?_cons]
    split <;> simp_all
  | inner ho _ ih =>
    rw [h.owner?_eq, ho, List.find?_cons]
    split <;> simp_all

/-! ## What a store shows -/

/-- The scopes of `σ` are those of `E`. -/
structure Shows (σ : Store) (E : Environments) : Prop where
  size : σ.scopes.size = E.scopes.size
  outer (s : ScopeId) : σ.outer? s = E.outer? s
  binding (s : ScopeId) (x : String) :
    σ.binding? s x = (E.value? s x).map fun v => ⟨v, E.marks s x⟩

namespace Shows

theorem isSome (h : σ.Shows E) (s : ScopeId) (x : String) :
    (σ.binding? s x).isSome = (E.value? s x).isSome := by rw [h.binding, Option.isSome_map]

theorem any_constant (h : σ.Shows E) (hx : (E.value? s x).isSome) :
    (σ.binding? s x).any Binding.constant = E.marks s x := by
  obtain ⟨v, hv⟩ := Option.isSome_iff_exists.1 hx
  rw [h.binding, hv]
  rfl

theorem older (h : σ.Shows E) (hE : E.Older) : σ.Older :=
  fun _ _ ho => hE ((h.outer _).symm.trans ho)

theorem chain (h : σ.Shows E) (hc : E.Chain s ss) : σ.Chain s ss := by
  induction hc with
  | root ho => exact .root ((h.outer _).trans ho)
  | inner ho _ ih => exact .inner ((h.outer _).trans ho) ih

/-- The walk of the store stops where those along the tables do. -/
theorem owner? (h : σ.Shows E) (hE : E.Older) (hc : E.Chain s ss) (x : String) :
    σ.owner? s x = E.nearest? ss x := by
  rw [(h.older hE).owner?_eq_find? (h.chain hc), Environments.nearest?]
  exact congrArg ss.find? (funext fun t => h.isSome t x)

theorem lookup? (h : σ.Shows E) (hE : E.Older) (hc : E.Chain s ss) (x : String) :
    σ.lookup? s x =
      (E.nearest? ss x).bind fun o => (E.value? o x).map fun v => ⟨v, E.marks o x⟩ := by
  rw [Store.lookup?, h.owner? hE hc]
  exact Option.bind_congr fun o _ => h.binding o x

theorem elsewhere (h : σ.Shows E) (hscopes : τ.scopes = σ.scopes) : τ.Shows E where
  size := by rw [hscopes, h.size]
  outer s := by rw [outer?, hscopes, ← h.outer, outer?]
  binding s x := by rw [binding?, hscopes, ← h.binding, binding?]

theorem bind (h : σ.Shows E) (hF : E.Rebinds F s x v c) (hs : s < E.scopes.size) :
    (σ.bind s x ⟨v, c⟩).Shows F where
  size := by
    rw [hF.size, ← h.size]
    exact Array.size_modify
  outer t := by rw [outer?_bind, h.outer, hF.outer]
  binding t y := by
    rw [binding?_bind, hF.value, hF.marks, h.binding, h.size]
    by_cases hty : t = s ∧ y = x
    · rw [if_pos ⟨hty.1.symm, hty.2.symm, hs⟩, if_pos hty, if_pos hty]
      rfl
    · rw [if_neg fun h' => hty ⟨h'.1.symm, h'.2.1.symm⟩, if_neg hty, if_neg hty]

theorem push (h : σ.Shows E) {out : Option ScopeId} (hF : E.Opens F out) :
    ({ σ with scopes := σ.scopes.push ⟨.empty, out⟩ } : Store).Shows F where
  size := by rw [Array.size_push, hF.size, h.size]
  outer t := by rw [outer?_pushScope, hF.outer, h.outer, h.size]
  binding t y := by rw [binding?_pushScope, hF.value, hF.marks, h.binding]

end Shows

end Store

/-! ## Operations -/

namespace ScopeOp

open Store

def run : ScopeOp → Action Unit
  | new => (fun _ => ()) <$> openScope none
  | enclosed outer => (fun _ => ()) <$> openScope (some outer)
  | share _ => pure ()
  | define s x v => Store.define s x v
  | defineConstant s x v => Store.defineConstant s x v
  | reassign s x v => Store.reassign s x v

/-- The scope asked about is there, and so is what the value holds on to. -/
def Fits (σ : Store) : ScopeOp → Prop
  | new => True
  | enclosed s | share s => s < σ.scopes.size
  | define s _ v | defineConstant s _ v | reassign s _ v => s < σ.scopes.size ∧ v.LivesIn σ

/-- What an operation leaves behind, also where it fails. -/
def Leaves (op : ScopeOp) (σ τ : Store) : Prop :=
  op.run σ = .ok () τ ∨ ∃ e, op.run σ = .error e τ

theorem Fits.held {op : ScopeOp} {σ : Store} (h : op.Fits σ) : op.Held σ.scopes.size := by
  cases op with
  | new => trivial
  | enclosed s | share s => exact h
  | define s x v | defineConstant s x v | reassign s x v => exact h.1

theorem eq_of_error {op : ScopeOp} {σ τ : Store} {e : RuntimeError}
    (h : op.run σ = .error e τ) : τ = σ := by
  cases op with
  | new => cases h
  | enclosed s => cases h
  | share s => cases h
  | define s x v =>
    rw [run, Store.define] at h
    split at h <;> cases h
    rfl
  | defineConstant s x v =>
    rw [run, Store.defineConstant] at h
    split at h <;> cases h
    rfl
  | reassign s x v =>
    rw [run, Store.reassign] at h
    split at h
    · cases h
      rfl
    · split at h <;> cases h
      rfl

theorem grows_of_ok {op : ScopeOp} {σ τ : Store} (h : op.run σ = .ok () τ) : σ.Grows τ := by
  cases op with
  | new =>
    cases h
    exact grows_pushScope σ _
  | enclosed s =>
    cases h
    exact grows_pushScope σ _
  | share s =>
    cases h
    exact Grows.refl σ
  | define s x v =>
    rw [run, Store.define] at h
    split at h <;> cases h
    exact grows_bind σ s x _
  | defineConstant s x v =>
    rw [run, Store.defineConstant] at h
    split at h <;> cases h
    exact grows_bind σ s x _
  | reassign s x v =>
    rw [run, Store.reassign] at h
    split at h
    · cases h
    · split at h <;> cases h
      exact grows_bind σ _ x _

theorem Leaves.grows {op : ScopeOp} {σ τ : Store} (h : op.Leaves σ τ) : σ.Grows τ := by
  rcases h with h | ⟨e, h⟩
  · exact grows_of_ok h
  · rw [eq_of_error h]
    exact Grows.refl σ

end ScopeOp

/-- The assignment of the store keeps step with the one that is written over the tables. -/
theorem Store.Shows.reassign {σ : Store} {E : Environments} {s : ScopeId} {ss : List ScopeId}
    {n : Nat} (h : σ.Shows E) (hE : E.Older) (hc : E.Chain s ss) (hn : ss.length ≤ n) (x : String)
    (v : Value) :
    (∃ o F τ, Environments.reassign n s x v E = .ok () F ∧ Store.reassign s x v σ = .ok () τ ∧
      E.Rebinds F o x v false ∧ τ.Shows F) ∨
      ∃ e, Environments.reassign n s x v E = .error e E ∧ Store.reassign s x v σ = .error e σ := by
  have hend := hc.walksEnd.reassign n x v hn
  have howner := h.owner? hE hc x
  cases ho : E.nearest? ss x with
  | none =>
    rw [ho] at hend howner
    exact Or.inr ⟨.unboundName x, hend, by simp [Store.reassign, howner]⟩
  | some o =>
    rw [ho] at hend howner
    have hx : (E.value? o x).isSome := Environments.isSome_of_nearest? ho
    cases hmarks : E.marks o x with
    | true =>
      refine Or.inr ⟨.constantReassigned x, by simpa [hmarks] using hend, ?_⟩
      simp [Store.reassign, howner, h.any_constant hx, hmarks]
    | false =>
      have hlt : o < E.scopes.size := Environments.lt_size_of_value? hx
      have hF := Environments.rebinds_write hlt hmarks v
      refine Or.inl ⟨o, _, _, by simpa [hmarks] using hend, ?_, hF, h.bind hF hlt⟩
      simp [Store.reassign, howner, h.any_constant hx, hmarks]

/-- **The operations keep step.** They succeed on the store and on the environments it shows, or
both fail for the same reason and nothing has changed. -/
theorem Store.Shows.run {σ : Store} {E : Environments} {roots : List ScopeId} {op : ScopeOp}
    {n : Nat} (h : σ.Shows E) (hE : E.Ranked roots) (hop : op.Held E.scopes.size)
    (hn : E.scopes.size ≤ n) :
    (∃ F τ, op.perform n E = .ok () F ∧ op.run σ = .ok () τ ∧ τ.Shows F) ∨
      ∃ e, op.perform n E = .error e E ∧ op.run σ = .error e σ := by
  cases op with
  | new => exact Or.inl ⟨_, _, rfl, rfl, h.push (Environments.opens_push E none)⟩
  | enclosed s => exact Or.inl ⟨_, _, rfl, rfl, h.push (Environments.opens_push E (some s))⟩
  | share s => exact Or.inl ⟨E, σ, rfl, rfl, h⟩
  | define s x v =>
    cases hx : E.value? s x with
    | none =>
      have hF := Environments.rebinds_write hop (hE.marks_eq_false hx) v
      refine Or.inl ⟨_, _, ?_, ?_, h.bind hF hop⟩
      · rw [ScopeOp.perform, Environments.define_eq, hx]
        rfl
      · simp [ScopeOp.run, Store.define, h.binding, hx]
    | some w =>
      refine Or.inr ⟨.alreadyBound x, ?_, ?_⟩
      · rw [ScopeOp.perform, Environments.define_eq, hx]
        rfl
      · simp [ScopeOp.run, Store.define, h.binding, hx]
  | defineConstant s x v =>
    by_cases hm : E.marks s x
    · refine Or.inr ⟨.constantReassigned x, ?_, ?_⟩
      · rw [ScopeOp.perform, Environments.defineConst_eq, if_pos hm]
      · rw [ScopeOp.run, Store.defineConstant, h.any_constant (hE.bound hm), if_pos hm]
    · have hF := Environments.rebinds_mark hop x v
      have hnot : ¬ (σ.binding? s x).any Binding.constant := by
        rw [h.binding]
        cases E.value? s x <;> simp [hm]
      refine Or.inl ⟨_, _, ?_, ?_, h.bind hF hop⟩
      · rw [ScopeOp.perform, Environments.defineConst_eq, if_neg hm]
      · rw [ScopeOp.run, Store.defineConstant, if_neg hnot]
  | reassign s x v =>
    obtain ⟨ss, hc⟩ := hE.older.exists_chain s
    have hlength : ss.length ≤ n := Nat.le_trans (hc.length_le hE.older) (Nat.le_trans hop hn)
    obtain ⟨_, F, τ, hF, hτ, -, hshows⟩ | hfails := h.reassign hE.older hc hlength x v
    · exact Or.inl ⟨F, τ, hF, hτ, hshows⟩
    · exact Or.inr hfails

/-! ## What comes of operations -/

open Store Environments

variable {σ τ ρ : Store} {E F : Environments} {roots roots' roots'' : List ScopeId}

/-- `τ` comes of `σ` by operations on scopes, some of which may fail. Between them collections may
be made and changed, and lines printed. -/
inductive Grown (roots : List ScopeId) (σ : Store) : List ScopeId → Store → Prop
  | refl : Grown roots σ roots σ
  | operation {roots' : List ScopeId} {τ ρ : Store} (op : ScopeOp) : Grown roots σ roots' τ →
      op.Fits τ → op.Leaves τ ρ → Grown roots σ (op.roots τ.scopes.size ++ roots') ρ
  | elsewhere {roots' : List ScopeId} {τ ρ : Store} : Grown roots σ roots' τ →
      ρ.scopes = τ.scopes → τ.Grows ρ → ρ.Sound → Grown roots σ roots' ρ

theorem Grown.trans (h : Grown roots σ roots' τ) (h' : Grown roots' τ roots'' ρ) :
    Grown roots σ roots'' ρ := by
  induction h' with
  | refl => exact h
  | operation op _ hfits hleaves ih => exact .operation op ih hfits hleaves
  | elsewhere _ hscopes hgrows hsound ih => exact .elsewhere ih hscopes hgrows hsound

theorem Grown.grows (h : Grown roots σ roots' τ) : σ.Grows τ := by
  induction h with
  | refl => exact Grows.refl σ
  | operation op _ _ hleaves ih => exact ih.trans hleaves.grows
  | elsewhere _ _ hgrows _ ih => exact ih.trans hgrows

/-- What comes of a store shows what comes of the environments that it showed. -/
theorem Grown.steps (h : Grown roots σ roots' τ) (hσ : σ.Shows E) (hE : E.Ranked roots) :
    ∃ F, Steps roots E roots' F ∧ τ.Shows F := by
  induction h with
  | refl => exact ⟨E, .refl, hσ⟩
  | @operation roots' τ ρ op _ hfits hleaves ih =>
    obtain ⟨F, hsteps, hF⟩ := ih
    have hheld : op.Held F.scopes.size := hF.size ▸ hfits.held
    rw [hF.size]
    rcases hF.run (hsteps.ranked hE).1 hheld (Nat.le_refl _) with
      ⟨G, ρ', hG, hρ', hshows⟩ | ⟨e, hG, hτ⟩
    · have hρ : ρ' = ρ := by simpa [ScopeOp.Leaves, hρ'] using hleaves
      exact ⟨G, .operation op hsteps hheld ⟨_, Or.inl hG⟩, hρ ▸ hshows⟩
    · have hρ : τ = ρ := by simpa [ScopeOp.Leaves, hτ] using hleaves
      exact ⟨F, .operation op hsteps hheld ⟨_, Or.inr ⟨e, hG⟩⟩, hρ ▸ hF⟩
  | elsewhere _ hscopes _ _ ih =>
    obtain ⟨F, hsteps, hF⟩ := ih
    exact ⟨F, hsteps, hF.elsewhere hscopes⟩

/-- What comes of no scopes. -/
def Forest (roots : List ScopeId) (σ : Store) : Prop :=
  ∃ σ₀ : Store, σ₀.scopes = #[] ∧ σ₀.Sound ∧ Grown [] σ₀ roots σ

theorem shows_empty {σ : Store} (h : σ.scopes = #[]) : σ.Shows .empty where
  size := by rw [h]; rfl
  outer s := by
    simp [Store.outer?, h, Environments.outer?, tables, Environments.empty, Tables.empty]
  binding s x := by
    simp [binding?, h, value?, tables, Environments.empty, Tables.empty]

theorem Forest.exists_reached (h : Forest roots σ) : ∃ E, Reached roots E ∧ σ.Shows E := by
  obtain ⟨σ₀, hempty, -, hgrown⟩ := h
  exact hgrown.steps (shows_empty hempty) ranked_empty

theorem Forest.older (h : Forest roots σ) : σ.Older := by
  obtain ⟨E, hE, hσ⟩ := h.exists_reached
  exact hσ.older hE.ranked.older

theorem Forest.grown (h : Forest roots σ) (hτ : Grown roots σ roots' τ) : Forest roots' τ := by
  obtain ⟨σ₀, hempty, hsound, hgrown⟩ := h
  exact ⟨σ₀, hempty, hsound, hgrown.trans hτ⟩

/-- A new session has one scope, which is a root. -/
theorem forest_new (reg : Registry) (output : Output) :
    Forest [0] (Session.new reg output).store := by
  have hsound : (Store.empty output).Sound := by
    intro l m hp
    cases hp with
    | outer ho => cases ho
    | binding hb _ => cases hb
    | item hv _ => cases Array.not_mem_empty _ hv
    | entry hv _ => cases hv
  exact ⟨Store.empty output, rfl, hsound, .operation .new .refl trivial (Or.inl rfl)⟩

/-! ## Programs -/

/-- A write keeps references from dangling if what it adds points to what is there. -/
theorem Store.Sound.write (h : σ.Sound) (hgrows : σ.Grows τ)
    (hpoints : ∀ l m, τ.Points l m → σ.Points l m ∨ σ.Has m) : τ.Sound :=
  fun l m hp => hgrows m ((hpoints l m hp).elim (h l m) id)

namespace Machine

open Invariant

/-- No reference dangles, and all that is done to scopes is done by operations on them. -/
def growth : Invariant where
  store := Store.Sound
  scope σ s := s < σ.scopes.size
  value σ v := v.LivesIn σ
  change σ τ := ∀ roots, Grown roots σ roots τ

theorem growth_elsewhere (hscopes : τ.scopes = σ.scopes) (hgrows : σ.Grows τ) (hτ : τ.Sound) :
    growth.Allows σ τ :=
  ⟨hτ, fun _ => .elsewhere .refl hscopes hgrows hτ⟩

/-- To bind a name that is no constant is one of the operations. -/
theorem grown_bind {s : ScopeId} {x : String} {b : Binding} (hs : s < σ.scopes.size)
    (hb : b.value.LivesIn σ) (hconstant : (σ.binding? s x).any Binding.constant = false) :
    Grown roots σ roots (σ.bind s x b) := by
  obtain ⟨v, constant⟩ := b
  cases constant with
  | true =>
    refine .operation (.defineConstant s x v) .refl ⟨hs, hb⟩ (Or.inl ?_)
    simp [ScopeOp.run, Store.defineConstant, hconstant]
  | false =>
    cases hbound : σ.binding? s x with
    | none =>
      refine .operation (.define s x v) .refl ⟨hs, hb⟩ (Or.inl ?_)
      simp [ScopeOp.run, Store.define, hbound]
    | some b =>
      have howner : σ.owner? s x = some s := owner?_of_bound (by rw [hbound]; rfl)
      refine .operation (.reassign s x v) .refl ⟨hs, hb⟩ (Or.inl ?_)
      simp [ScopeOp.run, Store.reassign, howner, hconstant]

/-- What values point to that live in the store is there. -/
theorem has_of_values {p : Value → Prop} {m : Location} (hp : ∀ v, p v → growth.value σ v)
    (hm : ∃ v, p v ∧ v.location? = some m) : σ.Has m := by
  obtain ⟨v, hv, hm⟩ := hm
  exact hp v hv m hm

theorem growth_kept : growth.Kept where
  refl _ _ := .refl
  trans h h' roots := (h roots).trans (h' roots)
  scope_mono h hs := (h []).grows (.scope _) hs
  value_mono h hv l hl := (h []).grows l (hv l hl)
  integer _ _ h := absurd h (Option.some_ne_none _).symm
  string _ _ h := absurd h (Option.some_ne_none _).symm
  bool _ _ h := absurd h (Option.some_ne_none _).symm
  null _ h := absurd h (Option.some_ne_none _).symm
  native _ _ h := absurd h (Option.some_ne_none _).symm
  function {σ c} := by
    refine ⟨fun h => h _ rfl, fun h l hl => ?_⟩
    cases hl
    exact h
  loop h l hl := by
    cases hl
    exact h
  returned h := h
  outer hσ _ ho := hσ _ _ (.outer ho)
  binding hσ _ hb l hl := hσ _ l (.binding hb hl)
  item hσ _ hv l hl := hσ _ l (.item hv hl)
  entry hσ _ hv l hl := hσ _ l (.entry hv hl)
  bind {σ s x b} hσ hs hb hconstant := by
    refine ⟨hσ.write (grows_bind σ s x b) fun _ m hp => hp.of_bind.imp_right (hb m), ?_⟩
    exact fun _ => grown_bind hs hb hconstant
  openScope {σ s} hσ hs := by
    refine ⟨⟨hσ.write (grows_pushScope σ _) fun l m hp => ?_, fun _ => ?_⟩, by simp [growth]⟩
    · refine hp.of_pushScope.imp_right fun ⟨o, ho, hm⟩ => ?_
      cases ho
      rw [hm]
      exact hs
    · exact .operation (.enclosed s) .refl hs (Or.inl rfl)
  newArray {σ vs} hσ hvs := by
    have hgrows := grows_pushArray σ vs
    refine ⟨growth_elsewhere rfl hgrows (hσ.write hgrows fun l m hp => ?_), fun l hl => ?_⟩
    · exact hp.of_pushArray.imp_right (has_of_values hvs)
    · cases hl
      simp [Has]
  newHash {σ m'} hσ hm' := by
    have hgrows := grows_pushHash σ m'
    refine ⟨growth_elsewhere rfl hgrows (hσ.write hgrows fun l m hp => ?_), fun l hl => ?_⟩
    · exact hp.of_pushHash.imp_right (has_of_values hm')
    · cases hl
      simp [Has]
  modifyItems {σ id f} hσ _ hf := by
    have hgrows := grows_modifyItems σ id f
    refine growth_elsewhere rfl hgrows (hσ.write hgrows fun l m hp => ?_)
    exact hp.of_modifyItems.imp_right (has_of_values hf)
  modifyPairs {σ id f} hσ _ hf := by
    have hgrows := grows_modifyPairs σ id f
    refine growth_elsewhere rfl hgrows (hσ.write hgrows fun l m hp => ?_)
    exact hp.of_modifyPairs.imp_right (has_of_values hf)
  rest {σ} stamps output hσ := by
    have hgrows : σ.Grows { σ with stamps, output } := fun l hl => by cases l <;> exact hl
    exact growth_elsewhere rfl hgrows (hσ.write hgrows fun l m hp => Or.inl hp.of_rest)

/-- **Programs** do to a forest what can be done by operations, and make no roots. -/
theorem later_growth {reg : Registry} (hreg : reg.Every growth.Respects) {σ : Store}
    {env : ScopeId} {p : Program} {c : Config} (hσ : σ.Sound) (henv : env < σ.scopes.size)
    (hc : Later reg env (begin p env σ) c) : growth.Allows σ c.store := by
  have hscope : growth.scope (begin p env σ).store env := henv
  have hbegin : growth.Holds (begin p env σ) := growth_kept.holds_begin hσ hscope p
  have hanswers : reg.Every growth.Answers := hreg.mono fun _ => growth_kept.answers
  obtain ⟨hholds, hchange⟩ := hbegin.later growth_kept hanswers hscope hc
  exact ⟨hholds.store, hchange⟩

/-- **The forest of scopes is well formed, and what is done to it succeeds or changes nothing.** -/
theorem forest_well_formed {roots : List ScopeId} {E : Environments} (hE : Reached roots E) :
    E.IsForest roots ∧
      (∀ (op : ScopeOp) (n : Nat), op.Held E.scopes.size → E.scopes.size ≤ n →
        (∃ F, op.perform n E = .ok () F ∧ op.Effect E F) ∨ ∃ e, op.perform n E = .error e E) ∧
      (∀ roots' F, Steps roots E roots' F →
        F.IsForest roots' ∧ ∀ s, s < E.scopes.size → F.outer? s = E.outer? s) ∧
      (∀ σ : Store, σ.Shows E →
        (∀ (op : ScopeOp) (n : Nat), op.Held E.scopes.size → E.scopes.size ≤ n →
          (∃ F τ, op.perform n E = .ok () F ∧ op.run σ = .ok () τ ∧ τ.Shows F) ∨
            ∃ e, op.perform n E = .error e E ∧ op.run σ = .error e σ) ∧
        ∀ reg env p c, reg.Every growth.Respects → σ.Sound → env < E.scopes.size →
          Later reg env (begin p env σ) c →
            c.store.Sound ∧ ∃ F, Steps roots E roots F ∧ c.store.Shows F) ∧
      ∀ reg output p c, reg.Every growth.Respects →
        Later reg 0 (begin p 0 (Session.new reg output).store) c →
          ∃ F, Reached [0] F ∧ c.store.Shows F ∧
            ∀ s, s < c.store.scopes.size → ∃ ss, c.store.Chain s ss ∧ ss.getLast? = some 0 := by
  have hranked : E.Ranked roots := hE.ranked
  refine ⟨hranked.isForest, fun op n hop hn => ?_, fun roots' F hF => ?_,
    fun σ hσ => ⟨fun op n hop hn => hσ.run hranked hop hn, ?_⟩, fun reg output p c hreg hc => ?_⟩
  · exact (hranked.perform_cases hop n).imp_right fun h =>
      h.resolve_right fun hshort => Nat.not_le_of_lt hshort.1 hn
  · obtain ⟨hF, hextends⟩ := hF.ranked hranked
    exact ⟨hF.isForest, hextends.outer⟩
  · intro reg env p c hreg hsound henv hc
    have hgrown := later_growth hreg hsound (hσ.size.symm ▸ henv) hc
    exact ⟨hgrown.1, (hgrown.2 roots).steps hσ hranked⟩
  · have hnew : Forest [0] (Session.new reg output).store := forest_new reg output
    have hgrown := later_growth hreg (sound_new reg output) Nat.one_pos hc
    obtain ⟨F, hF, hshows⟩ := (hnew.grown (hgrown.2 [0])).exists_reached
    refine ⟨F, hF, hshows, fun s hs => ?_⟩
    obtain ⟨ss, hchain, -, ⟨r, hr, hlast⟩, -⟩ := hF.ranked.isForest.chain s (hshows.size ▸ hs)
    rw [List.mem_singleton.1 hr] at hlast
    exact ⟨ss, hshows.chain hchain, hlast⟩

/-- A scope inside another one, with a constant in it. -/
theorem forest_of_two :
    ∃ E : Environments, Reached [0] E ∧ E.scopes.size = 2 ∧ E.marks 1 "x" ∧
      (E.tables 1).store.contains "x" ∧ ∃ ss, E.Chain 1 ss ∧ ss.getLast? = some 0 := by
  let E : Environments := (Environments.empty.push none).push (some 0)
  have hE : Reached [0] E := .operation (.enclosed 0)
    (.operation .new .refl trivial ⟨0, Or.inl rfl⟩) Nat.one_pos ⟨0, Or.inl rfl⟩
  let F : Environments := E.set 1 (((E.tables 1).write "x" (.integer 1)).mark "x")
  have hF : Reached [0] F := .operation (.defineConstant 1 "x" (.integer 1)) hE
    (Nat.lt_succ_self 1) ⟨0, Or.inl rfl⟩
  obtain ⟨hconstants, hchain⟩ := (forest_well_formed hF).1
  have hmarks : "x" ∈ (F.tables 1).constants := Finset.mem_insert_self "x" _
  obtain ⟨ss, hss, -, ⟨r, hr, hlast⟩, -⟩ := hchain 1 (Nat.lt_succ_self 1)
  rw [List.mem_singleton.1 hr] at hlast
  exact ⟨F, hF, rfl, decide_eq_true hmarks, hconstants 1 "x" hmarks, ss, hss, hlast⟩

end Machine

end Scriptlet
