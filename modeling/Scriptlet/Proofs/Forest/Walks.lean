import Scriptlet.Proofs.Forest

/-!
# Three walks along a chain

To look a name up, to assign it and to ask whether it is a constant all go along the chain of
outer scopes. Each asks one scope, and if that does not bind the name, does the same at the next.

**Theorem (`Older.agree`).** The three walks, as they are written over the two tables, stop at the
same scope. An assignment fails for want of the name exactly if looking it up finds nothing, and
because of a constant exactly if it is found and is one. Otherwise it succeeds. Then a name has the
new value wherever it is the name that was assigned and belongs to the same scope, and its old value
wherever not; what is a constant does not change.

**Theorem (`walks_agree`).** So do the walks of a store, which shows environments and so has all
this from them. Its walks satisfy the same equations as those over the tables (`Walks`).

The scope that owns a name depends on which names are bound and not on their values, and an
assignment binds no name that was not bound. So owners stay (`Rebinds.nearest?`), and of what is
found only what belongs to the owner is another.
-/

namespace Scriptlet

namespace Store

variable {σ τ : Store} {s o : ScopeId} {x : String} {b : Binding} {v : Value}
  {roots : List ScopeId}

/-! ## The walks -/

/-- Each of the three walks asks the scope it is at, and goes on with the one outside. -/
structure Walks (σ : Store) : Prop where
  lookup_bound {s : ScopeId} {x : String} {b : Binding} :
    σ.binding? s x = some b → σ.lookup? s x = some b
  lookup_outer {s : ScopeId} {x : String} : σ.binding? s x = none →
    σ.lookup? s x = (σ.outer? s).bind fun o => σ.lookup? o x
  constant_bound {s : ScopeId} {x : String} {b : Binding} :
    σ.binding? s x = some b → σ.isConstant s x = b.constant
  constant_outer {s : ScopeId} {x : String} : σ.binding? s x = none →
    σ.isConstant s x = (σ.outer? s).any fun o => σ.isConstant o x
  reassign_bound {s : ScopeId} {x : String} {b : Binding} (v : Value) :
    σ.binding? s x = some b → reassign s x v σ =
      if b.constant then .error (.constantReassigned x) σ else .ok () (σ.bind s x ⟨v, false⟩)
  reassign_outer {s o : ScopeId} {x : String} (v : Value) : σ.binding? s x = none →
    σ.outer? s = some o → reassign s x v σ = reassign o x v σ
  reassign_end {s : ScopeId} {x : String} (v : Value) : σ.binding? s x = none →
    σ.outer? s = none → reassign s x v σ = .error (.unboundName x) σ

theorem lookup?_of_bound (h : σ.binding? s x = some b) : σ.lookup? s x = some b := by
  rw [lookup?, owner?_of_bound (by rw [h]; rfl), Option.bind_some, h]

theorem Older.owner?_of_unbound (h : σ.Older) (hb : σ.binding? s x = none) :
    σ.owner? s x = (σ.outer? s).bind fun o => σ.owner? o x := by
  rw [h.owner?_eq, hb]
  rfl

theorem Older.lookup?_of_unbound (h : σ.Older) (hb : σ.binding? s x = none) :
    σ.lookup? s x = (σ.outer? s).bind fun o => σ.lookup? o x := by
  rw [lookup?, h.owner?_of_unbound hb, Option.bind_assoc]
  rfl

theorem Older.walks (h : σ.Older) : σ.Walks where
  lookup_bound := lookup?_of_bound
  lookup_outer := h.lookup?_of_unbound
  constant_bound hb := by
    rw [isConstant, lookup?_of_bound hb]
    rfl
  constant_outer {s x} hb := by
    rw [isConstant, h.lookup?_of_unbound hb]
    cases σ.outer? s with
    | none => rfl
    | some o => rfl
  reassign_bound {s x b} v hb := by
    have ho : σ.owner? s x = some s := owner?_of_bound (by rw [hb]; rfl)
    simp [reassign, ho, hb]
  reassign_outer {s o x} v hb ho := by
    have howner : σ.owner? s x = σ.owner? o x := by
      rw [h.owner?_of_unbound hb, ho, Option.bind_some]
    simp only [reassign, howner]
  reassign_end {s x} v hb ho := by
    have howner : σ.owner? s x = none := by rw [h.owner?_of_unbound hb, ho, Option.bind_none]
    simp [reassign, howner]

end Store

namespace Environments

variable {E F : Environments} {s o e : ScopeId} {x : String} {v : Value} {c : Bool} {k : Nat}
  {ss : List ScopeId}

/-- The scope that `s` has `x` from. -/
def Resolves (E : Environments) (s : ScopeId) (x : String) (o : ScopeId) : Prop :=
  ∃ ss, E.Chain s ss ∧ E.nearest? ss x = some o

/-- The walks for `x` from `e` agree, with `k` scopes to ask at most. -/
structure Agree (E : Environments) (k : Nat) (e : ScopeId) (x : String) (v : Value) : Prop where
  unbound : (∃ F, reassign k e x v E = .error (.unboundName x) F) ↔ get k e x E = .ok none E
  constant : (∃ F, reassign k e x v E = .error (.constantReassigned x) F) ↔
    (∃ w, get k e x E = .ok (some w) E) ∧ isConst k e x E = .ok true E
  assigned : (∃ w, get k e x E = .ok (some w) E) → isConst k e x E = .ok false E →
    ∃ o F, E.Resolves e x o ∧ reassign k e x v E = .ok () F ∧ ∀ e' y,
      (y = x ∧ E.Resolves e' x o → get k e' y F = .ok (some v) F) ∧
      (¬ (y = x ∧ E.Resolves e' x o) →
        ∃ r, get k e' y E = .ok r E ∧ get k e' y F = .ok r F) ∧
      ∃ b, isConst k e' y E = .ok b E ∧ isConst k e' y F = .ok b F

theorem Chain.length_le_size (hc : E.Chain s ss) (h : E.Older) : ss.length ≤ E.scopes.size + 1 := by
  by_cases hs : s < E.scopes.size
  · exact Nat.le_trans (hc.length_le h) (Nat.succ_le_succ (Nat.le_of_lt hs))
  · cases hc with
    | root _ => exact Nat.le_add_left 1 _
    | inner ho _ =>
      simp [outer?, tables, Array.getElem?_eq_none (Nat.le_of_not_lt hs), Tables.empty] at ho

theorem Chain.unique (hc : E.Chain s ss) {ss' : List ScopeId} (hc' : E.Chain s ss') : ss = ss' := by
  induction hc generalizing ss' with
  | root ho =>
    cases hc' with
    | root _ => rfl
    | inner ho' _ =>
      rw [ho] at ho'
      cases ho'
  | inner ho _ ih =>
    cases hc' with
    | root ho' =>
      rw [ho] at ho'
      cases ho'
    | inner ho' hc' =>
      rw [ho] at ho'
      cases ho'
      rw [ih hc']

theorem Chain.resolves_iff (hc : E.Chain s ss) : E.Resolves s x o ↔ E.nearest? ss x = some o :=
  ⟨fun ⟨_, hc', ho⟩ => hc.unique hc' ▸ ho, fun ho => ⟨ss, hc, ho⟩⟩

theorem Rebinds.chain (h : E.Rebinds F o x v c) (hc : E.Chain s ss) : F.Chain s ss := by
  induction hc with
  | root ho => exact .root ((h.outer _).trans ho)
  | inner ho _ ih => exact .inner ((h.outer _).trans ho) ih

/-- To bind a name anew that was bound does not change where names are found. -/
theorem Rebinds.nearest? (h : E.Rebinds F o x v c) (ho : (E.value? o x).isSome)
    (ss : List ScopeId) (y : String) : F.nearest? ss y = E.nearest? ss y := by
  refine congrArg ss.find? (funext fun t => ?_)
  rw [h.value]
  split
  · rename_i hty
    rw [hty.1, hty.2, ho]
    rfl
  · rfl

/-- What the walks find after an assignment. -/
theorem Rebinds.walks (h : E.Rebinds F o x v false) (ho : (E.value? o x).isSome)
    (hmarks : E.marks o x = false) (hc : E.Chain s ss) (hk : ss.length ≤ k) (y : String) :
    (y = x ∧ E.Resolves s x o → get k s y F = .ok (some v) F) ∧
      (¬ (y = x ∧ E.Resolves s x o) →
        ∃ r, get k s y E = .ok r E ∧ get k s y F = .ok r F) ∧
      ∃ b, isConst k s y E = .ok b E ∧ isConst k s y F = .ok b F := by
  have hE := hc.walksEnd
  have hF := (h.chain hc).walksEnd
  rw [hE.get k y hk, hF.get k y hk, hE.isConst k y hk, hF.isConst k y hk, h.nearest? ho,
    hc.resolves_iff]
  cases hu : E.nearest? ss y with
  | none =>
    refine ⟨fun ⟨hy, hx⟩ => ?_, fun _ => ⟨_, rfl, rfl⟩, ⟨_, rfl, rfl⟩⟩
    rw [hy, hx] at hu
    cases hu
  | some u =>
    simp only [Option.bind_some, Option.any_some, h.value, h.marks]
    by_cases huo : u = o ∧ y = x
    · obtain ⟨rfl, rfl⟩ := huo
      simp [hu, hmarks]
    · refine ⟨fun ⟨hy, hx⟩ => ?_, fun _ => ?_, ?_⟩
      · rw [hy, hx] at hu
        cases hu
        exact absurd ⟨rfl, hy⟩ huo
      · simp [huo]
      · simp [huo]

/-- **The three walks agree**, as they are written over the two tables. -/
theorem Older.agree (h : E.Older) (hk : E.scopes.size < k) (e : ScopeId) (x : String)
    (v : Value) : E.Agree k e x v := by
  have hlength {s : ScopeId} {ss : List ScopeId} (hc : E.Chain s ss) : ss.length ≤ k :=
    Nat.le_trans (hc.length_le_size h) hk
  obtain ⟨ss, hc⟩ := h.exists_chain e
  have hget := hc.walksEnd.get k x (hlength hc)
  have hisConst := hc.walksEnd.isConst k x (hlength hc)
  have hreassign := hc.walksEnd.reassign k x v (hlength hc)
  cases ho : E.nearest? ss x with
  | none =>
    rw [ho] at hget hisConst hreassign
    exact ⟨by simp [hget, hreassign], by simp [hget, hreassign], by simp [hget]⟩
  | some o =>
    have hx : (E.value? o x).isSome := isSome_of_nearest? ho
    obtain ⟨w, hw⟩ := Option.isSome_iff_exists.1 hx
    rw [ho] at hget hisConst hreassign
    simp only [Option.bind_some, Option.any_some, hw] at hget hisConst hreassign
    cases hmarks : E.marks o x with
    | true =>
      rw [hmarks] at hisConst hreassign
      exact ⟨by simp [hget, hreassign], by simp [hget, hisConst, hreassign], by simp [hisConst]⟩
    | false =>
      rw [hmarks] at hisConst hreassign
      have hF := rebinds_write (lt_size_of_value? hx) hmarks v
      refine ⟨by simp [hget, hreassign], by simp [hisConst, hreassign], fun _ _ => ?_⟩
      refine ⟨o, _, ⟨ss, hc, ho⟩, by simpa using hreassign, fun e' y => ?_⟩
      obtain ⟨ss', hc'⟩ := h.exists_chain e'
      exact hF.walks hx hmarks hc' (hlength hc') y

theorem Reached.agree {roots : List ScopeId} (h : Reached roots E) (hk : E.scopes.size < k)
    (e : ScopeId) (x : String) (v : Value) : E.Agree k e x v :=
  h.ranked.older.agree hk e x v

end Environments

namespace Store

variable {σ τ : Store} {E F : Environments} {s : ScopeId} {x : String} {k : Nat}

/-- A name that has an owner is found. -/
theorem lookup?_eq_none_iff : σ.lookup? s x = none ↔ σ.owner? s x = none := by
  refine ⟨fun h => ?_, fun h => by rw [lookup?, h, Option.bind_none]⟩
  cases ho : σ.owner? s x with
  | none => rfl
  | some o =>
    obtain ⟨b, hb⟩ := Option.isSome_iff_exists.1 (isSome_of_owner? ho)
    rw [lookup?, ho, Option.bind_some, hb] at h
    cases h

/-! ## What a store shows of the walks -/

theorem Shows.get (h : σ.Shows E) (hE : E.Older) (hk : E.scopes.size < k) (s : ScopeId)
    (x : String) : Environments.get k s x E = .ok ((σ.lookup? s x).map Binding.value) E := by
  obtain ⟨ss, hc⟩ := hE.exists_chain s
  rw [hc.walksEnd.get k x (Nat.le_trans (hc.length_le_size hE) hk), h.lookup? hE hc]
  cases E.nearest? ss x with
  | none => rfl
  | some o =>
    rw [Option.bind_some, Option.bind_some, Option.map_map]
    cases E.value? o x <;> rfl

theorem Shows.isConst (h : σ.Shows E) (hE : E.Older) (hk : E.scopes.size < k) (s : ScopeId)
    (x : String) : Environments.isConst k s x E = .ok (σ.isConstant s x) E := by
  obtain ⟨ss, hc⟩ := hE.exists_chain s
  rw [hc.walksEnd.isConst k x (Nat.le_trans (hc.length_le_size hE) hk), isConstant,
    h.lookup? hE hc]
  cases ho : E.nearest? ss x with
  | none => rfl
  | some o =>
    obtain ⟨v, hv⟩ := Option.isSome_iff_exists.1 (Environments.isSome_of_nearest? ho)
    rw [Option.bind_some, hv]
    rfl

theorem Shows.resolves_iff (h : σ.Shows E) (hE : E.Older) (s : ScopeId) (x : String)
    (o : ScopeId) : E.Resolves s x o ↔ σ.owner? s x = some o := by
  obtain ⟨ss, hc⟩ := hE.exists_chain s
  rw [hc.resolves_iff, h.owner? hE hc]

/-- An assignment fails on the store as it fails on the environments. -/
theorem Shows.reassign_error_iff (h : σ.Shows E) (hE : E.Older) (hk : E.scopes.size < k)
    (s : ScopeId) (x : String) (v : Value) (err : RuntimeError) :
    (∃ τ, Store.reassign s x v σ = .error err τ) ↔
      ∃ F, Environments.reassign k s x v E = .error err F := by
  obtain ⟨ss, hc⟩ := hE.exists_chain s
  rcases h.reassign hE hc (Nat.le_trans (hc.length_le_size hE) hk) x v with
    ⟨o, F, τ, hF, hτ, -⟩ | ⟨e, hF, hτ⟩
  · simp [hF, hτ]
  · simp [hF, hτ]

/-- An assignment that succeeds on the environments succeeds on the store. -/
theorem Shows.reassign_ok (h : σ.Shows E) (hE : E.Older) (hk : E.scopes.size < k) {v : Value}
    (hF : Environments.reassign k s x v E = .ok () F) :
    ∃ τ, Store.reassign s x v σ = .ok () τ ∧ τ.Shows F ∧ F.Older ∧ F.scopes.size < k := by
  obtain ⟨ss, hc⟩ := hE.exists_chain s
  rcases h.reassign hE hc (Nat.le_trans (hc.length_le_size hE) hk) x v with
    ⟨o, F', τ, hF', hτ, hrebinds, hshows⟩ | ⟨e, hF', -⟩
  · rw [hF] at hF'
    cases hF'
    exact ⟨τ, hτ, hshows, fun _ _ ho => hE ((hrebinds.outer _).symm.trans ho), hrebinds.size ▸ hk⟩
  · rw [hF] at hF'
    cases hF'

end Store

open Store Environments

/-- **The three walks agree.** -/
theorem walks_agree {roots : List ScopeId} {σ : Store} (hσ : Forest roots σ) (e : ScopeId)
    (n : String) (v : Value) :
    σ.Walks ∧
      ((∃ τ, Store.reassign e n v σ = .error (.unboundName n) τ) ↔ σ.lookup? e n = none) ∧
      ((∃ τ, Store.reassign e n v σ = .error (.constantReassigned n) τ) ↔
        (σ.lookup? e n).isSome ∧ σ.isConstant e n) ∧
      ((σ.lookup? e n).isSome → ¬ σ.isConstant e n →
        ∃ τ, Store.reassign e n v σ = .ok () τ ∧ ∀ e' m,
          (τ.lookup? e' m).map Binding.value =
              (if m = n ∧ σ.owner? e' n = σ.owner? e n then some v
                else (σ.lookup? e' m).map Binding.value) ∧
            τ.isConstant e' m = σ.isConstant e' m) ∧
      ∀ E k, σ.Shows E → E.scopes.size < k → E.Agree k e n v := by
  obtain ⟨E, hreached, hshows⟩ := hσ.exists_reached
  have hE : E.Older := hreached.ranked.older
  have hk : E.scopes.size < E.scopes.size + 1 := Nat.lt_succ_self _
  obtain ⟨hunbound, hconstant, hassigned⟩ := hE.agree hk e n v
  have hget := hshows.get hE hk
  have hisConst := hshows.isConst hE hk
  have hfound : (∃ w, Environments.get (E.scopes.size + 1) e n E = .ok (some w) E) ↔
      (σ.lookup? e n).isSome := by
    rw [hget]
    cases σ.lookup? e n <;> simp
  refine ⟨hσ.older.walks, ?_, ?_, fun hx hnot => ?_, fun F k hF hk => ?_⟩
  · rw [hshows.reassign_error_iff hE hk, hunbound, hget]
    simp
  · rw [hshows.reassign_error_iff hE hk, hconstant, hfound, hisConst]
    simp
  · obtain ⟨o, F, ho, hF, hafter⟩ := hassigned (hfound.2 hx) (by simpa [hisConst] using hnot)
    obtain ⟨τ, hτ, hshowsF, hF, hkF⟩ := hshows.reassign_ok hE hk hF
    refine ⟨τ, hτ, fun e' m => ?_⟩
    rw [hshows.resolves_iff hE] at ho
    obtain ⟨hnew, hold, b, hbE, hbF⟩ := hafter e' m
    rw [hshows.resolves_iff hE, ← ho, hshowsF.get hF hkF] at hnew
    rw [hshows.resolves_iff hE, ← ho, hshowsF.get hF hkF, hget] at hold
    rw [hisConst] at hbE
    rw [hshowsF.isConst hF hkF] at hbF
    constructor
    · split
      · rename_i hsame
        simpa using hnew hsame
      · rename_i hother
        obtain ⟨r, hrE, hrF⟩ := hold hother
        cases hrE
        simpa using hrF
    · cases hbE
      simpa using hbF
  · have hF : F.Older := fun _ _ ho => hσ.older ((hF.outer _).trans ho)
    exact hF.agree hk e n v

/-- A session that binds `x`, with a scope inside the global one: an assignment of `x` in there
shows in both scopes. -/
theorem assignment_shows_outside :
    ∃ σ τ : Store, Forest [0] σ ∧ σ.Chain 1 [1, 0] ∧
      Store.reassign 1 "x" (.integer 2) σ = .ok () τ ∧
      (τ.lookup? 0 "x").map Binding.value = some (.integer 2) ∧
      (τ.lookup? 1 "x").map Binding.value = some (.integer 2) := by
  let σ₁ : Store := (Session.new .standard (.console #[])).store.bind 0 "x" ⟨.integer 1, false⟩
  let σ : Store := { σ₁ with scopes := σ₁.scopes.push ⟨.empty, some 0⟩ }
  have hglobal : Forest [0] σ₁ := (forest_new .standard (.console #[])).grown
    (.operation (.define 0 "x" (.integer 1)) .refl ⟨Nat.one_pos, nofun⟩ (Or.inl rfl))
  have hσ : Forest [0] σ :=
    hglobal.grown (.operation (.enclosed 0) .refl Nat.one_pos (Or.inl rfl))
  obtain ⟨hwalks, -, -, hassign, -⟩ := walks_agree hσ 1 "x" (.integer 2)
  have hfound : σ.lookup? 1 "x" = some ⟨.integer 1, false⟩ := by
    rw [hwalks.lookup_outer rfl]
    exact hwalks.lookup_bound rfl
  have howner : σ.owner? 0 "x" = σ.owner? 1 "x" := by
    rw [hσ.older.owner?_of_unbound (s := 1) rfl]
    rfl
  obtain ⟨τ, hτ, hshows⟩ := hassign (by rw [hfound]; rfl) (by simp [isConstant, hfound])
  refine ⟨σ, τ, hσ, .inner rfl (.root rfl), hτ, ?_, ?_⟩
  · rw [(hshows 0 "x").1, if_pos ⟨rfl, howner⟩]
  · rw [(hshows 1 "x").1, if_pos ⟨rfl, rfl⟩]

end Scriptlet
