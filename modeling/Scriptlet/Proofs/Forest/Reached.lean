import Scriptlet.Proofs.Forest.Tables

/-!
# A forest of environments

Scopes are made one by one, each with no outer scope or inside one that is there already, and
names are bound in them. Whatever comes of this is reached (`Reached`), if one begins with no
scopes; its roots are the scopes that were made without an outer one.

**Theorem (`Reached.ranked`, `Ranked.isForest`).** Every constant of a scope is bound in it. From
each scope the chain of outer scopes is finite, has no scope twice and ends in a root, and the three
walks come to an end.

Every operation keeps three facts (`Ranked`): constants are bound, outer scopes are older, and who
has none is a root. As scopes are known by their numbers, older means smaller, and this is why
chains end. That constants are bound is what makes `let` harmless. It writes to the first table
only; the name was not bound there, so it was not in the second one either.
-/

namespace Scriptlet

namespace Environments

variable {E F : Environments} {s : ScopeId} {x : String} {v : Value} {constant : Bool}
  {ss roots roots' : List ScopeId}

/-- What every operation keeps: constants are bound, outer scopes are older, and a scope without
one is a root. -/
structure Ranked (E : Environments) (roots : List ScopeId) : Prop where
  bound {s : ScopeId} {x : String} : E.marks s x → (E.value? s x).isSome
  older : E.Older
  root {s : ScopeId} : s < E.scopes.size → E.outer? s = none → s ∈ roots

/-- Nothing is a constant that is not bound. -/
theorem Ranked.marks_eq_false (h : E.Ranked roots) (hx : E.value? s x = none) :
    E.marks s x = false :=
  Bool.eq_false_iff.2 fun hm => by simpa [hx] using h.bound hm

theorem Ranked.getLast?_mem (h : E.Ranked roots) (hc : E.Chain s ss) (hs : s < E.scopes.size) :
    ∃ r ∈ roots, ss.getLast? = some r := by
  induction hc with
  | root ho => exact ⟨_, h.root hs ho, rfl⟩
  | @inner s o ss ho _ ih =>
    obtain ⟨r, hr, hlast⟩ := ih (Nat.lt_trans (h.older ho) hs)
    refine ⟨r, hr, ?_⟩
    rw [List.getLast?_cons, hlast]
    rfl

theorem Ranked.rebinds (h : E.Ranked roots) (hF : E.Rebinds F s x v constant) :
    F.Ranked roots where
  bound {t y} hm := by
    rw [hF.marks] at hm
    rw [hF.value]
    split
    · rfl
    · rename_i hne
      rw [if_neg hne] at hm
      exact h.bound hm
  older _ _ ho := h.older ((hF.outer _).symm.trans ho)
  root ht ho := h.root (hF.size ▸ ht) ((hF.outer _).symm.trans ho)

theorem Ranked.opens {out : Option ScopeId} (h : E.Ranked roots) (hF : E.Opens F out)
    (hout : ∀ o, out = some o → o < E.scopes.size) (hroots : out = none → E.scopes.size ∈ roots) :
    F.Ranked roots where
  bound hm := by
    rw [hF.marks] at hm
    rw [hF.value]
    exact h.bound hm
  older t o ho := by
    rw [hF.outer] at ho
    split at ho
    · rename_i ht
      rw [ht]
      exact hout o ho
    · exact h.older ho
  root {t} ht ho := by
    rw [hF.outer] at ho
    split at ho
    · rename_i hnew
      rw [hnew]
      exact hroots ho
    · rename_i hold
      rw [hF.size] at ht
      exact h.root (Nat.lt_of_le_of_ne (Nat.le_of_lt_succ ht) hold) ho

theorem Ranked.mono (h : E.Ranked roots) (hsub : roots ⊆ roots') : E.Ranked roots' where
  bound := h.bound
  older := h.older
  root hs ho := hsub (h.root hs ho)

end Environments

/-! ## Operations -/

/-- What can be asked for. Who holds a scope knows its number, and whoever that number is handed on
to holds the same scope. -/
inductive ScopeOp where
  | new
  | enclosed (outer : ScopeId)
  | share (s : ScopeId)
  | define (s : ScopeId) (x : String) (v : Value)
  | defineConstant (s : ScopeId) (x : String) (v : Value)
  | reassign (s : ScopeId) (x : String) (v : Value)

namespace ScopeOp

open Environments

/-- The operation on environments, with `n` as the number of scopes that a walk may ask. -/
def perform (n : Nat) : ScopeOp → Environments.Change Unit
  | new => (fun _ => ()) <$> Environments.new
  | enclosed outer => (fun _ => ()) <$> Environments.enclosed outer
  | share _ => pure ()
  | define s x v => Environments.define s x v
  | defineConstant s x v => Environments.defineConst s x v
  | reassign s x v => Environments.reassign n s x v

/-- The scope asked about is one of the first `size`. -/
def Held (size : Nat) : ScopeOp → Prop
  | new => True
  | enclosed s | share s | define s _ _ | defineConstant s _ _ | reassign s _ _ => s < size

/-- The roots that are made where there are `size` scopes. -/
def roots (size : Nat) : ScopeOp → List ScopeId
  | new => [size]
  | _ => []

/-- What an operation does that succeeds. -/
def Effect (E F : Environments) : ScopeOp → Prop
  | new => E.Opens F none
  | enclosed s => E.Opens F (some s)
  | share _ => F = E
  | define s x v => E.value? s x = none ∧ E.Rebinds F s x v false
  | defineConstant s x v => E.marks s x = false ∧ E.Rebinds F s x v true
  | reassign s x v => ∃ ss o, E.Chain s ss ∧ E.nearest? ss x = some o ∧ E.marks o x = false ∧
      E.Rebinds F o x v false

/-- What an operation leaves behind that comes to an end, also where it fails. -/
def Yields (op : ScopeOp) (E F : Environments) : Prop :=
  ∃ n, op.perform n E = .ok () F ∨ ∃ e, op.perform n E = .error e F

end ScopeOp

namespace Environments

variable {E F G : Environments} {s : ScopeId} {x : String} {v : Value} {constant : Bool}
  {ss roots roots' : List ScopeId} {op : ScopeOp}

/-- **One operation** comes to an end if its walk may ask all scopes. It succeeds and has done its
work, or it fails and has done nothing. -/
theorem Ranked.perform_cases (h : E.Ranked roots) (hop : op.Held E.scopes.size) (n : Nat) :
    (∃ F, op.perform n E = .ok () F ∧ op.Effect E F) ∨
      (∃ e, op.perform n E = .error e E) ∨
        n < E.scopes.size ∧ op.perform n E = .outOfFuel := by
  cases op with
  | new => exact Or.inl ⟨_, rfl, opens_push E none⟩
  | enclosed s => exact Or.inl ⟨_, rfl, opens_push E (some s)⟩
  | share s => exact Or.inl ⟨E, rfl, rfl⟩
  | define s x v =>
    cases hx : E.value? s x with
    | none =>
      refine Or.inl ⟨_, ?_, hx, rebinds_write hop (h.marks_eq_false hx) v⟩
      rw [ScopeOp.perform, define_eq, hx]
      rfl
    | some w =>
      refine Or.inr (Or.inl ⟨.alreadyBound x, ?_⟩)
      rw [ScopeOp.perform, define_eq, hx]
      rfl
  | defineConstant s x v =>
    by_cases hm : E.marks s x
    · refine Or.inr (Or.inl ⟨.constantReassigned x, ?_⟩)
      rw [ScopeOp.perform, defineConst_eq, if_pos hm]
    · refine Or.inl ⟨_, ?_, Bool.eq_false_iff.2 hm, rebinds_mark hop x v⟩
      rw [ScopeOp.perform, defineConst_eq, if_neg hm]
  | reassign s x v =>
    obtain ⟨ss, hc⟩ := h.older.exists_chain s
    rcases (walk_reassign E x v).ends hc n with hend | ⟨hlt, hend⟩
    · cases ho : E.nearest? ss x with
      | none =>
        rw [ho] at hend
        exact Or.inr (Or.inl ⟨.unboundName x, hend⟩)
      | some o =>
        rw [ho, Option.elim_some, assigned] at hend
        by_cases hm : E.marks o x
        · rw [if_pos hm] at hend
          exact Or.inr (Or.inl ⟨.constantReassigned x, hend⟩)
        · rw [if_neg hm] at hend
          have hmarks : E.marks o x = false := Bool.eq_false_iff.2 hm
          have hlt : o < E.scopes.size := lt_size_of_value? (isSome_of_nearest? ho)
          exact Or.inl ⟨_, hend, ss, o, hc, ho, hmarks, rebinds_write hlt hmarks v⟩
    · exact Or.inr (Or.inr ⟨Nat.lt_of_lt_of_le hlt (Nat.le_trans (hc.length_le h.older) hop), hend⟩)

theorem Ranked.effect_of_yields (h : E.Ranked roots) (hop : op.Held E.scopes.size)
    (hF : op.Yields E F) : op.Effect E F ∨ F = E := by
  obtain ⟨n, hF⟩ := hF
  rcases h.perform_cases hop n with ⟨G, hok, heffect⟩ | ⟨e, herror⟩ | ⟨-, hshort⟩
  · have hGF : G = F := by simpa [hok] using hF
    exact Or.inl (hGF ▸ heffect)
  · have hEF : E = F := by simpa [herror] using hF
    exact Or.inr hEF.symm
  · simp [hshort] at hF

/-- No scope goes away, and none gets another outer scope. -/
structure Extends (E F : Environments) : Prop where
  size : E.scopes.size ≤ F.scopes.size
  outer (s : ScopeId) : s < E.scopes.size → F.outer? s = E.outer? s

theorem Extends.refl (E : Environments) : E.Extends E := ⟨Nat.le_refl _, fun _ _ => rfl⟩

theorem Extends.trans (h : E.Extends F) (h' : F.Extends G) : E.Extends G where
  size := Nat.le_trans h.size h'.size
  outer s hs := (h'.outer s (Nat.lt_of_lt_of_le hs h.size)).trans (h.outer s hs)

theorem Rebinds.extends (h : E.Rebinds F s x v constant) : E.Extends F :=
  ⟨Nat.le_of_eq h.size.symm, fun t _ => h.outer t⟩

theorem Opens.extends {out : Option ScopeId} (h : E.Opens F out) : E.Extends F where
  size := h.size ▸ Nat.le_succ _
  outer t ht := by rw [h.outer, if_neg (Nat.ne_of_lt ht)]

/-- **One operation** keeps what is kept, whether or not it succeeds. -/
theorem Ranked.operation (h : E.Ranked roots) (hop : op.Held E.scopes.size)
    (hF : op.Yields E F) : F.Ranked (op.roots E.scopes.size ++ roots) ∧ E.Extends F := by
  have hmono : E.Ranked (op.roots E.scopes.size ++ roots) :=
    h.mono (List.subset_append_right _ _)
  rcases h.effect_of_yields hop hF with heffect | rfl
  · cases op with
    | new => exact ⟨hmono.opens heffect nofun fun _ => List.mem_cons_self, heffect.extends⟩
    | enclosed s =>
      refine ⟨hmono.opens heffect (fun o ho => ?_) nofun, heffect.extends⟩
      cases ho
      exact hop
    | share s =>
      rw [heffect]
      exact ⟨hmono, .refl E⟩
    | define s x v => exact ⟨hmono.rebinds heffect.2, heffect.2.extends⟩
    | defineConstant s x v => exact ⟨hmono.rebinds heffect.2, heffect.2.extends⟩
    | reassign s x v =>
      obtain ⟨ss, o, -, -, -, hrebinds⟩ := heffect
      exact ⟨hmono.rebinds hrebinds, hrebinds.extends⟩
  · exact ⟨hmono, .refl F⟩

/-! ## What comes of operations -/

/-- `F` comes of `E` by operations, some of which may fail. -/
inductive Steps (roots : List ScopeId) (E : Environments) : List ScopeId → Environments → Prop
  | refl : Steps roots E roots E
  | operation {roots' : List ScopeId} {F G : Environments} (op : ScopeOp) :
      Steps roots E roots' F → op.Held F.scopes.size → op.Yields F G →
        Steps roots E (op.roots F.scopes.size ++ roots') G

/-- What comes of no scopes. -/
def Reached (roots : List ScopeId) (E : Environments) : Prop := Steps [] .empty roots E

theorem Steps.ranked (h : Steps roots E roots' F) (hE : E.Ranked roots) :
    F.Ranked roots' ∧ E.Extends F := by
  induction h with
  | refl => exact ⟨hE, .refl E⟩
  | operation op _ hop hyields ih =>
    obtain ⟨hranked, hextends⟩ := ih.1.operation hop hyields
    exact ⟨hranked, ih.2.trans hextends⟩

theorem ranked_empty : Ranked .empty [] where
  bound hm := by simp [marks, tables, empty, Tables.empty] at hm
  older s o ho := by simp [outer?, tables, empty, Tables.empty] at ho
  root hs _ := absurd hs (Nat.not_lt_zero _)

theorem Reached.ranked (h : Reached roots E) : E.Ranked roots := (Steps.ranked h ranked_empty).1

/-- Where the walks from `s` come to an end that may ask all scopes of `ss`. -/
structure WalksEnd (E : Environments) (s : ScopeId) (ss : List ScopeId) : Prop where
  get (n : Nat) (x : String) : ss.length ≤ n →
    get n s x E = .ok ((E.nearest? ss x).bind fun o => E.value? o x) E
  isConst (n : Nat) (x : String) : ss.length ≤ n →
    isConst n s x E = .ok ((E.nearest? ss x).any fun o => E.marks o x) E
  reassign (n : Nat) (x : String) (v : Value) : ss.length ≤ n →
    reassign n s x v E =
      match E.nearest? ss x with
      | none => .error (.unboundName x) E
      | some o =>
        if E.marks o x then .error (.constantReassigned x) E
        else .ok () (E.set o ((E.tables o).write x v))

/-- **A forest of scopes** with the given roots. -/
structure IsForest (E : Environments) (roots : List ScopeId) : Prop where
  /-- A constant is a name that its scope binds. -/
  constants (s : ScopeId) (x : String) :
    x ∈ (E.tables s).constants → (E.tables s).store.contains x
  chain (s : ScopeId) : s < E.scopes.size → ∃ ss, E.Chain s ss ∧ ss.Nodup ∧
    (∃ r ∈ roots, ss.getLast? = some r) ∧ E.WalksEnd s ss

theorem Chain.walksEnd (hc : E.Chain s ss) : E.WalksEnd s ss where
  get n x hn := by
    rw [(walk_get E x).end_eq hc hn]
    cases E.nearest? ss x <;> rfl
  isConst n x hn := by
    rw [(walk_isConst E x).end_eq hc hn]
    cases E.nearest? ss x <;> rfl
  reassign n x v hn := by
    rw [(walk_reassign E x v).end_eq hc hn]
    cases E.nearest? ss x <;> rfl

theorem Ranked.isForest (h : E.Ranked roots) : E.IsForest roots where
  constants s x hx := h.bound (decide_eq_true hx)
  chain s hs := by
    obtain ⟨ss, hc⟩ := h.older.exists_chain s
    exact ⟨ss, hc, hc.nodup h.older, h.getLast?_mem hc hs, hc.walksEnd⟩

end Environments

end Scriptlet
