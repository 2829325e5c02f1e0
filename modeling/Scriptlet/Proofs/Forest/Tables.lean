import Scriptlet.Environments

/-!
# Two tables for a scope

What is read from environments after a name has been bound or a scope has been made, and where the
walks along outer scopes come to an end.

**Lemma (`Walk.ends`).** A walk along a chain that comes to an end stops at the first scope of it
that binds the name (`nearest?`). It comes to this end if it may ask all scopes of the chain; if
fewer, to the same end or to none.

`get`, `isConst` and `reassign` are such walks (`walk_get`, `walk_isConst`, `walk_reassign`): each
asks one scope, and if the first table of that does not have the name, does the same at the next.
They stop at the same scope because none of them looks at the second table before it has found the
name in the first.
-/

namespace Scriptlet

namespace Environments

variable {E F : Environments} {s o : ScopeId} {x : String} {v : Value} {constant : Bool}
  {ss : List ScopeId}

/-! ## Reading the tables -/

def value? (E : Environments) (s : ScopeId) (x : String) : Option Value :=
  (E.tables s).store.find? x

def marks (E : Environments) (s : ScopeId) (x : String) : Bool := x ∈ (E.tables s).constants

def outer? (E : Environments) (s : ScopeId) : Option ScopeId := (E.tables s).outer

/-- `F` is `E` but for `x` in the scope `s`, which stands for `v`. -/
structure Rebinds (E F : Environments) (s : ScopeId) (x : String) (v : Value) (constant : Bool) :
    Prop where
  value (t : ScopeId) (y : String) :
    F.value? t y = if t = s ∧ y = x then some v else E.value? t y
  marks (t : ScopeId) (y : String) :
    F.marks t y = if t = s ∧ y = x then constant else E.marks t y
  outer (t : ScopeId) : F.outer? t = E.outer? t
  others (t : ScopeId) : t ≠ s → F.tables t = E.tables t
  size : F.scopes.size = E.scopes.size

/-- `F` is `E` but for a new scope, in which nothing is bound. -/
structure Opens (E F : Environments) (outer : Option ScopeId) : Prop where
  tables (t : ScopeId) : F.tables t = if t = E.scopes.size then .empty outer else E.tables t
  size : F.scopes.size = E.scopes.size + 1

theorem tables_set (hs : s < E.scopes.size) (ts : Tables) (t : ScopeId) :
    (E.set s ts).tables t = if t = s then ts else E.tables t := by
  unfold tables set
  by_cases ht : t = s
  · simp [ht, hs]
  · simp [ht, Ne.symm ht]

theorem tables_size (E : Environments) : E.tables E.scopes.size = .empty none := by simp [tables]

/-- To put tables back in which `x` has been written is to bind `x`. -/
theorem rebinds_set (hs : s < E.scopes.size) {ts : Tables}
    (hstore : ts.store = (E.tables s).store.insert x v)
    (hconstants : ∀ y, y ∈ ts.constants ↔
      if y = x then constant = true else y ∈ (E.tables s).constants)
    (houter : ts.outer = (E.tables s).outer) : E.Rebinds (E.set s ts) s x v constant where
  value t y := by
    rw [value?, tables_set hs]
    by_cases ht : t = s
    · simp [ht, hstore, OrderedMap.find?_insert, value?, eq_comm]
    · simp [ht, value?]
  marks t y := by
    rw [Environments.marks, tables_set hs]
    by_cases ht : t = s
    · by_cases hy : y = x <;> simp [ht, hy, hconstants, Environments.marks]
    · simp [ht, Environments.marks]
  outer t := by
    rw [outer?, tables_set hs]
    by_cases ht : t = s <;> simp [ht, houter, outer?]
  others t ht := by rw [tables_set hs, if_neg ht]
  size := Array.size_setIfInBounds

/-- A name that is no constant stays none where only the first table is written to. -/
theorem rebinds_write (hs : s < E.scopes.size) (hmarks : E.marks s x = false) (v : Value) :
    E.Rebinds (E.set s ((E.tables s).write x v)) s x v false := by
  refine rebinds_set hs rfl (fun y => ?_) rfl
  by_cases hy : y = x
  · subst hy
    simpa [Tables.write, Environments.marks] using hmarks
  · simp [hy, Tables.write]

theorem rebinds_mark (hs : s < E.scopes.size) (x : String) (v : Value) :
    E.Rebinds (E.set s (((E.tables s).write x v).mark x)) s x v true := by
  refine rebinds_set hs rfl (fun y => ?_) rfl
  by_cases hy : y = x <;> simp [hy, Tables.write, Tables.mark]

theorem opens_push (E : Environments) (outer : Option ScopeId) : E.Opens (E.push outer) outer where
  tables t := by
    unfold Environments.tables push
    rw [Array.getElem?_push]
    split <;> rfl
  size := Array.size_push _

namespace Opens

variable {out : Option ScopeId}

theorem value (h : E.Opens F out) (t : ScopeId) (y : String) :
    F.value? t y = E.value? t y := by
  rw [value?, value?, h.tables]
  split
  · rename_i ht
    rw [ht, tables_size]
    rfl
  · rfl

theorem marks (h : E.Opens F out) (t : ScopeId) (y : String) : F.marks t y = E.marks t y := by
  rw [Environments.marks, Environments.marks, h.tables]
  split
  · rename_i ht
    rw [ht, tables_size]
    rfl
  · rfl

theorem outer (h : E.Opens F out) (t : ScopeId) :
    F.outer? t = if t = E.scopes.size then out else E.outer? t := by
  rw [outer?, h.tables]
  split <;> rfl

end Opens

theorem define_eq (E : Environments) (s : ScopeId) (x : String) (v : Value) :
    define s x v E = if (E.value? s x).isSome then .error (.alreadyBound x) E
      else .ok () (E.set s ((E.tables s).write x v)) := by
  by_cases h : (E.value? s x).isSome
  · rw [if_pos h]
    rw [value?] at h
    simp [define, Run.bind_apply, OrderedMap.contains, h]
  · rw [if_neg h]
    rw [value?] at h
    simp [define, Run.bind_apply, OrderedMap.contains, h]

theorem defineConst_eq (E : Environments) (s : ScopeId) (x : String) (v : Value) :
    defineConst s x v E = if E.marks s x then .error (.constantReassigned x) E
      else .ok () (E.set s (((E.tables s).write x v).mark x)) := by
  by_cases h : x ∈ (E.tables s).constants <;> simp [defineConst, Run.bind_apply, marks, h]

/-! ## Chains -/

/-- The scopes from `s` outwards, up to one that has no outer scope. -/
inductive Chain (E : Environments) : ScopeId → List ScopeId → Prop
  | root {s : ScopeId} : E.outer? s = none → Chain E s [s]
  | inner {s o : ScopeId} {ss : List ScopeId} :
      E.outer? s = some o → Chain E o ss → Chain E s (s :: ss)

/-- Outer scopes are older. -/
def Older (E : Environments) : Prop := ∀ ⦃s o : ScopeId⦄, E.outer? s = some o → o < s

theorem Chain.le_of_mem (hc : E.Chain s ss) (h : E.Older) {t : ScopeId} (ht : t ∈ ss) :
    t ≤ s := by
  induction hc with
  | root _ => exact Nat.le_of_eq (List.mem_singleton.1 ht)
  | inner ho _ ih =>
    rcases List.mem_cons.1 ht with rfl | ht
    · exact Nat.le_refl _
    · exact Nat.le_trans (ih ht) (Nat.le_of_lt (h ho))

theorem Chain.nodup (hc : E.Chain s ss) (h : E.Older) : ss.Nodup := by
  induction hc with
  | root _ => exact List.nodup_cons.2 ⟨List.not_mem_nil, List.nodup_nil⟩
  | inner ho hc ih =>
    refine List.nodup_cons.2 ⟨fun hmem => ?_, ih⟩
    exact Nat.not_le_of_lt (h ho) (hc.le_of_mem h hmem)

theorem Chain.length_le (hc : E.Chain s ss) (h : E.Older) : ss.length ≤ s + 1 := by
  induction hc with
  | root _ => exact Nat.le_add_left 1 _
  | inner ho _ ih => exact Nat.succ_le_succ (Nat.le_trans ih (h ho))

/-- From every scope the chain comes to an end. -/
theorem Older.exists_chain (h : E.Older) (s : ScopeId) : ∃ ss, E.Chain s ss := by
  induction s using Nat.strongRecOn with
  | ind s ih =>
    cases ho : E.outer? s with
    | none => exact ⟨[s], .root ho⟩
    | some o =>
      obtain ⟨ss, hc⟩ := ih o (h ho)
      exact ⟨s :: ss, .inner ho hc⟩

/-! ## Walks -/

/-- The first scope of a chain that binds the name. -/
def nearest? (E : Environments) (ss : List ScopeId) (x : String) : Option ScopeId :=
  ss.find? fun t => (E.value? t x).isSome

/-- A walk asks the scope it is at, and goes on with the one outside if that does not bind `x`. It
ends with what is found, or with `missing`. -/
structure Walk {α : Type} (E : Environments) (x : String) (walk : Nat → ScopeId → Change α)
    (found : ScopeId → Outcome Environments RuntimeError α)
    (missing : Outcome Environments RuntimeError α) : Prop where
  start (s : ScopeId) : walk 0 s E = .outOfFuel
  bound {n : Nat} {s : ScopeId} : (E.value? s x).isSome → walk (n + 1) s E = found s
  outer {n : Nat} {s o : ScopeId} :
    E.value? s x = none → E.outer? s = some o → walk (n + 1) s E = walk n o E
  last {n : Nat} {s : ScopeId} : E.value? s x = none → E.outer? s = none →
    walk (n + 1) s E = missing

theorem walk_get (E : Environments) (x : String) :
    E.Walk x (get · · x) (fun s => .ok (E.value? s x) E) (.ok none E) where
  start _ := rfl
  bound {n s} hb := by
    obtain ⟨v, hv⟩ := Option.isSome_iff_exists.1 hb
    rw [hv]
    rw [value?] at hv
    simp [get, Run.bind_apply, hv]
  outer hb ho := by
    rw [value?] at hb
    rw [outer?] at ho
    simp [get, Run.bind_apply, hb, ho]
  last hb ho := by
    rw [value?] at hb
    rw [outer?] at ho
    simp [get, Run.bind_apply, hb, ho]

theorem walk_isConst (E : Environments) (x : String) :
    E.Walk x (isConst · · x) (fun s => .ok (E.marks s x) E) (.ok false E) where
  start _ := rfl
  bound hb := by
    rw [value?] at hb
    simp [isConst, Run.bind_apply, OrderedMap.contains, hb, marks]
  outer hb ho := by
    rw [value?] at hb
    rw [outer?] at ho
    simp [isConst, Run.bind_apply, OrderedMap.contains, hb, ho]
  last hb ho := by
    rw [value?] at hb
    rw [outer?] at ho
    simp [isConst, Run.bind_apply, OrderedMap.contains, hb, ho]

/-- How an assignment ends at the scope that binds the name. -/
def assigned (E : Environments) (x : String) (v : Value) (s : ScopeId) :
    Outcome Environments RuntimeError Unit :=
  if E.marks s x then .error (.constantReassigned x) E
  else .ok () (E.set s ((E.tables s).write x v))

theorem walk_reassign (E : Environments) (x : String) (v : Value) :
    E.Walk x (reassign · · x v) (E.assigned x v) (.error (.unboundName x) E) where
  start _ := rfl
  bound {n s} hb := by
    rw [value?] at hb
    by_cases hx : x ∈ (E.tables s).constants
    · simp [reassign, Run.bind_apply, OrderedMap.contains, hb, assigned, marks, hx]
    · simp [reassign, Run.bind_apply, OrderedMap.contains, hb, assigned, marks, hx]
  outer hb ho := by
    rw [value?] at hb
    rw [outer?] at ho
    simp [reassign, Run.bind_apply, OrderedMap.contains, hb, ho]
  last hb ho := by
    rw [value?] at hb
    rw [outer?] at ho
    simp [reassign, Run.bind_apply, OrderedMap.contains, hb, ho]

/-- **A walk comes to an end** if it may ask the whole chain; if it may ask fewer scopes, it has
come to the same end or to none. -/
theorem Walk.ends {α : Type} {walk : Nat → ScopeId → Change α}
    {found : ScopeId → Outcome Environments RuntimeError α}
    {missing : Outcome Environments RuntimeError α} (h : E.Walk x walk found missing)
    (hc : E.Chain s ss) (n : Nat) :
    walk n s E = (E.nearest? ss x).elim missing found ∨
      n < ss.length ∧ walk n s E = .outOfFuel := by
  induction hc generalizing n with
  | @root s ho =>
    cases n with
    | zero => exact Or.inr ⟨Nat.one_pos, h.start s⟩
    | succ n =>
      left
      cases hb : E.value? s x with
      | none => rw [h.last hb ho, nearest?, List.find?_cons_of_neg (by simp [hb])]; rfl
      | some v =>
        rw [h.bound (by simp [hb]), nearest?, List.find?_cons_of_pos (by simp [hb])]; rfl
  | @inner s o ss ho _ ih =>
    cases n with
    | zero => exact Or.inr ⟨Nat.succ_pos _, h.start s⟩
    | succ n =>
      cases hb : E.value? s x with
      | none =>
        rw [h.outer hb ho, nearest?, List.find?_cons_of_neg (by simp [hb])]
        exact (ih n).imp_right fun ⟨hlt, hend⟩ => ⟨Nat.succ_lt_succ hlt, hend⟩
      | some v =>
        left
        rw [h.bound (by simp [hb]), nearest?, List.find?_cons_of_pos (by simp [hb])]; rfl

theorem lt_size_of_value? (h : (E.value? s x).isSome) : s < E.scopes.size := by
  by_contra hs
  simp [value?, tables, Array.getElem?_eq_none (Nat.le_of_not_lt hs), Tables.empty] at h

theorem isSome_of_nearest? (h : E.nearest? ss x = some o) : (E.value? o x).isSome :=
  List.find?_some (p := fun t => (E.value? t x).isSome) h

theorem Walk.end_eq {α : Type} {walk : Nat → ScopeId → Change α}
    {found : ScopeId → Outcome Environments RuntimeError α}
    {missing : Outcome Environments RuntimeError α} (h : E.Walk x walk found missing)
    (hc : E.Chain s ss) {n : Nat} (hn : ss.length ≤ n) :
    walk n s E = (E.nearest? ss x).elim missing found :=
  (h.ends hc n).resolve_right fun hshort => Nat.not_le_of_lt hshort.1 hn

end Environments

end Scriptlet
