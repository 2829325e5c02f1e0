import Scriptlet.Native.Standard
import Scriptlet.Proofs.Machine

/-!
# Loops run over what was there when they began

A loop reads the entries of its collection once, before the first pass. What the passes do to the
collection, or to the name it was found under, changes nothing about which passes there are.

**Theorem (`forIn_runs_over_entries`).** The passes of a loop are over the entries that were read,
one pass for each, in their order, and each begins where the one before has ended, in a new scope
that binds the two names of the loop and nothing else. The loop ends with the first pass that does
not end with a value, in the same way, and if there is none, after the last pass, with the value
that stands for the loop. The entries are the places or keys, each with what an index would have
given.

`Passes` is the trace of a loop whose passes all end with a value. The induction is over the list
of entries (`forM_eq_iff_of_not_ok`); the store is left free in it, so it may change in whatever way
from pass to pass.
-/

namespace Scriptlet

open Eval Machine

variable {σ τ : Store} {es : List (Value × Value)}

/-! ## Traces -/

/-- Over the entries, one after the other, `run` ends with a value each time, from `σ` to `τ`. -/
inductive Passes {α : Type} (run : Value × Value → Eval α) :
    List (Value × Value) → Store → Store → Prop
  | nil {σ : Store} : Passes run [] σ σ
  | cons {e : Value × Value} {es : List (Value × Value)} {a : α} {σ ρ τ : Store} :
      run e σ = .ok a ρ → Passes run es ρ τ → Passes run (e :: es) σ τ

section

variable {α β : Type} {x : Eval α} {f : α → Eval β}

/-! What comes after always ends with a value here: a new stamp, or nothing at all. So the whole
fails where its first part does. -/

theorem bind_eq_error_iff_of_ok (hf : ∀ a ρ, ∃ b π, f a ρ = .ok b π) {sig : Signal} :
    (x >>= f) σ = .error sig τ ↔ x σ = .error sig τ := by
  rw [Run.bind_eq_error_iff]
  refine or_iff_left ?_
  rintro ⟨a, ρ, -, h⟩
  obtain ⟨b, π, hok⟩ := hf a ρ
  cases hok.symm.trans h

theorem bind_eq_outOfFuel_iff_of_ok (hf : ∀ a ρ, ∃ b π, f a ρ = .ok b π) :
    (x >>= f) σ = .outOfFuel ↔ x σ = .outOfFuel := by
  rw [Run.bind_eq_outOfFuel_iff]
  refine or_iff_left ?_
  rintro ⟨a, ρ, -, h⟩
  obtain ⟨b, π, hok⟩ := hf a ρ
  cases hok.symm.trans h

end

section

variable {run : Value × Value → Eval Unit}

theorem forM_eq_ok_iff : es.forM run σ = .ok () τ ↔ Passes run es σ τ := by
  induction es generalizing σ with
  | nil =>
    constructor
    · intro h
      cases h
      exact .nil
    · rintro ⟨⟩
      rfl
  | cons e es ih =>
    show (run e >>= fun _ => es.forM run) σ = _ ↔ _
    rw [Run.bind_eq_ok_iff]
    constructor
    · rintro ⟨a, ρ, he, hes⟩
      exact .cons he (ih.1 hes)
    · rintro (_ | ⟨he, hes⟩)
      exact ⟨_, _, he, ih.2 hes⟩

/-- What does not end with a value ends with the first pass that does not. -/
theorem forM_eq_iff_of_not_ok {o : Outcome Store Signal Unit} (ho : ∀ a τ, o ≠ .ok a τ) :
    es.forM run σ = o ↔ ∃ before e after ρ, es = before ++ e :: after ∧
      Passes run before σ ρ ∧ run e ρ = o := by
  induction es generalizing σ with
  | nil =>
    refine iff_of_false (fun h => ho () σ h.symm) ?_
    rintro ⟨before, e, after, ρ, hes, -⟩
    cases before <;> cases hes
  | cons e es ih =>
    show (run e >>= fun _ => es.forM run) σ = _ ↔ _
    rw [Run.bind_apply]
    constructor
    · intro h
      cases he : run e σ with
      | ok a ρ =>
        rw [he] at h
        obtain ⟨before, e', after, ρ', rfl, hbefore, he'⟩ := ih.1 h
        exact ⟨e :: before, e', after, ρ', rfl, .cons he hbefore, he'⟩
      | error sig ρ =>
        rw [he] at h
        exact ⟨[], e, es, σ, rfl, .nil, he.trans h⟩
      | outOfFuel =>
        rw [he] at h
        exact ⟨[], e, es, σ, rfl, .nil, he.trans h⟩
    · rintro ⟨before, e', after, ρ, hes, hbefore, he'⟩
      cases hbefore with
      | nil =>
        cases hes
        rw [he']
        cases o with
        | ok a τ => exact absurd rfl (ho a τ)
        | error sig τ => rfl
        | outOfFuel => rfl
      | cons he hbefore =>
        cases hes
        rw [he]
        exact ih.2 ⟨_, e', after, ρ, rfl, hbefore, he'⟩

end

/-- What the passes give does not matter. -/
theorem passes_discard_iff {α : Type} {run : Value × Value → Eval α} :
    Passes (fun e => run e >>= fun _ => pure ()) es σ τ ↔ Passes run es σ τ := by
  induction es generalizing σ with
  | nil =>
    constructor <;> rintro ⟨⟩ <;> exact .nil
  | cons e es ih =>
    constructor
    · rintro (_ | ⟨he, hes⟩)
      obtain ⟨a, ρ, he, h⟩ := Run.bind_eq_ok_iff.1 he
      cases h
      exact .cons he (ih.1 hes)
    · rintro (_ | ⟨he, hes⟩)
      exact .cons (Run.bind_eq_ok_iff.2 ⟨_, _, he, rfl⟩) (ih.2 hes)

/-! ## Binding names in a new scope -/

/-- The bindings of a scope in which these names have been bound, each for the first time. -/
def bindingsOf (bound : List (Ident × Value)) : OrderedMap String Binding :=
  ⟨bound.map fun p => (p.1.name, ⟨p.2, false⟩)⟩

/-- The store with a new scope that has these bindings. -/
def Store.pushBound (σ : Store) (outer : Option ScopeId) (bound : List (Ident × Value)) : Store :=
  { σ with scopes := σ.scopes.push ⟨bindingsOf bound, outer⟩ }

section

variable {bound rest : List (Ident × Value)} {x : Ident} {v : Value} (outer : Option ScopeId)

theorem keys_bindingsOf (bound : List (Ident × Value)) :
    (bindingsOf bound).keys = bound.map (·.1.name) := by
  simp [OrderedMap.keys, bindingsOf]

theorem binding?_pushBound (σ : Store) (bound : List (Ident × Value)) (x : String) :
    (σ.pushBound outer bound).binding? σ.scopes.size x = (bindingsOf bound).find? x := by
  simp [Store.binding?, Store.pushBound]

/-- A name that is not bound yet goes to the end. -/
theorem define_pushBound (h : x.name ∉ bound.map (·.1.name)) :
    raising (Store.define σ.scopes.size x.name v) (σ.pushBound outer bound) =
      .ok () (σ.pushBound outer (bound ++ [(x, v)])) := by
  rw [← keys_bindingsOf] at h
  have hunbound : (σ.pushBound outer bound).binding? σ.scopes.size x.name = none := by
    rw [binding?_pushBound, OrderedMap.find?_eq_none_iff]
    exact h
  have hinsert : (bindingsOf bound).insert x.name ⟨v, false⟩ = bindingsOf (bound ++ [(x, v)]) := by
    rw [OrderedMap.insert_of_not_mem _ h]
    simp [bindingsOf]
  have hmodify : (σ.scopes.push ⟨bindingsOf bound, outer⟩).modify σ.scopes.size
      (fun scope => { scope with bindings := scope.bindings.insert x.name ⟨v, false⟩ }) =
        σ.scopes.push ⟨bindingsOf (bound ++ [(x, v)]), outer⟩ := by
    rw [← hinsert]
    refine Array.ext (by simp) fun i hi _ => ?_
    rw [Array.getElem_modify]
    grind
  rw [raising, Run.mapError, Store.define, hunbound]
  show Outcome.ok () (Store.bind _ _ _ _) = _
  rw [Store.bind, Store.pushBound, hmodify]
  rfl

theorem define_pushBound_of_mem (h : x.name ∈ bound.map (·.1.name)) :
    raising (Store.define σ.scopes.size x.name v) (σ.pushBound outer bound) =
      .error (.raised (.alreadyBound x.name)) (σ.pushBound outer bound) := by
  rw [← keys_bindingsOf, ← OrderedMap.contains_iff, OrderedMap.contains,
    ← binding?_pushBound outer σ] at h
  obtain ⟨b, hb⟩ := Option.isSome_iff_exists.1 h
  simp [raising, Run.mapError, Store.define, hb]

/-- Names that are all different are all bound. -/
theorem bindAll_pushBound (h : ((bound ++ rest).map (·.1.name)).Nodup) :
    bindAll σ.scopes.size rest (σ.pushBound outer bound) =
      .ok () (σ.pushBound outer (bound ++ rest)) := by
  induction rest generalizing bound with
  | nil =>
    rw [List.append_nil]
    rfl
  | cons p rest ih =>
    obtain ⟨x, v⟩ := p
    have hx : x.name ∉ bound.map (·.1.name) := by
      intro hmem
      rw [List.map_append, List.map_cons] at h
      exact (List.nodup_append.1 h).2.2 _ hmem _ List.mem_cons_self rfl
    rw [List.append_cons] at h ⊢
    rw [bindAll, Run.bind_apply, define_pushBound outer hx]
    exact ih h

theorem bindAll_append (s : ScopeId) (xs ys : List (Ident × Value)) :
    bindAll s (xs ++ ys) = bindAll s xs >>= fun _ => bindAll s ys := by
  induction xs with
  | nil => rfl
  | cons p xs ih => rw [List.cons_append, bindAll, bindAll, bind_assoc, ih]

/-- A name that is bound already ends the binding. -/
theorem bindAll_pushBound_of_mem (h : (bound.map (·.1.name)).Nodup)
    (hx : x.name ∈ bound.map (·.1.name)) :
    bindAll σ.scopes.size (bound ++ (x, v) :: rest) (σ.pushBound outer []) =
      .error (.raised (.alreadyBound x.name)) (σ.pushBound outer bound) := by
  rw [bindAll_append, Run.bind_apply, bindAll_pushBound outer (by simpa using h), List.nil_append]
  show bindAll _ ((x, v) :: rest) _ = _
  rw [bindAll, Run.bind_apply, define_pushBound_of_mem outer hx]

end

/-! ## One pass -/

/-- The scope in which the body begins: inside that of the loop, it binds the two names of the loop
to the entry, and nothing else. -/
def Machine.LoopHead.scope (l : LoopHead) (e : Value × Value) : Scope where
  bindings := ⟨[(l.index.name, ⟨e.1, false⟩), (l.value.name, ⟨e.2, false⟩)]⟩
  outer := some l.env

/-- The store in which the body begins: the one before the pass, with that scope. -/
def Store.enterPass (σ : Store) (l : LoopHead) (e : Value × Value) : Store :=
  { σ with scopes := σ.scopes.push (l.scope e) }

/-- The body of the loop, run for an entry in the scope opened for it. -/
def Machine.LoopHead.bodyFor (l : LoopHead) (run : ScopeId → Stmt → Eval Value)
    (e : Value × Value) : Eval Value := fun σ =>
  sequence (run σ.scopes.size) l.body.stmts (σ.enterPass l e)

theorem bindAll_pass (l : LoopHead) (h : l.index.name ≠ l.value.name) (e : Value × Value)
    (σ : Store) :
    bindAll σ.scopes.size [(l.index, e.1), (l.value, e.2)]
        { σ with scopes := σ.scopes.push ⟨.empty, some l.env⟩ } =
      .ok () (σ.enterPass l e) := by
  have hnodup : ((([] : List (Ident × Value)) ++ [(l.index, e.1), (l.value, e.2)]).map
      (·.1.name)).Nodup := by
    simp [h]
  exact bindAll_pushBound (some l.env) hnodup

theorem pass_eq (l : LoopHead) (h : l.index.name ≠ l.value.name)
    (run : ScopeId → Stmt → Eval Value) (e : Value × Value) :
    pass run l.env l.index l.value l.body e = (l.bodyFor run e >>= fun _ => pure ()) := by
  funext σ
  show (bindAll σ.scopes.size [(l.index, e.1), (l.value, e.2)] >>= fun _ =>
    sequence (run σ.scopes.size) l.body.stmts >>= fun _ => pure ()) _ = _
  rw [Run.bind_apply, bindAll_pass l h]
  rfl

/-! ## The entries -/

/-- A collection that can be read by indexing: an array has no more elements than there are numbers
for places, and a hash lists no key twice. -/
def Store.Indexable (σ : Store) : Value → Prop
  | .array id => (σ.items id).size ≤ Int64.maxValue.toInt + 1
  | .hash id => (σ.pairs id).keys.Nodup
  | _ => True

theorem entries_array {id : ArrayId} (h : entries (.array id) σ = .ok es τ) (k : Nat) :
    es[k]? = ((σ.items id)[k]?).map fun w => (.integer (.ofNat k), w) := by
  cases h
  rw [List.getElem?_map, List.getElem?_zipIdx, Array.getElem?_toList]
  cases (σ.items id)[k]? with
  | none => rfl
  | some w => simp

theorem entries_hash {id : HashId} (h : entries (.hash id) σ = .ok es τ) :
    es = (σ.pairs id).entries.map fun e => (e.1.value, e.2) := by
  cases h
  rfl

theorem Integer.place?_ofNat {k : Nat} (h : k ≤ Int64.maxValue.toInt) :
    Integer.place? (.ofNat k) = some k := by
  have hmax : Int64.maxValue.toInt = 9223372036854775807 := rfl
  have hk : (Int64.ofNat k).toInt = k := Int64.toInt_ofNat_of_lt (by omega)
  rw [place?, hk, if_pos (Int.natCast_nonneg k), Int.toNat_natCast]

/-- Each entry is what indexing gives. -/
theorem index_of_entries {v : Value} (hv : σ.Indexable v) (h : entries v σ = .ok es τ)
    {e : Value × Value} (he : e ∈ es) : σ.index v e.1 = .ok e.2 := by
  cases v with
  | array id =>
    obtain ⟨k, hk⟩ := List.mem_iff_getElem?.1 he
    rw [entries_array h k] at hk
    obtain ⟨w, hw, rfl⟩ := Option.map_eq_some_iff.1 hk
    have hlt : k < (σ.items id).size := (Array.getElem?_eq_some_iff.1 hw).1
    have hsize : (σ.items id).size ≤ Int64.maxValue.toInt + 1 := hv
    rw [Store.index, Integer.place?_ofNat (by omega), Option.bind_some, hw, Option.getD_some]
  | hash id =>
    rw [entries_hash h] at he
    obtain ⟨e, hmem, rfl⟩ := List.mem_map.1 he
    have hget : (σ.pairs id).find? e.1 = some e.2 := OrderedMap.find?_of_mem_entries hv hmem
    rw [Store.index, Value.key_value]
    show Except.ok (((σ.pairs id).find? e.1).getD .null) = _
    rw [hget, Option.getD_some]
  | _ => cases h

/-! ## The loop -/

section

variable {reg : Registry} {depth : Nat} {token : Token} {l : LoopHead} {v : Value}

/-- The loop as it is written. -/
def Machine.LoopHead.expr (l : LoopHead) (token : Token) : Expr :=
  .forIn token l.index l.value l.target l.body

theorem eval_forIn (htarget : name reg l.env l.target.name σ = .ok v σ)
    (hes : entries v σ = .ok es σ) :
    Eval.eval reg (depth + 1) l.env (l.expr token) σ =
      (es.forM (pass (exec reg depth) l.env l.index l.value l.body) >>= fun _ =>
        Store.newStamp >>= fun stamp =>
          pure (.loop ⟨stamp, l.index, l.value, l.target, l.body, l.env⟩)) σ := by
  show (name reg l.env l.target.name >>= fun v => entries v >>= fun es => _) σ = _
  rw [Run.bind_apply, htarget]
  show (entries v >>= fun es => _) σ = _
  rw [Run.bind_apply, hes]

/-- **Loops run over what was there when they began.** -/
theorem forIn_runs_over_entries (hne : l.index.name ≠ l.value.name)
    (htarget : name reg l.env l.target.name σ = .ok v σ) (hes : entries v σ = .ok es σ) :
    let run := l.bodyFor (exec reg depth)
    let loop := Eval.eval reg (depth + 1) l.env (l.expr token) σ
    (∀ w τ, loop = .ok w τ ↔ ∃ ρ, Passes run es σ ρ ∧
        w = .loop ⟨ρ.stamps, l.index, l.value, l.target, l.body, l.env⟩ ∧
        τ = { ρ with stamps := ρ.stamps + 1 }) ∧
      (∀ sig τ, loop = .error sig τ ↔ ∃ before e after ρ, es = before ++ e :: after ∧
        Passes run before σ ρ ∧ run e ρ = .error sig τ) ∧
      (loop = .outOfFuel ↔ ∃ before e after ρ, es = before ++ e :: after ∧
        Passes run before σ ρ ∧ run e ρ = .outOfFuel) ∧
      (∀ id, v = .array id → ∀ k : Nat,
        es[k]? = ((σ.items id)[k]?).map fun w => (.integer (.ofNat k), w)) ∧
      (∀ id, v = .hash id → es = (σ.pairs id).entries.map fun e => (e.1.value, e.2)) ∧
      (σ.Indexable v → ∀ e ∈ es, σ.index v e.1 = .ok e.2) := by
  intro run loop
  let discard : Value × Value → Eval Unit := fun e => run e >>= fun _ => pure ()
  let finish : Unit → Eval Value := fun _ => Store.newStamp >>= fun stamp =>
    pure (.loop ⟨stamp, l.index, l.value, l.target, l.body, l.env⟩)
  have hpass : pass (exec reg depth) l.env l.index l.value l.body = discard :=
    funext (pass_eq l hne _)
  have hloop : loop = (es.forM discard >>= finish) σ := by
    rw [← hpass]
    exact eval_forIn htarget hes
  refine ⟨fun w τ => ?_, fun sig τ => ?_, ?_, fun id hv k => ?_, fun id hv => ?_, fun hv e he => ?_⟩
  · rw [hloop, Run.bind_eq_ok_iff]
    constructor
    · rintro ⟨_, ρ, hforM, h⟩
      cases h
      exact ⟨ρ, passes_discard_iff.1 (forM_eq_ok_iff.1 hforM), rfl, rfl⟩
    · rintro ⟨ρ, hpasses, rfl, rfl⟩
      exact ⟨(), ρ, forM_eq_ok_iff.2 (passes_discard_iff.2 hpasses), rfl⟩
  · have hrun (e : Value × Value) (ρ : Store) :
        discard e ρ = .error sig τ ↔ run e ρ = .error sig τ :=
      bind_eq_error_iff_of_ok fun _ _ => ⟨_, _, rfl⟩
    rw [hloop]
    refine (bind_eq_error_iff_of_ok fun _ _ => ⟨_, _, rfl⟩).trans ?_
    refine (forM_eq_iff_of_not_ok ?_).trans ?_
    · exact nofun
    simp only [hrun, discard, passes_discard_iff]
  · have hrun (e : Value × Value) (ρ : Store) : discard e ρ = .outOfFuel ↔ run e ρ = .outOfFuel :=
      bind_eq_outOfFuel_iff_of_ok fun _ _ => ⟨_, _, rfl⟩
    rw [hloop]
    refine (bind_eq_outOfFuel_iff_of_ok fun _ _ => ⟨_, _, rfl⟩).trans ?_
    refine (forM_eq_iff_of_not_ok ?_).trans ?_
    · exact nofun
    simp only [hrun, discard, passes_discard_iff]
  · rw [hv] at hes
    exact entries_array hes k
  · rw [hv] at hes
    exact entries_hash hes
  · exact index_of_entries hv hes he

/-- Over the array `xs` of two elements, a loop whose body is `xs = []`. There are two passes all
the same. -/
theorem forIn_over_rebound_array :
    ∃ (l : LoopHead) (σ ρ τ : Store) (w : Value), l.index.name ≠ l.value.name ∧
      name .standard l.env l.target.name σ = .ok (.array 0) σ ∧
      Passes (l.bodyFor (exec .standard 3))
        [(.integer 0, .integer 7), (.integer 1, .integer 8)] σ ρ ∧
      Eval.eval .standard 4 l.env (l.expr ⟨.forKw, "for", ⟨1, 1⟩⟩) σ = .ok w τ ∧
      τ.binding? 0 "xs" = some ⟨.array 2, false⟩ ∧ τ.items 2 = #[] := by
  let t : Token := ⟨.ident, "", ⟨1, 1⟩⟩
  let rebind : Expr := .assign t ⟨t, "xs"⟩ (.array t [])
  let l : LoopHead := ⟨0, ⟨t, "i"⟩, ⟨t, "v"⟩, ⟨t, "xs"⟩, .mk t [.expr t rebind]⟩
  let xs (id : ArrayId) : Scope := ⟨⟨[("xs", ⟨.array id, false⟩)]⟩, none⟩
  let e₀ : Value × Value := (.integer 0, .integer 7)
  let e₁ : Value × Value := (.integer 1, .integer 8)
  let σ₀ : Store := { Store.empty (.console #[]) with
    scopes := #[xs 0], arrays := #[#[.integer 7, .integer 8]] }
  let σ₁ : Store := { σ₀ with
    scopes := #[xs 1, l.scope e₀], arrays := #[#[.integer 7, .integer 8], #[]] }
  let σ₂ : Store := { σ₀ with
    scopes := #[xs 2, l.scope e₀, l.scope e₁], arrays := #[#[.integer 7, .integer 8], #[], #[]] }
  have hbody (n : ScopeId) (π : Store)
      (howner : ({ π with arrays := π.arrays.push #[] } : Store).owner? n "xs" = some 0)
      (hvar : (π.binding? 0 "xs").any Binding.constant = false) :
      sequence (exec .standard 3 n) l.body.stmts π = .ok (.array π.arrays.size)
        (Store.bind { π with arrays := π.arrays.push #[] } 0 "xs"
          ⟨.array π.arrays.size, false⟩) := by
    have hreassign : Store.reassign n "xs" (.array π.arrays.size)
        { π with arrays := π.arrays.push #[] } = .ok () (Store.bind
          { π with arrays := π.arrays.push #[] } 0 "xs" ⟨.array π.arrays.size, false⟩) := by
      rw [Store.reassign, howner]
      exact if_neg (Bool.not_eq_true _ ▸ hvar)
    show ((raising (Store.reassign n "xs" (.array π.arrays.size)) >>= fun _ => pure _) >>=
      fun v => pure v) { π with arrays := π.arrays.push #[] } = _
    rw [Run.bind_apply, Run.bind_apply, raising, Run.mapError, hreassign]
    rfl
  -- Seen from the scope of a pass, `xs` is bound in the scope outside.
  have howner (n : ScopeId) (π : Store) (hunbound : π.binding? n "xs" = none)
      (houter : π.outer? n = some 0) (hn : 0 < n) (hbound : (π.binding? 0 "xs").isSome) :
      π.owner? n "xs" = some 0 := by
    rw [Store.owner?, hunbound, houter]
    show (if 0 < n then π.owner? 0 "xs" else none) = _
    rw [if_pos hn, Store.owner?_of_bound hbound]
  have hpasses : Passes (l.bodyFor (exec .standard 3)) [e₀, e₁] σ₀ σ₂ :=
    .cons (hbody 1 (σ₀.enterPass l e₀) (howner 1 _ rfl rfl Nat.one_pos rfl) rfl) <|
      .cons (hbody 2 (σ₁.enterPass l e₁) (howner 2 _ rfl rfl Nat.two_pos rfl) rfl) .nil
  have hne : l.index.name ≠ l.value.name := by decide
  have htarget : name .standard l.env l.target.name σ₀ = .ok (.array 0) σ₀ := by
    have hlookup : σ₀.lookup? 0 "xs" = some ⟨.array 0, false⟩ := by
      rw [Store.lookup?, Store.owner?_of_bound rfl]
      rfl
    show (Run.read (fun σ => σ.lookup? 0 "xs") >>= fun bound => _) σ₀ = _
    rw [Run.bind_apply, Run.read_apply, hlookup]
    rfl
  exact ⟨l, σ₀, σ₂, _, _, hne, htarget, hpasses,
    ((forIn_runs_over_entries hne htarget rfl).1 _ _).2 ⟨σ₂, hpasses, rfl, rfl⟩, rfl, rfl⟩

end

end Scriptlet
