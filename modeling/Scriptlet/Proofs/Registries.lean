import Mathlib.Data.List.Basic
import Mathlib.Data.List.Induction
import Scriptlet.Proofs.Forest.Walks

/-!
# Registries

A registry is made with nothing in it or with the standard natives, and then natives are registered
one after the other. `Tabulates` says what it must be in the end, from the list of what has been
registered alone: which names it lists and in which order, and which native it has for each.

**Theorem (`registry_tabulates_registrations`).** Every registry is the table of what has been
registered. So a name that no scope of the chain binds stands for the native registered last under
it, and it is unbound exactly if none was. A binding in the chain hides the native.

One registration keeps the table (`Tabulates.register`). Looking a name up takes the first entry of
that name, and registering writes to the first entry of that name; since no name is listed twice,
that entry is the only one.
-/

namespace Scriptlet

namespace Registry

/-! ## Tables of registrations -/

/-- The last native registered under the name `x` is `f`. -/
def LastUnder (rs : List (String × Native)) (x : String) (f : Native) : Prop :=
  ∃ before after, rs = before ++ (x, f) :: after ∧ x ∉ after.map Prod.fst

/-- The registry is the table of the registrations `rs`, made in this order. -/
structure Tabulates (reg : Registry) (rs : List (String × Native)) : Prop where
  nodup : reg.keys.Nodup
  mem (x : String) : x ∈ reg.keys ↔ x ∈ rs.map Prod.fst
  /-- Names are listed in the order in which they were first registered. -/
  order : reg.keys.Pairwise fun x y => (rs.map Prod.fst).idxOf x < (rs.map Prod.fst).idxOf y
  last (x : String) (f : Native) : reg.find? x = some f ↔ LastUnder rs x f
  absent (x : String) : reg.find? x = none ↔ x ∉ rs.map Prod.fst

def registerAll (reg : Registry) (rs : List (String × Native)) : Registry :=
  rs.foldl (fun reg r => reg.register r.1 r.2) reg

/-- The registrations in the making of `standard`. -/
def standardNatives : List (String × Native) :=
  [("len", Native.len), ("append", Native.append), ("remove", Native.remove),
    ("typeof", Native.typeOf), ("print", Native.print), ("string", Native.string),
    ("int", Native.int)]

/-- A registry as it can be had, with what is registered in it. -/
inductive Supplied : Registry → List (String × Native) → Prop
  | new : Supplied .empty []
  | standard : Supplied .standard standardNatives

variable {reg : Registry} {rs : List (String × Native)} {x y : String} {f g : Native}

/-! ## One registration -/

theorem lastUnder_append_self : LastUnder (rs ++ [(x, f)]) x g ↔ g = f := by
  constructor
  · rintro ⟨before, after, h, hx⟩
    cases after using List.reverseRecOn with
    | nil => simpa using (List.append_inj_right' h rfl).symm
    | append_singleton after e =>
      rw [← List.cons_append, ← List.append_assoc] at h
      have he : (x, f) = e := by simpa using List.append_inj_right' h rfl
      subst he
      simp at hx
  · rintro rfl
    exact ⟨rs, [], rfl, List.not_mem_nil⟩

theorem lastUnder_append_of_ne (h : x ≠ y) :
    LastUnder (rs ++ [(x, f)]) y g ↔ LastUnder rs y g := by
  constructor
  · rintro ⟨before, after, heq, hy⟩
    cases after using List.reverseRecOn with
    | nil =>
      have he : (x, f) = (y, g) := by simpa using List.append_inj_right' heq rfl
      exact absurd (congrArg Prod.fst he) h
    | append_singleton after e =>
      rw [← List.cons_append, ← List.append_assoc] at heq
      refine ⟨before, after, List.append_inj_left' heq rfl, fun hmem => hy ?_⟩
      rw [List.map_append]
      exact List.mem_append_left _ hmem
  · rintro ⟨before, after, rfl, hy⟩
    refine ⟨before, after ++ [(x, f)], by simp, ?_⟩
    simp only [List.map_append, List.mem_append, not_or]
    exact ⟨hy, by simpa using Ne.symm h⟩

theorem tabulates_empty : Tabulates .empty [] where
  nodup := List.nodup_nil
  mem _ := Iff.rfl
  order := .nil
  last x f := by
    refine iff_of_false nofun ?_
    rintro ⟨before, after, h, -⟩
    simp at h
  absent _ := iff_of_true rfl List.not_mem_nil

/-- **One registration** keeps the table. -/
theorem Tabulates.register (h : reg.Tabulates rs) (x : String) (f : Native) :
    (reg.register x f).Tabulates (rs ++ [(x, f)]) where
  nodup := OrderedMap.nodup_keys_insert reg x f h.nodup
  mem y := by
    rw [Registry.register, OrderedMap.keys_insert, List.map_append, List.mem_append, ← h.mem]
    by_cases hx : x ∈ reg.keys
    · rw [if_pos hx]
      refine ⟨Or.inl, fun hy => hy.elim id fun hy => ?_⟩
      rwa [List.mem_singleton.1 hy]
    · rw [if_neg hx]
      exact List.mem_append
  order := by
    have hfirst : ∀ y ∈ reg.keys, ((rs ++ [(x, f)]).map Prod.fst).idxOf y =
        (rs.map Prod.fst).idxOf y := fun y hy => by
      rw [List.map_append, List.idxOf_append_of_mem ((h.mem y).1 hy)]
    have hold : reg.keys.Pairwise fun y z => ((rs ++ [(x, f)]).map Prod.fst).idxOf y <
        ((rs ++ [(x, f)]).map Prod.fst).idxOf z :=
      h.order.imp_of_mem fun hy hz hlt => by rwa [hfirst _ hy, hfirst _ hz]
    rw [Registry.register, OrderedMap.keys_insert]
    by_cases hx : x ∈ reg.keys
    · rwa [if_pos hx]
    · rw [if_neg hx]
      refine List.pairwise_append.2 ⟨hold, List.pairwise_singleton _ _, fun y hy z hz => ?_⟩
      rw [List.mem_singleton.1 hz, hfirst y hy, List.map_append,
        List.idxOf_append_of_notMem (mt (h.mem x).2 hx)]
      exact Nat.lt_of_lt_of_le (List.idxOf_lt_length_of_mem ((h.mem y).1 hy)) (Nat.le_add_right _ _)
  last y g := by
    rw [Registry.register, OrderedMap.find?_insert]
    by_cases hxy : x = y
    · subst hxy
      rw [if_pos rfl, lastUnder_append_self]
      exact ⟨fun heq => (Option.some.inj heq).symm, fun heq => congrArg some heq.symm⟩
    · rw [if_neg hxy, lastUnder_append_of_ne hxy, h.last]
  absent y := by
    rw [Registry.register, OrderedMap.find?_insert]
    by_cases hxy : x = y
    · simp [hxy]
    · simp [hxy, Ne.symm hxy, h.absent]

/-! ## All of them -/

theorem Tabulates.registerAll (h : reg.Tabulates rs) (later : List (String × Native)) :
    (reg.registerAll later).Tabulates (rs ++ later) := by
  induction later generalizing reg rs with
  | nil => rwa [List.append_nil]
  | cons r later ih =>
    rw [← List.singleton_append, ← List.append_assoc]
    exact ih (h.register r.1 r.2)

theorem Supplied.tabulates (h : Supplied reg rs) : reg.Tabulates rs := by
  cases h with
  | new => exact tabulates_empty
  | standard => exact tabulates_empty.registerAll standardNatives

end Registry

/-! ## Names in programs -/

namespace Store

variable {σ : Store} {ss : List ScopeId} {env s : ScopeId} {x : String} {b : Binding}

/-- A name that no scope of the chain binds is not found. -/
theorem Older.lookup?_eq_none (h : σ.Older) (hc : σ.Chain env ss)
    (hss : ∀ s ∈ ss, σ.binding? s x = none) : σ.lookup? env x = none := by
  rw [lookup?_eq_none_iff, h.owner?_eq_find? hc, List.find?_eq_none]
  intro s hs
  simp [hss s hs]

/-- The nearest binding is found. -/
theorem Older.lookup?_eq_some (h : σ.Older) {inner outer : List ScopeId}
    (hc : σ.Chain env (inner ++ s :: outer)) (hinner : ∀ t ∈ inner, σ.binding? t x = none)
    (hb : σ.binding? s x = some b) : σ.lookup? env x = some b := by
  have howner : σ.owner? env x = some s := by
    rw [h.owner?_eq_find? hc, List.find?_append, List.find?_eq_none.2 fun t ht => by
      simp [hinner t ht]]
    simp [hb]
  rw [lookup?, howner, Option.bind_some, hb]

end Store

namespace Eval

variable (reg : Registry) {σ : Store} {env : ScopeId} {x : String}

theorem name_of_bound {b : Binding} (h : σ.lookup? env x = some b) :
    name reg env x σ = .ok b.value σ := by
  rw [name, Run.bind_apply, Run.read_apply, h]
  rfl

theorem name_of_unbound (h : σ.lookup? env x = none) : name reg env x σ =
    match reg.find? x with
    | some _ => .ok (.native x) σ
    | none => .error (.raised (.unboundName x)) σ := by
  rw [name, Run.bind_apply, Run.read_apply, h]
  cases hx : reg.find? x <;> simp [OrderedMap.contains, hx, raise]

end Eval

open Registry

/-- **A registry is an ordered map with unique names**, and a name that nothing binds stands for
what it has under that name. -/
theorem registry_tabulates_registrations {base : Registry} {rs : List (String × Native)}
    (hbase : Supplied base rs) (later : List (String × Native)) :
    let reg := base.registerAll later
    reg.Tabulates (rs ++ later) ∧
      ∀ {roots : List ScopeId} {σ : Store} {env : ScopeId} {ss : List ScopeId},
        Forest roots σ → σ.Chain env ss → ∀ (x : Ident) (depth : Nat),
        ((∀ s ∈ ss, σ.binding? s x.name = none) →
          (∀ f, LastUnder (rs ++ later) x.name f →
            Eval.eval reg (depth + 1) env (.ident x) σ = .ok (.native x.name) σ ∧
              ∀ run e args, Eval.apply reg run e (.native x.name) args =
                Eval.raising (f args) >>= Eval.ofNative) ∧
          (Eval.eval reg (depth + 1) env (.ident x) σ = .error (.raised (.unboundName x.name)) σ ↔
            x.name ∉ (rs ++ later).map Prod.fst)) ∧
        ∀ inner s outer b, ss = inner ++ s :: outer → (∀ t ∈ inner, σ.binding? t x.name = none) →
          σ.binding? s x.name = some b →
            Eval.eval reg (depth + 1) env (.ident x) σ = .ok b.value σ := by
  intro reg
  have htable : reg.Tabulates (rs ++ later) := hbase.tabulates.registerAll later
  refine ⟨htable, fun {roots σ env ss} hσ hchain x depth => ⟨fun hunbound => ?_, ?_⟩⟩
  · have hname := Eval.name_of_unbound reg (hσ.older.lookup?_eq_none hchain hunbound)
    refine ⟨fun f hf => ?_, ?_⟩
    · have hfind : reg.find? x.name = some f := (htable.last _ _).2 hf
      refine ⟨?_, fun run e args => ?_⟩
      · show Eval.name reg env x.name σ = _
        simp [hname, hfind]
      · simp [Eval.apply, hfind]
    · show Eval.name reg env x.name σ = _ ↔ _
      rw [hname, ← htable.absent]
      cases reg.find? x.name <;> simp
  · rintro inner s outer b rfl hinner hb
    exact Eval.name_of_bound reg (hσ.older.lookup?_eq_some hchain hinner hb)

/-- A registry with another `len` and one native more, and a scope inside one that binds `int`. -/
theorem registry_tabulates_replaced_len :
    ∃ (reg : Registry) (seven : Native) (σ : Store), Forest [0] σ ∧ σ.Chain 1 [1, 0] ∧
      reg.keys = ["len", "append", "remove", "typeof", "print", "string", "int", "seven"] ∧
      reg.find? "len" = some seven ∧
      ∀ t : Token, Eval.eval reg 1 1 (.ident ⟨t, "len"⟩) σ = .ok (.native "len") σ ∧
        Eval.eval reg 1 1 (.ident ⟨t, "int"⟩) σ = .ok (.integer 3) σ ∧
        Eval.eval reg 1 1 (.ident ⟨t, "seventh"⟩) σ =
          .error (.raised (.unboundName "seventh")) σ := by
  let seven : Native := fun _ => pure (.integer 7)
  let later : List (String × Native) := [("seven", seven), ("len", seven)]
  let σ₁ : Store := (Session.new .standard (.console #[])).store.bind 0 "int" ⟨.integer 3, false⟩
  let σ : Store := { σ₁ with scopes := σ₁.scopes.push ⟨.empty, some 0⟩ }
  have hglobal : Forest [0] σ₁ := (forest_new .standard (.console #[])).grown
    (.operation (.define 0 "int" (.integer 3)) .refl ⟨Nat.one_pos, nofun⟩ (Or.inl rfl))
  have hσ : Forest [0] σ :=
    hglobal.grown (.operation (.enclosed 0) .refl Nat.one_pos (Or.inl rfl))
  have hchain : σ.Chain 1 [1, 0] := .inner rfl (.root rfl)
  obtain ⟨htable, hnames⟩ := registry_tabulates_registrations .standard later
  have hlast : LastUnder (standardNatives ++ later) "len" seven :=
    ⟨standardNatives ++ [("seven", seven)], [], rfl, List.not_mem_nil⟩
  refine ⟨Registry.standard.registerAll later, seven, σ, hσ, hchain, rfl,
    (htable.last _ _).2 hlast, fun t => ⟨?_, ?_, ?_⟩⟩
  · have hunbound : ∀ s ∈ [1, 0], σ.binding? s "len" = none :=
      List.forall_mem_cons.2 ⟨rfl, List.forall_mem_singleton.2 rfl⟩
    exact (((hnames hσ hchain ⟨t, "len"⟩ 0).1 hunbound).1 seven hlast).1
  · exact (hnames hσ hchain ⟨t, "int"⟩ 0).2 [1] 0 [] _ rfl (List.forall_mem_singleton.2 rfl) rfl
  · have hunbound : ∀ s ∈ [1, 0], σ.binding? s "seventh" = none :=
      List.forall_mem_cons.2 ⟨rfl, List.forall_mem_singleton.2 rfl⟩
    have hnever : "seventh" ∉ (standardNatives ++ later).map Prod.fst := by
      simp [standardNatives, later]
    exact ((hnames hσ hchain ⟨t, "seventh"⟩ 0).1 hunbound).2.2 hnever

end Scriptlet
