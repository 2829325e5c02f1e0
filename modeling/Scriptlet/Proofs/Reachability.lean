import Scriptlet.Store

/-!
# What a store reaches

Scopes, arrays and hashes are the nodes of a graph, the `Location`s of a store. A scope points to
its outer scope and to what its bindings hold on to, an array or hash to what its elements or
values hold on to. A value holds on to one location at most: an array or hash to itself, a
function or a finished loop to the scope it was made in.

`Store.Reachable` is the closure of `Store.Points`. The graph may have cycles, so what is proved
about it is proved through sets that are closed under `Points` (`Reachable.closed`).
-/

namespace Scriptlet

inductive Location where
  | scope (s : ScopeId)
  | array (id : ArrayId)
  | hash (id : HashId)
deriving DecidableEq, Repr

/-- What a value holds on to. -/
def Value.location? : Value → Option Location
  | .function c => some (.scope c.scope)
  | .loop l => some (.scope l.scope)
  | .array id => some (.array id)
  | .hash id => some (.hash id)
  | .ret v => v.location?
  | .integer _ | .string _ | .bool _ | .null | .error _ | .native _ => none

namespace Store

/-- There is something at a location. -/
def Has (σ : Store) : Location → Prop
  | .scope s => s < σ.scopes.size
  | .array id => id < σ.arrays.size
  | .hash id => id < σ.hashes.size

/-- Two stores have the same at a location: the same bindings, constants and outer scope, the same
elements, the same entries. -/
def Same (σ τ : Store) : Location → Prop
  | .scope s => σ.scopes[s]? = τ.scopes[s]?
  | .array id => σ.arrays[id]? = τ.arrays[id]?
  | .hash id => σ.hashes[id]? = τ.hashes[id]?

/-- Nothing is taken away from `σ` in `τ`. -/
def Grows (σ τ : Store) : Prop := ∀ l, σ.Has l → τ.Has l

/-- What is at the first location holds on to the second. -/
inductive Points (σ : Store) : Location → Location → Prop
  | outer {s o : ScopeId} : σ.outer? s = some o → Points σ (.scope s) (.scope o)
  | binding {s : ScopeId} {x : String} {b : Binding} {l : Location} :
      σ.binding? s x = some b → b.value.location? = some l → Points σ (.scope s) l
  | item {id : ArrayId} {v : Value} {l : Location} :
      v ∈ σ.items id → v.location? = some l → Points σ (.array id) l
  | entry {id : HashId} {v : Value} {l : Location} :
      v ∈ (σ.pairs id).values → v.location? = some l → Points σ (.hash id) l

/-- The value is one of those at the location: it is bound in the scope, or it is an element of the
array or a value of the hash. -/
inductive Stored (σ : Store) : Location → Value → Prop
  | binding {s : ScopeId} {x : String} {b : Binding} :
      σ.binding? s x = some b → Stored σ (.scope s) b.value
  | item {id : ArrayId} {v : Value} : v ∈ σ.items id → Stored σ (.array id) v
  | entry {id : HashId} {v : Value} : v ∈ (σ.pairs id).values → Stored σ (.hash id) v

inductive Reachable (σ : Store) (l : Location) : Location → Prop
  | refl : Reachable σ l l
  | tail {m n : Location} : Reachable σ l m → σ.Points m n → Reachable σ l n

variable {σ τ ρ : Store} {l m : Location}

/-- A set that nothing points out of contains all that is reachable from its members. -/
theorem Reachable.closed {P : Location → Prop} (h : σ.Reachable l m) (hl : P l)
    (hP : ∀ m n, P m → σ.Points m n → P n) : P m := by
  induction h with
  | refl => exact hl
  | tail _ hp ih => exact hP _ _ ih hp

theorem Stored.points {v : Value} (h : σ.Stored l v) (hm : v.location? = some m) :
    σ.Points l m := by
  cases h with
  | binding hb => exact .binding hb hm
  | item hv => exact .item hv hm
  | entry hv => exact .entry hv hm

/-- What points anywhere is a scope inside another, or there is a value that does. -/
theorem Points.cases (h : σ.Points l m) :
    (∃ s o, l = .scope s ∧ m = .scope o ∧ σ.outer? s = some o) ∨
      ∃ v, σ.Stored l v ∧ v.location? = some m := by
  cases h with
  | outer ho => exact Or.inl ⟨_, _, rfl, rfl, ho⟩
  | binding hb hm => exact Or.inr ⟨_, .binding hb, hm⟩
  | item hv hm => exact Or.inr ⟨_, .item hv, hm⟩
  | entry hv hm => exact Or.inr ⟨_, .entry hv, hm⟩

theorem Stored.has {v : Value} (h : σ.Stored l v) : σ.Has l := by
  cases h with
  | binding hb => exact lt_size_of_binding? hb
  | @item id v hv =>
    rw [Store.items] at hv
    by_cases hid : id < σ.arrays.size
    · exact hid
    · rw [Array.getElem?_eq_none (Nat.le_of_not_lt hid)] at hv
      cases Array.not_mem_empty v hv
  | @entry id v hv =>
    rw [Store.pairs] at hv
    by_cases hid : id < σ.hashes.size
    · exact hid
    · rw [Array.getElem?_eq_none (Nat.le_of_not_lt hid)] at hv
      cases hv

/-- Nothing is pointed to from where there is nothing. -/
theorem Points.has (h : σ.Points l m) : σ.Has l := by
  rcases h.cases with ⟨s, o, rfl, -, ho⟩ | ⟨v, hv, -⟩
  · exact lt_size_of_outer? ho
  · exact hv.has

theorem Grows.refl (σ : Store) : σ.Grows σ := fun _ h => h

theorem Grows.trans (h : σ.Grows τ) (h' : τ.Grows ρ) : σ.Grows ρ := fun l hl => h' l (h l hl)

theorem Same.refl (σ : Store) (l : Location) : σ.Same σ l := by
  cases l <;> rfl

theorem Same.trans (h : σ.Same τ l) (h' : τ.Same ρ l) : σ.Same ρ l := by
  cases l with
  | scope s => exact Eq.trans h h'
  | array id => exact Eq.trans h h'
  | hash id => exact Eq.trans h h'

/-! ## What the operations change

Each of the operations on a store changes at most one location, or adds one. -/

section

variable (σ)

theorem grows_bind (s : ScopeId) (x : String) (b : Binding) : σ.Grows (σ.bind s x b) := by
  intro l hl
  cases l with
  | scope t => simpa [Has, bind] using hl
  | array id => exact hl
  | hash id => exact hl

theorem same_bind {s : ScopeId} (x : String) (b : Binding) {l : Location} (h : l ≠ .scope s) :
    σ.Same (σ.bind s x b) l := by
  cases l with
  | scope t =>
    have hst : s ≠ t := fun hst => h (congrArg Location.scope hst.symm)
    simp [Same, bind, Array.getElem?_modify, hst]
  | array id => rfl
  | hash id => rfl

theorem grows_modifyItems (id : ArrayId) (f : Array Value → Array Value) :
    σ.Grows (σ.modifyItems id f) := by
  intro l hl
  cases l with
  | array id' => simpa [Has, modifyItems] using hl
  | scope s => exact hl
  | hash id => exact hl

theorem same_modifyItems {id : ArrayId} (f : Array Value → Array Value) {l : Location}
    (h : l ≠ .array id) : σ.Same (σ.modifyItems id f) l := by
  cases l with
  | array id' =>
    have hid : id ≠ id' := fun hid => h (congrArg Location.array hid.symm)
    simp [Same, modifyItems, Array.getElem?_modify, hid]
  | scope s => rfl
  | hash id => rfl

theorem grows_modifyPairs (id : HashId)
    (f : OrderedMap HashKey Value → OrderedMap HashKey Value) :
    σ.Grows (σ.modifyPairs id f) := by
  intro l hl
  cases l with
  | hash id' => simpa [Has, modifyPairs] using hl
  | scope s => exact hl
  | array id => exact hl

theorem same_modifyPairs {id : HashId} (f : OrderedMap HashKey Value → OrderedMap HashKey Value)
    {l : Location} (h : l ≠ .hash id) : σ.Same (σ.modifyPairs id f) l := by
  cases l with
  | hash id' =>
    have hid : id ≠ id' := fun hid => h (congrArg Location.hash hid.symm)
    simp [Same, modifyPairs, Array.getElem?_modify, hid]
  | scope s => rfl
  | array id => rfl

/-- What is added is added where nothing was. -/
theorem grows_pushScope (scope : Scope) :
    σ.Grows { σ with scopes := σ.scopes.push scope } := by
  intro l hl
  cases l with
  | scope s => exact Nat.lt_of_lt_of_le hl (by simp)
  | array id => exact hl
  | hash id => exact hl

theorem same_pushScope (scope : Scope) {l : Location} (h : σ.Has l) :
    σ.Same { σ with scopes := σ.scopes.push scope } l := by
  cases l with
  | scope s =>
    have hne : s ≠ σ.scopes.size := Nat.ne_of_lt h
    simp [Same, Array.getElem?_push, hne]
  | array id => rfl
  | hash id => rfl

theorem grows_pushArray (vs : Array Value) :
    σ.Grows { σ with arrays := σ.arrays.push vs } := by
  intro l hl
  cases l with
  | array id => exact Nat.lt_of_lt_of_le hl (by simp)
  | scope s => exact hl
  | hash id => exact hl

theorem same_pushArray (vs : Array Value) {l : Location} (h : σ.Has l) :
    σ.Same { σ with arrays := σ.arrays.push vs } l := by
  cases l with
  | array id =>
    have hne : id ≠ σ.arrays.size := Nat.ne_of_lt h
    simp [Same, Array.getElem?_push, hne]
  | scope s => rfl
  | hash id => rfl

theorem grows_pushHash (m : OrderedMap HashKey Value) :
    σ.Grows { σ with hashes := σ.hashes.push m } := by
  intro l hl
  cases l with
  | hash id => exact Nat.lt_of_lt_of_le hl (by simp)
  | scope s => exact hl
  | array id => exact hl

theorem same_pushHash (m : OrderedMap HashKey Value) {l : Location} (h : σ.Has l) :
    σ.Same { σ with hashes := σ.hashes.push m } l := by
  cases l with
  | hash id =>
    have hne : id ≠ σ.hashes.size := Nat.ne_of_lt h
    simp [Same, Array.getElem?_push, hne]
  | scope s => rfl
  | array id => rfl

end

/-! ## What is stored after an operation

What was not stored there before is what the operation stored. -/

section

variable {v : Value}

theorem Stored.of_bind {s : ScopeId} {x : String} {b : Binding} (h : (σ.bind s x b).Stored l v) :
    σ.Stored l v ∨ v = b.value := by
  cases h with
  | binding hb =>
    rw [binding?_bind] at hb
    split at hb
    · cases hb
      exact Or.inr rfl
    · exact Or.inl (.binding hb)
  | item hv => exact Or.inl (.item hv)
  | entry hv => exact Or.inl (.entry hv)

theorem Stored.of_modifyItems {id : ArrayId} {f : Array Value → Array Value}
    (h : (σ.modifyItems id f).Stored l v) : σ.Stored l v ∨ v ∈ f (σ.items id) := by
  cases h with
  | binding hb => exact Or.inl (.binding hb)
  | item hv =>
    rw [items_modifyItems] at hv
    split at hv
    · exact Or.inr hv
    · exact Or.inl (.item hv)
  | entry hv => exact Or.inl (.entry hv)

theorem Stored.of_modifyPairs {id : HashId}
    {f : OrderedMap HashKey Value → OrderedMap HashKey Value}
    (h : (σ.modifyPairs id f).Stored l v) : σ.Stored l v ∨ v ∈ (f (σ.pairs id)).values := by
  cases h with
  | binding hb => exact Or.inl (.binding hb)
  | item hv => exact Or.inl (.item hv)
  | entry hv =>
    rw [pairs_modifyPairs] at hv
    split at hv
    · exact Or.inr hv
    · exact Or.inl (.entry hv)

theorem Stored.of_pushScope {outer : Option ScopeId}
    (h : ({ σ with scopes := σ.scopes.push ⟨.empty, outer⟩ } : Store).Stored l v) :
    σ.Stored l v := by
  cases h with
  | binding hb =>
    rw [binding?_pushScope] at hb
    exact .binding hb
  | item hv => exact .item hv
  | entry hv => exact .entry hv

theorem Stored.of_pushArray {vs : Array Value}
    (h : ({ σ with arrays := σ.arrays.push vs } : Store).Stored l v) :
    σ.Stored l v ∨ v ∈ vs := by
  cases h with
  | binding hb => exact Or.inl (.binding hb)
  | item hv =>
    rw [items_pushArray] at hv
    split at hv
    · exact Or.inr hv
    · exact Or.inl (.item hv)
  | entry hv => exact Or.inl (.entry hv)

theorem Stored.of_pushHash {m' : OrderedMap HashKey Value}
    (h : ({ σ with hashes := σ.hashes.push m' } : Store).Stored l v) :
    σ.Stored l v ∨ v ∈ m'.values := by
  cases h with
  | binding hb => exact Or.inl (.binding hb)
  | item hv => exact Or.inl (.item hv)
  | entry hv =>
    rw [pairs_pushHash] at hv
    split at hv
    · exact Or.inr hv
    · exact Or.inl (.entry hv)

theorem Stored.of_rest {stamps : Nat} {output : Output}
    (h : ({ σ with stamps, output } : Store).Stored l v) : σ.Stored l v := by
  cases h with
  | binding hb => exact .binding hb
  | item hv => exact .item hv
  | entry hv => exact .entry hv

end

/-! ## What points where after an operation

What did not point there before does so because of what was stored. -/

/-- If all that is stored in `τ` was stored in `σ` or has `p`, and scopes are inside what they were
inside, then all that points anywhere did so before or because of something that has `p`. -/
theorem Points.of_stored {p : Value → Prop}
    (hstored : ∀ v, τ.Stored l v → σ.Stored l v ∨ p v)
    (houter : ∀ s o, τ.outer? s = some o → σ.outer? s = some o) (h : τ.Points l m) :
    σ.Points l m ∨ ∃ v, p v ∧ v.location? = some m := by
  rcases h.cases with ⟨s, o, rfl, rfl, ho⟩ | ⟨v, hv, hm⟩
  · exact Or.inl (.outer (houter s o ho))
  · rcases hstored v hv with hv | hp
    · exact Or.inl (hv.points hm)
    · exact Or.inr ⟨v, hp, hm⟩

theorem Points.of_bind {s : ScopeId} {x : String} {b : Binding} (h : (σ.bind s x b).Points l m) :
    σ.Points l m ∨ b.value.location? = some m := by
  have houter : ∀ t o, (σ.bind s x b).outer? t = some o → σ.outer? t = some o := fun t o ho => by
    rwa [outer?_bind] at ho
  rcases h.of_stored (fun v hv => hv.of_bind) houter with h | ⟨v, rfl, hm⟩
  · exact Or.inl h
  · exact Or.inr hm

theorem Points.of_modifyItems {id : ArrayId} {f : Array Value → Array Value}
    (h : (σ.modifyItems id f).Points l m) :
    σ.Points l m ∨ ∃ v ∈ f (σ.items id), v.location? = some m :=
  h.of_stored (fun _ hv => hv.of_modifyItems) fun _ _ ho => ho

theorem Points.of_modifyPairs {id : HashId}
    {f : OrderedMap HashKey Value → OrderedMap HashKey Value}
    (h : (σ.modifyPairs id f).Points l m) :
    σ.Points l m ∨ ∃ v ∈ (f (σ.pairs id)).values, v.location? = some m :=
  h.of_stored (fun _ hv => hv.of_modifyPairs) fun _ _ ho => ho

theorem Points.of_pushScope {outer : Option ScopeId}
    (h : ({ σ with scopes := σ.scopes.push ⟨.empty, outer⟩ } : Store).Points l m) :
    σ.Points l m ∨ ∃ o, outer = some o ∧ m = .scope o := by
  rcases h.cases with ⟨s, o, rfl, rfl, ho⟩ | ⟨v, hv, hm⟩
  · rw [outer?_pushScope] at ho
    split at ho
    · exact Or.inr ⟨o, ho, rfl⟩
    · exact Or.inl (.outer ho)
  · exact Or.inl (hv.of_pushScope.points hm)

theorem Points.of_pushArray {vs : Array Value}
    (h : ({ σ with arrays := σ.arrays.push vs } : Store).Points l m) :
    σ.Points l m ∨ ∃ v ∈ vs, v.location? = some m :=
  h.of_stored (fun _ hv => hv.of_pushArray) fun _ _ ho => ho

theorem Points.of_pushHash {m' : OrderedMap HashKey Value}
    (h : ({ σ with hashes := σ.hashes.push m' } : Store).Points l m) :
    σ.Points l m ∨ ∃ v ∈ m'.values, v.location? = some m :=
  h.of_stored (fun _ hv => hv.of_pushHash) fun _ _ ho => ho

theorem Points.of_rest {stamps : Nat} {output : Output}
    (h : ({ σ with stamps, output } : Store).Points l m) : σ.Points l m := by
  rcases h.cases with ⟨s, o, rfl, rfl, ho⟩ | ⟨v, hv, hm⟩
  · exact .outer ho
  · exact hv.of_rest.points hm

end Store

end Scriptlet
