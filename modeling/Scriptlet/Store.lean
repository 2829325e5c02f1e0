import Scriptlet.OrderedMap
import Scriptlet.Outcome
import Scriptlet.Output
import Scriptlet.Value

/-!
# The store

Everything that a running program shares and changes: its scopes, the contents of its arrays and
hashes, and what it has printed. A scope, array or hash is known by its index, and nothing is
ever taken away, so what an index stands for lasts as long as the store.

**Scopes.** A scope binds names, and falls back on an outer scope for the names it does not bind.
An outer scope is always older than the inner one (`enclose` adds the new scope at the end), so
following outer scopes comes to an end. `owner?` follows them to the nearest scope that binds a
name, and all uses of a name go through it. `Scriptlet.Environments` has scopes by themselves, with
a table of constants of their own and a walk for each use of a name; the scopes of a store do as
those do (`Scriptlet.Proofs.Forest`).
-/

namespace Scriptlet

structure Binding where
  value : Value
  constant : Bool

structure Scope where
  bindings : OrderedMap String Binding
  outer : Option ScopeId

structure Store where
  scopes : Array Scope
  arrays : Array (Array Value)
  hashes : Array (OrderedMap HashKey Value)
  /-- How many functions and loops have been made; the next one gets this number. -/
  stamps : Nat
  output : Output

/-- A computation on the store that may fail. -/
abbrev Action := Run Store RuntimeError

namespace Store

def empty (output : Output) : Store := ⟨#[], #[], #[], 0, output⟩

/-! ## Names -/

/-- The binding of `name` in the scope `s` itself. -/
def binding? (σ : Store) (s : ScopeId) (name : String) : Option Binding :=
  σ.scopes[s]?.bind fun scope => scope.bindings.find? name

/-- The scope next outside `s`. -/
def outer? (σ : Store) (s : ScopeId) : Option ScopeId := σ.scopes[s]?.bind Scope.outer

/-- The nearest scope, from `s` outwards, that binds `name`. -/
def owner? (σ : Store) (s : ScopeId) (name : String) : Option ScopeId :=
  if (σ.binding? s name).isSome then some s
  else
    match σ.outer? s with
    | none => none
    | some o => if o < s then owner? σ o name else none
termination_by s

/-- The binding that `name` stands for in the scope `s`. -/
def lookup? (σ : Store) (s : ScopeId) (name : String) : Option Binding :=
  (σ.owner? s name).bind fun o => σ.binding? o name

def isConstant (σ : Store) (s : ScopeId) (name : String) : Bool :=
  (σ.lookup? s name).any Binding.constant

/-- What owns a name binds it. -/
theorem isSome_of_owner? {σ : Store} {s o : ScopeId} {name : String}
    (h : σ.owner? s name = some o) : (σ.binding? o name).isSome := by
  induction s using owner?.induct σ name with
  | case1 s hbound =>
    rw [owner?, if_pos hbound] at h
    cases h
    exact hbound
  | case2 s hbound houter =>
    rw [owner?, if_neg hbound, houter] at h
    cases h
  | case3 s hbound t houter hlt ih =>
    rw [owner?, if_neg hbound, houter] at h
    exact ih (by simpa [hlt] using h)
  | case4 s hbound t houter hlt =>
    rw [owner?, if_neg hbound, houter] at h
    simp [hlt] at h

theorem owner?_of_bound {σ : Store} {s : ScopeId} {name : String}
    (h : (σ.binding? s name).isSome) : σ.owner? s name = some s := by
  rw [owner?, if_pos h]

/-- What owns a name depends on nothing but where it is bound and what is outside of what. -/
theorem owner?_congr {σ τ : Store} {name : String}
    (hbound : ∀ t, (τ.binding? t name).isSome = (σ.binding? t name).isSome)
    (houter : ∀ t, τ.outer? t = σ.outer? t) (s : ScopeId) :
    τ.owner? s name = σ.owner? s name := by
  induction s using owner?.induct σ name with
  | case1 s hb => rw [owner?, owner?, hbound, if_pos hb, if_pos hb]
  | case2 s hb ho => rw [owner?, owner?, hbound, houter, if_neg hb, if_neg hb, ho]
  | case3 s hb t ho hlt ih =>
    rw [owner?, owner?, hbound, houter, if_neg hb, if_neg hb, ho]
    simp only [if_pos hlt, ih]
  | case4 s hb t ho hlt =>
    rw [owner?, owner?, hbound, houter, if_neg hb, if_neg hb, ho]
    simp only [if_neg hlt]

theorem lt_size_of_binding? {σ : Store} {s : ScopeId} {name : String} {b : Binding}
    (h : σ.binding? s name = some b) : s < σ.scopes.size := by
  obtain ⟨scope, hs, -⟩ := Option.bind_eq_some_iff.1 h
  exact (Array.getElem?_eq_some_iff.1 hs).1

theorem lt_size_of_outer? {σ : Store} {s o : ScopeId} (h : σ.outer? s = some o) :
    s < σ.scopes.size := by
  obtain ⟨scope, hs, -⟩ := Option.bind_eq_some_iff.1 h
  exact (Array.getElem?_eq_some_iff.1 hs).1

/-- Bind `name` in the scope `s`, whatever it was bound to there. -/
def bind (σ : Store) (s : ScopeId) (name : String) (b : Binding) : Store :=
  { σ with
    scopes := σ.scopes.modify s fun scope =>
      { scope with bindings := scope.bindings.insert name b } }

/-! ## Collections -/

/-- The elements of an array. -/
def items (σ : Store) (id : ArrayId) : Array Value := σ.arrays[id]?.getD #[]

/-- The entries of a hash. -/
def pairs (σ : Store) (id : HashId) : OrderedMap HashKey Value := σ.hashes[id]?.getD .empty

/-- Change the elements of an array. -/
def modifyItems (σ : Store) (id : ArrayId) (f : Array Value → Array Value) : Store :=
  { σ with arrays := σ.arrays.modify id f }

/-- Change the entries of a hash. -/
def modifyPairs (σ : Store) (id : HashId)
    (f : OrderedMap HashKey Value → OrderedMap HashKey Value) : Store :=
  { σ with hashes := σ.hashes.modify id f }

/-! ## Reading after a write -/

theorem binding?_bind (σ : Store) (s s' : ScopeId) (name name' : String) (b : Binding) :
    (σ.bind s name b).binding? s' name' =
      if s = s' ∧ name = name' ∧ s < σ.scopes.size then some b else σ.binding? s' name' := by
  unfold bind binding?
  simp only [Array.getElem?_modify]
  by_cases hs : s = s'
  · subst hs
    by_cases hlt : s < σ.scopes.size
    · simp [hlt, OrderedMap.find?_insert]
    · simp [hlt]
  · simp [hs]

@[simp] theorem outer?_bind (σ : Store) (s s' : ScopeId) (name : String) (b : Binding) :
    (σ.bind s name b).outer? s' = σ.outer? s' := by
  unfold bind outer?
  simp only [Array.getElem?_modify]
  by_cases hs : s = s'
  · subst hs; cases σ.scopes[s]? <;> simp
  · simp [hs]

theorem items_modifyItems (σ : Store) (id id' : ArrayId) (f : Array Value → Array Value) :
    (σ.modifyItems id f).items id' =
      if id = id' ∧ id < σ.arrays.size then f (σ.items id) else σ.items id' := by
  unfold modifyItems items
  simp only [Array.getElem?_modify]
  by_cases h : id = id'
  · subst h; by_cases hlt : id < σ.arrays.size <;> simp [hlt]
  · simp [h]

theorem pairs_modifyPairs (σ : Store) (id id' : HashId)
    (f : OrderedMap HashKey Value → OrderedMap HashKey Value) :
    (σ.modifyPairs id f).pairs id' =
      if id = id' ∧ id < σ.hashes.size then f (σ.pairs id) else σ.pairs id' := by
  unfold modifyPairs pairs
  simp only [Array.getElem?_modify]
  by_cases h : id = id'
  · subst h; by_cases hlt : id < σ.hashes.size <;> simp [hlt]
  · simp [h]

/-! ## Reading after something new

What is new comes at the end, and a new scope binds nothing. -/

theorem binding?_pushScope (σ : Store) (outer : Option ScopeId) (s : ScopeId) (name : String) :
    ({ σ with scopes := σ.scopes.push ⟨.empty, outer⟩ } : Store).binding? s name =
      σ.binding? s name := by
  unfold binding?
  simp only [Array.getElem?_push]
  by_cases hs : s = σ.scopes.size
  · subst hs; simp
  · simp [hs]

theorem outer?_pushScope (σ : Store) (outer : Option ScopeId) (s : ScopeId) :
    ({ σ with scopes := σ.scopes.push ⟨.empty, outer⟩ } : Store).outer? s =
      if s = σ.scopes.size then outer else σ.outer? s := by
  unfold outer?
  simp only [Array.getElem?_push]
  by_cases hs : s = σ.scopes.size <;> simp [hs]

theorem items_pushArray (σ : Store) (vs : Array Value) (id : ArrayId) :
    ({ σ with arrays := σ.arrays.push vs } : Store).items id =
      if id = σ.arrays.size then vs else σ.items id := by
  unfold items
  simp only [Array.getElem?_push]
  by_cases hid : id = σ.arrays.size <;> simp [hid]

theorem pairs_pushHash (σ : Store) (m : OrderedMap HashKey Value) (id : HashId) :
    ({ σ with hashes := σ.hashes.push m } : Store).pairs id =
      if id = σ.hashes.size then m else σ.pairs id := by
  unfold pairs
  simp only [Array.getElem?_push]
  by_cases hid : id = σ.hashes.size <;> simp [hid]

/-! ## What programs do to a store -/

variable {ε : Type}

/-- Open a scope in which nothing is bound yet. -/
def openScope (outer : Option ScopeId) : Run Store ε ScopeId := fun σ =>
  .ok σ.scopes.size { σ with scopes := σ.scopes.push ⟨.empty, outer⟩ }

def newArray (items : Array Value) : Run Store ε ArrayId := fun σ =>
  .ok σ.arrays.size { σ with arrays := σ.arrays.push items }

def newHash (pairs : OrderedMap HashKey Value) : Run Store ε HashId := fun σ =>
  .ok σ.hashes.size { σ with hashes := σ.hashes.push pairs }

def newStamp : Run Store ε Nat := fun σ => .ok σ.stamps { σ with stamps := σ.stamps + 1 }

/-- Print a line, which may be refused. -/
def print (line : String) : Action Unit := fun σ =>
  match σ.output.write line with
  | (none, output) => .ok () { σ with output }
  | (some reason, output) => .error (.outputFailed reason) { σ with output }

/-- Bind a name that the scope does not bind yet. -/
def define (s : ScopeId) (name : String) (v : Value) : Action Unit := fun σ =>
  match σ.binding? s name with
  | some _ => .error (.alreadyBound name) σ
  | none => .ok () (σ.bind s name ⟨v, false⟩)

/-- Bind a name for good. It may be bound already, but not as a constant. -/
def defineConstant (s : ScopeId) (name : String) (v : Value) : Action Unit := fun σ =>
  if (σ.binding? s name).any Binding.constant then .error (.constantReassigned name) σ
  else .ok () (σ.bind s name ⟨v, true⟩)

/-- Change what a name stands for, in the scope that owns it. -/
def reassign (s : ScopeId) (name : String) (v : Value) : Action Unit := fun σ =>
  match σ.owner? s name with
  | none => .error (.unboundName name) σ
  | some o =>
    if (σ.binding? o name).any Binding.constant then .error (.constantReassigned name) σ
    else .ok () (σ.bind o name ⟨v, false⟩)

/-- Add an element at the end of an array. -/
def pushItem (id : ArrayId) (v : Value) : Run Store ε Unit :=
  Run.update fun σ => σ.modifyItems id (·.push v)

/-- Delete the element at a place of an array. The result is that element, if there was one. -/
def takeItem (id : ArrayId) (n : Integer) : Run Store ε (Option Value) := fun σ =>
  match n.place? with
  | none => .ok none σ
  | some i => .ok (σ.items id)[i]? (σ.modifyItems id (·.eraseIdxIfInBounds i))

/-- Set the entry of a hash at the key that `k` is. -/
def setEntry (id : HashId) (k v : Value) : Action Unit := fun σ =>
  match k.key with
  | .error e => .error e σ
  | .ok key => .ok () (σ.modifyPairs id (·.insert key v))

/-- Delete the entry of a hash at the key that `k` is. The result is its value, if there was one.
-/
def takeEntry (id : HashId) (k : Value) : Action (Option Value) := fun σ =>
  match k.key with
  | .error e => .error e σ
  | .ok key => .ok ((σ.pairs id).find? key) (σ.modifyPairs id (·.erase key))

end Store

end Scriptlet
