import Scriptlet.Native.Standard
import Scriptlet.Proofs.Joining.Trees

/-!
# Values and stores up to positions

Positions get into values with functions and finished loops, which keep the code they were made
from, and into the store with such values. `unplaced` takes them out. Whatever is read from a store
without positions is what is read from the store, without its positions; and writing goes along with
it in the same way.
-/

namespace Scriptlet

/-! ## Values -/

def Closure.unplaced (c : Closure) : Closure :=
  { c with params := c.params.map Ident.unplaced, body := c.body.unplaced }

def Loop.unplaced (l : Loop) : Loop :=
  { l with index := l.index.unplaced, value := l.value.unplaced, target := l.target.unplaced,
           body := l.body.unplaced }

namespace Value

def unplaced : Value → Value
  | integer n => integer n
  | string s => string s
  | bool b => bool b
  | null => null
  | ret v => ret v.unplaced
  | error e => error e
  | function c => function c.unplaced
  | native name => native name
  | array id => array id
  | hash id => hash id
  | loop l => loop l.unplaced

@[simp] theorem type_unplaced (v : Value) : v.unplaced.type = v.type := by cases v <;> rfl

@[simp] theorem truthy_unplaced (v : Value) : v.unplaced.truthy = v.truthy := by
  cases v <;> rfl

@[simp] theorem key_unplaced (v : Value) : v.unplaced.key = v.key := by cases v <;> rfl

@[simp] theorem unplaced_value (k : HashKey) : k.value.unplaced = k.value := by cases k <;> rfl

end Value

/-! ## Maps -/

namespace OrderedMap

variable {κ α : Type}

def map (f : α → α) (m : OrderedMap κ α) : OrderedMap κ α := ⟨m.entries.map fun e => (e.1, f e.2)⟩

@[simp] theorem size_map (f : α → α) (m : OrderedMap κ α) : (m.map f).size = m.size :=
  List.length_map ..

variable [DecidableEq κ]

theorem find?_map (f : α → α) (m : OrderedMap κ α) (k : κ) :
    (m.map f).find? k = (m.find? k).map f := by
  obtain ⟨es⟩ := m
  show lookup k (es.map fun e => (e.1, f e.2)) = (lookup k es).map f
  induction es with
  | nil => rfl
  | cons e es ih =>
    rw [List.map_cons, lookup, lookup, ih]
    split <;> rfl

theorem map_insert (f : α → α) (m : OrderedMap κ α) (k : κ) (a : α) :
    (m.insert k a).map f = (m.map f).insert k (f a) := by
  obtain ⟨es⟩ := m
  refine congrArg OrderedMap.mk ?_
  show (put k a es).map _ = put k (f a) (es.map fun e => (e.1, f e.2))
  induction es with
  | nil => rfl
  | cons e es ih =>
    rw [List.map_cons, put, put]
    split
    · rfl
    · rw [List.map_cons, ih]

theorem map_erase (f : α → α) (m : OrderedMap κ α) (k : κ) :
    (m.erase k).map f = (m.map f).erase k := by
  refine congrArg OrderedMap.mk ?_
  show (m.entries.filter _).map _ = (m.entries.map _).filter _
  rw [List.filter_map]
  rfl

end OrderedMap

/-! ## Stores -/

/-- Changing one element goes along with a map if the changes do. -/
theorem map_modify {α : Type} {f f' g : α → α} (h : ∀ a, g (f a) = f' (g a)) (as : Array α)
    (i : Nat) : (as.modify i f).map g = (as.map g).modify i f' := by
  refine Array.ext_getElem? fun j => ?_
  rw [Array.getElem?_map, Array.getElem?_modify, Array.getElem?_modify, Array.getElem?_map]
  split
  · cases as[j]? with
    | none => rfl
    | some a => exact congrArg some (h a)
  · rfl

def Binding.unplaced (b : Binding) : Binding := { b with value := b.value.unplaced }

def Scope.unplaced (s : Scope) : Scope := { s with bindings := s.bindings.map Binding.unplaced }

namespace Store

def unplaced (σ : Store) : Store :=
  { σ with
    scopes := σ.scopes.map Scope.unplaced
    arrays := σ.arrays.map fun vs => vs.map Value.unplaced
    hashes := σ.hashes.map fun m => m.map Value.unplaced }

variable (σ : Store)

/-! ### Names -/

theorem binding?_unplaced (s : ScopeId) (x : String) :
    σ.unplaced.binding? s x = (σ.binding? s x).map Binding.unplaced := by
  rw [binding?, binding?, unplaced, Array.getElem?_map]
  cases σ.scopes[s]? with
  | none => rfl
  | some scope => exact scope.bindings.find?_map _ x

theorem outer?_unplaced (s : ScopeId) : σ.unplaced.outer? s = σ.outer? s := by
  rw [outer?, outer?, unplaced, Array.getElem?_map]
  cases σ.scopes[s]? <;> rfl

theorem owner?_unplaced (s : ScopeId) (x : String) : σ.unplaced.owner? s x = σ.owner? s x :=
  owner?_congr (fun t => by rw [binding?_unplaced, Option.isSome_map]) σ.outer?_unplaced s

theorem lookup?_unplaced (s : ScopeId) (x : String) :
    σ.unplaced.lookup? s x = (σ.lookup? s x).map Binding.unplaced := by
  rw [lookup?, lookup?, owner?_unplaced]
  cases σ.owner? s x with
  | none => rfl
  | some o => exact σ.binding?_unplaced o x

theorem bind_unplaced (s : ScopeId) (x : String) (b : Binding) :
    (σ.bind s x b).unplaced = σ.unplaced.bind s x b.unplaced := by
  have hscopes : (σ.scopes.modify s fun scope =>
      { scope with bindings := scope.bindings.insert x b }).map Scope.unplaced =
        (σ.scopes.map Scope.unplaced).modify s fun scope =>
          { scope with bindings := scope.bindings.insert x b.unplaced } :=
    map_modify (fun scope =>
      congrArg (Scope.mk · scope.outer) (scope.bindings.map_insert _ x b)) σ.scopes s
  exact congrArg (fun scopes => { σ.unplaced with scopes }) hscopes

/-! ### Collections -/

theorem items_unplaced (id : ArrayId) :
    σ.unplaced.items id = (σ.items id).map Value.unplaced := by
  rw [items, items, unplaced, Array.getElem?_map]
  cases σ.arrays[id]? with
  | none => exact Array.map_empty.symm
  | some vs => rfl

theorem pairs_unplaced (id : HashId) : σ.unplaced.pairs id = (σ.pairs id).map Value.unplaced := by
  rw [pairs, pairs, unplaced, Array.getElem?_map]
  cases σ.hashes[id]? <;> rfl

theorem modifyItems_unplaced (id : ArrayId) {f g : Array Value → Array Value}
    (h : ∀ vs, (f vs).map Value.unplaced = g (vs.map Value.unplaced)) :
    (σ.modifyItems id f).unplaced = σ.unplaced.modifyItems id g :=
  congrArg (fun arrays => { σ.unplaced with arrays }) (map_modify h σ.arrays id)

theorem modifyPairs_unplaced (id : HashId)
    {f g : OrderedMap HashKey Value → OrderedMap HashKey Value}
    (h : ∀ m, (f m).map Value.unplaced = g (m.map Value.unplaced)) :
    (σ.modifyPairs id f).unplaced = σ.unplaced.modifyPairs id g :=
  congrArg (fun hashes => { σ.unplaced with hashes }) (map_modify h σ.hashes id)

/-! ### Texts -/

/-- The text of a value does not show positions. -/
theorem textWithin_unplaced (opened : List Collection) (v : Value) :
    σ.unplaced.textWithin opened v.unplaced = σ.textWithin opened v := by
  induction opened, v using textWithin.induct σ with
  | case11 opened id hopen ih =>
    have hitems : ((σ.items id).map Value.unplaced).toList.map
        (σ.unplaced.textWithin (.array id :: opened)) =
          (σ.items id).toList.map (σ.textWithin (.array id :: opened)) := by
      rw [Array.toList_map, List.map_map]
      exact List.map_congr_left fun v hv => ih ⟨v, hv⟩
    rw [Value.unplaced, textWithin_array, textWithin_array, items_unplaced, hitems]
  | case13 opened id hopen ih =>
    have hpairs : ((σ.pairs id).map Value.unplaced).entries.map (fun e =>
        e.1.text ++ ": " ++ σ.unplaced.textWithin (.hash id :: opened) e.2) =
          (σ.pairs id).entries.map fun e =>
            e.1.text ++ ": " ++ σ.textWithin (.hash id :: opened) e.2 := by
      rw [OrderedMap.map, List.map_map]
      exact List.map_congr_left fun e he => congrArg (_ ++ ·) (ih ⟨e, he⟩)
    rw [Value.unplaced, textWithin_hash, textWithin_hash, pairs_unplaced, hpairs]
  | case6 opened v ih => rw [Value.unplaced, textWithin, textWithin, ih]
  | case8 opened c =>
    rw [Value.unplaced, textWithin, textWithin, Closure.unplaced, renderNames_unplaced,
      c.body.render_unplaced]
  | case10 opened id hopen =>
    rw [Value.unplaced, textWithin_array, textWithin_array, if_pos hopen, if_pos hopen]
  | case12 opened id hopen =>
    rw [Value.unplaced, textWithin_hash, textWithin_hash, if_pos hopen, if_pos hopen]
  | case14 opened l => rw [Value.unplaced, textWithin, textWithin]; rfl
  | _ => rw [Value.unplaced, textWithin, textWithin]

theorem text_unplaced (v : Value) : σ.unplaced.text v.unplaced = σ.text v :=
  σ.textWithin_unplaced [] v

end Store

end Scriptlet
