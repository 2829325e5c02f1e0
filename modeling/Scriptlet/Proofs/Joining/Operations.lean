import Scriptlet.Proofs.Joining.Values
import Mathlib.Data.List.InsertIdx

/-!
# Operations up to positions

`Mirrors g f x y` says of two computations `x` and `y` that `y`, in a store without positions, does
what `x` does in the store, and leaves the same without positions. Here `f` takes the positions out
of values and `g` out of reasons for failure. It is carried through steps in sequence
(`Mirrors.bind`), so each operation needs only its own steps.

**Lemma (`blind_standard`).** The standard natives do not look at positions.
-/

namespace Scriptlet

/-- The outcome without positions. -/
def Outcome.unplaced {ε α β : Type} (g : ε → ε) (f : α → β) :
    Outcome Store ε α → Outcome Store ε β
  | .ok a σ => .ok (f a) σ.unplaced
  | .error e σ => .error (g e) σ.unplaced
  | .outOfFuel => .outOfFuel

/-- Without positions, `y` is what `x` is. -/
def Mirrors {ε α β : Type} (g : ε → ε) (f : α → β) (x : Run Store ε α) (y : Run Store ε β) : Prop :=
  ∀ σ, y σ.unplaced = (x σ).unplaced g f

namespace Mirrors

variable {ε α α' β β' : Type} {g : ε → ε} {f : α → α'} {h : β → β'}

theorem pure (a : α) : Mirrors g f (Pure.pure a) (Pure.pure (f a)) := fun _ => rfl

theorem fail {e e' : ε} (he : g e = e') : Mirrors g f (Run.fail e) (Run.fail e') := fun _ =>
  congrArg (Outcome.error · _) he.symm

theorem exhausted : Mirrors g f Run.exhausted Run.exhausted := fun _ => rfl

theorem read {u : Store → α} {u' : Store → α'} (hu : ∀ σ, u' σ.unplaced = f (u σ)) :
    Mirrors g f (Run.read u) (Run.read u') := fun σ => congrArg (Outcome.ok · σ.unplaced) (hu σ)

theorem update {u u' : Store → Store} (hu : ∀ σ, u' σ.unplaced = (u σ).unplaced) :
    Mirrors g id (Run.update u) (Run.update u') := fun σ => congrArg (Outcome.ok ()) (hu σ)

theorem bind {x : Run Store ε α} {y : Run Store ε α'} {k : α → Run Store ε β}
    {k' : α' → Run Store ε β'} (hx : Mirrors g f x y) (hk : ∀ a, Mirrors g h (k a) (k' (f a))) :
    Mirrors g h (x >>= k) (y >>= k') := by
  intro σ
  rw [Run.bind_apply, Run.bind_apply, hx σ]
  cases x σ with
  | ok a τ => exact hk a τ
  | error e τ => rfl
  | outOfFuel => rfl

theorem ite {c c' : Prop} [Decidable c] [Decidable c'] (hc : c' ↔ c)
    {x x' : Run Store ε α} {y y' : Run Store ε α'} (hx : Mirrors g f x y)
    (hx' : Mirrors g f x' y') : Mirrors g f (if c then x else x') (if c' then y else y') := by
  by_cases h : c
  · rw [if_pos h, if_pos (hc.2 h)]
    exact hx
  · rw [if_neg h, if_neg (mt hc.1 h)]
    exact hx'

end Mirrors

/-! ## What programs do to the store -/

namespace Store

theorem any_constant_unplaced (b : Option Binding) :
    (b.map Binding.unplaced).any Binding.constant = b.any Binding.constant := by
  cases b <;> rfl

theorem mirrors_define (s : ScopeId) (x : String) (v : Value) :
    Mirrors id id (define s x v) (define s x v.unplaced) := by
  intro σ
  rw [define, define, binding?_unplaced]
  cases σ.binding? s x with
  | none => exact congrArg (Outcome.ok ()) (σ.bind_unplaced s x ⟨v, false⟩).symm
  | some b => rfl

theorem mirrors_defineConstant (s : ScopeId) (x : String) (v : Value) :
    Mirrors id id (defineConstant s x v) (defineConstant s x v.unplaced) := by
  intro σ
  rw [defineConstant, defineConstant, binding?_unplaced, any_constant_unplaced]
  split
  · rfl
  · exact congrArg (Outcome.ok ()) (σ.bind_unplaced s x ⟨v, true⟩).symm

theorem mirrors_reassign (s : ScopeId) (x : String) (v : Value) :
    Mirrors id id (reassign s x v) (reassign s x v.unplaced) := by
  intro σ
  rw [reassign, reassign, owner?_unplaced]
  cases σ.owner? s x with
  | none => rfl
  | some o =>
    dsimp only
    rw [binding?_unplaced, any_constant_unplaced]
    split
    · rfl
    · exact congrArg (Outcome.ok ()) (σ.bind_unplaced o x ⟨v, false⟩).symm

theorem mirrors_print (line : String) : Mirrors id id (print line) (print line) := by
  intro σ
  have houtput : σ.unplaced.output = σ.output := rfl
  rw [print, print, houtput]
  rcases σ.output.write line with ⟨_ | reason, output⟩ <;> rfl

variable {ε : Type} {g : ε → ε}

theorem mirrors_openScope (outer : Option ScopeId) :
    Mirrors g id (openScope outer) (openScope outer) := by
  intro σ
  simp only [openScope, Outcome.unplaced, unplaced, Array.size_map, Array.map_push]
  rfl

theorem mirrors_newStamp : Mirrors g id newStamp newStamp := fun _ => rfl

theorem mirrors_newArray (vs : Array Value) :
    Mirrors g id (newArray vs) (newArray (vs.map Value.unplaced)) := by
  intro σ
  simp only [newArray, Outcome.unplaced, unplaced, Array.size_map, Array.map_push]
  rfl

theorem mirrors_newHash (m : OrderedMap HashKey Value) :
    Mirrors g id (newHash m) (newHash (m.map Value.unplaced)) := by
  intro σ
  simp only [newHash, Outcome.unplaced, unplaced, Array.size_map, Array.map_push]
  rfl

theorem mirrors_pushItem (id' : ArrayId) (v : Value) :
    Mirrors g id (pushItem id' v) (pushItem id' v.unplaced) :=
  .update fun σ => (σ.modifyItems_unplaced id' fun _ => Array.map_push).symm

theorem map_eraseIdxIfInBounds {α β : Type} (f : α → β) (as : Array α) (i : Nat) :
    (as.eraseIdxIfInBounds i).map f = (as.map f).eraseIdxIfInBounds i := by
  rw [← Array.toList_inj, Array.toList_map, Array.toList_eraseIdxIfInBounds,
    Array.toList_eraseIdxIfInBounds, Array.toList_map, List.eraseIdx_map]

theorem mirrors_takeItem (id' : ArrayId) (n : Integer) :
    Mirrors g (Option.map Value.unplaced) (takeItem id' n) (takeItem id' n) := by
  intro σ
  rw [takeItem, takeItem]
  cases n.place? with
  | none => rfl
  | some i =>
    dsimp only
    rw [items_unplaced, Array.getElem?_map,
      ← σ.modifyItems_unplaced id' fun vs => map_eraseIdxIfInBounds Value.unplaced vs i]
    rfl

theorem mirrors_setEntry (id' : HashId) (k v : Value) :
    Mirrors id id (setEntry id' k v) (setEntry id' k.unplaced v.unplaced) := by
  intro σ
  rw [setEntry, setEntry, Value.key_unplaced]
  cases k.key with
  | error e => rfl
  | ok key =>
    exact congrArg (Outcome.ok ())
      (σ.modifyPairs_unplaced id' fun m => m.map_insert Value.unplaced key v).symm

theorem mirrors_takeEntry (id' : HashId) (k : Value) :
    Mirrors id (Option.map Value.unplaced) (takeEntry id' k) (takeEntry id' k.unplaced) := by
  intro σ
  rw [takeEntry, takeEntry, Value.key_unplaced]
  cases k.key with
  | error e => rfl
  | ok key =>
    dsimp only
    rw [pairs_unplaced, OrderedMap.find?_map,
      ← σ.modifyPairs_unplaced id' fun m => m.map_erase Value.unplaced key]
    rfl

end Store

/-! ## Natives -/

/-- The native does not look at positions. -/
def Native.Blind (native : Native) : Prop :=
  ∀ args, Mirrors id Value.unplaced (native args) (native (args.map Value.unplaced))

/-- No native of the registry looks at positions. -/
def Registry.Blind (reg : Registry) : Prop :=
  ∀ x native, reg.find? x = some native → native.Blind

namespace Native

theorem blind_ofUnary {name : String} {f : Value → Action Value}
    (hf : ∀ v, Mirrors id Value.unplaced (f v) (f v.unplaced)) : (ofUnary name f).Blind
  | [] => .fail rfl
  | [v] => hf v
  | _ :: _ :: _ => .fail (by simp)

theorem blind_ofBinary {name : String} {f : Value → Value → Action Value}
    (hf : ∀ v w, Mirrors id Value.unplaced (f v w) (f v.unplaced w.unplaced)) :
    (ofBinary name f).Blind
  | [] | [_] => .fail rfl
  | [v, w] => hf v w
  | _ :: _ :: _ :: _ => .fail (by simp)

theorem blind_len : len.Blind := by
  refine blind_ofUnary fun v => ?_
  cases v with
  | string s => exact .pure (Value.integer _)
  | array id' =>
    refine .bind (.read fun σ => σ.items_unplaced id') fun items => ?_
    rw [Array.size_map]
    exact .pure (Value.integer _)
  | hash id' =>
    refine .bind (.read fun σ => σ.pairs_unplaced id') fun pairs => ?_
    rw [OrderedMap.size_map]
    exact .pure (Value.integer _)
  | _ => exact .fail rfl

theorem blind_append : append.Blind := by
  rintro (_ | ⟨v, args⟩)
  · exact .fail rfl
  cases v with
  | array id' =>
    obtain _ | ⟨v, _ | ⟨w, args⟩⟩ := args
    · exact .fail rfl
    · exact .bind (Store.mirrors_pushItem id' v) fun _ => .pure (Value.array id')
    · exact .fail (by simp)
  | hash id' =>
    obtain _ | ⟨k, _ | ⟨v, _ | ⟨w, args⟩⟩⟩ := args
    · exact .fail rfl
    · exact .fail rfl
    · exact .bind (Store.mirrors_setEntry id' k v) fun _ => .pure (Value.hash id')
    · exact .fail (by simp)
  | _ => exact .fail rfl

theorem blind_remove : remove.Blind := by
  refine blind_ofBinary fun v w => ?_
  have hpure (taken : Option Value) :
      Mirrors id Value.unplaced (Pure.pure (.bool taken.isSome) : Action Value)
        (Pure.pure (.bool (taken.map Value.unplaced).isSome)) := by
    rw [Option.isSome_map]
    exact .pure (Value.bool _)
  cases v with
  | array id' =>
    cases w with
    | integer n => exact .bind (Store.mirrors_takeItem id' n) hpure
    | _ => exact .fail rfl
  | hash id' => exact .bind (Store.mirrors_takeEntry id' w) hpure
  | _ => exact .fail rfl

theorem blind_typeOf : typeOf.Blind := by
  refine blind_ofUnary fun v => ?_
  rw [Value.type_unplaced]
  exact .pure (Value.string _)

theorem mirrors_texts (args : List Value) :
    Mirrors id id (Run.read fun σ => args.map σ.text : Action (List String))
      (Run.read fun σ => (args.map Value.unplaced).map σ.text) := by
  refine .read fun σ => ?_
  rw [List.map_map]
  exact List.map_congr_left fun v _ => σ.text_unplaced v

theorem blind_print : print.Blind := fun args =>
  .bind (mirrors_texts args) fun _ => .bind (Store.mirrors_print _) fun _ => .pure Value.null

theorem blind_string : string.Blind := fun args =>
  .bind (mirrors_texts args) fun _ => .pure (Value.string _)

theorem blind_int : int.Blind := by
  refine blind_ofUnary fun v => ?_
  cases v with
  | string s =>
    dsimp only [Value.unplaced]
    cases leadingInteger? s with
    | none => exact .pure Value.null
    | some n => exact .pure (Value.integer n)
  | _ => exact .fail rfl

end Native

/-- The standard natives do not look at positions. -/
theorem Registry.blind_standard : Registry.standard.Blind :=
  Registry.every_standard Native.blind_len Native.blind_append Native.blind_remove
    Native.blind_typeOf Native.blind_print Native.blind_string Native.blind_int

end Scriptlet
