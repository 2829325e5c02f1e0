import Scriptlet.Evaluator
import Scriptlet.Native.Standard

/-!
# What does not look at scopes

A computation is `Scopeless` if it does the same over any scopes: with other scopes in the store it
ends the same way, and those other scopes are left in the store. What is made of scopeless steps
is scopeless (`Scopeless.bind`), and no scopeless computation changes a scope (`Scopeless.ok`).

**Lemma (`scopeless_standard`).** The standard natives are scopeless. The one place where one might
doubt it is the text of a value, which shows functions, but not the scopes they were made in.

Of the evaluation itself, what works on collections and on the results of natives is scopeless.
-/

namespace Scriptlet

/-- The store with these scopes. -/
def Store.withScopes (σ : Store) (scopes : Array Scope) : Store := { σ with scopes }

/-- The outcome with these scopes in the store that is left. -/
def Outcome.withScopes {ε α : Type} (scopes : Array Scope) :
    Outcome Store ε α → Outcome Store ε α
  | .ok a σ => .ok a (σ.withScopes scopes)
  | .error e σ => .error e (σ.withScopes scopes)
  | .outOfFuel => .outOfFuel

/-- Over other scopes, `x` does the same. -/
def Scopeless {ε α : Type} (x : Run Store ε α) : Prop :=
  ∀ σ scopes, x (σ.withScopes scopes) = (x σ).withScopes scopes

namespace Scopeless

variable {ε ε' α β : Type} {x : Run Store ε α} {σ τ : Store}

theorem pure (a : α) : Scopeless (Pure.pure a : Run Store ε α) := fun _ _ => rfl

theorem fail (e : ε) : Scopeless (Run.fail e : Run Store ε α) := fun _ _ => rfl

theorem read {f : Store → α} (hf : ∀ σ scopes, f (σ.withScopes scopes) = f σ) :
    Scopeless (Run.read f : Run Store ε α) :=
  fun σ scopes => congrArg (Outcome.ok · (σ.withScopes scopes)) (hf σ scopes)

theorem update {f : Store → Store}
    (hf : ∀ σ scopes, f (σ.withScopes scopes) = (f σ).withScopes scopes) :
    Scopeless (Run.update f : Run Store ε Unit) :=
  fun σ scopes => congrArg (Outcome.ok ()) (hf σ scopes)

theorem bind {f : α → Run Store ε β} (hx : Scopeless x) (hf : ∀ a, Scopeless (f a)) :
    Scopeless (x >>= f) := by
  intro σ scopes
  rw [Run.bind_apply, Run.bind_apply, hx σ scopes]
  cases x σ with
  | ok a τ => exact hf a τ scopes
  | error e τ => rfl
  | outOfFuel => rfl

theorem mapError (g : ε → ε') (hx : Scopeless x) : Scopeless (Run.mapError g x) := by
  intro σ scopes
  unfold Run.mapError
  rw [hx σ scopes]
  cases x σ <;> rfl

/-- The scopes that are there are left as they are. -/
theorem ok (hx : Scopeless x) {a : α} (h : x σ = .ok a τ) : τ.scopes = σ.scopes := by
  have hsame : x σ = (x σ).withScopes σ.scopes := hx σ σ.scopes
  rw [h] at hsame
  injection hsame with _ hτ
  rw [hτ]
  rfl

theorem error (hx : Scopeless x) {e : ε} (h : x σ = .error e τ) : τ.scopes = σ.scopes := by
  have hsame : x σ = (x σ).withScopes σ.scopes := hx σ σ.scopes
  rw [h] at hsame
  injection hsame with _ hτ
  rw [hτ]
  rfl

end Scopeless

/-! ## Operations on collections -/

namespace Store

variable {ε : Type}

theorem scopeless_newStamp : Scopeless (newStamp : Run Store ε Nat) := fun _ _ => rfl

theorem scopeless_newArray (vs : Array Value) : Scopeless (newArray vs : Run Store ε ArrayId) :=
  fun _ _ => rfl

theorem scopeless_newHash (m : OrderedMap HashKey Value) :
    Scopeless (newHash m : Run Store ε HashId) := fun _ _ => rfl

theorem scopeless_print (line : String) : Scopeless (print line) := by
  intro σ scopes
  have houtput : (σ.withScopes scopes).output = σ.output := rfl
  rw [print, print, houtput]
  rcases σ.output.write line with ⟨_ | reason, output⟩ <;> rfl

theorem scopeless_takeItem (id : ArrayId) (n : Integer) :
    Scopeless (takeItem id n : Run Store ε (Option Value)) := by
  intro σ scopes
  unfold takeItem
  cases n.place? <;> rfl

theorem scopeless_setEntry (id : HashId) (k v : Value) : Scopeless (setEntry id k v) := by
  intro σ scopes
  unfold setEntry
  cases k.key <;> rfl

theorem scopeless_takeEntry (id : HashId) (k : Value) : Scopeless (takeEntry id k) := by
  intro σ scopes
  unfold takeEntry
  cases k.key <;> rfl

theorem textWithin_withScopes (σ : Store) (scopes : Array Scope) (opened : List Collection)
    (v : Value) : (σ.withScopes scopes).textWithin opened v = σ.textWithin opened v := by
  induction opened, v using textWithin.induct σ with
  | case6 opened v ih => rw [textWithin, textWithin, ih]
  | case10 opened id hopen => rw [textWithin_array, textWithin_array, if_pos hopen, if_pos hopen]
  | case11 opened id hopen ih =>
    have hitems : (σ.items id).toList.map ((σ.withScopes scopes).textWithin (.array id :: opened)) =
        (σ.items id).toList.map (σ.textWithin (.array id :: opened)) :=
      List.map_congr_left fun v hv => ih ⟨v, hv⟩
    rw [textWithin_array, textWithin_array, ← hitems]
    rfl
  | case12 opened id hopen => rw [textWithin_hash, textWithin_hash, if_pos hopen, if_pos hopen]
  | case13 opened id hopen ih =>
    have hpairs : (σ.pairs id).entries.map (fun e =>
        e.1.text ++ ": " ++ (σ.withScopes scopes).textWithin (.hash id :: opened) e.2) =
          (σ.pairs id).entries.map fun e =>
            e.1.text ++ ": " ++ σ.textWithin (.hash id :: opened) e.2 :=
      List.map_congr_left fun e he => congrArg (_ ++ ·) (ih ⟨e, he⟩)
    rw [textWithin_hash, textWithin_hash, ← hpairs]
    rfl
  | _ => rw [textWithin, textWithin]

theorem scopeless_texts (args : List Value) :
    Scopeless (Run.read fun σ => args.map σ.text : Action (List String)) :=
  .read fun σ scopes => List.map_congr_left fun v _ => textWithin_withScopes σ scopes [] v

end Store

/-! ## Natives -/

/-- The native does not look at scopes. -/
def Native.Scopeless (native : Native) : Prop := ∀ args, Scriptlet.Scopeless (native args)

namespace Native

theorem scopeless_ofUnary {name : String} {f : Value → Action Value}
    (hf : ∀ v, Scriptlet.Scopeless (f v)) : (ofUnary name f).Scopeless := by
  intro args
  unfold ofUnary
  split
  · exact hf _
  · exact .fail _

theorem scopeless_ofBinary {name : String} {f : Value → Value → Action Value}
    (hf : ∀ v w, Scriptlet.Scopeless (f v w)) : (ofBinary name f).Scopeless := by
  intro args
  unfold ofBinary
  split
  · exact hf _ _
  · exact .fail _

theorem scopeless_len : len.Scopeless := by
  refine scopeless_ofUnary fun v => ?_
  cases v with
  | string s => exact .pure _
  | array id => exact .bind (.read fun _ _ => rfl) fun _ => .pure _
  | hash id => exact .bind (.read fun _ _ => rfl) fun _ => .pure _
  | _ => exact .fail _

theorem scopeless_append : append.Scopeless := by
  intro args
  unfold append
  split
  · exact .bind (.update fun _ _ => rfl) fun _ => .pure _
  · exact .bind (Store.scopeless_setEntry _ _ _) fun _ => .pure _
  all_goals exact .fail _

theorem scopeless_remove : remove.Scopeless := by
  refine scopeless_ofBinary fun v w => ?_
  split
  · exact .bind (Store.scopeless_takeItem _ _) fun _ => .pure _
  · exact .fail _
  · exact .bind (Store.scopeless_takeEntry _ _) fun _ => .pure _
  · exact .fail _

theorem scopeless_typeOf : typeOf.Scopeless := scopeless_ofUnary fun _ => .pure _

theorem scopeless_print : print.Scopeless := fun args =>
  .bind (Store.scopeless_texts args) fun _ => .bind (Store.scopeless_print _) fun _ => .pure _

theorem scopeless_string : string.Scopeless := fun args =>
  .bind (Store.scopeless_texts args) fun _ => .pure _

theorem scopeless_int : int.Scopeless := by
  refine scopeless_ofUnary fun v => ?_
  cases v with
  | string s =>
    dsimp only
    cases leadingInteger? s <;> exact .pure _
  | _ => exact .fail _

end Native

/-- **The standard natives do not look at scopes.** -/
theorem Registry.scopeless_standard : Registry.standard.Every Native.Scopeless :=
  Registry.every_standard Native.scopeless_len Native.scopeless_append Native.scopeless_remove
    Native.scopeless_typeOf Native.scopeless_print Native.scopeless_string Native.scopeless_int

/-! ## Parts of an evaluation -/

namespace Eval

theorem scopeless_ofExcept {α : Type} (r : Except RuntimeError α) : Scopeless (ofExcept r) := by
  cases r with
  | ok a => exact .pure a
  | error e => exact .fail _

theorem scopeless_index (base v : Value) :
    Scopeless (Run.read id >>= fun σ => ofExcept (σ.index base v)) :=
  fun σ scopes => scopeless_ofExcept (σ.index base v) σ scopes

theorem scopeless_entries (v : Value) : Scopeless (entries v) := by
  cases v with
  | array id => exact .read fun _ _ => rfl
  | hash id => exact .read fun _ _ => rfl
  | _ => exact .fail _

theorem scopeless_ofNative (v : Value) : Scopeless (ofNative v) := by
  cases v with
  | error e => exact .fail _
  | _ => exact .pure _

end Eval

end Scriptlet
