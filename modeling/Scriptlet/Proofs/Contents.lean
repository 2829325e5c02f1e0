import Scriptlet.Proofs.Machine.Preservation
import Scriptlet.Proofs.Reachability

/-!
# Properties of all that can be reached

A property of values holds throughout what a location reaches if every value has it that is stored
there (`Store.AllStored`).

**Lemma (`contents_stable`).** For a property that only functions, finished loops and signals can
lack, this is an invariant: what operations on a store write to a location comes from values that
were in use, and so does what it then holds on to. Nothing is said here of functions; it is for
those who run code to see to it that the functions it makes have the property.
-/

namespace Scriptlet

namespace Store

/-- All values that can be reached from the location have `P`. -/
def AllStored (σ : Store) (P : Value → Prop) (l : Location) : Prop :=
  ∀ m v, σ.Reachable l m → σ.Stored m v → P v

variable {σ τ : Store} {P : Value → Prop} {l m : Location} {v : Value}

theorem Reachable.trans {n : Location} (h : σ.Reachable l m) (h' : σ.Reachable m n) :
    σ.Reachable l n := by
  induction h' with
  | refl => exact h
  | tail _ hp ih => exact .tail ih hp

theorem AllStored.points (h : σ.AllStored P l) (hp : σ.Points l m) : σ.AllStored P m :=
  fun n v hn hv => h n v (Reachable.trans (.tail .refl hp) hn) hv

theorem AllStored.stored (h : σ.AllStored P l) (hv : σ.Stored l v) : P v := h l v .refl hv

/-- A write leaves the property with what it reaches if what it adds has it and points only to what
reaches nothing else. -/
theorem AllStored.write (hpoints : ∀ l m, τ.Points l m → σ.Points l m ∨ σ.AllStored P m)
    (hstored : ∀ l v, τ.Stored l v → σ.Stored l v ∨ P v) (h : σ.AllStored P l) :
    τ.AllStored P l := by
  intro m v hm hv
  -- The locations that reached nothing else in `σ` are a set that nothing in `τ` points out of.
  have hσ : σ.AllStored P m := by
    refine hm.closed (P := σ.AllStored P) h fun m n hm hp => ?_
    rcases hpoints m n hp with hp | hn
    · exact hm.points hp
    · exact hn
  rcases hstored m v hv with hv | hP
  · exact hσ.stored hv
  · exact hP

/-- It is enough that the values at a location have the property, and all it points to reaches
nothing else. -/
theorem AllStored.intro (hpoints : ∀ m, σ.Points l m → σ.AllStored P m)
    (hstored : ∀ v, σ.Stored l v → P v) : σ.AllStored P l := by
  intro m v hm hv
  have hall : m = l ∨ σ.AllStored P m := by
    refine hm.closed (P := fun m => m = l ∨ σ.AllStored P m) (Or.inl rfl) fun m n hm hp =>
      Or.inr ?_
    rcases hm with rfl | hm
    · exact hpoints n hp
    · exact hm.points hp
  rcases hall with rfl | hall
  · exact hstored v hv
  · exact hall.stored hv

end Store

/-! ## The invariant -/

namespace Machine

open Invariant Store

/-- A property that only functions, finished loops and signals can lack, and that a return has only
if the value on its way has it. -/
structure OfCode (P : Value → Prop) : Prop where
  integer (n : Integer) : P (.integer n)
  string (s : String) : P (.string s)
  bool (b : Bool) : P (.bool b)
  null : P .null
  native (x : String) : P (.native x)
  array (id : ArrayId) : P (.array id)
  hash (id : HashId) : P (.hash id)
  returned {v : Value} : P (.ret v) → P v

variable {P : Value → Prop} {σ τ : Store}

/-- What is in use has `P`, and reaches only what has it. -/
def contents (P : Value → Prop) : Invariant where
  store _ := True
  scope σ s := σ.AllStored P (.scope s)
  value σ v := P v ∧ ∀ l, v.location? = some l → σ.AllStored P l
  change σ τ := ∀ l, σ.AllStored P l → τ.AllStored P l

theorem contents_of_values {p : Value → Prop} (hp : ∀ v, p v → (contents P).value σ v)
    {m : Location} (hm : ∃ v, p v ∧ v.location? = some m) : σ.AllStored P m := by
  obtain ⟨v, hv, hm⟩ := hm
  exact (hp v hv).2 m hm

/-- What is stored at a location that reaches nothing else may be in use. -/
theorem contents_of_stored {l : Location} {v : Value} (h : σ.AllStored P l) (hv : σ.Stored l v) :
    (contents P).value σ v :=
  ⟨h.stored hv, fun _ hl => h.points (hv.points hl)⟩

theorem contents_scalar {v : Value} (hv : P v) (hloc : v.location? = none) :
    (contents P).value σ v := by
  refine ⟨hv, fun l hl => ?_⟩
  rw [hloc] at hl
  cases hl

theorem contents_stable (hP : OfCode P) : (contents P).Stable where
  refl _ _ h := h
  trans h h' l hl := h' l (h l hl)
  scope_mono h hs := h _ hs
  value_mono h hv := ⟨hv.1, fun l hl => h l (hv.2 l hl)⟩
  integer n := contents_scalar (hP.integer n) rfl
  string s := contents_scalar (hP.string s) rfl
  bool b := contents_scalar (hP.bool b) rfl
  null := contents_scalar hP.null rfl
  native x := contents_scalar (hP.native x) rfl
  returned h := ⟨hP.returned h.1, h.2⟩
  outer _ hs ho := hs.points (.outer ho)
  binding _ hs hb := contents_of_stored hs (.binding hb)
  item _ hid hv := contents_of_stored (hid.2 _ rfl) (.item hv)
  entry _ hid hv := contents_of_stored (hid.2 _ rfl) (.entry hv)
  bind {σ s y b} _ _ hb _ := by
    refine ⟨trivial, fun l => AllStored.write (fun _ m hp => hp.of_bind.imp_right (hb.2 m)) ?_⟩
    intro l v hv
    rcases hv.of_bind with hv | rfl
    · exact Or.inl hv
    · exact Or.inr hb.1
  openScope {σ s} _ hs := by
    have hchange : ∀ l, σ.AllStored P l →
        AllStored { σ with scopes := σ.scopes.push ⟨.empty, some s⟩ } P l := by
      refine fun l => AllStored.write (fun _ m hp => ?_) fun _ _ hv => Or.inl hv.of_pushScope
      refine hp.of_pushScope.imp_right fun ⟨o, ho, hm⟩ => ?_
      cases ho
      rw [hm]
      exact hs
    refine ⟨⟨trivial, hchange⟩, AllStored.intro (fun m hp => ?_) fun v hv => ?_⟩
    · rcases hp.of_pushScope with hp | ⟨o, ho, rfl⟩
      · exact absurd hp.has (Nat.lt_irrefl _)
      · cases ho
        exact hchange _ hs
    · exact absurd hv.of_pushScope.has (Nat.lt_irrefl _)
  newArray {σ vs} _ hvs := by
    have hchange : ∀ l, σ.AllStored P l →
        AllStored { σ with arrays := σ.arrays.push vs } P l := by
      refine fun l => AllStored.write (fun _ m hp => ?_) fun _ v hv => ?_
      · exact hp.of_pushArray.imp_right (contents_of_values hvs)
      · exact hv.of_pushArray.imp_right fun hv => (hvs v hv).1
    refine ⟨⟨trivial, hchange⟩, hP.array _, fun l hl => ?_⟩
    cases hl
    refine AllStored.intro (fun m hp => ?_) fun v hv => ?_
    · rcases hp.of_pushArray with hp | hm
      · exact absurd hp.has (Nat.lt_irrefl _)
      · exact hchange m (contents_of_values hvs hm)
    · rcases hv.of_pushArray with hv | hv
      · exact absurd hv.has (Nat.lt_irrefl _)
      · exact (hvs v hv).1
  newHash {σ m'} _ hm' := by
    have hchange : ∀ l, σ.AllStored P l →
        AllStored { σ with hashes := σ.hashes.push m' } P l := by
      refine fun l => AllStored.write (fun _ m hp => ?_) fun _ v hv => ?_
      · exact hp.of_pushHash.imp_right (contents_of_values hm')
      · exact hv.of_pushHash.imp_right fun hv => (hm' v hv).1
    refine ⟨⟨trivial, hchange⟩, hP.hash _, fun l hl => ?_⟩
    cases hl
    refine AllStored.intro (fun m hp => ?_) fun v hv => ?_
    · rcases hp.of_pushHash with hp | hm
      · exact absurd hp.has (Nat.lt_irrefl _)
      · exact hchange m (contents_of_values hm' hm)
    · rcases hv.of_pushHash with hv | hv
      · exact absurd hv.has (Nat.lt_irrefl _)
      · exact (hm' v hv).1
  modifyItems {σ id f} _ _ hf := by
    refine ⟨trivial, fun l => AllStored.write (fun _ m hp => ?_) fun _ v hv => ?_⟩
    · exact hp.of_modifyItems.imp_right (contents_of_values hf)
    · exact hv.of_modifyItems.imp_right fun hv => (hf v hv).1
  modifyPairs {σ id f} _ _ hf := by
    refine ⟨trivial, fun l => AllStored.write (fun _ m hp => ?_) fun _ v hv => ?_⟩
    · exact hp.of_modifyPairs.imp_right (contents_of_values hf)
    · exact hv.of_modifyPairs.imp_right fun hv => (hf v hv).1
  rest stamps output _ :=
    ⟨trivial, fun l => AllStored.write (fun _ _ hp => Or.inl hp.of_rest) fun _ _ hv =>
      Or.inl hv.of_rest⟩

end Machine

end Scriptlet
