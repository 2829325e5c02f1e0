import Scriptlet.Store

/-!
# Natives

A native is a function that programs can call but that is not written in the language. It works
on its arguments and the store. A `Registry` says which natives there are, under which names; a
program sees them where no binding hides them.
-/

namespace Scriptlet

abbrev Native := List Value → Action Value

/-- Natives by name, in the order in which the names were first registered. -/
abbrev Registry := OrderedMap String Native

/-- Make `native` the native called `name`, in the place of an earlier one if there is one. -/
def Registry.register (reg : Registry) (name : String) (native : Native) : Registry :=
  OrderedMap.insert reg name native

/-- All natives of a registry have the property `P`. -/
def Registry.Every (P : Native → Prop) (reg : Registry) : Prop :=
  ∀ x native, reg.find? x = some native → P native

namespace Registry.Every

variable {P Q : Native → Prop} {reg : Registry}

theorem empty : Registry.Every P .empty := fun x native h => by cases h

theorem mono (h : reg.Every P) (hPQ : ∀ native, P native → Q native) : reg.Every Q :=
  fun x native hx => hPQ native (h x native hx)

theorem register {name : String} {native : Native} (h : reg.Every P) (hn : P native) :
    (reg.register name native).Every P := by
  intro x native' hx
  rw [Registry.register, OrderedMap.find?_insert] at hx
  by_cases hxn : name = x
  · rw [if_pos hxn] at hx
    cases hx
    exact hn
  · rw [if_neg hxn] at hx
    exact h x native' hx

end Registry.Every

end Scriptlet
