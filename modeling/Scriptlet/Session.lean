import Scriptlet.Evaluator
import Scriptlet.Native.Standard
import Scriptlet.Syntax.Parse

/-!
# Sessions

A session runs one source after the other over the same global scope, so each sees what the
earlier ones bound.
-/

namespace Scriptlet

structure Session where
  registry : Registry
  store : Store
  globals : ScopeId

namespace Session

/-- A session in which nothing is bound yet. -/
def new (registry : Registry) (output : Output) : Session where
  registry
  store := { Store.empty output with scopes := #[⟨.empty, none⟩] }
  globals := 0

/-- What a name stands for in a new session. -/
theorem name_new {registry : Registry} {x : String} {native : Native} (output : Output)
    (hx : registry.find? x = some native) :
    Eval.name registry 0 x (new registry output).store =
      .ok (.native x) (new registry output).store := by
  have hunbound : (new registry output).store.lookup? 0 x = none := by
    rw [Store.lookup?, Store.owner?]
    rfl
  simp [Eval.name, Run.bind_apply, hunbound, OrderedMap.contains, hx]

/-- Run one source, nesting no deeper than `depth`. A source that cannot be read changes nothing;
the result of one that can is its value, unless it was cut off for its depth. -/
def eval (session : Session) (depth : Nat) (source : String) :
    Except (List Diagnostic) (Option (Value × Session)) := do
  let program ← parse source
  return (program.run session.registry depth session.globals session.store).map fun a =>
    (a.1, { session with store := a.2 })

/-- What a name is bound to in the global scope. -/
def get? (session : Session) (name : String) : Option Value :=
  (session.store.lookup? session.globals name).map Binding.value

def isConstant (session : Session) (name : String) : Bool :=
  session.store.isConstant session.globals name

/-- Take the lines held back since the last time. -/
def takeOutput (session : Session) : List String × Session :=
  let taken := session.store.output.take
  (taken.1, { session with store := { session.store with output := taken.2 } })

end Session

end Scriptlet
