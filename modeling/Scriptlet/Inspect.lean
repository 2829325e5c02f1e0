import Scriptlet.Store
import Scriptlet.Text.Quoted

/-!
# Inspection

Short texts that tell a developer what a scope, a function, a native or a loop is made of. They
never look into the captured scope, since that may lead back to where one started.
-/

namespace Scriptlet

/-- What a callable or a loop is made of. Other values have their printed text for that. -/
def Value.inspect? : Value → Option String
  | .function c =>
    some ("Function(Function \x7b parameters: " ++ Text.quotedList (c.params.map Ident.name) ++
      ", .. \x7d)")
  | .native name => some ("Builtin(Builtin(" ++ name ++ "))")
  | .loop l =>
    some ("For(ForLoop \x7b index: " ++ Text.quoted l.index.name ++ ", value: " ++
      Text.quoted l.value.name ++ ", target: " ++ Text.quoted l.target.name ++ ", .. \x7d)")
  | _ => none

/-- The names bound in a scope, in alphabetical order. -/
def Store.names (σ : Store) (s : ScopeId) : List String :=
  (σ.scopes[s]?.elim [] fun scope => scope.bindings.keys).mergeSort fun a b => !(b < a)

/-- The names bound in a scope, and whether it has an outer one. -/
def Store.inspectScope (σ : Store) (s : ScopeId) : String :=
  "Environment \x7b names: " ++ Text.quotedList (σ.names s) ++ ", has_outer: " ++
    (if (σ.outer? s).isSome then "true" else "false") ++ " \x7d"

end Scriptlet
