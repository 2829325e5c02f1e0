import Scriptlet.Proofs.Contents

/-!
# Where a name does not occur

The names of a piece of code are those it looks up, binds or assigns. A location is `Clear` of a
name if no function stored at it, or at anything that can be reached from it, names it.

**Lemma (`clear_stable`).** To be clear of a name is an invariant. Nothing is said here of
functions; it is for those who run code to see to it that the code does not name the name.
-/

namespace Scriptlet

/-! ## Names -/

mutual

/-- The names that the code looks up, binds or assigns. -/
def Expr.names : Expr → List String
  | .ident x => [x.name]
  | .int _ _ | .str _ _ | .bool _ _ | .null _ => []
  | .unary _ _ e => e.names
  | .binary _ _ l r => l.names ++ r.names
  | .assign _ x e => x.name :: e.names
  | .ifElse _ e yes no => e.names ++ yes.names ++ elseNames no
  | .fn _ ps b => ps.map Ident.name ++ b.names
  | .call _ f es => f.names ++ exprsNames es
  | .array _ es => exprsNames es
  | .hash _ kvs => pairsNames kvs
  | .index _ e i => e.names ++ i.names
  | .forIn _ i v t b => i.name :: v.name :: t.name :: b.names

def Stmt.names : Stmt → List String
  | .declare _ _ x e => x.name :: e.names
  | .ret _ e => e.names
  | .expr _ e => e.names
  | .block b => b.names

def Block.names : Block → List String
  | .mk _ ss => stmtsNames ss

def elseNames : Option Block → List String
  | none => []
  | some b => b.names

def exprsNames : List Expr → List String
  | [] => []
  | e :: es => e.names ++ exprsNames es

def pairsNames : List (Expr × Expr) → List String
  | [] => []
  | (k, v) :: kvs => k.names ++ v.names ++ pairsNames kvs

def stmtsNames : List Stmt → List String
  | [] => []
  | s :: ss => s.names ++ stmtsNames ss

end

theorem not_mem_exprsNames {x : String} {es : List Expr} :
    x ∉ exprsNames es ↔ ∀ e ∈ es, x ∉ e.names := by
  induction es with
  | nil => simp [exprsNames]
  | cons e es ih => simp [exprsNames, ih]

theorem not_mem_pairsNames {x : String} {kvs : List (Expr × Expr)} :
    x ∉ pairsNames kvs ↔ ∀ kv ∈ kvs, x ∉ kv.1.names ∧ x ∉ kv.2.names := by
  induction kvs with
  | nil => simp [pairsNames]
  | cons kv kvs ih => simp [pairsNames, ih, and_assoc]

theorem not_mem_stmtsNames {x : String} {ss : List Stmt} :
    x ∉ stmtsNames ss ↔ ∀ s ∈ ss, x ∉ s.names := by
  induction ss with
  | nil => simp [stmtsNames]
  | cons s ss ih => simp [stmtsNames, ih]

theorem Block.not_mem_names {x : String} {b : Block} :
    x ∉ b.names ↔ ∀ s ∈ b.stmts, x ∉ s.names := by
  cases b with
  | mk t ss => exact not_mem_stmtsNames

/-- The names of a function: its parameters and those of its body. A loop that has run is not run
again, so its names do not count. -/
def Value.names : Value → List String
  | .function c => c.params.map Ident.name ++ c.body.names
  | .ret v => v.names
  | _ => []

/-! ## Locations -/

namespace Store

/-- No function that can be reached from the location names `x`. -/
def Clear (σ : Store) (x : String) (l : Location) : Prop :=
  ∀ m v, σ.Reachable l m → σ.Stored m v → x ∉ v.names

end Store

/-! ## The invariant -/

namespace Machine

/-- What is in use neither names `x` nor reaches a function that does. -/
def clear (x : String) : Invariant where
  store _ := True
  scope σ s := σ.Clear x (.scope s)
  value σ v := x ∉ v.names ∧ ∀ l, v.location? = some l → σ.Clear x l
  change σ τ := ∀ l, σ.Clear x l → τ.Clear x l

/-- To be clear of `x` is a property of the contents: no value that is no function has names. -/
theorem clear_stable (x : String) : (clear x).Stable :=
  contents_stable (P := fun v => x ∉ v.names) {
    integer := fun _ => List.not_mem_nil
    string := fun _ => List.not_mem_nil
    bool := fun _ => List.not_mem_nil
    null := List.not_mem_nil
    native := fun _ => List.not_mem_nil
    array := fun _ => List.not_mem_nil
    hash := fun _ => List.not_mem_nil
    returned := id }

end Machine

end Scriptlet
