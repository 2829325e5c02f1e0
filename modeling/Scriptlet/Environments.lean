import Mathlib.Data.Finset.Insert
import Scriptlet.Store

/-!
# Environments

The scopes by themselves, as they are for one who binds names and looks them up. A scope keeps two
tables, of which one says what its names stand for (`store`) and the other which names are for good
(`constants`). Every operation reads and writes the two tables for itself. Nothing here makes a
constant a name that is bound.

A scope is known by its index. To hand a scope on is to hand on its index, and all who know it
read and write the same tables.

`get`, `reassign` and `isConst` are three walks along the outer scopes, each written out without the
others. Nothing here makes a walk come to an end. It is given the number of scopes that it may
ask, and says so if they were not enough.

A running program has its scopes in a `Store`, where a name and its being a constant are one
binding, and where all walks are one. That this comes to the same is shown in
`Scriptlet.Proofs.Forest`.
-/

namespace Scriptlet

/-- The tables of a scope, and the scope it falls back on. -/
structure Tables where
  store : OrderedMap String Value
  constants : Finset String
  outer : Option ScopeId

namespace Tables

def empty (outer : Option ScopeId) : Tables := ⟨.empty, ∅, outer⟩

/-- Write to the first table. -/
def write (x : String) (v : Value) (t : Tables) : Tables :=
  { t with store := t.store.insert x v }

/-- Write to the second table. -/
def mark (x : String) (t : Tables) : Tables := { t with constants := insert x t.constants }

end Tables

structure Environments where
  scopes : Array Tables

namespace Environments

/-- A computation on environments that may fail. -/
abbrev Change := Run Environments RuntimeError

def empty : Environments := ⟨#[]⟩

def tables (E : Environments) (s : ScopeId) : Tables := E.scopes[s]?.getD (.empty none)

def set (E : Environments) (s : ScopeId) (t : Tables) : Environments :=
  ⟨E.scopes.setIfInBounds s t⟩

/-- A scope that has just been made. -/
def push (E : Environments) (outer : Option ScopeId) : Environments :=
  ⟨E.scopes.push (.empty outer)⟩

def new : Change ScopeId := fun E => .ok E.scopes.size (E.push none)

def enclosed (outer : ScopeId) : Change ScopeId := fun E => .ok E.scopes.size (E.push (some outer))

/-- What `x` stands for in the scope `s`, if anything. -/
def get : Nat → ScopeId → String → Change (Option Value)
  | 0, _, _ => Run.exhausted
  | n + 1, s, x => do
    let t ← Run.read fun E => E.tables s
    match t.store.find? x with
    | some v => return some v
    | none =>
      match t.outer with
      | some o => get n o x
      | none => return none

/-- Bind a name that the scope does not bind yet. -/
def define (s : ScopeId) (x : String) (v : Value) : Change Unit := do
  let t ← Run.read fun E => E.tables s
  if t.store.contains x then Run.fail (.alreadyBound x)
  else Run.update fun E => E.set s (t.write x v)

/-- Bind a name for good. It may be bound already, but not as a constant. -/
def defineConst (s : ScopeId) (x : String) (v : Value) : Change Unit := do
  let t ← Run.read fun E => E.tables s
  if x ∈ t.constants then Run.fail (.constantReassigned x)
  else Run.update fun E => E.set s ((t.write x v).mark x)

/-- Change what a name stands for, in the scope that has it. -/
def reassign : Nat → ScopeId → String → Value → Change Unit
  | 0, _, _, _ => Run.exhausted
  | n + 1, s, x, v => do
    let t ← Run.read fun E => E.tables s
    if t.store.contains x then
      if x ∈ t.constants then Run.fail (.constantReassigned x)
      else Run.update fun E => E.set s (t.write x v)
    else
      match t.outer with
      | some o => reassign n o x v
      | none => Run.fail (.unboundName x)

def isConst : Nat → ScopeId → String → Change Bool
  | 0, _, _ => Run.exhausted
  | n + 1, s, x => do
    let t ← Run.read fun E => E.tables s
    if t.store.contains x then return decide (x ∈ t.constants)
    else
      match t.outer with
      | some o => isConst n o x
      | none => return false

end Environments

end Scriptlet
