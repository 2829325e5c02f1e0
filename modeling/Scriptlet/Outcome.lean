/-!
# Runs that may fail or stop short

A `Run σ ε α` is a computation over a state `σ`. It ends in one of three ways, and the three
are never confused:

- `ok`: a value, with the state left behind;
- `error`: a reason, again with the state left behind (what was done before a failure stays
  done);
- `outOfFuel`: the bound on the depth or on the number of passes was too small to tell.

Keeping the last one apart lets a statement about finished runs say nothing about the bound,
and lets a statement about the bound be made at all.
-/

namespace Scriptlet

/-- How a run ended. -/
inductive Outcome (σ ε α : Type) where
  | ok (value : α) (state : σ)
  | error (reason : ε) (state : σ)
  | outOfFuel
deriving DecidableEq, Repr

/-- A computation from a state to an outcome. -/
def Run (σ ε α : Type) : Type := σ → Outcome σ ε α

namespace Run

variable {σ ε ε' α β : Type}

protected def pure (a : α) : Run σ ε α := fun s => .ok a s

/-- Run `x`; only if it succeeds, go on with `f` from the state it left. -/
protected def bind (x : Run σ ε α) (f : α → Run σ ε β) : Run σ ε β := fun s =>
  match x s with
  | .ok a t => f a t
  | .error e t => .error e t
  | .outOfFuel => .outOfFuel

instance : Monad (Run σ ε) where
  pure := Run.pure
  bind := Run.bind

/-- Fail for the reason `e`, leaving the state alone. -/
def fail (e : ε) : Run σ ε α := fun s => .error e s

/-- The run that was given no fuel. -/
def exhausted : Run σ ε α := fun _ => .outOfFuel

/-- Look at the state. -/
def read (f : σ → α) : Run σ ε α := fun s => .ok (f s) s

/-- Change the state. -/
def update (f : σ → σ) : Run σ ε Unit := fun s => .ok () (f s)

/-- Settle a result that needed no state. -/
def ofExcept : Except ε α → Run σ ε α
  | .ok a => Run.pure a
  | .error e => fail e

/-- Reword the reasons for failure. -/
def mapError (f : ε → ε') (x : Run σ ε α) : Run σ ε' α := fun s =>
  match x s with
  | .ok a t => .ok a t
  | .error e t => .error (f e) t
  | .outOfFuel => .outOfFuel

/-! ## What each operation does to a state -/

@[simp] theorem pure_apply (a : α) (s : σ) : (pure a : Run σ ε α) s = .ok a s := rfl

theorem bind_apply (x : Run σ ε α) (f : α → Run σ ε β) (s : σ) :
    (x >>= f) s = match x s with
      | .ok a t => f a t
      | .error e t => .error e t
      | .outOfFuel => .outOfFuel := rfl

@[simp] theorem fail_apply (e : ε) (s : σ) : (fail e : Run σ ε α) s = .error e s := rfl

@[simp] theorem read_apply (f : σ → α) (s : σ) : (read f : Run σ ε α) s = .ok (f s) s := rfl

@[simp] theorem update_apply (f : σ → σ) (s : σ) :
    (update f : Run σ ε Unit) s = .ok () (f s) := rfl

theorem bind_eq_ok_iff {x : Run σ ε α} {f : α → Run σ ε β} {s t : σ} {b : β} :
    (x >>= f) s = .ok b t ↔ ∃ a u, x s = .ok a u ∧ f a u = .ok b t := by
  rw [bind_apply]; cases x s <;> simp [and_assoc]

theorem bind_eq_error_iff {x : Run σ ε α} {f : α → Run σ ε β} {s t : σ} {e : ε} :
    (x >>= f) s = .error e t ↔
      x s = .error e t ∨ ∃ a u, x s = .ok a u ∧ f a u = .error e t := by
  rw [bind_apply]; cases x s <;> simp [and_assoc]

theorem bind_eq_outOfFuel_iff {x : Run σ ε α} {f : α → Run σ ε β} {s : σ} :
    (x >>= f) s = .outOfFuel ↔
      x s = .outOfFuel ∨ ∃ a u, x s = .ok a u ∧ f a u = .outOfFuel := by
  rw [bind_apply]; cases x s <;> simp [and_assoc]

/-- Doing nothing before or after a run changes nothing, and the grouping of steps does not
matter, so `do` blocks may be rearranged freely. -/
instance : LawfulMonad (Run σ ε) := LawfulMonad.mk' _
  (fun x => by
    funext s; show (Run.bind x fun a => Run.pure (id a)) s = x s
    unfold Run.bind; cases x s <;> rfl)
  (fun _ _ => rfl)
  (fun x f g => by
    funext s
    show Run.bind (Run.bind x f) g s = Run.bind x (fun a => Run.bind (f a) g) s
    unfold Run.bind; cases x s <;> rfl)

end Run

end Scriptlet
