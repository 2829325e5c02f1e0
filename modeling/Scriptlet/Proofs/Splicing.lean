import Scriptlet.Proofs.Depth
import Scriptlet.Proofs.Termination.Heights

/-!
# Blocks among statements

A block in statement position opens no scope, so its statements might as well stand where the block
stands.

**Theorem (`blocks_are_transparent`).** Let every block among the statements of a list be replaced
by what is in it, and so on with the blocks found there. The list stops in the same signals as
before, or gives a value as before, and leaves the same store. It gives the same value, too, unless
its last statement was, through nested blocks, an empty block. Then the value was `null`, and is now
that of whatever came before.

Only an empty block can be told from what is in it, because it has a value of its own. The proof
goes through a run in which blocks cost no depth (`Stmt.through`). For such a run splicing is an
equation, up to the value (`Stmt.through_eq`), and what blocks cost in depth is no more than their
height (`Stmt.shortens_exec`).
-/

namespace Scriptlet

open Eval

/-! ## Splicing -/

mutual

/-- The statement, or what is in it if it is a block. -/
def Stmt.spliced : Stmt → List Stmt
  | .block b => b.spliced
  | .declare t constant x e => [.declare t constant x e]
  | .ret t e => [.ret t e]
  | .expr t e => [.expr t e]

def Block.spliced : Block → List Stmt
  | .mk _ ss => splicedStmts ss

def splicedStmts : List Stmt → List Stmt
  | [] => []
  | s :: ss => s.spliced ++ splicedStmts ss

end

mutual

/-- The statement is an empty block, or a block whose last statement is so. -/
def Stmt.endsEmpty : Stmt → Bool
  | .block b => b.endsEmpty
  | .declare _ _ _ _ | .ret _ _ | .expr _ _ => false

def Block.endsEmpty : Block → Bool
  | .mk _ ss => ss.isEmpty || stmtsEndEmpty ss

/-- The last of the statements is an empty block, or a block whose last statement is so. -/
def stmtsEndEmpty : List Stmt → Bool
  | [] => false
  | s :: ss => if ss.isEmpty then s.endsEmpty else stmtsEndEmpty ss

end

mutual

/-- What has nothing in it but blocks ends in an empty block. -/
theorem Stmt.endsEmpty_of_spliced : (s : Stmt) → s.spliced = [] → s.endsEmpty
  | .block b, h => b.endsEmpty_of_spliced h
  | .declare _ _ _ _, h | .ret _ _, h | .expr _ _, h => nomatch h

theorem Block.endsEmpty_of_spliced : (b : Block) → b.spliced = [] → b.endsEmpty
  | .mk _ [], _ => rfl
  | .mk _ (s :: ss), h => stmtsEndEmpty_of_spliced (s :: ss) (List.cons_ne_nil s ss) h

theorem stmtsEndEmpty_of_spliced : (ss : List Stmt) → ss ≠ [] → splicedStmts ss = [] →
    stmtsEndEmpty ss
  | [], hne, _ => absurd rfl hne
  | [s], _, h => s.endsEmpty_of_spliced (List.append_eq_nil_iff.1 h).1
  | _ :: s :: ss, _, h =>
    stmtsEndEmpty_of_spliced (s :: ss) (List.cons_ne_nil s ss) (List.append_eq_nil_iff.1 h).2

end

/-- The list `e; {f; {}}` becomes `e; f`, and it used to end in an empty block. -/
example (t : Token) (e f : Expr) :
    let ss : List Stmt := [.expr t e, .block (.mk t [.expr t f, .block (.mk t [])])]
    splicedStmts ss = [.expr t e, .expr t f] ∧ stmtsEndEmpty ss = true := ⟨rfl, rfl⟩

/-! ## Runs in which blocks cost no depth -/

/-- Run the statements in turn. The value is that of the last one, and `v` if there are none. -/
def runFrom (run : Stmt → Eval Value) (v : Value) (ss : List Stmt) : Eval Value :=
  ss.foldlM (fun _ s => run s) v

section

variable (run : Stmt → Eval Value)

mutual

/-- Run a statement, through all blocks, by `run`. -/
def Stmt.through : Stmt → Eval Value
  | .block b => b.through
  | .declare t constant x e => run (.declare t constant x e)
  | .ret t e => run (.ret t e)
  | .expr t e => run (.expr t e)

def Block.through : Block → Eval Value
  | .mk _ ss => throughFrom .null ss

def throughFrom (v : Value) : List Stmt → Eval Value
  | [] => pure v
  | s :: ss => s.through >>= fun w => throughFrom w ss

end

/-- Drop the value where it was that of an empty block. -/
def settled (ends : Bool) (x : Eval Value) : Eval Value :=
  x >>= fun v => pure (if ends then .null else v)

variable {run}

theorem settled_false (x : Eval Value) : settled false x = x := bind_pure x

theorem settled_eq_error_iff {ends : Bool} {x : Eval Value} {σ : Store} {sig : Signal} {τ : Store} :
    settled ends x σ = .error sig τ ↔ x σ = .error sig τ := by
  rw [settled, Run.bind_apply]
  cases x σ <;> simp [Run.pure_apply]

theorem settled_eq_ok_iff {ends : Bool} {x : Eval Value} {σ : Store} {v : Value} {τ : Store} :
    settled ends x σ = .ok v τ ↔ ∃ w, x σ = .ok w τ ∧ v = if ends then .null else w := by
  rw [settled, Run.bind_apply]
  cases x σ <;> simp [Run.pure_apply]
  grind

/-- Where the value is dropped it does not matter where it came from. -/
theorem settled_runFrom (ss : List Stmt) (ends : Bool) (h : ss = [] → ends) (v w : Value) :
    settled ends (runFrom run v ss) = settled ends (runFrom run w ss) := by
  cases ss with
  | nil => rw [h rfl]; rfl
  | cons s ss => rfl

mutual

theorem Stmt.through_eq : (s : Stmt) → (v : Value) →
    s.through run = settled s.endsEmpty (runFrom run v s.spliced)
  | .block b, v => b.through_eq v
  | .declare _ _ _ _, _ | .ret _ _, _ | .expr _ _, _ => by
    rw [Stmt.endsEmpty, settled_false, Stmt.spliced, Stmt.through, runFrom, List.foldlM_cons]
    exact (bind_pure _).symm

theorem Block.through_eq : (b : Block) → (v : Value) →
    b.through run = settled b.endsEmpty (runFrom run v b.spliced)
  | .mk _ [], _ => rfl
  | .mk t (s :: ss), v => by
    rw [Block.through, throughFrom_eq (s :: ss) .null]
    exact settled_runFrom _ _ (stmtsEndEmpty_of_spliced (s :: ss) (List.cons_ne_nil s ss)) .null v

/-- Splicing changes nothing but the value that an empty block has. -/
theorem throughFrom_eq : (ss : List Stmt) → (v : Value) →
    throughFrom run v ss = settled (stmtsEndEmpty ss) (runFrom run v (splicedStmts ss))
  | [], _ => rfl
  | [s], v => by
    have hs : splicedStmts [s] = s.spliced := List.append_nil _
    rw [throughFrom, hs]
    exact (bind_pure _).trans (s.through_eq v)
  | s :: s' :: ss, v => by
    -- The value of `s` is not used any more, so it may be dropped where `s` ends in an empty block.
    have hdrop : ∀ v w, settled (stmtsEndEmpty (s' :: ss))
        (runFrom run v (splicedStmts (s' :: ss))) = settled (stmtsEndEmpty (s' :: ss))
          (runFrom run w (splicedStmts (s' :: ss))) :=
      settled_runFrom _ _ (stmtsEndEmpty_of_spliced _ (List.cons_ne_nil s' ss))
    have happend : runFrom run v (splicedStmts (s :: s' :: ss)) =
        runFrom run v s.spliced >>= fun w => runFrom run w (splicedStmts (s' :: ss)) :=
      List.foldlM_append
    rw [throughFrom, s.through_eq v, happend, settled, settled, bind_assoc, bind_assoc]
    refine bind_congr fun w => ?_
    rw [pure_bind, throughFrom_eq (s' :: ss), hdrop _ w]
    rfl

end

end

/-! ## What blocks cost -/

section

variable {reg : Registry} {env : ScopeId}

mutual

/-- A run that pays for blocks ends as one that does not, unless it is cut off. -/
theorem Stmt.shortens_through : (s : Stmt) → {m n : Nat} → m ≤ n →
    Shortens (exec reg m env s) (s.through (exec reg n env))
  | .block _, 0, _, _ => .exhausted _
  | .block (.mk _ ss), _ + 1, _, h => shortens_throughFrom ss (Nat.le_of_succ_le h) .null
  | .declare _ _ _ _, _, _, h | .ret _ _, _, _, h | .expr _ _, _, _, h => (shortens_eval h).1 env _

theorem shortens_throughFrom : (ss : List Stmt) → {m n : Nat} → m ≤ n → (v : Value) →
    Shortens (runFrom (exec reg m env) v ss) (throughFrom (exec reg n env) v ss)
  | [], _, _, _, _ => .refl _
  | s :: ss, _, _, h, _ => (s.shortens_through h).bind fun w => shortens_throughFrom ss h w

end

mutual

/-- What blocks cost is no more than their height. -/
theorem Stmt.shortens_exec : (s : Stmt) → {m n : Nat} → s.height + m ≤ n →
    Shortens (s.through (exec reg m env)) (exec reg n env s)
  | .block (.mk _ ss), m, 0, h => by
    rw [Stmt.height] at h
    omega
  | .block (.mk _ ss), m, n + 1, h => by
    rw [Stmt.height, Block.height] at h
    exact shortens_runFrom ss (by omega) .null
  | .declare _ _ _ _, _, _, h | .ret _ _, _, _, h | .expr _ _, _, _, h =>
    (shortens_eval (Nat.le_of_add_left_le h)).1 env _

theorem shortens_runFrom : (ss : List Stmt) → {m n : Nat} → stmtsHeight ss + m ≤ n → (v : Value) →
    Shortens (throughFrom (exec reg m env) v ss) (runFrom (exec reg n env) v ss)
  | [], _, _, _, _ => .refl _
  | s :: ss, m, n, h, _ => by
    rw [stmtsHeight] at h
    exact (s.shortens_exec (by omega)).bind fun w => shortens_runFrom ss (by omega) w

end

end

/-- **Blocks are transparent.** -/
theorem blocks_are_transparent (reg : Registry) (env : ScopeId) (ss : List Stmt) (σ : Store) :
    (∀ sig τ, Stops (fun n => sequence (exec reg n env) ss) σ sig τ ↔
        Stops (fun n => sequence (exec reg n env) (splicedStmts ss)) σ sig τ) ∧
      ∀ v τ, Gives (fun n => sequence (exec reg n env) ss) σ v τ ↔
        ∃ w, Gives (fun n => sequence (exec reg n env) (splicedStmts ss)) σ w τ ∧
          v = if stmtsEndEmpty ss then .null else w := by
  -- The run in which blocks cost nothing lies between the two: each of them ends as it does, and
  -- what it gives by the depth `n` the list gives by `n` and its height.
  have hthrough (n : Nat) : throughFrom (exec reg n env) .null ss =
      settled (stmtsEndEmpty ss) (sequence (exec reg n env) (splicedStmts ss)) :=
    throughFrom_eq ss .null
  have hpays (n : Nat) : Shortens (sequence (exec reg n env) ss)
      (settled (stmtsEndEmpty ss) (sequence (exec reg n env) (splicedStmts ss))) :=
    hthrough n ▸ shortens_throughFrom ss (Nat.le_refl n) .null
  have hcosts (n : Nat) :
      Shortens (settled (stmtsEndEmpty ss) (sequence (exec reg n env) (splicedStmts ss)))
        (sequence (exec reg (stmtsHeight ss + n) env) ss) :=
    hthrough n ▸ shortens_runFrom ss (Nat.le_refl _) .null
  refine ⟨fun sig τ => ⟨?_, ?_⟩, fun v τ => ⟨?_, ?_⟩⟩
  · rintro ⟨n, hn⟩
    exact ⟨n, settled_eq_error_iff.1 ((hpays n).keeps hn nofun)⟩
  · rintro ⟨n, hn⟩
    exact ⟨_, (hcosts n).keeps (settled_eq_error_iff.2 hn) nofun⟩
  · rintro ⟨n, hn⟩
    obtain ⟨w, hw, hv⟩ := settled_eq_ok_iff.1 ((hpays n).keeps hn nofun)
    exact ⟨w, ⟨n, hw⟩, hv⟩
  · rintro ⟨w, ⟨n, hn⟩, hv⟩
    exact ⟨_, (hcosts n).keeps (settled_eq_ok_iff.2 ⟨w, hn, hv⟩) nofun⟩

end Scriptlet
