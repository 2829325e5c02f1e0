import Scriptlet.Proofs.Grammar.Reading
import Scriptlet.Syntax.Parse

/-!
# Two readers abreast

Two states may differ in what the grammar does not look at: in the tokens far ahead, or in what is
recorded. A `Tie` says how the states of two readers are related while the grammar is read in both,
and what has to be shown of the relation is said once, for the few things that a rule can do: read
the current token, go on to the next one, and give up at one of the two.

**Theorem (`Tie.together_rules`).** From tied states an expression ends alike: in both with the same
value, or in both with the same diagnostic, and again in tied states.

A block goes on after a statement that is given up. Some ties bear this (`Tie.Recovers`), and then
they hold through a whole program; others may exclude blocks. So what holds of blocks is a
hypothesis. The two readers may be granted different depths and passes; if one of them runs out,
nothing is said.
-/

namespace Scriptlet

namespace Parse

variable {α β : Type}

/-- How the states of two readers are related. -/
structure Tie where
  /-- On a token that is still to be read. -/
  ready : ParseState → ParseState → Prop
  /-- On a token that has been read. -/
  done : ParseState → ParseState → Prop
  /-- Where both have given up with the diagnostic. -/
  failed : Diagnostic → ParseState → ParseState → Prop
  current : ∀ {s s'}, ready s s' → s.ahead.current = s'.ahead.current
  upcoming : ∀ {s s'}, done s s' → s.ahead.upcoming = s'.ahead.upcoming
  /-- Only the end of a statement is a semicolon. -/
  read : ∀ {s s'}, ready s s' → s.ahead.current.kind ≠ .semicolon → done s s'
  next : ∀ {s s'}, done s s' → ready (past s) (past s')
  refused : ∀ {s s'} fault, ready s s' → failed (.atToken s.ahead.current fault) s s'
  missed : ∀ {s s'} fault, done s s' → failed (.atToken s.ahead.upcoming fault) s s'

namespace Tie

variable {w : Tie} {s s' : ParseState}

/-- The next token is read. -/
theorem step (h : w.done s s') (hk : s.ahead.upcoming.kind ≠ .semicolon) :
    w.done (past s) (past s') := w.read (w.next h) hk

/-- The two outcomes are alike, unless one of them was cut off. -/
inductive Ends (w : Tie) : Outcome ParseState Diagnostic α → Outcome ParseState Diagnostic α → Prop
  | ok {a : α} {t t' : ParseState} : w.done t t' → Ends w (.ok a t) (.ok a t')
  | error {d : Diagnostic} {t t' : ParseState} : w.failed d t t' → Ends w (.error d t) (.error d t')
  | short {o : Outcome ParseState Diagnostic α} : Ends w .outOfFuel o
  | short' {o : Outcome ParseState Diagnostic α} : Ends w o .outOfFuel

theorem Ends.of_ok {a a' : α} {t t' : ParseState} (h : w.Ends (.ok a t) (.ok a' t')) :
    a = a' ∧ w.done t t' := by
  cases h with
  | ok h => exact ⟨rfl, h⟩

theorem Ends.of_error {o : Outcome ParseState Diagnostic α} {d : Diagnostic} {t' : ParseState}
    (h : w.Ends o (.error d t')) (ho : o ≠ .outOfFuel) : ∃ t, o = .error d t ∧ w.failed d t t' := by
  cases h with
  | error h => exact ⟨_, rfl, h⟩
  | short => exact absurd rfl ho

/-- In the states `s` and `s'` the steps `x` and `x'` end alike. -/
def Abreast (w : Tie) (x x' : Parse α) (s s' : ParseState) : Prop := w.Ends (x s) (x' s')

namespace Abreast

variable {x x' : Parse α} {f f' : α → Parse β}

theorem pure (a : α) (h : w.done s s') : w.Abreast (Pure.pure a) (Pure.pure a) s s' := .ok h

/-- A loop that has no pass left is cut off. -/
theorem exhausted {x : Parse α} : w.Abreast Run.exhausted x s s' := .short

theorem exhausted' {x : Parse α} : w.Abreast x Run.exhausted s s' := .short'

theorem bind (hx : w.Abreast x x' s s') (hf : ∀ a t t', w.done t t' → w.Abreast (f a) (f' a) t t') :
    w.Abreast (x >>= f) (x' >>= f') s s' := by
  rw [Abreast] at hx ⊢
  rw [Run.bind_apply, Run.bind_apply]
  generalize x s = o, x' s' = o' at hx
  cases hx with
  | ok h => exact hf _ _ _ h
  | error h => exact .error h
  | short => exact .short
  | short' => exact .short'

/-- A value made from what a step reads. -/
theorem map (hx : w.Abreast x x' s s') (g : α → β) :
    w.Abreast (x >>= fun a => Pure.pure (g a)) (x' >>= fun a => Pure.pure (g a)) s s' :=
  hx.bind fun a _ _ ht => pure (g a) ht

theorem current {f f' : Token → Parse β} (hs : s.ahead.current = s'.ahead.current)
    (h : w.Abreast (f s.ahead.current) (f' s.ahead.current) s s') :
    w.Abreast (Parse.current >>= f) (Parse.current >>= f') s s' := by
  rw [Abreast] at h ⊢
  rw [Parse.current, Run.bind_apply, Run.bind_apply, Run.read_apply, Run.read_apply,
    ← hs]
  exact h

theorem upcoming {f f' : Token → Parse β} (hs : w.done s s')
    (h : w.Abreast (f s.ahead.upcoming) (f' s.ahead.upcoming) s s') :
    w.Abreast (Parse.upcoming >>= f) (Parse.upcoming >>= f') s s' := by
  rw [Abreast] at h ⊢
  rw [Parse.upcoming, Run.bind_apply, Run.bind_apply, Run.read_apply, Run.read_apply,
    ← w.upcoming hs]
  exact h

theorem advance {f f' : Unit → Parse β} (h : w.Abreast (f ()) (f' ()) (past s) (past s')) :
    w.Abreast (Parse.advance >>= f) (Parse.advance >>= f') s s' := h

theorem giveUp {fault : Fault} (hs : w.ready s s') :
    w.Abreast (Parse.giveUp s.ahead.current fault : Parse α) (Parse.giveUp s.ahead.current fault)
      s s' := .error (w.refused fault hs)

/-- A token of a kind, and what is read from it on. -/
theorem expected {k : Kind} {f f' : Unit → Parse β} (hs : w.done s s')
    (h : s.ahead.upcoming.kind = k → w.Abreast (f ()) (f' ()) (past s) (past s')) :
    w.Abreast (Parse.expect k >>= f) (Parse.expect k >>= f') s s' := by
  rw [Parse.expect, bind_assoc, bind_assoc]
  refine upcoming hs ?_
  split
  · exact advance (h ‹_›)
  · exact .error (w.missed _ hs)

theorem expect {k : Kind} (hk : k ≠ .semicolon) (hs : w.done s s') :
    w.Abreast (Parse.expect k) (Parse.expect k) s s' := by
  have hexpect : w.Abreast (Parse.expect k >>= Pure.pure) (Parse.expect k >>= Pure.pure) s s' :=
    expected hs fun hup => pure () (step hs (hup ▸ hk))
  rwa [bind_pure] at hexpect

theorem name (hs : w.done s s') : w.Abreast Parse.name Parse.name s s' :=
  expected hs fun hup => current (w.upcoming hs) (pure _ (step hs (hup ▸ by decide)))

theorem names (k k' : Nat) {s s' : ParseState} (hs : w.done s s') :
    w.Abreast (Rules.names k) (Rules.names k') s s' := by
  induction k generalizing k' s s' with
  | zero => exact .exhausted
  | succ k ih =>
    obtain _ | k' := k'
    · exact .exhausted'
    refine (name hs).bind fun x t t' ht => .upcoming ht ?_
    split
    · rename_i hc
      exact .advance ((ih k' (step ht (hc ▸ by decide))).map _)
    · exact (expect (by decide) ht).map _

theorem params {r r' : Rules} (hs : w.done s s') : w.Abreast r.params r'.params s s' := by
  refine .upcoming hs ?_
  split
  · rename_i hc
    exact .advance (.pure _ (step hs (hc ▸ by decide)))
  · exact names _ _ hs

theorem pairEnd (hs : w.done s s') : w.Abreast Rules.pairEnd Rules.pairEnd s s' := by
  refine .upcoming hs ?_
  split
  · exact .pure _ hs
  · exact .expect (by decide) hs

end Abreast

/-! ## Rule by rule -/

/-- From tied states, what is nested in the rules ends alike. -/
structure Together (w : Tie) (r r' : Rules) : Prop where
  expression : ∀ {p s s'}, w.ready s s' → w.Abreast (r.expression p) (r'.expression p) s s'
  block : ∀ {s s'}, w.ready s s' → s.ahead.current.kind = .lbrace →
    w.Abreast r.block r'.block s s'

namespace Together

variable {r r' : Rules} (h : w.Together r r')
include h

/-- An expression after the current token. -/
theorem after {p : Precedence} {f f' : Expr → Parse β} (hs : w.done s s')
    (hf : ∀ e t t', w.done t t' → w.Abreast (f e) (f' e) t t') :
    w.Abreast (Parse.advance >>= fun _ => r.expression p >>= f)
      (Parse.advance >>= fun _ => r'.expression p >>= f') s s' :=
  .advance ((h.expression (w.next hs)).bind hf)

theorem exprs (close : Kind) (hclose : close ≠ .semicolon) (k k' : Nat) {s s' : ParseState}
    (hs : w.ready s s') : w.Abreast (r.exprs close k) (r'.exprs close k') s s' := by
  induction k generalizing k' s s' with
  | zero => exact .exhausted
  | succ k ih =>
    obtain _ | k' := k'
    · exact .exhausted'
    refine (h.expression hs).bind fun e t t' ht => .upcoming ht ?_
    split
    · rename_i hc
      exact .advance (.advance ((ih k' (w.next (step ht (hc ▸ by decide)))).map _))
    · exact (Abreast.expect hclose ht).map _

theorem list (close : Kind) (hclose : close ≠ .semicolon) (hs : w.done s s') :
    w.Abreast (r.list close) (r'.list close) s s' := by
  refine .upcoming hs (.advance ?_)
  split
  · rename_i hc
    exact .pure _ (step hs (hc ▸ hclose))
  · exact h.exprs close hclose _ _ (w.next hs)

theorem pairs (k k' : Nat) {s s' : ParseState} (hs : w.done s s') :
    w.Abreast (r.pairs k) (r'.pairs k') s s' := by
  induction k generalizing k' s s' with
  | zero => exact .exhausted
  | succ k ih =>
    obtain _ | k' := k'
    · exact .exhausted'
    refine .upcoming hs (.advance ?_)
    split
    · rename_i hc
      exact .pure _ (step hs (hc ▸ by decide))
    · refine (h.expression (w.next hs)).bind fun key t t' ht => ?_
      refine (Abreast.expect (by decide) ht).bind fun _ u u' hu => ?_
      refine h.after hu fun value v v' hv => ?_
      exact (Abreast.pairEnd hv).bind fun _ x x' hx => (ih k' hx).map _

theorem blockAhead (hs : w.done s s') : w.Abreast r.blockAhead r'.blockAhead s s' :=
  .expected hs fun hup => h.block (w.next hs) hup

theorem elseBranch (hs : w.done s s') : w.Abreast r.elseBranch r'.elseBranch s s' := by
  refine .upcoming hs ?_
  split
  · rename_i hc
    exact .advance ((h.blockAhead (step hs (hc ▸ by decide))).map _)
  · exact .pure _ hs

theorem unary (t : Token) (op : UnaryOp) (hs : w.done s s') :
    w.Abreast (r.unary t op) (r'.unary t op) s s' :=
  h.after hs fun _ _ _ hu => .pure _ hu

theorem group (hs : w.done s s') : w.Abreast r.group r'.group s s' :=
  h.after hs fun _ _ _ hu => (Abreast.expect (by decide) hu).map _

theorem conditional (t : Token) (hs : w.done s s') :
    w.Abreast (r.conditional t) (r'.conditional t) s s' :=
  h.after hs fun _ _ _ hu => (h.blockAhead hu).bind fun _ _ _ hv => (h.elseBranch hv).map _

theorem function (t : Token) (hs : w.done s s') :
    w.Abreast (r.function t) (r'.function t) s s' :=
  (Abreast.expect (by decide) hs).bind fun _ _ _ hu => (Abreast.params hu).bind fun _ _ _ hv =>
    (h.blockAhead hv).map _

theorem loop (t : Token) (hs : w.done s s') : w.Abreast (r.loop t) (r'.loop t) s s' := by
  refine (Abreast.name hs).bind fun index _ _ h₁ => ?_
  refine (Abreast.expect (by decide) h₁).bind fun _ _ _ h₂ => ?_
  refine (Abreast.name h₂).bind fun value _ _ h₃ => ?_
  refine (Abreast.expect (by decide) h₃).bind fun _ _ _ h₄ => ?_
  exact (Abreast.name h₄).bind fun target _ _ h₅ => (h.blockAhead h₅).map _

theorem head (hs : w.ready s s') : w.Abreast r.head r'.head s s' := by
  refine .current (w.current hs) ?_
  have hread {k : Kind} (hk : s.ahead.current.kind = k) (hne : k ≠ .semicolon) : w.done s s' :=
    w.read hs (hk ▸ hne)
  split <;> rename_i hk
  case h_1 | h_3 | h_4 | h_5 | h_6 => exact .pure _ (hread hk (by decide))
  case h_2 =>
    split
    · exact .pure _ (hread hk (by decide))
    · exact .giveUp hs
  case h_7 => exact h.unary _ .not (hread hk (by decide))
  case h_8 => exact h.unary _ .neg (hread hk (by decide))
  case h_9 => exact h.group (hread hk (by decide))
  case h_10 => exact h.conditional _ (hread hk (by decide))
  case h_11 => exact h.function _ (hread hk (by decide))
  case h_12 => exact (h.list _ (by decide) (hread hk (by decide))).map _
  case h_13 => exact (h.pairs _ _ (hread hk (by decide))).map _
  case h_14 => exact h.loop _ (hread hk (by decide))
  case h_15 => exact .error (w.refused _ hs)

theorem extend (left : Expr) {suffix : Suffix} (hs : w.ready s s')
    (hsuffix : Suffix.ofKind s.ahead.current.kind = some suffix) :
    w.Abreast (r.extend left suffix) (r'.extend left suffix) s s' := by
  have hread : w.done s s' := w.read hs fun hk => by rw [hk] at hsuffix; cases hsuffix
  cases suffix with
  | binary op => exact .current (w.current hs) (h.after hread fun right _ _ hu => .pure _ hu)
  | call => exact .current (w.current hs) ((h.list _ (by decide) hread).map _)
  | index =>
    exact .current (w.current hs) (h.after hread fun i _ _ hu =>
      (Abreast.expect (by decide) hu).map _)
  | assign =>
    refine .current (w.current hs) ?_
    cases left with
    | ident x => exact h.after hread fun e _ _ hu => .pure _ hu
    | _ => exact .giveUp hs

theorem suffixes (p : Precedence) (k k' : Nat) (left : Expr) {s s' : ParseState}
    (hs : w.done s s') : w.Abreast (r.suffixes p k left) (r'.suffixes p k' left) s s' := by
  induction k generalizing k' left s s' with
  | zero => exact .exhausted
  | succ k ih =>
    obtain _ | k' := k'
    · exact .exhausted'
    refine .upcoming hs ?_
    split
    · exact .pure left hs
    · rename_i suffix hsuffix
      split
      · exact .advance ((h.extend left (w.next hs) hsuffix).bind fun e _ _ hu => ih k' e hu)
      · exact .pure left hs

theorem climb (p : Precedence) (hs : w.ready s s') : w.Abreast (r.climb p) (r'.climb p) s s' :=
  (h.head hs).bind fun left _ _ ht => h.suffixes p _ _ left ht

theorem declaration (t : Token) (constant : Bool) (hs : w.done s s') :
    w.Abreast (r.declaration t constant) (r'.declaration t constant) s s' := by
  refine (Abreast.name hs).bind fun x _ _ h₁ => ?_
  refine (Abreast.expect (by decide) h₁).bind fun _ _ _ h₂ => ?_
  exact h.after h₂ fun e _ _ hu => .pure _ hu

theorem bareStatement (hs : w.ready s s') : w.Abreast r.bareStatement r'.bareStatement s s' := by
  refine .current (w.current hs) ?_
  have hread {k : Kind} (hk : s.ahead.current.kind = k) (hne : k ≠ .semicolon) : w.done s s' :=
    w.read hs (hk ▸ hne)
  split <;> rename_i hk
  · exact h.declaration _ _ (hread hk (by decide))
  · exact h.declaration _ _ (hread hk (by decide))
  · exact h.after (hread hk (by decide)) fun e _ _ hu => .pure _ hu
  · exact (h.expression hs).map _

end Together

/-! ## Recovery -/

/-- The tie holds after a statement that both readers have given up, and the end of a statement can
be read like any other token. -/
structure Recovers (w : Tie) : Prop where
  read : ∀ {s s'}, w.ready s s' → w.done s s'
  here : ∀ {s s'}, w.done s s' → s.ahead.current = s'.ahead.current
  broken : ∀ {d s s'}, w.failed d s s' → w.done (broken d s) (broken d s')

namespace Recovers

variable (hw : w.Recovers)
include hw

theorem recover {x x' : Parse α} {f f' : Option α → Parse β} (hx : w.Abreast x x' s s')
    (hsome : ∀ a t t', w.done t t' → w.Abreast (f (some a)) (f' (some a)) t t')
    (hnone : ∀ t t', w.done t t' → w.Abreast (f none) (f' none) t t') :
    w.Abreast (Parse.recover x >>= f) (Parse.recover x' >>= f') s s' := by
  rw [Abreast] at hx ⊢
  rw [Run.bind_apply, Run.bind_apply, Parse.recover, Parse.recover]
  generalize x s = o, x' s' = o' at hx
  cases hx with
  | ok h => exact hsome _ _ _ h
  | error h => exact hnone _ _ (hw.broken h)
  | short => exact .short
  | short' => exact .short'

variable {r r' : Rules} (h : w.Together r r')
include h

theorem statement (hs : w.ready s s') : w.Abreast r.statement r'.statement s s' := by
  refine (h.bareStatement hs).bind fun st t t' ht => ?_
  rw [skip, bind_assoc]
  refine .upcoming ht ?_
  split
  · exact .advance (.pure st (hw.read (w.next ht)))
  · exact .pure st ht

theorem blockStmts (k k' : Nat) {s s' : ParseState}
    (hs : w.ready s s' ∨ w.done s s' ∧ s.ahead.current.kind = .rbrace) :
    w.Abreast (r.blockStmts k) (r'.blockStmts k') s s' := by
  induction k generalizing k' s s' with
  | zero => exact .exhausted
  | succ k ih =>
    obtain _ | k' := k'
    · exact .exhausted'
    have hcurrent : s.ahead.current = s'.ahead.current := hs.elim w.current fun h => hw.here h.1
    refine .current hcurrent ?_
    split
    · exact .pure [] (hs.elim hw.read And.left)
    · rename_i hc
      have hready := hs.resolve_right fun hbrace => hc (.inl hbrace.2)
      refine hw.recover (hw.statement h hready)
        (fun st t t' ht => .advance ((ih k' (.inl (w.next ht))).map _)) fun t t' ht => ?_
      change w.Abreast (Rules.passBroken >>= fun _ => r.blockStmts k)
        (Rules.passBroken >>= fun _ => r'.blockStmts k') t t'
      rw [Rules.passBroken, bind_assoc, bind_assoc]
      refine .current (hw.here ht) ?_
      split
      · exact ih k' (.inr ⟨ht, ‹_›⟩)
      · exact .advance (ih k' (.inl (w.next ht)))

theorem braces (hs : w.ready s s') : w.Abreast r.braces r'.braces s s' :=
  .current (w.current hs)
    (.advance ((hw.blockStmts h _ _ (.inl (w.next (hw.read hs)))).map _))

theorem programStmts (k k' : Nat) {s s' : ParseState} (hs : w.ready s s') :
    w.Abreast (r.programStmts k) (r'.programStmts k') s s' := by
  induction k generalizing k' s s' with
  | zero => exact .exhausted
  | succ k ih =>
    obtain _ | k' := k'
    · exact .exhausted'
    refine .current (w.current hs) ?_
    split
    · exact .pure [] (hw.read hs)
    · exact hw.recover (hw.statement h hs)
        (fun st t t' ht => .advance ((ih k' (w.next ht)).map _))
        fun t t' ht => .advance ((ih k' (w.next ht)).map _)

end Recovers

/-- **Two readers stay abreast** in the rules of any depths, if they do in blocks. -/
theorem together_rules
    (hbraces : ∀ {r r' : Rules} {s s' : ParseState}, w.Together r r' → w.ready s s' →
      s.ahead.current.kind = .lbrace → w.Abreast r.braces r'.braces s s')
    (n n' : Nat) : w.Together (rules n) (rules n') := by
  induction n generalizing n' with
  | zero => exact ⟨fun _ => .exhausted, fun _ _ => .exhausted⟩
  | succ n ih =>
    obtain _ | n' := n'
    · exact ⟨fun _ => .exhausted', fun _ _ => .exhausted'⟩
    · exact ⟨fun hs => (ih n').climb _ hs, fun hs hk => hbraces (ih n') hs hk⟩

theorem Recovers.together_rules (hw : w.Recovers) (n n' : Nat) :
    w.Together (rules n) (rules n') :=
  Tie.together_rules (fun h hs _ => hw.braces h hs) n n'

/-- The depths that are granted do not matter. -/
theorem Abreast.nested {rule rule' : Rules → Parse α}
    (h : ∀ n n', w.Abreast (rule (rules n)) (rule' (rules n')) s s') :
    w.Abreast (Parse.nested rule) (Parse.nested rule') s s' := h _ _

/-- Where a tie bears recovery, two readers stay abreast in a whole program. -/
theorem Recovers.program (hw : w.Recovers) (hs : w.ready s s') :
    w.Abreast Parse.program Parse.program s s' :=
  (Abreast.nested fun n n' => hw.programStmts (hw.together_rules n n') _ _ hs).map _

/-! ## One state -/

/-- Two readers in the same state, which may be granted different depths and passes. -/
def same : Tie where
  ready := Eq
  done := Eq
  failed _ := Eq
  current h := by rw [h]
  upcoming h := by rw [h]
  read h _ := h
  next h := by rw [h]
  refused _ h := h
  missed _ h := h

theorem recovers_same : same.Recovers where
  read h := h
  here h := by rw [h]
  broken h := congrArg _ h

/-- What is granted does not change how a step ends. -/
theorem Ends.eq {o o' : Outcome ParseState Diagnostic α} (h : same.Ends o o')
    (ho : o ≠ .outOfFuel) (ho' : o' ≠ .outOfFuel) : o = o' := by
  cases h with
  | ok h | error h => rw [h]
  | short => exact absurd rfl ho
  | short' => exact absurd rfl ho'

end Tie

end Parse

end Scriptlet
