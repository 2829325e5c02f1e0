import Scriptlet.Proofs.Grammar.Acceptance

/-!
# Parsing comes to an end

**Theorem (`parsing_terminates`).** Whatever the source, a program is read up to the end token, and
an expression is read or given up. The reason is that the parser moves on:

- each loop makes its passes over fewer and fewer tokens: a pass that is followed by another has
  left the current token behind;
- a rule that asks for a nested expression or block has left behind the token that it started on;
- at the end token an expression is given up at once.

**What it means that something is not asked for.** A pass of a loop is a function of what comes
after it, and a rule is a function of the rules nested in it. `only s x` is `x` where the current
token of `s` has been left behind, and it is cut off everywhere else. A pass that starts in `s` and
does the same over `again` as over `only s again`, whatever `again` is, has not asked for another
pass but beyond `s`. The same is said of a rule over the nested rules `r.beyond s`.

The proof goes through the grammar rule by rule (`Coincide`): a rule does the same over both kinds
of nested rules where these coincide, and it only moves on.
-/

namespace Scriptlet

namespace Parse

variable {α β : Type}

/-! ## Moving on for certain -/

/-- In `t` the current token of `s` has been left behind. -/
def Beyond (s t : ParseState) : Prop :=
  t.ahead.tokens <:+ s.ahead.tokens ∧ t.ahead.tokens.length < s.ahead.tokens.length

instance (s t : ParseState) : Decidable (Beyond s t) := inferInstanceAs (Decidable (_ ∧ _))

theorem Beyond.onward {s t u : ParseState} (h : Beyond s t) (htu : Onward t u) : Beyond s u :=
  ⟨htu.ahead.trans h.1, Nat.lt_of_le_of_lt htu.length_le h.2⟩

/-- Past a token there is less. -/
theorem Beyond.past {s t : ParseState} (hst : t.ahead.tokens <:+ s.ahead.tokens)
    (hs : s.ahead.tokens ≠ []) : Beyond s (past t) := by
  have hpos := List.length_pos_iff.2 hs
  have hle := hst.length_le
  refine ⟨(List.tail_suffix _).trans hst, ?_⟩
  rw [past_tokens, List.length_tail]
  omega

/-- Past one more token there is less, even if the first was no token. -/
theorem Beyond.past_upcoming {s t : ParseState} (hst : t.ahead.tokens <:+ s.ahead.tokens)
    (ht : t.ahead.upcoming.kind ≠ .eof) : Beyond s (Parse.past t) := by
  refine Beyond.past hst fun hs => ht ?_
  have htokens : t.ahead.tokens = [] := List.eq_nil_of_suffix_nil (hs ▸ hst)
  rw [kind_upcoming, htokens]
  rfl

/-- The step past an expected token leaves something behind. -/
theorem Beyond.of_expect {s t u : ParseState} {k : Kind} (hst : t.ahead.tokens <:+ s.ahead.tokens)
    (hk : k ≠ .eof) (hu : expect k t = .ok () u) : Beyond s u := by
  rw [expect, Parse.upcoming, Run.bind_apply, Run.read_apply] at hu
  dsimp only at hu
  split at hu
  · rename_i hkind
    cases hu
    exact Beyond.past_upcoming hst (hkind ▸ hk)
  · cases hu

/-- The step `x`, cut off unless the current token of `s` has been left behind. -/
def only (s : ParseState) (x : Parse α) : Parse α := fun t =>
  if Beyond s t then x t else .outOfFuel

theorem only_apply {s t : ParseState} (x : Parse α) (h : Beyond s t) : only s x t = x t :=
  if_pos h

/-- However `x` ends in the state `t`, it only moves on. -/
structure Forward (x : Parse α) (t : ParseState) : Prop where
  ok : ∀ {a u}, x t = .ok a u → Onward t u
  error : ∀ {d u}, x t = .error d u → Onward t u

/-- Steps in sequence do the same if they do the same in the states that are met. -/
theorem bind_congr_at {x y : Parse α} {f g : α → Parse β} {s : ParseState} (hxy : x s = y s)
    (hfg : ∀ a t, x s = .ok a t → f a t = g a t) : (x >>= f) s = (y >>= g) s := by
  rw [Run.bind_apply, Run.bind_apply, ← hxy]
  cases hx : x s with
  | ok a t => exact hfg a t hx
  | error d t => rfl
  | outOfFuel => rfl

theorem current_congr_at {f g : Token → Parse β} {s : ParseState}
    (h : f s.ahead.current s = g s.ahead.current s) :
    (Parse.current >>= f) s = (Parse.current >>= g) s := h

theorem upcoming_congr_at {f g : Token → Parse β} {s : ParseState}
    (h : f s.ahead.upcoming s = g s.ahead.upcoming s) :
    (Parse.upcoming >>= f) s = (Parse.upcoming >>= g) s := h

theorem advance_congr_at {f g : Unit → Parse β} {s : ParseState}
    (h : f () (Parse.past s) = g () (Parse.past s)) :
    (Parse.advance >>= f) s = (Parse.advance >>= g) s := h

/-- Where another step is asked for beyond `s`, cutting it off elsewhere makes no difference. -/
theorem again_congr_at {again : Parse α} {f : α → Parse β} {s t : ParseState} (h : Beyond s t) :
    (again >>= f) t = (only s again >>= f) t :=
  bind_congr_at (only_apply again h).symm fun _ _ _ => rfl

/-! ## Doing the same -/

/-- In all states that `P` has, the steps `x` and `y` do the same and only move on. -/
def Coincide (P : ParseState → Prop) (x y : Parse α) : Prop :=
  ∀ t, P t → x t = y t ∧ Forward x t

namespace Coincide

variable {P Q : ParseState → Prop} {x y : Parse α} {f g : α → Parse β}

theorem mono (h : Coincide Q x y) (hPQ : ∀ t, P t → Q t) : Coincide P x y :=
  fun t ht => h t (hPQ t ht)

theorem pure (a : α) : Coincide P (Pure.pure a) (Pure.pure a) := by
  refine fun t _ => ⟨rfl, fun h => ?_, fun h => ?_⟩ <;> cases h
  exact Onward.refl t

theorem fail (d : Diagnostic) : Coincide P (Run.fail d : Parse α) (Run.fail d) := by
  refine fun t _ => ⟨rfl, fun h => ?_, fun h => ?_⟩ <;> cases h
  exact Onward.refl t

theorem exhausted : Coincide P (Run.exhausted : Parse α) Run.exhausted := by
  refine fun t _ => ⟨rfl, fun h => ?_, fun h => ?_⟩ <;> cases h

theorem bind (hP : ∀ {t u}, P t → Onward t u → P u) (hx : Coincide P x y)
    (hf : ∀ a, Coincide P (f a) (g a)) : Coincide P (x >>= f) (y >>= g) := by
  intro t ht
  obtain ⟨hxy, hok, herror⟩ := hx t ht
  refine ⟨bind_congr_at hxy fun a u hu => (hf a u (hP ht (hok hu))).1, fun h => ?_, fun h => ?_⟩
  · obtain ⟨a, u, hu, hb⟩ := Run.bind_eq_ok_iff.1 h
    exact (hok hu).trans ((hf a u (hP ht (hok hu))).2.ok hb)
  · rcases Run.bind_eq_error_iff.1 h with hu | ⟨a, u, hu, hb⟩
    · exact herror hu
    · exact (hok hu).trans ((hf a u (hP ht (hok hu))).2.error hb)

theorem current {f g : Token → Parse β} (h : ∀ k, Coincide P (f k) (g k)) :
    Coincide P (Parse.current >>= f) (Parse.current >>= g) := fun t ht =>
  have ⟨hfg, hok, herror⟩ := h t.ahead.current t ht
  ⟨hfg, hok, herror⟩

theorem upcoming {f g : Token → Parse β} (h : ∀ k, Coincide P (f k) (g k)) :
    Coincide P (Parse.upcoming >>= f) (Parse.upcoming >>= g) := fun t ht =>
  have ⟨hfg, hok, herror⟩ := h t.ahead.upcoming t ht
  ⟨hfg, hok, herror⟩

theorem ite {c : Prop} [Decidable c] {x' y' : Parse α} (h : Coincide P x y)
    (h' : Coincide P x' y') : Coincide P (if c then x else x') (if c then y else y') := by
  split
  · exact h
  · exact h'

/-- Past a token, what has `P` is met. -/
theorem advance {f g : Unit → Parse β} (hPQ : ∀ t, Q t → P (past t))
    (h : Coincide P (f ()) (g ())) :
    Coincide Q (Parse.advance >>= f) (Parse.advance >>= g) := by
  intro t ht
  obtain ⟨hfg, hok, herror⟩ := h (past t) (hPQ t ht)
  exact ⟨hfg, fun hu => (onward_past t).trans (hok hu), fun hu => (onward_past t).trans (herror hu)⟩

theorem expect {k : Kind} {f g : Unit → Parse β} (hPQ : ∀ t, Q t → P (past t))
    (h : Coincide P (f ()) (g ())) :
    Coincide Q (Parse.expect k >>= f) (Parse.expect k >>= g) := by
  rw [Parse.expect, bind_assoc, bind_assoc]
  refine upcoming fun t => ?_
  by_cases hk : t.kind = k
  · rw [if_pos hk]
    exact advance hPQ h
  · rw [if_neg hk]
    intro t _
    refine ⟨rfl, fun h => ?_, fun h => ?_⟩ <;> cases h
    exact Onward.refl t

theorem name {f g : Ident → Parse β} (hPQ : ∀ t, Q t → P (past t))
    (h : ∀ x, Coincide P (f x) (g x)) :
    Coincide Q (Parse.name >>= f) (Parse.name >>= g) := by
  simp only [Parse.name, bind_assoc, pure_bind]
  exact expect hPQ (current fun t => h (.ofToken t))

/-- A step alone is one with nothing after it. -/
theorem of_bind_pure (h : Coincide P (x >>= Pure.pure) (y >>= Pure.pure)) : Coincide P x y := by
  rwa [bind_pure, bind_pure] at h

theorem recover (hx : Coincide P x y) : Coincide P (Parse.recover x) (Parse.recover y) := by
  intro t ht
  obtain ⟨hxy, hok, herror⟩ := hx t ht
  refine ⟨by rw [Parse.recover, Parse.recover, hxy], fun h => ?_, fun h => ?_⟩
  · cases hu : x t with
    | ok a u =>
      rw [recover_ok hu] at h
      cases h
      exact hok hu
    | error d u =>
      rw [recover_error hu] at h
      cases h
      exact (herror hu).trans (onward_broken d u)
    | outOfFuel =>
      rw [Parse.recover, hu] at h
      cases h
  · rw [Parse.recover] at h
    split at h <;> cases h

end Coincide

/-! ## Rule by rule -/

/-- The nested rules `r` and `r'` coincide where `P` holds, and `P` holds past a token wherever `A`
does. -/
structure Agreement (A P : ParseState → Prop) (r r' : Rules) : Prop where
  before : ∀ {t u}, A t → Onward t u → A u
  after : ∀ {t u}, P t → Onward t u → P u
  weaken : ∀ t, P t → A t
  past : ∀ t, A t → P (past t)
  expression : ∀ p, Coincide P (r.expression p) (r'.expression p)
  block : Coincide P r.block r'.block
  passes : r'.passes = r.passes

namespace Agreement

variable {A P : ParseState → Prop} {r r' : Rules} (h : Agreement A P r r')
include h

theorem step (t : ParseState) (ht : P t) : P (Parse.past t) := h.past t (h.weaken t ht)

theorem map {x y : Parse α} (hx : Coincide P x y) (g : α → β) :
    Coincide P (x >>= fun a => pure (g a)) (y >>= fun a => pure (g a)) :=
  hx.bind h.after fun a => .pure (g a)

theorem expect (k : Kind) : Coincide A (Parse.expect k) (Parse.expect k) :=
  .of_bind_pure (.expect h.past (.pure ()))

theorem skip (k : Kind) : Coincide P (Parse.skip k) (Parse.skip k) := by
  rw [Parse.skip]
  exact .upcoming fun t => .ite (.of_bind_pure (.advance h.step (.pure ()))) (.pure ())

theorem names (k : Nat) : Coincide A (Rules.names k) (Rules.names k) := by
  induction k with
  | zero => exact .exhausted
  | succ k ih =>
    rw [Rules.names]
    refine .name h.past fun x => .upcoming fun t => .ite ?_ ?_
    · exact .advance h.step (h.map (ih.mono h.weaken) _)
    · exact .mono (.expect h.past (.pure _)) h.weaken

theorem params : Coincide A r.params r'.params := by
  rw [Rules.params, Rules.params, h.passes]
  exact .upcoming fun t => .ite (.advance h.past (.pure _)) (h.names _)

theorem exprs (close : Kind) (k : Nat) : Coincide P (r.exprs close k) (r'.exprs close k) := by
  induction k with
  | zero => exact .exhausted
  | succ k ih =>
    rw [Rules.exprs, Rules.exprs]
    refine (h.expression _).bind h.after fun e => .upcoming fun t => .ite ?_ ?_
    · exact .advance h.step (.advance h.step (h.map ih _))
    · exact .expect h.step (.pure _)

theorem list (close : Kind) : Coincide A (r.list close) (r'.list close) := by
  rw [Rules.list, Rules.list, h.passes]
  exact .upcoming fun t => .advance h.past (.ite (.pure _) (h.exprs close _))

theorem pairEnd : Coincide P Rules.pairEnd Rules.pairEnd := by
  rw [Rules.pairEnd]
  exact .upcoming fun t => .ite (.pure _) ((h.expect _).mono h.weaken)

theorem pairs (k : Nat) : Coincide A (r.pairs k) (r'.pairs k) := by
  induction k with
  | zero => exact .exhausted
  | succ k ih =>
    rw [Rules.pairs, Rules.pairs]
    refine .upcoming fun t => .advance h.past (.ite (.pure _) ?_)
    refine (h.expression _).bind h.after fun key => .expect h.step (.advance h.step ?_)
    refine (h.expression _).bind h.after fun value => h.pairEnd.bind h.after fun _ => ?_
    exact h.map (ih.mono h.weaken) _

theorem blockAhead : Coincide A r.blockAhead r'.blockAhead := by
  rw [Rules.blockAhead, Rules.blockAhead]
  exact .expect h.past h.block

theorem elseBranch : Coincide A r.elseBranch r'.elseBranch := by
  rw [Rules.elseBranch, Rules.elseBranch]
  refine .upcoming fun t => .ite (.advance h.past ?_) (.pure _)
  exact h.map (h.blockAhead.mono h.weaken) _

theorem unary (t : Token) (op : UnaryOp) : Coincide A (r.unary t op) (r'.unary t op) := by
  rw [Rules.unary, Rules.unary]
  exact .advance h.past (h.map (h.expression _) _)

theorem group : Coincide A r.group r'.group := by
  rw [Rules.group, Rules.group]
  exact .advance h.past ((h.expression _).bind h.after fun e => .expect h.step (.pure e))

theorem conditional (t : Token) : Coincide A (r.conditional t) (r'.conditional t) := by
  rw [Rules.conditional, Rules.conditional]
  refine .advance h.past ((h.expression _).bind h.after fun test => ?_)
  refine (h.blockAhead.mono h.weaken).bind h.after fun yes => ?_
  exact h.map (h.elseBranch.mono h.weaken) _

theorem function (t : Token) : Coincide A (r.function t) (r'.function t) := by
  rw [Rules.function, Rules.function]
  refine .expect h.past ((h.params.mono h.weaken).bind h.after fun ps => ?_)
  exact h.map (h.blockAhead.mono h.weaken) _

theorem loop (t : Token) : Coincide A (r.loop t) (r'.loop t) := by
  rw [Rules.loop, Rules.loop]
  refine .name h.past fun index => .expect h.step (.name h.step fun value => ?_)
  refine .expect h.step (.name h.step fun target => ?_)
  exact h.map (h.blockAhead.mono h.weaken) _

theorem head : Coincide A r.head r'.head := by
  rw [Rules.head, Rules.head]
  refine .current fun t => ?_
  split
  case h_1 | h_3 | h_4 | h_5 | h_6 => exact .pure _
  case h_2 =>
    split
    · exact .pure _
    · exact .fail _
  case h_7 => exact h.unary t .not
  case h_8 => exact h.unary t .neg
  case h_9 => exact h.group
  case h_10 => exact h.conditional t
  case h_11 => exact h.function t
  case h_12 => exact (h.list _).bind h.before fun es => .pure _
  case h_13 => rw [h.passes]; exact (h.pairs _).bind h.before fun kvs => .pure _
  case h_14 => exact h.loop t
  case h_15 => exact .fail _

theorem extend (left : Expr) (suffix : Suffix) :
    Coincide A (r.extend left suffix) (r'.extend left suffix) := by
  cases suffix with
  | binary op =>
    exact .current fun t => .advance h.past (h.map (h.expression _) _)
  | call => exact .current fun t => (h.list _).bind h.before fun es => .pure _
  | index =>
    exact .current fun t => .advance h.past
      ((h.expression _).bind h.after fun i => .expect h.step (.pure _))
  | assign =>
    refine .current fun t => ?_
    cases left with
    | ident x => exact .advance h.past (h.map (h.expression _) _)
    | _ => exact .fail _

theorem suffixes (p : Precedence) (k : Nat) (left : Expr) :
    Coincide A (r.suffixes p k left) (r'.suffixes p k left) := by
  induction k generalizing left with
  | zero => exact .exhausted
  | succ k ih =>
    rw [Rules.suffixes, Rules.suffixes]
    refine .upcoming fun t => ?_
    split
    · exact .pure left
    · rename_i suffix _
      refine .ite (.advance h.past ?_) (.pure left)
      exact ((h.extend left suffix).mono h.weaken).bind h.after fun e => (ih e).mono h.weaken

theorem climb (p : Precedence) : Coincide A (r.climb p) (r'.climb p) := by
  rw [Rules.climb, Rules.climb, h.passes]
  exact h.head.bind h.before fun left => h.suffixes p _ left

theorem declaration (t : Token) (constant : Bool) :
    Coincide A (r.declaration t constant) (r'.declaration t constant) := by
  rw [Rules.declaration, Rules.declaration]
  exact .name h.past fun x => .expect h.step (.advance h.step (h.map (h.expression _) _))

theorem bareStatement : Coincide P r.bareStatement r'.bareStatement := by
  rw [Rules.bareStatement, Rules.bareStatement]
  refine .current fun t => ?_
  split
  · exact (h.declaration t false).mono h.weaken
  · exact (h.declaration t true).mono h.weaken
  · exact .advance h.step (h.map (h.expression _) _)
  · exact h.map (h.expression _) _

theorem statement : Coincide P r.statement r'.statement := by
  rw [Rules.statement, Rules.statement]
  exact h.bareStatement.bind h.after fun s => h.map (h.skip _) _

theorem passBroken : Coincide P Rules.passBroken Rules.passBroken := by
  rw [Rules.passBroken]
  exact .current fun t => .ite (.pure ()) (.of_bind_pure (.advance h.step (.pure ())))

theorem blockStmts (k : Nat) : Coincide P (r.blockStmts k) (r'.blockStmts k) := by
  induction k with
  | zero => exact .exhausted
  | succ k ih =>
    rw [Rules.blockStmts, Rules.blockStmts]
    refine .current fun t => .ite (.pure _) (h.statement.recover.bind h.after fun s? => ?_)
    cases s? with
    | some s => exact .advance h.step (h.map ih _)
    | none => exact h.passBroken.bind h.after fun _ => ih

theorem braces : Coincide A r.braces r'.braces := by
  rw [Rules.braces, Rules.braces, h.passes]
  exact .current fun t => .advance h.past (h.map (h.blockStmts _) _)

end Agreement

/-! ## Nested rules -/

namespace Rules

/-- The nested rules `r`, cut off unless the current token of `s` has been left behind. -/
def beyond (r : Rules) (s : ParseState) : Rules :=
  ⟨fun p => only s (r.expression p), only s r.block, r.passes⟩

/-- The nested rules only move on. -/
structure Onwards (r : Rules) : Prop where
  expression : ∀ p s, Forward (r.expression p) s
  block : ∀ s, Forward r.block s

variable {r : Rules}

theorem Onwards.agreement (hr : r.Onwards) :
    Agreement (fun _ => True) (fun _ => True) r r where
  before _ _ := trivial
  after _ _ := trivial
  weaken _ _ := trivial
  past _ _ := trivial
  expression p := fun t _ => ⟨rfl, hr.expression p t⟩
  block := fun t _ => ⟨rfl, hr.block t⟩
  passes := rfl

theorem onwards_rules (n : Nat) : (rules n).Onwards := by
  induction n with
  | zero => exact ⟨fun _ _ => ⟨nofun, nofun⟩, fun _ => ⟨nofun, nofun⟩⟩
  | succ n ih =>
    have hagree := ih.agreement
    exact ⟨fun p s => (hagree.climb p s trivial).2, fun s => (hagree.braces s trivial).2⟩

/-- From `s`, where there is a token, a rule that asks for what is nested only past a token has
left `s` behind. -/
theorem Onwards.agreement_beyond (hr : r.Onwards) {s : ParseState} (hs : s.ahead.tokens ≠ []) :
    Agreement (fun t => t.ahead.tokens <:+ s.ahead.tokens) (Beyond s) r (r.beyond s) where
  before h h' := h'.ahead.trans h
  after h h' := h.onward h'
  weaken _ h := h.1
  past _ h := .past h hs
  expression p := fun t h => ⟨(only_apply _ h).symm, hr.expression p t⟩
  block := fun t h => ⟨(only_apply _ h).symm, hr.block t⟩
  passes := rfl

/-- At the end of the source an expression is given up at once. -/
theorem climb_nil (p : Precedence) {s : ParseState} (hs : s.ahead.tokens = []) :
    r.climb p s = .error (.noExpressionAt s.ahead.current) s := by
  rw [climb, Run.bind_apply, head_nil hs]

/-- An expression asks for what is nested in it only past its first token. -/
theorem Onwards.climb_beyond (hr : r.Onwards) (p : Precedence) (s : ParseState) :
    r.climb p s = (r.beyond s).climb p s := by
  by_cases hs : s.ahead.tokens = []
  · rw [climb_nil p hs, climb_nil p hs]
  · exact ((hr.agreement_beyond hs).climb p s List.suffix_rfl).1

theorem Onwards.braces_beyond (hr : r.Onwards) (s : ParseState) :
    r.braces s = (r.beyond s).braces s := by
  by_cases hs : s.ahead.tokens = []
  · -- Past the end nothing is left of a block.
    have hblock (k : Nat) : r.blockStmts k (past s) = (r.beyond s).blockStmts k (past s) := by
      cases k with
      | zero => rfl
      | succ k =>
        have heof : (past s).ahead.current.kind = .eof := by rw [kind_current, past_tokens, hs]; rfl
        refine current_congr_at ?_
        rw [if_pos (.inr heof), if_pos (.inr heof)]
    exact current_congr_at (advance_congr_at (bind_congr_at (hblock _) fun _ _ _ => rfl))
  · exact ((hr.agreement_beyond hs).braces s List.suffix_rfl).1

/-! ## The passes of the loops -/

/-- One pass of `names`. -/
def namesPass (again : Parse (List Ident)) : Parse (List Ident) := do
  let x ← name
  let t ← upcoming
  if t.kind = .comma then do
    advance
    let xs ← again
    pure (x :: xs)
  else do
    expect .rparen
    pure [x]

/-- One pass of `exprs`. -/
def exprsPass (r : Rules) (close : Kind) (again : Parse (List Expr)) : Parse (List Expr) := do
  let e ← r.expression .lowest
  let t ← upcoming
  if t.kind = .comma then do
    advance
    advance
    let es ← again
    pure (e :: es)
  else do
    expect close
    pure [e]

/-- One pass of `pairs`. -/
def pairsPass (r : Rules) (again : Parse (List (Expr × Expr))) : Parse (List (Expr × Expr)) := do
  let t ← upcoming
  advance
  if t.kind = .rbrace then pure []
  else do
    let key ← r.expression .lowest
    expect .colon
    advance
    let value ← r.expression .lowest
    pairEnd
    let rest ← again
    pure ((key, value) :: rest)

/-- One pass of `suffixes`. -/
def suffixesPass (r : Rules) (p : Precedence) (again : Expr → Parse Expr) (left : Expr) :
    Parse Expr := do
  let t ← upcoming
  match Suffix.ofKind t.kind with
  | none => pure left
  | some suffix =>
    if p < suffix.precedence then do
      advance
      let e ← r.extend left suffix
      again e
    else pure left

/-- One pass of `blockStmts`. -/
def blockStmtsPass (r : Rules) (again : Parse (List Stmt)) : Parse (List Stmt) := do
  let t ← current
  if t.kind = .rbrace ∨ t.kind = .eof then pure []
  else do
    let s? ← recover r.statement
    match s? with
    | some s => do
      advance
      let ss ← again
      pure (s :: ss)
    | none => do
      passBroken
      again

/-- One pass of `programStmts`. -/
def programStmtsPass (r : Rules) (again : Parse (List Stmt)) : Parse (List Stmt) := do
  let t ← current
  if t.kind = .eof then pure []
  else do
    let s? ← recover r.statement
    advance
    let ss ← again
    pure (s?.toList ++ ss)

/-- The loop makes the passes `pass`, and a pass has left its first token behind where it asks
for another one. -/
structure Passes {α : Type} (loop : Nat → Parse α) (pass : Parse α → Parse α) : Prop where
  zero : loop 0 = Run.exhausted
  succ : ∀ k, loop (k + 1) = pass (loop k)
  beyond : ∀ again s, pass again s = pass (only s again) s

theorem passes_names : Passes names namesPass where
  zero := rfl
  succ _ := rfl
  beyond again s := by
    refine bind_congr_at rfl fun x t ht => upcoming_congr_at ?_
    have hst : Beyond s t := by
      obtain ⟨_, u, hu, hx⟩ := Run.bind_eq_ok_iff.1 ht
      cases hx
      exact Beyond.of_expect List.suffix_rfl (by decide) hu
    split
    · exact advance_congr_at (again_congr_at (hst.onward (onward_past t)))
    · rfl

theorem Onwards.passes_exprs (hr : r.Onwards) (close : Kind) :
    Passes (r.exprs close) (r.exprsPass close) where
  zero := rfl
  succ _ := rfl
  beyond again s := by
    refine bind_congr_at rfl fun e t ht => upcoming_congr_at ?_
    have hst := (hr.expression .lowest s).ok ht
    split
    · rename_i hc
      have hpast := Beyond.past_upcoming hst.ahead (by rw [hc]; decide)
      exact advance_congr_at (advance_congr_at (again_congr_at (hpast.onward (onward_past _))))
    · rfl

theorem Onwards.passes_pairs (hr : r.Onwards) : Passes r.pairs r.pairsPass where
  zero := rfl
  succ _ := rfl
  beyond again s := by
    refine upcoming_congr_at (advance_congr_at ?_)
    split
    · rfl
    · refine bind_congr_at rfl fun key t ht => bind_congr_at rfl fun _ u hu => ?_
      have hst := (onward_past s).trans ((hr.expression .lowest _).ok ht)
      have hsu := Beyond.of_expect hst.ahead (by decide) hu
      refine advance_congr_at (bind_congr_at rfl fun value v hv => ?_)
      have hsv := (hsu.onward (onward_past u)).onward ((hr.expression .lowest _).ok hv)
      refine bind_congr_at rfl fun _ w hw => again_congr_at ?_
      exact hsv.onward ((hr.agreement.pairEnd v trivial).2.ok hw)

theorem Onwards.suffixesPass_beyond (hr : r.Onwards) (p : Precedence)
    (again : Expr → Parse Expr) (left : Expr) (s : ParseState) :
    r.suffixesPass p again left s = r.suffixesPass p (fun e => only s (again e)) left s := by
  refine upcoming_congr_at ?_
  cases hsuffix : Suffix.ofKind s.ahead.upcoming.kind with
  | none => rfl
  | some suffix =>
    have hpast : Beyond s (past s) :=
      Beyond.past_upcoming List.suffix_rfl fun h => by rw [h] at hsuffix; cases hsuffix
    dsimp only
    split
    · refine advance_congr_at (bind_congr_at rfl fun e u hu => (only_apply _ ?_).symm)
      exact hpast.onward ((hr.agreement.extend left suffix _ trivial).2.ok hu)
    · rfl

theorem Onwards.passes_blockStmts (hr : r.Onwards) : Passes r.blockStmts r.blockStmtsPass where
  zero := rfl
  succ _ := rfl
  beyond again s := by
    refine current_congr_at ?_
    split
    · rfl
    · rename_i hc
      rw [kind_current] at hc
      obtain ⟨hbrace, heof⟩ := not_or.1 hc
      refine bind_congr_at rfl fun s? t ht => ?_
      have hst := (hr.agreement.statement.recover s trivial).2.ok ht
      cases s? with
      | some st =>
        refine advance_congr_at (again_congr_at (Beyond.past hst.ahead fun h => heof ?_))
        rw [h, nextKind_nil]
      | none =>
        refine bind_congr_at rfl fun _ u hu => (only_apply again ⟨?_, ?_⟩).symm
        · exact ((moves_passBroken t).ok hu).ahead.trans hst.ahead
        · exact length_passBroken_lt hst.ahead hbrace heof hu

theorem Onwards.passes_programStmts (hr : r.Onwards) :
    Passes r.programStmts r.programStmtsPass where
  zero := rfl
  succ _ := rfl
  beyond again s := by
    refine current_congr_at ?_
    split
    · rfl
    · rename_i hc
      rw [kind_current] at hc
      refine bind_congr_at rfl fun s? t ht => ?_
      have hst := (hr.agreement.statement.recover s trivial).2.ok ht
      refine advance_congr_at (again_congr_at (Beyond.past hst.ahead fun h => hc ?_))
      rw [h, nextKind_nil]

/-- The rules over the nested rules `r` move on: a loop leaves its first token behind before its
next pass, and an expression or a block before it asks for what is nested in it. -/
structure MovesOn (r : Rules) : Prop where
  names : Passes names namesPass
  exprs : ∀ close, Passes (r.exprs close) (r.exprsPass close)
  pairs : Passes r.pairs r.pairsPass
  suffixes : ∀ p left,
    r.suffixes p 0 left = Run.exhausted ∧
    (∀ k, r.suffixes p (k + 1) left = r.suffixesPass p (r.suffixes p k) left) ∧
    ∀ again s,
      r.suffixesPass p again left s = r.suffixesPass p (fun e => only s (again e)) left s
  blockStmts : Passes r.blockStmts r.blockStmtsPass
  programStmts : Passes r.programStmts r.programStmtsPass
  climb : ∀ p s, r.climb p s = (r.beyond s).climb p s
  braces : ∀ s, r.braces s = (r.beyond s).braces s

theorem Onwards.movesOn (hr : r.Onwards) : r.MovesOn where
  names := passes_names
  exprs := hr.passes_exprs
  pairs := hr.passes_pairs
  suffixes p left :=
    ⟨rfl, fun _ => rfl, fun again s => hr.suffixesPass_beyond p again left s⟩
  blockStmts := hr.passes_blockStmts
  programStmts := hr.passes_programStmts
  climb := hr.climb_beyond
  braces := hr.braces_beyond

/-- The list of a program's statements ends at the end of the source only. -/
theorem kind_of_programStmts {k : Nat} {s t : ParseState} {ss : List Stmt}
    (h : r.programStmts k s = .ok ss t) : t.ahead.current.kind = .eof := by
  induction k generalizing s ss with
  | zero => cases h
  | succ k ih =>
    rw [programStmts, Parse.current, Run.bind_apply, Run.read_apply] at h
    dsimp only at h
    split at h
    · rename_i heof
      cases h
      exact heof
    · obtain ⟨s?, u, -, h⟩ := Run.bind_eq_ok_iff.1 h
      obtain ⟨_, v, -, h⟩ := Run.bind_eq_ok_iff.1 h
      obtain ⟨ss', w, hw, h⟩ := Run.bind_eq_ok_iff.1 h
      cases h
      exact ih hw

end Rules

/-! ## Skipping -/

/-- One pass of `skipBroken`. -/
def skipPass (again : List Token → List Token) : List Token → List Token
  | [] => []
  | [t] => [t]
  | t :: u :: rest =>
    if endsBroken t.kind || endsBrokenBefore u.kind then t :: u :: rest else again (u :: rest)

theorem skipBroken_eq_skipPass (ts : List Token) : skipBroken ts = skipPass skipBroken ts := by
  match ts with
  | [] | [_] => rfl
  | _ :: _ :: _ => rw [skipBroken, skipPass]

/-- Skipping goes on only past the token that it looked at. -/
theorem skipPass_beyond (again : List Token → List Token) (ts : List Token) :
    skipPass again ts =
      skipPass (fun us => if us <:+ ts ∧ us.length < ts.length then again us else []) ts := by
  match ts with
  | [] | [_] => rfl
  | t :: u :: rest =>
    have hshort : u :: rest <:+ t :: u :: rest ∧ (u :: rest).length < (t :: u :: rest).length :=
      ⟨List.suffix_cons t _, Nat.lt_succ_self _⟩
    rw [skipPass, skipPass, if_pos hshort]

/-! ## Coming to an end -/

/-- A whole program is read up to the end of its source. -/
theorem program_reaches_end (source : String) : ∃ p t,
    Parse.program (.ofSource source) = .ok p t ∧
      t.ahead.current = (TokenStream.ofSource source).endToken := by
  have hread := reads_program source
  cases hrun : Parse.program (.ofSource source) with
  | ok p t =>
    refine ⟨p, t, rfl, ?_⟩
    obtain ⟨ss, u, hss, hu⟩ := Run.bind_eq_ok_iff.1 hrun
    cases hu
    have hon := hread.ok hrun
    have hkind := Rules.kind_of_programStmts hss
    rcases t with ⟨⟨_ | ⟨c, ts⟩, q⟩, ds⟩
    · rw [TokenStream.current, TokenStream.endToken, TokenStream.endToken, hon.finish]
      rfl
    · have hc := TokenStream.proper_ofSource source c (hon.ahead.subset List.mem_cons_self)
      exact absurd hkind hc.kind_ne_eof
  | error d t => exact absurd hrun (program_ne_error _ _ _)
  | outOfFuel => exact absurd hrun hread.ends

theorem expression_ends (p : Precedence) (source : String) :
    Parse.expression p (.ofSource source) ≠ .outOfFuel :=
  ((readsBelow_rules _).expression (within_ofSource source)).ends

end Parse

/-- **Parsing comes to an end**, since no loop and no nesting stays where it is. -/
theorem parsing_terminates (source : String) :
    (∃ p t, Parse.program (.ofSource source) = .ok p t ∧
      t.ahead.current = (TokenStream.ofSource source).endToken) ∧
    (∀ p, Parse.expression p (.ofSource source) ≠ .outOfFuel) ∧
    -- One level of the rules moves on over whatever only moves on, and all levels do.
    (∀ r : Parse.Rules, r.Onwards → r.MovesOn) ∧
    (∀ n, (Parse.rules n).Onwards ∧ ∀ p s,
      (Parse.rules (n + 1)).expression p s = (Parse.rules n).climb p s ∧
      (Parse.rules (n + 1)).block s = (Parse.rules n).braces s) ∧
    (∀ (r : Parse.Rules) p s, s.ahead.tokens = [] →
      r.climb p s = .error (.noExpressionAt s.ahead.current) s) ∧
    -- What is skipped after a broken statement gets shorter too.
    (∀ ts, Parse.skipBroken ts = Parse.skipPass Parse.skipBroken ts) ∧
    ∀ again ts, Parse.skipPass again ts = Parse.skipPass
      (fun us => if us <:+ ts ∧ us.length < ts.length then again us else []) ts :=
  ⟨Parse.program_reaches_end source, fun p => Parse.expression_ends p source,
    fun _ hr => hr.movesOn, fun n => ⟨Parse.Rules.onwards_rules n, fun _ _ => ⟨rfl, rfl⟩⟩,
    fun _ p _ hs => Parse.Rules.climb_nil p hs, Parse.skipBroken_eq_skipPass,
    Parse.skipPass_beyond⟩

end Scriptlet
