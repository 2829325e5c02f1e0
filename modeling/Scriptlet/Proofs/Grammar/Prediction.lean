import Mathlib.Logic.Relation
import Scriptlet.Proofs.Grammar
import Scriptlet.Proofs.Grammar.Places

/-!
# Recognizing by prediction

A program can be recognized with a stack of goals: what is still to come, the nearest goal on top.
The next token alone decides what the goal on top is replaced by, and whether it can be met at
all.

**Lemma (`leads_of_front`).** A run goes on in the same way whatever stands behind the next token.
So a run that gets stuck has looked at no token beyond the one it is stuck at, and this token
cannot follow what is before it, whatever comes later.

An assignment needs a name on its left. Whether the expression read last is a name is noted beside
the stack.
-/

namespace Scriptlet

namespace Prediction

/-- Something that is still to come. -/
inductive Goal where
  /-- One token of a kind. -/
  | token (k : Kind)
  | expr (p : Precedence)
  /-- The suffixes that bind tighter than `p`. -/
  | suffixes (p : Precedence)
  /-- Nothing; but it is noted whether what was read last is a name. -/
  | note (named : Bool)
  | elseBranch
  /-- Names and the closing parenthesis. -/
  | params
  /-- The same after a name. -/
  | moreParams
  /-- Expressions and the closing token. -/
  | items (close : Kind)
  /-- The same after an expression. -/
  | moreItems (close : Kind)
  /-- Pairs and the closing brace. -/
  | pairs
  | pairEnd
  /-- Statements and the closing brace, or the end of the source. -/
  | stmts
  | stmt
  /-- A semicolon, if there is one. -/
  | semicolon
  | program
deriving DecidableEq, Repr

/-- What is done about the goal on top. -/
inductive Move where
  /-- Use up the next token. -/
  | eat
  | expand (goals : List Goal)
  | note (named : Bool)

/-- The next token, wherever it stands. -/
def front (ts : List Token) : Option Token := ts.head?.map Token.unplaced

def frontKind (t? : Option Token) : Kind := (t?.map Token.kind).getD .eof

@[simp] theorem frontKind_front (ts : List Token) : frontKind (front ts) = nextKind ts := by
  cases ts <;> rfl

/-- The number that the next token spells is an integer. -/
def isInteger (t? : Option Token) : Bool := t?.any fun t => decimal t.text ≤ 2 ^ 63 - 1

/-! ## The table -/

/-- A block after its opening brace has been announced. -/
def blockGoals : List Goal := [.token .lbrace, .stmts]

/-- What an expression starts with, by the next token. -/
def headGoals (t? : Option Token) : Option (List Goal) :=
  match frontKind t? with
  | .ident => some [.token .ident, .note true]
  | .int => if isInteger t? then some [.token .int, .note false] else none
  | .string => some [.token .string, .note false]
  | .trueKw => some [.token .trueKw, .note false]
  | .falseKw => some [.token .falseKw, .note false]
  | .nullKw => some [.token .nullKw, .note false]
  | .bang => some [.token .bang, .expr .unary, .note false]
  | .minus => some [.token .minus, .expr .unary, .note false]
  | .lparen => some [.token .lparen, .expr .lowest, .token .rparen]
  | .ifKw => some (.token .ifKw :: .expr .lowest :: blockGoals ++ [.elseBranch, .note false])
  | .fnKw => some (.token .fnKw :: .token .lparen :: .params :: blockGoals ++ [.note false])
  | .lbracket => some [.token .lbracket, .items .rbracket, .note false]
  | .lbrace => some [.token .lbrace, .pairs, .note false]
  | .forKw => some (.token .forKw :: .token .ident :: .token .comma :: .token .ident ::
      .token .inKw :: .token .ident :: blockGoals ++ [.note false])
  | _ => none

/-- What the suffix `s`, which starts with a token of kind `k`, consists of. -/
def suffixGoals (named : Bool) (k : Kind) : Suffix → Option (List Goal)
  | .binary op => some [.token k, .expr op.precedence, .note false]
  | .call => some [.token k, .items .rparen, .note false]
  | .index => some [.token k, .expr .lowest, .token .rbracket, .note false]
  | .assign => if named then some [.token k, .expr .lowest, .note false] else none

/-- What a statement without its semicolon consists of, by the kind of the next token. -/
def stmtGoals : Kind → List Goal
  | .letKw => [.token .letKw, .token .ident, .token .assign, .expr .lowest]
  | .constKw => [.token .constKw, .token .ident, .token .assign, .expr .lowest]
  | .returnKw => [.token .returnKw, .expr .lowest]
  | _ => [.expr .lowest]

/-- What is done about a goal, by the next token. There is nothing to be done if the token cannot
come here. -/
def Goal.move (named : Bool) (t? : Option Token) : Goal → Option Move
  | .token k => if t?.map Token.kind = some k then some .eat else none
  | .expr p => (headGoals t?).map fun gs => .expand (gs ++ [.suffixes p])
  | .suffixes p =>
    match Suffix.ofKind (frontKind t?) with
    | none => some (.expand [])
    | some s =>
      if p < s.precedence then
        (suffixGoals named (frontKind t?) s).map fun gs => .expand (gs ++ [.suffixes p])
      else some (.expand [])
  | .note b => some (.note b)
  | .elseBranch =>
    some (.expand (if frontKind t? = .elseKw then .token .elseKw :: blockGoals else []))
  | .params =>
    some (.expand (if frontKind t? = .rparen then [.token .rparen]
      else [.token .ident, .moreParams]))
  | .moreParams =>
    some (.expand (if frontKind t? = .comma then [.token .comma, .token .ident, .moreParams]
      else [.token .rparen]))
  | .items close =>
    some (.expand (if frontKind t? = close then [.token close]
      else [.expr .lowest, .moreItems close]))
  | .moreItems close =>
    some (.expand (if frontKind t? = .comma then [.token .comma, .expr .lowest, .moreItems close]
      else [.token close]))
  | .pairs =>
    some (.expand (if frontKind t? = .rbrace then [.token .rbrace]
      else [.expr .lowest, .token .colon, .expr .lowest, .pairEnd, .pairs]))
  | .pairEnd => some (.expand (if frontKind t? = .rbrace then [] else [.token .comma]))
  | .stmts =>
    some (.expand (if frontKind t? = .rbrace then [.token .rbrace]
      else if frontKind t? = .eof then [] else [.stmt, .stmts]))
  | .stmt => some (.expand (stmtGoals (frontKind t?) ++ [.semicolon]))
  | .semicolon =>
    some (.expand (if frontKind t? = .semicolon then [.token .semicolon] else []))
  | .program => some (.expand (if frontKind t? = .eof then [] else [.stmt, .program]))

/-! ## Runs -/

/-- A point of a run. -/
structure Point where
  /-- What was read last is a name. -/
  named : Bool
  goals : List Goal
  ahead : List Token

def Point.after (named : Bool) (goals : List Goal) (ts : List Token) : Move → Point
  | .eat => ⟨named, goals, ts.tail⟩
  | .expand gs => ⟨named, gs ++ goals, ts⟩
  | .note b => ⟨b, goals, ts⟩

/-- One step: the goal on top is replaced. Without goals there is none. -/
def Point.step (c : Point) : Option Point :=
  match c.goals with
  | [] => none
  | g :: gs => (g.move c.named (front c.ahead)).map (Point.after c.named gs c.ahead)

variable {b b' : Bool} {st st' : List Goal} {ts rest : List Token}

def Leads : Point → Point → Prop := Relation.ReflTransGen fun c c' => c.step = some c'

/-- A goal is left and cannot be met. -/
def Stuck (c : Point) : Prop := c.step = none ∧ c.goals ≠ []

theorem Leads.refl (c : Point) : Leads c c := Relation.ReflTransGen.refl

theorem Leads.trans {c c' c'' : Point} (h : Leads c c') (h' : Leads c' c'') : Leads c c'' :=
  Relation.ReflTransGen.trans h h'

theorem Leads.head {c c' c'' : Point} (h : c.step = some c') (h' : Leads c' c'') : Leads c c'' :=
  Relation.ReflTransGen.head h h'

theorem Leads.move {g : Goal} {m : Move} (hm : g.move b (front ts) = some m) {c : Point}
    (h : Leads (Point.after b st ts m) c) : Leads ⟨b, g :: st, ts⟩ c :=
  h.head (by simp [Point.step, hm])

theorem Leads.eat {k : Kind} {t : Token} (ht : t.kind = k) {c : Point}
    (h : Leads ⟨b, st, ts⟩ c) : Leads ⟨b, .token k :: st, t :: ts⟩ c :=
  Leads.move (m := .eat) (by simp [Goal.move, front, ht]) h

/-- A run ends at one point at most. -/
theorem Leads.unique {c c' c'' : Point} (h : Leads c c') (h' : Leads c c'') (hend : c'.step = none)
    (hend' : c''.step = none) : c' = c'' := by
  induction h using Relation.ReflTransGen.head_induction_on with
  | refl =>
    cases h'.cases_head with
    | inl heq => exact heq
    | inr hstep =>
      obtain ⟨d, hd, -⟩ := hstep
      rw [hend] at hd
      cases hd
  | head hstep _ ih =>
    cases h'.cases_head with
    | inl heq =>
      subst heq
      rw [hend'] at hstep
      cases hstep
    | inr hstep' =>
      obtain ⟨d, hd, hrest⟩ := hstep'
      rw [hstep] at hd
      cases hd
      exact ih hrest

/-- A run that gets stuck does not meet all its goals. -/
theorem Stuck.not_met {c c' : Point} (hc' : Stuck c') (h : Leads c c') {b : Bool}
    {ts : List Token} : ¬ Leads c ⟨b, [], ts⟩ := by
  intro hmet
  have := h.unique hmet hc'.1 rfl
  exact hc'.2 (this ▸ rfl)

/-! ## What a run looks at -/

theorem front_eq {t u : Token} (h : t.unplaced = u.unplaced) (ts us : List Token) :
    front (t :: ts) = front (u :: us) := congrArg some h

theorem front_append {used used' rest rest' : List Token} (hused : Alike used used')
    (hrest : front rest = front rest') : front (used ++ rest) = front (used' ++ rest') := by
  cases hused with
  | nil => exact hrest
  | cons ht _ => exact front_eq ht _ _

/-- A token that is used up stands in front. -/
theorem eq_cons_of_eat {g : Goal} (h : g.move b (front ts) = some .eat) :
    ∃ t us, ts = t :: us := by
  cases g with
  | token k =>
    cases ts with
    | nil => simp [Goal.move, front] at h
    | cons t us => exact ⟨t, us, rfl⟩
  | expr p => simp [Goal.move] at h
  | suffixes p =>
    rw [Goal.move] at h
    split at h
    · simp at h
    · split at h <;> simp at h
  | _ => simp [Goal.move] at h

/-- **A run looks one token ahead.** It goes on in the same way whatever stands behind the tokens
it has used up and the next one. -/
theorem leads_of_front (h : Leads ⟨b, st, ts⟩ ⟨b', st', rest⟩) :
    ∃ used, ts = used ++ rest ∧ ∀ used' rest', Alike used used' → front rest = front rest' →
      Leads ⟨b, st, used' ++ rest'⟩ ⟨b', st', rest'⟩ := by
  generalize hc : (⟨b, st, ts⟩ : Point) = c at h
  induction h using Relation.ReflTransGen.head_induction_on generalizing b st ts with
  | refl =>
    cases hc
    refine ⟨[], rfl, fun used' rest' hused _ => ?_⟩
    cases hused
    exact Leads.refl _
  | head hstep _ ih =>
    subst hc
    cases st with
    | nil => cases hstep
    | cons g gs =>
      simp only [Point.step] at hstep
      obtain ⟨m, hm, rfl⟩ := Option.map_eq_some_iff.1 hstep
      cases m with
      | eat =>
        obtain ⟨t, us, rfl⟩ := eq_cons_of_eat hm
        obtain ⟨used, hus, hmore⟩ := ih rfl
        refine ⟨t :: used, congrArg (t :: ·) hus, fun used' rest' hused hrest => ?_⟩
        cases hused with
        | @cons _ t' _ used' ht hused =>
          refine Leads.head ?_ (hmore used' rest' hused hrest)
          rw [front_eq ht us (used' ++ rest')] at hm
          simp [Point.step, hm, Point.after]
      | expand | note =>
        obtain ⟨used, hus, hmore⟩ := ih rfl
        refine ⟨used, hus, fun used' rest' hused hrest => ?_⟩
        refine Leads.head ?_ (hmore used' rest' hused hrest)
        rw [hus, front_append hused hrest] at hm
        simp [Point.step, hm, Point.after]

/-- Right behind the last token it has used up, a run is at a point that does not depend on what
comes next. -/
theorem leads_used (h : Leads ⟨b, st, ts⟩ ⟨b', st', rest⟩) :
    ∃ used b₀ st₀, ts = used ++ rest ∧ ∀ rest', Leads ⟨b, st, used ++ rest'⟩ ⟨b₀, st₀, rest'⟩ := by
  generalize hc : (⟨b', st', rest⟩ : Point) = c at h
  induction h generalizing b' st' rest with
  | refl =>
    cases hc
    exact ⟨[], b, st, rfl, fun _ => Leads.refl _⟩
  | @tail c₁ _ hrun hstep ih =>
    subst hc
    obtain ⟨b₁, _ | ⟨g, gs⟩, us⟩ := c₁
    · cases hstep
    simp only [Point.step] at hstep
    obtain ⟨m, hm, hafter⟩ := Option.map_eq_some_iff.1 hstep
    cases m with
    | eat =>
      cases hafter
      -- Up to here the run depends on `t`, and from here on it is past `t`.
      obtain ⟨t, us, rfl⟩ := eq_cons_of_eat hm
      obtain ⟨used, hts, hmore⟩ := leads_of_front hrun
      refine ⟨used ++ [t], b', st', by simpa using hts, fun rest' => ?_⟩
      have hto := hmore used (t :: rest') (alike_iff.2 rfl) rfl
      rw [List.append_assoc]
      refine hto.trans (Leads.head ?_ (Leads.refl _))
      rw [front_eq rfl us rest'] at hm
      simp [Point.step, hm, Point.after]
    | expand | note =>
      cases hafter
      exact ih rfl

end Prediction

end Scriptlet
