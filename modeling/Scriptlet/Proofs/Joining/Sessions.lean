import Scriptlet.Proofs.Joining.Evaluation
import Scriptlet.Proofs.Joining.Grammar
import Scriptlet.Session

/-!
# Sources in a row and at once

**Theorem (`eval_append`).** Let two sources be read as programs, the first up to a semicolon and
with as many opening as closing braces. Then one after the other they are read as the first program
and then the second. And a session that runs the first source to its end and then the second does
what it does when it runs both at once. All this holds up to positions.

The programs agree up to positions (`parse_append`), and so do their evaluations (`mirrors_eval`).
What is left is that a list of statements is run as its first part and then the rest
(`sequence_append`).
-/

namespace Scriptlet

namespace Eval

/-- A list of statements is run as its first part and then the rest, if there is one. -/
theorem sequence_append {run : Stmt → Eval Value} {ss ss' : List Stmt} (hss' : ss' ≠ [])
    {σ τ : Store} {v : Value} (h : sequence run ss σ = .ok v τ) :
    sequence run (ss ++ ss') σ = sequence run ss' τ := by
  -- The value of the first part is given back only if no statement comes after it.
  obtain ⟨s, ss', rfl⟩ := List.exists_cons_of_ne_nil hss'
  rw [sequence, List.foldlM_append, Run.bind_apply]
  rw [sequence] at h
  rw [h]
  rfl

/-- Statements that agree up to positions leave what agrees up to positions. -/
theorem unplaced_sequence {reg : Registry} (hreg : reg.Blind) (depth : Nat) (env : ScopeId)
    {ss ss' : List Stmt} (h : ss.map Stmt.unplaced = ss'.map Stmt.unplaced) (σ : Store) :
    (sequence (exec reg depth env) ss σ).unplaced Signal.unplaced Value.unplaced =
      (sequence (exec reg depth env) ss' σ).unplaced Signal.unplaced Value.unplaced := by
  have hmirrors := mirrors_sequence ((mirrors_eval hreg depth).1 env)
  rw [← hmirrors ss σ, ← hmirrors ss' σ, h]

end Eval

/-! ## Answers -/

/-- An answer without positions. -/
def Answer.unplaced (a : Answer) : Answer := a.map fun a => (a.1.unplaced, a.2.unplaced)

theorem answer_unplaced (x : Eval Value) (σ : Store) :
    (Eval.answer x σ).unplaced =
      Eval.answer (fun _ => (x σ).unplaced Signal.unplaced Value.unplaced) σ := by
  unfold Eval.answer
  match x σ with
  | .ok _ _ | .error (.ret _) _ | .error (.raised _) _ | .outOfFuel => rfl

/-- What an evaluation leaves, up to positions, decides on the answer up to positions. -/
theorem answer_unplaced_congr {x y : Eval Value} {σ τ : Store}
    (h : (x σ).unplaced Signal.unplaced Value.unplaced =
      (y τ).unplaced Signal.unplaced Value.unplaced) :
    (Eval.answer x σ).unplaced = (Eval.answer y τ).unplaced := by
  rw [answer_unplaced, answer_unplaced, h]
  rfl

namespace Session

def unplaced (session : Session) : Session := { session with store := session.store.unplaced }

/-- The value that a session gave and the session that it left, without positions. -/
def unplacedResult (result : Value × Session) : Value × Session :=
  (result.1.unplaced, result.2.unplaced)

/-- A source that can be read is run as the program it is read as. -/
theorem eval_of_parse (session : Session) (depth : Nat) {source : String} {p : Program}
    (hp : parse source = .ok p) :
    session.eval depth source =
      .ok ((p.run session.registry depth session.globals session.store).map fun a =>
        (a.1, { session with store := a.2 })) := by
  rw [Session.eval, hp]
  rfl

theorem map_unplacedResult (session : Session) (a : Answer) :
    (a.map fun a => (a.1, { session with store := a.2 })).map unplacedResult =
      a.unplaced.map fun a => (a.1, { session with store := a.2 }) := by
  cases a <;> rfl

end Session

/-- **Sources in a row** are read as the programs in a row. And if the first one runs to its end,
then running the second one after it gives and leaves what running both at once does. -/
theorem eval_append {source source' : String} {p p' : Program} (hp : parse source = .ok p)
    (hp' : parse source' = .ok p')
    (hend : EndsStatement (TokenStream.ofSource source).tokens)
    (hbraces : (TokenStream.ofSource source).tokens.countP (fun t => t.kind = .lbrace) =
      (TokenStream.ofSource source).tokens.countP fun t => t.kind = .rbrace) :
    (∃ q, parse (source ++ source') = .ok q ∧
      q.unplaced = Program.unplaced ⟨p.stmts ++ p'.stmts⟩) ∧
    ∀ session : Session, session.registry.Blind → p'.stmts ≠ [] → ∀ (depth : Nat) (v : Value)
      (τ : Store), Eval.sequence (Eval.exec session.registry depth session.globals) p.stmts
        session.store = .ok v τ →
      ∃ first r r', session.eval depth source = .ok (some (v, first)) ∧
        first.eval depth source' = .ok r ∧ session.eval depth (source ++ source') = .ok r' ∧
        r.map Session.unplacedResult = r'.map Session.unplacedResult := by
  have hclosed : surplus (TokenStream.ofSource source).tokens = 0 := by
    rw [surplus, hbraces, Int.sub_self]
  obtain ⟨q, hq, hstmts⟩ := parse_append hp hp' hend hclosed
  refine ⟨⟨q, hq, hstmts⟩, fun session hreg hne depth v τ hrun => ?_⟩
  refine ⟨{ session with store := τ }, _, _, ?_, Session.eval_of_parse _ depth hp',
    session.eval_of_parse depth hq, ?_⟩
  · rw [session.eval_of_parse depth hp, Program.run, Eval.answer, hrun]
    rfl
  · rw [Session.map_unplacedResult, Session.map_unplacedResult]
    have hagree := Eval.unplaced_sequence hreg depth session.globals
      (congrArg Program.stmts hstmts) session.store
    rw [Eval.sequence_append hne hrun] at hagree
    rw [Program.run, Program.run, answer_unplaced_congr hagree]

/-- `let f = fn() { [1] };` and then `f()`: the braces of the function are closed, and the call
gives an array either way. -/
theorem eval_append_function :
    ∃ (p p' : Program) (first : Session) (r r' : Option (Value × Session)),
      parse "let f = fn() \x7b [1] \x7d;" = .ok p ∧ parse "f()" = .ok p' ∧ p'.stmts ≠ [] ∧
      EndsStatement (TokenStream.ofSource "let f = fn() \x7b [1] \x7d;").tokens ∧
      (TokenStream.ofSource "let f = fn() \x7b [1] \x7d;").tokens.countP
        (fun t => t.kind = .lbrace) =
          (TokenStream.ofSource "let f = fn() \x7b [1] \x7d;").tokens.countP
            (fun t => t.kind = .rbrace) ∧
      (Session.new .standard (.captured #[])).eval 8 "let f = fn() \x7b [1] \x7d;" =
        .ok (some (.null, first)) ∧
      first.eval 8 "f()" = .ok r ∧
      (Session.new .standard (.captured #[])).eval 8 "let f = fn() \x7b [1] \x7d;f()" = .ok r' ∧
      r.map Session.unplacedResult = r'.map Session.unplacedResult := by
  obtain ⟨p, hp⟩ : ∃ p : Program, p =
      ⟨[.declare ⟨.letKw, "let", ⟨1, 1⟩⟩ false ⟨⟨.ident, "f", ⟨1, 5⟩⟩, "f"⟩
        (.fn ⟨.fnKw, "fn", ⟨1, 9⟩⟩ [] (.mk ⟨.lbrace, "\x7b", ⟨1, 14⟩⟩
          [.expr ⟨.lbracket, "[", ⟨1, 16⟩⟩
            (.array ⟨.lbracket, "[", ⟨1, 16⟩⟩ [.int ⟨.int, "1", ⟨1, 17⟩⟩ 1])]))]⟩ := ⟨_, rfl⟩
  have hparse : parse "let f = fn() \x7b [1] \x7d;" = .ok p := by
    rw [hp]
    with_unfolding_all rfl
  have hparse' : parse "f()" = .ok ⟨[.expr ⟨.ident, "f", ⟨1, 1⟩⟩
      (.call ⟨.lparen, "(", ⟨1, 2⟩⟩ (.ident ⟨⟨.ident, "f", ⟨1, 1⟩⟩, "f"⟩) [])]⟩ := by
    with_unfolding_all rfl
  have htokens : (TokenStream.ofSource "let f = fn() \x7b [1] \x7d;").tokens =
      [⟨.letKw, "let", ⟨1, 1⟩⟩, ⟨.ident, "f", ⟨1, 5⟩⟩, ⟨.assign, "=", ⟨1, 7⟩⟩,
        ⟨.fnKw, "fn", ⟨1, 9⟩⟩, ⟨.lparen, "(", ⟨1, 11⟩⟩, ⟨.rparen, ")", ⟨1, 12⟩⟩,
        ⟨.lbrace, "\x7b", ⟨1, 14⟩⟩, ⟨.lbracket, "[", ⟨1, 16⟩⟩, ⟨.int, "1", ⟨1, 17⟩⟩,
        ⟨.rbracket, "]", ⟨1, 18⟩⟩, ⟨.rbrace, "\x7d", ⟨1, 20⟩⟩, ⟨.semicolon, ";", ⟨1, 21⟩⟩] := by
    decide +kernel
  have hend : EndsStatement (TokenStream.ofSource "let f = fn() \x7b [1] \x7d;").tokens := by
    rw [htokens]
    exact ⟨_, rfl, rfl⟩
  have hbraces : (TokenStream.ofSource "let f = fn() \x7b [1] \x7d;").tokens.countP
      (fun t => t.kind = .lbrace) =
        (TokenStream.ofSource "let f = fn() \x7b [1] \x7d;").tokens.countP
          fun t => t.kind = .rbrace := by
    rw [htokens]
    decide
  obtain ⟨-, hrun⟩ := eval_append hparse hparse' hend hbraces
  obtain ⟨first, r, r', hfirst, hr, hr', hsame⟩ := hrun (Session.new .standard (.captured #[]))
    Registry.blind_standard (List.cons_ne_nil _ _) 8 .null _ (by rw [hp]; rfl)
  exact ⟨p, _, first, r, r', hparse, hparse', List.cons_ne_nil _ _, hend, hbraces, hfirst, hr, hr',
    hsame⟩

end Scriptlet
