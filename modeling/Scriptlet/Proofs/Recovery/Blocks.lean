import Scriptlet.Proofs.Grammar.Gaps
import Scriptlet.Proofs.Recovery
import Scriptlet.Proofs.Scanning.Positions

/-!
# Recovery in a block

**Theorem (`recovery_in_block_loses_one_statement`).** If a statement in a block cannot be read, the
block holds the statements before and after it, and what follows the block is read as if it had not
been there, provided that no brace of the statement is left where it is given up.

Within the block it goes as in a program (`blockStmts_of_leavesOff`), so the reader is back in step
at the closing brace of the block, and stays so to the end (`program_around_block`).

Skipping knows nothing of nesting. If a brace is left, as in `let = {1: 2};`, the reader stops at
the closing brace of the hash and takes it for that of the block (`block_ends_in_broken_hash`).
-/

namespace Scriptlet

namespace Parse

variable {r : Rules} {k n : Nat} {s t : ParseState} {st : Stmt} {d : Diagnostic}

namespace Rules

theorem blockStmts_ok (k : Nat) (hbrace : nextKind s.ahead.tokens ≠ .rbrace)
    (heof : nextKind s.ahead.tokens ≠ .eof) (hst : r.statement s = .ok st t) :
    r.blockStmts (k + 1) s = (r.blockStmts k >>= fun ss => pure (st :: ss)) (past t) := by
  rw [blockStmts, Parse.current, Run.bind_apply, Run.read_apply]
  dsimp only
  rw [kind_current, if_neg (not_or_intro hbrace heof), Run.bind_apply, recover_ok hst]
  rfl

/-- A statement that is given up leaves nothing in the block. -/
theorem blockStmts_error (k : Nat) (hbrace : nextKind s.ahead.tokens ≠ .rbrace)
    (heof : nextKind s.ahead.tokens ≠ .eof) (hst : r.statement s = .error d t)
    (hbroken : nextKind (broken d t).ahead.tokens ≠ .rbrace) :
    r.blockStmts (k + 1) s = r.blockStmts k (past (broken d t)) := by
  rw [blockStmts, Parse.current, Run.bind_apply, Run.read_apply]
  dsimp only
  rw [kind_current, if_neg (not_or_intro hbrace heof), Run.bind_apply, recover_error hst]
  dsimp only
  rw [Run.bind_apply, passBroken_apply, if_neg hbroken]

theorem head_rbrace (hs : nextKind s.ahead.tokens = .rbrace) :
    r.head s = .error (.noExpressionAt s.ahead.current) s := by
  rw [head, Parse.current, Run.bind_apply, Run.read_apply]
  dsimp only
  rw [kind_current, hs]
  rfl

end Rules

/-- No statement starts with a closing brace. -/
theorem statement_rbrace (hs : nextKind s.ahead.tokens = .rbrace)
    (h : (rules n).statement s = .error d t) : t = s := by
  rw [statement_eq_error_iff, Rules.bareStatement, Parse.current, Run.bind_apply,
    Run.read_apply] at h
  dsimp only at h
  rw [kind_current, hs] at h
  rcases Run.bind_eq_error_iff.1 h with h | ⟨e, u, -, h⟩
  · obtain _ | n := n
    · cases h
    · rcases Run.bind_eq_error_iff.1 h with h | ⟨left, u, h, -⟩
      · rw [Rules.head_rbrace hs] at h
        cases h
        rfl
      · rw [Rules.head_rbrace hs] at h
        cases h
  · cases h

variable {as xs us post : List Token} {c : Token} {ss ss' : List Stmt} {ds : Array Diagnostic}

/-- What is given up in front of a semicolon does not start with a closing brace. -/
theorem LeavesOff.nextKind_ne (h : LeavesOff s c us ds) (hc : c.kind = .semicolon) :
    nextKind s.ahead.tokens ≠ .rbrace := by
  obtain ⟨d, t, zs, ht, htokens, hzs, -⟩ := h
  intro hbrace
  rw [← statement_rbrace hbrace ht, htokens] at hbrace
  obtain _ | ⟨z, zs⟩ := zs
  · exact absurd (hc.symm.trans hbrace) (by decide)
  · exact (hzs.marks z List.mem_cons_self).2.2 hbrace

/-- The statements of a block with a broken one among them. -/
theorem blockStmts_of_leavesOff {q : Position} (hw : Within n (as ++ (xs ++ c :: us)))
    (hc : c.kind = .semicolon) (hss : InTurn (as ++ (xs ++ c :: us)) ss (xs ++ c :: us))
    (hss' : StmtsAt us ss' post) (hfails : LeavesOff ⟨⟨xs ++ c :: us, q⟩, #[]⟩ c us ds) :
    ∃ t, (rules n).blockStmts (rules n).passes ⟨⟨as ++ (xs ++ c :: us), q⟩, #[]⟩ =
        .ok (ss ++ ss') t ∧ past t = ⟨⟨post, q⟩, ds⟩ := by
  have hr := readsBelow_rules n
  obtain ⟨k, hk, hloop⟩ := (hr.runs hss hw q #[]).loop
    (fun hbrace heof hst => Rules.blockStmts_ok _ hbrace heof hst)
    (Nat.lt_trans hw.length_lt hr.passes)
  have hwx := hw.suffix (List.suffix_append as _)
  have hwu := hwx.suffix ((List.suffix_cons c us).trans (List.suffix_append xs _))
  obtain ⟨d, t, ht, hbroken⟩ := hfails.broken hc hwx
  obtain _ | k := k
  · exact absurd hk (Nat.not_lt_zero _)
  have hlen : us.length < k := by simp at hk; omega
  have hread := hr.reads_blockStmts k (s := ⟨⟨us, q⟩, ds⟩) hwu hlen
  obtain ⟨u, hu, hrecorded, htail⟩ := hread.iff.1 hss'
  refine ⟨u, ?_, past_eq (hread.ok hu) hrecorded htail⟩
  have hskip : (rules n).blockStmts (k + 1) ⟨⟨xs ++ c :: us, q⟩, #[]⟩ = .ok ss' u := by
    have hne : nextKind (broken d t).ahead.tokens ≠ .rbrace := by
      rw [hbroken, nextKind_cons, hc]
      decide
    rw [Rules.blockStmts_error k (hfails.nextKind_ne hc) (nextKind_ne_eof hwx) ht hne, hbroken]
    exact hu
  rw [hloop, Run.bind_apply, hskip]
  rfl

end Parse

open Parse

/-- **Recovery in a block loses one statement**, if no brace of it is left where it is given up. -/
theorem recovery_in_block_loses_one_statement {source : String} {pre as xs bs post : List Token}
    {t c z : Token} {ss ss' body all : List Stmt} {ds : Array Diagnostic}
    (hs : (TokenStream.ofSource source).tokens =
      pre ++ t :: (as ++ (xs ++ c :: (bs ++ z :: post))))
    (ht : t.kind = .lbrace) (hc : c.kind = .semicolon) (hz : z.kind = .rbrace)
    (has : Clean as ss) (hend : as = [] ∨ EndsStatement as) (hclosed : surplus as = 0)
    (hbs : Clean bs ss') (hclosed' : surplus bs = 0)
    (hall : Clean (pre ++ t :: (as ++ (bs ++ z :: post))) all)
    (hbody : .block (.mk t body) ∈ openedStmts all)
    (hfails : LeavesOff ⟨⟨xs ++ c :: (bs ++ z :: post), (TokenStream.ofSource source).finish⟩, #[]⟩
      c (bs ++ z :: post) ds) :
    body = ss ++ ss' ∧
      ∃ u, program (.ofSource source) = .ok ⟨all⟩ u ∧ u.recorded = ds := by
  have hw := within_ofSource source
  have hnodup := TokenStream.nodup_ofSource source
  have hstart : ParseState.ofSource source =
      ⟨⟨pre ++ t :: (as ++ (xs ++ c :: (bs ++ z :: post))),
        (TokenStream.ofSource source).finish⟩, #[]⟩ := by
    rw [← hs]
    rfl
  rw [hs] at hw hnodup
  have hactual := hw.suffix ((List.suffix_cons t _).trans (List.suffix_append pre _))
  -- The tokens without the broken statement are some of those of the source.
  have hsub : (pre ++ t :: (as ++ (bs ++ z :: post))).Sublist
      (pre ++ t :: (as ++ (xs ++ c :: (bs ++ z :: post)))) :=
    (((((List.Sublist.refl _).cons c).trans (List.sublist_append_right xs _)).append_left
      as).cons_cons t).append_left pre
  have hproper : ∀ y ∈ pre ++ t :: (as ++ (bs ++ z :: post)), y.Proper := fun y hy =>
    hw.proper y (hsub.subset hy)
  have has := has.programAt fun y hy => hproper y (by simp [hy])
  have hbs := hbs.programAt fun y hy => hproper y (by simp [hy])
  have hbs := hbs.stmtsAt hclosed' hz post
  have hread := blockStmts_of_leavesOff hactual hc (has.inTurn hend hclosed _) hbs hfails
  rw [hstart]
  exact program_around_block ht (hnodup.sublist hsub) hproper hactual.proper
    (hall.programAt hproper) hbody ((has.inTurn hend hclosed _).stmtsAt hbs) hread

/-- In `if (a) { b; fn() { 1 } = 2; c } d` the block holds `b` and `c`: only a name can be assigned
to, and this shows behind the braces of the function. -/
theorem recovery_in_block_loses_one_statement_assign :
    ∃ (pre as xs bs post : List Token) (t c z : Token) (ss ss' body all : List Stmt)
      (ds : Array Diagnostic),
      (TokenStream.ofSource "if (a) \x7b b; fn() \x7b 1 \x7d = 2; c \x7d d").tokens =
        pre ++ t :: (as ++ (xs ++ c :: (bs ++ z :: post))) ∧
      t.kind = .lbrace ∧ c.kind = .semicolon ∧ z.kind = .rbrace ∧
      Clean as ss ∧ (as = [] ∨ EndsStatement as) ∧ surplus as = 0 ∧ Clean bs ss' ∧ surplus bs = 0 ∧
      Clean (pre ++ t :: (as ++ (bs ++ z :: post))) all ∧
      .block (.mk t body) ∈ openedStmts all ∧
      LeavesOff ⟨⟨xs ++ c :: (bs ++ z :: post),
        (TokenStream.ofSource "if (a) \x7b b; fn() \x7b 1 \x7d = 2; c \x7d d").finish⟩, #[]⟩
        c (bs ++ z :: post) ds ∧
      body = ss ++ ss' ∧
      ∃ u, program (.ofSource "if (a) \x7b b; fn() \x7b 1 \x7d = 2; c \x7d d") = .ok ⟨all⟩ u ∧
        u.recorded = ds := by
  let i : Token := ⟨.ifKw, "if", ⟨1, 1⟩⟩
  let a : Token := ⟨.ident, "a", ⟨1, 5⟩⟩
  let pre : List Token := [i, ⟨.lparen, "(", ⟨1, 4⟩⟩, a, ⟨.rparen, ")", ⟨1, 6⟩⟩]
  let t : Token := ⟨.lbrace, "\x7b", ⟨1, 8⟩⟩
  let b : Token := ⟨.ident, "b", ⟨1, 10⟩⟩
  let as : List Token := [b, ⟨.semicolon, ";", ⟨1, 11⟩⟩]
  let zs : List Token := [⟨.assign, "=", ⟨1, 24⟩⟩, ⟨.int, "2", ⟨1, 26⟩⟩]
  let xs : List Token := [⟨.fnKw, "fn", ⟨1, 13⟩⟩, ⟨.lparen, "(", ⟨1, 15⟩⟩, ⟨.rparen, ")", ⟨1, 16⟩⟩,
    ⟨.lbrace, "\x7b", ⟨1, 18⟩⟩, ⟨.int, "1", ⟨1, 20⟩⟩, ⟨.rbrace, "\x7d", ⟨1, 22⟩⟩] ++ zs
  let c : Token := ⟨.semicolon, ";", ⟨1, 27⟩⟩
  let y : Token := ⟨.ident, "c", ⟨1, 29⟩⟩
  let z : Token := ⟨.rbrace, "\x7d", ⟨1, 31⟩⟩
  let w : Token := ⟨.ident, "d", ⟨1, 33⟩⟩
  let ss : List Stmt := [.expr b (.ident (.ofToken b))]
  let ss' : List Stmt := [.expr y (.ident (.ofToken y))]
  let all : List Stmt := [.expr i (.ifElse i (.ident (.ofToken a)) (.mk t (ss ++ ss')) none),
    .expr w (.ident (.ofToken w))]
  have hscan : TokenStream.ofSource "if (a) \x7b b; fn() \x7b 1 \x7d = 2; c \x7d d" =
      ⟨pre ++ t :: (as ++ (xs ++ c :: ([y] ++ z :: [w]))), ⟨1, 34⟩⟩ := by decide +kernel
  have hs := congrArg TokenStream.tokens hscan
  have hfinish : (TokenStream.ofSource "if (a) \x7b b; fn() \x7b 1 \x7d = 2; c \x7d d").finish =
      ⟨1, 34⟩ := congrArg TokenStream.finish hscan
  have has : Clean as ss := ⟨.start, _, rfl, rfl⟩
  have hend : as = [] ∨ EndsStatement as := .inr ⟨_, rfl, rfl⟩
  have hbs : Clean [y] ss' := ⟨.start, _, rfl, rfl⟩
  have hall : Clean (pre ++ t :: (as ++ ([y] ++ z :: [w]))) all := ⟨.start, _, rfl, rfl⟩
  have hbody : .block (.mk t (ss ++ ss')) ∈ openedStmts all := List.mem_cons_self
  have hfails : LeavesOff ⟨⟨xs ++ c :: ([y] ++ z :: [w]), ⟨1, 34⟩⟩, #[]⟩ c ([y] ++ z :: [w]) _ :=
    ⟨⟨.invalidTarget "fn() \x7b 1 \x7d", ⟨1, 24⟩⟩, ⟨⟨zs ++ c :: ([y] ++ z :: [w]), ⟨1, 34⟩⟩, #[]⟩,
      zs, by dsimp only [xs, zs, c, y, z, w]; rfl, rfl, ⟨by decide, by decide⟩, rfl⟩
  rw [← hfinish] at hfails
  exact ⟨pre, as, xs, [y], [w], t, c, z, ss, ss', _, all, _, hs, rfl, rfl, rfl, has, hend,
    by decide, hbs, by decide, hall, hbody, hfails,
    recovery_in_block_loses_one_statement hs rfl rfl rfl has hend (by decide) hbs (by decide) hall
      hbody hfails⟩

/-- In `let f = fn(x) { let = {1: 2}; x + 1 }; f(2)` a brace is left where the statement is given
up. The reader takes the closing brace of the hash for that of the block, which holds nothing, and
`x + 1` stands outside. Without `let = {1: 2};` the block holds `x + 1`, and nothing is wrong. -/
theorem block_ends_in_broken_hash :
    ∃ (pre xs bs post : List Token) (t c z : Token) (ss all all' : List Stmt) (u : ParseState),
      (TokenStream.ofSource "let f = fn(x) \x7b let = \x7b1: 2\x7d; x + 1 \x7d; f(2)").tokens =
        pre ++ t :: (xs ++ c :: (bs ++ z :: post)) ∧
      t.kind = .lbrace ∧ c.kind = .semicolon ∧ z.kind = .rbrace ∧
      Clean bs ss ∧ surplus bs = 0 ∧ Clean (pre ++ t :: (bs ++ z :: post)) all ∧
      .block (.mk t ss) ∈ openedStmts all ∧
      surplus xs = 0 ∧ (∀ x ∈ xs, x.kind ≠ .semicolon) ∧
      (∀ x ∈ xs.tail, x.kind.startsStatement = false) ∧ GivesUp (xs ++ c :: (bs ++ z :: post)) ∧
      program (.ofSource "let f = fn(x) \x7b let = \x7b1: 2\x7d; x + 1 \x7d; f(2)") = .ok ⟨all'⟩ u ∧
      .block (.mk t []) ∈ openedStmts all' ∧ ss.length = 1 ∧
      all.length = 2 ∧ all'.length = 3 ∧ u.recorded.size = 3 := by
  let l : Token := ⟨.letKw, "let", ⟨1, 1⟩⟩
  let f : Token := ⟨.ident, "f", ⟨1, 5⟩⟩
  let k : Token := ⟨.fnKw, "fn", ⟨1, 9⟩⟩
  let x : Token := ⟨.ident, "x", ⟨1, 12⟩⟩
  let pre : List Token := [l, f, ⟨.assign, "=", ⟨1, 7⟩⟩, k, ⟨.lparen, "(", ⟨1, 11⟩⟩, x,
    ⟨.rparen, ")", ⟨1, 13⟩⟩]
  let t : Token := ⟨.lbrace, "\x7b", ⟨1, 15⟩⟩
  let xs : List Token := [⟨.letKw, "let", ⟨1, 17⟩⟩, ⟨.assign, "=", ⟨1, 21⟩⟩,
    ⟨.lbrace, "\x7b", ⟨1, 23⟩⟩, ⟨.int, "1", ⟨1, 24⟩⟩, ⟨.colon, ":", ⟨1, 25⟩⟩, ⟨.int, "2", ⟨1, 27⟩⟩,
    ⟨.rbrace, "\x7d", ⟨1, 28⟩⟩]
  let c : Token := ⟨.semicolon, ";", ⟨1, 29⟩⟩
  let bs : List Token := [⟨.ident, "x", ⟨1, 31⟩⟩, ⟨.plus, "+", ⟨1, 33⟩⟩, ⟨.int, "1", ⟨1, 35⟩⟩]
  let z : Token := ⟨.rbrace, "\x7d", ⟨1, 37⟩⟩
  let post : List Token := [⟨.semicolon, ";", ⟨1, 38⟩⟩, ⟨.ident, "f", ⟨1, 40⟩⟩,
    ⟨.lparen, "(", ⟨1, 41⟩⟩, ⟨.int, "2", ⟨1, 42⟩⟩, ⟨.rparen, ")", ⟨1, 43⟩⟩]
  let ss : List Stmt := [.expr ⟨.ident, "x", ⟨1, 31⟩⟩ (.binary ⟨.plus, "+", ⟨1, 33⟩⟩ .add
    (.ident ⟨⟨.ident, "x", ⟨1, 31⟩⟩, "x"⟩) (.int ⟨.int, "1", ⟨1, 35⟩⟩ 1))]
  have hscan : TokenStream.ofSource "let f = fn(x) \x7b let = \x7b1: 2\x7d; x + 1 \x7d; f(2)" =
      ⟨pre ++ t :: (xs ++ c :: (bs ++ z :: post)), ⟨1, 44⟩⟩ := by decide +kernel
  have hbs : Clean bs ss := by
    dsimp only [bs, ss]
    exact ⟨.start, _, rfl, rfl⟩
  obtain ⟨all, hall, hbody, hlen⟩ : ∃ all, Clean (pre ++ t :: (bs ++ z :: post)) all ∧
      .block (.mk t ss) ∈ openedStmts all ∧ all.length = 2 := by
    dsimp only [pre, t, bs, z, post, l, f, k, x, ss]
    exact ⟨_, ⟨.start, _, rfl, rfl⟩, .head _, rfl⟩
  have hfails : GivesUp (xs ++ c :: (bs ++ z :: post)) := ⟨[], .start, #[], _, _, rfl⟩
  obtain ⟨all', u, hprogram, hbody', hlen', hrecorded⟩ : ∃ all' u,
      program (.ofSource "let f = fn(x) \x7b let = \x7b1: 2\x7d; x + 1 \x7d; f(2)") = .ok ⟨all'⟩ u ∧
      .block (.mk t []) ∈ openedStmts all' ∧ all'.length = 3 ∧ u.recorded.size = 3 := by
    rw [ParseState.ofSource, hscan]
    dsimp only [pre, t, xs, c, bs, z, post, l, f, k, x]
    exact ⟨_, _, rfl, .head _, rfl, rfl⟩
  exact ⟨pre, xs, bs, post, t, c, z, ss, all, all', u, congrArg TokenStream.tokens hscan, rfl, rfl,
    rfl, hbs, by decide, hall, hbody, by decide, by decide, by decide, hfails, hprogram, hbody',
    rfl, hlen, hlen', hrecorded⟩

end Scriptlet
