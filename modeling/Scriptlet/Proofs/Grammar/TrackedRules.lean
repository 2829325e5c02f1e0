import Scriptlet.Proofs.Grammar.Acceptance
import Scriptlet.Proofs.Grammar.Tracking

/-!
# The rules as runs over goals

Every rule of the grammar tracks the goals at its place. As with what the rules read, a rule is
taken step by step on the assumption that the rules for what is nested in it track theirs wherever
fewer tokens are ahead (`Rules.TracksBelow`), and each level of `rules` extends the level below it
by one token (`tracksBelow_rules`).

A rule and its goals make the same decisions, on the same token. So each proof goes through the
rule once, and at each decision replaces the goal on top by what the rule goes on to read.
-/

namespace Scriptlet

/-- The expression can stand on the left of an assignment. -/
def Expr.assignable : Expr → Bool
  | .ident _ => true
  | _ => false

namespace Parse

open Prediction

/-- No token of a source marks its end. -/
theorem Within.eq_nil {m : Nat} {ts : List Token} (h : Within m ts) (hc : nextKind ts = .eof) :
    ts = [] := by
  obtain _ | ⟨t, us⟩ := ts
  · rfl
  · exact absurd hc (h.proper t List.mem_cons_self).kind_ne_eof

namespace Rules

/-- The nested rules track their goals where fewer than `m` tokens are ahead. -/
structure TracksBelow (r : Rules) (m : Nat) : Prop extends ReadsBelow r m where
  tracks_expression {p : Precedence} {s : ParseState} : Within m s.ahead.tokens →
    Tracks (r.expression p) s none [.expr p] s.ahead.tokens fun e => some e.assignable
  tracks_block {s : ParseState} : Within m s.ahead.tokens → nextKind s.ahead.tokens = .lbrace →
    Tracks r.block s none [.stmts] s.ahead.tokens.tail fun _ => none

variable {r : Rules} {m : Nat} {s : ParseState} {pre : Option Bool}

/-! ## Names -/

theorem tracks_names (k : Nat) {s : ParseState} (hk : s.ahead.tokens.tail.length < k) :
    Tracks (names k) s pre [.token .ident, .moreParams] s.ahead.tokens.tail fun _ => none := by
  induction k generalizing s with
  | zero => exact absurd hk (Nat.not_lt_zero _)
  | succ k ih =>
    refine Tracks.name fun x => Tracks.upcoming ?_
    rw [kind_upcoming, past_tokens]
    split
    · rename_i hc
      refine Tracks.expand [.token .comma, .token .ident, .moreParams]
        (fun _ => by simp [Goal.move, hc]) (Tracks.eat hc (by decide) (Tracks.advance ?_))
      have hlt := length_tail_lt (show nextKind s.ahead.tokens.tail.tail ≠ .eof by rw [hc]; decide)
      have hle := (List.tail_suffix s.ahead.tokens.tail).length_le
      exact (ih (s := past (past s)) (by simp only [past_tokens]; omega)).map _
    · rename_i hc
      refine Tracks.expand [.token .rparen] (fun _ => by simp [Goal.move, hc]) ?_
      exact Tracks.expect (s := past s) (by decide) fun _ => Tracks.done [x]

theorem TracksBelow.tracks_params (hr : r.TracksBelow m) (hw : Within m s.ahead.tokens.tail) :
    Tracks r.params s pre [.params] s.ahead.tokens.tail fun _ => none := by
  refine Tracks.upcoming ?_
  rw [kind_upcoming]
  split
  · rename_i hc
    refine Tracks.expand [.token .rparen] (fun _ => by simp [Goal.move, hc]) ?_
    exact Tracks.eat hc (by decide) (Tracks.advance (Tracks.done (s := past s) []))
  · rename_i hc
    refine Tracks.expand [.token .ident, .moreParams]
      (fun _ => by simp [Goal.move, hc]) ?_
    exact tracks_names _ (Nat.lt_trans hw.length_lt hr.passes)

/-! ## Lists of expressions -/

theorem TracksBelow.tracks_exprs (hr : r.TracksBelow m) {close : Kind} (heof : close ≠ .eof)
    (k : Nat) {s : ParseState} (hw : Within m s.ahead.tokens) (hk : s.ahead.tokens.length < k) :
    Tracks (r.exprs close k) s pre [.expr .lowest, .moreItems close] s.ahead.tokens
      fun _ => none := by
  induction k generalizing s pre with
  | zero => exact absurd hk (Nat.not_lt_zero _)
  | succ k ih =>
    refine (hr.tracks_expression hw).forget.bind fun e t ht hon => Tracks.upcoming ?_
    have hwt : Within m t.ahead.tokens.tail := hw.tail.suffix hon.tail
    have hlt := hr.length_lt ht hon.tail
    rw [kind_upcoming]
    split
    · rename_i hc
      refine Tracks.expand [.token .comma, .expr .lowest, .moreItems close]
        (fun _ => by simp [Goal.move, hc]) (Tracks.eat hc (by decide) ?_)
      have hle := (List.tail_suffix t.ahead.tokens.tail).length_le
      refine Tracks.advance (Tracks.advance (Tracks.map (ih (s := past (past t)) hwt.tail ?_) _))
      simp only [past_tokens]
      omega
    · rename_i hc
      refine Tracks.expand [.token close] (fun _ => by simp [Goal.move, hc]) ?_
      exact Tracks.expect heof fun _ => Tracks.done [e]

theorem TracksBelow.tracks_list (hr : r.TracksBelow m) {close : Kind} (heof : close ≠ .eof)
    (hw : Within m s.ahead.tokens.tail) :
    Tracks (r.list close) s pre [.items close] s.ahead.tokens.tail fun _ => none := by
  refine Tracks.upcoming (Tracks.advance ?_)
  rw [kind_upcoming]
  split
  · rename_i hc
    refine Tracks.expand [.token close] (fun _ => by simp [Goal.move, hc]) ?_
    exact Tracks.eat hc heof (Tracks.done (s := past s) [])
  · rename_i hc
    refine Tracks.expand [.expr .lowest, .moreItems close]
      (fun _ => by simp [Goal.move, hc]) ?_
    exact hr.tracks_exprs (s := past s) heof _ hw (Nat.lt_trans hw.length_lt hr.passes)

/-! ## Pairs -/

theorem tracks_pairEnd : Tracks pairEnd s pre [.pairEnd] s.ahead.tokens.tail fun _ => none := by
  refine Tracks.upcoming ?_
  rw [kind_upcoming]
  split
  · rename_i hc
    exact Tracks.expand [] (fun _ => by simp [Goal.move, hc]) (Tracks.done ())
  · rename_i hc
    refine Tracks.expand [.token .comma] (fun _ => by simp [Goal.move, hc]) ?_
    rw [← bind_pure (expect .comma)]
    exact Tracks.expect (by decide) fun _ => Tracks.done ()

/-- An expression after one more token. -/
theorem TracksBelow.tracks_next (hr : r.TracksBelow m) (p : Precedence)
    (hw : Within m s.ahead.tokens.tail) :
    Tracks (r.expression p) (past s) pre [.expr p] s.ahead.tokens.tail
      fun e => some e.assignable := (hr.tracks_expression (s := past s) hw).forget

theorem TracksBelow.tracks_pairs (hr : r.TracksBelow m) (k : Nat) {s : ParseState}
    (hw : Within m s.ahead.tokens.tail) (hk : s.ahead.tokens.tail.length < k) :
    Tracks (r.pairs k) s pre [.pairs] s.ahead.tokens.tail fun _ => none := by
  induction k generalizing s pre with
  | zero => exact absurd hk (Nat.not_lt_zero _)
  | succ k ih =>
    refine Tracks.upcoming (Tracks.advance ?_)
    rw [kind_upcoming]
    split
    · rename_i hc
      refine Tracks.expand [.token .rbrace] (fun _ => by simp [Goal.move, hc]) ?_
      exact Tracks.eat hc (by decide) (Tracks.done (s := past s) [])
    · rename_i hc
      refine Tracks.expand [.expr .lowest, .token .colon, .expr .lowest, .pairEnd, .pairs]
        (fun _ => by simp [Goal.move, hc]) ?_
      refine (hr.tracks_next .lowest hw).bind fun key t ht hon => ?_
      have hlt := hr.length_lt ht hon.tail
      have hwt : Within m t.ahead.tokens.tail := hw.tail.suffix hon.tail
      refine Tracks.expect (by decide) fun _ => Tracks.advance ?_
      refine (hr.tracks_next (s := past t) .lowest hwt.tail).bind fun value u _ hon' => ?_
      refine tracks_pairEnd.bind fun _ v _ hon'' => ?_
      have hsuf : v.ahead.tokens.tail <:+ t.ahead.tokens.tail :=
        hon''.tail.trans (hon'.tail.trans ((List.tail_suffix _).trans (List.tail_suffix _)))
      have hle := hsuf.length_le
      rw [past_tokens] at hlt
      exact (ih (hwt.suffix hsuf) (by omega)).map _

/-! ## Blocks that have to follow -/

theorem TracksBelow.tracks_blockAhead (hr : r.TracksBelow m)
    (hw : Within m s.ahead.tokens.tail) :
    Tracks r.blockAhead s pre blockGoals s.ahead.tokens.tail fun _ => none :=
  Tracks.expect (by decide) fun hc => (hr.tracks_block (s := past s) hw hc).forget

theorem TracksBelow.tracks_elseBranch (hr : r.TracksBelow m)
    (hw : Within m s.ahead.tokens.tail) :
    Tracks r.elseBranch s pre [.elseBranch] s.ahead.tokens.tail fun _ => none := by
  refine Tracks.upcoming ?_
  rw [kind_upcoming]
  split
  · rename_i hc
    refine Tracks.expand (.token .elseKw :: blockGoals) (fun _ => by simp [Goal.move, hc]) ?_
    refine Tracks.eat hc (by decide) (Tracks.advance ?_)
    exact (hr.tracks_blockAhead (s := past s) hw.tail).map _
  · rename_i hc
    exact Tracks.expand [] (fun _ => by simp [Goal.move, hc]) (Tracks.done none)

/-! ## Heads -/

theorem TracksBelow.tracks_unary (hr : r.TracksBelow m) (t : Token) (op : UnaryOp)
    (hw : Within m s.ahead.tokens.tail) :
    Tracks (r.unary t op) s pre [.expr .unary, .note false] s.ahead.tokens.tail
      fun e => some e.assignable :=
  Tracks.advance ((hr.tracks_next .unary hw).noted fun _ => rfl)

theorem TracksBelow.tracks_group (hr : r.TracksBelow m) (hw : Within m s.ahead.tokens.tail) :
    Tracks r.group s pre [.expr .lowest, .token .rparen] s.ahead.tokens.tail
      fun e => some e.assignable :=
  Tracks.advance <| (hr.tracks_next .lowest hw).bind fun e _ _ _ =>
    Tracks.expect (by decide) fun _ => Tracks.pure e rfl

theorem TracksBelow.tracks_conditional (hr : r.TracksBelow m) (t : Token)
    (hw : Within m s.ahead.tokens.tail) :
    Tracks (r.conditional t) s pre (.expr .lowest :: blockGoals ++ [.elseBranch, .note false])
      s.ahead.tokens.tail fun e => some e.assignable := by
  refine Tracks.advance ((hr.tracks_next .lowest hw).bind fun test u _ hon => ?_)
  have hwu : Within m u.ahead.tokens.tail := hw.tail.suffix hon.tail
  refine (hr.tracks_blockAhead hwu).bind fun yes v _ hon' => ?_
  exact (hr.tracks_elseBranch (hwu.suffix hon'.tail)).noted fun _ => rfl

theorem TracksBelow.tracks_function (hr : r.TracksBelow m) (t : Token)
    (hw : Within m s.ahead.tokens.tail) :
    Tracks (r.function t) s pre (.token .lparen :: .params :: blockGoals ++ [.note false])
      s.ahead.tokens.tail fun e => some e.assignable := by
  refine Tracks.expect (by decide) fun _ => ?_
  refine (hr.tracks_params (s := past s) hw.tail).bind fun ps u _ hon => ?_
  exact (hr.tracks_blockAhead (hw.tail.suffix hon.tail)).noted fun _ => rfl

theorem TracksBelow.tracks_loop (hr : r.TracksBelow m) (t : Token)
    (hw : Within m s.ahead.tokens.tail) :
    Tracks (r.loop t) s pre (.token .ident :: .token .comma :: .token .ident :: .token .inKw ::
      .token .ident :: blockGoals ++ [.note false]) s.ahead.tokens.tail
        fun e => some e.assignable := by
  refine Tracks.name fun index => Tracks.expect (s := past s) (by decide) fun _ => ?_
  refine Tracks.name fun value => Tracks.expect (by decide) fun _ => Tracks.name fun target => ?_
  exact (hr.tracks_blockAhead hw.tail.tail.tail.tail.tail).noted fun _ => rfl

/-- A number is an integer exactly if its digits are read as one. -/
theorem isInteger_front {t : Token} {ts : List Token} (ht : t.Proper) (hk : t.kind = .int) :
    isInteger (front (t :: ts)) = (Integer.ofDigits? false t.text.toList).isSome := by
  have hfront : isInteger (front (t :: ts)) = decide (decimal t.text ≤ 2 ^ 63 - 1) := rfl
  rw [hfront, Bool.eq_iff_iff, decide_eq_true_iff, Option.isSome_iff_exists]
  simp only [ofDigits?_eq_some_iff (ht.digits hk)]
  exact ⟨fun h => ⟨_, h, rfl⟩, fun ⟨_, h, _⟩ => h⟩

theorem TracksBelow.tracks_head (hr : r.TracksBelow m) {t : Token} {ts : List Token}
    (hs : s.ahead.tokens = t :: ts) (ht : t.Proper) (hw : Within m ts) {gs : List Goal}
    (h : headGoals (front s.ahead.tokens) = some gs) :
    Tracks r.head s pre gs s.ahead.tokens fun e => some e.assignable := by
  have hwt : Within m s.ahead.tokens.tail := by rw [hs]; exact hw
  have hcur : s.ahead.current = t := by rw [TokenStream.current, hs]; rfl
  -- A head that is one token.
  have hleaf {k : Kind} {e : Expr} {b : Bool} (hk : nextKind s.ahead.tokens = k) (heof : k ≠ .eof)
      (he : e.assignable = b) :
      Tracks (pure e) s pre [.token k, .note b] s.ahead.tokens fun e => some e.assignable :=
    Tracks.eat hk heof (Tracks.note (Tracks.pure e (congrArg some he)))
  refine Tracks.current ?_
  rw [headGoals, frontKind_front] at h
  rw [kind_current]
  generalize hk : nextKind s.ahead.tokens = k at h
  cases k with
  | ident | string | trueKw | falseKw | nullKw => cases h; exact hleaf hk (by decide) rfl
  | int =>
    have hint : isInteger (front s.ahead.tokens) =
        (Integer.ofDigits? false t.text.toList).isSome := by
      rw [hs] at hk ⊢
      exact isInteger_front ht hk
    rw [hint] at h
    rw [hcur]
    cases hn : Integer.ofDigits? false t.text.toList with
    | some n =>
      rw [hn] at h
      cases h
      exact hleaf hk (by decide) rfl
    | none =>
      rw [hn] at h
      cases h
  | bang => cases h; exact Tracks.eat hk (by decide) (hr.tracks_unary _ .not hwt)
  | minus => cases h; exact Tracks.eat hk (by decide) (hr.tracks_unary _ .neg hwt)
  | lparen => cases h; exact Tracks.eat hk (by decide) (hr.tracks_group hwt)
  | ifKw => cases h; exact Tracks.eat hk (by decide) (hr.tracks_conditional _ hwt)
  | fnKw => cases h; exact Tracks.eat hk (by decide) (hr.tracks_function _ hwt)
  | forKw => cases h; exact Tracks.eat hk (by decide) (hr.tracks_loop _ hwt)
  | lbracket =>
    cases h
    exact Tracks.eat hk (by decide) ((hr.tracks_list (by decide) hwt).noted fun _ => rfl)
  | lbrace =>
    cases h
    refine Tracks.eat hk (by decide) (Tracks.noted (hr.tracks_pairs r.passes hwt ?_) fun _ => rfl)
    exact Nat.lt_trans hwt.length_lt hr.passes
  | _ => cases h

/-- Where no head starts, nothing is read. -/
theorem head_of_headGoals_eq_none (hw : ∀ t ∈ s.ahead.tokens, t.Proper)
    (h : headGoals (front s.ahead.tokens) = none) :
    ∃ fault, r.head s = .error (.atToken s.ahead.current fault) s := by
  rw [head, Parse.current, Run.bind_apply, Run.read_apply]
  dsimp only
  rw [headGoals, frontKind_front, ← kind_current] at h
  generalize hk : s.ahead.current.kind = k at h
  cases k with
  | int =>
    obtain ⟨hs, -⟩ := tokens_eq_cons (kind_current s ▸ hk) (by decide)
    have ht := hw s.ahead.current (hs ▸ List.mem_cons_self)
    rw [hs, isInteger_front ht hk] at h
    cases hn : Integer.ofDigits? false s.ahead.current.text.toList with
    | some n =>
      rw [hn] at h
      cases h
    | none => exact ⟨_, rfl⟩
  | ident | string | trueKw | falseKw | nullKw | bang | minus | lparen | ifKw | fnKw | lbracket
  | lbrace | forKw => cases h
  | _ => exact ⟨_, rfl⟩

/-! ## Suffixes -/

theorem TracksBelow.tracks_extend (hr : r.TracksBelow m) (left : Expr) (suffix : Suffix)
    {k : Kind} (hk : nextKind s.ahead.tokens = k) (heof : k ≠ .eof)
    (hw : Within m s.ahead.tokens.tail) {gs : List Goal}
    (h : suffixGoals left.assignable k suffix = some gs) :
    Tracks (r.extend left suffix) s pre gs s.ahead.tokens fun e => some e.assignable := by
  cases suffix with
  | binary op =>
    cases h
    refine Tracks.current (Tracks.eat hk heof (Tracks.advance ?_))
    exact (hr.tracks_next op.precedence hw).noted fun _ => rfl
  | call =>
    cases h
    refine Tracks.current (Tracks.eat hk heof ?_)
    exact (hr.tracks_list (by decide) hw).noted fun _ => rfl
  | index =>
    cases h
    refine Tracks.current (Tracks.eat hk heof (Tracks.advance ?_))
    refine (hr.tracks_next .lowest hw).bind fun i u _ _ => ?_
    exact Tracks.expect (by decide) fun _ => Tracks.note (Tracks.pure _ rfl)
  | assign =>
    cases left with
    | ident x =>
      cases h
      refine Tracks.current (Tracks.eat hk heof (Tracks.advance ?_))
      exact (hr.tracks_next .lowest hw).noted fun _ => rfl
    | _ => cases h

/-- Only an assignment to something that is no name goes wrong at its first token. -/
theorem extend_of_suffixGoals_eq_none {left : Expr} {suffix : Suffix} {k : Kind}
    (h : suffixGoals left.assignable k suffix = none) :
    ∃ fault, r.extend left suffix s = .error (.atToken s.ahead.current fault) s := by
  cases suffix with
  | assign =>
    cases left with
    | ident x => cases h
    | _ => exact ⟨_, rfl⟩
  | _ => cases h

theorem TracksBelow.tracks_suffixes (hr : r.TracksBelow m) (p : Precedence) (k : Nat)
    (left : Expr) {s : ParseState} (hw : Within m s.ahead.tokens.tail)
    (hk : s.ahead.tokens.tail.length < k) :
    Tracks (r.suffixes p k left) s (some left.assignable) [.suffixes p] s.ahead.tokens.tail
      fun e => some e.assignable := by
  induction k generalizing s left with
  | zero => exact absurd hk (Nat.not_lt_zero _)
  | succ k ih =>
    refine Tracks.upcoming ?_
    rw [kind_upcoming]
    cases hsuffix : Suffix.ofKind (nextKind s.ahead.tokens.tail) with
    | none =>
      exact Tracks.expand [] (fun _ => by simp [Goal.move, hsuffix]) (Tracks.pure left rfl)
    | some suffix =>
      have heof : nextKind s.ahead.tokens.tail ≠ .eof := by
        intro h
        rw [h] at hsuffix
        cases hsuffix
      dsimp only
      split
      · rename_i hp
        refine Tracks.advance ?_
        cases hgs : suffixGoals left.assignable (nextKind s.ahead.tokens.tail) suffix with
        | some gs =>
          refine Tracks.expand (gs ++ [.suffixes p]) (fun hb => ?_) ?_
          · rw [agrees_some] at hb
            simp [Goal.move, hsuffix, hp, hb, hgs]
          rw [List.append_nil]
          refine (hr.tracks_extend (s := past s) left suffix rfl heof hw.tail hgs).bind
            fun e t _ hon => ?_
          have hlt := length_tail_lt heof
          have hle := hon.tail.length_le
          rw [past_tokens] at hle
          exact ih e (hw.tail.suffix hon.tail) (by omega)
        | none =>
          obtain ⟨fault, hfault⟩ := extend_of_suffixGoals_eq_none (r := r) (s := past s) hgs
          refine (Tracks.fail (s := past s) (d := .atToken s.ahead.upcoming fault)
            (fun hb => ?_) rfl).of_eq ?_
          · rw [agrees_some] at hb
            simp [Goal.move, hsuffix, hp, hb, hgs]
          · rw [Run.bind_apply, hfault]
            rfl
      · rename_i hp
        exact Tracks.expand [] (fun _ => by simp [Goal.move, hsuffix, hp]) (Tracks.pure left rfl)

/-! ## Expressions -/

theorem TracksBelow.tracks_climb (hr : r.TracksBelow m) (p : Precedence)
    (hw : Within (m + 1) s.ahead.tokens) :
    Tracks (r.climb p) s none [.expr p] s.ahead.tokens fun e => some e.assignable := by
  cases hgs : headGoals (front s.ahead.tokens) with
  | none =>
    obtain ⟨fault, hfault⟩ := head_of_headGoals_eq_none (r := r) hw.proper hgs
    refine (Tracks.fail (d := .atToken s.ahead.current fault) (fun _ => ?_) rfl).of_eq ?_
    · simp [Goal.move, hgs]
    · rw [climb, Run.bind_apply, hfault]
      rfl
  | some gs =>
    cases hs : s.ahead.tokens with
    | nil =>
      rw [hs] at hgs
      cases hgs
    | cons t ts =>
      have hwt : Within m ts := by
        rw [hs] at hw
        exact ⟨Nat.lt_of_succ_lt_succ hw.length_lt, fun u hu => hw.tail.proper u hu⟩
      have ht : t.Proper := hw.proper t (hs ▸ List.mem_cons_self)
      rw [← hs]
      refine Tracks.expand (gs ++ [.suffixes p]) (fun _ => by simp [Goal.move, hgs]) ?_
      rw [List.append_nil]
      refine (hr.tracks_head hs ht hwt hgs).bind fun left u _ hon => ?_
      have hwu : Within m u.ahead.tokens.tail := by
        have hsuf := hon.tail
        rw [hs] at hsuf
        exact hwt.suffix hsuf
      exact hr.tracks_suffixes p _ left hwu (Nat.lt_trans hwu.length_lt hr.passes)

/-! ## Statements -/

theorem TracksBelow.tracks_declaration (hr : r.TracksBelow m) (t : Token) (constant : Bool)
    (hw : Within m s.ahead.tokens.tail) :
    Tracks (r.declaration t constant) s none [.token .ident, .token .assign, .expr .lowest]
      s.ahead.tokens.tail fun _ => none :=
  Tracks.name fun _ => Tracks.expect (s := past s) (by decide) fun _ => Tracks.advance <|
    (hr.tracks_next (s := past (past s)) .lowest hw.tail.tail).map _

theorem TracksBelow.tracks_bareStatement (hr : r.TracksBelow m) (hw : Within m s.ahead.tokens) :
    Tracks r.bareStatement s none (stmtGoals (nextKind s.ahead.tokens)) s.ahead.tokens
      fun _ => none := by
  refine Tracks.current ?_
  rw [kind_current]
  generalize hk : nextKind s.ahead.tokens = k
  cases k with
  | letKw => exact Tracks.eat hk (by decide) (hr.tracks_declaration _ false hw.tail)
  | constKw => exact Tracks.eat hk (by decide) (hr.tracks_declaration _ true hw.tail)
  | returnKw =>
    refine Tracks.eat hk (by decide) (Tracks.advance ?_)
    exact (hr.tracks_next .lowest hw.tail).map _
  | _ => exact (hr.tracks_expression hw).map _

theorem TracksBelow.tracks_statement (hr : r.TracksBelow m) (hw : Within m s.ahead.tokens) :
    Tracks r.statement s none [.stmt] s.ahead.tokens fun _ => none := by
  refine Tracks.expand (stmtGoals (nextKind s.ahead.tokens) ++ [.semicolon])
    (fun _ => by simp [Goal.move]) ?_
  rw [List.append_nil]
  exact (hr.tracks_bareStatement hw).bind fun st t _ _ => Tracks.semicolon fun u => Tracks.done st

/-! ## Lists of statements -/

theorem TracksBelow.tracks_blockStmts (hr : r.TracksBelow m) (k : Nat) {s : ParseState}
    (hw : Within m s.ahead.tokens) (hk : s.ahead.tokens.length < k) :
    Tracks (r.blockStmts k) s none [.stmts] s.ahead.tokens fun _ => none := by
  induction k generalizing s with
  | zero => exact absurd hk (Nat.not_lt_zero _)
  | succ k ih =>
    refine Tracks.current ?_
    rw [kind_current]
    split
    · rename_i hc
      rcases hc with hc | hc
      · refine Tracks.expand [.token .rbrace] (fun _ => by simp [Goal.move, hc]) ?_
        exact Tracks.eat hc (by decide) (Tracks.done [])
      · have htail : s.ahead.tokens.tail = s.ahead.tokens := by rw [hw.eq_nil hc]; rfl
        rw [← htail] at hc ⊢
        exact Tracks.expand [] (fun _ => by simp [Goal.move, hc]) (Tracks.done [])
    · rename_i hc
      obtain ⟨hbrace, heof⟩ := not_or.1 hc
      have hpos := length_tail_lt heof
      have hstmt := hr.tracks_statement hw
      refine Tracks.expand [.stmt, .stmts] (fun _ => by simp [Goal.move, hbrace, heof]) ?_
      refine hstmt.recover (fun st t _ hon => ?_) fun d t ht => ?_
      · have hle := hon.tail.length_le
        exact Tracks.advance (Tracks.map (ih (s := past t) (hw.tail.suffix hon.tail) (by
          rw [past_tokens]
          omega)) _)
      · have hon : Onward s (broken d t) := (hstmt.error ht).trans (onward_broken d t)
        refine (moves_passBroken _).bind fun _ u hu => ?_
        have hlt := length_passBroken_lt hon.ahead hbrace heof hu
        have hsuf := (hon.trans ((moves_passBroken _).ok hu)).ahead
        exact (ih (hw.suffix hsuf) (by omega)).toMoves

theorem TracksBelow.tracks_braces (hr : r.TracksBelow m) (hw : Within (m + 1) s.ahead.tokens)
    (hc : nextKind s.ahead.tokens = .lbrace) :
    Tracks r.braces s none [.stmts] s.ahead.tokens.tail fun _ => none := by
  have hwt : Within m s.ahead.tokens.tail := by
    have hlt := length_tail_lt (show nextKind s.ahead.tokens ≠ .eof by rw [hc]; decide)
    exact ⟨Nat.lt_of_lt_of_le hlt (Nat.le_of_lt_succ hw.length_lt), hw.tail.proper⟩
  have hss := hr.tracks_blockStmts r.passes (s := past s) hwt
    (Nat.lt_trans hwt.length_lt hr.passes)
  exact Tracks.current (Tracks.advance (hss.map _))

theorem TracksBelow.tracks_programStmts (hr : r.TracksBelow m) (k : Nat) {s : ParseState}
    (hw : Within m s.ahead.tokens) (hk : s.ahead.tokens.length < k) :
    Tracks (r.programStmts k) s none [.program] s.ahead.tokens fun _ => none := by
  induction k generalizing s with
  | zero => exact absurd hk (Nat.not_lt_zero _)
  | succ k ih =>
    refine Tracks.current ?_
    rw [kind_current]
    split
    · rename_i hc
      have htail : s.ahead.tokens.tail = s.ahead.tokens := by rw [hw.eq_nil hc]; rfl
      rw [← htail] at hc ⊢
      exact Tracks.expand [] (fun _ => by simp [Goal.move, hc]) (Tracks.done [])
    · rename_i heof
      have hpos := length_tail_lt heof
      have hstmt := hr.tracks_statement hw
      -- Past the current token there is less, however the statement went.
      have hrest {t : ParseState} (hon : Onward s t) :
          Tracks (r.programStmts k) (past t) none [.program] t.ahead.tokens.tail
            fun _ => none := by
        have hle := hon.tail.length_le
        exact ih (s := past t) (hw.tail.suffix hon.tail) (by rw [past_tokens]; omega)
      refine Tracks.expand [.stmt, .program] (fun _ => by simp [Goal.move, heof]) ?_
      refine hstmt.recover (fun st t _ hon => ?_) fun d t ht => ?_
      · exact Tracks.advance ((hrest hon).map _)
      · have hon : Onward s (broken d t) := (hstmt.error ht).trans (onward_broken d t)
        exact (Tracks.advance ((hrest hon).map fun ss => [] ++ ss)).toMoves

end Rules

/-! ## Nesting -/

/-- **Every level of the rules tracks its goals** where fewer tokens are ahead than there are
levels. -/
theorem tracksBelow_rules (n : Nat) : (rules n).TracksBelow n := by
  induction n with
  | zero =>
    exact ⟨readsBelow_rules 0, fun h => absurd h.length_lt (Nat.not_lt_zero _),
      fun h => absurd h.length_lt (Nat.not_lt_zero _)⟩
  | succ n ih =>
    exact ⟨readsBelow_rules (n + 1), fun h => (ih.tracks_climb _ h).of_eq rfl,
      fun h hc => (ih.tracks_braces h hc).of_eq rfl⟩

/-- Reading a source is a run that starts with the goal of a program. -/
theorem tracks_program (source : String) :
    Tracks program (.ofSource source) none [.program] (TokenStream.ofSource source).tokens
      fun _ => none := by
  have hw := within_ofSource source
  have hr := tracksBelow_rules ((TokenStream.ofSource source).tokens.length + 1)
  have hss := hr.tracks_programStmts (s := .ofSource source) _ hw
    (Nat.lt_trans hw.length_lt hr.passes)
  have hnested : Tracks (nested fun r => r.programStmts r.passes) (.ofSource source) none
      [.program] (TokenStream.ofSource source).tokens fun _ => none := hss.of_eq rfl
  exact hnested.map _

end Parse

end Scriptlet
