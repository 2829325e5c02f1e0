import Scriptlet.Proofs.Grammar.Abreast
import Scriptlet.Proofs.Grammar.Acceptance
import Scriptlet.Proofs.Joining.Following

/-!
# What recovery loses

**Theorem (`recovery_loses_one_statement`).** If a statement in a program cannot be read, one
diagnostic is recorded and the other statements are read, provided that a semicolon ends the
statement and no other semicolon, no brace and no keyword that starts a statement stands in it.

The statements before are read as they would be without it (`Runs`). Where the statement is given
up, the reader has not passed the semicolon: a rule uses up a semicolon at the end of a statement
only, and without braces no statement is nested in another (`stretch`). So the reader skips to the
semicolon and goes on right behind it.
-/

namespace Scriptlet

namespace Parse

variable {r : Rules} {k m : Nat} {s t u : ParseState} {st : Stmt} {ss : List Stmt} {d : Diagnostic}

/-! ## Statements in turn -/

theorem bind_apply_congr {α β : Type} {x y : Parse α} {f : α → Parse β} (h : x s = y t) :
    (x >>= f) s = (y >>= f) t := by
  rw [Run.bind_apply, Run.bind_apply, h]

namespace Rules

theorem programStmts_succ (k : Nat) (heof : nextKind s.ahead.tokens ≠ .eof) :
    r.programStmts (k + 1) s = (recover r.statement >>= fun s? => do
      advance
      let ss ← r.programStmts k
      pure (s?.toList ++ ss)) s := by
  rw [programStmts, Parse.current, Run.bind_apply, Run.read_apply]
  dsimp only
  rw [kind_current, if_neg heof]

theorem programStmts_ok (k : Nat) (heof : nextKind s.ahead.tokens ≠ .eof)
    (hst : r.statement s = .ok st t) :
    r.programStmts (k + 1) s = (r.programStmts k >>= fun ss => pure (st :: ss)) (past t) := by
  rw [programStmts_succ k heof, Run.bind_apply, recover_ok hst]
  rfl

/-- A statement that is given up leaves nothing in the program. -/
theorem programStmts_error (k : Nat) (heof : nextKind s.ahead.tokens ≠ .eof)
    (hst : r.statement s = .error d t) :
    r.programStmts (k + 1) s = r.programStmts k (past (broken d t)) := by
  rw [programStmts_succ k heof, Run.bind_apply, recover_error hst]
  exact congrFun (bind_pure (r.programStmts k)) (past (broken d t))

end Rules

/-- The statements `ss` are read one after the other, from the state `s` up to the state `u`. -/
inductive Runs (r : Rules) : ParseState → List Stmt → ParseState → Prop
  | refl (s : ParseState) : Runs r s [] s
  | more {s t u : ParseState} {st : Stmt} {ss : List Stmt} :
      nextKind s.ahead.tokens ≠ .rbrace → nextKind s.ahead.tokens ≠ .eof →
      r.statement s = .ok st t → Onward s t → Runs r (past t) ss u → Runs r s (st :: ss) u

/-- A statement leaves fewer tokens. -/
theorem length_past_lt (hon : Onward s t) (heof : nextKind s.ahead.tokens ≠ .eof) :
    (past t).ahead.tokens.length < s.ahead.tokens.length :=
  Nat.lt_of_le_of_lt hon.tail.length_le (length_tail_lt heof)

/-- A list of statements takes one pass for each of them. -/
theorem Runs.loop {loop : Nat → Parse (List Stmt)} (h : Runs r s ss u)
    (hloop : ∀ {k s st t}, nextKind s.ahead.tokens ≠ .rbrace → nextKind s.ahead.tokens ≠ .eof →
      r.statement s = .ok st t →
      loop (k + 1) s = (loop k >>= fun ss => pure (st :: ss)) (past t))
    (hk : s.ahead.tokens.length < k) :
    ∃ k', u.ahead.tokens.length < k' ∧
      loop k s = (loop k' >>= fun ss' => pure (ss ++ ss')) u := by
  induction h generalizing k with
  | refl s => exact ⟨k, hk, (congrFun (bind_pure (loop k)) s).symm⟩
  | more hbrace heof hst hon _ ih =>
    obtain _ | k := k
    · exact absurd hk (Nat.not_lt_zero _)
    have hlt := length_past_lt hon heof
    obtain ⟨k', hk', heq⟩ := ih (k := k) (by omega)
    refine ⟨k', hk', ?_⟩
    rw [hloop hbrace heof hst, bind_apply_congr heq, bind_assoc]
    rfl

theorem past_eq {ts : List Token} (hon : Onward s t) (hrecorded : t.recorded = s.recorded)
    (htail : t.ahead.tokens.tail = ts) : past t = ⟨⟨ts, s.ahead.finish⟩, s.recorded⟩ := by
  rw [past, TokenStream.advance, htail, hon.finish, hrecorded]

/-- Statements are read in turn as they are derived. -/
theorem Rules.ReadsBelow.runs (hr : r.ReadsBelow m) {ts us : List Token} (h : InTurn ts ss us)
    (hw : Within m ts) (q : Position) (ds : Array Diagnostic) :
    Runs r ⟨⟨ts, q⟩, ds⟩ ss ⟨⟨us, q⟩, ds⟩ := by
  induction h with
  | refl _ => exact .refl _
  | @more ts mid us st ss hst _ ih =>
    have hread := hr.reads_statement (s := ⟨⟨ts, q⟩, ds⟩) hw
    obtain ⟨t, ht, hrecorded, htail⟩ := hread.iff.1 hst
    refine .more (hst.nextKind_ne (by nofun) rfl) (hst.nextKind_ne (by nofun) rfl) ht
      (hread.ok ht) ?_
    rw [past_eq (hread.ok ht) hrecorded htail]
    exact ih (hw.suffix hst.balances.suffix)

/-! ## The tokens of one statement -/

/-- No semicolon, no brace, and no keyword that starts another statement. -/
structure Plain (xs : List Token) : Prop where
  marks : ∀ x ∈ xs, x.kind ≠ .semicolon ∧ x.kind ≠ .lbrace ∧ x.kind ≠ .rbrace
  starts : ∀ x ∈ xs.tail, x.kind.startsStatement = false

theorem Plain.suffix {xs zs : List Token} (h : Plain xs) (hzs : zs <:+ xs) : Plain zs where
  marks x hx := h.marks x (hzs.subset hx)
  starts x hx := by
    obtain ⟨_ | ⟨y, ys⟩, rfl⟩ := hzs
    · exact h.starts x hx
    · exact h.starts x (List.mem_append_right ys (List.mem_of_mem_tail hx))

/-- Skipping stops at the semicolon behind the statement. -/
theorem skipBroken_plain {zs : List Token} (h : Plain zs) (hproper : ∀ z ∈ zs, z.Proper)
    {c : Token} (hc : c.kind = .semicolon) (us : List Token) :
    skipBroken (zs ++ c :: us) = c :: us := by
  induction zs with
  | nil =>
    cases us with
    | nil => rfl
    | cons u us => rw [List.nil_append, skipBroken, hc]; rfl
  | cons z zs ih =>
    have hz := h.marks z List.mem_cons_self
    have hz' := (hproper z List.mem_cons_self).kind_ne_eof
    have ih := ih (h.suffix (List.suffix_cons z zs)) fun y hy =>
      hproper y (List.mem_cons_of_mem z hy)
    obtain ⟨y, ys, hys, hy⟩ : ∃ y ys, zs ++ c :: us = y :: ys ∧
        endsBrokenBefore y.kind = false := by
      cases zs with
      | nil => exact ⟨c, us, rfl, by rw [hc]; rfl⟩
      | cons y zs =>
        have hmem : y ∈ z :: y :: zs := by simp
        refine ⟨y, zs ++ c :: us, rfl, ?_⟩
        simp [endsBrokenBefore, (hproper y hmem).kind_ne_eof, (h.marks y hmem).2.2,
          h.starts y List.mem_cons_self]
    rw [List.cons_append, hys, skipBroken, hy, if_neg, ← hys, ih]
    simp [endsBroken, hz.1, hz.2.2, hz']

/-- The tokens `ts` are ahead, and `ds` is recorded. -/
def Stands (s : ParseState) (ts : List Token) (ds : Array Diagnostic) : Prop :=
  s.ahead.tokens = ts ∧ s.recorded = ds

theorem Stands.past {x : Token} {ts : List Token} {ds : Array Diagnostic}
    (h : Stands s (x :: ts) ds) : Stands (past s) ts ds := by
  refine ⟨?_, h.2⟩
  rw [past_tokens, h.1]
  rfl

theorem Stands.current {ts us us' : List Token} {c : Token} {ds ds' : Array Diagnostic}
    (h : Stands s (ts ++ c :: us) ds) (h' : Stands t (ts ++ c :: us') ds') :
    s.ahead.current = t.ahead.current := by
  rw [TokenStream.current, TokenStream.current, h.1, h'.1]
  cases ts <;> rfl

/-- Two readers in front of the same semicolon, whatever comes behind it. -/
def stretch (xs : List Token) {c : Token} (hc : c.kind = .semicolon) (us us' : List Token)
    (ds ds' : Array Diagnostic) : Tie where
  ready s s' := ∃ ys, ys <:+ xs ∧ Stands s (ys ++ c :: us) ds ∧ Stands s' (ys ++ c :: us') ds'
  done s s' := ∃ y ys, y :: ys <:+ xs ∧ Stands s (y :: ys ++ c :: us) ds ∧
    Stands s' (y :: ys ++ c :: us') ds'
  failed _ s s' := ∃ ys, ys <:+ xs ∧ Stands s (ys ++ c :: us) ds ∧ Stands s' (ys ++ c :: us') ds'
  current := fun ⟨_, _, hs, hs'⟩ => hs.current hs'
  upcoming := fun ⟨_, _, _, hs, hs'⟩ => hs.past.current hs'.past
  read := by
    rintro s s' ⟨_ | ⟨y, ys⟩, hys, hs, hs'⟩ hk
    · refine absurd ?_ hk
      rw [TokenStream.current, hs.1]
      exact hc
    · exact ⟨y, ys, hys, hs, hs'⟩
  next := fun ⟨y, ys, hys, hs, hs'⟩ => ⟨ys, (List.suffix_cons y ys).trans hys, hs.past, hs'.past⟩
  refused _ h := h
  missed := fun _ ⟨y, ys, hys, hs, hs'⟩ => ⟨y :: ys, hys, hs, hs'⟩

theorem together_stretch {xs us us' : List Token} {c : Token} {ds ds' : Array Diagnostic}
    (hxs : ∀ x ∈ xs, x.kind ≠ .lbrace) (hc : c.kind = .semicolon) (n n' : Nat) :
    (stretch xs hc us us' ds ds').Together (rules n) (rules n') := by
  refine Tie.together_rules (fun _ h hk => absurd hk ?_) n n'
  obtain ⟨_ | ⟨y, ys⟩, hys, hs, -⟩ := h <;> rw [TokenStream.current, hs.1]
  · rw [List.nil_append, List.headD_cons, hc]
    decide
  · exact hxs y (hys.subset List.mem_cons_self)

theorem statement_eq_error_iff : r.statement s = .error d t ↔ r.bareStatement s = .error d t := by
  refine ⟨fun h => ?_, fun h => Run.bind_eq_error_iff.2 (.inl h)⟩
  rcases Run.bind_eq_error_iff.1 h with h | ⟨a, u, -, h⟩
  · exact h
  · rw [skip, Parse.upcoming, bind_assoc, Run.bind_apply, Run.read_apply] at h
    dsimp only at h
    split at h <;> cases h

/-- **Where a statement is given up** the reader has not passed the semicolon, and it is given up
whatever comes behind. -/
theorem statement_error_of_plain {xs us us' : List Token} {c : Token} {ds ds' : Array Diagnostic}
    {s' t' : ParseState} {n n' : Nat} (hxs : ∀ x ∈ xs, x.kind ≠ .lbrace) (hc : c.kind = .semicolon)
    (hs : Stands s (xs ++ c :: us) ds) (hs' : Stands s' (xs ++ c :: us') ds')
    (hfails : (rules n').statement s' = .error d t') (hends : (rules n).statement s ≠ .outOfFuel) :
    ∃ t zs, (rules n).statement s = .error d t ∧ zs <:+ xs ∧ Stands t (zs ++ c :: us) ds := by
  have habreast := (together_stretch hxs hc n n').bareStatement ⟨xs, List.suffix_rfl, hs, hs'⟩
  rw [Tie.Abreast, statement_eq_error_iff.1 hfails] at habreast
  obtain ⟨t, ht, zs, hzs, hstands, -⟩ := habreast.of_error fun h =>
    hends (Run.bind_eq_outOfFuel_iff.2 (.inl h))
  exact ⟨t, zs, statement_eq_error_iff.2 ht, hzs, hstands⟩

/-- From there the reader goes on at the semicolon. -/
theorem broken_plain {zs us : List Token} {c : Token} {ds : Array Diagnostic} (h : Plain zs)
    (hproper : ∀ z ∈ zs, z.Proper) (hc : c.kind = .semicolon) (hon : Onward s t)
    (ht : Stands t (zs ++ c :: us) ds) :
    broken d t = ⟨⟨c :: us, s.ahead.finish⟩, ds.push d⟩ := by
  rw [broken, ht.1, skipBroken_plain h hproper hc, ht.2, ← hon.finish]

/-! ## One broken statement -/

theorem nested_apply {α : Type} (rule : Rules → Parse α) (s : ParseState) :
    nested rule s = rule (rules (s.ahead.tokens.length + 1)) s := rfl

/-- In the state `s` a statement is given up. Where it is, plain tokens are left of it, then come
the semicolon `c` and the tokens `us`; and then `ds` is recorded. -/
def LeavesOff (s : ParseState) (c : Token) (us : List Token) (ds : Array Diagnostic) : Prop :=
  ∃ d t zs, nested Rules.statement s = .error d t ∧ t.ahead.tokens = zs ++ c :: us ∧ Plain zs ∧
    t.recorded.push d = ds

variable {xs us : List Token} {c : Token} {ds ds' : Array Diagnostic} {n : Nat}

/-- The statement is given up at any depth, and the reader goes on at the semicolon. -/
theorem LeavesOff.broken (h : LeavesOff s c us ds) (hc : c.kind = .semicolon)
    (hw : Within n s.ahead.tokens) :
    ∃ d t, (rules n).statement s = .error d t ∧
      Parse.broken d t = ⟨⟨c :: us, s.ahead.finish⟩, ds⟩ := by
  obtain ⟨d, t, zs, ht, htokens, hzs, rfl⟩ := h
  rw [nested_apply] at ht
  have hread := (readsBelow_rules n).reads_statement hw
  have hn : (rules n).statement s = .error d t := by
    have hsame := Tie.recovers_same.statement (Tie.recovers_same.together_rules n
      (s.ahead.tokens.length + 1)) (s := s) rfl
    rw [← ht]
    exact hsame.eq hread.ends (by rw [ht]; nofun)
  have hon := hread.error hn
  have hproper : ∀ z ∈ zs, z.Proper := fun z hz =>
    (hw.suffix hon.ahead).proper z (htokens ▸ List.mem_append_left _ hz)
  exact ⟨d, t, hn, broken_plain hzs hproper hc hon ⟨htokens, rfl⟩⟩

/-- A statement that starts with these tokens, and goes on in some way, cannot be read. -/
def GivesUp (ts : List Token) : Prop :=
  ∃ more q ds d t, nested Rules.statement ⟨⟨ts ++ more, q⟩, ds⟩ = .error d t

/-- Plain tokens up to the semicolon are given up whatever comes behind. -/
theorem leavesOff_of_plain (hts : ∀ t ∈ xs ++ c :: us, t.Proper) (hc : c.kind = .semicolon)
    (hxs : Plain xs) (hfails : GivesUp (xs ++ [c])) (q : Position) (ds : Array Diagnostic) :
    ∃ d, LeavesOff ⟨⟨xs ++ c :: us, q⟩, ds⟩ c us (ds.push d) := by
  obtain ⟨more, q', ds', d, t', ht'⟩ := hfails
  rw [List.append_assoc] at ht'
  have hread := (readsBelow_rules ((xs ++ c :: us).length + 1)).reads_statement
    (s := ⟨⟨xs ++ c :: us, q⟩, ds⟩) ⟨Nat.lt_succ_self _, hts⟩
  obtain ⟨t, zs, ht, hzs, htokens, hrecorded⟩ := statement_error_of_plain
    (fun x hx => (hxs.marks x hx).2.1) hc ⟨rfl, rfl⟩ ⟨rfl, rfl⟩ ht' hread.ends
  exact ⟨d, d, t, zs, ht, htokens, hxs.suffix hzs, by rw [hrecorded]⟩

theorem nextKind_ne_eof (hw : Within n (xs ++ c :: us)) : nextKind (xs ++ c :: us) ≠ .eof := by
  obtain _ | ⟨x, xs⟩ := xs
  · exact (hw.proper c List.mem_cons_self).kind_ne_eof
  · exact (hw.proper x List.mem_cons_self).kind_ne_eof

/-! ## Programs -/

/-- The statements of a program behind a broken one. -/
theorem programStmts_of_leavesOff {q : Position} (hw : Within n (xs ++ c :: us))
    (hk : (xs ++ c :: us).length < k) (hc : c.kind = .semicolon) (hss : ProgramAt us ss)
    (hfails : LeavesOff ⟨⟨xs ++ c :: us, q⟩, ds⟩ c us ds') :
    ∃ t, (rules n).programStmts k ⟨⟨xs ++ c :: us, q⟩, ds⟩ = .ok ss t ∧ t.recorded = ds' := by
  obtain ⟨d, t, ht, hbroken⟩ := hfails.broken hc hw
  obtain _ | k := k
  · exact absurd hk (Nat.not_lt_zero _)
  have hwu := hw.suffix ((List.suffix_cons c us).trans (List.suffix_append xs _))
  have hlen : us.length < k := by simp at hk; omega
  have hread := (readsBelow_rules n).reads_programStmts k (s := ⟨⟨us, q⟩, ds'⟩) hwu hlen
  obtain ⟨u, hu, hrecorded, -⟩ := hread.iff.1 ⟨hss, rfl⟩
  refine ⟨u, ?_, hrecorded⟩
  rw [Rules.programStmts_error k (nextKind_ne_eof hw) ht, hbroken]
  exact hu

/-- The tokens are read as the statements `ss`, and nothing is recorded. -/
def Clean (ts : List Token) (ss : List Stmt) : Prop :=
  ∃ q t, program ⟨⟨ts, q⟩, #[]⟩ = .ok ⟨ss⟩ t ∧ t.recorded = #[]

theorem Clean.programAt {ts : List Token} (h : Clean ts ss) (hts : ∀ t ∈ ts, t.Proper) :
    ProgramAt ts ss := by
  obtain ⟨q, t, ht, hrecorded⟩ := h
  have hread := reads_program_of_proper (s := ⟨⟨ts, q⟩, #[]⟩) hts
  exact (hread.derives ht hrecorded).1

end Parse

open Parse

/-- **Recovery loses one statement**, if a semicolon ends it and no other mark of a statement stands
in it. -/
theorem recovery_loses_one_statement {source : String} {as xs bs : List Token} {c : Token}
    {ss ss' : List Stmt}
    (hs : (TokenStream.ofSource source).tokens = as ++ xs ++ c :: bs) (hc : c.kind = .semicolon)
    (has : Clean as ss) (hend : as = [] ∨ EndsStatement as) (hclosed : surplus as = 0)
    (hbs : Clean bs ss') (hxs : Plain xs) (hfails : GivesUp (xs ++ [c])) :
    ∃ d t, program (.ofSource source) = .ok ⟨ss ++ ss'⟩ t ∧ t.recorded = #[d] := by
  rw [List.append_assoc] at hs
  have hw := within_ofSource source
  have hr := readsBelow_rules ((TokenStream.ofSource source).tokens.length + 1)
  have hstart : ParseState.ofSource source =
      ⟨⟨as ++ (xs ++ c :: bs), (TokenStream.ofSource source).finish⟩, #[]⟩ := by
    rw [← hs]
    rfl
  have hall : as ++ (xs ++ c :: bs) <:+ (TokenStream.ofSource source).tokens := hs ▸ List.suffix_rfl
  have hsuffix := (List.suffix_append as (xs ++ c :: bs)).trans hall
  have hbehind : bs <:+ xs ++ c :: bs := (List.suffix_cons c bs).trans (List.suffix_append _ _)
  have has := has.programAt fun t ht => hw.proper t (hall.subset (List.mem_append_left _ ht))
  have hbs := hbs.programAt (hw.suffix (hbehind.trans hsuffix)).proper
  have hruns := hr.runs (has.inTurn hend hclosed _) (hw.suffix hall)
    (TokenStream.ofSource source).finish #[]
  rw [← hstart] at hruns
  obtain ⟨k, hk, hprogram⟩ := hruns.loop (fun _ heof hst => Rules.programStmts_ok _ heof hst)
    (Nat.lt_trans hw.length_lt hr.passes)
  obtain ⟨d, hleaves⟩ := leavesOff_of_plain (hw.suffix hsuffix).proper hc hxs hfails
    (TokenStream.ofSource source).finish #[]
  obtain ⟨t, ht, hrecorded⟩ := programStmts_of_leavesOff (hw.suffix hsuffix) hk hc hbs hleaves
  refine ⟨d, t, Run.bind_eq_ok_iff.2 ⟨ss ++ ss', t, ?_, rfl⟩, hrecorded⟩
  rw [nested_apply]
  refine hprogram.trans ?_
  rw [Run.bind_apply, ht]
  rfl

/-- `a; let = 2; b` is read as `a` and `b`: a name has to follow `let`. -/
theorem recovery_loses_one_statement_let :
    ∃ (as xs bs : List Token) (c : Token) (ss ss' : List Stmt),
      (TokenStream.ofSource "a; let = 2; b").tokens = as ++ xs ++ c :: bs ∧ c.kind = .semicolon ∧
      Clean as ss ∧ (as = [] ∨ EndsStatement as) ∧ surplus as = 0 ∧ Clean bs ss' ∧
      Plain xs ∧ GivesUp (xs ++ [c]) ∧
      ∃ d t, program (.ofSource "a; let = 2; b") = .ok ⟨ss ++ ss'⟩ t ∧ t.recorded = #[d] := by
  let a : Token := ⟨.ident, "a", ⟨1, 1⟩⟩
  let b : Token := ⟨.ident, "b", ⟨1, 13⟩⟩
  let c : Token := ⟨.semicolon, ";", ⟨1, 11⟩⟩
  let as : List Token := [a, ⟨.semicolon, ";", ⟨1, 2⟩⟩]
  let xs : List Token := [⟨.letKw, "let", ⟨1, 4⟩⟩, ⟨.assign, "=", ⟨1, 8⟩⟩, ⟨.int, "2", ⟨1, 10⟩⟩]
  have hs : (TokenStream.ofSource "a; let = 2; b").tokens = as ++ xs ++ c :: [b] := by
    decide +kernel
  have has : Clean as [.expr a (.ident (.ofToken a))] := ⟨.start, _, rfl, rfl⟩
  have hend : as = [] ∨ EndsStatement as := .inr ⟨_, rfl, rfl⟩
  have hbs : Clean [b] [.expr b (.ident (.ofToken b))] := ⟨.start, _, rfl, rfl⟩
  have hxs : Plain xs := ⟨by decide, by decide⟩
  have hfails : GivesUp (xs ++ [c]) := ⟨[], .start, #[], _, _, rfl⟩
  exact ⟨as, xs, [b], c, _, _, hs, rfl, has, hend, by decide, hbs, hxs, hfails,
    recovery_loses_one_statement hs rfl has hend (by decide) hbs hxs hfails⟩

end Scriptlet
