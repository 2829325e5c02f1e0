import Scriptlet.Proofs.Grammar.Rules
import Scriptlet.Syntax.Parse

/-!
# What `parse` accepts

**Theorem (`parse_eq_ok_iff_derives`).** A source is read as the program `p` exactly if the tokens
of the source derive `p`, and the tokens of a source derive at most one program.

Reading a source never fails as a whole: whatever is wrong is recorded and the reading goes on.
So `parse` succeeds exactly if nothing was recorded, and what is read without a record is what
the grammar derives (`reads_program`). The second half follows from the first, since `parse`
gives one answer.
-/

namespace Scriptlet

namespace Parse

theorem within_ofSource (source : String) :
    Within ((TokenStream.ofSource source).tokens.length + 1) (TokenStream.ofSource source).tokens :=
  ⟨Nat.lt_succ_self _, TokenStream.proper_ofSource source⟩

/-- The depth and the passes that are granted are always enough. -/
theorem reads_program_of_proper {s : ParseState} (hs : ∀ t ∈ s.ahead.tokens, t.Proper) :
    Reads program s fun p rest => ProgramAt s.ahead.tokens p.stmts ∧ rest = [] := by
  have hw : Within (s.ahead.tokens.length + 1) s.ahead.tokens := ⟨Nat.lt_succ_self _, hs⟩
  have hr := readsBelow_rules (s.ahead.tokens.length + 1)
  have hss : Reads (nested fun r => r.programStmts r.passes) s fun ss rest =>
      ProgramAt s.ahead.tokens ss ∧ rest = [] :=
    (hr.reads_programStmts _ hw (Nat.lt_trans hw.length_lt hr.passes)).of_eq rfl
  refine (hss.map Program.mk).congr fun p rest => ⟨fun h => ⟨p.stmts, h, rfl⟩, ?_⟩
  rintro ⟨ss, h, rfl⟩
  exact h

theorem reads_program (source : String) :
    Reads program (.ofSource source) fun p rest =>
      ProgramAt (TokenStream.ofSource source).tokens p.stmts ∧ rest = [] :=
  reads_program_of_proper (TokenStream.proper_ofSource source)

/-- A list of statements always comes to its end, with whatever was recorded. -/
theorem programStmts_ne_error {r : Rules} (k : Nat) (s t : ParseState) (d : Diagnostic) :
    r.programStmts k s ≠ .error d t := by
  induction k generalizing s with
  | zero => nofun
  | succ k ih =>
    intro h
    rw [Rules.programStmts, current, Run.bind_apply, Run.read_apply] at h
    dsimp only at h
    split at h
    · cases h
    · rcases Run.bind_eq_error_iff.1 h with h | ⟨s?, u, -, h⟩
      · rw [recover] at h
        split at h <;> cases h
      · rcases Run.bind_eq_error_iff.1 h with h | ⟨-, v, -, h⟩
        · cases h
        · rcases Run.bind_eq_error_iff.1 h with h | ⟨ss, w, -, h⟩
          · exact ih v h
          · cases h

theorem program_ne_error (s t : ParseState) (d : Diagnostic) : program s ≠ .error d t := by
  intro h
  rcases Run.bind_eq_error_iff.1 h with h | ⟨ss, u, -, h⟩
  · exact programStmts_ne_error _ _ _ _ h
  · cases h

end Parse

/-! ## One derivation at most -/

section

variable {p : Precedence} {ts rest rest' : List Token} {e e' : Expr} {ss ss' : List Stmt}

theorem ExprAt.unique (hts : ∀ t ∈ ts, t.Proper) (h : ExprAt p ts e rest)
    (h' : ExprAt p ts e' rest') : e = e' ∧ rest = rest' := by
  have hw : Parse.Within (ts.length + 1) ts := ⟨Nat.lt_succ_self _, hts⟩
  have hread := (Parse.readsBelow_rules (ts.length + 1)).expression (p := p)
    (s := ⟨⟨ts, .start⟩, #[]⟩) hw
  exact hread.unique h h'

theorem StmtsAt.unique (hts : ∀ t ∈ ts, t.Proper) (h : StmtsAt ts ss rest)
    (h' : StmtsAt ts ss' rest') : ss = ss' ∧ rest = rest' := by
  have hw : Parse.Within (ts.length + 1) ts := ⟨Nat.lt_succ_self _, hts⟩
  have hread := (Parse.readsBelow_rules (ts.length + 1)).reads_blockStmts (ts.length + 1)
    (s := ⟨⟨ts, .start⟩, #[]⟩) hw hw.length_lt
  exact hread.unique h h'

theorem ProgramAt.unique (hts : ∀ t ∈ ts, t.Proper) (h : ProgramAt ts ss)
    (h' : ProgramAt ts ss') : ss = ss' := by
  have hw : Parse.Within (ts.length + 1) ts := ⟨Nat.lt_succ_self _, hts⟩
  have hread := (Parse.readsBelow_rules (ts.length + 1)).reads_programStmts (ts.length + 1)
    (s := ⟨⟨ts, .start⟩, #[]⟩) hw hw.length_lt
  exact (hread.unique ⟨h, rfl⟩ ⟨h', rfl⟩).1

end

/-! ## Programs -/

theorem parse_eq_ok_iff_program {source : String} {p : Program} :
    parse source = .ok p ↔
      ∃ t, Parse.program (.ofSource source) = .ok p t ∧ t.recorded = #[] := by
  rw [parse]
  split
  · rename_i q t hq
    rw [hq]
    by_cases ht : t.recorded.isEmpty
    · rw [if_pos ht]
      have ht' : t.recorded = #[] := by simpa using ht
      refine ⟨fun h => ?_, fun ⟨u, hu, _⟩ => ?_⟩
      · cases h; exact ⟨t, rfl, ht'⟩
      · cases hu; rfl
    · rw [if_neg ht]
      refine ⟨nofun, fun ⟨u, hu, hrec⟩ => ?_⟩
      cases hu
      exact absurd (by simp [hrec]) ht
  · rename_i d t h
    exact absurd h (Parse.program_ne_error _ _ _)
  · rename_i h
    exact absurd h (Parse.reads_program source).ends

theorem parse_eq_ok_iff_programAt {source : String} {p : Program} :
    parse source = .ok p ↔ ProgramAt (TokenStream.ofSource source).tokens p.stmts := by
  have hread := Parse.reads_program source
  rw [parse_eq_ok_iff_program]
  refine ⟨fun ⟨t, ht, hrec⟩ => (hread.derives ht hrec).1, fun h => ?_⟩
  obtain ⟨t, ht, hrec, -⟩ := hread.iff.1 ⟨h, rfl⟩
  exact ⟨t, ht, hrec⟩

/-- **`parse` accepts exactly the grammar**, and the grammar is unambiguous: a source is read as
the program that its tokens derive, and they derive no other. -/
theorem parse_eq_ok_iff_derives (source : String) (p : Program) :
    (parse source = .ok p ↔ ProgramAt (TokenStream.ofSource source).tokens p.stmts) ∧
      (ProgramAt (TokenStream.ofSource source).tokens p.stmts →
        ∀ q : Program, ProgramAt (TokenStream.ofSource source).tokens q.stmts → q = p) := by
  refine ⟨parse_eq_ok_iff_programAt, fun hp q hq => ?_⟩
  have hparse : parse source = .ok p := parse_eq_ok_iff_programAt.2 hp
  rw [parse_eq_ok_iff_programAt.2 hq] at hparse
  exact Except.ok.inj hparse

end Scriptlet
