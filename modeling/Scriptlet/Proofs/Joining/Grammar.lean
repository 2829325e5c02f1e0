import Scriptlet.Proofs.Grammar.Acceptance
import Scriptlet.Proofs.Grammar.Places
import Scriptlet.Proofs.Joining.Following
import Scriptlet.Proofs.Joining.Trees

/-!
# Parsing two sources in a row

**Theorem (`parse_append`).** Let two sources be read as programs, the first of them up to a
semicolon and with as many opening as closing braces. Then one after the other they are read as
one program, which is up to positions the first program and then the second.

The tokens of the two sources in a row are those of each, except for their positions. So what is
derived is compared without positions (`ExprAt.unplaced` and so on).
-/

namespace Scriptlet

/-- The tokens without their positions. -/
def unplacedTokens (ts : List Token) : List Token := ts.map Token.unplaced

theorem nextKind_unplacedTokens (ts : List Token) : nextKind (unplacedTokens ts) = nextKind ts := by
  cases ts <;> rfl

theorem NamesAt.unplaced {ts rest : List Token} {xs : List Ident} (h : NamesAt ts xs rest) :
    NamesAt (unplacedTokens ts) (xs.map Ident.unplaced) (unplacedTokens rest) := by
  induction h with
  | last hx hc => exact .last hx hc
  | more hx hc _ ih => exact .more hx hc ih

theorem ParamsAt.unplaced {ts rest : List Token} {xs : List Ident} (h : ParamsAt ts xs rest) :
    ParamsAt (unplacedTokens ts) (xs.map Ident.unplaced) (unplacedTokens rest) := by
  cases h with
  | none hc => exact .none hc
  | some h => exact .some h.unplaced

mutual

theorem ExprAt.unplaced {p : Precedence} {ts : List Token} {e : Expr} {rest : List Token} :
    ExprAt p ts e rest → ExprAt p (unplacedTokens ts) e.unplaced (unplacedTokens rest)
  | .mk hhead hs => .mk hhead.unplaced hs.unplaced

theorem HeadAt.unplaced {k : Kind} {t : Token} {ts : List Token} {e : Expr} {rest : List Token} :
    HeadAt k t ts e rest →
      HeadAt k t.unplaced (unplacedTokens ts) e.unplaced (unplacedTokens rest)
  | .name => .name
  | .int hle => .int hle
  | .str => .str
  | .yes => .yes
  | .no => .no
  | .null => .null
  | .not he => .not he.unplaced
  | .neg he => .neg he.unplaced
  | .group he hc => .group he.unplaced hc
  | .ifElse htest hyes hno => .ifElse htest.unplaced hyes.unplaced hno.unplaced
  | .fn hc hps hbody => .fn hc hps.unplaced hbody.unplaced
  | .array hes => .array hes.unplaced
  | .hash hkvs => .hash hkvs.unplaced
  | .forIn hi hc hv hk hx hbody => .forIn hi hc hv hk hx hbody.unplaced

theorem SuffixesAt.unplaced {p : Precedence} {left : Expr} {ts : List Token} {e : Expr}
    {rest : List Token} :
    SuffixesAt p left ts e rest →
      SuffixesAt p left.unplaced (unplacedTokens ts) e.unplaced (unplacedTokens rest)
  | .stop hno => .stop fun s hs => hno s (nextKind_unplacedTokens _ ▸ hs)
  | .more hs hp hone hmore => .more hs hp hone.unplaced hmore.unplaced

theorem SuffixAt.unplaced {left : Expr} {s : Suffix} {t : Token} {ts : List Token} {e : Expr}
    {rest : List Token} :
    SuffixAt left s t ts e rest →
      SuffixAt left.unplaced s t.unplaced (unplacedTokens ts) e.unplaced (unplacedTokens rest)
  | .binary hr => .binary hr.unplaced
  | .call hes => .call hes.unplaced
  | .index hi hc => .index hi.unplaced hc
  | .assign he => .assign he.unplaced

theorem ListAt.unplaced {close : Kind} {ts : List Token} {es : List Expr} {rest : List Token} :
    ListAt close ts es rest →
      ListAt close (unplacedTokens ts) (unplacedExprs es) (unplacedTokens rest)
  | .none hc => .none hc
  | .some hes => .some hes.unplaced

theorem ItemsAt.unplaced {close : Kind} {ts : List Token} {es : List Expr} {rest : List Token} :
    ItemsAt close ts es rest →
      ItemsAt close (unplacedTokens ts) (unplacedExprs es) (unplacedTokens rest)
  | .last he hc => .last he.unplaced hc
  | .more he hc hes => .more he.unplaced hc hes.unplaced

theorem PairsAt.unplaced {ts : List Token} {kvs : List (Expr × Expr)} {rest : List Token} :
    PairsAt ts kvs rest → PairsAt (unplacedTokens ts) (unplacedPairs kvs) (unplacedTokens rest)
  | .none hc => .none hc
  | .last hk hc hv hb => .last hk.unplaced hc hv.unplaced hb
  | .more hk hc hv hd hkvs => .more hk.unplaced hc hv.unplaced hd hkvs.unplaced

theorem BlockAt.unplaced {ts : List Token} {b : Block} {rest : List Token} :
    BlockAt ts b rest → BlockAt (unplacedTokens ts) b.unplaced (unplacedTokens rest)
  | .mk ht hss => .mk ht hss.unplaced

theorem ElseAt.unplaced {ts : List Token} {no : Option Block} {rest : List Token} :
    ElseAt ts no rest → ElseAt (unplacedTokens ts) (unplacedElse no) (unplacedTokens rest)
  | .none hne => .none ((nextKind_unplacedTokens _).trans_ne hne)
  | .some ht hb => .some ht hb.unplaced

theorem StmtsAt.unplaced {ts : List Token} {ss : List Stmt} {rest : List Token} :
    StmtsAt ts ss rest → StmtsAt (unplacedTokens ts) (unplacedStmts ss) (unplacedTokens rest)
  | .close hc => .close hc
  | .finish => .finish
  | .more hs hss => .more hs.unplaced hss.unplaced

theorem StmtAt.unplaced {ts : List Token} {s : Stmt} {rest : List Token} :
    StmtAt ts s rest → StmtAt (unplacedTokens ts) s.unplaced (unplacedTokens rest)
  | .ended hs hc => .ended hs.unplaced hc
  | .bare hs hne => .bare hs.unplaced ((nextKind_unplacedTokens _).trans_ne hne)

theorem BareStmtAt.unplaced {ts : List Token} {s : Stmt} {rest : List Token} :
    BareStmtAt ts s rest → BareStmtAt (unplacedTokens ts) s.unplaced (unplacedTokens rest)
  | .letName ht hx ha he => .letName ht hx ha he.unplaced
  | .constName ht hx ha he => .constName ht hx ha he.unplaced
  | .ret ht he => .ret ht he.unplaced
  | .expr he => .expr he.unplaced

end

/-! ## Programs -/

theorem ProgramAt.unplaced {ts : List Token} {ss : List Stmt} (h : ProgramAt ts ss) :
    ProgramAt (unplacedTokens ts) (ss.map Stmt.unplaced) := by
  induction h with
  | finish => exact .finish
  | more hs _ ih => exact .more hs.unplaced ih

/-- Up to positions, the tokens of a source say which program it is read as. -/
theorem exists_parse_of_programAt {source : String} {ss : List Stmt}
    (h : ProgramAt ((TokenStream.ofSource source).tokens.map Token.unplaced) ss) :
    ∃ p : Program, parse source = .ok p ∧ p.stmts.map Stmt.unplaced = ss := by
  have halike : Alike ((TokenStream.ofSource source).tokens.map Token.unplaced)
      (TokenStream.ofSource source).tokens := by
    rw [alike_iff, List.map_map]
    rfl
  have hproper : ∀ t ∈ (TokenStream.ofSource source).tokens.map Token.unplaced, t.Proper := by
    intro t ht
    obtain ⟨u, hu, rfl⟩ := List.mem_map.1 ht
    have hu := TokenStream.proper_ofSource source u hu
    exact ⟨hu.kind_ne_eof, hu.digits⟩
  obtain ⟨ss', hss', -⟩ := h.move halike
  exact ⟨⟨ss'⟩, parse_eq_ok_iff_programAt.2 hss', hss'.unplaced.unique hproper h⟩

/-- **Sources in a row** are read as the programs in a row. -/
theorem parse_append {source source' : String} {p p' : Program} (hp : parse source = .ok p)
    (hp' : parse source' = .ok p')
    (hend : EndsStatement (TokenStream.ofSource source).tokens)
    (hclosed : surplus (TokenStream.ofSource source).tokens = 0) :
    ∃ q, parse (source ++ source') = .ok q ∧
      q.unplaced = Program.unplaced ⟨p.stmts ++ p'.stmts⟩ := by
  have happend := ((parse_eq_ok_iff_programAt.1 hp).append hend hclosed
    (parse_eq_ok_iff_programAt.1 hp')).unplaced
  rw [unplacedTokens, List.map_append, ← map_unplaced_append hend] at happend
  obtain ⟨q, hq, hstmts⟩ := exists_parse_of_programAt happend
  exact ⟨q, hq, congrArg Program.mk hstmts⟩

end Scriptlet
