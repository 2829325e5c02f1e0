import Scriptlet.Proofs.Grammar
import Scriptlet.Proofs.Printing.Trees
import Scriptlet.Proofs.Scanning.Spelling
import Mathlib.Data.List.Forall2

/-!
# The grammar does not look at positions

Tokens that are alike up to their positions derive the same trees up to tokens, and leave tokens
that are alike (`Alike`).
-/

namespace Scriptlet

/-- The same tokens, perhaps in other places. -/
def Alike (ts us : List Token) : Prop :=
  List.Forall₂ (fun t u => t.unplaced = u.unplaced) ts us

theorem alike_iff {ts us : List Token} :
    Alike ts us ↔ ts.map Token.unplaced = us.map Token.unplaced := by
  rw [Alike, ← List.forall₂_eq_eq_eq, List.forall₂_map_left_iff, List.forall₂_map_right_iff]

theorem kind_eq {t u : Token} (h : t.unplaced = u.unplaced) : u.kind = t.kind := by
  rw [← u.unplaced_kind, ← h, t.unplaced_kind]

theorem text_eq {t u : Token} (h : t.unplaced = u.unplaced) : u.text = t.text := by
  rw [← u.unplaced_text, ← h, t.unplaced_text]

theorem bare_ofToken {t u : Token} (h : t.unplaced = u.unplaced) :
    (Ident.ofToken u).bare = (Ident.ofToken t).bare := by
  rw [Ident.bare, Ident.bare, Ident.ofToken, Ident.ofToken, text_eq h]

theorem Alike.nextKind {ts us : List Token} (h : Alike ts us) : nextKind us = nextKind ts := by
  cases h with
  | nil => rfl
  | cons ht _ => exact kind_eq ht

/-- Only a name is a name without its token. -/
theorem eq_ident_of_bare {e : Expr} {x : Ident} (h : e.bare = (Expr.ident x).bare) :
    ∃ y, e = .ident y ∧ y.bare = x.bare := by
  cases e with
  | ident y => exact ⟨y, rfl, Expr.ident.inj h⟩
  | _ => cases h

theorem NamesAt.move {ts rest : List Token} {xs : List Ident} (h : NamesAt ts xs rest)
    {ts' : List Token} (hts : Alike ts ts') :
    ∃ xs' rest', NamesAt ts' xs' rest' ∧ xs'.map Ident.bare = xs.map Ident.bare ∧
      Alike rest rest' := by
  induction h generalizing ts' with
  | last hx hc =>
    cases hts with
    | cons hx' hts =>
      cases hts with
      | cons hc' hrest =>
        exact ⟨_, _, .last ((kind_eq hx').trans hx) ((kind_eq hc').trans hc),
          congrArg (fun y => [y]) (bare_ofToken hx'), hrest⟩
  | more hx hc _ ih =>
    cases hts with
    | cons hx' hts =>
      cases hts with
      | cons hc' hts =>
        obtain ⟨xs', rest', h, hxs, hrest⟩ := ih hts
        exact ⟨_, _, .more ((kind_eq hx').trans hx) ((kind_eq hc').trans hc) h,
          congrArg₂ List.cons (bare_ofToken hx') hxs, hrest⟩

theorem ParamsAt.move {ts rest : List Token} {xs : List Ident} (h : ParamsAt ts xs rest)
    {ts' : List Token} (hts : Alike ts ts') :
    ∃ xs' rest', ParamsAt ts' xs' rest' ∧ xs'.map Ident.bare = xs.map Ident.bare ∧
      Alike rest rest' := by
  cases h with
  | none hc =>
    cases hts with
    | cons hc' hrest => exact ⟨[], _, .none ((kind_eq hc').trans hc), rfl, hrest⟩
  | some h =>
    obtain ⟨xs', rest', h, hxs, hrest⟩ := h.move hts
    exact ⟨xs', rest', .some h, hxs, hrest⟩

mutual

theorem ExprAt.move {p : Precedence} {ts : List Token} {e : Expr} {rest ts' : List Token} :
    ExprAt p ts e rest → Alike ts ts' →
      ∃ e' rest', ExprAt p ts' e' rest' ∧ e'.bare = e.bare ∧ Alike rest rest'
  | .mk hhead hs, .cons ht hts =>
    have ⟨_, _, hhead', hleft, hmid⟩ := hhead.move ht hts
    have ⟨e', rest', hs', he, hrest⟩ := hs.move hleft hmid
    ⟨e', rest', .mk (kind_eq ht ▸ hhead') hs', he, hrest⟩

theorem HeadAt.move {k : Kind} {t t' : Token} {ts : List Token} {e : Expr}
    {rest ts' : List Token} :
    HeadAt k t ts e rest → t.unplaced = t'.unplaced → Alike ts ts' →
      ∃ e' rest', HeadAt k t' ts' e' rest' ∧ e'.bare = e.bare ∧ Alike rest rest'
  | .name, ht, hts => ⟨_, _, .name, congrArg Expr.ident (bare_ofToken ht), hts⟩
  | .int hle, ht, hts => by
    rw [← text_eq ht] at hle ⊢
    exact ⟨_, _, .int hle, rfl, hts⟩
  | .str, ht, hts => ⟨_, _, .str, congrArg (Expr.str _) (text_eq ht), hts⟩
  | .yes, _, hts => ⟨_, _, .yes, rfl, hts⟩
  | .no, _, hts => ⟨_, _, .no, rfl, hts⟩
  | .null, _, hts => ⟨_, _, .null, rfl, hts⟩
  | .not he, _, hts =>
    have ⟨_, rest', he', hbare, hrest⟩ := he.move hts
    ⟨_, rest', .not he', congrArg (Expr.unary _ _) hbare, hrest⟩
  | .neg he, _, hts =>
    have ⟨_, rest', he', hbare, hrest⟩ := he.move hts
    ⟨_, rest', .neg he', congrArg (Expr.unary _ _) hbare, hrest⟩
  | .group he hc, _, hts =>
    have ⟨e', _, he', hbare, hrest⟩ := he.move hts
    match hrest with
    | .cons hc' hrest => ⟨e', _, .group he' ((kind_eq hc').trans hc), hbare, hrest⟩
  | .ifElse htest hyes hno, _, hts =>
    have ⟨_, _, htest', hbtest, hmid⟩ := htest.move hts
    have ⟨_, _, hyes', hbyes, hmid'⟩ := hyes.move hmid
    have ⟨_, rest', hno', hbno, hrest⟩ := hno.move hmid'
    ⟨_, rest', .ifElse htest' hyes' hno', by rw [Expr.bare, Expr.bare, hbtest, hbyes, hbno], hrest⟩
  | .fn hc hps hbody, _, .cons hc' hts =>
    have ⟨_, _, hps', hbps, hmid⟩ := hps.move hts
    have ⟨_, rest', hbody', hbbody, hrest⟩ := hbody.move hmid
    ⟨_, rest', .fn ((kind_eq hc').trans hc) hps' hbody',
      by rw [Expr.bare, Expr.bare, hbps, hbbody], hrest⟩
  | .array hes, _, hts =>
    have ⟨_, rest', hes', hbes, hrest⟩ := hes.move hts
    ⟨_, rest', .array hes', congrArg (Expr.array _) hbes, hrest⟩
  | .hash hkvs, _, hts =>
    have ⟨_, rest', hkvs', hbkvs, hrest⟩ := hkvs.move hts
    ⟨_, rest', .hash hkvs', congrArg (Expr.hash _) hbkvs, hrest⟩
  | .forIn hi hc hv hk hx hbody, _, .cons hi' (.cons hc' (.cons hv' (.cons hk' (.cons hx' hts)))) =>
    have ⟨_, rest', hbody', hbbody, hrest⟩ := hbody.move hts
    ⟨_, rest', .forIn ((kind_eq hi').trans hi) ((kind_eq hc').trans hc) ((kind_eq hv').trans hv)
      ((kind_eq hk').trans hk) ((kind_eq hx').trans hx) hbody',
      by rw [Expr.bare, Expr.bare, bare_ofToken hi', bare_ofToken hv', bare_ofToken hx', hbbody],
      hrest⟩

theorem SuffixesAt.move {p : Precedence} {left left' : Expr} {ts : List Token} {e : Expr}
    {rest ts' : List Token} :
    SuffixesAt p left ts e rest → left'.bare = left.bare → Alike ts ts' →
      ∃ e' rest', SuffixesAt p left' ts' e' rest' ∧ e'.bare = e.bare ∧ Alike rest rest'
  | .stop hno, hleft, hts => ⟨_, _, .stop (hts.nextKind ▸ hno), hleft, hts⟩
  | .more hs hp hone hmore, hleft, .cons ht hts =>
    have ⟨_, _, hone', he, hmid⟩ := hone.move hleft hts
    have ⟨e', rest', hmore', he', hrest⟩ := hmore.move he hmid
    ⟨e', rest', .more ((congrArg Suffix.ofKind (kind_eq ht)).trans hs) hp hone' hmore', he', hrest⟩

theorem SuffixAt.move {left left' : Expr} {s : Suffix} {t t' : Token} {ts : List Token} {e : Expr}
    {rest ts' : List Token} :
    SuffixAt left s t ts e rest → left'.bare = left.bare → Alike ts ts' →
      ∃ e' rest', SuffixAt left' s t' ts' e' rest' ∧ e'.bare = e.bare ∧ Alike rest rest'
  | .binary hr, hleft, hts =>
    have ⟨_, rest', hr', hbr, hrest⟩ := hr.move hts
    ⟨_, rest', .binary hr', by rw [Expr.bare, Expr.bare, hleft, hbr], hrest⟩
  | .call hes, hleft, hts =>
    have ⟨_, rest', hes', hbes, hrest⟩ := hes.move hts
    ⟨_, rest', .call hes', by rw [Expr.bare, Expr.bare, hleft, hbes], hrest⟩
  | .index hi hc, hleft, hts =>
    have ⟨_, _, hi', hbi, hrest⟩ := hi.move hts
    match hrest with
    | .cons hc' hrest =>
      ⟨_, _, .index hi' ((kind_eq hc').trans hc), by rw [Expr.bare, Expr.bare, hleft, hbi], hrest⟩
  | .assign he, hleft, hts => by
    obtain ⟨y, rfl, hy⟩ := eq_ident_of_bare hleft
    have ⟨_, rest', he', hbe, hrest⟩ := he.move hts
    exact ⟨_, rest', .assign he', by rw [Expr.bare, Expr.bare, hy, hbe], hrest⟩

theorem ListAt.move {close : Kind} {ts : List Token} {es : List Expr} {rest ts' : List Token} :
    ListAt close ts es rest → Alike ts ts' →
      ∃ es' rest', ListAt close ts' es' rest' ∧ bareExprs es' = bareExprs es ∧ Alike rest rest'
  | .none hc, .cons hc' hts => ⟨_, _, .none ((kind_eq hc').trans hc), rfl, hts⟩
  | .some h, hts =>
    have ⟨_, rest', h', hes, hrest⟩ := h.move hts
    ⟨_, rest', .some h', hes, hrest⟩

theorem ItemsAt.move {close : Kind} {ts : List Token} {es : List Expr} {rest ts' : List Token} :
    ItemsAt close ts es rest → Alike ts ts' →
      ∃ es' rest', ItemsAt close ts' es' rest' ∧ bareExprs es' = bareExprs es ∧ Alike rest rest'
  | .last he hc, hts =>
    have ⟨_, _, he', hbare, hrest⟩ := he.move hts
    match hrest with
    | .cons hc' hrest =>
      ⟨_, _, .last he' ((kind_eq hc').trans hc), congrArg (fun e => [e]) hbare, hrest⟩
  | .more he hc hes, hts =>
    have ⟨_, _, he', hbare, hmid⟩ := he.move hts
    match hmid with
    | .cons hc' hmid =>
      have ⟨_, rest', hes', hbares, hrest⟩ := hes.move hmid
      ⟨_, rest', .more he' ((kind_eq hc').trans hc) hes', congrArg₂ List.cons hbare hbares, hrest⟩

theorem PairsAt.move {ts : List Token} {kvs : List (Expr × Expr)} {rest ts' : List Token} :
    PairsAt ts kvs rest → Alike ts ts' →
      ∃ kvs' rest', PairsAt ts' kvs' rest' ∧ barePairs kvs' = barePairs kvs ∧ Alike rest rest'
  | .none hc, .cons hc' hts => ⟨_, _, .none ((kind_eq hc').trans hc), rfl, hts⟩
  | .last hk hc hv hb, hts =>
    have ⟨_, _, hk', hbk, hmid⟩ := hk.move hts
    match hmid with
    | .cons hc' hmid =>
      have ⟨_, _, hv', hbv, hrest⟩ := hv.move hmid
      match hrest with
      | .cons hb' hrest =>
        ⟨_, _, .last hk' ((kind_eq hc').trans hc) hv' ((kind_eq hb').trans hb),
          by rw [barePairs, barePairs, hbk, hbv]; rfl, hrest⟩
  | .more hk hc hv hd hkvs, hts =>
    have ⟨_, _, hk', hbk, hmid⟩ := hk.move hts
    match hmid with
    | .cons hc' hmid =>
      have ⟨_, _, hv', hbv, hmid'⟩ := hv.move hmid
      match hmid' with
      | .cons hd' hmid' =>
        have ⟨_, rest', hkvs', hbkvs, hrest⟩ := hkvs.move hmid'
        ⟨_, rest', .more hk' ((kind_eq hc').trans hc) hv' ((kind_eq hd').trans hd) hkvs',
          by rw [barePairs, barePairs, hbk, hbv, hbkvs], hrest⟩

theorem BlockAt.move {ts : List Token} {b : Block} {rest ts' : List Token} :
    BlockAt ts b rest → Alike ts ts' →
      ∃ b' rest', BlockAt ts' b' rest' ∧ b'.bare = b.bare ∧ Alike rest rest'
  | .mk ht hss, .cons ht' hts =>
    have ⟨_, rest', hss', hbss, hrest⟩ := hss.move hts
    ⟨_, rest', .mk ((kind_eq ht').trans ht) hss', congrArg (Block.mk _) hbss, hrest⟩

theorem ElseAt.move {ts : List Token} {no : Option Block} {rest ts' : List Token} :
    ElseAt ts no rest → Alike ts ts' →
      ∃ no' rest', ElseAt ts' no' rest' ∧ bareElse no' = bareElse no ∧ Alike rest rest'
  | .none hne, hts => ⟨_, _, .none (hts.nextKind ▸ hne), rfl, hts⟩
  | .some ht hb, .cons ht' hts =>
    have ⟨_, rest', hb', hbb, hrest⟩ := hb.move hts
    ⟨_, rest', .some ((kind_eq ht').trans ht) hb', congrArg some hbb, hrest⟩

theorem StmtsAt.move {ts : List Token} {ss : List Stmt} {rest ts' : List Token} :
    StmtsAt ts ss rest → Alike ts ts' →
      ∃ ss' rest', StmtsAt ts' ss' rest' ∧ bareStmts ss' = bareStmts ss ∧ Alike rest rest'
  | .close hc, .cons hc' hts => ⟨_, _, .close ((kind_eq hc').trans hc), rfl, hts⟩
  | .finish, .nil => ⟨_, _, .finish, rfl, .nil⟩
  | .more hs hss, hts =>
    have ⟨_, _, hs', hbs, hmid⟩ := hs.move hts
    have ⟨_, rest', hss', hbss, hrest⟩ := hss.move hmid
    ⟨_, rest', .more hs' hss', congrArg₂ List.cons hbs hbss, hrest⟩

theorem StmtAt.move {ts : List Token} {s : Stmt} {rest ts' : List Token} :
    StmtAt ts s rest → Alike ts ts' →
      ∃ s' rest', StmtAt ts' s' rest' ∧ s'.bare = s.bare ∧ Alike rest rest'
  | .ended h hc, hts =>
    have ⟨_, _, h', hs, hrest⟩ := h.move hts
    match hrest with
    | .cons hc' hrest => ⟨_, _, .ended h' ((kind_eq hc').trans hc), hs, hrest⟩
  | .bare h hne, hts =>
    have ⟨_, rest', h', hs, hrest⟩ := h.move hts
    ⟨_, rest', .bare h' (hrest.nextKind ▸ hne), hs, hrest⟩

theorem BareStmtAt.move {ts : List Token} {s : Stmt} {rest ts' : List Token} :
    BareStmtAt ts s rest → Alike ts ts' →
      ∃ s' rest', BareStmtAt ts' s' rest' ∧ s'.bare = s.bare ∧ Alike rest rest'
  | .letName ht hx ha he, .cons ht' (.cons hx' (.cons ha' hts)) =>
    have ⟨_, rest', he', hbare, hrest⟩ := he.move hts
    ⟨_, rest', .letName ((kind_eq ht').trans ht) ((kind_eq hx').trans hx) ((kind_eq ha').trans ha)
      he', congrArg₂ (Stmt.declare _ _) (bare_ofToken hx') hbare, hrest⟩
  | .constName ht hx ha he, .cons ht' (.cons hx' (.cons ha' hts)) =>
    have ⟨_, rest', he', hbare, hrest⟩ := he.move hts
    ⟨_, rest', .constName ((kind_eq ht').trans ht) ((kind_eq hx').trans hx)
      ((kind_eq ha').trans ha) he',
      congrArg₂ (Stmt.declare _ _) (bare_ofToken hx') hbare, hrest⟩
  | .ret ht he, .cons ht' hts =>
    have ⟨_, rest', he', hbare, hrest⟩ := he.move hts
    ⟨_, rest', .ret ((kind_eq ht').trans ht) he', congrArg (Stmt.ret _) hbare, hrest⟩
  | .expr he, .cons ht' hts =>
    have ⟨_, rest', he', hbare, hrest⟩ := he.move (.cons ht' hts)
    ⟨_, rest', .expr he', congrArg (Stmt.expr _) hbare, hrest⟩

end

/-- **Tokens that are alike derive the same program**, up to the tokens in it. -/
theorem ProgramAt.move {ts : List Token} {ss : List Stmt} (h : ProgramAt ts ss)
    {ts' : List Token} (hts : Alike ts ts') :
    ∃ ss', ProgramAt ts' ss' ∧ bareStmts ss' = bareStmts ss := by
  induction h generalizing ts' with
  | finish =>
    cases hts with
    | nil => exact ⟨[], .finish, rfl⟩
  | more hs _ ih =>
    obtain ⟨s', mid, hs', hbs, hmid⟩ := hs.move hts
    obtain ⟨ss', hss', hbss⟩ := ih hmid
    exact ⟨s' :: ss', .more hs' hss', congrArg₂ List.cons hbs hbss⟩

end Scriptlet
