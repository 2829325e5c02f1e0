import Scriptlet.Proofs.Grammar
import Scriptlet.Proofs.Printing.Words

/-!
# What the grammar builds

A tree that the tokens of a source derive can be written down again: its names are names, its
numbers are not negative, no string in it contains a quote, and no statement in it is just a block
(`Expr.Written`, `StmtsWritten`).
-/

namespace Scriptlet

def LexicalList (ts : List Token) : Prop := ∀ t ∈ ts, t.Lexical

theorem LexicalList.head {t : Token} {ts : List Token} (h : LexicalList (t :: ts)) : t.Lexical :=
  h t List.mem_cons_self

theorem LexicalList.tail {t : Token} {ts : List Token} (h : LexicalList (t :: ts)) :
    LexicalList ts := fun u hu => h u (List.mem_cons_of_mem t hu)

theorem written_name {t : Token} (h : t.Lexical) (ht : t.kind = .ident) :
    IsName (Ident.ofToken t).name := h.name ht

theorem NamesAt.written {ts rest : List Token} {xs : List Ident} (h : NamesAt ts xs rest)
    (hts : LexicalList ts) : LexicalList rest ∧ ∀ x ∈ xs, IsName x.name := by
  induction h with
  | last hx _ =>
    refine ⟨hts.tail.tail, fun y hy => ?_⟩
    rw [List.mem_singleton.1 hy]
    exact written_name hts.head hx
  | more hx _ _ ih =>
    obtain ⟨hrest, hxs⟩ := ih hts.tail.tail
    refine ⟨hrest, fun y hy => ?_⟩
    rcases List.mem_cons.1 hy with rfl | hy
    · exact written_name hts.head hx
    · exact hxs y hy

theorem ParamsAt.written {ts rest : List Token} {xs : List Ident} (h : ParamsAt ts xs rest)
    (hts : LexicalList ts) : LexicalList rest ∧ ∀ x ∈ xs, IsName x.name := by
  cases h with
  | none _ => exact ⟨hts.tail, nofun⟩
  | some h => exact h.written hts

theorem toInt_ofNat_nonneg {n : Nat} (h : n ≤ 2 ^ 63 - 1) : 0 ≤ (Int64.ofNat n).toInt := by
  rw [Int64.toInt_ofNat_of_lt (by omega)]
  exact Int.natCast_nonneg n

theorem StmtsWritten.cons {s : Stmt} {ss : List Stmt} (h : s.Written) (hs : StmtsWritten ss) :
    StmtsWritten (s :: ss) := by
  intro u hu
  rcases List.mem_cons.1 hu with rfl | hu
  · exact h
  · exact hs u hu

mutual

theorem ExprAt.written {p : Precedence} {ts : List Token} {e : Expr} {rest : List Token} :
    ExprAt p ts e rest → LexicalList ts →
      LexicalList rest ∧ e.Every Expr.Written StmtsWritten
  | .mk hhead hs, hts =>
    have ⟨hmid, hleft⟩ := hhead.written rfl hts.head hts.tail
    hs.written hleft hmid

theorem HeadAt.written {k : Kind} {t : Token} {ts : List Token} {e : Expr} {rest : List Token} :
    HeadAt k t ts e rest → t.kind = k → t.Lexical → LexicalList ts →
      LexicalList rest ∧ e.Every Expr.Written StmtsWritten
  | .name, hk, ht, hts => ⟨hts, written_name ht hk⟩
  | .int hle, _, _, hts => ⟨hts, toInt_ofNat_nonneg hle⟩
  | .str, hk, ht, hts => ⟨hts, ht.unquoted hk⟩
  | .yes, _, _, hts => ⟨hts, trivial⟩
  | .no, _, _, hts => ⟨hts, trivial⟩
  | .null, _, _, hts => ⟨hts, trivial⟩
  | .not he, _, _, hts =>
    have ⟨hrest, he⟩ := he.written hts
    ⟨hrest, trivial, he⟩
  | .neg he, _, _, hts =>
    have ⟨hrest, he⟩ := he.written hts
    ⟨hrest, trivial, he⟩
  | .group he _, _, _, hts =>
    have ⟨hrest, he⟩ := he.written hts
    ⟨hrest.tail, he⟩
  | .ifElse htest hyes hno, _, _, hts =>
    have ⟨hmid, htest⟩ := htest.written hts
    have ⟨hmid', hyes⟩ := hyes.written hmid
    have ⟨hrest, hno⟩ := hno.written hmid'
    ⟨hrest, trivial, htest, hyes, hno⟩
  | .fn _ hps hbody, _, _, hts =>
    have ⟨hmid, hps⟩ := hps.written hts.tail
    have ⟨hrest, hbody⟩ := hbody.written hmid
    ⟨hrest, hps, hbody⟩
  | .array hes, _, _, hts =>
    have ⟨hrest, hes⟩ := hes.written hts
    ⟨hrest, trivial, hes⟩
  | .hash hkvs, _, _, hts =>
    have ⟨hrest, hkvs⟩ := hkvs.written hts
    ⟨hrest, trivial, hkvs⟩
  | .forIn hi _ hv _ hx hbody, _, _, hts =>
    have ⟨hrest, hbody⟩ := hbody.written hts.tail.tail.tail.tail.tail
    ⟨hrest, ⟨written_name hts.head hi, written_name hts.tail.tail.head hv,
      written_name hts.tail.tail.tail.tail.head hx⟩, hbody⟩

theorem SuffixesAt.written {p : Precedence} {left : Expr} {ts : List Token} {e : Expr}
    {rest : List Token} :
    SuffixesAt p left ts e rest → left.Every Expr.Written StmtsWritten → LexicalList ts →
      LexicalList rest ∧ e.Every Expr.Written StmtsWritten
  | .stop _, hleft, hts => ⟨hts, hleft⟩
  | .more _ _ hone hmore, hleft, hts =>
    have ⟨hmid, he⟩ := hone.written hleft hts.tail
    hmore.written he hmid

theorem SuffixAt.written {left : Expr} {s : Suffix} {t : Token} {ts : List Token} {e : Expr}
    {rest : List Token} :
    SuffixAt left s t ts e rest → left.Every Expr.Written StmtsWritten → LexicalList ts →
      LexicalList rest ∧ e.Every Expr.Written StmtsWritten
  | .binary hr, hleft, hts =>
    have ⟨hrest, hr⟩ := hr.written hts
    ⟨hrest, trivial, hleft, hr⟩
  | .call hes, hleft, hts =>
    have ⟨hrest, hes⟩ := hes.written hts
    ⟨hrest, trivial, hleft, hes⟩
  | .index hi _, hleft, hts =>
    have ⟨hrest, hi⟩ := hi.written hts
    ⟨hrest.tail, trivial, hleft, hi⟩
  | .assign he, hleft, hts =>
    have ⟨hrest, he⟩ := he.written hts
    ⟨hrest, hleft, he⟩

theorem ListAt.written {close : Kind} {ts : List Token} {es : List Expr} {rest : List Token} :
    ListAt close ts es rest → LexicalList ts →
      LexicalList rest ∧ everyExprs Expr.Written StmtsWritten es
  | .none _, hts => ⟨hts.tail, trivial⟩
  | .some h, hts => h.written hts

theorem ItemsAt.written {close : Kind} {ts : List Token} {es : List Expr} {rest : List Token} :
    ItemsAt close ts es rest → LexicalList ts →
      LexicalList rest ∧ everyExprs Expr.Written StmtsWritten es
  | .last he _, hts =>
    have ⟨hrest, he⟩ := he.written hts
    ⟨hrest.tail, he, trivial⟩
  | .more he _ hes, hts =>
    have ⟨hmid, he⟩ := he.written hts
    have ⟨hrest, hes⟩ := hes.written hmid.tail
    ⟨hrest, he, hes⟩

theorem PairsAt.written {ts : List Token} {kvs : List (Expr × Expr)} {rest : List Token} :
    PairsAt ts kvs rest → LexicalList ts →
      LexicalList rest ∧ everyPairs Expr.Written StmtsWritten kvs
  | .none _, hts => ⟨hts.tail, trivial⟩
  | .last hk _ hv _, hts =>
    have ⟨hmid, hk⟩ := hk.written hts
    have ⟨hrest, hv⟩ := hv.written hmid.tail
    ⟨hrest.tail, hk, hv, trivial⟩
  | .more hk _ hv _ hkvs, hts =>
    have ⟨hmid, hk⟩ := hk.written hts
    have ⟨hmid', hv⟩ := hv.written hmid.tail
    have ⟨hrest, hkvs⟩ := hkvs.written hmid'.tail
    ⟨hrest, hk, hv, hkvs⟩

theorem BlockAt.written {ts : List Token} {b : Block} {rest : List Token} :
    BlockAt ts b rest → LexicalList ts →
      LexicalList rest ∧ b.Every Expr.Written StmtsWritten
  | .mk _ hss, hts => hss.written hts.tail

theorem ElseAt.written {ts : List Token} {no : Option Block} {rest : List Token} :
    ElseAt ts no rest → LexicalList ts →
      LexicalList rest ∧ everyElse Expr.Written StmtsWritten no
  | .none _, hts => ⟨hts, trivial⟩
  | .some _ hb, hts => hb.written hts.tail

theorem StmtsAt.written {ts : List Token} {ss : List Stmt} {rest : List Token} :
    StmtsAt ts ss rest → LexicalList ts →
      LexicalList rest ∧ StmtsWritten ss ∧ everyStmts Expr.Written StmtsWritten ss
  | .close _, hts => ⟨hts.tail, nofun, trivial⟩
  | .finish, hts => ⟨hts, nofun, trivial⟩
  | .more hs hss, hts =>
    have ⟨hmid, hs, hse⟩ := hs.written hts
    have ⟨hrest, hss, hsse⟩ := hss.written hmid
    ⟨hrest, hss.cons hs, hse, hsse⟩

theorem StmtAt.written {ts : List Token} {s : Stmt} {rest : List Token} :
    StmtAt ts s rest → LexicalList ts →
      LexicalList rest ∧ s.Written ∧ s.Every Expr.Written StmtsWritten
  | .ended h _, hts =>
    have ⟨hrest, hs⟩ := h.written hts
    ⟨hrest.tail, hs⟩
  | .bare h _, hts => h.written hts

theorem BareStmtAt.written {ts : List Token} {s : Stmt} {rest : List Token} :
    BareStmtAt ts s rest → LexicalList ts →
      LexicalList rest ∧ s.Written ∧ s.Every Expr.Written StmtsWritten
  | .letName _ hx _ he, hts =>
    have ⟨hrest, he⟩ := he.written hts.tail.tail.tail
    ⟨hrest, written_name hts.tail.head hx, he⟩
  | .constName _ hx _ he, hts =>
    have ⟨hrest, he⟩ := he.written hts.tail.tail.tail
    ⟨hrest, written_name hts.tail.head hx, he⟩
  | .ret _ he, hts =>
    have ⟨hrest, he⟩ := he.written hts.tail
    ⟨hrest, trivial, he⟩
  | .expr he, hts =>
    have ⟨hrest, he⟩ := he.written hts
    ⟨hrest, trivial, he⟩

end

theorem ProgramAt.written {ts : List Token} {ss : List Stmt} (h : ProgramAt ts ss)
    (hts : LexicalList ts) : StmtsWritten ss ∧ everyStmts Expr.Written StmtsWritten ss := by
  induction h with
  | finish => exact ⟨nofun, trivial⟩
  | more hs _ ih =>
    obtain ⟨hrest, hs, hse⟩ := hs.written hts
    obtain ⟨hss, hsse⟩ := ih hrest
    exact ⟨hss.cons hs, hse, hsse⟩

end Scriptlet
