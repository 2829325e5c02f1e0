import Mathlib.Data.List.Nodup
import Scriptlet.Proofs.Joining.Braces

/-!
# What the braces of a source open

An opening brace starts a block or a hash. `opened` lists what the braces of a tree open, in the
order of the source.

**Lemma (`ProgramAt.opens`).** The braces stand among the tokens in this order, and what follows the
brace of a block derives its statements. So if no token comes twice, a brace opens one thing.
-/

namespace Scriptlet

/-- What a brace opens. -/
inductive Opened where
  | block (b : Block)
  | hash (brace : Token)

def Opened.brace : Opened → Token
  | block b => b.token
  | hash t => t

mutual

def Expr.opened : Expr → List Opened
  | .ident _ | .int _ _ | .str _ _ | .bool _ _ | .null _ => []
  | .unary _ _ e | .assign _ _ e => e.opened
  | .binary _ _ l r => l.opened ++ r.opened
  | .ifElse _ e yes no => e.opened ++ (yes.opened ++ openedElse no)
  | .fn _ _ b | .forIn _ _ _ _ b => b.opened
  | .call _ f es => f.opened ++ openedExprs es
  | .array _ es => openedExprs es
  | .hash t kvs => .hash t :: openedPairs kvs
  | .index _ e i => e.opened ++ i.opened

def Stmt.opened : Stmt → List Opened
  | .declare _ _ _ e | .ret _ e | .expr _ e => e.opened
  | .block b => b.opened

def Block.opened : Block → List Opened
  | .mk t ss => .block (.mk t ss) :: openedStmts ss

def openedElse : Option Block → List Opened
  | none => []
  | some b => b.opened

def openedExprs : List Expr → List Opened
  | [] => []
  | e :: es => e.opened ++ openedExprs es

def openedPairs : List (Expr × Expr) → List Opened
  | [] => []
  | (k, v) :: kvs => k.opened ++ (v.opened ++ openedPairs kvs)

def openedStmts : List Stmt → List Opened
  | [] => []
  | s :: ss => s.opened ++ openedStmts ss

end

/-- The braces of `os` stand among the tokens from `ts` up to `rest`, and every block of `os` is
derived by what follows its brace. -/
structure Openings (ts rest : List Token) (os : List Opened) : Prop where
  used : ∃ used, ts = used ++ rest ∧ (os.map Opened.brace).Sublist used
  derived : ∀ b, .block b ∈ os → ∃ us rest', b.token :: us <:+ ts ∧ StmtsAt us b.stmts rest'

namespace Openings

variable {t : Token} {ts mid rest : List Token} {os os' : List Opened}

theorem refl (ts : List Token) : Openings ts ts [] := ⟨⟨[], rfl, .slnil⟩, by simp⟩

theorem suffix (h : Openings ts rest os) : rest <:+ ts := by
  obtain ⟨used, rfl, -⟩ := h.used
  exact List.suffix_append _ _

theorem trans (h : Openings ts mid os) (h' : Openings mid rest os') :
    Openings ts rest (os ++ os') where
  used := by
    obtain ⟨used, rfl, hsub⟩ := h.used
    obtain ⟨used', rfl, hsub'⟩ := h'.used
    refine ⟨used ++ used', (List.append_assoc ..).symm, ?_⟩
    rw [List.map_append]
    exact hsub.append hsub'
  derived b hb := by
    rcases List.mem_append.1 hb with hb | hb
    · exact h.derived b hb
    · obtain ⟨us, rest', hsuffix, hss⟩ := h'.derived b hb
      exact ⟨us, rest', hsuffix.trans h.suffix, hss⟩

/-- A token that opens nothing. -/
theorem cons (h : Openings ts rest os) : Openings (t :: ts) rest os where
  used := by
    obtain ⟨used, rfl, hsub⟩ := h.used
    exact ⟨t :: used, rfl, hsub.cons t⟩
  derived b hb := by
    obtain ⟨us, rest', hsuffix, hss⟩ := h.derived b hb
    exact ⟨us, rest', hsuffix.trans (List.suffix_cons t ts), hss⟩

theorem close (h : Openings ts (t :: rest) os) : Openings ts rest os := by
  have hone : Openings (t :: rest) rest [] := (refl rest).cons
  simpa using h.trans hone

theorem hash (h : Openings ts rest os) : Openings (t :: ts) rest (.hash t :: os) where
  used := by
    obtain ⟨used, rfl, hsub⟩ := h.used
    exact ⟨t :: used, rfl, hsub.cons_cons t⟩
  derived b hb := by
    rcases List.mem_cons.1 hb with hb | hb
    · cases hb
    · exact h.cons.derived b hb

theorem block {ss : List Stmt} (h : Openings ts rest os) (hss : StmtsAt ts ss rest) :
    Openings (t :: ts) rest (.block (.mk t ss) :: os) where
  used := by
    obtain ⟨used, rfl, hsub⟩ := h.used
    exact ⟨t :: used, rfl, hsub.cons_cons t⟩
  derived b hb := by
    rcases List.mem_cons.1 hb with hb | hb
    · cases hb
      exact ⟨ts, rest, List.suffix_rfl, hss⟩
    · exact h.cons.derived b hb

/-- If no token comes twice, a brace opens one thing. -/
theorem unique (h : Openings ts rest os) (hts : ts.Nodup) {o o' : Opened} (ho : o ∈ os)
    (ho' : o' ∈ os) (heq : o.brace = o'.brace) : o = o' := by
  obtain ⟨used, rfl, hsub⟩ := h.used
  have hnodup := hsub.nodup (List.nodup_append.1 hts).1
  exact List.inj_on_of_nodup_map hnodup ho ho' heq

/-- What follows the brace of a block derives its statements. -/
theorem stmtsAt {us : List Token} {ss : List Stmt} (h : Openings (ts ++ t :: us) rest os)
    (hts : (ts ++ t :: us).Nodup) (hb : .block (.mk t ss) ∈ os) : ∃ rest', StmtsAt us ss rest' := by
  obtain ⟨us', rest', ⟨ts', heq⟩, hss⟩ := h.derived _ hb
  obtain ⟨-, hcons, hdisjoint⟩ := List.nodup_append'.1 hts
  obtain ⟨-, -, rfl⟩ := (List.append_cons_inj_of_notMem (fun hmem =>
    hdisjoint hmem List.mem_cons_self) (List.nodup_cons.1 hcons).1).1 heq.symm
  exact ⟨rest', hss⟩

end Openings

/-! ## Derivations -/

theorem NamesAt.opens {ts rest : List Token} {xs : List Ident} (h : NamesAt ts xs rest) :
    Openings ts rest [] := by
  induction h with
  | last => exact (Openings.refl _).cons.cons
  | more _ _ _ ih => exact ih.cons.cons

theorem ParamsAt.opens {ts rest : List Token} {xs : List Ident} (h : ParamsAt ts xs rest) :
    Openings ts rest [] := by
  cases h with
  | none => exact (Openings.refl _).cons
  | some h => exact h.opens

/-- What a suffix is added to is part of what it makes. -/
theorem SuffixAt.subset_opened {left e : Expr} {s : Suffix} {t : Token} {ts rest : List Token}
    (h : SuffixAt left s t ts e rest) : left.opened ⊆ e.opened := by
  cases h with
  | binary _ | call _ | index _ _ => exact List.subset_append_left _ _
  | assign _ => exact List.nil_subset _

mutual

theorem ExprAt.opens {p : Precedence} {ts : List Token} {e : Expr} {rest : List Token} :
    ExprAt p ts e rest → Openings ts rest e.opened
  | .mk hhead hs => hs.opens hhead.opens

theorem HeadAt.opens {k : Kind} {t : Token} {ts : List Token} {e : Expr} {rest : List Token} :
    HeadAt k t ts e rest → Openings (t :: ts) rest e.opened
  | .name | .int _ | .str | .yes | .no | .null => (Openings.refl _).cons
  | .not he | .neg he => he.opens.cons
  | .group he _ => he.opens.close.cons
  | .ifElse htest hyes hno => (htest.opens.trans (hyes.opens.trans hno.opens)).cons
  | .fn _ hps hbody => (hps.opens.trans hbody.opens).cons.cons
  | .array hes => hes.opens.cons
  | .hash hkvs => hkvs.opens.hash
  | .forIn _ _ _ _ _ hbody => hbody.opens.cons.cons.cons.cons.cons.cons

/-- The suffixes open more than `left` has opened. -/
theorem SuffixesAt.opens {p : Precedence} {left : Expr} {ts₀ ts : List Token} {e : Expr}
    {rest : List Token} :
    SuffixesAt p left ts e rest → Openings ts₀ ts left.opened → Openings ts₀ rest e.opened
  | .stop _, h => h
  | .more _ _ hone hmore, h => hmore.opens (hone.opens h)

theorem SuffixesAt.subset_opened {p : Precedence} {left : Expr} {ts : List Token} {e : Expr}
    {rest : List Token} : SuffixesAt p left ts e rest → left.opened ⊆ e.opened
  | .stop _ => List.Subset.refl _
  | .more _ _ hone hmore => List.Subset.trans hone.subset_opened hmore.subset_opened

theorem SuffixAt.opens {left : Expr} {s : Suffix} {t : Token} {ts₀ ts : List Token} {e : Expr}
    {rest : List Token} :
    SuffixAt left s t ts e rest → Openings ts₀ (t :: ts) left.opened → Openings ts₀ rest e.opened
  | .binary hr, h => h.trans hr.opens.cons
  | .call hes, h => h.trans hes.opens.cons
  | .index hi _, h => h.trans hi.opens.close.cons
  | .assign he, h => h.trans he.opens.cons

theorem ListAt.opens {close : Kind} {ts : List Token} {es : List Expr} {rest : List Token} :
    ListAt close ts es rest → Openings ts rest (openedExprs es)
  | .none _ => (Openings.refl _).cons
  | .some hes => hes.opens

theorem ItemsAt.opens {close : Kind} {ts : List Token} {es : List Expr} {rest : List Token} :
    ItemsAt close ts es rest → Openings ts rest (openedExprs es)
  | .last he _ => he.opens.close.trans (.refl _)
  | .more he _ hes => he.opens.close.trans hes.opens

theorem PairsAt.opens {ts : List Token} {kvs : List (Expr × Expr)} {rest : List Token} :
    PairsAt ts kvs rest → Openings ts rest (openedPairs kvs)
  | .none _ => (Openings.refl _).cons
  | .last hk _ hv _ => hk.opens.close.trans (hv.opens.close.trans (.refl _))
  | .more hk _ hv _ hkvs => hk.opens.close.trans (hv.opens.close.trans hkvs.opens)

theorem BlockAt.opens {ts : List Token} {b : Block} {rest : List Token} :
    BlockAt ts b rest → Openings ts rest b.opened
  | .mk _ hss => hss.opens.block hss

theorem ElseAt.opens {ts : List Token} {no : Option Block} {rest : List Token} :
    ElseAt ts no rest → Openings ts rest (openedElse no)
  | .none _ => .refl _
  | .some _ hb => hb.opens.cons

theorem StmtsAt.opens {ts : List Token} {ss : List Stmt} {rest : List Token} :
    StmtsAt ts ss rest → Openings ts rest (openedStmts ss)
  | .close _ => (Openings.refl _).cons
  | .finish => .refl _
  | .more hs hss => hs.opens.trans hss.opens

theorem StmtAt.opens {ts : List Token} {s : Stmt} {rest : List Token} :
    StmtAt ts s rest → Openings ts rest s.opened
  | .ended hs _ => hs.opens.close
  | .bare hs _ => hs.opens

theorem BareStmtAt.opens {ts : List Token} {s : Stmt} {rest : List Token} :
    BareStmtAt ts s rest → Openings ts rest s.opened
  | .letName _ _ _ he | .constName _ _ _ he => he.opens.cons.cons.cons
  | .ret _ he => he.opens.cons
  | .expr he => he.opens

end

theorem ProgramAt.opens {ts : List Token} {ss : List Stmt} (h : ProgramAt ts ss) :
    Openings ts [] (openedStmts ss) := by
  induction h with
  | finish => exact .refl _
  | more hs _ ih => exact hs.opens.trans ih

end Scriptlet
