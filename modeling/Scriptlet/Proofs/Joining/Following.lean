import Scriptlet.Proofs.Joining.Braces

/-!
# What may follow a derivation

A derivation that leaves something looks at no token behind what it leaves, so anything may follow
(`ExprAt.append` and so on). One that leaves nothing has seen the end of the source. Had a closing
brace come instead, it would have done the same, unless it took the end of the source for the end
of a block. So a closing brace may follow if no brace is left open, and whatever comes behind it.

**Theorem (`ProgramAt.append`).** Statements up to a semicolon, in which no brace is left open, may
be followed by any statements.

**Theorem (`ProgramAt.stmtsAt`).** Statements in which no brace is left open make a block.
-/

namespace Scriptlet

variable {us : List Token}

/-- What uses `ts` up to `rest`, starting with `d` braces open, may be followed by `us`. -/
def Joins (us : List Token) (d : Nat) (ts rest : List Token) : Prop :=
  rest ≠ [] ∨ nextKind us = .rbrace ∧ surplus rest = surplus ts + d

namespace Joins

variable {d : Nat} {k : Kind} {t : Token} {ts mid rest : List Token}

theorem cons (us : List Token) (d : Nat) (ts : List Token) (t : Token) (rest : List Token) :
    Joins us d ts (t :: rest) := .inl (List.cons_ne_nil t rest)

/-- The first part of a derivation may be followed by whatever may follow the whole. -/
theorem left (h : Joins us d ts rest) (h₁ : Balances 0 ts mid) (h₂ : Balances d mid rest) :
    Joins us 0 ts mid := by
  rcases h with hrest | ⟨hus, hsurplus⟩
  · exact .inl fun hmid => hrest (List.eq_nil_of_suffix_nil (hmid ▸ h₂.suffix))
  · have := h₁.balance
    have := h₂.balance
    exact .inr ⟨hus, by omega⟩

/-- So may the second part. -/
theorem right (h : Joins us d ts rest) (h₁ : Balances 0 ts mid) (h₂ : Balances d mid rest) :
    Joins us d mid rest := by
  rcases h with hrest | ⟨hus, hsurplus⟩
  · exact .inl hrest
  · have := h₁.balance
    have := h₂.balance
    exact .inr ⟨hus, by omega⟩

/-- A token that is not a brace leaves the count as it is. -/
theorem tail (h : Joins us d (t :: ts) rest) (ht : t.kind = k) (hk : k ≠ .lbrace ∧ k ≠ .rbrace) :
    Joins us d ts rest := by
  refine h.imp_right fun ⟨hus, hsurplus⟩ => ⟨hus, ?_⟩
  rw [hsurplus, surplus_cons, ht, if_neg hk.1, if_neg hk.2]
  omega

theorem opened (h : Joins us 0 (t :: ts) rest) (ht : t.kind = .lbrace) : Joins us 1 ts rest := by
  refine h.imp_right fun ⟨hus, hsurplus⟩ => ⟨hus, ?_⟩
  rw [hsurplus, surplus_cons, ht]
  simp

/-- What stands next is what stood next, or a closing brace in place of the end. -/
theorem front (h : Joins us d ts rest) :
    nextKind (rest ++ us) = nextKind rest ∨ nextKind (rest ++ us) = .rbrace := by
  obtain _ | ⟨t, rest⟩ := rest
  · exact .inr (h.resolve_left (absurd rfl)).1
  · exact .inl rfl

theorem front_ne (h : Joins us d ts rest) (hrest : nextKind rest ≠ k) (hk : k ≠ .rbrace) :
    nextKind (rest ++ us) ≠ k := by
  rcases h.front with hfront | hfront
  · rwa [hfront]
  · rw [hfront]
    exact hk.symm

end Joins

theorem Suffix.not_brace_of_ofKind {k : Kind} {s : Suffix} (h : Suffix.ofKind k = some s) :
    k ≠ .lbrace ∧ k ≠ .rbrace := by
  constructor <;> rintro rfl <;> cases h

theorem NamesAt.append {ts rest : List Token} {xs : List Ident} (h : NamesAt ts xs rest) :
    NamesAt (ts ++ us) xs (rest ++ us) := by
  induction h with
  | last hx hc => exact .last hx hc
  | more hx hc _ ih => exact .more hx hc ih

theorem ParamsAt.append {ts rest : List Token} {xs : List Ident} (h : ParamsAt ts xs rest) :
    ParamsAt (ts ++ us) xs (rest ++ us) := by
  cases h with
  | none hc => exact .none hc
  | some h => exact .some h.append

mutual

theorem ExprAt.append {p : Precedence} {ts : List Token} {e : Expr} {rest : List Token} :
    ExprAt p ts e rest → Joins us 0 ts rest → ExprAt p (ts ++ us) e (rest ++ us)
  | .mk hhead hs, h =>
    have h₁ := (hhead.spends rfl).toBalances
    .mk (hhead.append rfl (h.left h₁ hs.spends.toBalances))
      (hs.append (h.right h₁ hs.spends.toBalances))

theorem HeadAt.append {k : Kind} {t : Token} {ts : List Token} {e : Expr} {rest : List Token} :
    HeadAt k t ts e rest → t.kind = k → Joins us 0 (t :: ts) rest →
      HeadAt k t (ts ++ us) e (rest ++ us)
  | .name, _, _ => .name
  | .int hle, _, _ => .int hle
  | .str, _, _ => .str
  | .yes, _, _ => .yes
  | .no, _, _ => .no
  | .null, _, _ => .null
  | .not he, ht, h => .not (he.append (h.tail ht (by decide)))
  | .neg he, ht, h => .neg (he.append (h.tail ht (by decide)))
  | .group he hc, _, _ => .group (he.append (.cons ..)) hc
  | .ifElse htest hyes hno, ht, h =>
    have h := h.tail ht (by decide)
    have h₂ := hyes.spends.trans hno.spends
    have hmid := h.right htest.spends.toBalances h₂.toBalances
    .ifElse (htest.append (h.left htest.spends.toBalances h₂.toBalances))
      (hyes.append (hmid.left hyes.spends.toBalances hno.spends.toBalances))
      (hno.append (hmid.right hyes.spends.toBalances hno.spends.toBalances))
  | .fn hc hps hbody, ht, h =>
    have h := (h.tail ht (by decide)).tail hc (by decide)
    .fn hc hps.append (hbody.append (h.right hps.spends.toBalances hbody.spends.toBalances))
  | .array hes, _, _ => .array hes.append
  | .hash hkvs, _, _ => .hash hkvs.append
  | .forIn hi hc hv hk hx hbody, ht, h =>
    have h := ((h.tail ht (by decide)).tail hi (by decide)).tail hc (by decide)
    have h := ((h.tail hv (by decide)).tail hk (by decide)).tail hx (by decide)
    .forIn hi hc hv hk hx (hbody.append h)

theorem SuffixesAt.append {p : Precedence} {left : Expr} {ts : List Token} {e : Expr}
    {rest : List Token} :
    SuffixesAt p left ts e rest → Joins us 0 ts rest → SuffixesAt p left (ts ++ us) e (rest ++ us)
  | .stop hno, h => .stop fun s hs =>
    match h.front with
    | .inl hfront => hno s (hfront ▸ hs)
    | .inr hfront => absurd rfl (Suffix.not_brace_of_ofKind (hfront ▸ hs)).2
  | .more hs hp hone hmore, h =>
    have h₁ := (hone.spends (Suffix.goesOn_of_ofKind hs)).toBalances
    .more hs hp (hone.append ((h.left h₁ hmore.spends.toBalances).tail rfl
      (Suffix.not_brace_of_ofKind hs))) (hmore.append (h.right h₁ hmore.spends.toBalances))

theorem SuffixAt.append {left : Expr} {s : Suffix} {t : Token} {ts : List Token} {e : Expr}
    {rest : List Token} :
    SuffixAt left s t ts e rest → Joins us 0 ts rest → SuffixAt left s t (ts ++ us) e (rest ++ us)
  | .binary hr, h => .binary (hr.append h)
  | .call hes, _ => .call hes.append
  | .index hi hc, _ => .index (hi.append (.cons ..)) hc
  | .assign he, h => .assign (he.append h)

theorem ListAt.append {close : Kind} {ts : List Token} {es : List Expr} {rest : List Token} :
    ListAt close ts es rest → ListAt close (ts ++ us) es (rest ++ us)
  | .none hc => .none hc
  | .some hes => .some hes.append

theorem ItemsAt.append {close : Kind} {ts : List Token} {es : List Expr} {rest : List Token} :
    ItemsAt close ts es rest → ItemsAt close (ts ++ us) es (rest ++ us)
  | .last he hc => .last (he.append (.cons ..)) hc
  | .more he hc hes => .more (he.append (.cons ..)) hc hes.append

theorem PairsAt.append {ts : List Token} {kvs : List (Expr × Expr)} {rest : List Token} :
    PairsAt ts kvs rest → PairsAt (ts ++ us) kvs (rest ++ us)
  | .none hc => .none hc
  | .last hk hc hv hb => .last (hk.append (.cons ..)) hc (hv.append (.cons ..)) hb
  | .more hk hc hv hd hkvs => .more (hk.append (.cons ..)) hc (hv.append (.cons ..)) hd hkvs.append

theorem BlockAt.append {ts : List Token} {b : Block} {rest : List Token} :
    BlockAt ts b rest → Joins us 0 ts rest → BlockAt (ts ++ us) b (rest ++ us)
  | .mk ht hss, h => .mk ht (hss.append (h.opened ht))

theorem ElseAt.append {ts : List Token} {no : Option Block} {rest : List Token} :
    ElseAt ts no rest → Joins us 0 ts rest → ElseAt (ts ++ us) no (rest ++ us)
  | .none hne, h => .none (h.front_ne hne (by decide))
  | .some ht hb, h => .some ht (hb.append (h.tail ht (by decide)))

theorem StmtsAt.append {ts : List Token} {ss : List Stmt} {rest : List Token} :
    StmtsAt ts ss rest → Joins us 1 ts rest → StmtsAt (ts ++ us) ss (rest ++ us)
  | .close hc, _ => .close hc
  | .finish, h => absurd (h.resolve_left (absurd rfl)).2 (by decide)
  | .more hs hss, h =>
    .more (hs.append (h.left hs.balances hss.spends.toBalances))
      (hss.append (h.right hs.balances hss.spends.toBalances))

theorem StmtAt.append {ts : List Token} {s : Stmt} {rest : List Token} :
    StmtAt ts s rest → Joins us 0 ts rest → StmtAt (ts ++ us) s (rest ++ us)
  | .ended hs hc, _ => .ended (hs.append (.cons ..)) hc
  | .bare hs hne, h => .bare (hs.append h) (h.front_ne hne (by decide))

theorem BareStmtAt.append {ts : List Token} {s : Stmt} {rest : List Token} :
    BareStmtAt ts s rest → Joins us 0 ts rest → BareStmtAt (ts ++ us) s (rest ++ us)
  | .letName ht hx ha he, h =>
    .letName ht hx ha
      (he.append (((h.tail ht (by decide)).tail hx (by decide)).tail ha (by decide)))
  | .constName ht hx ha he, h =>
    .constName ht hx ha
      (he.append (((h.tail ht (by decide)).tail hx (by decide)).tail ha (by decide)))
  | .ret ht he, h => .ret ht (he.append (h.tail ht (by decide)))
  | .expr he, h => .expr (he.append h)

end

/-! ## Closed blocks -/

/-- If the last of these statements closes their block, anything may follow. -/
theorem StmtsAt.append_of_closed {ts rest : List Token} {ss : List Stmt} (h : StmtsAt ts ss rest)
    (hrest : rest = []) (hclosed : surplus ts = -1) (us : List Token) :
    StmtsAt (ts ++ us) ss us := by
  subst hrest
  cases h with
  | close hc => exact .close hc
  | finish => exact absurd hclosed (by decide)
  | @more _ mid _ s ss hs hss =>
    have hbalance := hs.balances.balance
    have hbalance' := hss.spends.balance
    rw [surplus_nil] at hbalance'
    have hmid : surplus mid = -1 := by omega
    have hne : mid ≠ [] := fun hnil => absurd (hnil ▸ hmid) (by decide)
    exact .more (hs.append (.inl hne)) (hss.append_of_closed rfl hmid us)

/-- A block in which no brace is left open may be followed by anything. -/
theorem BlockAt.append_of_closed {ts : List Token} {b : Block} (h : BlockAt ts b [])
    (hclosed : surplus ts = 0) (us : List Token) : BlockAt (ts ++ us) b us := by
  cases h with
  | @mk t ts _ ss ht hss =>
    rw [surplus_cons, ht, if_pos rfl, if_neg (by decide)] at hclosed
    exact .mk ht (hss.append_of_closed rfl (by omega) us)

/-! ## Programs -/

/-- A program opens at least as many braces as it closes. -/
theorem ProgramAt.surplus_nonneg {ts : List Token} {ss : List Stmt} (h : ProgramAt ts ss) :
    0 ≤ surplus ts := by
  induction h with
  | finish => exact Int.le_refl 0
  | more hs _ ih =>
    have := hs.balances.balance
    omega

/-- If a program leaves no brace open, neither does what comes after its first statement. -/
theorem ProgramAt.surplus_rest {ts rest : List Token} {s : Stmt} {ss : List Stmt}
    (hs : StmtAt ts s rest) (hss : ProgramAt rest ss) (hclosed : surplus ts = 0) :
    surplus rest = 0 := by
  have := hs.balances.balance
  have := hss.surplus_nonneg
  omega

/-- A statement at the end of a source ends at its semicolon if no brace is left open. -/
theorem StmtAt.append_of_ends {ts rest : List Token} {s : Stmt} (h : StmtAt ts s rest)
    (hend : EndsStatement ts) (hclosed : surplus ts = 0) (us : List Token) :
    StmtAt (ts ++ us) s (rest ++ us) := by
  cases h with
  | ended hs hc => exact .ended (hs.append (.cons ..)) hc
  | bare hs hne =>
    have hrest : rest ≠ [] := fun hnil => by
      have := hs.spends.ends hnil hend
      omega
    exact (StmtAt.bare hs hne).append (.inl hrest)

/-- The statements are derived one after the other, up to `rest`. -/
inductive InTurn : List Token → List Stmt → List Token → Prop
  | refl (ts : List Token) : InTurn ts [] ts
  | more {ts mid rest : List Token} {s : Stmt} {ss : List Stmt} :
      StmtAt ts s mid → InTurn mid ss rest → InTurn ts (s :: ss) rest

/-- Statements up to a semicolon, in which no brace is left open, may be followed by anything. -/
theorem ProgramAt.inTurn {ts : List Token} {ss : List Stmt} (h : ProgramAt ts ss)
    (hend : ts = [] ∨ EndsStatement ts) (hclosed : surplus ts = 0) (us : List Token) :
    InTurn (ts ++ us) ss us := by
  induction h with
  | finish => exact .refl us
  | @more ts rest s ss hs hss ih =>
    have hne : ts ≠ [] := by
      rintro rfl
      exact absurd rfl (hs.nextKind_ne (by nofun) rfl)
    have hrest : rest = [] ∨ EndsStatement rest :=
      Decidable.or_iff_not_imp_left.2 ((hend.resolve_left hne).of_suffix hs.balances.suffix)
    exact .more (hs.append_of_ends (hend.resolve_left hne) hclosed us)
      (ih hrest (hss.surplus_rest hs hclosed))

theorem InTurn.programAt {ts us : List Token} {ss ss' : List Stmt} (h : InTurn ts ss us)
    (h' : ProgramAt us ss') : ProgramAt ts (ss ++ ss') := by
  induction h with
  | refl _ => exact h'
  | more hs _ ih => exact .more hs (ih h')

theorem InTurn.stmtsAt {ts us rest : List Token} {ss ss' : List Stmt} (h : InTurn ts ss us)
    (h' : StmtsAt us ss' rest) : StmtsAt ts (ss ++ ss') rest := by
  induction h with
  | refl _ => exact h'
  | more hs _ ih => exact .more hs (ih h')

theorem ProgramAt.append {ts us : List Token} {ss ss' : List Stmt} (h : ProgramAt ts ss)
    (hend : EndsStatement ts) (hclosed : surplus ts = 0) (h' : ProgramAt us ss') :
    ProgramAt (ts ++ us) (ss ++ ss') := (h.inTurn (.inr hend) hclosed us).programAt h'

/-- The statements of a program in braces are those of a block. -/
theorem ProgramAt.stmtsAt {ts : List Token} {ss : List Stmt} (h : ProgramAt ts ss)
    (hclosed : surplus ts = 0) {z : Token} (hz : z.kind = .rbrace) (us : List Token) :
    StmtsAt (ts ++ z :: us) ss us := by
  induction h with
  | finish => exact .close hz
  | @more ts rest s ss hs hss ih =>
    have hrest := hss.surplus_rest hs hclosed
    have hjoins : Joins (z :: us) 0 ts rest := .inr ⟨hz, by rw [hrest, hclosed]; rfl⟩
    exact .more (hs.append hjoins) (ih hrest)

end Scriptlet
