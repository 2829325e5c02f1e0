import Scriptlet.Proofs.Grammar
import Scriptlet.Proofs.Joining.Tokens

/-!
# Braces left open

**Lemma (`BareStmtAt.spends`).** A statement that goes on to the end of the source, where the last
token is a semicolon, leaves a brace open.

The semicolon is not the end of the statement itself, so it is in a block that is still open there.
To follow the open braces through a derivation, `Balances d ts rest` says that a derivation which
starts with `d` braces open and uses `ts` up to `rest` closes none but open braces.
`Spends d ts rest` says in addition that it leaves one open in the case at hand. This goes from each
part of a derivation to the next (`Spends.trans`), and from the statements of a block to the block
(`Spends.after`).
-/

namespace Scriptlet

/-- How many more opening than closing braces there are. -/
def surplus (ts : List Token) : Int :=
  ts.countP (fun t => t.kind = .lbrace) - ts.countP fun t => t.kind = .rbrace

@[simp] theorem surplus_nil : surplus [] = 0 := rfl

theorem surplus_cons (t : Token) (ts : List Token) :
    surplus (t :: ts) = surplus ts +
      (if t.kind = .lbrace then 1 else 0) - if t.kind = .rbrace then 1 else 0 := by
  simp only [surplus, List.countP_cons, decide_eq_true_eq]
  split <;> split <;> simp_all <;> omega

/-- Tokens of this kind close no block and no statement. -/
def Kind.goesOn (k : Kind) : Bool := k ≠ .rbrace && k ≠ .semicolon

/-- With `d` braces open, the tokens `ts` are used up to `rest`, and no brace is closed that is not
open. -/
structure Balances (d : Nat) (ts rest : List Token) : Prop where
  suffix : rest <:+ ts
  balance : surplus rest ≤ surplus ts + d

theorem Balances.trans {d : Nat} {ts mid rest : List Token} (h : Balances 0 ts mid)
    (h' : Balances d mid rest) : Balances d ts rest where
  suffix := h'.suffix.trans h.suffix
  balance := by
    have := h.balance
    have := h'.balance
    omega

theorem Balances.semicolon {t : Token} {ts rest : List Token} (h : Balances 0 ts (t :: rest))
    (ht : t.kind = .semicolon) : Balances 0 ts rest where
  suffix := (List.suffix_cons t rest).trans h.suffix
  balance := by
    have hbalance := h.balance
    rw [surplus_cons, ht] at hbalance
    simpa using hbalance

/-- In addition, if the tokens are used up although a semicolon is the last of them, a brace stays
open. -/
structure Spends (d : Nat) (ts rest : List Token) : Prop extends Balances d ts rest where
  ends : rest = [] → EndsStatement ts → 0 < surplus ts + d

namespace Spends

variable {d : Nat} {t : Token} {k : Kind} {ts mid rest : List Token}

theorem refl (ts : List Token) : Spends 0 ts ts where
  suffix := List.suffix_rfl
  balance := by simp
  ends hnil hend := absurd (hnil ▸ hend) not_endsStatement_nil

theorem trans (h : Spends 0 ts mid) (h' : Spends d mid rest) : Spends d ts rest where
  toBalances := h.toBalances.trans h'.toBalances
  ends hrest hend := by
    have := h.balance
    by_cases hmid : mid = []
    · -- The first part has used up the tokens, so it has left a brace open already.
      have := h.ends hmid hend
      omega
    · have := h'.ends hrest (hend.of_suffix h.suffix hmid)
      omega

/-- Inside a block, which a semicolon does not end. -/
theorem after (h : Balances 0 ts mid) (h' : Spends 1 mid rest) : Spends 1 ts rest where
  toBalances := h.trans h'.toBalances
  ends hrest hend := by
    have hbalance := h.balance
    by_cases hmid : mid = []
    · rw [hmid, surplus_nil] at hbalance
      omega
    · have := h'.ends hrest (hend.of_suffix h.suffix hmid)
      omega

theorem token (ht : t.kind = k) (hk : k.goesOn) : Spends 0 (t :: ts) ts := by
  obtain ⟨hbrace, hsemi⟩ : t.kind ≠ .rbrace ∧ t.kind ≠ .semicolon := by
    rw [ht]
    simpa [Kind.goesOn] using hk
  refine ⟨⟨List.suffix_cons t ts, ?_⟩, fun hnil hend => ?_⟩
  · rw [surplus_cons, if_neg hbrace]
    split <;> omega
  · rw [hnil, endsStatement_singleton] at hend
    exact absurd hend hsemi

theorem cons (h : Spends d ts rest) (ht : t.kind = k) (hk : k.goesOn) : Spends d (t :: ts) rest :=
  (token ht hk).trans h

/-- An opening brace and what it opens. -/
theorem opened (ht : t.kind = .lbrace) (h : Spends 1 ts rest) : Spends 0 (t :: ts) rest := by
  have hsurplus : surplus (t :: ts) = surplus ts + 1 := by rw [surplus_cons, ht]; simp
  refine ⟨⟨h.suffix.trans (List.suffix_cons t ts), ?_⟩, fun hrest hend => ?_⟩
  · have := h.balance
    omega
  · by_cases hts : ts = []
    · rw [hts, endsStatement_singleton, ht] at hend
      cases hend
    · have := h.ends hrest (hend.of_suffix (List.suffix_cons t ts) hts)
      omega

theorem close (ht : t.kind = .rbrace) : Spends 1 (t :: rest) rest := by
  have hsurplus : surplus (t :: rest) = surplus rest - 1 := by rw [surplus_cons, ht]; simp
  refine ⟨⟨List.suffix_cons t rest, by omega⟩, fun hrest hend => ?_⟩
  rw [hrest, endsStatement_singleton, ht] at hend
  cases hend

/-- The end of the source, in front of which a block is still open. -/
theorem finish : Spends 1 [] [] := ⟨⟨List.suffix_rfl, by simp⟩, by simp⟩

end Spends

/-! ## Derivations -/

theorem NamesAt.spends {ts rest : List Token} {xs : List Ident} (h : NamesAt ts xs rest) :
    Spends 0 ts rest := by
  induction h with
  | last hx hc => exact (Spends.token hc rfl).cons hx rfl
  | more hx hc _ ih => exact (ih.cons hc rfl).cons hx rfl

theorem ParamsAt.spends {ts rest : List Token} {xs : List Ident} (h : ParamsAt ts xs rest) :
    Spends 0 ts rest := by
  cases h with
  | none hc => exact .token hc rfl
  | some h => exact h.spends

theorem Suffix.goesOn_of_ofKind {k : Kind} {s : Suffix} (h : Suffix.ofKind k = some s) :
    k.goesOn := by
  cases k <;> first | rfl | cases h

mutual

theorem ExprAt.spends {p : Precedence} {ts : List Token} {e : Expr} {rest : List Token} :
    ExprAt p ts e rest → Spends 0 ts rest
  | .mk hhead hs => (hhead.spends rfl).trans hs.spends

theorem HeadAt.spends {k : Kind} {t : Token} {ts : List Token} {e : Expr} {rest : List Token} :
    HeadAt k t ts e rest → t.kind = k → Spends 0 (t :: ts) rest
  | .name, ht | .int _, ht | .str, ht | .yes, ht | .no, ht | .null, ht => .token ht rfl
  | .not he, ht | .neg he, ht => he.spends.cons ht rfl
  | .group he hc, ht => (he.spends.trans (.token hc rfl)).cons ht rfl
  | .ifElse htest hyes hno, ht =>
    (htest.spends.trans (hyes.spends.trans hno.spends)).cons ht rfl
  | .fn hc hps hbody, ht => ((hps.spends.trans hbody.spends).cons hc rfl).cons ht rfl
  | .array hes, ht => (hes.spends rfl).cons ht rfl
  | .hash hkvs, ht => .opened ht hkvs.spends
  | .forIn hi hc hv hk hx hbody, ht =>
    (((((hbody.spends.cons hx rfl).cons hk rfl).cons hv rfl).cons hc rfl).cons hi rfl).cons ht rfl

theorem SuffixesAt.spends {p : Precedence} {left : Expr} {ts : List Token} {e : Expr}
    {rest : List Token} : SuffixesAt p left ts e rest → Spends 0 ts rest
  | .stop _ => .refl _
  | .more hs _ hone hmore => (hone.spends (Suffix.goesOn_of_ofKind hs)).trans hmore.spends

theorem SuffixAt.spends {left : Expr} {s : Suffix} {t : Token} {ts : List Token} {e : Expr}
    {rest : List Token} : SuffixAt left s t ts e rest → t.kind.goesOn → Spends 0 (t :: ts) rest
  | .binary hr, ht => hr.spends.cons rfl ht
  | .call hes, ht => (hes.spends rfl).cons rfl ht
  | .index hi hc, ht => (hi.spends.trans (.token hc rfl)).cons rfl ht
  | .assign he, ht => he.spends.cons rfl ht

theorem ListAt.spends {close : Kind} {ts : List Token} {es : List Expr} {rest : List Token} :
    ListAt close ts es rest → close.goesOn → Spends 0 ts rest
  | .none hc, hclose => .token hc hclose
  | .some h, hclose => h.spends hclose

theorem ItemsAt.spends {close : Kind} {ts : List Token} {es : List Expr} {rest : List Token} :
    ItemsAt close ts es rest → close.goesOn → Spends 0 ts rest
  | .last he hc, hclose => he.spends.trans (.token hc hclose)
  | .more he hc hes, hclose => he.spends.trans ((hes.spends hclose).cons hc rfl)

theorem PairsAt.spends {ts : List Token} {kvs : List (Expr × Expr)} {rest : List Token} :
    PairsAt ts kvs rest → Spends 1 ts rest
  | .none hc => .close hc
  | .last hk hc hv hb => hk.spends.trans ((hv.spends.trans (.close hb)).cons hc rfl)
  | .more hk hc hv hd hkvs =>
    hk.spends.trans ((hv.spends.trans (hkvs.spends.cons hd rfl)).cons hc rfl)

theorem BlockAt.spends {ts : List Token} {b : Block} {rest : List Token} :
    BlockAt ts b rest → Spends 0 ts rest
  | .mk ht hss => .opened ht hss.spends

theorem ElseAt.spends {ts : List Token} {no : Option Block} {rest : List Token} :
    ElseAt ts no rest → Spends 0 ts rest
  | .none _ => .refl _
  | .some ht hb => hb.spends.cons ht rfl

theorem StmtsAt.spends {ts : List Token} {ss : List Stmt} {rest : List Token} :
    StmtsAt ts ss rest → Spends 1 ts rest
  | .close hc => .close hc
  | .finish => .finish
  | .more hs hss => .after hs.balances hss.spends

theorem StmtAt.balances {ts : List Token} {s : Stmt} {rest : List Token} :
    StmtAt ts s rest → Balances 0 ts rest
  | .ended h hc => h.spends.toBalances.semicolon hc
  | .bare h _ => h.spends.toBalances

theorem BareStmtAt.spends {ts : List Token} {s : Stmt} {rest : List Token} :
    BareStmtAt ts s rest → Spends 0 ts rest
  | .letName ht hx ha he | .constName ht hx ha he =>
    ((he.spends.cons ha rfl).cons hx rfl).cons ht rfl
  | .ret ht he => he.spends.cons ht rfl
  | .expr he => he.spends

end

end Scriptlet
