import Mathlib.Algebra.Ring.Int.Defs
import Scriptlet.Proofs.Grammar.Progress
import Scriptlet.Proofs.Printing.Trees
import Scriptlet.Proofs.Scanning.Tiling

/-!
# What the parser builds

A program is built whatever is wrong with its source. Statements that cannot be read are left out,
in blocks too, and so the tree need not be one that the grammar gives to any part of the tokens.
It is well formed all the same.

**Theorem (`parsed_trees_faithful`).** Every node that the parser builds is faithful to its token:
the token stands in the source, and the node says what the token says. An integer is the number
that its digits spell, an operator is spelled by its token, a name is a name and no keyword, and
no statement is just a block.

`Builds ts x s Q` says of a step of the parser that it keeps to the tokens `ts` and that what it
reads has `Q`. The grammar is gone through rule by rule: a rule builds faithful trees where the
rules for what is nested in it do (`Rules.Faithful`). Recovery asks for nothing new, since what is
skipped is never part of a tree (`Builds.recover`). What a token can say is settled before, from
the way a source is cut into tokens (`Munch`).
-/

namespace Scriptlet

/-! ## What tokens say -/

/-- The token is a longest one at some place. -/
def Token.Cut (t : Token) : Prop := ∃ raw rest, Munch t.kind t.text.toList raw rest

theorem Tiles.cut {cs : List Char} {ts : List Token} (h : Tiles cs ts) : ∀ t ∈ ts, t.Cut := by
  induction h with
  | finish => exact List.forall_mem_nil _
  | token _ ht _ ih => exact List.forall_mem_cons.2 ⟨⟨_, _, ht⟩, ih⟩

theorem TokenStream.cut_ofSource (source : String) : ∀ t ∈ (ofSource source).tokens, t.Cut :=
  (tiles_scan _ _).cut

/-- The kinds that have one spelling. -/
def Kind.isFixed : Kind → Bool
  | illegal | eof | ident | int | string => false
  | _ => true

theorem isFixed_of_ofPunctuation {c : Char} {k : Kind} (h : Kind.ofPunctuation c = some k) :
    k.isFixed := by
  unfold Kind.ofPunctuation at h
  split at h <;> cases h <;> rfl

theorem isFixed_keyword : ∀ k ∈ Kind.keywords, k.isFixed := by decide

/-- A text of digits, one at least. -/
def IsNumeral (s : String) : Prop := s.toList ≠ [] ∧ ∀ c ∈ s.toList, c.isDigit

namespace Token.Cut

variable {t : Token}

/-- A token whose kind has one spelling is spelled so. -/
theorem spelling (h : t.Cut) (hk : t.kind.isFixed) : t.text = t.kind.spelling := by
  obtain ⟨k, text, p⟩ := t
  obtain ⟨raw, rest, h⟩ := h
  dsimp only at h hk ⊢
  rw [← String.toList_inj]
  generalize text.toList = cs at h ⊢
  cases h with
  | mark hc => rw [(spelling_of_ofPunctuation hc).2, String.toList_ofList]
  | keyword _ hspell => exact hspell.symm
  | equal | notEqual | assign | bang => rfl
  | string | unterminated | int | name | illegal => cases hk

theorem numeral (h : t.Cut) (hk : t.kind = .int) : IsNumeral t.text := by
  obtain ⟨raw, rest, h⟩ := h
  rw [hk] at h
  unfold IsNumeral
  generalize t.text.toList = cs at h ⊢
  cases h with
  | mark hc => cases isFixed_of_ofPunctuation hc
  | int hne hrun => exact ⟨hne, hrun.all⟩
  | keyword hmem => cases isFixed_keyword _ hmem

theorem word (h : t.Cut) (hk : t.kind = .ident) :
    IsWord t.text ∧ ∀ k ∈ Kind.keywords, t.text ≠ k.spelling := by
  obtain ⟨raw, rest, h⟩ := h
  rw [hk] at h
  unfold IsWord
  simp only [Ne, ← String.toList_inj]
  generalize t.text.toList = cs at h ⊢
  cases h with
  | mark hc => cases isFixed_of_ofPunctuation hc
  | keyword hmem => cases isFixed_keyword _ hmem
  | name hfree hc hcs => exact ⟨⟨_, _, rfl, hc, hcs.all⟩, fun k hk h => hfree k hk h.symm⟩

theorem unquoted (h : t.Cut) (hk : t.kind = .string) : '"' ∉ t.text.toList := by
  obtain ⟨raw, rest, h⟩ := h
  rw [hk] at h
  generalize t.text.toList = cs at h ⊢
  cases h with
  | mark hc => cases isFixed_of_ofPunctuation hc
  | keyword hmem => cases isFixed_keyword _ hmem
  | string hquote | unterminated hquote => exact hquote

end Token.Cut

/-! ## Faithful nodes -/

section Faithful

variable (ts : List Token)

/-- The token stands among `ts`, and it is the one of the kind `k`. -/
structure Token.Marks (t : Token) (k : Kind) : Prop where
  mem : t ∈ ts
  kind : t.kind = k
  text : t.text = k.spelling

/-- A name is what its token says, and no keyword. -/
structure Ident.Faithful (x : Ident) : Prop where
  mem : x.token ∈ ts
  kind : x.token.kind = .ident
  name : x.name = x.token.text
  word : IsWord x.name
  free : ∀ k ∈ Kind.keywords, x.name ≠ k.spelling

/-- An integer is the number that the digits of its token spell, and this number fits. -/
structure IntFaithful (t : Token) (n : Integer) : Prop where
  mem : t ∈ ts
  numeral : IsNumeral t.text
  value : n.toInt = decimal t.text
  nonneg : 0 ≤ n.toInt
  le : n.toInt ≤ 2 ^ 63 - 1

/-- A string is the text of its token, without a quote. -/
structure StrFaithful (t : Token) (s : String) : Prop where
  mem : t ∈ ts
  kind : t.kind = .string
  text : s = t.text
  unquoted : '"' ∉ s.toList

/-- The expression says what its token says, apart from what is nested in it. -/
def Expr.Faithful : Expr → Prop
  | .ident x => x.Faithful ts
  | .int t n => IntFaithful ts t n
  | .str t s => StrFaithful ts t s
  | .bool t b => t.Marks ts (if b then .trueKw else .falseKw)
  | .null t => t.Marks ts .nullKw
  | .unary t op _ => t ∈ ts ∧ t.text = op.spelling
  | .binary t op _ _ => t ∈ ts ∧ t.text = op.spelling
  | .assign t x _ => t.Marks ts .assign ∧ x.Faithful ts
  | .ifElse t _ yes no =>
    t.Marks ts .ifKw ∧ yes.token.Marks ts .lbrace ∧ ∀ b ∈ no, b.token.Marks ts .lbrace
  | .fn t ps b => t.Marks ts .fnKw ∧ (∀ x ∈ ps, x.Faithful ts) ∧ b.token.Marks ts .lbrace
  | .call t _ _ => t.Marks ts .lparen
  | .array t _ => t.Marks ts .lbracket
  | .hash t _ => t.Marks ts .lbrace
  | .index t _ _ => t.Marks ts .lbracket
  | .forIn t i v x b => t.Marks ts .forKw ∧ i.Faithful ts ∧ v.Faithful ts ∧ x.Faithful ts ∧
      b.token.Marks ts .lbrace

/-- The same of a statement. No statement is just a block. -/
def Stmt.Faithful : Stmt → Prop
  | .declare t constant x _ => t.Marks ts (if constant then .constKw else .letKw) ∧ x.Faithful ts
  | .ret t _ => t.Marks ts .returnKw
  | .expr t _ => t ∈ ts
  | .block _ => False

def StmtsFaithful (ss : List Stmt) : Prop := ∀ s ∈ ss, s.Faithful ts

/-! ### Throughout a tree -/

abbrev Expr.Grounded (e : Expr) : Prop := e.Every (Expr.Faithful ts) (StmtsFaithful ts)

abbrev ExprsGrounded (es : List Expr) : Prop :=
  everyExprs (Expr.Faithful ts) (StmtsFaithful ts) es

abbrev PairsGrounded (kvs : List (Expr × Expr)) : Prop :=
  everyPairs (Expr.Faithful ts) (StmtsFaithful ts) kvs

def Block.Grounded (b : Block) : Prop :=
  b.token.Marks ts .lbrace ∧ b.Every (Expr.Faithful ts) (StmtsFaithful ts)

def ElseGrounded (no : Option Block) : Prop :=
  (∀ b ∈ no, b.token.Marks ts .lbrace) ∧ everyElse (Expr.Faithful ts) (StmtsFaithful ts) no

def Stmt.Grounded (s : Stmt) : Prop :=
  s.Faithful ts ∧ s.Every (Expr.Faithful ts) (StmtsFaithful ts)

def StmtsGrounded (ss : List Stmt) : Prop :=
  StmtsFaithful ts ss ∧ everyStmts (Expr.Faithful ts) (StmtsFaithful ts) ss

theorem StmtsGrounded.nil : StmtsGrounded ts [] := ⟨List.forall_mem_nil _, trivial⟩

theorem StmtsGrounded.cons {s : Stmt} {ss : List Stmt} (h : s.Grounded ts)
    (hs : StmtsGrounded ts ss) : StmtsGrounded ts (s :: ss) :=
  ⟨List.forall_mem_cons.2 ⟨h.1, hs.1⟩, h.2, hs.2⟩

end Faithful

namespace Parse

/-! ## Steps that build -/

variable {α β : Type} {ts : List Token} {s : ParseState} {x : Parse α} {f : α → Parse β}
  {P Q : α → Prop} {R : β → Prop}

/-- If only tokens of `ts` are ahead in the state `s`, the step `x` leaves only tokens of `ts`
ahead, whether it succeeds or fails. What it reads has `Q`. -/
def Builds (ts : List Token) (x : Parse α) (s : ParseState) (Q : α → Prop) : Prop :=
  s.ahead.tokens ⊆ ts →
    match x s with
    | .ok a t => t.ahead.tokens ⊆ ts ∧ Q a
    | .error _ t => t.ahead.tokens ⊆ ts
    | .outOfFuel => True

/-- A token of the kind of names makes a faithful name. -/
theorem faithful_ofToken (hts : ∀ t ∈ ts, t.Cut) {t : Token} (hmem : t ∈ ts)
    (hk : t.kind = .ident) : (Ident.ofToken t).Faithful ts :=
  have hword := (hts t hmem).word hk
  ⟨hmem, hk, rfl, hword.1, hword.2⟩

namespace Builds

theorem pure {a : α} (h : Q a) : Builds ts (Pure.pure a) s Q := fun hs => ⟨hs, h⟩

theorem fail (d : Diagnostic) : Builds ts (Run.fail d : Parse α) s Q := fun hs => hs

theorem exhausted : Builds ts (Run.exhausted : Parse α) s Q := fun _ => trivial

theorem bind (hx : Builds ts x s Q) (hf : ∀ a t, Q a → Builds ts (f a) t R) :
    Builds ts (x >>= f) s R := by
  intro hs
  have h := hx hs
  rw [Run.bind_apply]
  cases hxs : x s with
  | ok a t =>
    rw [hxs] at h
    exact hf a t h.2 h.1
  | error d t =>
    rw [hxs] at h
    exact h
  | outOfFuel => trivial

/-- The token at hand is one of the tokens, unless it is the end token. -/
theorem current {f : Token → Parse β}
    (h : (s.ahead.current.kind ≠ .eof → s.ahead.current ∈ ts) →
      Builds ts (f s.ahead.current) s R) :
    Builds ts (Parse.current >>= f) s R := by
  refine fun hs => h (fun hne => ?_) hs
  cases hts : s.ahead.tokens with
  | nil => exact absurd (by rw [kind_current, hts]; rfl) hne
  | cons t us =>
    rw [TokenStream.current, hts]
    exact hs (by rw [hts]; exact List.mem_cons_self)

theorem upcoming {f : Token → Parse β} (h : Builds ts (f s.ahead.upcoming) s R) :
    Builds ts (Parse.upcoming >>= f) s R := h

theorem advance {f : Unit → Parse β} (h : Builds ts (f ()) (past s) R) :
    Builds ts (Parse.advance >>= f) s R :=
  fun hs => h fun _ ht => hs (List.mem_of_mem_tail ht)

/-- Behind a token that is asked for, this token is at hand. -/
theorem expect {k : Kind} {f : Unit → Parse β}
    (h : (past s).ahead.current.kind = k → Builds ts (f ()) (past s) R) :
    Builds ts (Parse.expect k >>= f) s R := by
  rw [Parse.expect, bind_assoc]
  refine upcoming ?_
  split
  · exact advance (h ‹_›)
  · exact fun hs => hs

theorem name (hts : ∀ t ∈ ts, t.Cut) {f : Ident → Parse β}
    (h : ∀ x t, x.Faithful ts → Builds ts (f x) t R) : Builds ts (Parse.name >>= f) s R := by
  rw [Parse.name, bind_assoc]
  refine expect fun hk => ?_
  rw [bind_assoc]
  refine current fun hmem => h _ _ ?_
  have hmem := hmem (by rw [hk]; decide)
  exact faithful_ofToken hts hmem hk

theorem recover (hx : Builds ts x s Q) :
    Builds ts (Parse.recover x) s fun a? => ∀ a ∈ a?, Q a := by
  intro hs
  have h := hx hs
  cases hxs : x s with
  | ok a t =>
    rw [hxs] at h
    rw [recover_ok hxs]
    exact ⟨h.1, fun b hb => Option.some.inj hb ▸ h.2⟩
  | error d t =>
    rw [hxs] at h
    rw [recover_error hxs]
    exact ⟨List.Subset.trans (skipBroken_suffix _).subset h, nofun⟩
  | outOfFuel =>
    rw [Parse.recover, hxs]
    trivial

theorem nested {rule : Rules → Parse α} (h : ∀ n, Builds ts (rule (rules n)) s Q) :
    Builds ts (Parse.nested rule) s Q := h (s.ahead.tokens.length + 1)

end Builds

/-! ## The rules -/

theorem marks_current (hts : ∀ t ∈ ts, t.Cut) {k : Kind} (hk : s.ahead.current.kind = k)
    (hfixed : k.isFixed) (hmem : s.ahead.current.kind ≠ .eof → s.ahead.current ∈ ts) :
    s.ahead.current.Marks ts k := by
  have hmem := hmem (by rintro heof; rw [← hk, heof] at hfixed; cases hfixed)
  refine ⟨hmem, hk, ?_⟩
  rw [(hts _ hmem).spelling (hk ▸ hfixed), hk]

/-- Digits that are an integer make a faithful one. -/
theorem intFaithful_ofDigits? (hts : ∀ t ∈ ts, t.Cut) {t : Token} (hmem : t ∈ ts)
    (hk : t.kind = .int) {n : Integer}
    (hn : Integer.ofDigits? false t.text.toList = some n) : IntFaithful ts t n := by
  have hnumeral := (hts t hmem).numeral hk
  obtain ⟨hle, rfl⟩ := (Rules.ofDigits?_eq_some_iff hnumeral.1).1 hn
  have hvalue : (Int64.ofNat (decimal t.text)).toInt = decimal t.text :=
    Int64.toInt_ofNat_of_lt (by omega)
  exact ⟨hmem, hnumeral, hvalue, by omega, by omega⟩

/-- The kind that starts a suffix which is no operator. -/
theorem kind_of_ofKind {k : Kind} {suffix : Suffix} (h : Suffix.ofKind k = some suffix) :
    match suffix with
    | .call => k = .lparen
    | .index => k = .lbracket
    | .assign => k = .assign
    | .binary _ => True := by
  unfold Suffix.ofKind at h
  split at h <;> cases h <;> first | rfl | trivial

/-- A suffix that is an operator is spelled as such. -/
theorem spelling_of_ofKind {k : Kind} {op : BinaryOp} (h : Suffix.ofKind k = some (.binary op)) :
    k.isFixed ∧ k.spelling = op.spelling := by
  unfold Suffix.ofKind at h
  split at h <;> cases h <;> exact ⟨rfl, rfl⟩

/-- The rules for what is nested build faithful trees. -/
structure Rules.Faithful (r : Rules) (ts : List Token) : Prop where
  expression : ∀ p s, Builds ts (r.expression p) s (Expr.Grounded ts)
  block : ∀ s, s.ahead.current.kind = .lbrace → Builds ts r.block s (Block.Grounded ts)

namespace Rules

variable {r : Rules} (hts : ∀ t ∈ ts, t.Cut) (hr : r.Faithful ts)

include hts

theorem builds_names (k : Nat) (s : ParseState) :
    Builds ts (names k) s fun xs => ∀ x ∈ xs, x.Faithful ts := by
  induction k generalizing s with
  | zero => exact .exhausted
  | succ k ih =>
    refine .name hts fun x t hx => .upcoming ?_
    split
    · refine .advance ((ih _).bind fun xs _ hxs => .pure ?_)
      exact List.forall_mem_cons.2 ⟨hx, hxs⟩
    · exact .expect fun _ => .pure (List.forall_mem_singleton.2 hx)

theorem builds_params (r : Rules) (s : ParseState) :
    Builds ts r.params s fun xs => ∀ x ∈ xs, x.Faithful ts := by
  refine .upcoming ?_
  split
  · exact .advance (.pure (List.forall_mem_nil _))
  · exact builds_names hts _ _

omit hts

namespace Faithful

include hr

theorem exprs (close : Kind) (k : Nat) (s : ParseState) :
    Builds ts (r.exprs close k) s (ExprsGrounded ts) := by
  induction k generalizing s with
  | zero => exact .exhausted
  | succ k ih =>
    refine (hr.expression _ s).bind fun e t he => .upcoming ?_
    split
    · exact .advance (.advance ((ih _).bind fun es _ hes => .pure ⟨he, hes⟩))
    · exact .expect fun _ => .pure ⟨he, trivial⟩

theorem list (close : Kind) (s : ParseState) :
    Builds ts (r.list close) s (ExprsGrounded ts) := by
  refine .upcoming (.advance ?_)
  split
  · exact .pure trivial
  · exact hr.exprs _ _ _

theorem pairs (k : Nat) (s : ParseState) : Builds ts (r.pairs k) s (PairsGrounded ts) := by
  induction k generalizing s with
  | zero => exact .exhausted
  | succ k ih =>
    refine .upcoming (.advance ?_)
    split
    · exact .pure trivial
    · refine (hr.expression _ _).bind fun key _ hkey => .expect fun _ => .advance ?_
      refine (hr.expression _ _).bind fun value t hvalue => ?_
      have hend : Builds ts pairEnd t fun _ => True := by
        refine .upcoming ?_
        split
        · exact .pure trivial
        · rw [← bind_pure (expect .comma)]
          exact .expect fun _ => .pure trivial
      exact hend.bind fun _ _ _ => (ih _).bind fun kvs _ hkvs => .pure ⟨hkey, hvalue, hkvs⟩

theorem blockAhead (s : ParseState) : Builds ts r.blockAhead s (Block.Grounded ts) :=
  .expect fun hk => hr.block _ hk

theorem elseBranch (s : ParseState) : Builds ts r.elseBranch s (ElseGrounded ts) := by
  refine .upcoming ?_
  split
  · refine .advance ((hr.blockAhead _).bind fun b _ hb => .pure ⟨fun c hc => ?_, hb.2⟩)
    exact Option.some.inj hc ▸ hb.1
  · exact .pure ⟨nofun, trivial⟩

theorem unary {t : Token} (op : UnaryOp) (ht : t ∈ ts) (hop : t.text = op.spelling)
    (s : ParseState) : Builds ts (r.unary t op) s (Expr.Grounded ts) :=
  .advance ((hr.expression _ _).bind fun _ _ he => .pure ⟨⟨ht, hop⟩, he⟩)

theorem group (s : ParseState) : Builds ts r.group s (Expr.Grounded ts) :=
  .advance ((hr.expression _ _).bind fun _ _ he => .expect fun _ => .pure he)

theorem conditional {t : Token} (ht : t.Marks ts .ifKw) (s : ParseState) :
    Builds ts (r.conditional t) s (Expr.Grounded ts) := by
  refine .advance ((hr.expression _ _).bind fun test _ htest => ?_)
  refine (hr.blockAhead _).bind fun yes _ hyes => (hr.elseBranch _).bind fun no _ hno => .pure ?_
  exact ⟨⟨ht, hyes.1, hno.1⟩, htest, hyes.2, hno.2⟩

include hts

theorem function {t : Token} (ht : t.Marks ts .fnKw) (s : ParseState) :
    Builds ts (r.function t) s (Expr.Grounded ts) := by
  refine .expect fun _ => (builds_params hts r _).bind fun ps _ hps => ?_
  exact (hr.blockAhead _).bind fun body _ hbody => .pure ⟨⟨ht, hps, hbody.1⟩, hbody.2⟩

theorem loop {t : Token} (ht : t.Marks ts .forKw) (s : ParseState) :
    Builds ts (r.loop t) s (Expr.Grounded ts) := by
  refine .name hts fun i _ hi => .expect fun _ => .name hts fun v _ hv => .expect fun _ => ?_
  refine .name hts fun x _ hx => (hr.blockAhead _).bind fun body _ hbody => .pure ?_
  exact ⟨⟨ht, hi, hv, hx, hbody.1⟩, hbody.2⟩

theorem head (s : ParseState) : Builds ts r.head s (Expr.Grounded ts) := by
  refine .current fun hmem => ?_
  have hmark {k : Kind} (hk : s.ahead.current.kind = k) (hfixed : k.isFixed) :
      s.ahead.current.Marks ts k := marks_current hts hk hfixed hmem
  generalize s.ahead.current = t at hmem hmark
  have hopen {k : Kind} (hk : t.kind = k) (hne : k ≠ .eof) : t ∈ ts := hmem (hk ▸ hne)
  split
  case h_1 hk => exact .pure (faithful_ofToken hts (hopen hk (by decide)) hk)
  case h_2 hk =>
    split
    · rename_i n hn
      exact .pure (intFaithful_ofDigits? hts (hopen hk (by decide)) hk hn)
    · exact .fail _
  case h_3 hk =>
    have ht := hopen hk (by decide)
    exact .pure ⟨ht, hk, rfl, (hts t ht).unquoted hk⟩
  case h_4 hk => exact .pure (hmark hk rfl)
  case h_5 hk => exact .pure (hmark hk rfl)
  case h_6 hk => exact .pure (hmark hk rfl)
  case h_7 hk => exact hr.unary .not (hmark hk rfl).mem (hmark hk rfl).text s
  case h_8 hk => exact hr.unary .neg (hmark hk rfl).mem (hmark hk rfl).text s
  case h_9 hk => exact hr.group s
  case h_10 hk => exact hr.conditional (hmark hk rfl) s
  case h_11 hk => exact hr.function hts (hmark hk rfl) s
  case h_12 hk => exact (hr.list _ s).bind fun es _ hes => .pure ⟨hmark hk rfl, hes⟩
  case h_13 hk => exact (hr.pairs _ s).bind fun kvs _ hkvs => .pure ⟨hmark hk rfl, hkvs⟩
  case h_14 hk => exact hr.loop hts (hmark hk rfl) s
  case h_15 => exact .fail _

/-- A suffix at the current token is added to a faithful tree. -/
theorem extend {left : Expr} (hleft : left.Grounded ts) {suffix : Suffix} {s : ParseState}
    (hs : Suffix.ofKind s.ahead.current.kind = some suffix) :
    Builds ts (r.extend left suffix) s (Expr.Grounded ts) := by
  cases suffix with
  | binary op =>
    obtain ⟨hfixed, hop⟩ := spelling_of_ofKind hs
    refine .current fun hmem => .advance ((hr.expression _ _).bind fun right _ hright => .pure ?_)
    have hmark := marks_current hts rfl hfixed hmem
    exact ⟨⟨hmark.mem, hmark.text.trans hop⟩, hleft, hright⟩
  | call =>
    refine .current fun hmem => (hr.list _ _).bind fun es _ hes => .pure ?_
    exact ⟨marks_current hts (kind_of_ofKind hs) rfl hmem, hleft, hes⟩
  | index =>
    refine .current fun hmem => .advance ((hr.expression _ _).bind fun i _ hi => ?_)
    exact .expect fun _ => .pure ⟨marks_current hts (kind_of_ofKind hs) rfl hmem, hleft, hi⟩
  | assign =>
    refine .current fun hmem => ?_
    have hmark := marks_current hts (kind_of_ofKind hs) rfl hmem
    split
    · exact .advance ((hr.expression _ _).bind fun e _ he => .pure ⟨⟨hmark, hleft⟩, he⟩)
    · exact .fail _

theorem suffixes (p : Precedence) (k : Nat) {left : Expr} (hleft : left.Grounded ts)
    (s : ParseState) : Builds ts (r.suffixes p k left) s (Expr.Grounded ts) := by
  induction k generalizing left s with
  | zero => exact .exhausted
  | succ k ih =>
    refine .upcoming ?_
    cases hsuffix : Suffix.ofKind s.ahead.upcoming.kind with
    | none => exact .pure hleft
    | some suffix =>
      dsimp only
      split
      · refine .advance (Builds.bind (hr.extend hts hleft ?_) fun e t he => ih he t)
        rwa [past_current]
      · exact .pure hleft

theorem climb (p : Precedence) (s : ParseState) :
    Builds ts (r.climb p) s (Expr.Grounded ts) :=
  (hr.head hts s).bind fun _ t hleft => hr.suffixes hts p _ hleft t

/-! ### Statements -/

theorem declaration {t : Token} {constant : Bool}
    (ht : t.Marks ts (if constant then .constKw else .letKw)) (s : ParseState) :
    Builds ts (r.declaration t constant) s (Stmt.Grounded ts) := by
  refine .name hts fun x _ hx => .expect fun _ => .advance ?_
  exact (hr.expression _ _).bind fun e _ he => .pure ⟨⟨ht, hx⟩, he⟩

theorem statement (hs : s.ahead.current.kind ≠ .eof) :
    Builds ts r.statement s (Stmt.Grounded ts) := by
  have hbare : Builds ts r.bareStatement s (Stmt.Grounded ts) := by
    refine .current fun hmem => ?_
    split
    case h_1 hk => exact hr.declaration hts (marks_current hts hk rfl hmem) s
    case h_2 hk => exact hr.declaration hts (marks_current hts hk rfl hmem) s
    case h_3 hk =>
      refine .advance ((hr.expression _ _).bind fun e _ he => .pure ⟨?_, he⟩)
      exact marks_current hts hk rfl hmem
    case h_4 => exact (hr.expression _ _).bind fun e _ he => .pure ⟨hmem hs, he⟩
  refine hbare.bind fun st t hst => ?_
  rw [skip, bind_assoc]
  refine .upcoming ?_
  split
  · exact .advance (.pure hst)
  · exact .pure hst

theorem blockStmts (k : Nat) (s : ParseState) :
    Builds ts (r.blockStmts k) s (StmtsGrounded ts) := by
  induction k generalizing s with
  | zero => exact .exhausted
  | succ k ih =>
    refine .current fun _ => ?_
    split
    · exact .pure (.nil ts)
    · rename_i hc
      refine (hr.statement hts fun h => hc (.inr h)).recover.bind fun st? t hst => ?_
      cases st? with
      | none =>
        refine Builds.bind (Q := fun _ => True) ?_ fun _ u _ => ih u
        refine .current fun _ => ?_
        split
        · exact .pure trivial
        · rw [← bind_pure Parse.advance]
          exact .advance (.pure trivial)
      | some st => exact .advance ((ih _).bind fun ss _ hss => .pure (.cons ts (hst st rfl) hss))

theorem braces (hs : s.ahead.current.kind = .lbrace) :
    Builds ts r.braces s (Block.Grounded ts) := by
  refine .current fun hmem => .advance ((hr.blockStmts hts _ _).bind fun ss _ hss => .pure ?_)
  exact ⟨marks_current hts hs rfl hmem, hss⟩

theorem programStmts (k : Nat) (s : ParseState) :
    Builds ts (r.programStmts k) s (StmtsGrounded ts) := by
  induction k generalizing s with
  | zero => exact .exhausted
  | succ k ih =>
    refine .current fun _ => ?_
    split
    · exact .pure (.nil ts)
    · rename_i hc
      refine (hr.statement hts hc).recover.bind fun st? t hst => .advance ?_
      refine (ih _).bind fun ss _ hss => .pure ?_
      cases st? with
      | none => exact hss
      | some st => exact .cons ts (hst st rfl) hss

end Faithful

end Rules

/-- **However deep the nesting**, the rules build faithful trees. -/
theorem faithful_rules (hts : ∀ t ∈ ts, t.Cut) (n : Nat) : (rules n).Faithful ts := by
  induction n with
  | zero => exact ⟨fun _ _ => .exhausted, fun _ _ => .exhausted⟩
  | succ n ih => exact ⟨fun p s => ih.climb hts p s, fun s hs => ih.braces hts hs⟩

end Parse

/-- **Every tree that the parser builds is faithful to its tokens**, whether or not anything is
wrong with the source. -/
theorem parsed_trees_faithful (source : String) :
    ∃ p t, Parse.program (.ofSource source) = .ok p t ∧
      p.Every (Expr.Faithful (TokenStream.ofSource source).tokens)
        (StmtsFaithful (TokenStream.ofSource source).tokens) := by
  obtain ⟨p, t, hrun, -⟩ := Parse.program_reaches_end source
  refine ⟨p, t, hrun, ?_⟩
  obtain ⟨ss, u, hss, hp⟩ := Run.bind_eq_ok_iff.1 hrun
  cases hp
  have hts := TokenStream.cut_ofSource source
  have hbuilds : Parse.Builds (TokenStream.ofSource source).tokens
      (Parse.nested fun r => r.programStmts r.passes) (.ofSource source)
      (StmtsGrounded (TokenStream.ofSource source).tokens) :=
    .nested fun n => (Parse.faithful_rules hts n).programStmts hts _ _
  have h := hbuilds (List.Subset.refl _)
  rw [hss] at h
  exact h.2

/-- What can be read is kept, and faithful, where another statement is broken. -/
example : (match Parse.program (.ofSource "fn() \x7b let 5; x = 007 \x7d") with
    | .ok p t => some (p.render, t.recorded.size)
    | _ => none) = some ("fn() \x7b x = 7 \x7d", 1) := by decide +kernel

end Scriptlet
