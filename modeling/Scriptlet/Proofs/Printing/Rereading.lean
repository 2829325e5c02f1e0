import Scriptlet.Proofs.Grammar.Acceptance
import Scriptlet.Proofs.Grammar.Places
import Scriptlet.Proofs.Grammar.Products

/-!
# Reading the canonical text back

**Theorem (`parse_render`).** Let a source be read as a program in which no assignment stands
right under an operator, a call or an index (`Expr.Grouped`), and no expression statement stands
right before a statement whose text starts with an opening parenthesis or bracket (`Separate`).
Then the canonical text of the program is read as the same program, up to tokens.

Both conditions are needed, because the text shows neither: an assignment gets no parentheses,
and an expression statement no semicolon.

The proof derives the tree from its words, part by part (`Rereads`). An expression that is no
assignment can be extended by whatever suffixes follow it, so the derivation of a call can go on
from that of its callee. Operators and indices are always in parentheses, which closes them off.
-/

namespace Scriptlet

/-! ## Trees that the text shows -/

def Expr.isAssign : Expr → Bool
  | .assign _ _ _ => true
  | _ => false

/-- No assignment is an operand, what is called, or what an index is taken of. -/
def Expr.Grouped : Expr → Prop
  | .unary _ _ e => e.isAssign = false
  | .binary _ _ l r => l.isAssign = false ∧ r.isAssign = false
  | .call _ f _ => f.isAssign = false
  | .index _ e _ => e.isAssign = false
  | _ => True

def Stmt.isExpr : Stmt → Bool
  | .expr _ _ => true
  | _ => false

/-- A text that could be read as a suffix of what is before it. -/
def OpensSuffix (text : String) : Prop :=
  text.toList.head? = some '(' ∨ text.toList.head? = some '['

/-- No expression statement is right before a statement that could be read as its suffix. -/
def Separate (ss : List Stmt) : Prop :=
  ss.IsChain fun s s' => s.isExpr → ¬ OpensSuffix s'.render

/-! ## What may follow -/

/-- Nothing that follows belongs to the expression before it. -/
structure Ended (rest : List Token) : Prop where
  suffix : Suffix.ofKind (nextKind rest) = none
  elseKw : nextKind rest ≠ .elseKw

theorem ended_nil : Ended [] := ⟨rfl, nofun⟩

theorem Ended.of_kind {k : Kind} {t : Token} {rest : List Token} (ht : t.kind = k)
    (hsuffix : Suffix.ofKind k = none) (helse : k ≠ .elseKw) : Ended (t :: rest) := by
  subst ht
  exact ⟨hsuffix, helse⟩

theorem SuffixesAt.of_ended {p : Precedence} {e : Expr} {rest : List Token}
    (h : Suffix.ofKind (nextKind rest) = none) : SuffixesAt p e rest e rest :=
  .stop fun s hs => by rw [h] at hs; cases hs

/-! ## Reading one expression back -/

/-- The words of `e` are read as `e'`, which is `e` up to tokens. -/
structure Rereads (e e' : Expr) : Prop where
  bare : e'.bare = e.bare
  extend : e.isAssign = false → ∀ {p : Precedence} {rest : List Token} {e'' : Expr}
    {rest' : List Token}, p < .call → nextKind rest ≠ .elseKw →
    SuffixesAt p e' rest e'' rest' → ExprAt p (e.words ++ rest) e'' rest'
  whole (rest : List Token) : Ended rest → ExprAt .lowest (e.words ++ rest) e' rest

theorem Rereads.of_extend {e e' : Expr} (hbare : e'.bare = e.bare)
    (h : ∀ {p : Precedence} {rest : List Token} {e'' : Expr} {rest' : List Token}, p < .call →
      nextKind rest ≠ .elseKw → SuffixesAt p e' rest e'' rest' →
      ExprAt p (e.words ++ rest) e'' rest') : Rereads e e' :=
  ⟨hbare, fun _ => h, fun _ hrest => h (by decide) hrest.elseKw (.of_ended hrest.suffix)⟩

/-- What is derived as a head can be extended. -/
theorem Rereads.of_head {e e' : Expr} {t : Token} {ws : List Token} (hbare : e'.bare = e.bare)
    (hws : e.words = t :: ws)
    (h : ∀ rest, nextKind rest ≠ .elseKw → HeadAt t.kind t (ws ++ rest) e' rest) :
    Rereads e e' := by
  refine .of_extend hbare fun _ hrest hs => ?_
  rw [hws, List.cons_append]
  exact .mk (h _ hrest) hs

/-- So can what stands in parentheses. -/
theorem Rereads.of_group {e e' : Expr} (ws : List Token) (hbare : e'.bare = e.bare)
    (hws : e.words = Kind.lparen.mark :: (ws ++ [Kind.rparen.mark]))
    (h : ∀ rest, ExprAt .lowest (ws ++ Kind.rparen.mark :: rest) e' (Kind.rparen.mark :: rest)) :
    Rereads e e' :=
  .of_head hbare hws fun rest _ => by
    rw [List.append_assoc]
    exact .group (h rest) rfl

/-- An operand that is followed by no suffix. -/
theorem Rereads.operand {e e' : Expr} (h : Rereads e e') (ha : e.isAssign = false)
    {p : Precedence} (hp : p < .call) {rest : List Token} (hrest : Ended rest) :
    ExprAt p (e.words ++ rest) e' rest := h.extend ha hp hrest.elseKw (.of_ended hrest.suffix)

theorem BinaryOp.ofKind_kind (op : BinaryOp) : Suffix.ofKind op.kind = some (.binary op) := by
  cases op <;> rfl

theorem BinaryOp.precedence_lt (op : BinaryOp) :
    .lowest < op.precedence ∧ op.precedence < .call := by
  cases op <;> decide

theorem BinaryOp.kind_ne_elseKw (op : BinaryOp) : op.kind ≠ .elseKw := by
  cases op <;> decide

/-! ## Numbers, names and texts -/

theorem Integer.decimal_text {n : Integer} (h : 0 ≤ n.toInt) :
    decimal n.text = n.toInt.toNat := by
  rw [decimal, Integer.toList_text h, Nat.ofDigitChars_ten_toDigits]

theorem Integer.ofNat_toNat {n : Integer} (h : 0 ≤ n.toInt) : Int64.ofNat n.toInt.toNat = n := by
  rw [← Int64.ofInt_eq_ofNat, Int.toNat_of_nonneg h, Int64.ofInt_toInt]

theorem namesAt_words (rest : List Token) : ∀ (x : Ident) (xs : List Ident),
    NamesAt (separated ((x :: xs).map fun x => [x.word]) ++ Kind.rparen.mark :: rest)
      ((x :: xs).map fun x => .ofToken x.word) rest
  | _, [] => .last rfl rfl
  | _, y :: ys => .more rfl rfl (namesAt_words rest y ys)

theorem paramsAt_words (rest : List Token) (xs : List Ident) :
    ParamsAt (separated (xs.map fun x => [x.word]) ++ Kind.rparen.mark :: rest)
      (xs.map fun x => .ofToken x.word) rest := by
  cases xs with
  | nil => exact .none rfl
  | cons x xs => exact .some (namesAt_words rest x xs)

/-- The first word of an expression, and what it says about the text. -/
theorem Expr.opensSuffix_of_words : (e : Expr) → {t : Token} → {ws : List Token} →
    e.words = t :: ws → Suffix.ofKind t.kind ≠ none → OpensSuffix e.render
  | .ident _, _, _, h, hs | .int _ _, _, _, h, hs | .str _ _, _, _, h, hs
  | .bool _ true, _, _, h, hs | .bool _ false, _, _, h, hs | .null _, _, _, h, hs
  | .assign _ _ _, _, _, h, hs | .ifElse _ _ _ _, _, _, h, hs | .fn _ _ _, _, _, h, hs
  | .hash _ _, _, _, h, hs | .forIn _ _ _ _ _, _, _, h, hs => by
    cases h; exact absurd rfl hs
  | .unary _ op e, _, _, _, _ => .inl (by simp [render, String.toList_append])
  | .binary _ _ _ _, _, _, _, _ | .index _ _ _, _, _, _, _ =>
    .inl (by simp [render, String.toList_append])
  | .array _ _, _, _, _, _ => .inr (by simp [render, String.toList_append])
  | .call _ f es, _, _, h, hs => by
    obtain ⟨u, us, hf, -⟩ := f.exists_words
    rw [words, hf, List.cons_append] at h
    obtain ⟨rfl, -⟩ := List.cons.inj h
    have hopens : OpensSuffix f.render := f.opensSuffix_of_words hf hs
    unfold OpensSuffix at hopens ⊢
    rw [render, String.toList_append, String.toList_append, String.toList_append, List.append_assoc,
      List.append_assoc, List.head?_append]
    rcases hopens with h | h
    · exact .inl (by rw [h]; rfl)
    · exact .inr (by rw [h]; rfl)

/-- What a statement starts with belongs to no expression before it, unless its text opens a
suffix. -/
theorem Stmt.ended_words {s : Stmt} (hs : s.Written) (rest : List Token) :
    (¬ OpensSuffix s.render → Ended (s.words ++ rest)) ∧
      nextKind (s.words ++ rest) ≠ .semicolon := by
  cases s with
  | declare _ constant x e => cases constant <;> exact ⟨fun _ => ⟨rfl, nofun⟩, nofun⟩
  | ret _ e => exact ⟨fun _ => ⟨rfl, nofun⟩, nofun⟩
  | block b => exact hs.elim
  | expr _ e =>
    obtain ⟨t, ws, hws, ht⟩ := e.exists_words
    have hne (k : Kind) (hk : k.leads = false) : nextKind (e.words ++ rest) ≠ k := by
      rw [hws]; rintro rfl; exact absurd ht (by simpa using hk)
    refine ⟨fun hopens => ⟨?_, hne _ rfl⟩, hne _ rfl⟩
    rw [words, hws, List.cons_append, nextKind_cons]
    by_contra h
    exact hopens (e.opensSuffix_of_words hws h)

/-! ## Lists -/

/-- The items of a list and the closing token after them. -/
def RereadsList (es es' : List Expr) : Prop :=
  bareExprs es' = bareExprs es ∧ ∀ (close : Kind) (rest : List Token),
    Suffix.ofKind close = none → close ≠ .elseKw →
    ListAt close (separated (wordsExprs es) ++ close.mark :: rest) es' rest

theorem ListAt.items {close : Kind} {ts rest : List Token} {es : List Expr}
    (h : ListAt close ts es rest) (hes : es ≠ []) : ItemsAt close ts es rest := by
  cases h with
  | none _ => exact absurd rfl hes
  | some h => exact h

/-- One more item in front of the others, with the words `ws`. -/
theorem ListAt.cons {close : Kind} {rest ws : List Token} {wss : List (List Token)} {e : Expr}
    {es : List Expr} (hs : ListAt close (separated wss ++ close.mark :: rest) es rest)
    (hlength : wss.length = es.length) (hclose : Ended (close.mark :: rest))
    (h : ∀ rest, Ended rest → ExprAt .lowest (ws ++ rest) e rest) :
    ListAt close (separated (ws :: wss) ++ close.mark :: rest) (e :: es) rest := by
  cases wss with
  | nil =>
    obtain rfl := List.eq_nil_of_length_eq_zero hlength.symm
    exact .some (.last (by simpa [separated] using h _ hclose) rfl)
  | cons ws' wss =>
    have hitems := hs.items (by rintro rfl; cases hlength)
    have he := h (Kind.comma.mark :: (separated (ws' :: wss) ++ close.mark :: rest))
      (.of_kind rfl rfl (by decide))
    refine .some (.more (c := Kind.comma.mark) ?_ rfl hitems)
    simpa [separated, List.intercalate_cons_cons] using he

theorem RereadsList.cons {e e' : Expr} {es es' : List Expr} (hs : RereadsList es es')
    (h : Rereads e e') : RereadsList (e :: es) (e' :: es') := by
  refine ⟨by rw [bareExprs, bareExprs, h.bare, hs.1], fun close rest hsuffix helse => ?_⟩
  have hlength := congrArg List.length hs.1
  rw [bareExprs_eq_map, bareExprs_eq_map, List.length_map, List.length_map] at hlength
  refine (hs.2 close rest hsuffix helse).cons ?_ ⟨hsuffix, helse⟩ h.whole
  rw [wordsExprs_eq_map, List.length_map, hlength]

/-- The pairs of a hash and the closing brace. -/
def RereadsPairs (kvs kvs' : List (Expr × Expr)) : Prop :=
  barePairs kvs' = barePairs kvs ∧
    ∀ rest, PairsAt (separated (wordsPairs kvs) ++ Kind.rbrace.mark :: rest) kvs' rest

/-- One more pair in front of the others, with the words `ks` and `vs`. -/
theorem PairsAt.cons {rest ks vs : List Token} {wss : List (List Token)} {k v : Expr}
    {kvs : List (Expr × Expr)} (hs : PairsAt (separated wss ++ Kind.rbrace.mark :: rest) kvs rest)
    (hlength : wss.length = kvs.length)
    (hk : ∀ rest, Ended rest → ExprAt .lowest (ks ++ rest) k rest)
    (hv : ∀ rest, Ended rest → ExprAt .lowest (vs ++ rest) v rest) :
    PairsAt (separated ((ks ++ Kind.colon.mark :: vs) :: wss) ++ Kind.rbrace.mark :: rest)
      ((k, v) :: kvs) rest := by
  -- The key goes up to its colon, whatever the value is.
  have hkey (more : List Token) := hk (Kind.colon.mark :: (vs ++ more))
    (.of_kind rfl rfl (by decide))
  cases wss with
  | nil =>
    obtain rfl := List.eq_nil_of_length_eq_zero hlength.symm
    refine .last (c := Kind.colon.mark) (b := Kind.rbrace.mark) ?_ rfl
      (hv (Kind.rbrace.mark :: rest) (.of_kind rfl rfl (by decide))) rfl
    simpa [separated] using hkey (Kind.rbrace.mark :: rest)
  | cons ws wss =>
    refine .more (c := Kind.colon.mark) (d := Kind.comma.mark) ?_ rfl
      (hv (Kind.comma.mark :: (separated (ws :: wss) ++ Kind.rbrace.mark :: rest))
        (.of_kind rfl rfl (by decide))) rfl hs
    simpa [separated, List.intercalate_cons_cons] using hkey _

theorem RereadsPairs.cons {k k' v v' : Expr} {kvs kvs' : List (Expr × Expr)}
    (hs : RereadsPairs kvs kvs') (hk : Rereads k k') (hv : Rereads v v') :
    RereadsPairs ((k, v) :: kvs) ((k', v') :: kvs') := by
  refine ⟨by rw [barePairs, barePairs, hk.bare, hv.bare, hs.1], fun rest => ?_⟩
  have hlength := congrArg List.length hs.1
  rw [barePairs_eq_map, barePairs_eq_map, List.length_map, List.length_map] at hlength
  refine (hs.2 rest).cons ?_ hk.whole hv.whole
  rw [wordsPairs_eq_map, List.length_map, hlength]

/-- The statements of a list, in front of what ends the list. `R` is what the list is part of. -/
def RereadsStmts (ss ss' : List Stmt) : Prop :=
  bareStmts ss' = bareStmts ss ∧ ∀ {R : List Token → List Stmt → Prop} {tail : List Token},
    (∀ {ts mid s ss}, StmtAt ts s mid → R mid ss → R ts (s :: ss)) → R tail [] → Ended tail →
    nextKind tail ≠ .semicolon → R ((wordsStmts ss).flatten ++ tail) ss'

/-- A statement, in front of what does not go on with it. -/
structure StmtRereads (s s' : Stmt) : Prop where
  bare : s'.bare = s.bare
  read : ∀ {rest : List Token}, (s.isExpr → Ended rest) → nextKind rest ≠ .semicolon →
    StmtAt (s.words ++ rest) s' rest

theorem RereadsStmts.cons {s s' : Stmt} {ss ss' : List Stmt} (hs : RereadsStmts ss ss')
    (h : StmtRereads s s') (hw : StmtsWritten ss) (hsep : Separate (s :: ss)) :
    RereadsStmts (s :: ss) (s' :: ss') := by
  refine ⟨by rw [bareStmts, bareStmts, h.bare, hs.1], fun {R tail} hmore hnil htail hsemi => ?_⟩
  rw [wordsStmts, List.flatten_cons, List.append_assoc]
  refine hmore (h.read ?_ ?_) (hs.2 hmore hnil htail hsemi)
  · intro hexpr
    cases ss with
    | nil => exact htail
    | cons u us =>
      have hopens := (List.isChain_cons_cons.1 hsep).1 hexpr
      rw [wordsStmts, List.flatten_cons, List.append_assoc]
      exact (u.ended_words (hw u List.mem_cons_self) _).1 hopens
  · cases ss with
    | nil => exact hsemi
    | cons u us =>
      rw [wordsStmts, List.flatten_cons, List.append_assoc]
      exact (u.ended_words (hw u List.mem_cons_self) _).2

/-! ## Whole trees -/

def BlockRereads (b b' : Block) : Prop :=
  b'.bare = b.bare ∧ ∀ rest, BlockAt (b.words ++ rest) b' rest

mutual

theorem Expr.rereads : (e : Expr) → e.Every Expr.Written StmtsWritten →
    e.Every Expr.Grouped Separate → ∃ e', Rereads e e'
  | .ident x, _, _ =>
    ⟨.ident (.ofToken x.word), .of_head rfl rfl fun _ _ => .name⟩
  | .int _ n, hw, _ => by
    have hdec : decimal n.text = n.toInt.toNat := Integer.decimal_text hw
    have hbare : (Expr.int .blank (.ofNat (decimal n.text))) = .int .blank n := by
      rw [hdec, Integer.ofNat_toNat hw]
    have hlt := n.toInt_lt
    exact ⟨.int ⟨.int, n.text, .start⟩ (.ofNat (decimal n.text)), .of_head hbare rfl fun _ _ =>
      .int (by rw [hdec]; omega)⟩
  | .str _ s, _, _ => ⟨.str ⟨.string, s, .start⟩ s, .of_head rfl rfl fun _ _ => .str⟩
  | .bool _ true, _, _ => ⟨.bool Kind.trueKw.mark true, .of_head rfl rfl fun _ _ => .yes⟩
  | .bool _ false, _, _ => ⟨.bool Kind.falseKw.mark false, .of_head rfl rfl fun _ _ => .no⟩
  | .null _, _, _ => ⟨.null Kind.nullKw.mark, .of_head rfl rfl fun _ _ => .null⟩
  | .unary _ .not e, hw, hg => by
    obtain ⟨e', he⟩ := e.rereads hw.2 hg.2
    refine ⟨.unary Kind.bang.mark .not e', .of_group (_ :: e.words)
      (congrArg (Expr.unary _ _) he.bare) rfl fun rest => ?_⟩
    exact .mk (.not (he.operand hg.1 (by decide) ⟨rfl, nofun⟩)) (.of_ended rfl)
  | .unary _ .neg e, hw, hg => by
    obtain ⟨e', he⟩ := e.rereads hw.2 hg.2
    refine ⟨.unary Kind.minus.mark .neg e', .of_group (_ :: e.words)
      (congrArg (Expr.unary _ _) he.bare) rfl fun rest => ?_⟩
    exact .mk (.neg (he.operand hg.1 (by decide) ⟨rfl, nofun⟩)) (.of_ended rfl)
  | .binary _ op l r, hw, hg => by
    obtain ⟨l', hl⟩ := l.rereads hw.2.1 hg.2.1
    obtain ⟨r', hr⟩ := r.rereads hw.2.2 hg.2.2
    obtain ⟨hlow, hcall⟩ := op.precedence_lt
    refine ⟨.binary op.kind.mark op l' r', .of_group (l.words ++ op.kind.mark :: r.words)
      (congrArg₂ (Expr.binary _ _) hl.bare hr.bare) (by simp [Expr.words]) fun rest => ?_⟩
    rw [List.append_assoc]
    refine hl.extend hg.1.1 (by decide) op.kind_ne_elseKw
      (.more op.ofKind_kind hlow ?_ (.of_ended rfl))
    exact .binary (hr.operand hg.1.2 hcall ⟨rfl, nofun⟩)
  | .assign _ x e, hw, hg => by
    obtain ⟨e', he⟩ := e.rereads hw.2 hg.2
    refine ⟨.assign Kind.assign.mark (.ofToken x.word) e', congrArg (Expr.assign _ _) he.bare,
      nofun, fun _ hrest => ?_⟩
    exact .mk .name (.more rfl (by decide) (.assign (he.whole _ hrest)) (.of_ended hrest.suffix))
  | .ifElse _ e yes no, hw, hg => by
    obtain ⟨e', he⟩ := e.rereads hw.2.1 hg.2.1
    obtain ⟨yes', hyes⟩ := yes.rereads hw.2.2.1 hg.2.2.1
    obtain ⟨no', hno⟩ := rereadsElse no hw.2.2.2 hg.2.2.2
    refine ⟨.ifElse Kind.ifKw.mark e' yes' no', .of_head
      (by rw [Expr.bare, Expr.bare, he.bare, hyes.1, hno.1]) rfl fun rest hrest => ?_⟩
    rw [List.append_assoc, List.append_assoc]
    refine .ifElse (he.whole _ ?_) (hyes.2 _) (hno.2 rest hrest)
    cases yes with
    | mk _ _ => exact ⟨rfl, nofun⟩
  | .fn _ ps b, hw, hg => by
    obtain ⟨b', hb⟩ := b.rereads hw.2 hg.2
    refine ⟨.fn Kind.fnKw.mark (ps.map fun x => .ofToken x.word) b', .of_head ?_ rfl
      fun rest _ => ?_⟩
    · rw [Expr.bare, Expr.bare, hb.1, List.map_map]; rfl
    · simp only [List.cons_append, List.append_assoc]
      exact .fn rfl (paramsAt_words _ ps) (hb.2 rest)
  | .call _ f es, hw, hg => by
    obtain ⟨f', hf⟩ := f.rereads hw.2.1 hg.2.1
    obtain ⟨es', hes⟩ := rereadsExprs es hw.2.2 hg.2.2
    refine ⟨.call Kind.lparen.mark f' es', .of_extend
      (by rw [Expr.bare, Expr.bare, hf.bare, hes.1]) fun {p rest e'' rest'} hp _ hs => ?_⟩
    rw [Expr.words, List.append_assoc]
    refine hf.extend hg.1 hp (by nofun) (.more rfl hp (.call ?_) hs)
    simpa using hes.2 .rparen rest rfl nofun
  | .array _ es, hw, hg => by
    obtain ⟨es', hes⟩ := rereadsExprs es hw.2 hg.2
    refine ⟨.array Kind.lbracket.mark es',
      .of_head (congrArg (Expr.array _) hes.1) rfl fun rest _ => ?_⟩
    rw [List.append_assoc]
    exact .array (hes.2 .rbracket rest rfl nofun)
  | .hash _ kvs, hw, hg => by
    obtain ⟨kvs', hkvs⟩ := rereadsPairs kvs hw.2 hg.2
    refine ⟨.hash Kind.lbrace.mark kvs',
      .of_head (congrArg (Expr.hash _) hkvs.1) rfl fun rest _ => ?_⟩
    rw [List.append_assoc]
    exact .hash (hkvs.2 rest)
  | .index _ e i, hw, hg => by
    obtain ⟨e', he⟩ := e.rereads hw.2.1 hg.2.1
    obtain ⟨i', hi⟩ := i.rereads hw.2.2 hg.2.2
    refine ⟨.index Kind.lbracket.mark e' i', .of_group
      (e.words ++ Kind.lbracket.mark :: (i.words ++ [Kind.rbracket.mark]))
      (congrArg₂ (Expr.index _) he.bare hi.bare) (by simp [Expr.words]) fun rest => ?_⟩
    rw [List.append_assoc]
    refine he.extend hg.1 (by decide) nofun
      (.more rfl (by decide) (.index (c := Kind.rbracket.mark) ?_ rfl) (.of_ended rfl))
    simpa using hi.whole (Kind.rbracket.mark :: Kind.rparen.mark :: rest) ⟨rfl, nofun⟩
  | .forIn _ i v x b, hw, hg => by
    obtain ⟨b', hb⟩ := b.rereads hw.2 hg.2
    refine ⟨.forIn Kind.forKw.mark (.ofToken i.word) (.ofToken v.word) (.ofToken x.word) b',
      .of_head (by rw [Expr.bare, Expr.bare, hb.1]; rfl) rfl fun rest _ => ?_⟩
    exact .forIn rfl rfl rfl rfl rfl (hb.2 rest)

theorem Stmt.rereads : (s : Stmt) → s.Written → s.Every Expr.Written StmtsWritten →
    s.Every Expr.Grouped Separate → ∃ s', StmtRereads s s'
  | .declare _ constant x e, _, hw, hg => by
    obtain ⟨e', he⟩ := e.rereads hw hg
    refine ⟨.declare (if constant then Kind.constKw else Kind.letKw).mark constant
      (.ofToken x.word) e', congrArg (Stmt.declare _ _ _) he.bare, fun {rest} _ _ => ?_⟩
    have he := he.whole (Kind.semicolon.mark :: rest) ⟨rfl, nofun⟩
    simp only [Stmt.words, List.cons_append, List.append_assoc, List.nil_append]
    cases constant with
    | true => exact .ended (.constName rfl rfl rfl he) rfl
    | false => exact .ended (.letName rfl rfl rfl he) rfl
  | .ret _ e, _, hw, hg => by
    obtain ⟨e', he⟩ := e.rereads hw hg
    refine ⟨.ret Kind.returnKw.mark e', congrArg (Stmt.ret _) he.bare, fun {rest} _ _ => ?_⟩
    have he := he.whole (Kind.semicolon.mark :: rest) ⟨rfl, nofun⟩
    simp only [Stmt.words, List.cons_append, List.append_assoc, List.nil_append]
    exact .ended (.ret rfl he) rfl
  | .expr _ e, _, hw, hg => by
    obtain ⟨e', he⟩ := e.rereads hw hg
    obtain ⟨t, ws, hws, -⟩ := e.exists_words
    refine ⟨.expr t e', congrArg (Stmt.expr _) he.bare, fun {rest} hrest hsemi => .bare ?_ hsemi⟩
    have he := he.whole rest (hrest rfl)
    rw [hws, List.cons_append] at he
    rw [Stmt.words, hws, List.cons_append]
    exact .expr he

theorem Block.rereads : (b : Block) → b.Every Expr.Written StmtsWritten →
    b.Every Expr.Grouped Separate → ∃ b', BlockRereads b b'
  | .mk _ ss, hw, hg => by
    obtain ⟨ss', hss⟩ := rereadsStmts ss hw.1 hw.2 hg.1 hg.2
    refine ⟨.mk Kind.lbrace.mark ss', congrArg (Block.mk _) hss.1, fun rest => ?_⟩
    rw [Block.words, List.cons_append, List.append_assoc]
    exact .mk rfl
      (hss.2 (R := fun ts ss => StmtsAt ts ss rest) .more (.close rfl) ⟨rfl, nofun⟩ nofun)

theorem rereadsElse : (no : Option Block) → everyElse Expr.Written StmtsWritten no →
    everyElse Expr.Grouped Separate no → ∃ no', bareElse no' = bareElse no ∧
      ∀ rest, nextKind rest ≠ .elseKw → ElseAt (wordsElse no ++ rest) no' rest
  | none, _, _ => ⟨none, rfl, fun _ hrest => .none hrest⟩
  | some b, hw, hg => by
    obtain ⟨b', hb⟩ := b.rereads hw hg
    exact ⟨some b', congrArg some hb.1, fun rest _ => .some rfl (hb.2 rest)⟩

theorem rereadsExprs : (es : List Expr) → everyExprs Expr.Written StmtsWritten es →
    everyExprs Expr.Grouped Separate es → ∃ es', RereadsList es es'
  | [], _, _ => ⟨[], rfl, fun _ _ _ _ => .none rfl⟩
  | e :: es, hw, hg => by
    obtain ⟨e', he⟩ := e.rereads hw.1 hg.1
    obtain ⟨es', hes⟩ := rereadsExprs es hw.2 hg.2
    exact ⟨e' :: es', hes.cons he⟩

theorem rereadsPairs : (kvs : List (Expr × Expr)) → everyPairs Expr.Written StmtsWritten kvs →
    everyPairs Expr.Grouped Separate kvs → ∃ kvs', RereadsPairs kvs kvs'
  | [], _, _ => ⟨[], rfl, fun _ => .none rfl⟩
  | (k, v) :: kvs, hw, hg => by
    obtain ⟨k', hk⟩ := k.rereads hw.1 hg.1
    obtain ⟨v', hv⟩ := v.rereads hw.2.1 hg.2.1
    obtain ⟨kvs', hkvs⟩ := rereadsPairs kvs hw.2.2 hg.2.2
    exact ⟨(k', v') :: kvs', hkvs.cons hk hv⟩

theorem rereadsStmts : (ss : List Stmt) → StmtsWritten ss →
    everyStmts Expr.Written StmtsWritten ss → Separate ss →
    everyStmts Expr.Grouped Separate ss → ∃ ss', RereadsStmts ss ss'
  | [], _, _, _, _ => ⟨[], rfl, fun _ hnil _ _ => hnil⟩
  | s :: ss, hws, hw, hsep, hg => by
    have hws' : StmtsWritten ss := fun u hu => hws u (List.mem_cons_of_mem s hu)
    obtain ⟨s', hs⟩ := s.rereads (hws s List.mem_cons_self) hw.1 hg.1
    obtain ⟨ss', hss⟩ := rereadsStmts ss hws' hw.2 (List.IsChain.of_cons hsep) hg.2
    exact ⟨s' :: ss', hss.cons hs hws' hsep⟩

end

/-! ## Programs -/

theorem map_unplaced_lexed (cs : List Char) : (lexed cs).map Token.unplaced = lexed cs := by
  rw [lexed, List.map_map]
  exact List.map_congr_left fun _ _ => rfl

/-- The tokens of the canonical text, read as a source, are its words. -/
theorem Program.alike_words {P : Program} (h : P.Every Expr.Written StmtsWritten) :
    Alike P.words (TokenStream.ofSource P.render).tokens := by
  rw [alike_iff, ← Program.lexed_render h, map_unplaced_lexed]
  rfl

/-- What can be written is read back, whether or not it was read from anywhere. -/
theorem Program.parse_render_written {P : Program} (hw : P.Every Expr.Written StmtsWritten)
    (h : P.Every Expr.Grouped Separate) : ∃ Q, parse P.render = .ok Q ∧ Q.bare = P.bare := by
  obtain ⟨ss, hbare, hss⟩ := rereadsStmts P.stmts hw.1 hw.2 h.1 h.2
  have hwords : ProgramAt (P.words ++ []) ss := hss (R := ProgramAt) .more .finish ended_nil nofun
  rw [List.append_nil] at hwords
  obtain ⟨ss', hprogram, hbare'⟩ := hwords.move (Program.alike_words hw)
  exact ⟨⟨ss'⟩, parse_eq_ok_iff_programAt.2 hprogram, congrArg Program.mk (hbare'.trans hbare)⟩

/-- **The canonical text of a program is read as that program**, up to tokens, if the text shows
where assignments and expression statements end. -/
theorem parse_render {source : String} {P : Program} (hparse : parse source = .ok P)
    (h : P.Every Expr.Grouped Separate) : ∃ Q, parse P.render = .ok Q ∧ Q.bare = P.bare := by
  have hw : P.Every Expr.Written StmtsWritten :=
    (parse_eq_ok_iff_programAt.1 hparse).written (TokenStream.lexical_ofSource source)
  obtain ⟨ss, hbare, hss⟩ := rereadsStmts P.stmts hw.1 hw.2 h.1 h.2
  have hwords : ProgramAt P.words ss := by
    have := hss (R := ProgramAt) .more .finish ended_nil nofun
    rwa [List.append_nil] at this
  obtain ⟨ss', hprogram, hbare'⟩ := hwords.move (Program.alike_words hw)
  exact ⟨⟨ss'⟩, parse_eq_ok_iff_programAt.2 hprogram, congrArg Program.mk (hbare'.trans hbare)⟩

/-- `x = a + f(1); let y = [x]` is printed as `x = (a + f(1))` and `let y = [x];`. -/
theorem parse_render_assignment :
    ∃ P Q : Program, parse "x = a + f(1); let y = [x]" = .ok P ∧ P.Every Expr.Grouped Separate ∧
      P.render = "x = (a + f(1))\nlet y = [x];" ∧ parse P.render = .ok Q ∧ Q.bare = P.bare := by
  obtain ⟨P, hP⟩ : ∃ P : Program, P =
      ⟨[.expr ⟨.ident, "x", ⟨1, 1⟩⟩ (.assign ⟨.assign, "=", ⟨1, 3⟩⟩ ⟨⟨.ident, "x", ⟨1, 1⟩⟩, "x"⟩
          (.binary ⟨.plus, "+", ⟨1, 7⟩⟩ .add (.ident ⟨⟨.ident, "a", ⟨1, 5⟩⟩, "a"⟩)
            (.call ⟨.lparen, "(", ⟨1, 10⟩⟩ (.ident ⟨⟨.ident, "f", ⟨1, 9⟩⟩, "f"⟩)
              [.int ⟨.int, "1", ⟨1, 11⟩⟩ 1]))),
        .declare ⟨.letKw, "let", ⟨1, 15⟩⟩ false ⟨⟨.ident, "y", ⟨1, 19⟩⟩, "y"⟩
          (.array ⟨.lbracket, "[", ⟨1, 23⟩⟩ [.ident ⟨⟨.ident, "x", ⟨1, 24⟩⟩, "x"⟩])]⟩ := ⟨_, rfl⟩
  have hparse : parse "x = a + f(1); let y = [x]" = .ok P := by
    rw [hP]
    with_unfolding_all rfl
  have hopens : ¬ OpensSuffix "let y = [x];" := by unfold OpensSuffix; decide
  have hshown : P.Every Expr.Grouped Separate := by
    rw [hP]
    exact ⟨.cons_cons (fun _ => hopens) (.singleton _),
      ⟨trivial, ⟨rfl, rfl⟩, trivial, rfl, trivial, trivial, trivial⟩, ⟨trivial, trivial, trivial⟩,
      trivial⟩
  obtain ⟨Q, hQ, hbare⟩ := parse_render hparse hshown
  exact ⟨P, Q, hparse, hshown, by rw [hP]; rfl, hQ, hbare⟩

end Scriptlet
