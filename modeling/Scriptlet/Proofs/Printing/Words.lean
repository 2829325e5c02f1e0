import Mathlib.Data.List.Forall2
import Mathlib.Tactic.FinCases
import Scriptlet.Proofs.Printing.Trees
import Scriptlet.Proofs.Scanning.Spelling
import Scriptlet.Syntax.Precedence
import Scriptlet.Syntax.Render

/-!
# The words of the canonical text

`words` is the list of tokens that the canonical text of a tree is made of, positions aside. It
follows the tree as the text does, without the blanks.

**Theorem (`Program.lexed_render`).** Read back, the canonical text gives these words, provided
that names are names, numbers are not negative and strings have no quotes in them (`Written`).
-/

namespace Scriptlet

def UnaryOp.kind : UnaryOp → Kind
  | not => .bang | neg => .minus

def BinaryOp.kind : BinaryOp → Kind
  | add => .plus | sub => .minus | mul => .asterisk | div => .slash
  | lt => .less | gt => .greater | eq => .equal | ne => .notEqual

def Ident.word (x : Ident) : Token := ⟨.ident, x.name, .start⟩

@[simp] theorem Ident.word_kind (x : Ident) : x.word.kind = .ident := rfl

/-- The words of the items of a list, with commas between them. -/
def separated (items : List (List Token)) : List Token := [Kind.comma.mark].intercalate items

mutual

def Expr.words : Expr → List Token
  | .ident x => [x.word]
  | .int _ n => [⟨.int, n.text, .start⟩]
  | .str _ s => [⟨.string, s, .start⟩]
  | .bool _ b => [if b then Kind.trueKw.mark else Kind.falseKw.mark]
  | .null _ => [Kind.nullKw.mark]
  | .unary _ op e => Kind.lparen.mark :: op.kind.mark :: (e.words ++ [Kind.rparen.mark])
  | .binary _ op l r =>
    Kind.lparen.mark :: (l.words ++ op.kind.mark :: (r.words ++ [Kind.rparen.mark]))
  | .assign _ x e => x.word :: Kind.assign.mark :: e.words
  | .ifElse _ e yes no => Kind.ifKw.mark :: (e.words ++ (yes.words ++ wordsElse no))
  | .fn _ ps b =>
    Kind.fnKw.mark :: Kind.lparen.mark ::
      (separated (ps.map fun x => [x.word]) ++ Kind.rparen.mark :: b.words)
  | .call _ f es =>
    f.words ++ Kind.lparen.mark :: (separated (wordsExprs es) ++ [Kind.rparen.mark])
  | .array _ es => Kind.lbracket.mark :: (separated (wordsExprs es) ++ [Kind.rbracket.mark])
  | .hash _ kvs => Kind.lbrace.mark :: (separated (wordsPairs kvs) ++ [Kind.rbrace.mark])
  | .index _ e i =>
    Kind.lparen.mark ::
      (e.words ++ Kind.lbracket.mark :: (i.words ++ [Kind.rbracket.mark, Kind.rparen.mark]))
  | .forIn _ i v x b =>
    Kind.forKw.mark :: i.word :: Kind.comma.mark :: v.word :: Kind.inKw.mark :: x.word :: b.words

def Stmt.words : Stmt → List Token
  | .declare _ constant x e =>
    (if constant then Kind.constKw else Kind.letKw).mark :: x.word :: Kind.assign.mark ::
      (e.words ++ [Kind.semicolon.mark])
  | .ret _ e => Kind.returnKw.mark :: (e.words ++ [Kind.semicolon.mark])
  | .expr _ e => e.words
  | .block b => b.words

def Block.words : Block → List Token
  | .mk _ ss => Kind.lbrace.mark :: ((wordsStmts ss).flatten ++ [Kind.rbrace.mark])

def wordsElse : Option Block → List Token
  | none => []
  | some b => Kind.elseKw.mark :: b.words

def wordsExprs : List Expr → List (List Token)
  | [] => []
  | e :: es => e.words :: wordsExprs es

def wordsPairs : List (Expr × Expr) → List (List Token)
  | [] => []
  | (k, v) :: kvs => (k.words ++ Kind.colon.mark :: v.words) :: wordsPairs kvs

def wordsStmts : List Stmt → List (List Token)
  | [] => []
  | s :: ss => s.words :: wordsStmts ss

end

def Program.words (P : Program) : List Token := (wordsStmts P.stmts).flatten

theorem wordsExprs_eq_map (es : List Expr) : wordsExprs es = es.map Expr.words := by
  induction es with
  | nil => rfl
  | cons e es ih => rw [wordsExprs, ih, List.map_cons]

theorem wordsPairs_eq_map (kvs : List (Expr × Expr)) :
    wordsPairs kvs = kvs.map fun kv => kv.1.words ++ Kind.colon.mark :: kv.2.words := by
  induction kvs with
  | nil => rfl
  | cons kv kvs ih => rw [wordsPairs, ih, List.map_cons]

/-! ## How a text starts -/

/-- The kinds that the canonical text of an expression can start with. -/
def Kind.leads : Kind → Bool
  | ident | int | string | trueKw | falseKw | nullKw | lparen | ifKw | fnKw | lbracket | lbrace
  | forKw => true
  | _ => false

theorem Expr.exists_words : (e : Expr) → ∃ t ws, e.words = t :: ws ∧ t.kind.leads
  | .ident _ | .int _ _ | .str _ _ | .null _ | .unary _ _ _ | .binary _ _ _ _ | .assign _ _ _
  | .ifElse _ _ _ _ | .fn _ _ _ | .array _ _ | .hash _ _ | .index _ _ _ | .forIn _ _ _ _ _ =>
    ⟨_, _, rfl, rfl⟩
  | .bool _ true | .bool _ false => ⟨_, _, rfl, rfl⟩
  | .call _ f _ => by
    obtain ⟨t, ws, hf, ht⟩ := f.exists_words
    exact ⟨t, _, by rw [words, hf, List.cons_append], ht⟩

/-! ## Trees that can be written -/

/-- The names, numbers and strings that stand right in the expression are spelled as such. -/
def Expr.Written : Expr → Prop
  | .ident x => IsName x.name
  | .int _ n => 0 ≤ n.toInt
  | .str _ s => '"' ∉ s.toList
  | .assign _ x _ => IsName x.name
  | .fn _ ps _ => ∀ x ∈ ps, IsName x.name
  | .forIn _ i v x _ => IsName i.name ∧ IsName v.name ∧ IsName x.name
  | _ => True

/-- The same of a statement. No statement is just a block. -/
def Stmt.Written : Stmt → Prop
  | .declare _ _ x _ => IsName x.name
  | .block _ => False
  | _ => True

def StmtsWritten (ss : List Stmt) : Prop := ∀ s ∈ ss, s.Written

/-! ## Pieces of text -/

section Pieces

variable {s s' : String} {ws ws' : List Token}

theorem Spells.of_eq (h : Spells s ws) (hws : ws = ws') : Spells s ws' := hws ▸ h

theorem Ident.spells {x : Ident} (h : IsName x.name) : Spells x.name [x.word] := spells_name h

theorem Spells.bang {t : Token} (h : Spells s (t :: ws)) (ht : t.kind.leads) :
    Spells ("!" ++ s) (Kind.bang.mark :: t :: ws) := by
  intro more hmore
  -- An equals sign right after it would make the sign another one.
  have hne : (s.toList ++ more).head? ≠ some '=' := by
    intro heq
    obtain ⟨cs, hcs⟩ := List.head?_eq_some_iff.1 heq
    have hlex := h more hmore
    rw [hcs] at hlex
    rcases kind_of_lexed_equals hlex with hk | hk <;> rw [hk] at ht <;> cases ht
  rw [String.toList_append, List.append_assoc]
  exact (lexed_bang hne).trans (congrArg _ (h more hmore))

theorem spells_intercalate {sep : String} {seps : List Token} (hsep : Delimiter sep seps)
    {ss : List String} {wss : List (List Token)}
    (h : List.Forall₂ Spells ss wss) : Spells (sep.intercalate ss) (seps.intercalate wss) := by
  induction h with
  | nil => exact sealed_empty.spells
  | @cons s ws ss wss hs hss ih =>
    cases hss with
    | nil => simpa using hs
    | cons h h' =>
      rw [String.intercalate_cons_cons, List.intercalate_cons_cons]
      exact (hs.close hsep).spell ih

theorem intercalate_nil (wss : List (List Token)) : [].intercalate wss = wss.flatten := by
  induction wss with
  | nil => rfl
  | cons ws wss ih =>
    cases wss with
    | nil => simp
    | cons ws' wss => rw [List.intercalate_cons_cons, ih]; simp

namespace Delimiter

theorem space : Delimiter " " [] := delimiter_gap (c := ' ') (by decide)

theorem comma : Delimiter ", " [Kind.comma.mark] :=
  (delimiter_punctuation ',' rfl).append space.sealed

theorem equals : Delimiter " = " [Kind.assign.mark] := space.append sealed_assign

theorem colon : Delimiter ": " [Kind.colon.mark] :=
  (delimiter_punctuation ':' rfl).append space.sealed

theorem semicolon : Delimiter ";" [Kind.semicolon.mark] := delimiter_punctuation ';' rfl

theorem lparen : Delimiter "(" [Kind.lparen.mark] := delimiter_punctuation '(' rfl

theorem rparen : Delimiter ")" [Kind.rparen.mark] := delimiter_punctuation ')' rfl

theorem lbracket : Delimiter "[" [Kind.lbracket.mark] := delimiter_punctuation '[' rfl

theorem rbracket : Delimiter "]" [Kind.rbracket.mark] := delimiter_punctuation ']' rfl

theorem lbrace : Delimiter "\x7b" [Kind.lbrace.mark] := delimiter_punctuation '\x7b' rfl

theorem rbrace : Delimiter "\x7d" [Kind.rbrace.mark] := delimiter_punctuation '\x7d' rfl

end Delimiter

theorem spells_separated {ss : List String} {wss : List (List Token)}
    (h : List.Forall₂ Spells ss wss) : Spells (", ".intercalate ss) (separated wss) :=
  spells_intercalate Delimiter.comma h

/-- A word is checked character by character. -/
theorem isWord_of_all {s : String} {c : Char} {cs : List Char} (hs : s.toList = c :: cs)
    (hc : isWordStart c = true) (hcs : cs.all isWordPart = true) : IsWord s :=
  ⟨c, cs, hs, hc, List.all_eq_true.1 hcs⟩

/-- A keyword and the blank after it. -/
theorem sealed_keyword {k : Kind} (hk : k ∈ Kind.keywords) :
    Sealed (k.spelling ++ " ") [k.mark] := by
  have hword : IsWord k.spelling ∧ Kind.ofWord k.spelling = k := by
    fin_cases hk <;> exact ⟨isWord_of_all rfl rfl rfl, by decide⟩
  have h := spells_word hword.1
  rw [hword.2] at h
  exact h.close Delimiter.space

theorem sealed_fn : Sealed "fn(" [Kind.fnKw.mark, Kind.lparen.mark] := by
  have hword : IsWord "fn" := isWord_of_all rfl rfl rfl
  exact (spells_word hword).close Delimiter.lparen

theorem BinaryOp.sealed_spelling (op : BinaryOp) : Sealed op.spelling [op.kind.mark] := by
  cases op with
  | add => exact (delimiter_punctuation '+' rfl).sealed
  | sub => exact (delimiter_punctuation '-' rfl).sealed
  | mul => exact (delimiter_punctuation '*' rfl).sealed
  | div => exact (delimiter_punctuation '/' rfl).sealed
  | lt => exact (delimiter_punctuation '<' rfl).sealed
  | gt => exact (delimiter_punctuation '>' rfl).sealed
  | eq => exact sealed_equal
  | ne => exact sealed_notEqual

theorem UnaryOp.spells (op : UnaryOp) {t : Token} (h : Spells s (t :: ws)) (ht : t.kind.leads) :
    Spells (op.spelling ++ s) (op.kind.mark :: t :: ws) := by
  cases op with
  | not => exact h.bang ht
  | neg => exact (delimiter_punctuation '-' rfl).sealed.spell h

/-! ## Numbers -/

theorem Integer.toList_text {n : Integer} (h : 0 ≤ n.toInt) :
    n.text.toList = Nat.toDigits 10 n.toInt.toNat := by
  obtain ⟨m, hm⟩ := Int.eq_ofNat_of_zero_le h
  rw [Integer.text, hm, Int.toNat_natCast]
  exact Nat.toList_repr

theorem Integer.spells_text {n : Integer} (h : 0 ≤ n.toInt) :
    Spells n.text [⟨.int, n.text, .start⟩] := by
  have htext := Integer.toList_text h
  refine spells_digits ?_ fun c hc => ?_
  · rw [htext]; exact Nat.toDigits_ne_nil
  · rw [htext] at hc; exact Nat.isDigit_of_mem_toDigits (by decide) (by decide) hc

end Pieces

/-! ## The canonical text -/

theorem spells_renderNames {xs : List Ident} (h : ∀ x ∈ xs, IsName x.name) :
    Spells (renderNames xs) (separated (xs.map fun x => [x.word])) := by
  refine spells_separated (List.forall₂_map_left_iff.2 (List.forall₂_map_right_iff.2 ?_))
  exact List.forall₂_same.2 fun x hx => Ident.spells (h x hx)

/-- The texts of statements in braces. -/
theorem sealed_braced {ss : List String} {wss : List (List Token)}
    (h : List.Forall₂ Spells ss wss) :
    Sealed (braced ss) (Kind.lbrace.mark :: (wss.flatten ++ [Kind.rbrace.mark])) := by
  cases h with
  | nil => exact Delimiter.lbrace.sealed.append Delimiter.rbrace.sealed
  | cons hs hss =>
    have hstmts := spells_intercalate Delimiter.space (.cons hs hss)
    rw [intercalate_nil] at hstmts
    exact ((Delimiter.lbrace.sealed.append Delimiter.space.sealed).spell hstmts).close
      (Delimiter.space.append Delimiter.rbrace.sealed)

mutual

theorem Expr.spells_render :
    (e : Expr) → e.Every Expr.Written StmtsWritten → Spells e.render e.words
  | .ident _, h => Ident.spells h
  | .int _ _, h => Integer.spells_text h
  | .str _ _, h => (sealed_string h).spells
  | .bool _ true, _ => spells_word (s := "true") (isWord_of_all rfl rfl rfl)
  | .bool _ false, _ => spells_word (s := "false") (isWord_of_all rfl rfl rfl)
  | .null _, _ => spells_word (s := "null") (isWord_of_all rfl rfl rfl)
  | .unary _ op e, h => by
    obtain ⟨t, ws, hws, ht⟩ := e.exists_words
    have he := e.spells_render h.2
    rw [hws] at he
    have h := (Delimiter.lparen.sealed.spell (op.spells he ht)).close Delimiter.rparen
    rw [← String.append_assoc] at h
    exact h.spells.of_eq (by simp [Expr.words, hws])
  | .binary _ op l r, h => by
    have hleft := (Delimiter.lparen.sealed.spell (l.spells_render h.2.1)).close Delimiter.space
    have hop := (hleft.append op.sealed_spelling).append Delimiter.space.sealed
    have := (hop.spell (r.spells_render h.2.2)).close Delimiter.rparen
    exact this.spells.of_eq (by simp [Expr.words])
  | .assign _ x e, h => by
    have hx := (Ident.spells h.1).close Delimiter.equals
    exact (hx.spell (e.spells_render h.2)).of_eq (by simp [Expr.words])
  | .ifElse _ e yes no, h => by
    have htest := (sealed_keyword (k := .ifKw) (by decide)).spell (e.spells_render h.2.1)
    have hyes := (htest.close Delimiter.space).append (yes.sealed_render h.2.2.1)
    exact (hyes.append (sealed_renderElse no h.2.2.2)).spells.of_eq (by simp [Expr.words])
  | .fn _ ps b, h => by
    have hps := (sealed_fn.spell (spells_renderNames h.1)).close
      (Delimiter.rparen.append Delimiter.space.sealed)
    exact (hps.append (b.sealed_render h.2)).spells.of_eq (by simp [Expr.words])
  | .call _ f es, h => by
    have hf := (f.spells_render h.2.1).close Delimiter.lparen
    have hes := (hf.spell (spells_separated (spells_renderExprs es h.2.2))).close Delimiter.rparen
    exact hes.spells.of_eq (by simp [Expr.words])
  | .array _ es, h => by
    have hes := spells_separated (spells_renderExprs es h.2)
    have hlist := (Delimiter.lbracket.sealed.spell hes).close Delimiter.rbracket
    exact hlist.spells.of_eq (by simp [Expr.words])
  | .hash _ kvs, h => by
    have hkvs := spells_separated (spells_renderPairs kvs h.2)
    have hhash := (Delimiter.lbrace.sealed.spell hkvs).close Delimiter.rbrace
    exact hhash.spells.of_eq (by simp [Expr.words])
  | .index _ e i, h => by
    have he := (Delimiter.lparen.sealed.spell (e.spells_render h.2.1)).close Delimiter.lbracket
    have hi := (he.spell (i.spells_render h.2.2)).close
      (Delimiter.rbracket.append Delimiter.rparen.sealed)
    exact hi.spells.of_eq (by simp [Expr.words])
  | .forIn _ i v x b, h => by
    obtain ⟨hi, hv, hx⟩ := h.1
    have hi := ((sealed_keyword (k := .forKw) (by decide)).spell (Ident.spells hi)).close
      Delimiter.comma
    have hv := (hi.spell (Ident.spells hv)).close
      (Delimiter.space.append (sealed_keyword (k := .inKw) (by decide)))
    have hx := (hv.spell (Ident.spells hx)).close Delimiter.space
    exact (hx.append (b.sealed_render h.2)).spells.of_eq (by simp [Expr.words])

theorem Stmt.spells_render :
    (s : Stmt) → s.Written → s.Every Expr.Written StmtsWritten → Spells s.render s.words
  | .declare _ true x e, hx, h => by
    have hx := ((sealed_keyword (k := .constKw) (by decide)).spell (Ident.spells hx)).close
      Delimiter.equals
    have he := (hx.spell (e.spells_render h)).close Delimiter.semicolon
    exact he.spells.of_eq (by simp [Stmt.words])
  | .declare _ false x e, hx, h => by
    have hx := ((sealed_keyword (k := .letKw) (by decide)).spell (Ident.spells hx)).close
      Delimiter.equals
    have he := (hx.spell (e.spells_render h)).close Delimiter.semicolon
    exact he.spells.of_eq (by simp [Stmt.words])
  | .ret _ e, _, h => by
    have he := ((sealed_keyword (k := .returnKw) (by decide)).spell (e.spells_render h)).close
      Delimiter.semicolon
    exact he.spells.of_eq (by simp [Stmt.words])
  | .expr _ e, _, h => e.spells_render h

theorem Block.sealed_render :
    (b : Block) → b.Every Expr.Written StmtsWritten → Sealed b.render b.words
  | .mk _ ss, h => sealed_braced (spells_renderStmts ss h.1 h.2)

theorem sealed_renderElse :
    (no : Option Block) → everyElse Expr.Written StmtsWritten no →
      Sealed (renderElse no) (wordsElse no)
  | none, _ => sealed_empty
  | some b, h =>
    (Delimiter.space.sealed.append (sealed_keyword (k := .elseKw) (by decide))).append
      (b.sealed_render h)

theorem spells_renderExprs :
    (es : List Expr) → everyExprs Expr.Written StmtsWritten es →
      List.Forall₂ Spells (renderExprs es) (wordsExprs es)
  | [], _ => .nil
  | e :: es, h => .cons (e.spells_render h.1) (spells_renderExprs es h.2)

theorem spells_renderPairs :
    (kvs : List (Expr × Expr)) → everyPairs Expr.Written StmtsWritten kvs →
      List.Forall₂ Spells (renderPairs kvs) (wordsPairs kvs)
  | [], _ => .nil
  | (k, v) :: kvs, h => by
    have hk := (k.spells_render h.1).close Delimiter.colon
    exact .cons ((hk.spell (v.spells_render h.2.1)).of_eq (by simp)) (spells_renderPairs kvs h.2.2)

theorem spells_renderStmts :
    (ss : List Stmt) → StmtsWritten ss → everyStmts Expr.Written StmtsWritten ss →
      List.Forall₂ Spells (renderStmts ss) (wordsStmts ss)
  | [], _, _ => .nil
  | s :: ss, hw, h =>
    .cons (s.spells_render (hw s List.mem_cons_self) h.1)
      (spells_renderStmts ss (fun s hs => hw s (List.mem_cons_of_mem _ hs)) h.2)

end

/-- **Read back, the canonical text of a program gives its words.** -/
theorem Program.lexed_render {P : Program} (h : P.Every Expr.Written StmtsWritten) :
    lexed P.render.toList = P.words := by
  have hspells := spells_intercalate (delimiter_gap (c := '\n') (by decide))
    (spells_renderStmts P.stmts h.1 h.2)
  have hlex := hspells [] apart_nil
  rw [List.append_nil, lexed_nil, List.append_nil, intercalate_nil] at hlex
  exact hlex

end Scriptlet
