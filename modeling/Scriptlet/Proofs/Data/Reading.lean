import Scriptlet.Proofs.Arithmetic
import Scriptlet.Proofs.Data

/-!
# Reading the text of data

**Theorem (`Data.parse_text`).** The text of data is read as one expression, which is the literal
of the data (`Data.expr`) up to tokens.

This is no case of reading a canonical text back. The canonical text of a negative number puts
the sign and the digits in parentheses, and the text of data does not, so its words are derived
here. A negative number is read as the negation of its digits, which is why the least integer
cannot be read: its digits are too large a number.
-/

namespace Scriptlet

/-! ## Literals -/

/-- The word of a number that is not negative. -/
def numeral (m : Nat) : Token := ⟨.int, toString m, .start⟩

def intWords : Int → List Token
  | .ofNat m => [numeral m]
  | .negSucc m => [Kind.minus.mark, numeral (m + 1)]

def intExpr : Int → Expr
  | .ofNat m => .int (numeral m) (.ofNat m)
  | .negSucc m => .unary Kind.minus.mark .neg (.int (numeral (m + 1)) (.ofNat (m + 1)))

def boolKind (b : Bool) : Kind := if b then .trueKw else .falseKw

def Scalar.words : Scalar → List Token
  | integer n _ => intWords n.toInt
  | bool b => [(boolKind b).mark]

def Scalar.expr : Scalar → Expr
  | integer n _ => intExpr n.toInt
  | bool b => .bool (boolKind b).mark b

mutual

def Data.words : Data → List Token
  | .scalar s => s.words
  | .null => [Kind.nullKw.mark]
  | .array ds => Kind.lbracket.mark :: (separated (itemWords ds) ++ [Kind.rbracket.mark])
  | .hash es => Kind.lbrace.mark :: (separated (entryWords es) ++ [Kind.rbrace.mark])

def itemWords : List Data → List (List Token)
  | [] => []
  | d :: ds => d.words :: itemWords ds

def entryWords : List (Scalar × Data) → List (List Token)
  | [] => []
  | (s, d) :: es => (s.words ++ Kind.colon.mark :: d.words) :: entryWords es

end

mutual

def Data.expr : Data → Expr
  | .scalar s => s.expr
  | .null => .null Kind.nullKw.mark
  | .array ds => .array Kind.lbracket.mark (itemExprs ds)
  | .hash es => .hash Kind.lbrace.mark (entryExprs es)

def itemExprs : List Data → List Expr
  | [] => []
  | d :: ds => d.expr :: itemExprs ds

def entryExprs : List (Scalar × Data) → List (Expr × Expr)
  | [] => []
  | (s, d) :: es => (s.expr, d.expr) :: entryExprs es

end

theorem length_itemWords (ds : List Data) : (itemWords ds).length = (itemExprs ds).length := by
  induction ds with
  | nil => rfl
  | cons _ _ ih => exact congrArg Nat.succ ih

theorem length_entryWords (es : List (Scalar × Data)) :
    (entryWords es).length = (entryExprs es).length := by
  induction es with
  | nil => rfl
  | cons _ _ ih => exact congrArg Nat.succ ih

/-! ## The text spells the words -/

theorem toList_toString_nat (m : Nat) : (toString m).toList = Nat.toDigits 10 m := Nat.toList_repr

theorem spells_numeral (m : Nat) : Spells (toString m) [numeral m] := by
  have htext := toList_toString_nat m
  refine spells_digits ?_ fun c hc => ?_
  · rw [htext]; exact Nat.toDigits_ne_nil
  · rw [htext] at hc; exact Nat.isDigit_of_mem_toDigits (by decide) (by decide) hc

theorem spells_toString_int : (n : Int) → Spells (toString n) (intWords n)
  | .ofNat m => spells_numeral m
  | .negSucc m => (delimiter_punctuation '-' rfl).sealed.spell (spells_numeral (m + 1))

theorem Scalar.spells : (s : Scalar) → Spells s.key.text s.words
  | integer n _ => spells_toString_int n.toInt
  | bool true => spells_word (s := "true") (isWord_of_all rfl rfl rfl)
  | bool false => spells_word (s := "false") (isWord_of_all rfl rfl rfl)

mutual

theorem Data.spells : (d : Data) → Spells d.text d.words
  | .scalar s => s.spells
  | .null => spells_word (s := "null") (isWord_of_all rfl rfl rfl)
  | .array ds => by
    have hds := spells_separated (spells_items ds)
    exact ((Delimiter.lbracket.sealed.spell hds).close Delimiter.rbracket).spells
  | .hash es => by
    have hes := spells_separated (spells_entries es)
    exact ((Delimiter.lbrace.sealed.spell hes).close Delimiter.rbrace).spells

theorem spells_items : (ds : List Data) → List.Forall₂ Spells (itemTexts ds) (itemWords ds)
  | [] => .nil
  | d :: ds => .cons d.spells (spells_items ds)

theorem spells_entries :
    (es : List (Scalar × Data)) → List.Forall₂ Spells (entryTexts es) (entryWords es)
  | [] => .nil
  | (s, d) :: es =>
    .cons (((s.spells.close Delimiter.colon).spell d.spells).of_eq (by simp)) (spells_entries es)

end

/-! ## The words derive the literal -/

/-- Where nothing goes on with it, a head is the whole expression. -/
theorem HeadAt.whole {p : Precedence} {t : Token} {ts rest : List Token} {e : Expr}
    (h : HeadAt t.kind t ts e rest) (hrest : Ended rest) : ExprAt p (t :: ts) e rest :=
  .mk h (.of_ended hrest.suffix)

theorem exprAt_numeral {p : Precedence} {m : Nat} (hm : m ≤ 2 ^ 63 - 1) {rest : List Token}
    (hrest : Ended rest) :
    ExprAt p (numeral m :: rest) (.int (numeral m) (.ofNat m)) rest := by
  have hdec : decimal (numeral m).text = m := by
    rw [numeral, decimal, toList_toString_nat, Nat.ofDigitChars_ten_toDigits]
  have hhead : HeadAt .int (numeral m) rest (.int (numeral m) (.ofNat (decimal (numeral m).text)))
      rest := .int (by rw [hdec]; exact hm)
  rw [hdec] at hhead
  exact hhead.whole hrest

theorem exprAt_int {n : Int} (hlower : -2 ^ 63 < n) (hupper : n < 2 ^ 63) {rest : List Token}
    (hrest : Ended rest) : ExprAt .lowest (intWords n ++ rest) (intExpr n) rest := by
  cases n with
  | ofNat m => exact exprAt_numeral (by rw [Int.ofNat_eq_natCast] at hupper; omega) hrest
  | negSucc m =>
    have hdigits : ExprAt .unary (numeral (m + 1) :: rest) _ rest :=
      exprAt_numeral (by omega) hrest
    exact HeadAt.whole (.neg hdigits) hrest

theorem lt_toInt_of_ne_minValue {n : Integer} (h : n ≠ Int64.minValue) : -2 ^ 63 < n.toInt := by
  have hle := n.le_toInt
  have hne : n.toInt ≠ -2 ^ 63 := fun heq => h (Int64.toInt_inj.1 heq)
  omega

theorem Scalar.exprAt : (s : Scalar) → {rest : List Token} → Ended rest →
    ExprAt .lowest (s.words ++ rest) s.expr rest
  | integer n h, _, hrest => exprAt_int (lt_toInt_of_ne_minValue h) n.toInt_lt hrest
  | bool true, _, hrest => HeadAt.whole .yes hrest
  | bool false, _, hrest => HeadAt.whole .no hrest

mutual

theorem Data.exprAt : (d : Data) → {rest : List Token} → Ended rest →
    ExprAt .lowest (d.words ++ rest) d.expr rest
  | .scalar s, _, hrest => s.exprAt hrest
  | .null, _, hrest => HeadAt.whole .null hrest
  | .array ds, rest, hrest => by
    rw [Data.words, List.cons_append, List.append_assoc]
    exact HeadAt.whole (.array (listAt_items ds rest)) hrest
  | .hash es, rest, hrest => by
    rw [Data.words, List.cons_append, List.append_assoc]
    exact HeadAt.whole (.hash (pairsAt_entries es rest)) hrest

theorem listAt_items : (ds : List Data) → (rest : List Token) →
    ListAt .rbracket (separated (itemWords ds) ++ Kind.rbracket.mark :: rest) (itemExprs ds) rest
  | [], _ => .none rfl
  | d :: ds, rest =>
    (listAt_items ds rest).cons (length_itemWords ds) (.of_kind rfl rfl (by decide))
      fun _ => d.exprAt

theorem pairsAt_entries : (es : List (Scalar × Data)) → (rest : List Token) →
    PairsAt (separated (entryWords es) ++ Kind.rbrace.mark :: rest) (entryExprs es) rest
  | [], _ => .none rfl
  | (s, d) :: es, rest =>
    (pairsAt_entries es rest).cons (length_entryWords es) (fun _ => s.exprAt) fun _ => d.exprAt

end

/-! ## Whole texts -/

/-- A text whose words derive one expression is read as this expression, up to tokens. -/
theorem parse_of_exprAt {text : String} {ws : List Token} {e : Expr} (htext : Spells text ws)
    (he : ExprAt .lowest ws e []) :
    ∃ k e', parse text = .ok ⟨[.expr k e']⟩ ∧ e'.bare = e.bare := by
  obtain ⟨t, us, hws⟩ : ∃ t us, ws = t :: us := by cases he with | mk _ _ => exact ⟨_, _, rfl⟩
  rw [hws] at he
  have hprogram : ProgramAt ws [.expr t e] := hws ▸ .more (.bare (.expr he) nofun) .finish
  have hlexed : lexed text.toList = ws := by simpa using htext [] apart_nil
  have halike : Alike ws (TokenStream.ofSource text).tokens := by
    rw [alike_iff, ← hlexed, map_unplaced_lexed]
    rfl
  obtain ⟨ss, hss, hbare⟩ := hprogram.move halike
  obtain ⟨k, e', rfl, he'⟩ := eq_expr_of_bareStmts hbare
  exact ⟨k, e', parse_eq_ok_iff_programAt.2 hss, he'⟩

/-- **The text of data is read as its literal**, up to tokens. -/
theorem Data.parse_text (d : Data) :
    ∃ k e, parse d.text = .ok ⟨[.expr k e]⟩ ∧ e.bare = d.expr.bare := by
  have hexpr : ExprAt .lowest (d.words ++ []) d.expr [] := d.exprAt ended_nil
  rw [List.append_nil] at hexpr
  exact parse_of_exprAt d.spells hexpr

end Scriptlet
