import Scriptlet.Proofs.Data.Reading
import Scriptlet.Proofs.Scanning.Tiling

/-!
# Numbers at the head of a text

`StartsWithNumber cs r` says what it is for a text to start with a number, without reference to any
way of reading one: there may be blanks, there may be a sign, and then come decimal digits, all
there are up to something that is no digit.

**Theorem (`text_to_integer_exact`).** `int` gives the number that a text starts with if 64 bits
hold it, and `null` in every other case. So what is printed of an integer reads back, the least one
included, whatever blanks stand before it and whatever but a digit after it. A text of digits alone
is an integer to `int` exactly if it is one as a source, and as a source it is the same integer;
otherwise it is reported as out of range.

A source never has a sign in a literal, so the literal and `int` agree on digits only. They agree
because both take the exact decimal value and ask whether 64 bits hold it (`Integer.ofInt?`).
-/

namespace Scriptlet

/-! ## Numbers in a text -/

/-- What may stand between the blanks and the digits of a number. -/
inductive Sign where
  | none | plus | minus
deriving DecidableEq, Repr

namespace Sign

def chars : Sign → List Char
  | none => []
  | plus => ['+']
  | minus => ['-']

/-- The number of the sign and a magnitude. -/
def number : Sign → Nat → Int
  | minus, m => -m
  | _, m => m

end Sign

/-- The text starts with the number `r`. -/
inductive StartsWithNumber : List Char → Int → Prop
  | intro {blanks digits rest : List Char} (sign : Sign) :
      (∀ c ∈ blanks, Text.isBlank c) → digits ≠ [] → MaximalRun Char.isDigit digits rest →
      StartsWithNumber (blanks ++ (sign.chars ++ (digits ++ rest)))
        (sign.number (decimal (String.ofList digits)))

/-! ## Reading -/

section

variable {text : String} {r : Int} {n : Integer}

/-- No digit is blank. -/
theorem not_isBlank_of_isDigit {c : Char} (h : c.isDigit) : Text.isBlank c = false := by
  have hrange : 48 ≤ c.toNat ∧ c.toNat ≤ 57 := by
    simpa [Char.isDigit, UInt32.le_iff_toNat_le] using h
  refine Bool.eq_false_iff.2 fun hblank => ?_
  obtain ⟨range, hmem, hle, hge⟩ := Text.CodeRanges.contains_iff.1 hblank
  simp only [Text.blankRanges, List.mem_cons, List.not_mem_nil, or_false] at hmem
  rcases hmem with rfl | rfl | rfl | rfl | rfl | rfl | rfl | rfl | rfl | rfl <;> simp at hle hge <;>
    omega

/-- Every text has at its head a sign, perhaps none, and `takeSign` takes it off. -/
theorem exists_sign (cs : List Char) : ∃ sign : Sign,
    cs = sign.chars ++ (Native.takeSign cs).2 ∧
      (Native.takeSign cs).1 = decide (sign = .minus) := by
  unfold Native.takeSign
  split
  · exact ⟨.minus, rfl, rfl⟩
  · exact ⟨.plus, rfl, rfl⟩
  · exact ⟨.none, rfl, rfl⟩

theorem takeSign_append (sign : Sign) {c : Char} (hc : c.isDigit) (cs : List Char) :
    Native.takeSign (sign.chars ++ c :: cs) = (decide (sign = .minus), c :: cs) := by
  cases sign with
  | plus => rfl
  | minus => rfl
  | none =>
    show Native.takeSign (c :: cs) = (false, c :: cs)
    unfold Native.takeSign
    split
    · rename_i heq
      cases heq
      exact absurd hc (by decide)
    · rename_i heq
      cases heq
      exact absurd hc (by decide)
    · rfl

theorem ofDigits?_eq (sign : Sign) {digits : List Char} (h : digits ≠ []) :
    Integer.ofDigits? (decide (sign = .minus)) digits =
      Integer.ofInt? (sign.number (decimal (String.ofList digits))) := by
  rw [Integer.ofDigits?, if_neg (by simpa using h), decimal, String.toList_ofList]
  cases sign <;> rfl

/-- **The number is read**, if 64 bits hold it. -/
theorem leadingInteger?_eq (h : StartsWithNumber text.toList r) :
    Native.leadingInteger? text = Integer.ofInt? r := by
  generalize htext : text.toList = cs at h
  obtain ⟨sign, hblanks, hne, hrun⟩ := h
  rename_i blanks digits rest
  obtain ⟨d, ds, rfl⟩ := List.exists_cons_of_ne_nil hne
  have hd : d.isDigit := hrun.all d List.mem_cons_self
  have hdrop : (blanks ++ (sign.chars ++ (d :: ds ++ rest))).dropWhile Text.isBlank =
      sign.chars ++ d :: (ds ++ rest) := by
    rw [List.dropWhile_append_of_pos hblanks]
    cases sign with
    | none => exact List.dropWhile_cons_of_neg (by simp [not_isBlank_of_isDigit hd])
    | plus => rfl
    | minus => rfl
  have htake : (d :: (ds ++ rest)).takeWhile Char.isDigit = d :: ds := by
    rw [← List.cons_append, List.takeWhile_append_of_pos hrun.all]
    cases rest with
    | nil => simp
    | cons c rest => simp [hrun.stops c rfl]
  rw [Native.leadingInteger?, htext, hdrop, takeSign_append sign hd]
  show Integer.ofDigits? _ ((d :: (ds ++ rest)).takeWhile Char.isDigit) = _
  rw [htake, ofDigits?_eq sign hne]

/-- What is read is a number that the text starts with. -/
theorem startsWithNumber_of_leadingInteger? (h : Native.leadingInteger? text = some n) :
    StartsWithNumber text.toList n.toInt := by
  obtain ⟨sign, hsigned, hminus⟩ := exists_sign (text.toList.dropWhile Text.isBlank)
  generalize hrest : (Native.takeSign (text.toList.dropWhile Text.isBlank)).2 = cs at hsigned
  rw [Native.leadingInteger?, hrest, hminus] at h
  have hne : cs.takeWhile Char.isDigit ≠ [] := by
    intro hnil
    rw [hnil] at h
    cases h
  rw [ofDigits?_eq sign hne, Integer.ofInt?_eq_some_iff] at h
  have htext : text.toList = text.toList.takeWhile Text.isBlank ++
      (sign.chars ++ (cs.takeWhile Char.isDigit ++ cs.dropWhile Char.isDigit)) := by
    rw [List.takeWhile_append_dropWhile, ← hsigned, List.takeWhile_append_dropWhile]
  rw [htext, h]
  exact .intro sign (maximalRun_takeWhile Text.isBlank text.toList).all hne
    (maximalRun_takeWhile Char.isDigit cs)

theorem leadingInteger?_eq_some_iff :
    Native.leadingInteger? text = some n ↔ StartsWithNumber text.toList n.toInt :=
  ⟨startsWithNumber_of_leadingInteger?, fun h => by rw [leadingInteger?_eq h, Integer.ofInt?_toInt]⟩

theorem leadingInteger?_eq_none_iff :
    Native.leadingInteger? text = none ↔ ¬ ∃ r, StartsWithNumber text.toList r ∧ Held r := by
  rw [Option.eq_none_iff_forall_ne_some]
  constructor
  · rintro h ⟨r, hr, hheld⟩
    obtain ⟨n, rfl⟩ := held_iff.1 hheld
    exact h n (leadingInteger?_eq_some_iff.2 hr)
  · intro h n hn
    exact h ⟨n.toInt, leadingInteger?_eq_some_iff.1 hn, held_iff.2 ⟨n, rfl⟩⟩

/-- Digits alone are read as they are in a literal. -/
theorem leadingInteger?_of_digits (hne : text.toList ≠ []) (hd : ∀ c ∈ text.toList, c.isDigit) :
    Native.leadingInteger? text = Integer.ofDigits? false text.toList := by
  have hstarts : StartsWithNumber ([] ++ (Sign.none.chars ++ (text.toList ++ [])))
      (Sign.none.number (decimal (String.ofList text.toList))) :=
    .intro .none nofun hne ⟨hd, nofun⟩
  rw [List.append_nil] at hstarts
  rw [leadingInteger?_eq hstarts]
  exact (ofDigits?_eq .none hne).symm

end

/-! ## Printing -/

theorem maximalRun_toString (m : Nat) {rest : List Char}
    (hrest : ∀ c ∈ rest.head?, c.isDigit = false) :
    MaximalRun Char.isDigit (toString m).toList rest where
  all c hc := by
    rw [toList_toString_nat] at hc
    exact Nat.isDigit_of_mem_toDigits (by decide) (by decide) hc
  stops := hrest

theorem decimal_toString (m : Nat) : decimal (toString m) = m := by
  rw [decimal, toList_toString_nat, Nat.ofDigitChars_ten_toDigits]

/-- What is printed of a number is a number that the text starts with. -/
theorem startsWithNumber_toString (n : Int) {blanks rest : List Char}
    (hblanks : ∀ c ∈ blanks, Text.isBlank c) (hrest : ∀ c ∈ rest.head?, c.isDigit = false) :
    StartsWithNumber (blanks ++ (toString n).toList ++ rest) n := by
  have hdigits (m : Nat) (sign : Sign) : StartsWithNumber
      (blanks ++ (sign.chars ++ ((toString m).toList ++ rest))) (sign.number m) := by
    have hne : (toString m).toList ≠ [] := by
      rw [toList_toString_nat]
      exact Nat.toDigits_ne_nil
    have h : StartsWithNumber _ _ := .intro sign hblanks hne (maximalRun_toString m hrest)
    rwa [String.ofList_toList, decimal_toString] at h
  rw [List.append_assoc]
  cases n with
  | ofNat m => exact hdigits m .none
  | negSucc m =>
    have hminus : toString (Int.negSucc m) = "-" ++ toString (m + 1) := rfl
    rw [hminus, String.toList_append]
    exact hdigits (m + 1) .minus

/-! ## Literals -/

section

variable {d : String}

/-- A text of digits is one token, from its first character on. -/
theorem tokens_of_digits (hne : d.toList ≠ []) (hd : ∀ c ∈ d.toList, c.isDigit) :
    (TokenStream.ofSource d).tokens = [⟨.int, d, .start⟩] := by
  have hlexed : (TokenStream.ofSource d).tokens.map Token.unplaced = [⟨.int, d, .start⟩] := by
    have hspells := spells_digits hne hd [] apart_nil
    rwa [List.append_nil, lexed_nil, List.append_nil] at hspells
  obtain ⟨c, cs, hcs⟩ := List.exists_cons_of_ne_nil hne
  have hgap : isGap c = false :=
    (alnum_of_isWordPart (isWordPart_of_isDigit (hd c (hcs ▸ List.mem_cons_self)))).gap
  rw [TokenStream.ofSource, hcs, TokenStream.scan_lexeme _ _ hgap] at hlexed ⊢
  obtain ⟨htoken, hrest⟩ := List.cons.inj hlexed
  exact congrArg₂ List.cons htoken (List.map_eq_nil_iff.1 hrest)

/-- A literal anywhere in a source is the integer that its digits are, if they are one. -/
theorem head_of_digits (r : Parse.Rules) {s : ParseState} {t : Token} (hs : s.ahead.current = t)
    (hkind : t.kind = .int) : r.head s =
      match Integer.ofDigits? false t.text.toList with
      | some n => .ok (.int t n) s
      | none => .error (.atToken t (.integerOutOfRange t.text)) s := by
  subst hs
  show (Parse.current >>= fun t => _) s = _
  rw [Run.bind_apply]
  simp only [Parse.current, Run.read_apply, hkind]
  cases Integer.ofDigits? false s.ahead.current.text.toList <;> rfl

/-- A source of one literal is a program of one expression, or of none if the literal is no
integer. -/
theorem program_of_digits (p q : Position) :
    Parse.program ⟨⟨[⟨.int, d, p⟩], q⟩, #[]⟩ =
      match Integer.ofDigits? false d.toList with
      | some n => .ok ⟨[.expr ⟨.int, d, p⟩ (.int ⟨.int, d, p⟩ n)]⟩ ⟨⟨[], q⟩, #[]⟩
      | none => .ok ⟨[]⟩ ⟨⟨[], q⟩, #[⟨.integerOutOfRange d, p⟩]⟩ := by
  let t : Token := ⟨.int, d, p⟩
  let s : ParseState := ⟨⟨[t], q⟩, #[]⟩
  have hhead := head_of_digits (Parse.rules 1) (s := s) (t := t) rfl rfl
  have hstatement : (Parse.rules 2).statement s =
      match Integer.ofDigits? false d.toList with
      | some n => .ok (.expr t (.int t n)) s
      | none => .error ⟨.integerOutOfRange d, p⟩ s := by
    show ((((Parse.rules 1).head >>= _) >>= fun e => pure (Stmt.expr t e)) >>= _) s = _
    rw [Run.bind_apply, Run.bind_apply, Run.bind_apply, hhead]
    cases Integer.ofDigits? false d.toList <;> rfl
  show ((Parse.recover (Parse.rules 2).statement >>= fun s? => Parse.advance >>= fun _ =>
    (Parse.rules 2).programStmts 2 >>= fun ss => pure (s?.toList ++ ss)) >>=
      fun ss => pure (Program.mk ss)) s = _
  rw [Run.bind_apply, Run.bind_apply, Parse.recover, hstatement]
  cases Integer.ofDigits? false d.toList <;> rfl

theorem parse_digits (hne : d.toList ≠ []) (hd : ∀ c ∈ d.toList, c.isDigit) : parse d =
    match Integer.ofDigits? false d.toList with
    | some n => .ok ⟨[.expr ⟨.int, d, .start⟩ (.int ⟨.int, d, .start⟩ n)]⟩
    | none => .error [⟨.integerOutOfRange d, .start⟩] := by
  have htokens := tokens_of_digits hne hd
  generalize hstream : TokenStream.ofSource d = stream at htokens
  obtain ⟨ts, q⟩ := stream
  cases htokens
  rw [parse, ParseState.ofSource, hstream, program_of_digits]
  cases Integer.ofDigits? false d.toList <;> rfl

end

/-! ## The native -/

/-- A call of `int` with the text gives `v`, whatever the store is, and leaves it alone. -/
def IntGives (text : String) (v : Value) : Prop :=
  ∀ run f σ, Eval.apply .standard run f (.native "int") [.string text] σ = .ok v σ

section

variable {text : String} {n : Integer} {v : Value}

theorem intGives_iff :
    IntGives text v ↔ (Native.leadingInteger? text).elim .null Value.integer = v := by
  have hcall (run : ScopeId → Stmt → Eval Value) (f : Expr) (σ : Store) :
      Eval.apply .standard run f (.native "int") [.string text] σ =
        .ok ((Native.leadingInteger? text).elim .null .integer) σ := by
    show (Eval.raising (match Native.leadingInteger? text with
      | some n => pure (.integer n)
      | none => pure .null) >>= Eval.ofNative) σ = _
    cases Native.leadingInteger? text <;> rfl
  simp only [IntGives, hcall, Outcome.ok.injEq, and_true]
  exact ⟨fun h => h (fun _ _ => Run.exhausted) (.null .blank) (.empty (.console #[])),
    fun h _ _ _ => h⟩

theorem intGives_integer_iff :
    IntGives text (.integer n) ↔ Native.leadingInteger? text = some n := by
  rw [intGives_iff]
  cases Native.leadingInteger? text <;> simp

theorem intGives_null_iff : IntGives text .null ↔ Native.leadingInteger? text = none := by
  rw [intGives_iff]
  cases Native.leadingInteger? text <;> simp

end

/-- **From text to integers**, exactly. -/
theorem text_to_integer_exact :
    (∀ text : String,
      (∀ n : Integer, IntGives text (.integer n) ↔ StartsWithNumber text.toList n.toInt) ∧
      (IntGives text .null ↔ ¬ ∃ r, StartsWithNumber text.toList r ∧ Held r)) ∧
    (∀ (n : Integer) (σ : Store) (blanks more : String), (∀ c ∈ blanks.toList, Text.isBlank c) →
      (∀ c ∈ more.toList.head?, c.isDigit = false) →
      IntGives (blanks ++ σ.text (.integer n) ++ more) (.integer n)) ∧
    ∀ digits : String, digits.toList ≠ [] → (∀ c ∈ digits.toList, c.isDigit) →
      (Fault.integerOutOfRange digits).code = "P003" ∧
      (∀ n : Integer, IntGives digits (.integer n) ↔
        ∃ k t, parse digits = .ok ⟨[.expr k (.int t n)]⟩) ∧
      (IntGives digits .null ↔ parse digits = .error [⟨.integerOutOfRange digits, .start⟩]) ∧
      ∀ (r : Parse.Rules) (s : ParseState) (t : Token), s.ahead.current = t → t.kind = .int →
        t.text = digits →
        (∀ n : Integer, IntGives digits (.integer n) ↔ r.head s = .ok (.int t n) s) ∧
        (IntGives digits .null ↔ r.head s = .error (.atToken t (.integerOutOfRange digits)) s) := by
  refine ⟨fun text => ⟨fun n => ?_, ?_⟩, fun n σ blanks more hblanks hmore => ?_,
    fun digits hne hdigits => ?_⟩
  · rw [intGives_integer_iff, leadingInteger?_eq_some_iff]
  · rw [intGives_null_iff, leadingInteger?_eq_none_iff]
  · rw [intGives_integer_iff, leadingInteger?_eq_some_iff, String.toList_append,
      String.toList_append, Store.text, Store.textWithin]
    exact startsWithNumber_toString n.toInt hblanks hmore
  · have hread := leadingInteger?_of_digits hne hdigits
    refine ⟨rfl, fun n => ?_, ?_, fun r s t hs hkind htext => ⟨fun n => ?_, ?_⟩⟩
    · rw [intGives_integer_iff, hread, parse_digits hne hdigits]
      cases Integer.ofDigits? false digits.toList <;> simp
    · rw [intGives_null_iff, hread, parse_digits hne hdigits]
      cases Integer.ofDigits? false digits.toList <;> simp
    · rw [intGives_integer_iff, hread, head_of_digits r hs hkind, htext]
      cases Integer.ofDigits? false digits.toList <;> simp
    · rw [intGives_null_iff, hread, head_of_digits r hs hkind, htext]
      cases Integer.ofDigits? false digits.toList <;> simp

/-- The least integer is read from its text. Its digits alone are none, neither to `int` nor in a
source. -/
theorem least_integer_from_text :
    (∀ σ : Store, IntGives ("\u00a0 " ++ σ.text (.integer Int64.minValue) ++ "km")
      (.integer Int64.minValue)) ∧
    IntGives "9223372036854775808" .null ∧
    parse "9223372036854775808" =
      .error [⟨.integerOutOfRange "9223372036854775808", .start⟩] := by
  obtain ⟨-, hprinted, hliteral⟩ := text_to_integer_exact
  obtain ⟨-, -, hnull, -⟩ := hliteral "9223372036854775808" (by simp) (by simp)
  have hgives : IntGives "9223372036854775808" .null := by
    rw [intGives_null_iff]
    decide +kernel
  have hblanks : Text.isBlank '\u00a0' ∧ Text.isBlank ' ' := by decide
  exact ⟨fun σ => hprinted _ σ _ _ (by simpa using hblanks) (by simp), hgives, hnull.1 hgives⟩

end Scriptlet
