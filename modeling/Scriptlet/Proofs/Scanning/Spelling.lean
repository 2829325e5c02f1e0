import Scriptlet.Proofs.Scanning

/-!
# Texts and the tokens they spell

Where a text stands changes the positions of its tokens and nothing else, so `lexed` leaves the
positions out. `Spells s ws` says that the text `s` is read as the tokens `ws` in front of
everything that stands apart from it; `Sealed s ws` says it of whatever follows. A bracket, a
quoted string and a word with a blank behind it are sealed; a word by itself is not, since a
letter right after it would make it longer.

**Theorem (`lexical_ofSource`).** Every token of a source can be written down: some text spells
it.
-/

namespace Scriptlet

/-- The token wherever it stands. -/
def Token.unplaced (t : Token) : Token := { t with position := .start }

@[simp] theorem Token.unplaced_kind (t : Token) : t.unplaced.kind = t.kind := rfl

@[simp] theorem Token.unplaced_text (t : Token) : t.unplaced.text = t.text := rfl

/-- The token of a keyword, an operator or a punctuation mark. -/
def Kind.mark (k : Kind) : Token := ⟨k, k.spelling, .start⟩

@[simp] theorem Kind.mark_kind (k : Kind) : k.mark.kind = k := rfl

/-- The tokens of a text, wherever it stands. -/
def lexed (cs : List Char) : List Token := (TokenStream.scan .start cs).tokens.map Token.unplaced

theorem map_unplaced_scan_eq (p q : Position) (cs : List Char) :
    (TokenStream.scan p cs).tokens.map Token.unplaced =
      (TokenStream.scan q cs).tokens.map Token.unplaced := by
  fun_induction TokenStream.scan p cs generalizing q with
  | case1 => rw [TokenStream.scan_nil]
  | case2 p c cs h ih => rw [TokenStream.scan_gap q cs h]; exact ih _
  | case3 p c cs h lexeme ahead ih =>
    rw [TokenStream.scan_lexeme q cs (by simpa using h), List.map_cons, List.map_cons]
    exact congrArg (List.cons _) (ih _)

theorem map_unplaced_scan (p : Position) (cs : List Char) :
    (TokenStream.scan p cs).tokens.map Token.unplaced = lexed cs := map_unplaced_scan_eq ..

@[simp] theorem lexed_nil : lexed [] = [] := by rw [lexed, TokenStream.scan_nil]; rfl

theorem lexed_gap {c : Char} (h : isGap c) (cs : List Char) : lexed (c :: cs) = lexed cs := by
  rw [lexed, TokenStream.scan_gap _ _ h, map_unplaced_scan]

theorem lexed_cons {c : Char} {cs rest : List Char} {l : Lexeme} (h : isGap c = false)
    (hread : Lexeme.read c cs = (l, rest)) :
    lexed (c :: cs) = ⟨l.kind, String.ofList l.text, .start⟩ :: lexed rest := by
  rw [lexed, TokenStream.scan_lexeme _ _ h, hread, List.map_cons, map_unplaced_scan]
  rfl

/-! ## Texts that stand apart -/

/-- Nothing at the front of `more` makes a word longer. -/
def Apart (more : List Char) : Prop := ∀ c ∈ more.head?, isWordPart c = false

theorem apart_nil : Apart [] := nofun

theorem apart_cons {c : Char} {cs : List Char} (h : isWordPart c = false) : Apart (c :: cs) := by
  rintro d ⟨⟩
  exact h

/-- The text `s` is read as the tokens `ws` in front of what stands apart from it. -/
def Spells (s : String) (ws : List Token) : Prop :=
  ∀ more, Apart more → lexed (s.toList ++ more) = ws ++ lexed more

/-- The text `s` is read as the tokens `ws` whatever follows. -/
def Sealed (s : String) (ws : List Token) : Prop :=
  ∀ more, lexed (s.toList ++ more) = ws ++ lexed more

variable {s s' : String} {ws ws' : List Token}

theorem Sealed.spells (h : Sealed s ws) : Spells s ws := fun more _ => h more

theorem Sealed.append (h : Sealed s ws) (h' : Sealed s' ws') : Sealed (s ++ s') (ws ++ ws') := by
  intro more
  rw [String.toList_append, List.append_assoc, h, h', List.append_assoc]

theorem Sealed.spell (h : Sealed s ws) (h' : Spells s' ws') : Spells (s ++ s') (ws ++ ws') := by
  intro more hmore
  rw [String.toList_append, List.append_assoc, h, h' more hmore, List.append_assoc]

/-- The text is sealed, and it stands apart from whatever is before it. -/
structure Delimiter (s : String) (ws : List Token) : Prop where
  sealed : Sealed s ws
  apart : ∃ c cs, s.toList = c :: cs ∧ isWordPart c = false

theorem Delimiter.append (h : Delimiter s ws) (h' : Sealed s' ws') :
    Delimiter (s ++ s') (ws ++ ws') := by
  obtain ⟨c, cs, hs, hc⟩ := h.apart
  exact ⟨h.sealed.append h', c, cs ++ s'.toList,
    by rw [String.toList_append, hs, List.cons_append], hc⟩

theorem Spells.close (h : Spells s ws) (h' : Delimiter s' ws') : Sealed (s ++ s') (ws ++ ws') := by
  intro more
  obtain ⟨c, cs, hs', hc⟩ := h'.apart
  have hmore : Apart (s'.toList ++ more) := hs' ▸ apart_cons hc
  rw [String.toList_append, List.append_assoc, h _ hmore, h'.sealed, List.append_assoc]

theorem sealed_empty : Sealed "" [] := fun _ => rfl

/-! ## Marks and words -/

theorem spelling_of_ofPunctuation {c : Char} {k : Kind} (h : Kind.ofPunctuation c = some k) :
    isGap c = false ∧ k.spelling = String.ofList [c] := by
  unfold Kind.ofPunctuation at h
  split at h <;> cases h <;> exact ⟨by decide, rfl⟩

theorem delimiter_punctuation {k : Kind} (c : Char) (h : Kind.ofPunctuation c = some k) :
    Delimiter k.spelling [k.mark] := by
  obtain ⟨hgap, hk⟩ := spelling_of_ofPunctuation h
  have htext : k.spelling.toList = [c] := by rw [hk, String.toList_ofList]
  have hpart : isWordPart c = false := by
    unfold Kind.ofPunctuation at h
    split at h <;> first | rfl | cases h
  refine ⟨fun more => ?_, c, [], htext, hpart⟩
  have hread : Lexeme.read c more = (.plain k [c], more) := by rw [Lexeme.read, h]
  rw [htext, Kind.mark, hk]
  exact lexed_cons hgap hread

/-- A letter or an underscore, and then any of those and of the digits. -/
def IsWord (s : String) : Prop :=
  ∃ c cs, s.toList = c :: cs ∧ isWordStart c ∧ ∀ d ∈ cs, isWordPart d

/-- A word that is no keyword. -/
structure IsName (s : String) : Prop where
  word : IsWord s
  kind : Kind.ofWord s = .ident

theorem takeWhile_of_apart {p : Char → Bool} (hp : ∀ c, p c → isWordPart c) {cs more : List Char}
    (hcs : ∀ c ∈ cs, p c) (hmore : Apart more) :
    (cs ++ more).takeWhile p = cs ∧ (cs ++ more).dropWhile p = more := by
  rw [List.takeWhile_append_of_pos hcs, List.dropWhile_append_of_pos hcs]
  obtain _ | ⟨c, more⟩ := more
  · exact ⟨List.append_nil cs, rfl⟩
  · have hc : p c = false := Bool.eq_false_iff.2 fun h => by
      simpa [hmore c rfl] using hp c h
    rw [List.takeWhile_cons_of_neg (by simp [hc]), List.dropWhile_cons_of_neg (by simp [hc])]
    exact ⟨List.append_nil cs, rfl⟩

theorem readRun_of_apart {p : Char → Bool} (hp : ∀ c, p c → isWordPart c)
    (kind : List Char → Kind) (c : Char) {cs more : List Char} (hcs : ∀ c ∈ cs, p c)
    (hmore : Apart more) :
    Lexeme.readRun c p kind (cs ++ more) = (.plain (kind (c :: cs)) (c :: cs), more) := by
  obtain ⟨htake, hdrop⟩ := takeWhile_of_apart hp hcs hmore
  rw [Lexeme.readRun, htake, hdrop]

/-- A character that can stand in a word is no mark. -/
structure Alnum (c : Char) : Prop where
  gap : isGap c = false
  punctuation : Kind.ofPunctuation c = none
  equals : c ≠ '='
  bang : c ≠ '!'
  quote : c ≠ '"'

theorem alnum_of_isWordPart {c : Char} (h : isWordPart c) : Alnum c where
  gap := by
    simp only [isGap, Bool.or_eq_false_iff, decide_eq_false_iff_not]
    refine ⟨⟨⟨?_, ?_⟩, ?_⟩, ?_⟩ <;> rintro rfl <;> exact absurd h (by decide)
  punctuation := by
    unfold Kind.ofPunctuation
    split <;> first | rfl | exact absurd h (by decide)
  equals := by rintro rfl; exact absurd h (by decide)
  bang := by rintro rfl; exact absurd h (by decide)
  quote := by rintro rfl; exact absurd h (by decide)

theorem isWordPart_of_isWordStart {c : Char} (h : isWordStart c) : isWordPart c := by
  simp only [isWordStart, isWordPart, Char.isAlphanum, Bool.or_eq_true] at h ⊢
  exact h.imp_left .inl

theorem isWordPart_of_isDigit {c : Char} (h : c.isDigit) : isWordPart c := by
  simp [isWordPart, Char.isAlphanum, h]

theorem not_isDigit_of_isWordStart {c : Char} (h : isWordStart c) : c.isDigit = false := by
  refine Bool.eq_false_iff.2 fun hd => ?_
  have hle : c.val ≤ '9'.val := of_decide_eq_true (Bool.and_eq_true_iff.1 hd).2
  rcases Bool.or_eq_true_iff.1 h with h | h
  · rcases Bool.or_eq_true_iff.1 h with h | h
    · have hge : c.val ≥ 'A'.val := (of_decide_eq_true h).1
      exact absurd (UInt32.le_trans hge hle) (by decide)
    · have hge : c.val ≥ 'a'.val := of_decide_eq_true (Bool.and_eq_true_iff.1 h).1
      exact absurd (UInt32.le_trans hge hle) (by decide)
  · rw [of_decide_eq_true h] at hd
    exact absurd hd (by decide)

theorem spells_word (h : IsWord s) : Spells s [⟨Kind.ofWord s, s, .start⟩] := by
  intro more hmore
  obtain ⟨c, cs, hs, hc, hcs⟩ := h
  have ha := alnum_of_isWordPart (isWordPart_of_isWordStart hc)
  have hread : Lexeme.read c (cs ++ more) = (.plain (Kind.ofWord s) s.toList, more) := by
    rw [Lexeme.read, ha.punctuation]
    dsimp only
    rw [if_neg ha.equals, if_neg ha.bang, if_neg ha.quote,
      if_neg (by simp [not_isDigit_of_isWordStart hc]), if_pos hc,
      readRun_of_apart (fun _ => id) _ c hcs hmore, ← hs, String.ofList_toList]
  rw [hs, List.cons_append, lexed_cons ha.gap hread]
  simp [Lexeme.plain, String.ofList_toList]

theorem spells_name (h : IsName s) : Spells s [⟨.ident, s, .start⟩] := h.kind ▸ spells_word h.word

theorem spells_digits (hne : s.toList ≠ []) (hs : ∀ c ∈ s.toList, c.isDigit) :
    Spells s [⟨.int, s, .start⟩] := by
  intro more hmore
  obtain ⟨c, cs, hcs⟩ := List.exists_cons_of_ne_nil hne
  rw [hcs] at hs
  have hc : c.isDigit := hs c List.mem_cons_self
  have ha := alnum_of_isWordPart (isWordPart_of_isDigit hc)
  have hread : Lexeme.read c (cs ++ more) = (.plain .int s.toList, more) := by
    rw [Lexeme.read, ha.punctuation]
    dsimp only
    rw [if_neg ha.equals, if_neg ha.bang, if_neg ha.quote, if_pos hc,
      readRun_of_apart (fun _ => isWordPart_of_isDigit) _ c
        (fun d hd => hs d (List.mem_cons_of_mem _ hd)) hmore, hcs]
  rw [hcs, List.cons_append, lexed_cons ha.gap hread]
  simp [Lexeme.plain, String.ofList_toList]

theorem sealed_string (hs : '"' ∉ s.toList) :
    Sealed ("\"" ++ s ++ "\"") [⟨.string, s, .start⟩] := by
  intro more
  have hall : ∀ c ∈ s.toList, decide (c ≠ '"') = true := fun c hc =>
    decide_eq_true fun h => hs (h ▸ hc)
  have hread : Lexeme.read '"' (s.toList ++ '"' :: more) =
      (⟨.string, s.toList, '"' :: s.toList ++ ['"']⟩, more) := by
    have hstr : Lexeme.readString (s.toList ++ '"' :: more) =
        (⟨.string, s.toList, '"' :: s.toList ++ ['"']⟩, more) := by
      rw [Lexeme.readString, List.takeWhile_append_of_pos hall, List.dropWhile_append_of_pos hall]
      simp
    rw [← hstr]
    rfl
  have htext : ("\"" ++ s ++ "\"").toList ++ more = '"' :: (s.toList ++ '"' :: more) := by
    simp [String.toList_append]
  rw [htext, lexed_cons (by decide) hread, String.ofList_toList]
  rfl

/-! ## Signs that an equals sign could make longer -/

theorem readOperator_single {c : Char} {single double : Kind} {more : List Char}
    (h : more.head? ≠ some '=') :
    Lexeme.readOperator c single double more = (.plain single [c], more) := by
  unfold Lexeme.readOperator
  split
  · exact absurd rfl h
  · rfl

theorem lexed_assign {more : List Char} (h : more.head? ≠ some '=') :
    lexed ('=' :: more) = Kind.assign.mark :: lexed more :=
  have hread : Lexeme.read '=' more = (.plain .assign ['='], more) := readOperator_single h
  lexed_cons (by decide) hread

theorem lexed_bang {more : List Char} (h : more.head? ≠ some '=') :
    lexed ('!' :: more) = Kind.bang.mark :: lexed more :=
  have hread : Lexeme.read '!' more = (.plain .bang ['!'], more) := readOperator_single h
  lexed_cons (by decide) hread

/-- What starts with an equals sign is read as an assignment or as a comparison. -/
theorem kind_of_lexed_equals {cs : List Char} {t : Token} {ts : List Token}
    (h : lexed ('=' :: cs) = t :: ts) : t.kind = .assign ∨ t.kind = .equal := by
  have hread : Lexeme.read '=' cs = Lexeme.readOperator '=' .assign .equal cs := rfl
  rw [lexed_cons (by decide) hread] at h
  obtain ⟨rfl, -⟩ := List.cons.inj h
  dsimp only [Lexeme.readOperator]
  split
  · exact .inr rfl
  · exact .inl rfl

theorem delimiter_gap {c : Char} (h : isGap c) : Delimiter (String.singleton c) [] where
  sealed more := by rw [String.toList_singleton]; exact lexed_gap h more
  apart := by
    refine ⟨c, [], String.toList_singleton c, Bool.eq_false_iff.2 fun hc => ?_⟩
    simpa [h] using (alnum_of_isWordPart hc).gap

theorem sealed_assign : Sealed "= " [Kind.assign.mark] := fun more =>
  have hmore : (' ' :: more).head? ≠ some '=' := by simp
  (lexed_assign hmore).trans (congrArg (List.cons _) (lexed_gap (by decide) more))

theorem sealed_bang : Sealed "! " [Kind.bang.mark] := fun more =>
  have hmore : (' ' :: more).head? ≠ some '=' := by simp
  (lexed_bang hmore).trans (congrArg (List.cons _) (lexed_gap (by decide) more))

theorem sealed_equal : Sealed "==" [Kind.equal.mark] := fun _ =>
  lexed_cons (by decide) rfl

theorem sealed_notEqual : Sealed "!=" [Kind.notEqual.mark] := fun _ =>
  lexed_cons (by decide) rfl

/-! ## The tokens of a source can be written down -/

/-- What every token of a source keeps to besides being proper. -/
structure Token.Lexical (t : Token) : Prop where
  /-- Some text spells the token. -/
  written : ∃ s, Spells s [t.unplaced]
  name : t.kind = .ident → IsName t.text
  unquoted : t.kind = .string → '"' ∉ t.text.toList

/-- A token that is neither a name nor a string has only to be written. -/
theorem lexical_of_spells {t : Token} {s : String} (h : Spells s [t.unplaced])
    (hident : t.kind ≠ .ident) (hstring : t.kind ≠ .string) : t.Lexical :=
  ⟨⟨s, h⟩, fun hk => absurd hk hident, fun hk => absurd hk hstring⟩

namespace Lexeme

/-- The token of a lexeme, wherever it stands. -/
def token (l : Lexeme) : Token := ⟨l.kind, String.ofList l.text, .start⟩

theorem lexical_punctuation {c : Char} {k : Kind} (h : Kind.ofPunctuation c = some k) :
    (plain k [c]).token.Lexical := by
  have hne : k ≠ .ident ∧ k ≠ .string := by
    unfold Kind.ofPunctuation at h
    split at h <;> cases h <;> decide
  refine lexical_of_spells (s := k.spelling) ?_ hne.1 hne.2
  have hmark : (plain k [c]).token.unplaced = k.mark := by
    rw [Kind.mark, (spelling_of_ofPunctuation h).2]; rfl
  exact hmark ▸ (delimiter_punctuation c h).sealed.spells

theorem lexical_readOperator {c : Char} {single double : Kind} {s s' : String}
    (hs : Spells s [(plain single [c]).token]) (hd : Spells s' [(plain double [c, '=']).token])
    (hsingle : single ≠ .ident ∧ single ≠ .string) (hdouble : double ≠ .ident ∧ double ≠ .string)
    (cs : List Char) : (readOperator c single double cs).1.token.Lexical := by
  unfold readOperator
  split
  · exact lexical_of_spells hd hdouble.1 hdouble.2
  · exact lexical_of_spells hs hsingle.1 hsingle.2

theorem lexical_readString (cs : List Char) : (readString cs).1.token.Lexical := by
  have hquote : '"' ∉ (String.ofList (cs.takeWhile (· ≠ '"'))).toList := by
    rw [String.toList_ofList]
    exact fun h => by simpa using List.all_eq_true.1 List.all_takeWhile _ h
  have h : (readString cs).1.token = ⟨.string, String.ofList (cs.takeWhile (· ≠ '"')), .start⟩ := by
    unfold readString
    split <;> rfl
  rw [h]
  exact ⟨⟨_, (sealed_string hquote).spells⟩, (fun h => by cases h), fun _ => hquote⟩

theorem lexical_readDigits {c : Char} (hc : c.isDigit) (cs : List Char) :
    (readRun c Char.isDigit (fun _ => .int) cs).1.token.Lexical := by
  refine lexical_of_spells (spells_digits (s := String.ofList (c :: cs.takeWhile Char.isDigit))
    (by simp) ?_) nofun nofun
  rw [String.toList_ofList]
  intro d hd
  rcases List.mem_cons.1 hd with rfl | hd
  · exact hc
  · exact List.all_eq_true.1 List.all_takeWhile _ hd

theorem ofWord_ne_string (word : String) : Kind.ofWord word ≠ .string := by
  intro h
  unfold Kind.ofWord at h
  cases hf : Kind.keywords.find? fun k => k.spelling == word with
  | none => rw [hf] at h; cases h
  | some k =>
    rw [hf, Option.getD_some] at h
    exact absurd (h ▸ List.mem_of_find?_eq_some hf) (by decide)

theorem lexical_readWord {c : Char} (hc : isWordStart c) (cs : List Char) :
    (readRun c isWordPart (fun raw => .ofWord (String.ofList raw)) cs).1.token.Lexical := by
  have hword : IsWord (String.ofList (c :: cs.takeWhile isWordPart)) :=
    ⟨c, _, String.toList_ofList, hc, fun d hd => List.all_eq_true.1 List.all_takeWhile _ hd⟩
  exact ⟨⟨_, spells_word hword⟩, fun hk => ⟨hword, hk⟩, fun hk => absurd hk (ofWord_ne_string _)⟩

theorem lexical_read {c : Char} (hc : isGap c = false) (cs : List Char) :
    (read c cs).1.token.Lexical := by
  -- A character that starts nothing is read as itself in front of everything.
  have hillegal (h : ∀ more, read c more = (plain .illegal [c], more)) :
      (plain .illegal [c]).token.Lexical :=
    lexical_of_spells (s := String.singleton c) (fun more _ => by
      rw [String.toList_singleton]; exact lexed_cons hc (h more)) nofun nofun
  have hread : read c cs = read c cs := rfl
  conv at hread => rhs; unfold read
  split at hread
  · rename_i hk; rw [hread]; exact lexical_punctuation hk
  rename_i hnone
  split at hread
  · rename_i h; subst h; rw [hread]
    exact lexical_readOperator sealed_assign.spells sealed_equal.spells (by decide) (by decide) cs
  split at hread
  · rename_i h; subst h; rw [hread]
    exact lexical_readOperator sealed_bang.spells sealed_notEqual.spells (by decide) (by decide) cs
  split at hread
  · rw [hread]; exact lexical_readString cs
  split at hread
  · rename_i h; rw [hread]; exact lexical_readDigits h cs
  split at hread
  · rename_i h; rw [hread]; exact lexical_readWord h cs
  · rename_i heq hbang hquote hdigit hstart
    rw [hread]
    refine hillegal fun more => ?_
    rw [read, hnone]
    dsimp only
    rw [if_neg heq, if_neg hbang, if_neg hquote, if_neg hdigit, if_neg hstart]

end Lexeme

namespace TokenStream

theorem lexical_scan (p : Position) (cs : List Char) : ∀ t ∈ (scan p cs).tokens, t.Lexical := by
  fun_induction scan p cs with
  | case1 => simp
  | case2 p c cs h ih => exact ih
  | case3 p c cs h lexeme ahead ih =>
    intro t ht
    rcases List.mem_cons.1 ht with rfl | ht
    · obtain ⟨hwritten, hname, hstring⟩ := Lexeme.lexical_read (by simpa using h) cs
      exact ⟨hwritten, hname, hstring⟩
    · exact ih t ht

/-- **Every token of a source can be written down**, and its names and strings are well formed. -/
theorem lexical_ofSource (source : String) : ∀ t ∈ (ofSource source).tokens, t.Lexical :=
  lexical_scan _ _

end TokenStream

end Scriptlet
