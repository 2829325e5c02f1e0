import Scriptlet.Proofs.Scanning.Spelling
import Scriptlet.Scanner

/-!
# Scanning cuts a source into its longest tokens

`Tiles cs ts` says how a source is made up of its tokens: gaps and the texts that the tokens take
up follow each other, with nothing left over, and each token is the longest that could have been
taken (`Munch`). Neither says anything about how a source is read.

**Theorem (`tokenize_maximal_munch`).** Every source is cut into tokens in this way, and in no
other. A scanner gives out these tokens in order, and from then on the end token, whether it is
asked once and for all, walked through, or called again and again.

The proof compares with `Lexeme.read`, which takes the token at the head of a source: what it takes
is a longest token (`munch_read`), and a longest token is what it takes (`Munch.read`).
-/

namespace Scriptlet

/-! ## Longest tokens -/

/-- The characters of `run` have `p`, and the character after them has not. -/
structure MaximalRun (p : Char → Bool) (run rest : List Char) : Prop where
  all : ∀ c ∈ run, p c
  stops : ∀ c ∈ rest.head?, p c = false

/-- No token starts with the character, and it is no gap. -/
structure StartsNothing (c : Char) : Prop where
  gap : isGap c = false
  punctuation : Kind.ofPunctuation c = none
  equals : c ≠ '='
  bang : c ≠ '!'
  quote : c ≠ '"'
  digit : c.isDigit = false
  word : isWordStart c = false

/-- `Munch k text raw rest`: in front of `rest`, the longest token at the head of `raw ++ rest`
takes up `raw`. It is of the kind `k` and keeps `text`. -/
inductive Munch : Kind → List Char → List Char → List Char → Prop
  | mark {c : Char} {k : Kind} {rest : List Char} :
      Kind.ofPunctuation c = some k → Munch k [c] [c] rest
  | equal {rest : List Char} : Munch .equal ['=', '='] ['=', '='] rest
  | notEqual {rest : List Char} : Munch .notEqual ['!', '='] ['!', '='] rest
  | assign {rest : List Char} : rest.head? ≠ some '=' → Munch .assign ['='] ['='] rest
  | bang {rest : List Char} : rest.head? ≠ some '=' → Munch .bang ['!'] ['!'] rest
  /-- A string between its quotes. -/
  | string {text rest : List Char} : '"' ∉ text → Munch .string text ('"' :: text ++ ['"']) rest
  /-- A string without its closing quote goes on to the end of the source. -/
  | unterminated {text : List Char} : '"' ∉ text → Munch .string text ('"' :: text) []
  | int {digits rest : List Char} :
      digits ≠ [] → MaximalRun Char.isDigit digits rest → Munch .int digits digits rest
  | keyword {k : Kind} {c : Char} {cs rest : List Char} :
      k ∈ Kind.keywords → k.spelling.toList = c :: cs → isWordStart c →
      MaximalRun isWordPart cs rest → Munch k (c :: cs) (c :: cs) rest
  | name {c : Char} {cs rest : List Char} :
      (∀ k ∈ Kind.keywords, k.spelling.toList ≠ c :: cs) → isWordStart c →
      MaximalRun isWordPart cs rest → Munch .ident (c :: cs) (c :: cs) rest
  | illegal {c : Char} {rest : List Char} : StartsNothing c → Munch .illegal [c] [c] rest

/-- The source is made up of gaps and of what the tokens take up, in turn. -/
inductive Tiles : List Char → List Token → Prop
  | finish {gap : List Char} : (∀ c ∈ gap, isGap c) → Tiles gap []
  | token {gap raw rest : List Char} {t : Token} {ts : List Token} :
      (∀ c ∈ gap, isGap c) → Munch t.kind t.text.toList raw rest → Tiles rest ts →
      Tiles (gap ++ (raw ++ rest)) (t :: ts)

/-! ## What is read is a longest token -/

theorem maximalRun_takeWhile (p : Char → Bool) (cs : List Char) :
    MaximalRun p (cs.takeWhile p) (cs.dropWhile p) where
  all c hc := List.all_eq_true.1 List.all_takeWhile c hc
  stops c hc := by
    have h := List.head?_dropWhile_not p cs
    rw [Option.mem_def.1 hc] at h
    simpa using h

/-- A word is of the kind of the keyword that it spells, if there is one. -/
theorem munch_word {c : Char} {cs rest : List Char} (hc : isWordStart c)
    (hcs : MaximalRun isWordPart cs rest) :
    Munch (Kind.ofWord (String.ofList (c :: cs))) (c :: cs) (c :: cs) rest := by
  unfold Kind.ofWord
  cases hf : Kind.keywords.find? fun k => k.spelling == String.ofList (c :: cs) with
  | some k =>
    have hk : k.spelling = String.ofList (c :: cs) := by simpa using List.find?_some hf
    have htext : k.spelling.toList = c :: cs := by rw [hk, String.toList_ofList]
    exact .keyword (List.mem_of_find?_eq_some hf) htext hc hcs
  | none =>
    refine .name (fun k hk hspell => ?_) hc hcs
    have hne := List.find?_eq_none.1 hf k hk
    rw [← hspell, String.ofList_toList] at hne
    simp at hne

namespace Lexeme

theorem munch_readOperator {c : Char} {single double : Kind} (cs : List Char)
    (hs : ∀ rest : List Char, rest.head? ≠ some '=' → Munch single [c] [c] rest)
    (hd : ∀ rest : List Char, Munch double [c, '='] [c, '='] rest) :
    let l := readOperator c single double cs
    Munch l.1.kind l.1.text l.1.raw l.2 := by
  unfold readOperator
  split
  · exact hd _
  · rename_i hne
    refine hs cs fun h => ?_
    obtain ⟨rest, rfl⟩ := List.head?_eq_some_iff.1 h
    exact hne rest rfl

theorem munch_readString (cs : List Char) :
    Munch (readString cs).1.kind (readString cs).1.text (readString cs).1.raw
      (readString cs).2 := by
  have hquote : '"' ∉ cs.takeWhile (· ≠ '"') := fun h => by
    simpa using List.all_eq_true.1 List.all_takeWhile _ h
  unfold readString
  split
  · exact .unterminated hquote
  · rename_i q rest hd
    have hq : q = '"' := by
      have h := List.head?_dropWhile_not (fun c : Char => decide (c ≠ '"')) cs
      rw [hd] at h
      simpa using h
    subst hq
    exact .string hquote

/-- **What is read is a longest token.** -/
theorem munch_read {c : Char} (hc : isGap c = false) (cs : List Char) :
    Munch (read c cs).1.kind (read c cs).1.text (read c cs).1.raw (read c cs).2 := by
  unfold read
  split
  · exact .mark ‹_›
  rename_i hnone
  split
  · rename_i h; subst h; exact munch_readOperator cs (fun _ => .assign) fun _ => .equal
  split
  · rename_i h; subst h; exact munch_readOperator cs (fun _ => .bang) fun _ => .notEqual
  split
  · exact munch_readString cs
  split
  · rename_i hdigit
    obtain ⟨hall, hstops⟩ := maximalRun_takeWhile Char.isDigit cs
    refine .int (List.cons_ne_nil _ _) ⟨fun d hd => ?_, hstops⟩
    rcases List.mem_cons.1 hd with rfl | hd
    · exact hdigit
    · exact hall d hd
  split
  · exact munch_word ‹_› (maximalRun_takeWhile isWordPart cs)
  · rename_i heq hbang hquote hdigit hword
    exact .illegal ⟨hc, hnone, heq, hbang, hquote, by simpa using hdigit, by simpa using hword⟩

end Lexeme

theorem Tiles.gap {c : Char} {cs : List Char} {ts : List Token} (hc : isGap c) (h : Tiles cs ts) :
    Tiles (c :: cs) ts := by
  have hcons {gap : List Char} (h : ∀ d ∈ gap, isGap d) : ∀ d ∈ c :: gap, isGap d := by
    intro d hd
    rcases List.mem_cons.1 hd with rfl | hd
    · exact hc
    · exact h d hd
  cases h with
  | finish hgap => exact .finish (hcons hgap)
  | token hgap ht hts =>
    rw [← List.cons_append]
    exact .token (hcons hgap) ht hts

theorem tiles_scan (p : Position) (cs : List Char) : Tiles cs (TokenStream.scan p cs).tokens := by
  fun_induction TokenStream.scan p cs with
  | case1 => exact .finish (List.forall_mem_nil _)
  | case2 p c cs h ih => exact ih.gap h
  | case3 p c cs h lexeme ahead ih =>
    have hmunch : Munch lexeme.kind (String.ofList lexeme.text).toList lexeme.raw
        (Lexeme.read c cs).2 := by
      rw [String.toList_ofList]
      exact Lexeme.munch_read (by simpa using h) cs
    have htiles : Tiles ([] ++ (lexeme.raw ++ (Lexeme.read c cs).2))
        (⟨lexeme.kind, String.ofList lexeme.text, p⟩ :: ahead.tokens) :=
      .token (List.forall_mem_nil _) hmunch ih
    rwa [List.nil_append, Lexeme.raw_append_rest] at htiles

/-! ## A longest token is what is read -/

theorem MaximalRun.split {p : Char → Bool} {run rest : List Char} (h : MaximalRun p run rest) :
    (run ++ rest).takeWhile p = run ∧ (run ++ rest).dropWhile p = rest := by
  rw [List.takeWhile_append_of_pos h.all, List.dropWhile_append_of_pos h.all]
  obtain _ | ⟨c, rest⟩ := rest
  · exact ⟨List.append_nil run, rfl⟩
  · have hc := h.stops c rfl
    rw [List.takeWhile_cons_of_neg (by simp [hc]), List.dropWhile_cons_of_neg (by simp [hc])]
    exact ⟨List.append_nil run, rfl⟩

theorem readRun_of_maximalRun {p : Char → Bool} {cs rest : List Char} (c : Char)
    (kind : List Char → Kind) (h : MaximalRun p cs rest) :
    Lexeme.readRun c p kind (cs ++ rest) = (.plain (kind (c :: cs)) (c :: cs), rest) := by
  rw [Lexeme.readRun, h.split.1, h.split.2]

/-- The character `c` at the head of `cs` is no gap, and the token `l` is read there in front of
`rest`. -/
def ReadsToken (cs : List Char) (l : Lexeme) (rest : List Char) : Prop :=
  ∃ c tail, cs = c :: tail ∧ isGap c = false ∧ Lexeme.read c tail = (l, rest)

theorem readsToken_word {c : Char} {cs rest : List Char} (hc : isWordStart c)
    (hcs : MaximalRun isWordPart cs rest) :
    ReadsToken (c :: cs ++ rest) (.plain (Kind.ofWord (String.ofList (c :: cs))) (c :: cs))
      rest := by
  have ha := alnum_of_isWordPart (isWordPart_of_isWordStart hc)
  refine ⟨c, cs ++ rest, rfl, ha.gap, ?_⟩
  rw [Lexeme.read, ha.punctuation]
  dsimp only
  rw [if_neg ha.equals, if_neg ha.bang, if_neg ha.quote,
    if_neg (by simp [not_isDigit_of_isWordStart hc]), if_pos hc, readRun_of_maximalRun c _ hcs]

theorem readsToken_digits {digits rest : List Char} (hne : digits ≠ [])
    (h : MaximalRun Char.isDigit digits rest) :
    ReadsToken (digits ++ rest) (.plain .int digits) rest := by
  obtain ⟨c, cs, rfl⟩ := List.exists_cons_of_ne_nil hne
  have hc : c.isDigit := h.all c List.mem_cons_self
  have hcs : MaximalRun Char.isDigit cs rest :=
    ⟨fun d hd => h.all d (List.mem_cons_of_mem _ hd), h.stops⟩
  have ha := alnum_of_isWordPart (isWordPart_of_isDigit hc)
  refine ⟨c, cs ++ rest, rfl, ha.gap, ?_⟩
  rw [Lexeme.read, ha.punctuation]
  dsimp only
  rw [if_neg ha.equals, if_neg ha.bang, if_neg ha.quote, if_pos hc, readRun_of_maximalRun c _ hcs]

theorem maximalRun_text {text : List Char} (h : '"' ∉ text) :
    ∀ rest : List Char, rest.head? = some '"' ∨ rest = [] →
      MaximalRun (fun c => decide (c ≠ '"')) text rest := by
  refine fun rest hrest => ⟨fun c hc => decide_eq_true fun heq => h (heq ▸ hc), fun c hc => ?_⟩
  rcases hrest with hrest | rfl
  · rw [hrest] at hc
    cases hc
    rfl
  · cases hc

theorem ofWord_keyword : ∀ k ∈ Kind.keywords, Kind.ofWord k.spelling = k := by decide

/-- **A longest token is what is read.** -/
theorem Munch.read {k : Kind} {text raw rest : List Char} (h : Munch k text raw rest) :
    ReadsToken (raw ++ rest) ⟨k, text, raw⟩ rest := by
  cases h with
  | @mark c k _ hk =>
    refine ⟨c, rest, rfl, (spelling_of_ofPunctuation hk).1, ?_⟩
    rw [Lexeme.read, hk]
    rfl
  | equal | notEqual => exact ⟨_, _, rfl, by decide, rfl⟩
  | assign hne | bang hne => exact ⟨_, rest, rfl, by decide, readOperator_single hne⟩
  | string hquote =>
    obtain ⟨htake, hdrop⟩ := (maximalRun_text hquote ('"' :: rest) (.inl rfl)).split
    refine ⟨'"', text ++ '"' :: rest, by simp, by decide, ?_⟩
    have hread : Lexeme.read '"' (text ++ '"' :: rest) =
        Lexeme.readString (text ++ '"' :: rest) := rfl
    rw [hread, Lexeme.readString, htake, hdrop]
  | unterminated hquote =>
    obtain ⟨htake, hdrop⟩ := (maximalRun_text hquote [] (.inr rfl)).split
    rw [List.append_nil] at htake hdrop
    refine ⟨'"', text, by simp, by decide, ?_⟩
    have hread : Lexeme.read '"' text = Lexeme.readString text := rfl
    rw [hread, Lexeme.readString, htake, hdrop]
  | int hne hrun => exact readsToken_digits hne hrun
  | @keyword k c cs _ hk hspell hc hcs =>
    have hread := readsToken_word hc hcs
    rwa [← hspell, String.ofList_toList, ofWord_keyword k hk, hspell] at hread
  | @name c cs _ hnone hc hcs =>
    have hkind : Kind.ofWord (String.ofList (c :: cs)) = .ident := by
      rw [Kind.ofWord, List.find?_eq_none.2 fun k hk heq => ?_]
      · rfl
      · refine hnone k hk ?_
        rw [show k.spelling = String.ofList (c :: cs) by simpa using heq, String.toList_ofList]
    have hread := readsToken_word hc hcs
    rwa [hkind] at hread
  | @illegal c _ hc =>
    refine ⟨c, rest, rfl, hc.gap, ?_⟩
    rw [Lexeme.read, hc.punctuation]
    dsimp only
    rw [if_neg hc.equals, if_neg hc.bang, if_neg hc.quote, if_neg (by simp [hc.digit]),
      if_neg (by simp [hc.word])]
    rfl

theorem lexed_gap_append {gap : List Char} (h : ∀ c ∈ gap, isGap c) (cs : List Char) :
    lexed (gap ++ cs) = lexed cs := by
  induction gap with
  | nil => rfl
  | cons c gap ih =>
    rw [List.cons_append, lexed_gap (h c List.mem_cons_self)]
    exact ih fun d hd => h d (List.mem_cons_of_mem _ hd)

/-- A source is cut into longest tokens in one way only. -/
theorem Tiles.lexed {cs : List Char} {ts : List Token} (h : Tiles cs ts) :
    lexed cs = ts.map Token.unplaced := by
  induction h with
  | finish hgap =>
    have hlex := lexed_gap_append hgap []
    rwa [List.append_nil, lexed_nil] at hlex
  | @token gap raw rest t ts hgap ht _ ih =>
    obtain ⟨c, tail, hcs, hc, hread⟩ := ht.read
    rw [lexed_gap_append hgap, hcs, lexed_cons hc hread, ih, List.map_cons, String.ofList_toList]
    rfl

/-! ## Scanners -/

namespace Scanner

theorem token_eq (s : Scanner) (i : Nat) : s.token i = s.stream.token i := by
  induction i generalizing s with
  | zero =>
    rw [token, next_fst, TokenStream.token, TokenStream.current]
    cases s.stream.tokens <;> rfl
  | succ i ih =>
    rw [token, ih, stream_next_snd, TokenStream.token, TokenStream.token, TokenStream.advance]
    cases s.stream.tokens <;> rfl

/-- The end token comes when no tokens are left. -/
theorem kind_next_iff (s : Scanner) : s.next.1.kind = .eof ↔ s.stream.tokens = [] := by
  rw [next_fst, TokenStream.current]
  cases h : s.stream.tokens with
  | nil => exact ⟨fun _ => rfl, fun _ => rfl⟩
  | cons t ts =>
    have ht := TokenStream.proper_scan s.position s.rest t (h ▸ List.mem_cons_self)
    exact ⟨fun heof => absurd heof ht.kind_ne_eof, fun h => absurd h (List.cons_ne_nil t ts)⟩

/-- The next token comes first, and if it is the end token it is the only one. -/
theorem toList_stream (s : Scanner) :
    s.stream.toList =
      if s.next.1.kind = .eof then [s.next.1] else s.next.1 :: s.next.2.stream.toList := by
  rw [stream_next_snd]
  split
  · rename_i heof
    have htokens := s.kind_next_iff.1 heof
    rw [next_fst, TokenStream.toList, TokenStream.current, htokens]
    rfl
  · rename_i heof
    obtain ⟨t, ts, htokens⟩ := List.exists_cons_of_ne_nil (mt s.kind_next_iff.2 heof)
    rw [next_fst, TokenStream.toList, TokenStream.toList, TokenStream.current, TokenStream.advance,
      htokens]
    rfl

theorem tokenize_eq (s : Scanner) : s.tokenize = s.stream.toList := by
  fun_induction tokenize s with
  | case1 s heof => rw [toList_stream, if_pos heof]
  | case2 s heof ih => rw [toList_stream, if_neg heof, ih]

/-- Walked through, a scanner gives the end token and stops. -/
theorem collect_eq (it : Items) :
    it.collect = if it.finished then [] else it.scanner.stream.toList := by
  fun_induction Items.collect it with
  | case1 it hnone =>
    unfold Items.next? at hnone
    split at hnone
    · rename_i hfinished
      rw [if_pos hfinished]
    · cases hnone
  | case2 it t it' hsome ih =>
    unfold Items.next? at hsome
    split at hsome
    · cases hsome
    · rename_i hopen
      cases hsome
      rw [ih, if_neg hopen, toList_stream it.scanner]
      dsimp only
      by_cases heof : it.scanner.next.1.kind = .eof
      · simp [heof]
      · simp [heof]

/-- **A source is cut into its longest tokens**, with nothing but gaps between them, and there is no
other way to do so. A scanner gives out these tokens and then an end token, whichever way it is
asked, and goes on giving out this same end token. -/
theorem tokenize_maximal_munch (source : String) :
    ∃ tokens finish, TokenStream.ofSource source = ⟨tokens, finish⟩ ∧
      Tiles source.toList tokens ∧
      (∀ ts, Tiles source.toList ts → ts.map Token.unplaced = tokens.map Token.unplaced) ∧
      (∀ t ∈ tokens, t.kind ≠ .eof) ∧
      (ofSource source).tokenize = tokens ++ [⟨.eof, "", finish⟩] ∧
      Items.collect ⟨ofSource source, false⟩ = tokens ++ [⟨.eof, "", finish⟩] ∧
      ∀ i, (ofSource source).token i = tokens.getD i ⟨.eof, "", finish⟩ := by
  have hstream : (ofSource source).stream = TokenStream.ofSource source := rfl
  refine ⟨(TokenStream.ofSource source).tokens, (TokenStream.ofSource source).finish, rfl,
    tiles_scan _ _, fun ts hts => hts.lexed.symm,
    fun t ht => (TokenStream.proper_ofSource source t ht).kind_ne_eof, ?_, ?_, fun i => ?_⟩
  · rw [tokenize_eq, hstream]
    rfl
  · rw [collect_eq, hstream]
    rfl
  · rw [token_eq, hstream]
    rfl

end Scanner

end Scriptlet
