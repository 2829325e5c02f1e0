import Scriptlet.Proofs.Grammar.Progress
import Scriptlet.Proofs.Grammar.Unplaced
import Scriptlet.Proofs.Scanning.Tiling

/-!
# Tokens spaced out

The gaps between the tokens of a source say nothing, as long as there are some.

**Theorem (`spacing_is_free`).** Let the tokens of a source be written down in order, with gaps of
any kind between them. What is written has these tokens again, and it is read as the same program
with the same diagnostics, all up to positions.

Where a token stands in front of a gap, no longer one could have been taken: no character that
makes a token longer is a gap, unless in a string, and there the closing quote comes first. So the
longest tokens of the source are longest tokens again (`Munch.written`), also the string that had
no closing quote and is now given one.
-/

namespace Scriptlet

/-! ## Writing tokens -/

/-- How a token of the kind with the text is written: a string between quotes, anything else as
its text. -/
def Kind.written (k : Kind) (text : List Char) : List Char :=
  if k = .string then '"' :: text ++ ['"'] else text

def Token.written (t : Token) : List Char := t.kind.written t.text.toList

/-- The tokens are written in order, and after each comes a gap or the end. -/
inductive Spaced : List Token → List Char → Prop
  | finish {gap : List Char} : (∀ c ∈ gap, isGap c) → Spaced [] gap
  | token {t : Token} {ts : List Token} {gap cs : List Char} :
      (∀ c ∈ gap, isGap c) → (∀ c ∈ cs.head?, isGap c) → Spaced ts cs →
      Spaced (t :: ts) (gap ++ (t.written ++ cs))

theorem not_isWordPart_of_isGap {c : Char} (h : isGap c) : isWordPart c = false := by
  refine Bool.eq_false_iff.2 fun hc => ?_
  simpa [h] using (alnum_of_isWordPart hc).gap

/-- **A longest token is one again** in front of a gap. -/
theorem Munch.written {k : Kind} {text raw rest more : List Char} (h : Munch k text raw rest)
    (hmore : ∀ c ∈ more.head?, isGap c) : Munch k text (k.written text) more := by
  have hequals : more.head? ≠ some '=' := fun heq => absurd (hmore '=' heq) (by decide)
  cases h with
  | @mark c k _ hk =>
    have hstring : k ≠ .string := by
      rintro rfl
      unfold Kind.ofPunctuation at hk
      split at hk <;> cases hk
    rw [Kind.written, if_neg hstring]
    exact .mark hk
  | equal => exact .equal
  | notEqual => exact .notEqual
  | assign => exact .assign hequals
  | bang => exact .bang hequals
  | string hquote | unterminated hquote => exact .string hquote
  | int hne hrun =>
    refine .int hne ⟨hrun.all, fun c hc => Bool.eq_false_iff.2 fun hdigit => ?_⟩
    exact absurd (not_isWordPart_of_isGap (hmore c hc)) (by simp [isWordPart_of_isDigit hdigit])
  | @keyword k c cs _ hk hspell hc hrun =>
    have hstring : k ≠ .string := by
      rintro rfl
      exact absurd hk (by decide)
    rw [Kind.written, if_neg hstring]
    exact .keyword hk hspell hc ⟨hrun.all, fun c hc => not_isWordPart_of_isGap (hmore c hc)⟩
  | name hne hc hrun =>
    exact .name hne hc ⟨hrun.all, fun c hc => not_isWordPart_of_isGap (hmore c hc)⟩
  | illegal hc => exact .illegal hc

theorem Tiles.spaced {cs cs' : List Char} {ts : List Token} (h : Tiles cs ts)
    (h' : Spaced ts cs') : Tiles cs' ts := by
  induction h generalizing cs' with
  | finish _ =>
    cases h' with
    | finish hgap => exact .finish hgap
  | token _ ht _ ih =>
    cases h' with
    | token hgap hcs hts => exact .token hgap (ht.written hcs) (ih hts)

/-! ## Reading them -/

namespace TokenStream

theorem unplaced_of_spaced {source source' : String}
    (h : Spaced (ofSource source).tokens source'.toList) :
    (ofSource source').tokens.map Token.unplaced = (ofSource source).tokens.map Token.unplaced :=
  ((tiles_scan .start source.toList).spaced h).lexed

end TokenStream

open Parse

/-- Sources with the same tokens are read alike. -/
theorem reads_alike_of_unplaced {source source' : String}
    (h : (TokenStream.ofSource source').tokens.map Token.unplaced =
      (TokenStream.ofSource source).tokens.map Token.unplaced) :
    ∃ p t p' t', program (.ofSource source) = .ok p t ∧ program (.ofSource source') = .ok p' t' ∧
      p'.unplaced = p.unplaced ∧
      t'.recorded.map Diagnostic.fault = t.recorded.map Diagnostic.fault := by
  obtain ⟨p, t, hp, -⟩ := program_reaches_end source
  obtain ⟨p', t', hp', -⟩ := program_reaches_end source'
  have hstate : (ParseState.ofSource source').unplaced = (ParseState.ofSource source).unplaced := by
    rw [ParseState.unplaced, ParseState.unplaced]
    exact congrArg (fun ts => ParseState.mk ⟨ts, .start⟩ (Array.map _ #[])) h
  -- Without positions the two sources are one state, which is read in one way.
  have hread := unplaces_program (.ofSource source')
  rw [hstate, unplaces_program, hp, hp'] at hread
  obtain ⟨hprogram, hrest⟩ := Outcome.ok.inj hread
  have hfault (ds : Array Diagnostic) :
      (ds.map Diagnostic.unplaced).map Diagnostic.fault = ds.map Diagnostic.fault :=
    Array.map_map
  refine ⟨p, t, p', t', hp, hp', hprogram.symm, ?_⟩
  rw [← hfault, ← hfault t.recorded]
  exact congrArg (fun s => s.recorded.map Diagnostic.fault) hrest.symm

/-- **Spacing is free.** A fault has the code and the message of its diagnostic. -/
theorem spacing_is_free {source source' : String}
    (h : Spaced (TokenStream.ofSource source).tokens source'.toList) :
    (Scanner.ofSource source').tokenize.map Token.unplaced =
        (Scanner.ofSource source).tokenize.map Token.unplaced ∧
      ∃ p t p' t', program (.ofSource source) = .ok p t ∧
        program (.ofSource source') = .ok p' t' ∧ p'.unplaced = p.unplaced ∧
        t'.recorded.map Diagnostic.fault = t.recorded.map Diagnostic.fault := by
  have htokens := TokenStream.unplaced_of_spaced h
  refine ⟨?_, reads_alike_of_unplaced htokens⟩
  rw [Scanner.tokenize_eq, Scanner.tokenize_eq, TokenStream.toList, TokenStream.toList,
    List.map_append, List.map_append]
  exact congrArg (· ++ _) htokens

/-- The source `let="b` and its tokens spaced out. The string is now closed, and the name is still
missing. -/
theorem spacing_is_free_around_equals :
    ∃ source source' : String, source = "let=\"b" ∧ source' = "let =\n\"b\"\t" ∧
      Spaced (TokenStream.ofSource source).tokens source'.toList ∧
      ∃ p t p' t', program (.ofSource source) = .ok p t ∧
        program (.ofSource source') = .ok p' t' ∧ p'.unplaced = p.unplaced ∧
        t'.recorded.map Diagnostic.fault = t.recorded.map Diagnostic.fault := by
  have htokens : (TokenStream.ofSource "let=\"b").tokens =
      [⟨.letKw, "let", ⟨1, 1⟩⟩, ⟨.assign, "=", ⟨1, 4⟩⟩, ⟨.string, "b", ⟨1, 5⟩⟩] := by decide +kernel
  have htext : "let =\n\"b\"\t".toList =
      [] ++ (Kind.letKw.written "let".toList ++ ([' '] ++ (Kind.assign.written "=".toList ++
        (['\n'] ++ (Kind.string.written "b".toList ++ ['\t']))))) := by decide +kernel
  have h : Spaced (TokenStream.ofSource "let=\"b").tokens "let =\n\"b\"\t".toList := by
    rw [htokens, htext]
    exact .token (by simp) (by simp [isGap]) (.token (by simp [isGap]) (by simp [isGap])
      (.token (by simp [isGap]) (by simp [isGap]) (.finish (by simp [isGap]))))
  exact ⟨_, _, rfl, rfl, h, (spacing_is_free h).2⟩

end Scriptlet
