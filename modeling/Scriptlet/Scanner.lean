import Scriptlet.TokenStream

/-!
# Scanning token by token

A `Scanner` gives out the tokens of a source one at a time. Past the last token it gives out the
end token, as often as one asks, and stays where it is. `tokenize` asks until the end token comes.

A scanner that is walked through item by item (`Items`) keeps in mind whether the end token has
come. After that there is no further item.

Main statements: `next_fst` and `stream_next_snd`, by which a scanner goes along the stream of
tokens that `TokenStream.scan` reads at once.
-/

namespace Scriptlet

structure Scanner where
  /-- The source that is left. -/
  rest : List Char
  /-- Where it starts. -/
  position : Position
deriving DecidableEq, Repr

namespace Scanner

def ofSource (source : String) : Scanner := ⟨source.toList, .start⟩

/-- The scanner past the gap that it stands at. -/
def skipGap (s : Scanner) : Scanner :=
  ⟨s.rest.dropWhile isGap, s.position.after (s.rest.takeWhile isGap)⟩

/-- The token right here, and the scanner past it. -/
def read (s : Scanner) : Token × Scanner :=
  match s.rest with
  | [] => (⟨.eof, "", s.position⟩, s)
  | c :: cs =>
    let l := Lexeme.read c cs
    (⟨l.1.kind, String.ofList l.1.text, s.position⟩, ⟨l.2, s.position.after l.1.raw⟩)

/-- The next token, and the scanner past it. -/
def next (s : Scanner) : Token × Scanner := s.skipGap.read

/-- The tokens that are left, read at once. -/
def stream (s : Scanner) : TokenStream := .scan s.position s.rest

/-- The token that the call of index `i` gives, counted from the next one. -/
def token (s : Scanner) : Nat → Token
  | 0 => s.next.1
  | i + 1 => s.next.2.token i

theorem stream_skipGap (s : Scanner) : s.skipGap.stream = s.stream := by
  obtain ⟨rest, p⟩ := s
  unfold stream skipGap
  dsimp only
  induction rest generalizing p with
  | nil => rfl
  | cons c cs ih =>
    cases hc : isGap c with
    | true =>
      rw [List.takeWhile_cons_of_pos hc, List.dropWhile_cons_of_pos hc,
        TokenStream.scan_gap p cs hc]
      exact ih (p.next c)
    | false =>
      have hc' : ¬ isGap c = true := by simp [hc]
      rw [List.takeWhile_cons_of_neg hc', List.dropWhile_cons_of_neg hc']
      rfl

/-- What is left past a gap starts with no gap. -/
theorem head?_skipGap (s : Scanner) : ∀ c ∈ s.skipGap.rest.head?, isGap c = false := by
  intro c hc
  have h := List.head?_dropWhile_not isGap s.rest
  rw [show s.rest.dropWhile isGap = s.skipGap.rest from rfl, Option.mem_def.1 hc] at h
  simpa using h

theorem read_stream {s : Scanner} (h : ∀ c ∈ s.rest.head?, isGap c = false) :
    s.read.1 = s.stream.current ∧ s.read.2.stream = s.stream.advance := by
  obtain ⟨_ | ⟨c, cs⟩, p⟩ := s
  · simp [read, stream, TokenStream.scan_nil, TokenStream.current, TokenStream.advance,
      TokenStream.endToken]
  · unfold read stream
    dsimp only
    rw [TokenStream.scan_lexeme p cs (h c rfl)]
    exact ⟨rfl, rfl⟩

/-- The next token is the current one of the stream. -/
theorem next_fst (s : Scanner) : s.next.1 = s.stream.current := by
  rw [next, (read_stream s.head?_skipGap).1, stream_skipGap]

/-- The scanner past the next token goes on with the stream past it. -/
theorem stream_next_snd (s : Scanner) : s.next.2.stream = s.stream.advance := by
  rw [next, (read_stream s.head?_skipGap).2, stream_skipGap]

theorem length_next_lt {s : Scanner} (h : s.next.1.kind ≠ .eof) :
    s.next.2.rest.length < s.rest.length := by
  have hskip : s.skipGap.rest.length ≤ s.rest.length :=
    (List.dropWhile_suffix isGap).length_le
  unfold next read at h ⊢
  split
  · rename_i heq
    rw [heq] at h
    exact absurd rfl h
  · rename_i c cs heq
    rw [heq, List.length_cons] at hskip
    have hle := Lexeme.length_rest_le c cs
    dsimp only
    omega

/-- The tokens up to the first end token, and this one. -/
def tokenize (s : Scanner) : List Token :=
  if s.next.1.kind = .eof then [s.next.1] else s.next.1 :: s.next.2.tokenize
termination_by s.rest.length
decreasing_by exact length_next_lt ‹_›

/-- A scanner that is walked through. -/
structure Items where
  scanner : Scanner
  /-- The end token has been given out. -/
  finished : Bool

/-- The first item and the others, if there is any. -/
def Items.next? (it : Items) : Option (Token × Items) :=
  if it.finished then none
  else some (it.scanner.next.1, ⟨it.scanner.next.2, it.scanner.next.1.kind = .eof⟩)

/-- No more items than that are left, whatever they are. -/
def Items.bound (it : Items) : Nat := if it.finished then 0 else it.scanner.rest.length + 1

theorem Items.bound_lt {it it' : Items} {t : Token} (h : it.next? = some (t, it')) :
    it'.bound < it.bound := by
  unfold next? at h
  split at h
  · cases h
  · rename_i hopen
    cases h
    unfold bound
    rw [if_neg hopen]
    dsimp only
    by_cases heof : it.scanner.next.1.kind = .eof
    · simp [heof]
    · have hlt := length_next_lt heof
      simp [heof, hlt]

/-- All items in turn. -/
def Items.collect (it : Items) : List Token :=
  match _h : it.next? with
  | none => []
  | some (t, it') => t :: it'.collect
termination_by it.bound
decreasing_by exact bound_lt ‹_›

end Scanner

end Scriptlet
