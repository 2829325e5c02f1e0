import Scriptlet.Lexeme

/-!
# Token streams

A `TokenStream` is what is left of a source: the tokens still ahead, the current one first, and
the position where the source ends. Past the last token every further token is the end token, as
often as one asks, so the current token and the one after it are always there.
-/

namespace Scriptlet

structure TokenStream where
  /-- The tokens ahead, without the end token. -/
  tokens : List Token
  /-- Where the source ends. -/
  finish : Position
deriving DecidableEq, Repr

namespace TokenStream

/-- The token that marks the end of the source. -/
def endToken (s : TokenStream) : Token := ⟨.eof, "", s.finish⟩

def current (s : TokenStream) : Token := s.tokens.headD s.endToken

/-- The token after the current one. -/
def upcoming (s : TokenStream) : Token := s.tokens.tail.headD s.endToken

/-- The stream past its current token. At the end it stays where it is. -/
def advance (s : TokenStream) : TokenStream := { s with tokens := s.tokens.tail }

/-- The tokens ahead and the end token. -/
def toList (s : TokenStream) : List Token := s.tokens ++ [s.endToken]

/-- The token at index `i`, counted from the current one. -/
def token (s : TokenStream) (i : Nat) : Token := s.tokens.getD i s.endToken

/-! ## Reading a source -/

/-- The stream of the source `cs`, which starts at position `p`. -/
def scan (p : Position) : List Char → TokenStream
  | [] => ⟨[], p⟩
  | c :: cs =>
    if isGap c then scan (p.next c) cs
    else
      let lexeme := (Lexeme.read c cs).1
      let ahead := scan (p.after lexeme.raw) (Lexeme.read c cs).2
      { ahead with tokens := ⟨lexeme.kind, String.ofList lexeme.text, p⟩ :: ahead.tokens }
termination_by cs => cs.length
decreasing_by
  · simp
  · have := Lexeme.length_rest_le c cs; simp; omega

/-- The tokens of a source text. -/
def ofSource (source : String) : TokenStream := scan .start source.toList

/-! ## Moving along -/

theorem scan_nil (p : Position) : scan p [] = ⟨[], p⟩ := by rw [scan]

theorem scan_gap (p : Position) {c : Char} (cs : List Char) (h : isGap c) :
    scan p (c :: cs) = scan (p.next c) cs := by rw [scan, if_pos h]

theorem scan_lexeme (p : Position) {c : Char} (cs : List Char) (h : isGap c = false) :
    scan p (c :: cs) =
      let l := Lexeme.read c cs
      let ahead := scan (p.after l.1.raw) l.2
      ⟨⟨l.1.kind, String.ofList l.1.text, p⟩ :: ahead.tokens, ahead.finish⟩ := by
  rw [scan, if_neg (by simp [h])]

end TokenStream

end Scriptlet
