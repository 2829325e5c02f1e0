import Scriptlet.Token

/-!
# Lexemes

A lexeme is the longest stretch of source that makes one token. `Lexeme.read` takes the lexeme
at the head of a non-empty source and returns what is left. It never fails: a character that
starts no token is a lexeme of its own, of the kind `illegal`.

Main statement: `raw_append_rest`, by which reading neither drops nor invents a character.
-/

namespace Scriptlet

/-- The characters between tokens. Other blank characters are illegal outside a string. -/
def isGap (c : Char) : Bool := c = ' ' || c = '\t' || c = '\r' || c = '\n'

/-- A letter or the underscore, in ASCII. -/
def isWordStart (c : Char) : Bool := c.isAlpha || c = '_'

/-- What a word may go on with: also a digit. -/
def isWordPart (c : Char) : Bool := c.isAlphanum || c = '_'

structure Lexeme where
  kind : Kind
  /-- The text that the token keeps. -/
  text : List Char
  /-- The characters that the token takes up in the source. -/
  raw : List Char
deriving DecidableEq, Repr

namespace Lexeme

/-- A lexeme that keeps all its characters. -/
def plain (kind : Kind) (raw : List Char) : Lexeme := ⟨kind, raw, raw⟩

/-- After the opening quote: everything up to the next quote, or up to the end of the source if
there is none. Nothing in a string is special. -/
def readString (cs : List Char) : Lexeme × List Char :=
  let body := cs.takeWhile (· ≠ '"')
  match cs.dropWhile (· ≠ '"') with
  | [] => (⟨.string, body, '"' :: body⟩, [])
  | quote :: rest => (⟨.string, body, '"' :: body ++ [quote]⟩, rest)

/-- After `c`: the kind `double` if an equals sign follows at once, and else `single`. -/
def readOperator (c : Char) (single double : Kind) : List Char → Lexeme × List Char
  | '=' :: rest => (plain double [c, '='], rest)
  | rest => (plain single [c], rest)

/-- After `c`: the longest run of characters in the class `p`. -/
def readRun (c : Char) (p : Char → Bool) (kind : List Char → Kind) (cs : List Char) :
    Lexeme × List Char :=
  let raw := c :: cs.takeWhile p
  (plain (kind raw) raw, cs.dropWhile p)

/-- The lexeme at the head of the source `c :: cs`, and what follows it. -/
def read (c : Char) (cs : List Char) : Lexeme × List Char :=
  match Kind.ofPunctuation c with
  | some kind => (plain kind [c], cs)
  | none =>
    if c = '=' then readOperator c .assign .equal cs
    else if c = '!' then readOperator c .bang .notEqual cs
    else if c = '"' then readString cs
    else if c.isDigit then readRun c Char.isDigit (fun _ => .int) cs
    else if isWordStart c then readRun c isWordPart (fun raw => .ofWord (String.ofList raw)) cs
    else (plain .illegal [c], cs)

/-! ## Nothing is lost -/

/-- The lexeme `l` starts with `c`, and together with `rest` it makes up `c :: cs`. -/
def Splits (c : Char) (cs : List Char) (l : Lexeme × List Char) : Prop :=
  ∃ tail, l.1.raw = c :: tail ∧ tail ++ l.2 = cs

theorem splits_single (c : Char) (kind : Kind) (cs : List Char) :
    Splits c cs (plain kind [c], cs) := ⟨[], rfl, rfl⟩

theorem splits_readOperator (c : Char) (single double : Kind) (cs : List Char) :
    Splits c cs (readOperator c single double cs) := by
  unfold readOperator; split
  · exact ⟨['='], rfl, rfl⟩
  · exact splits_single ..

theorem splits_readString (cs : List Char) : Splits '"' cs (readString cs) := by
  have h := List.takeWhile_append_dropWhile (p := (· ≠ '"')) (l := cs)
  unfold readString
  split <;> rename_i hd <;> rw [hd] at h
  · exact ⟨_, rfl, h⟩
  · exact ⟨_, rfl, by simpa using h⟩

theorem splits_readRun (c : Char) (p : Char → Bool) (kind : List Char → Kind) (cs : List Char) :
    Splits c cs (readRun c p kind cs) := ⟨_, rfl, List.takeWhile_append_dropWhile⟩

theorem splits_read (c : Char) (cs : List Char) : Splits c cs (read c cs) := by
  unfold read
  split
  · exact splits_single ..
  split
  · exact splits_readOperator ..
  split
  · exact splits_readOperator ..
  split
  · rename_i hc; subst hc; exact splits_readString cs
  split
  · exact splits_readRun ..
  split
  · exact splits_readRun ..
  · exact splits_single ..

/-- Reading is lossless: the lexeme and the rest are the source. -/
theorem raw_append_rest (c : Char) (cs : List Char) :
    (read c cs).1.raw ++ (read c cs).2 = c :: cs := by
  obtain ⟨tail, hraw, hcs⟩ := splits_read c cs
  rw [hraw, List.cons_append, hcs]

theorem length_rest_le (c : Char) (cs : List Char) : (read c cs).2.length ≤ cs.length := by
  obtain ⟨tail, -, hcs⟩ := splits_read c cs
  have := congrArg List.length hcs
  simp only [List.length_append] at this
  omega

end Lexeme

end Scriptlet
