import Scriptlet.Position

/-!
# Tokens

The words of the language. A token has a kind, its text, and the position of its first
character. The text of a string token leaves out the quotes; the text of every other token is
what stands in the source.
-/

namespace Scriptlet

/-- The kinds of token: the two marks `illegal` and `eof`, the three open classes, the eleven
keywords, the operators and the punctuation. -/
inductive Kind where
  | illegal | eof
  | ident | int | string
  | letKw | constKw | fnKw | returnKw | trueKw | falseKw | ifKw | elseKw | forKw | inKw | nullKw
  | assign | equal | notEqual | plus | minus | bang | asterisk | slash | less | greater
  | comma | semicolon | colon
  | lparen | rparen | lbrace | rbrace | lbracket | rbracket
deriving DecidableEq, Repr

namespace Kind

/-- How messages name the kind. For keywords, operators and punctuation it is their spelling. -/
def spelling : Kind → String
  | illegal => "ILLEGAL" | eof => "EOF"
  | ident => "IDENT" | int => "INT" | string => "STRING"
  | letKw => "let" | constKw => "const" | fnKw => "fn" | returnKw => "return"
  | trueKw => "true" | falseKw => "false" | ifKw => "if" | elseKw => "else"
  | forKw => "for" | inKw => "in" | nullKw => "null"
  | assign => "=" | equal => "==" | notEqual => "!="
  | plus => "+" | minus => "-" | bang => "!" | asterisk => "*" | slash => "/"
  | less => "<" | greater => ">"
  | comma => "," | semicolon => ";" | colon => ":"
  | lparen => "(" | rparen => ")" | lbrace => "\x7b" | rbrace => "\x7d"
  | lbracket => "[" | rbracket => "]"

def keywords : List Kind :=
  [letKw, constKw, fnKw, returnKw, trueKw, falseKw, ifKw, elseKw, forKw, inKw, nullKw]

def isKeyword (k : Kind) : Bool := keywords.contains k

/-- The keywords that can stand only at the start of a statement. -/
def startsStatement : Kind → Bool
  | letKw | constKw | returnKw => true
  | _ => false

/-- The kind of a word: the keyword it spells, or else an identifier. -/
def ofWord (word : String) : Kind := (keywords.find? fun k => k.spelling == word).getD ident

/-- The kind of a token that is always the one character `c`. -/
def ofPunctuation : Char → Option Kind
  | '\x7b' => some lbrace | '\x7d' => some rbrace
  | '[' => some lbracket | ']' => some rbracket
  | '(' => some lparen | ')' => some rparen
  | ',' => some comma | ';' => some semicolon | ':' => some colon
  | '+' => some plus | '-' => some minus | '*' => some asterisk | '/' => some slash
  | '<' => some less | '>' => some greater
  | _ => none

end Kind

structure Token where
  kind : Kind
  text : String
  position : Position
deriving DecidableEq, Repr

end Scriptlet
