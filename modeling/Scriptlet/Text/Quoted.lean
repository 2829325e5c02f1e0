import Scriptlet.Text.Extender
import Scriptlet.Text.Ignorable
import Scriptlet.Text.Unprintable

/-!
# Quoted text

A text between double quotes, with escapes for the characters that would end it, break the line,
leave no mark or merge with the character before them.
-/

namespace Scriptlet

namespace Text

/-- Characters that a reader could not tell from their surroundings. -/
def isObscure (c : Char) : Bool := isExtendingMark c || isIgnorable c || isUnprintable c

/-- The character as it stands between quotes. -/
def escape (c : Char) : String :=
  match c with
  | '"' => "\\\""
  | '\\' => "\\\\"
  | '\n' => "\\n"
  | '\r' => "\\r"
  | '\t' => "\\t"
  | '\x00' => "\\0"
  | c =>
    if isObscure c then "\\u\x7b" ++ String.ofList (Nat.toDigits 16 c.toNat) ++ "\x7d"
    else c.toString

def quoted (text : String) : String := "\"" ++ String.join (text.toList.map escape) ++ "\""

/-- Quoted texts in brackets. -/
def quotedList (texts : List String) : String :=
  "[" ++ ", ".intercalate (texts.map quoted) ++ "]"

end Text

end Scriptlet
