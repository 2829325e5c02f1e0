import Scriptlet.Native
import Scriptlet.Operator
import Scriptlet.Text.Blank
import Scriptlet.Value.Text

/-!
# The standard natives

`len`, `append` and `remove` work on collections, `typeof`, `print`, `string` and `int` on any
value. Collections are shared, so `append` and `remove` change what every holder of the
collection sees. A native that fails changes no collection and prints nothing.
-/

namespace Scriptlet

namespace Native

/-- A native of one argument. -/
def ofUnary (name : String) (f : Value → Action Value) : Native
  | [v] => f v
  | args => Run.fail (.wrongArgumentCount name "1" args.length)

/-- A native of two arguments. -/
def ofBinary (name : String) (f : Value → Value → Action Value) : Native
  | [v, w] => f v w
  | args => Run.fail (.wrongArgumentCount name "2" args.length)

/-! ## Collections -/

/-- How many characters, elements or entries there are. -/
def len : Native := ofUnary "len" fun
  | .string s => pure (.integer (.ofNat s.length))
  | .array id => do
    let items ← Run.read fun σ => σ.items id
    pure (.integer (.ofNat items.size))
  | .hash id => do
    let pairs ← Run.read fun σ => σ.pairs id
    pure (.integer (.ofNat pairs.size))
  | v => Run.fail (.argumentNotSupported "len" v.type.name)

/-- Add an element at the end of an array, or set a key of a hash. The result is the collection
itself. -/
def append : Native
  | [.array id, v] => do
    Store.pushItem id v
    pure (.array id)
  | [.hash id, k, v] => do
    Store.setEntry id k v
    pure (.hash id)
  | args@(.array _ :: _) => Run.fail (.wrongArgumentCount "append" "2" args.length)
  | args@(.hash _ :: _) => Run.fail (.wrongArgumentCount "append" "3" args.length)
  | v :: _ => Run.fail (.argumentNotSupported "append" v.type.name)
  | [] => Run.fail (.wrongArgumentCount "append" "2 or 3" 0)

/-- Delete an element of an array by its place, or an entry of a hash by its key. The result says
whether there was one. -/
def remove : Native := ofBinary "remove" fun
  | .array id, .integer n => do
    let taken ← Store.takeItem id n
    pure (.bool taken.isSome)
  | .array _, v => Run.fail (.argumentNotSupported "remove" v.type.name)
  | .hash id, v => do
    let taken ← Store.takeEntry id v
    pure (.bool taken.isSome)
  | v, _ => Run.fail (.argumentNotSupported "remove" v.type.name)

/-! ## Any value -/

def typeOf : Native := ofUnary "typeof" fun v => pure (.string v.type.name)

/-- Print the arguments on one line, with spaces between them. It fails if the line is refused. -/
def print : Native := fun args => do
  let texts ← Run.read fun σ => args.map σ.text
  Store.print (" ".intercalate texts)
  pure .null

/-- The texts of the arguments, one after the other. -/
def string : Native := fun args => do
  let texts ← Run.read fun σ => args.map σ.text
  pure (.string (String.join texts))

/-- The sign of a number, if it is a minus, and what follows the sign. -/
def takeSign : List Char → Bool × List Char
  | '-' :: rest => (true, rest)
  | '+' :: rest => (false, rest)
  | cs => (false, cs)

/-- The integer at the head of a text: after blanks, a sign if there is one and all the digits
that follow. There is none without a digit, or if the number does not fit. -/
def leadingInteger? (text : String) : Option Integer :=
  let signed := takeSign (text.toList.dropWhile Text.isBlank)
  Integer.ofDigits? signed.1 (signed.2.takeWhile Char.isDigit)

/-- The integer at the head of a string, or `null`. -/
def int : Native := ofUnary "int" fun
  | .string s =>
    match leadingInteger? s with
    | some n => pure (.integer n)
    | none => pure .null
  | v => Run.fail (.argumentNotSupported "int" v.type.name)

end Native

/-- The natives of the language. -/
def Registry.standard : Registry :=
  [("len", Native.len), ("append", Native.append), ("remove", Native.remove),
    ("typeof", Native.typeOf), ("print", Native.print), ("string", Native.string),
    ("int", Native.int)].foldl (fun reg entry => reg.register entry.1 entry.2) .empty

theorem Registry.every_standard {P : Native → Prop} (hlen : P Native.len)
    (happend : P Native.append) (hremove : P Native.remove) (htypeOf : P Native.typeOf)
    (hprint : P Native.print) (hstring : P Native.string) (hint : P Native.int) :
    Registry.standard.Every P :=
  ((((((Every.empty.register hlen).register happend).register hremove).register htypeOf).register
    hprint).register hstring).register hint

end Scriptlet
