/-!
# Printed lines

What programs print goes straight to the console, or is held back until someone takes it. The
console may refuse a line, as when nobody reads it any more. Which lines it will refuse, and for
what reason, is not up to the program, and is part of where it runs.
-/

namespace Scriptlet

inductive Output where
  /-- The lines written to the console so far, and what it will say to the next ones: to each of
  them nothing, or the reason why it is refused. None is refused after those. -/
  | console (lines : Array String) (answers : List (Option String) := [])
  /-- The lines held back since the last time they were taken. -/
  | captured (lines : Array String)
deriving DecidableEq, Repr

namespace Output

/-- Write a line. The result is the reason why it was refused, if it was. -/
def write (line : String) : Output → Option String × Output
  | console lines [] => (none, console (lines.push line))
  | console lines (none :: answers) => (none, console (lines.push line) answers)
  | console lines (some reason :: answers) => (some reason, console lines answers)
  | captured lines => (none, captured (lines.push line))

/-- Take the lines held back. What went to the console cannot be taken back. -/
def take : Output → List String × Output
  | console lines answers => ([], console lines answers)
  | captured lines => (lines.toList, captured #[])

/-- What stands on the console. -/
def consoleText : Output → String
  | console lines _ => String.join (lines.toList.map (· ++ "\n"))
  | captured _ => ""

end Output

end Scriptlet
