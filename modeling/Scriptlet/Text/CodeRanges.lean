/-!
# Sets of characters

A property of characters is a set of code points. Written as ranges from first to last, in
ascending order and with a gap between neighbours, each set has one form only.
-/

namespace Scriptlet

namespace Text

/-- Ranges of code points, each from its first to its last. -/
abbrev CodeRanges := List (Nat × Nat)

namespace CodeRanges

def contains (rs : CodeRanges) (c : Char) : Bool :=
  rs.any fun r => r.1 ≤ c.toNat && c.toNat ≤ r.2

theorem contains_iff {rs : CodeRanges} {c : Char} :
    rs.contains c ↔ ∃ r ∈ rs, r.1 ≤ c.toNat ∧ c.toNat ≤ r.2 := by
  simp [contains]

/-- No range is empty, and each starts beyond a gap after the one before. -/
def isAscending : CodeRanges → Bool
  | [] => true
  | [r] => r.1 ≤ r.2
  | r :: s :: rest => r.1 ≤ r.2 && r.2 + 1 < s.1 && isAscending (s :: rest)

/-- The number of code points in ascending ranges. -/
def size (rs : CodeRanges) : Nat := rs.foldl (fun n r => n + (r.2 + 1 - r.1)) 0

end CodeRanges

end Text

end Scriptlet
