import Scriptlet.TokenStream

/-!
# The tokens of a source

What can be relied on for every token that is read from a source text. The end of the source is
no token of its own in the list, and a number has digits.
-/

namespace Scriptlet

/-- What every token of a source keeps to. -/
structure Token.Proper (t : Token) : Prop where
  kind_ne_eof : t.kind ≠ .eof
  digits : t.kind = .int → t.text.toList ≠ []

namespace Lexeme

/-- What every lexeme keeps to. -/
def Proper (l : Lexeme) : Prop := l.kind ≠ .eof ∧ (l.kind = .int → l.text ≠ [])

theorem proper_plain {kind : Kind} {c : Char} {cs : List Char} (h : kind ≠ .eof) :
    (plain kind (c :: cs)).Proper := ⟨h, fun _ => List.cons_ne_nil _ _⟩

theorem ofPunctuation_ne_eof {c : Char} {kind : Kind} (h : Kind.ofPunctuation c = some kind) :
    kind ≠ .eof := by
  rintro rfl
  unfold Kind.ofPunctuation at h
  split at h <;> cases h

theorem ofWord_ne_eof (word : String) : Kind.ofWord word ≠ .eof := by
  intro h
  unfold Kind.ofWord at h
  cases hf : Kind.keywords.find? fun k => k.spelling == word with
  | none => rw [hf] at h; cases h
  | some k =>
    rw [hf, Option.getD_some] at h
    subst h
    exact absurd (List.mem_of_find?_eq_some hf) (by decide)

theorem proper_readOperator {c : Char} {single double : Kind} (hs : single ≠ .eof)
    (hd : double ≠ .eof) (cs : List Char) : (readOperator c single double cs).1.Proper := by
  unfold readOperator
  split
  · exact proper_plain hd
  · exact proper_plain hs

theorem proper_readString (cs : List Char) : (readString cs).1.Proper := by
  have hkind : (readString cs).1.kind = .string := by
    unfold readString
    split <;> rfl
  exact ⟨by rw [hkind]; decide, fun h => absurd (hkind.symm.trans h) (by decide)⟩

theorem proper_read (c : Char) (cs : List Char) : (read c cs).1.Proper := by
  unfold read
  split
  · exact proper_plain (ofPunctuation_ne_eof ‹_›)
  split
  · exact proper_readOperator (by decide) (by decide) cs
  split
  · exact proper_readOperator (by decide) (by decide) cs
  split
  · exact proper_readString cs
  split
  · exact proper_plain nofun
  split
  · exact proper_plain (ofWord_ne_eof _)
  · exact proper_plain (by decide)

end Lexeme

namespace TokenStream

theorem proper_scan (p : Position) (cs : List Char) : ∀ t ∈ (scan p cs).tokens, t.Proper := by
  fun_induction scan p cs with
  | case1 => simp
  | case2 p c cs h ih => exact ih
  | case3 p c cs h lexeme ahead ih =>
    intro t ht
    rcases List.mem_cons.1 ht with rfl | ht
    · obtain ⟨hk, hd⟩ := Lexeme.proper_read c cs
      exact ⟨hk, fun h => by simpa using hd h⟩
    · exact ih t ht

/-- **Every token of a source is proper.** -/
theorem proper_ofSource (source : String) : ∀ t ∈ (ofSource source).tokens, t.Proper :=
  proper_scan _ _

end TokenStream

end Scriptlet
