import Scriptlet.TokenStream

/-!
# Positions of tokens

Every character moves the position on. So the tokens of a source stand one after the other, and
the position of a token tells it apart from all others (`position_token_inj`).
-/

namespace Scriptlet

namespace Position

/-- Earlier in a source. -/
def Before (p q : Position) : Prop := p.line < q.line ∨ p.line = q.line ∧ p.column < q.column

theorem Before.trans {p q r : Position} (h : p.Before q) (h' : q.Before r) : p.Before r := by
  simp only [Before] at *
  omega

theorem Before.ne {p q : Position} (h : p.Before q) : p ≠ q := by
  rintro rfl
  simp only [Before] at h
  omega

theorem before_next (p : Position) (c : Char) : p.Before (p.next c) := by
  unfold next
  split <;> simp [Before]

/-- Characters move the position on. -/
theorem before_after (p : Position) (c : Char) (cs : List Char) :
    p.Before (p.after (c :: cs)) := by
  induction cs generalizing p c with
  | nil => exact before_next p c
  | cons d cs ih => exact (before_next p c).trans (ih (p.next c) d)

end Position

namespace TokenStream

theorem toList_cons (t : Token) (s : TokenStream) :
    toList { s with tokens := t :: s.tokens } = t :: s.toList := rfl

/-- The tokens of a source stand one after the other, none before the source starts. -/
theorem position_scan (p : Position) (cs : List Char) :
    (∀ t ∈ (scan p cs).toList, p = t.position ∨ p.Before t.position) ∧
      (scan p cs).toList.Pairwise fun t u => t.position.Before u.position := by
  fun_induction scan p cs with
  | case1 p => simp [toList, endToken]
  | case2 p c cs h ih =>
    refine ⟨fun t ht => .inr ?_, ih.2⟩
    rcases ih.1 t ht with heq | hbefore
    · exact heq ▸ p.before_next c
    · exact (p.before_next c).trans hbefore
  | case3 p c cs h lexeme ahead ih =>
    obtain ⟨tail, hraw, -⟩ := Lexeme.splits_read c cs
    have hmove : p.Before (p.after lexeme.raw) := hraw ▸ p.before_after c tail
    have hlater : ∀ t ∈ ahead.toList, p.Before t.position := by
      intro t ht
      rcases ih.1 t ht with heq | hbefore
      · exact heq ▸ hmove
      · exact hmove.trans hbefore
    rw [toList_cons, List.pairwise_cons]
    refine ⟨fun t ht => ?_, hlater, ih.2⟩
    rcases List.mem_cons.1 ht with rfl | ht
    · exact .inl rfl
    · exact .inr (hlater t ht)

/-- No token of a source comes twice. -/
theorem nodup_ofSource (source : String) : (ofSource source).tokens.Nodup := by
  have htokens := (List.pairwise_append.1 (position_scan .start source.toList).2).1
  exact htokens.imp fun hbefore heq => hbefore.ne (congrArg Token.position heq)

theorem getElem?_toList (s : TokenStream) {i : Nat} (hi : i ≤ s.tokens.length) :
    s.toList[i]? = some (s.token i) := by
  rw [toList, token, List.getD_eq_getElem?_getD]
  rcases Nat.lt_or_eq_of_le hi with hlt | rfl
  · rw [List.getElem?_append_left hlt, List.getElem?_eq_getElem hlt]
    rfl
  · simp

/-- A token of a source is the only one at its position. -/
theorem position_token_inj (source : String) {i j : Nat}
    (hi : i ≤ (ofSource source).tokens.length) (hj : j ≤ (ofSource source).tokens.length)
    (h : ((ofSource source).token i).position = ((ofSource source).token j).position) : i = j := by
  have hpair := (position_scan .start source.toList).2
  have hbefore {i j : Nat} (hi : i ≤ (ofSource source).tokens.length)
      (hj : j ≤ (ofSource source).tokens.length) (hlt : i < j) :
      ((ofSource source).token i).position ≠ ((ofSource source).token j).position := by
    obtain ⟨hi', hti⟩ := List.getElem?_eq_some_iff.1 (getElem?_toList _ hi)
    obtain ⟨hj', htj⟩ := List.getElem?_eq_some_iff.1 (getElem?_toList _ hj)
    rw [← hti, ← htj]
    exact (List.pairwise_iff_getElem.1 hpair i j hi' hj' hlt).ne
  rcases Nat.lt_trichotomy i j with hlt | heq | hlt
  · exact absurd h (hbefore hi hj hlt)
  · exact heq
  · exact absurd h.symm (hbefore hj hi hlt)

end TokenStream

end Scriptlet
