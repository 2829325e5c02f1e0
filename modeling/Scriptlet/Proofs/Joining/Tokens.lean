import Scriptlet.Proofs.Scanning.Tiling

/-!
# The tokens of two sources in a row

**Lemma (`map_unplaced_append`).** If the last token of a source is a semicolon, the tokens of that
source and another one after it are the tokens of the first and then those of the second.

A token depends on the source after it only by its next character. Every token before the
semicolon has that character in its own source, and a semicolon does not depend on it.
-/

namespace Scriptlet

/-- The last of the tokens is a semicolon. -/
def EndsStatement (ts : List Token) : Prop := ∃ t ∈ ts.getLast?, t.kind = .semicolon

theorem not_endsStatement_nil : ¬ EndsStatement [] := nofun

@[simp] theorem endsStatement_singleton {t : Token} : EndsStatement [t] ↔ t.kind = .semicolon := by
  simp [EndsStatement]

@[simp] theorem endsStatement_cons_cons {t u : Token} {ts : List Token} :
    EndsStatement (t :: u :: ts) ↔ EndsStatement (u :: ts) := by
  rw [EndsStatement, EndsStatement, List.getLast?_cons_cons]

/-- What is left of a source ends as the source does. -/
theorem EndsStatement.of_suffix {ts rest : List Token} (h : EndsStatement ts)
    (hsuffix : rest <:+ ts) (hrest : rest ≠ []) : EndsStatement rest := by
  obtain ⟨pre, rfl⟩ := hsuffix
  obtain ⟨last, hlast⟩ := Option.ne_none_iff_exists'.1 (mt List.getLast?_eq_none_iff.1 hrest)
  simpa [EndsStatement, List.getLast?_append, hlast] using h

theorem Munch.ne_nil {k : Kind} {text raw rest : List Char} (h : Munch k text raw rest) :
    raw ≠ [] := by
  cases h with
  | int hne _ => exact hne
  | _ => exact List.cons_ne_nil _ _

/-- What follows the next character does not matter to a token. -/
theorem Munch.append {k : Kind} {text raw rest : List Char} (h : Munch k text raw rest)
    (hrest : rest ≠ []) (more : List Char) : Munch k text raw (rest ++ more) := by
  have hhead : (rest ++ more).head? = rest.head? := by
    obtain ⟨c, cs, rfl⟩ := List.exists_cons_of_ne_nil hrest
    rfl
  have hrun {p : Char → Bool} {run : List Char} (h : MaximalRun p run rest) :
      MaximalRun p run (rest ++ more) := ⟨h.all, hhead ▸ h.stops⟩
  cases h with
  | mark hk => exact .mark hk
  | equal => exact .equal
  | notEqual => exact .notEqual
  | assign hne => exact .assign (hhead ▸ hne)
  | bang hne => exact .bang (hhead ▸ hne)
  | string hquote => exact .string hquote
  | unterminated => exact absurd rfl hrest
  | int hne h => exact .int hne (hrun h)
  | keyword hk hspell hc h => exact .keyword hk hspell hc (hrun h)
  | name hnone hc h => exact .name hnone hc (hrun h)
  | illegal hc => exact .illegal hc

/-- What follows a semicolon does not matter to it. -/
theorem Munch.semicolon {text raw rest : List Char} (h : Munch .semicolon text raw rest)
    (more : List Char) : Munch .semicolon text raw more := by
  cases h with
  | mark hk => exact .mark hk
  | keyword hk => exact absurd hk (by decide)

theorem Tiles.gap_append {gap cs : List Char} {ts : List Token} (hgap : ∀ c ∈ gap, isGap c)
    (h : Tiles cs ts) : Tiles (gap ++ cs) ts := by
  induction gap with
  | nil => exact h
  | cons c gap ih =>
    exact (ih fun d hd => hgap d (List.mem_cons_of_mem c hd)).gap (hgap c List.mem_cons_self)

theorem Tiles.ne_nil {cs : List Char} {t : Token} {ts : List Token} (h : Tiles cs (t :: ts)) :
    cs ≠ [] := by
  cases h with
  | token _ ht _ =>
    exact fun hnil => ht.ne_nil (List.append_eq_nil_iff.1 (List.append_eq_nil_iff.1 hnil).2).1

/-- **Sources in a row**, the first of them up to a semicolon, are tiled by their tokens. -/
theorem Tiles.append {cs cs' : List Char} {ts ts' : List Token} (h : Tiles cs ts)
    (hend : EndsStatement ts) (h' : Tiles cs' ts') : Tiles (cs ++ cs') (ts ++ ts') := by
  induction h with
  | finish => exact absurd hend not_endsStatement_nil
  | @token gap raw rest t ts hgap ht hts ih =>
    rw [List.append_assoc, List.append_assoc, List.cons_append]
    cases ts with
    | nil =>
      have hk : t.kind = .semicolon := by simpa using hend
      cases hts with
      | finish hgap' =>
        -- The gap past the semicolon is now in front of the first token of the other source.
        rw [hk] at ht
        exact .token hgap (hk ▸ ht.semicolon _) (h'.gap_append hgap')
    | cons u us => exact .token hgap (ht.append hts.ne_nil _) (ih (by simpa using hend))

/-- The tokens of two sources in a row, wherever they stand. -/
theorem map_unplaced_append {source source' : String}
    (hend : EndsStatement (TokenStream.ofSource source).tokens) :
    (TokenStream.ofSource (source ++ source')).tokens.map Token.unplaced =
      (TokenStream.ofSource source).tokens.map Token.unplaced ++
        (TokenStream.ofSource source').tokens.map Token.unplaced := by
  have htiles := (tiles_scan .start source.toList).append hend (tiles_scan .start source'.toList)
  rw [← String.toList_append] at htiles
  have hlexed := htiles.lexed
  rw [List.map_append] at hlexed
  exact hlexed

end Scriptlet
