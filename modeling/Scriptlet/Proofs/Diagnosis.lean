import Scriptlet.Proofs.Grammar.Completion
import Scriptlet.Proofs.Grammar.TrackedRules
import Scriptlet.Proofs.Scanning.Positions

/-!
# Where the first diagnostic points

**Theorem (`first_diagnostic_leftmost`).** The first diagnostic of a source points at the first
token that goes wrong. With the tokens up to and including this one no source is read without a
diagnostic; with the tokens before it some source is.

Reading a source is a run over goals that gets stuck at the token the first diagnostic points at
(`tracks_program`). A run looks at no token beyond the next one, so every source with the same
tokens up to there gets stuck as well. And right before that token the goals that are left can be
met, by tokens that can be written down.
-/

namespace Scriptlet

open Prediction

/-! ## Sources that start alike -/

/-- The first `k` tokens of the two sources have the same kinds and texts. The end of a source
counts as a token. -/
def StartsAlike (k : Nat) (source other : String) : Prop :=
  ((TokenStream.ofSource source).toList.take k).map Token.unplaced =
    ((TokenStream.ofSource other).toList.take k).map Token.unplaced

theorem exists_spelling {ts : List Token} (h : ∀ t ∈ ts, t.Lexical) :
    ∃ s, Spells s (ts.map Token.unplaced) := by
  induction ts with
  | nil => exact ⟨"", sealed_empty.spells⟩
  | cons t ts ih =>
    obtain ⟨s, hs⟩ := (h t List.mem_cons_self).written
    obtain ⟨s', hs'⟩ := ih fun u hu => h u (List.mem_cons_of_mem t hu)
    have hspace : Delimiter (String.singleton ' ') [] := delimiter_gap (by decide)
    exact ⟨_, (hs.close hspace).spell hs'⟩

/-- Tokens that can be written down one by one can be written down together. -/
theorem exists_source {ts : List Token} (h : ∀ t ∈ ts, t.Lexical) :
    ∃ source, Alike ts (TokenStream.ofSource source).tokens := by
  obtain ⟨s, hs⟩ := exists_spelling h
  have hlexed := hs [] apart_nil
  rw [List.append_nil, lexed_nil, List.append_nil] at hlexed
  exact ⟨s, alike_iff.2 hlexed.symm⟩

/-- The tokens that the two sources share are followed by the same token, or by no token. -/
theorem StartsAlike.split {source other : String} {used rest : List Token}
    (h : StartsAlike (used.length + 1) source other)
    (hs : (TokenStream.ofSource source).tokens = used ++ rest) :
    ∃ used' rest', (TokenStream.ofSource other).tokens = used' ++ rest' ∧ Alike used used' ∧
      front rest = front rest' := by
  have htake : (TokenStream.ofSource source).toList.take (used.length + 1) =
      used ++ [rest.headD (TokenStream.ofSource source).endToken] := by
    rw [TokenStream.toList, hs, List.append_assoc, List.take_length_add_append]
    cases rest <;> rfl
  rw [StartsAlike, htake, List.map_append] at h
  obtain ⟨used', last, hother, hused, hlast⟩ := List.map_eq_append_iff.1 h.symm
  obtain ⟨u, rfl, hu⟩ := List.map_eq_singleton_iff.1 hlast
  have hall := List.take_append_drop (used.length + 1) (TokenStream.ofSource other).toList
  rw [hother] at hall
  generalize (TokenStream.ofSource other).toList.drop (used.length + 1) = more at hall
  rw [TokenStream.toList] at hall
  have hmap : Alike used used' := alike_iff.2 hused.symm
  rcases List.eq_nil_or_concat more with rfl | ⟨more, e, rfl⟩
  · -- The other source ends here, so this one does.
    rw [List.append_nil] at hall
    obtain ⟨rfl, hend⟩ := List.append_inj' hall rfl
    obtain rfl := List.singleton_inj.1 hend
    refine ⟨_, [], (List.append_nil _).symm, hmap, ?_⟩
    cases rest with
    | nil => rfl
    | cons t rest =>
      have ht : t ∈ (TokenStream.ofSource source).tokens := by simp [hs]
      exact absurd (kind_eq hu) (TokenStream.proper_ofSource source t ht).kind_ne_eof
  · rw [List.concat_eq_append, ← List.append_assoc] at hall
    obtain ⟨hother, -⟩ := List.append_inj' hall rfl
    refine ⟨used', u :: more, by rw [← hother]; simp, hmap, ?_⟩
    cases rest with
    | nil =>
      have hu' : u ∈ (TokenStream.ofSource other).tokens := by simp [← hother]
      exact absurd (kind_eq hu.symm) (TokenStream.proper_ofSource other u hu').kind_ne_eof
    | cons t rest => exact front_eq hu.symm _ _

/-! ## Runs on sources -/

variable {source : String} {errors : List Diagnostic}

theorem leads_of_parse {p : Program} (h : parse source = .ok p) :
    ∃ b ts, Leads ⟨false, [.program], (TokenStream.ofSource source).tokens⟩ ⟨b, [], ts⟩ := by
  obtain ⟨t, ht, hrec⟩ := parse_eq_ok_iff_program.1 h
  obtain ⟨b, -, hleads⟩ :=
    (Parse.tracks_program source).meets ht hrec (Parse.agrees_none false) []
  exact ⟨b, _, hleads⟩

/-- A source that is not read has a first diagnostic, and the run gets stuck where it points. -/
theorem exists_stuckAt (h : parse source = .error errors) :
    ∃ d ds c, errors = d :: ds ∧ Parse.StuckAt (.ofSource source) d c ∧
      Leads ⟨false, [.program], (TokenStream.ofSource source).tokens⟩ c := by
  have htracks := Parse.tracks_program source
  have hfound : Parse.findings (Parse.program (.ofSource source)) = errors ∧ errors ≠ [] := by
    rw [parse] at h
    split at h
    · rename_i p t ht
      rw [ht]
      split at h
      · cases h
      · rename_i hne
        cases h
        exact ⟨rfl, by simpa using hne⟩
    · rename_i d t ht
      cases h
      rw [ht]
      simp [Parse.findings]
    · rename_i hfuel
      exact absurd hfuel htracks.ends
  obtain ⟨hfound, hne⟩ := hfound
  obtain ⟨d, ds, rfl⟩ := List.exists_cons_of_ne_nil hne
  obtain ⟨c, hc, hleads⟩ := htracks.finds ⟨ds, hfound⟩ (Parse.agrees_none false) []
  exact ⟨d, ds, c, rfl, hc, hleads⟩

/-- A source whose run meets its goals is read. -/
theorem exists_parse_eq_ok {b : Bool} {ts : List Token}
    (h : Leads ⟨false, [.program], (TokenStream.ofSource source).tokens⟩ ⟨b, [], ts⟩) :
    ∃ p, parse source = .ok p := by
  cases hp : parse source with
  | ok p => exact ⟨p, rfl⟩
  | error errors =>
    obtain ⟨d, ds, c, -, hc, hleads⟩ := exists_stuckAt hp
    exact absurd h (hc.stuck.not_met hleads)

/-! ## The first token that goes wrong -/

/-- The token at index `k` is the first one that goes wrong, and `d` points at it. -/
structure Leftmost (source : String) (d : Diagnostic) (k : Nat) : Prop where
  index : k ≤ (TokenStream.ofSource source).tokens.length
  position : ∀ i ≤ (TokenStream.ofSource source).tokens.length,
    ((TokenStream.ofSource source).token i).position = d.position ↔ i = k
  /-- Up to and including this token no source goes on to be read. -/
  rejected : ∀ other p, StartsAlike (k + 1) source other → parse other ≠ .ok p
  /-- Up to this token some source does. -/
  completed : ∃ other p, StartsAlike k source other ∧ parse other = .ok p

variable {b : Bool} {st : List Goal} {used rest : List Token}

/-- Sources that share the token at which a run gets stuck, and those before, are not read. -/
theorem parse_ne_ok_of_stuck (hs : (TokenStream.ofSource source).tokens = used ++ rest)
    (hstuck : Stuck ⟨b, st, rest⟩)
    (hleads : Leads ⟨false, [.program], (TokenStream.ofSource source).tokens⟩ ⟨b, st, rest⟩)
    {other : String} (h : StartsAlike (used.length + 1) source other) (p : Program) :
    parse other ≠ .ok p := by
  intro hp
  obtain ⟨used', rest', hother, hused, hrest⟩ := h.split hs
  obtain ⟨used₁, hs₁, hsame⟩ := leads_of_front hleads
  rw [hs, List.append_cancel_right_eq] at hs₁
  have hleads' := hsame used' rest' (hs₁ ▸ hused) hrest
  obtain ⟨b', ts, hmet⟩ := leads_of_parse hp
  rw [hother] at hmet
  have hstuck' : Stuck ⟨b, st, rest'⟩ := by
    obtain ⟨hstep, hst⟩ := hstuck
    refine ⟨?_, hst⟩
    cases st with
    | nil => exact absurd rfl hst
    | cons g gs => simpa [Point.step, hrest] using hstep
  exact hstuck'.not_met hleads' hmet

/-- What a run has used up can be completed. -/
theorem exists_completion (hs : (TokenStream.ofSource source).tokens = used ++ rest)
    (hleads : Leads ⟨false, [.program], (TokenStream.ofSource source).tokens⟩ ⟨b, st, rest⟩) :
    ∃ other p, StartsAlike used.length source other ∧ parse other = .ok p := by
  obtain ⟨used₁, b₀, st₀, hs₁, hsame⟩ := leads_used hleads
  rw [hs, List.append_cancel_right_eq] at hs₁
  subst hs₁
  have hclosable : Closable st₀ :=
    Closable.leads (hsame []) ⟨rfl, trivial⟩
  obtain ⟨b', hclose⟩ := leads_close hclosable b₀
  have hlexical : ∀ t ∈ used ++ fillAll st₀, t.Lexical := by
    intro t ht
    rcases List.mem_append.1 ht with ht | ht
    · exact TokenStream.lexical_ofSource source t (hs ▸ List.mem_append_left _ ht)
    · exact hclosable.lexical t ht
  obtain ⟨other, hother⟩ := exists_source hlexical
  have hmet := (hsame (fillAll st₀)).trans hclose
  obtain ⟨all, hall, hmove⟩ := leads_of_front hmet
  rw [List.append_nil] at hall
  have hmet' := hmove _ [] (hall ▸ hother) rfl
  rw [List.append_nil] at hmet'
  obtain ⟨p, hp⟩ := exists_parse_eq_ok hmet'
  refine ⟨other, p, ?_, hp⟩
  rw [StartsAlike, TokenStream.toList, TokenStream.toList, hs, List.map_take, List.map_take]
  simp [← alike_iff.1 hother]

/-- **The first diagnostic is the leftmost possible one.** A source that is not read has a first
diagnostic, and it points at the first token that goes wrong. -/
theorem first_diagnostic_leftmost (h : parse source = .error errors) :
    ∃ d ds k, errors = d :: ds ∧ Leftmost source d k := by
  obtain ⟨d, ds, ⟨b, st, rest⟩, herrors, hc, hleads⟩ := exists_stuckAt h
  obtain ⟨used, -, -, hs, -⟩ := leads_used hleads
  have hindex : used.length ≤ (TokenStream.ofSource source).tokens.length := by simp [hs]
  have htoken : ((TokenStream.ofSource source).token used.length).position = d.position := by
    rw [hc.position, TokenStream.token, hs]
    cases rest <;> simp [ParseState.ofSource]
  refine ⟨d, ds, used.length, herrors, hindex, fun i hi => ⟨fun hpos => ?_, fun hik => ?_⟩,
    fun other p hother => parse_ne_ok_of_stuck hs hc.stuck hleads hother p,
    exists_completion hs hleads⟩
  · exact TokenStream.position_token_inj source hi hindex (hpos.trans htoken.symm)
  · rw [hik, htoken]

/-- A number cannot follow `let`, and `let` can be followed by something. -/
theorem first_diagnostic_after_let :
    parse "let 1" = .error [⟨.unexpectedToken .ident .int, ⟨1, 5⟩⟩] ∧
      Leftmost "let 1" ⟨.unexpectedToken .ident .int, ⟨1, 5⟩⟩ 1 := by
  have h : parse "let 1" = .error [⟨.unexpectedToken .ident .int, ⟨1, 5⟩⟩] := by
    with_unfolding_all rfl
  obtain ⟨d, ds, k, herrors, hk⟩ := first_diagnostic_leftmost h
  cases herrors
  have hindex : 1 ≤ (TokenStream.ofSource "let 1").tokens.length := by
    have hlen : (TokenStream.ofSource "let 1").tokens.length = 2 := by decide +kernel
    omega
  have hpos : ((TokenStream.ofSource "let 1").token 1).position = ⟨1, 5⟩ := by decide +kernel
  obtain rfl := (hk.position 1 hindex).1 hpos
  exact ⟨h, hk⟩

end Scriptlet
