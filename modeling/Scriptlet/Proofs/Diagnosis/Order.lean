import Scriptlet.Proofs.Grammar.Abreast
import Scriptlet.Proofs.Grammar.Acceptance
import Scriptlet.Proofs.Scanning.Positions
import Scriptlet.Proofs.Scanning.Tiling

/-!
# The order of diagnostics

**Theorem (`diagnostics_in_order`).** Every diagnostic of a source points at a token of the source,
perhaps the end token, and none points before the one recorded before it.

The reader never goes back. In front of a token that is still to be read, what is recorded points no
further than this token; past a token that has been read, no further than the next one. A rule gives
up at one of these two, so the new diagnostic comes last, and wherever the reader skips to from
there, the next token is not before it (`inOrder`).
-/

namespace Scriptlet

namespace Position

/-- Not past `q`. -/
def UpTo (p q : Position) : Prop := p = q ∨ p.Before q

theorem UpTo.refl (p : Position) : p.UpTo p := .inl rfl

theorem UpTo.trans {p q r : Position} (h : p.UpTo q) (h' : q.UpTo r) : p.UpTo r := by
  rcases h with rfl | h
  · exact h'
  · rcases h' with rfl | h'
    · exact .inr h
    · exact .inr (h.trans h')

end Position

namespace Parse

/-! ## Where the reader is -/

theorem mem_toList (s : TokenStream) : s.current ∈ s.toList := by
  obtain ⟨_ | ⟨t, ts⟩, q⟩ := s <;> exact List.mem_cons_self

theorem Onward.toList {s t : ParseState} (h : Onward s t) : t.ahead.toList <:+ s.ahead.toList := by
  obtain ⟨pre, hpre⟩ := h.ahead
  refine ⟨pre, ?_⟩
  rw [TokenStream.toList, TokenStream.toList, ← List.append_assoc, hpre, TokenStream.endToken,
    TokenStream.endToken, h.finish]

/-- The tokens ahead are what is left of the source. -/
def LeftOf (source : String) (s : ParseState) : Prop :=
  s.ahead.toList <:+ (TokenStream.ofSource source).toList

variable {source : String} {s t : ParseState}

theorem LeftOf.onward (h : LeftOf source s) (hon : Onward s t) : LeftOf source t :=
  hon.toList.trans h

theorem LeftOf.mem (h : LeftOf source s) :
    s.ahead.current ∈ (TokenStream.ofSource source).toList := h.subset (mem_toList _)

/-- The reader only moves on to later tokens. -/
theorem LeftOf.upTo (h : LeftOf source s) (hon : Onward s t) :
    s.ahead.current.position.UpTo t.ahead.current.position := by
  have hsorted := (TokenStream.position_scan .start source.toList).2.sublist h.sublist
  have hmem : t.ahead.current ∈ s.ahead.toList := hon.toList.subset (mem_toList _)
  obtain ⟨⟨_ | ⟨u, us⟩, q⟩, ds⟩ := s
  · rw [List.mem_singleton.1 hmem]
    exact .refl _
  · rcases List.mem_cons.1 hmem with heq | hlater
    · rw [heq]
      exact .refl _
    · exact .inr ((List.pairwise_cons.1 hsorted).1 _ hlater)

/-! ## What is recorded -/

/-- The diagnostics point at tokens of the source one after the other, and not past `p`. -/
structure InOrder (source : String) (ds : List Diagnostic) (p : Position) : Prop where
  real : ∀ d ∈ ds, ∃ t ∈ (TokenStream.ofSource source).toList, t.position = d.position
  sorted : ds.Pairwise fun d d' => d.position.UpTo d'.position
  bounded : ∀ d ∈ ds, d.position.UpTo p

namespace InOrder

variable {ds : List Diagnostic} {d : Diagnostic} {p q : Position}

theorem nil (source : String) (p : Position) : InOrder source [] p where
  real := by simp
  sorted := .nil
  bounded := by simp

theorem mono (h : InOrder source ds p) (hpq : p.UpTo q) : InOrder source ds q :=
  { h with bounded := fun d hd => (h.bounded d hd).trans hpq }

/-- A diagnostic at the bound comes last. -/
theorem push (h : InOrder source ds d.position)
    (hd : ∃ t ∈ (TokenStream.ofSource source).toList, t.position = d.position) :
    InOrder source (ds ++ [d]) d.position where
  real e he := by
    rcases List.mem_append.1 he with he | he
    · exact h.real e he
    · rwa [List.mem_singleton.1 he]
  sorted := List.pairwise_append.2 ⟨h.sorted, List.pairwise_singleton _ d, fun e he e' he' => by
    rw [List.mem_singleton.1 he']
    exact h.bounded e he⟩
  bounded e he := by
    rcases List.mem_append.1 he with he | he
    · exact h.bounded e he
    · rw [List.mem_singleton.1 he]
      exact .refl _

end InOrder

/-- Two readers in the same state, with everything recorded in order. -/
def inOrder (source : String) : Tie where
  ready s s' := s = s' ∧ LeftOf source s ∧
    InOrder source s.recorded.toList s.ahead.current.position
  done s s' := s = s' ∧ LeftOf source s ∧
    InOrder source s.recorded.toList s.ahead.upcoming.position
  failed d s s' := s = s' ∧ LeftOf source s ∧
    InOrder source (s.recorded.toList ++ [d]) s.ahead.upcoming.position
  current h := by rw [h.1]
  upcoming h := by rw [h.1]
  read := fun ⟨heq, hleft, h⟩ _ => ⟨heq, hleft, h.mono (hleft.upTo (onward_past _))⟩
  next := fun ⟨heq, hleft, h⟩ => ⟨by rw [heq], hleft.onward (onward_past _), h⟩
  refused := fun _ ⟨heq, hleft, h⟩ =>
    ⟨heq, hleft, (h.push (d := .atToken _ _) ⟨_, hleft.mem, rfl⟩).mono
      (hleft.upTo (onward_past _))⟩
  missed := fun _ ⟨heq, hleft, h⟩ =>
    ⟨heq, hleft, h.push (d := .atToken _ _) ⟨_, (hleft.onward (onward_past _)).mem, rfl⟩⟩

theorem recovers_inOrder (source : String) : (inOrder source).Recovers where
  read := fun ⟨heq, hleft, h⟩ => ⟨heq, hleft, h.mono (hleft.upTo (onward_past _))⟩
  here h := by rw [h.1]
  broken := fun {d s s'} ⟨heq, hleft, h⟩ => by
    -- Past the broken statement the next token is not before the one past the failure.
    have hon : Onward (past s) (past (broken d s)) :=
      ⟨(onward_broken d s).tail, rfl, (onward_broken d s).recorded⟩
    refine ⟨by rw [heq], hleft.onward (onward_broken d s), ?_⟩
    rw [broken, Array.toList_push]
    exact h.mono ((hleft.onward (onward_past s)).upTo hon)

end Parse

/-- **Diagnostics come in the order of the source**, and every one points at a token. -/
theorem diagnostics_in_order (source : String) :
    ∃ p t, Parse.program (.ofSource source) = .ok p t ∧
      (∀ d ∈ t.recorded, ∃ u ∈ (Scanner.ofSource source).tokenize, u.position = d.position) ∧
      t.recorded.toList.Pairwise fun d d' => d.position.UpTo d'.position := by
  have hstart : (Parse.inOrder source).ready (.ofSource source) (.ofSource source) :=
    ⟨rfl, List.suffix_rfl, .nil source _⟩
  have hrun := (Parse.recovers_inOrder source).program hstart
  rw [Parse.Tie.Abreast] at hrun
  cases hp : Parse.program (.ofSource source) with
  | ok p t =>
    rw [hp] at hrun
    obtain ⟨-, -, -, hreal, hsorted, -⟩ := hrun.of_ok
    refine ⟨p, t, rfl, fun d hd => ?_, hsorted⟩
    rw [Scanner.tokenize_eq]
    exact hreal d hd.val
  | error d t => exact absurd hp (Parse.program_ne_error _ _ _)
  | outOfFuel => exact absurd hp (Parse.reads_program source).ends

end Scriptlet
