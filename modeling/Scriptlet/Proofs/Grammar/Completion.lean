import Scriptlet.Proofs.Grammar.Prediction

/-!
# Completing a program

**Theorem (`leads_close`).** From every stack of goals that comes up in a run there are tokens that
meet all its goals. So what a run has used up when it gets stuck can always be completed.

Each goal is filled with as few tokens as it takes (`fill`): a name for an expression, the closing
token for a list, nothing for what is optional. A goal that may be met by nothing is met so only if
what comes next does not belong to it. Hence the invariant `Closable`, which looks at what the
goals further down are filled with. Every step keeps it.
-/

namespace Scriptlet

namespace Prediction

variable {b : Bool} {st : List Goal} {ts : List Token}

/-! ## Filling goals -/

/-- A token of each kind. -/
def sample : Kind → Token
  | .ident => ⟨.ident, "x", .start⟩
  | .int => ⟨.int, "0", .start⟩
  | .string => ⟨.string, "", .start⟩
  | k => k.mark

@[simp] theorem sample_kind (k : Kind) : (sample k).kind = k := by cases k <;> rfl

/-- A source that is one token of the kind. -/
def sampleText : Kind → String
  | .ident => "x"
  | .int => "0"
  | .string => "\"\""
  | k => k.spelling

theorem ofSource_sampleText {k : Kind} (h : k ≠ .eof ∧ k ≠ .illegal) :
    (TokenStream.ofSource (sampleText k)).tokens = [sample k] := by
  cases k <;> simp at h <;> decide +kernel

theorem lexical_sample {k : Kind} (h : k ≠ .eof ∧ k ≠ .illegal) : (sample k).Lexical :=
  TokenStream.lexical_ofSource (sampleText k) _ (by simp [ofSource_sampleText h])

/-- Tokens that meet a goal, as few as there are. -/
def fill : Goal → List Token
  | .token k => [sample k]
  | .expr _ | .stmt => [sample .ident]
  | .suffixes _ | .note _ | .elseBranch | .semicolon | .program => []
  | .params | .moreParams => [sample .rparen]
  | .items close | .moreItems close => [sample close]
  | .pairs | .stmts => [sample .rbrace]
  | .pairEnd => [sample .comma]

def fillAll (st : List Goal) : List Token := st.flatMap fill

@[simp] theorem fillAll_nil : fillAll [] = [] := rfl

@[simp] theorem fillAll_cons (g : Goal) (st : List Goal) :
    fillAll (g :: st) = fill g ++ fillAll st := rfl

/-- A token of the kind never belongs to the expression, branch or statement before it. -/
structure Closes (k : Kind) : Prop where
  suffix : Suffix.ofKind k = none
  elseKw : k ≠ .elseKw
  semicolon : k ≠ .semicolon

instance (k : Kind) : Decidable (Closes k) :=
  decidable_of_iff (Suffix.ofKind k = none ∧ k ≠ .elseKw ∧ k ≠ .semicolon)
    ⟨fun ⟨h, h', h''⟩ => ⟨h, h', h''⟩, fun ⟨h, h', h''⟩ => ⟨h, h', h''⟩⟩

/-- The goal can be met by the tokens that fill it, if a token of kind `k` follows. -/
def Goal.Fits (k : Kind) : Goal → Prop
  | .token k' => k' ≠ .eof ∧ k' ≠ .illegal
  | .items close | .moreItems close => close = .rparen ∨ close = .rbracket
  | .expr _ | .suffixes _ | .elseBranch | .semicolon | .stmt => Closes k
  | .program => k = .eof
  | _ => True

/-- Each goal fits what the later ones are filled with. -/
def Closable : List Goal → Prop
  | [] => True
  | g :: st => g.Fits (nextKind (fillAll st)) ∧ Closable st

/-- What closable goals are filled with can be written down. -/
theorem Closable.lexical (h : Closable st) : ∀ t ∈ fillAll st, t.Lexical := by
  induction st with
  | nil => nofun
  | cons g gs ih =>
    have hfill : ∀ t ∈ fill g, t.Lexical := by
      have hfits := h.1
      intro t ht
      cases g with
      | token k =>
        rw [List.mem_singleton.1 ht]
        exact lexical_sample hfits
      | items close | moreItems close =>
        rw [List.mem_singleton.1 ht]
        rcases hfits with rfl | rfl <;> exact lexical_sample (by decide)
      | suffixes | note | elseBranch | semicolon | program => cases ht
      | _ =>
        rw [List.mem_singleton.1 ht]
        exact lexical_sample (by decide)
    intro t ht
    rcases List.mem_append.1 ht with ht | ht
    · exact hfill t ht
    · exact ih h.2 t ht

/-! ## What a step keeps -/

/-- What replaces a goal is closable where the goal is. -/
theorem closable_headGoals {t? : Option Token} {gs : List Goal} (h : headGoals t? = some gs)
    (hst : Closes (nextKind (fillAll st))) (hrest : Closable st) : Closable (gs ++ st) := by
  unfold headGoals at h
  split at h
  case h_2 =>
    split at h
    · cases h
      simp [Closable, Goal.Fits, hrest]
    · cases h
  -- What is left to decide is that a mark inside the head closes what is before it.
  all_goals cases h
  all_goals simp [Closable, Goal.Fits, hrest, hst, fill, blockGoals]
  all_goals decide

theorem closable_suffixGoals {k : Kind} {x : Suffix} {gs : List Goal}
    (hx : Suffix.ofKind k = some x) (h : suffixGoals b k x = some gs)
    (hst : Closes (nextKind (fillAll st))) (hrest : Closable st) : Closable (gs ++ st) := by
  have hk : k ≠ .eof ∧ k ≠ .illegal := by
    constructor <;> (rintro rfl; cases hx)
  cases x with
  | assign =>
    rw [suffixGoals] at h
    split at h
    · cases h
      simp [Closable, Goal.Fits, hrest, hst, fill, hk]
    · cases h
  | binary | call =>
    cases h
    simp [Closable, Goal.Fits, hrest, hst, fill, hk]
  | index =>
    cases h
    simp [Closable, Goal.Fits, hrest, fill, hk]
    decide

theorem closable_stmtGoals (k : Kind) (hst : Closes (nextKind (fillAll st)))
    (hrest : Closable st) : Closable (stmtGoals k ++ st) := by
  unfold stmtGoals
  split <;> simp [Closable, Goal.Fits, hrest, hst]

theorem Closable.expand {g : Goal} {t? : Option Token} {gs : List Goal}
    (h : g.move b t? = some (.expand gs)) (hst : Closable (g :: st)) : Closable (gs ++ st) := by
  obtain ⟨hfits, hrest⟩ := hst
  cases g with
  | token k =>
    rw [Goal.move] at h
    split at h <;> cases h
  | note => cases h
  | expr p =>
    obtain ⟨gs', hgs', hm⟩ := Option.map_eq_some_iff.1 h
    cases hm
    rw [List.append_assoc]
    exact closable_headGoals hgs' hfits ⟨hfits, hrest⟩
  | suffixes p =>
    rw [Goal.move] at h
    split at h
    · cases h
      exact hrest
    · rename_i x hx
      split at h
      · obtain ⟨gs', hgs', hm⟩ := Option.map_eq_some_iff.1 h
        cases hm
        rw [List.append_assoc]
        exact closable_suffixGoals hx hgs' hfits ⟨hfits, hrest⟩
      · cases h
        exact hrest
  | stmt =>
    cases h
    rw [List.append_assoc]
    exact closable_stmtGoals _ hfits ⟨hfits, hrest⟩
  | items close | moreItems close =>
    cases h
    rcases hfits with rfl | rfl <;> split <;> simp [Closable, Goal.Fits, hrest, fill] <;> decide
  | stmts =>
    cases h
    split
    · simp [Closable, Goal.Fits, hrest]
    · split
      · exact hrest
      · simp [Closable, Goal.Fits, hrest, fill]
        decide
  | pairs =>
    cases h
    split
    · simp [Closable, Goal.Fits, hrest]
    · simp [Closable, Goal.Fits, hrest, fill]
      decide
  | program =>
    cases h
    have hend : nextKind (fillAll st) = .eof := hfits
    split
    · exact hrest
    · simp [Closable, Goal.Fits, hrest, hend, fill]
      decide
  | elseBranch | params | moreParams | pairEnd | semicolon =>
    cases h
    split <;> simp [Closable, Goal.Fits, hrest, blockGoals]

theorem Closable.step {c c' : Point} (h : c.step = some c') (hc : Closable c.goals) :
    Closable c'.goals := by
  obtain ⟨b, _ | ⟨g, gs⟩, ts⟩ := c
  · cases h
  simp only [Point.step] at h
  obtain ⟨m, hm, rfl⟩ := Option.map_eq_some_iff.1 h
  cases m with
  | eat | note => exact hc.2
  | expand => exact hc.expand hm

theorem Closable.leads {c c' : Point} (h : Leads c c') (hc : Closable c.goals) :
    Closable c'.goals := by
  induction h with
  | refl => exact hc
  | tail _ hstep ih => exact ih.step hstep

/-! ## Meeting the goals -/

/-- A goal that is met by nothing. -/
theorem leads_nothing {g : Goal} (h : g.move b (front ts) = some (.expand [])) :
    Leads ⟨b, g :: st, ts⟩ ⟨b, st, ts⟩ := Leads.move h (Leads.refl _)

theorem leads_suffixes (p : Precedence) (h : Closes (nextKind ts)) :
    Leads ⟨b, .suffixes p :: st, ts⟩ ⟨b, st, ts⟩ :=
  leads_nothing (by simp [Goal.move, h.suffix])

/-- A name is an expression if nothing after it belongs to it. -/
theorem leads_name (p : Precedence) (h : Closes (nextKind ts)) :
    Leads ⟨b, .expr p :: st, sample .ident :: ts⟩ ⟨true, st, ts⟩ :=
  Leads.move (m := .expand [.token .ident, .note true, .suffixes p]) rfl <|
    Leads.eat (sample_kind .ident) <| Leads.move (m := .note true) rfl <| leads_suffixes p h

theorem leads_semicolon (h : Closes (nextKind ts)) :
    Leads ⟨b, .semicolon :: st, ts⟩ ⟨b, st, ts⟩ :=
  leads_nothing (by simp [Goal.move, h.semicolon])

/-- A goal that the next token meets. -/
theorem leads_sample {g : Goal} {k : Kind}
    (h : g.move b (front (sample k :: ts)) = some (.expand [.token k])) :
    Leads ⟨b, g :: st, sample k :: ts⟩ ⟨b, st, ts⟩ :=
  Leads.move h (Leads.eat (sample_kind k) (Leads.refl _))

/-- A goal is met by what it is filled with. -/
theorem leads_fill {g : Goal} (h : g.Fits (nextKind ts)) :
    ∃ b', Leads ⟨b, g :: st, fill g ++ ts⟩ ⟨b', st, ts⟩ := by
  cases g with
  | token k => exact ⟨b, Leads.eat (sample_kind k) (Leads.refl _)⟩
  | expr p => exact ⟨true, leads_name p h⟩
  | suffixes p => exact ⟨b, leads_suffixes p h⟩
  | note b' => exact ⟨b', Leads.move (m := .note b') rfl (Leads.refl _)⟩
  | elseBranch =>
    have helse : nextKind ts ≠ .elseKw := Closes.elseKw h
    exact ⟨b, leads_nothing (by simp [Goal.move, fill, helse])⟩
  | semicolon => exact ⟨b, leads_semicolon h⟩
  | stmt =>
    exact ⟨true, Leads.move (m := .expand [.expr .lowest, .semicolon]) rfl <|
      (leads_name .lowest h).trans (leads_semicolon h)⟩
  | program =>
    have hend : nextKind ts = .eof := h
    exact ⟨b, leads_nothing (by simp [Goal.move, fill, hend])⟩
  | params | moreParams | pairs | stmts | pairEnd => exact ⟨b, leads_sample rfl⟩
  | items close => exact ⟨b, leads_sample (by simp [Goal.move])⟩
  | moreItems close =>
    exact ⟨b, leads_sample (by rcases h with rfl | rfl <;> rfl)⟩

/-- **Every closable stack can be met.** -/
theorem leads_close (h : Closable st) (b : Bool) :
    ∃ b', Leads ⟨b, st, fillAll st⟩ ⟨b', [], []⟩ := by
  induction st generalizing b with
  | nil => exact ⟨b, Leads.refl _⟩
  | cons g gs ih =>
    obtain ⟨b₁, hg⟩ := leads_fill h.1
    obtain ⟨b₂, hgs⟩ := ih h.2 b₁
    exact ⟨b₂, hg.trans hgs⟩

end Prediction

end Scriptlet
