import Scriptlet.Proofs.Grammar
import Scriptlet.Syntax.ParseState

/-!
# What a parsing step reads

`Reads x s D` says all there is to say about the step `x` in the state `s`:

- it comes to an end, and whether it succeeds or fails it only moves on in the source and only
  adds to the diagnostics (`Onward`);
- it succeeds without recording a diagnostic exactly in the ways that `D` says, where `D a rest`
  is to mean that the tokens at hand derive `a` and that `rest` follows them.

The second part is an equivalence, so one proof shows both that what is read has a derivation and
that what has a derivation is read. A step stops *on* the last token it used, so what follows is
the tail of the tokens ahead.

**Lemma (`Reads.bind`).** Steps one after the other read a derivation followed by a derivation.
-/

namespace Scriptlet

namespace Parse

variable {α β : Type}

/-! ## Moving on -/

/-- The state `t` may come after `s`. -/
structure Onward (s t : ParseState) : Prop where
  ahead : t.ahead.tokens <:+ s.ahead.tokens
  finish : t.ahead.finish = s.ahead.finish
  recorded : s.recorded.toList <+: t.recorded.toList

theorem Onward.refl (s : ParseState) : Onward s s := ⟨List.suffix_rfl, rfl, List.prefix_rfl⟩

theorem Onward.trans {s t u : ParseState} (h₁ : Onward s t) (h₂ : Onward t u) : Onward s u :=
  ⟨h₂.ahead.trans h₁.ahead, h₂.finish.trans h₁.finish, h₁.recorded.trans h₂.recorded⟩

theorem Onward.length_le {s t : ParseState} (h : Onward s t) :
    t.ahead.tokens.length ≤ s.ahead.tokens.length := h.ahead.length_le

theorem tail_suffix_tail {ts us : List Token} (h : us <:+ ts) : us.tail <:+ ts.tail := by
  obtain ⟨_ | ⟨c, pre⟩, hpre⟩ := h
  · rw [← hpre]; exact List.suffix_rfl
  · rw [← hpre]
    exact (List.tail_suffix _).trans (List.suffix_append _ _)

theorem Onward.tail {s t : ParseState} (h : Onward s t) :
    t.ahead.tokens.tail <:+ s.ahead.tokens.tail := tail_suffix_tail h.ahead

/-- If nothing is recorded on the whole way, nothing is recorded on its first part. -/
theorem Onward.recorded_eq {s t u : ParseState} (h₁ : Onward s t) (h₂ : Onward t u)
    (h : u.recorded = s.recorded) : t.recorded = s.recorded := by
  have hut : u.recorded.toList <+: t.recorded.toList := h ▸ h₁.recorded
  have htu : t.recorded = u.recorded := by
    rw [← Array.toList_inj]
    exact h₂.recorded.eq_of_length (Nat.le_antisymm h₂.recorded.length_le hut.length_le)
  exact htu.trans h

/-- The state past the current token. -/
def past (s : ParseState) : ParseState := { s with ahead := s.ahead.advance }

@[simp] theorem past_tokens (s : ParseState) :
    (past s).ahead.tokens = s.ahead.tokens.tail := rfl

@[simp] theorem past_current (s : ParseState) : (past s).ahead.current = s.ahead.upcoming := rfl

theorem onward_past (s : ParseState) : Onward s (past s) :=
  ⟨List.tail_suffix _, rfl, List.prefix_rfl⟩

theorem kind_current (s : ParseState) : s.ahead.current.kind = nextKind s.ahead.tokens := by
  rcases s with ⟨⟨_ | ⟨t, ts⟩, q⟩, ds⟩ <;> rfl

theorem kind_upcoming (s : ParseState) :
    s.ahead.upcoming.kind = nextKind s.ahead.tokens.tail := kind_current (past s)

theorem length_tail_lt {ts : List Token} (h : nextKind ts ≠ .eof) :
    ts.tail.length < ts.length := by
  obtain _ | ⟨t, ts⟩ := ts
  · exact absurd rfl h
  · exact Nat.lt_succ_self _

/-- A token that is not the end token stands at the front of the tokens. -/
theorem tokens_eq_cons {s : ParseState} {k : Kind} (h : nextKind s.ahead.tokens = k)
    (hk : k ≠ .eof) :
    s.ahead.tokens = s.ahead.current :: s.ahead.tokens.tail ∧ s.ahead.current.kind = k := by
  rcases s with ⟨⟨_ | ⟨t, ts⟩, q⟩, ds⟩
  · exact absurd h.symm hk
  · exact ⟨rfl, h⟩

theorem tail_eq_cons {s : ParseState} {k : Kind} (h : nextKind s.ahead.tokens.tail = k)
    (hk : k ≠ .eof) :
    s.ahead.tokens.tail = s.ahead.upcoming :: s.ahead.tokens.tail.tail ∧
      s.ahead.upcoming.kind = k := tokens_eq_cons (s := past s) h hk

/-! ## Reading -/

/-- The step `x` ends in the state `s`, and only moves on. -/
structure Moves (x : Parse α) (s : ParseState) : Prop where
  ok : ∀ {a t}, x s = .ok a t → Onward s t
  error : ∀ {d t}, x s = .error d t → Onward s t
  ends : x s ≠ .outOfFuel

/-- The step `x` ends in the state `s`, and reads what `D` derives there. -/
structure Reads (x : Parse α) (s : ParseState) (D : α → List Token → Prop) : Prop
    extends Moves x s where
  iff : ∀ {a rest}, D a rest ↔
    ∃ t, x s = .ok a t ∧ t.recorded = s.recorded ∧ t.ahead.tokens.tail = rest

variable {s : ParseState} {x : Parse α} {f : α → Parse β}

theorem Moves.bind (hx : Moves x s) (hf : ∀ a t, x s = .ok a t → Moves (f a) t) :
    Moves (x >>= f) s where
  ok {b u} h := by
    obtain ⟨a, t, hat, hbu⟩ := Run.bind_eq_ok_iff.1 h
    exact (hx.ok hat).trans ((hf a t hat).ok hbu)
  error {d u} h := by
    rcases Run.bind_eq_error_iff.1 h with h | ⟨a, t, hat, hdu⟩
    · exact hx.error h
    · exact (hx.ok hat).trans ((hf a t hat).error hdu)
  ends h := by
    rcases Run.bind_eq_outOfFuel_iff.1 h with h | ⟨a, t, hat, hu⟩
    · exact hx.ends h
    · exact (hf a t hat).ends hu

namespace Reads

theorem congr {D E : α → List Token → Prop} (h : Reads x s D)
    (hDE : ∀ a rest, E a rest ↔ D a rest) : Reads x s E :=
  ⟨h.toMoves, (hDE ..).trans h.iff⟩

theorem derives {D : α → List Token → Prop} (h : Reads x s D) {a : α} {t : ParseState}
    (hx : x s = .ok a t) (ht : t.recorded = s.recorded) : D a t.ahead.tokens.tail :=
  h.iff.2 ⟨t, hx, ht, rfl⟩

/-- Where a step reads what is derived, nothing else is derived. -/
theorem unique {D : α → List Token → Prop} (h : Reads x s D) {a a' : α} {rest rest' : List Token}
    (ha : D a rest) (ha' : D a' rest') : a = a' ∧ rest = rest' := by
  obtain ⟨t, ht, -, rfl⟩ := h.iff.1 ha
  obtain ⟨t', ht', -, rfl⟩ := h.iff.1 ha'
  rw [ht] at ht'
  cases ht'
  exact ⟨rfl, rfl⟩

theorem of_eq {D : α → List Token → Prop} {y : Parse α} (h : Reads y s D) (hxy : x s = y s) :
    Reads x s D where
  ok hx := h.ok (hxy ▸ hx)
  error hx := h.error (hxy ▸ hx)
  ends := hxy ▸ h.ends
  iff := by rw [hxy]; exact h.iff

/-- A step that succeeds as it stands. -/
theorem pure (a : α) {ts : List Token} (hs : s.ahead.tokens.tail = ts) :
    Reads (pure a) s fun b rest => b = a ∧ rest = ts where
  ok h := by cases h; exact Onward.refl s
  error h := by cases h
  ends := by simp
  iff {b rest} := by
    constructor
    · rintro ⟨rfl, rfl⟩; exact ⟨s, rfl, rfl, hs⟩
    · rintro ⟨t, h, -, rfl⟩; cases h; exact ⟨rfl, hs⟩

/-- A step that fails reads nothing. -/
theorem fail {D : α → List Token → Prop} (d : Diagnostic) (hD : ∀ a rest, ¬ D a rest) :
    Reads (Run.fail d : Parse α) s D where
  ok h := by cases h
  error h := by cases h; exact Onward.refl s
  ends := by simp
  iff {b rest} := by simp [hD]

/-- **Steps in sequence read derivations in sequence.** -/
theorem bind {D : α → List Token → Prop} {E : α → List Token → β → List Token → Prop}
    (hx : Reads x s D)
    (hf : ∀ a t mid, x s = .ok a t → t.ahead.tokens.tail = mid → mid <:+ s.ahead.tokens.tail →
      Reads (f a) t (E a mid)) :
    Reads (x >>= f) s fun b rest => ∃ a mid, D a mid ∧ E a mid b rest where
  toMoves := hx.toMoves.bind fun a t hat => (hf a t _ hat rfl (hx.ok hat).tail).toMoves
  iff {b rest} := by
    constructor
    · rintro ⟨a, mid, hD, hE⟩
      obtain ⟨t, hat, ht, hmid⟩ := hx.iff.1 hD
      obtain ⟨u, hbu, hu, hrest⟩ := (hf a t mid hat hmid (hmid ▸ (hx.ok hat).tail)).iff.1 hE
      exact ⟨u, Run.bind_eq_ok_iff.2 ⟨a, t, hat, hbu⟩, hu.trans ht, hrest⟩
    · rintro ⟨u, h, hu, rfl⟩
      obtain ⟨a, t, hat, hbu⟩ := Run.bind_eq_ok_iff.1 h
      have hbu' := hf a t _ hat rfl (hx.ok hat).tail
      have ht : t.recorded = s.recorded := (hx.ok hat).recorded_eq (hbu'.ok hbu) hu
      exact ⟨a, _, hx.derives hat ht, hbu'.derives hbu (hu.trans ht.symm)⟩

/-- The same where the first step gives no result. -/
theorem andThen {x : Parse Unit} {f : Unit → Parse β} {D : List Token → Prop}
    {E : List Token → β → List Token → Prop} (hx : Reads x s fun _ => D)
    (hf : ∀ t mid, x s = .ok () t → t.ahead.tokens.tail = mid → mid <:+ s.ahead.tokens.tail →
      Reads (f ()) t (E mid)) :
    Reads (x >>= f) s fun b rest => ∃ mid, D mid ∧ E mid b rest :=
  (hx.bind fun _ t mid => hf t mid).congr fun _ _ =>
    ⟨fun ⟨mid, h⟩ => ⟨(), mid, h⟩, fun ⟨_, mid, h⟩ => ⟨mid, h⟩⟩

/-- A value made from what a step reads. -/
theorem map {D : α → List Token → Prop} (hx : Reads x s D) (g : α → β) :
    Reads (x >>= fun a => Pure.pure (g a)) s fun b rest => ∃ a, D a rest ∧ b = g a := by
  refine (hx.bind fun a t mid _ hmid _ => Reads.pure (g a) hmid).congr fun b rest => ?_
  constructor
  · rintro ⟨a, hD, rfl⟩; exact ⟨a, rest, hD, rfl, rfl⟩
  · rintro ⟨a, mid, hD, rfl, rfl⟩; exact ⟨a, hD, rfl⟩

/-! ## Looking at tokens -/

theorem current {f : Token → Parse β} {D : β → List Token → Prop}
    (h : Reads (f s.ahead.current) s D) : Reads (Parse.current >>= f) s D :=
  ⟨⟨h.ok, h.error, h.ends⟩, h.iff⟩

theorem upcoming {f : Token → Parse β} {D : β → List Token → Prop}
    (h : Reads (f s.ahead.upcoming) s D) : Reads (Parse.upcoming >>= f) s D :=
  ⟨⟨h.ok, h.error, h.ends⟩, h.iff⟩

theorem advance {f : Unit → Parse β} {D : β → List Token → Prop}
    (h : Reads (f ()) (past s) D) : Reads (Parse.advance >>= f) s D where
  ok hx := (onward_past s).trans (h.ok hx)
  error hx := (onward_past s).trans (h.error hx)
  ends := h.ends
  iff := h.iff

theorem ofAdvance {ts : List Token} (hs : s.ahead.tokens.tail = ts) :
    Reads Parse.advance s fun _ rest => rest = ts.tail where
  ok h := by cases h; exact onward_past s
  error h := by cases h
  ends h := by cases h
  iff {a rest} := by
    subst hs
    constructor
    · rintro rfl; exact ⟨past s, rfl, rfl, rfl⟩
    · rintro ⟨t, h, -, rfl⟩; cases h; rfl

theorem expected {k : Kind} {f : Unit → Parse β} {D : β → List Token → Prop}
    (hk : s.ahead.upcoming.kind = k) (h : Reads (f ()) (past s) D) :
    Reads (Parse.expect k >>= f) s D := by
  refine (advance h).of_eq ?_
  rw [Parse.expect, Parse.upcoming, Run.bind_apply, Run.bind_apply, Run.read_apply]
  dsimp only
  rw [if_pos hk]
  rfl

theorem unexpected {k : Kind} {f : Unit → Parse β} {D : β → List Token → Prop}
    (hk : s.ahead.upcoming.kind ≠ k) (hD : ∀ b rest, ¬ D b rest) :
    Reads (Parse.expect k >>= f) s D := by
  refine (fail (.atToken s.ahead.upcoming (.unexpectedToken k s.ahead.upcoming.kind)) hD).of_eq ?_
  rw [Parse.expect, Parse.upcoming, Run.bind_apply, Run.bind_apply, Run.read_apply]
  dsimp only
  rw [if_neg hk]
  rfl

/-- One token of a kind. -/
theorem expect {k : Kind} (hk : k ≠ .eof) {ts : List Token} (hs : s.ahead.tokens.tail = ts) :
    Reads (Parse.expect k) s fun _ rest => ∃ c, ts = c :: rest ∧ c.kind = k := by
  refine Reads.upcoming ?_
  rw [kind_upcoming, hs]
  split
  · rename_i h
    refine (ofAdvance hs).congr fun _ rest => ?_
    obtain _ | ⟨c, us⟩ := ts
    · exact absurd h.symm hk
    refine ⟨fun ⟨c', hc, _⟩ => ?_, fun hrest => ⟨c, by rw [hrest]; rfl, h⟩⟩
    rw [hc, List.tail_cons]
  · rename_i h
    refine Reads.fail _ fun _ rest => ?_
    rintro ⟨c, rfl, hc⟩
    exact h hc

/-- One name. -/
theorem name {ts : List Token} (hs : s.ahead.tokens.tail = ts) :
    Reads Parse.name s fun x rest => ∃ c, ts = c :: rest ∧ c.kind = .ident ∧ x = .ofToken c := by
  have hkind : s.ahead.upcoming.kind = nextKind ts := hs ▸ kind_upcoming s
  by_cases h : nextKind ts = .ident
  · refine expected (hkind.trans h) (current ?_)
    rw [past_current]
    refine (pure _ rfl).congr fun x rest => ?_
    obtain ⟨hup, -⟩ := tail_eq_cons (hs ▸ h) (by decide)
    rw [past_tokens, ← hs, hup]
    refine ⟨fun ⟨c, hc, _, hx⟩ => ?_, fun ⟨hx, hrest⟩ => ⟨_, by rw [hrest]; rfl, hkind.trans h, hx⟩⟩
    obtain ⟨rfl, rfl⟩ := List.cons.inj hc
    exact ⟨hx, rfl⟩
  · refine unexpected (by rwa [hkind]) fun x rest => ?_
    rintro ⟨c, rfl, hc, -⟩
    exact h hc

/-- The token of a kind, if it stands next. -/
theorem skip {k : Kind} (hk : k ≠ .eof) {ts : List Token} (hs : s.ahead.tokens.tail = ts) :
    Reads (Parse.skip k) s fun _ rest =>
      (∃ c, ts = c :: rest ∧ c.kind = k) ∨ nextKind ts ≠ k ∧ rest = ts := by
  refine Reads.upcoming ?_
  rw [kind_upcoming, hs]
  split
  · rename_i h
    refine (ofAdvance hs).congr fun _ rest => ?_
    obtain _ | ⟨c, us⟩ := ts
    · exact absurd h.symm hk
    refine ⟨fun hrest => ?_, fun hrest => .inl ⟨c, by rw [hrest]; rfl, h⟩⟩
    rcases hrest with ⟨c', hc, -⟩ | ⟨hne, -⟩
    · rw [hc, List.tail_cons]
    · exact absurd h hne
  · rename_i h
    refine (pure () hs).congr fun _ rest => ⟨fun hrest => ?_, fun ⟨_, hrest⟩ => .inr ⟨h, hrest⟩⟩
    rcases hrest with ⟨c, rfl, hc⟩ | ⟨-, hrest⟩
    · exact absurd hc h
    · exact ⟨rfl, hrest⟩

end Reads

/-! ## Recovery -/

theorem skipBroken_suffix (ts : List Token) : skipBroken ts <:+ ts := by
  fun_induction skipBroken ts with
  | case1 => exact List.suffix_rfl
  | case2 => exact List.suffix_rfl
  | case3 => exact List.suffix_rfl
  | case4 t u rest h ih => exact ih.trans (List.suffix_cons t _)

/-- Where reading goes on after the failure `d` in the state `t`. -/
def broken (d : Diagnostic) (t : ParseState) : ParseState :=
  ⟨{ t.ahead with tokens := skipBroken t.ahead.tokens }, t.recorded.push d⟩

theorem onward_broken (d : Diagnostic) (t : ParseState) : Onward t (broken d t) where
  ahead := skipBroken_suffix _
  finish := rfl
  recorded := by rw [broken, Array.toList_push]; exact List.prefix_append _ _

theorem recover_ok {t : ParseState} {a : α} (h : x s = .ok a t) :
    recover x s = .ok (some a) t := by rw [recover, h]

theorem recover_error {t : ParseState} {d : Diagnostic} (h : x s = .error d t) :
    recover x s = .ok none (broken d t) := by rw [recover, h]; rfl

/-- A statement that is given up leaves a diagnostic, so only what is read for good counts. -/
theorem Reads.recover {f : Option α → Parse β} {D : α → List Token → Prop}
    {E : α → List Token → β → List Token → Prop} (hx : Reads x s D)
    (hsome : ∀ a t mid, x s = .ok a t → t.ahead.tokens.tail = mid →
      mid <:+ s.ahead.tokens.tail → Reads (f (some a)) t (E a mid))
    (hnone : ∀ d t, x s = .error d t → Moves (f none) (broken d t)) :
    Reads (Parse.recover x >>= f) s fun b rest => ∃ a mid, D a mid ∧ E a mid b rest := by
  cases hxs : x s with
  | ok a t =>
    refine (hx.bind hsome).of_eq ?_
    rw [Run.bind_apply, Run.bind_apply, recover_ok hxs, hxs]
  | error d t =>
    have heq : (Parse.recover x >>= f) s = f none (broken d t) := by
      rw [Run.bind_apply, recover_error hxs]
    have hon : Onward s (broken d t) := (hx.error hxs).trans (onward_broken d t)
    have hmoves := hnone d t hxs
    refine ⟨⟨fun h => hon.trans (hmoves.ok (heq ▸ h)), fun h => hon.trans (hmoves.error (heq ▸ h)),
      heq ▸ hmoves.ends⟩, fun {b rest} => ⟨fun ⟨a, mid, hD, _⟩ => ?_, fun ⟨u, hu, hrec, _⟩ => ?_⟩⟩
    · obtain ⟨u, hu, -⟩ := hx.iff.1 hD
      rw [hxs] at hu
      cases hu
    · -- The diagnostic `d` stays recorded to the end.
      have hle := (hmoves.ok (heq ▸ hu)).recorded.length_le
      have hle' := (hx.error hxs).recorded.length_le
      rw [hrec] at hle
      simp only [broken, Array.length_toList, Array.size_push] at hle hle'
      omega
  | outOfFuel => exact absurd hxs hx.ends

end Parse

end Scriptlet
