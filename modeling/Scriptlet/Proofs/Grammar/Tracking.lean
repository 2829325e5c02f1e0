import Scriptlet.Proofs.Grammar.Prediction
import Scriptlet.Proofs.Grammar.Reading

/-!
# Steps of the parser as runs over goals

`Tracks x s pre gs ts post` says that the step `x` in the state `s` does what a run does that has
the goals `gs` on top of its stack and the tokens `ts` ahead of it:

- if `x` succeeds and finds nothing wrong, the run meets the goals and is left with the tokens
  after the current one;
- if `x` finds something wrong, the run gets stuck, at the token that the first diagnostic points
  at.

Whatever is found later says nothing about the source as it stands, since by then the parser has
recovered. So only the first diagnostic counts (`Finds`).

What is known about the note beside the stack, before and after, is in `pre` and `post`.

**Lemma (`Tracks.bind`).** Steps one after the other track the goals of the one on top of those of
the other.
-/

namespace Scriptlet

namespace Parse

open Prediction

variable {α β : Type}

/-! ## What is found first -/

/-- All that was found wrong up to the end of a step. -/
def findings : Outcome ParseState Diagnostic α → List Diagnostic
  | .ok _ t => t.recorded.toList
  | .error d t => t.recorded.toList ++ [d]
  | .outOfFuel => []

/-- The step `x` in the state `s` finds something wrong, and `d` comes first. -/
def Finds (x : Parse α) (s : ParseState) (d : Diagnostic) : Prop :=
  ∃ ds, findings (x s) = s.recorded.toList ++ d :: ds

variable {s : ParseState} {x : Parse α} {f : α → Parse β} {d : Diagnostic}

theorem Moves.findings (h : Moves x s) : s.recorded.toList <+: findings (x s) := by
  cases hx : x s with
  | ok a t => exact (h.ok hx).recorded
  | error d t => exact (h.error hx).recorded.trans (List.prefix_append _ _)
  | outOfFuel => exact absurd hx h.ends

/-- What was found first stays so. -/
theorem Finds.of_prefix {l ds : List Diagnostic} (h : s.recorded.toList <+: findings (x s))
    (hne : findings (x s) ≠ s.recorded.toList) (hl : findings (x s) <+: l)
    (hd : l = s.recorded.toList ++ d :: ds) : Finds x s d := by
  obtain ⟨_ | ⟨e, es⟩, hes⟩ := h
  · exact absurd (by simpa using hes.symm) hne
  · rw [← hes, hd, List.prefix_append_right_inj, List.cons_prefix_cons] at hl
    exact ⟨es, by rw [← hes, hl.1]⟩

/-! ## Tracking -/

/-- What is known about the note, if anything, is right. -/
def Agrees (known : Option Bool) (b : Bool) : Prop := ∀ b₀ ∈ known, b = b₀

@[simp] theorem agrees_none (b : Bool) : Agrees none b := nofun

@[simp] theorem agrees_some {b₀ b : Bool} : Agrees (some b₀) b ↔ b = b₀ := by simp [Agrees]

/-- The run is stuck at the token that `d` points at. -/
structure StuckAt (s : ParseState) (d : Diagnostic) (c : Point) : Prop where
  stuck : Stuck c
  position : d.position = (c.ahead.headD s.ahead.endToken).position

structure Tracks (x : Parse α) (s : ParseState) (pre : Option Bool) (gs : List Goal)
    (ts : List Token) (post : α → Option Bool) : Prop extends Moves x s where
  meets : ∀ {a t}, x s = .ok a t → t.recorded = s.recorded → ∀ {b}, Agrees pre b → ∀ st,
    ∃ b', Agrees (post a) b' ∧ Leads ⟨b, gs ++ st, ts⟩ ⟨b', st, t.ahead.tokens.tail⟩
  finds : ∀ {d}, Finds x s d → ∀ {b}, Agrees pre b → ∀ st,
    ∃ c, StuckAt s d c ∧ Leads ⟨b, gs ++ st, ts⟩ c

namespace Tracks

variable {pre : Option Bool} {g : Goal} {gs hs : List Goal} {ts : List Token}
  {post : α → Option Bool} {post' : β → Option Bool}

theorem of_eq {y : Parse α} (h : Tracks y s pre gs ts post) (hxy : x s = y s) :
    Tracks x s pre gs ts post where
  ok hx := h.ok (hxy ▸ hx)
  error hx := h.error (hxy ▸ hx)
  ends := hxy ▸ h.ends
  meets hx := h.meets (hxy ▸ hx)
  finds := fun ⟨ds, hds⟩ => h.finds ⟨ds, hxy ▸ hds⟩

/-- What is known before need not be used. -/
theorem forget (h : Tracks x s none gs ts post) : Tracks x s pre gs ts post where
  toMoves := h.toMoves
  meets hx ht _ _ st := h.meets hx ht (agrees_none _) st
  finds hd _ _ st := h.finds hd (agrees_none _) st

/-- A step that succeeds as it stands. -/
theorem pure (a : α) (hpost : post a = pre) :
    Tracks (pure a) s pre [] s.ahead.tokens.tail post where
  ok h := by cases h; exact Onward.refl s
  error h := by cases h
  ends := by simp
  meets h _ _ hb _ := by cases h; exact ⟨_, hpost ▸ hb, Leads.refl _⟩
  finds h := by
    obtain ⟨ds, hds⟩ := h
    simp [findings] at hds

/-- The same with nothing known after. -/
theorem done (a : α) : Tracks (Pure.pure a) s pre [] s.ahead.tokens.tail fun _ => none :=
  forget (pure a rfl)

/-- A step that fails at a goal that cannot be met. -/
theorem fail (hg : ∀ {b}, Agrees pre b → g.move b (front ts) = none)
    (hd : d.position = (ts.headD s.ahead.endToken).position) :
    Tracks (Run.fail d : Parse α) s pre (g :: gs) ts post where
  ok h := by cases h
  error h := by cases h; exact Onward.refl s
  ends := by simp
  meets h := by cases h
  finds h b hb st := by
    obtain ⟨ds, hds⟩ := h
    simp [findings] at hds
    obtain ⟨rfl, -⟩ := hds
    exact ⟨_, ⟨⟨by simp [Point.step, hg hb], by simp⟩, hd⟩, Leads.refl _⟩

/-! ### One step of the run -/

/-- The goal on top is replaced. -/
theorem expand (gs' : List Goal)
    (hg : ∀ {b}, Agrees pre b → g.move b (front ts) = some (.expand gs'))
    (h : Tracks x s pre (gs' ++ gs) ts post) : Tracks x s pre (g :: gs) ts post where
  toMoves := h.toMoves
  meets hx ht b hb st := by
    obtain ⟨b', hb', hleads⟩ := h.meets hx ht hb st
    rw [List.append_assoc] at hleads
    exact ⟨b', hb', Leads.move (hg hb) hleads⟩
  finds hd b hb st := by
    obtain ⟨c, hc, hleads⟩ := h.finds hd hb st
    rw [List.append_assoc] at hleads
    exact ⟨c, hc, Leads.move (hg hb) hleads⟩

/-- The next token is used up. -/
theorem eat {k : Kind} (hk : nextKind ts = k) (heof : k ≠ .eof)
    (h : Tracks x s pre gs ts.tail post) : Tracks x s pre (.token k :: gs) ts post := by
  obtain _ | ⟨t, us⟩ := ts
  · exact absurd hk.symm heof
  exact
    { toMoves := h.toMoves
      meets := fun hx ht _ hb st =>
        have ⟨b', hb', hleads⟩ := h.meets hx ht hb st
        ⟨b', hb', Leads.eat hk hleads⟩
      finds := fun hd _ hb st =>
        have ⟨c, hc, hleads⟩ := h.finds hd hb st
        ⟨c, hc, Leads.eat hk hleads⟩ }

/-- A note is made. -/
theorem note {b₀ : Bool} (h : Tracks x s (some b₀) gs ts post) :
    Tracks x s pre (.note b₀ :: gs) ts post where
  toMoves := h.toMoves
  meets hx ht b _ st := by
    obtain ⟨b', hb', hleads⟩ := h.meets hx ht (agrees_some.2 rfl) st
    exact ⟨b', hb', Leads.move (m := .note b₀) rfl hleads⟩
  finds hd b _ st := by
    obtain ⟨c, hc, hleads⟩ := h.finds hd (agrees_some.2 rfl) st
    exact ⟨c, hc, Leads.move (m := .note b₀) rfl hleads⟩

/-! ### Steps in sequence -/

/-- **Steps in sequence track goals in sequence.** -/
theorem bind (hx : Tracks x s pre gs ts post)
    (hf : ∀ a t, x s = .ok a t → Onward s t →
      Tracks (f a) t (post a) hs t.ahead.tokens.tail post') :
    Tracks (x >>= f) s pre (gs ++ hs) ts post' where
  toMoves := hx.toMoves.bind fun a t hat => (hf a t hat (hx.ok hat)).toMoves
  meets {e u} h hu {b} hb st := by
    obtain ⟨a, t, hat, hbu⟩ := Run.bind_eq_ok_iff.1 h
    have hon := hx.ok hat
    have hfa := hf a t hat hon
    have ht : t.recorded = s.recorded := hon.recorded_eq (hfa.ok hbu) hu
    obtain ⟨b₁, hb₁, hleads⟩ := hx.meets hat ht hb (hs ++ st)
    obtain ⟨b₂, hb₂, hleads'⟩ := hfa.meets hbu (hu.trans ht.symm) hb₁ st
    exact ⟨b₂, hb₂, by rw [List.append_assoc]; exact hleads.trans hleads'⟩
  finds {d} h b hb st := by
    obtain ⟨ds, hds⟩ := h
    rw [List.append_assoc]
    have hfirst (h : Finds x s d) := hx.finds h hb (hs ++ st)
    cases hxs : x s with
    | ok a t =>
      have hon := hx.ok hxs
      have hfa := hf a t hxs hon
      have hbind : findings ((x >>= f) s) = findings (f a t) := by rw [Run.bind_apply, hxs]
      rw [hbind] at hds
      by_cases ht : t.recorded = s.recorded
      · obtain ⟨b₁, hb₁, hleads⟩ := hx.meets hxs ht hb (hs ++ st)
        obtain ⟨c, hc, hleads'⟩ := hfa.finds ⟨ds, by rw [hds, ht]⟩ hb₁ st
        refine ⟨c, ⟨hc.stuck, ?_⟩, hleads.trans hleads'⟩
        rw [hc.position, TokenStream.endToken, TokenStream.endToken, hon.finish]
      · refine hfirst (Finds.of_prefix hx.toMoves.findings ?_ ?_ hds)
        · rw [hxs]
          exact fun h => ht (Array.toList_inj.1 h)
        · rw [hxs]
          exact hfa.toMoves.findings
    | error e t =>
      refine hfirst ⟨ds, ?_⟩
      rw [hxs, ← hds, Run.bind_apply, hxs]
      rfl
    | outOfFuel => exact absurd hxs hx.ends

/-- A value made from what a step reads. -/
theorem map (hx : Tracks x s pre gs ts post) (g : α → β) :
    Tracks (x >>= fun a => Pure.pure (g a)) s pre gs ts fun _ => none := by
  have hread : Tracks (x >>= fun a => Pure.pure (g a)) s pre (gs ++ []) ts fun _ => none :=
    hx.bind fun a _ _ _ => done (g a)
  rwa [List.append_nil] at hread

/-- The same with a note on the value. -/
theorem noted (hx : Tracks x s pre gs ts post) {g : α → β} {b : Bool}
    (hg : ∀ a, post' (g a) = some b) :
    Tracks (x >>= fun a => Pure.pure (g a)) s pre (gs ++ [.note b]) ts post' :=
  hx.bind fun a _ _ _ => note (pure (g a) (hg a))

/-! ### Looking at tokens -/

theorem current {f : Token → Parse β} (h : Tracks (f s.ahead.current) s pre gs ts post') :
    Tracks (Parse.current >>= f) s pre gs ts post' := h.of_eq rfl

theorem upcoming {f : Token → Parse β} (h : Tracks (f s.ahead.upcoming) s pre gs ts post') :
    Tracks (Parse.upcoming >>= f) s pre gs ts post' := h.of_eq rfl

theorem advance {f : Unit → Parse β} (h : Tracks (f ()) (past s) pre gs ts post') :
    Tracks (Parse.advance >>= f) s pre gs ts post' where
  ok hx := (onward_past s).trans (h.ok hx)
  error hx := (onward_past s).trans (h.error hx)
  ends := h.ends
  meets hx := h.meets hx
  finds := fun ⟨ds, hds⟩ _ hb st =>
    have ⟨c, hc, hleads⟩ := h.finds ⟨ds, hds⟩ hb st
    ⟨c, ⟨hc.stuck, hc.position⟩, hleads⟩

/-- One token of a kind. -/
theorem expect {k : Kind} {f : Unit → Parse β} (heof : k ≠ .eof)
    (h : nextKind s.ahead.tokens.tail = k →
      Tracks (f ()) (past s) pre gs s.ahead.tokens.tail.tail post') :
    Tracks (Parse.expect k >>= f) s pre (.token k :: gs) s.ahead.tokens.tail post' := by
  by_cases hk : s.ahead.upcoming.kind = k
  · have hnext : nextKind s.ahead.tokens.tail = k := by rw [← kind_upcoming, hk]
    refine eat hnext heof ((advance (h hnext)).of_eq ?_)
    rw [Parse.expect, Parse.upcoming, Run.bind_apply, Run.bind_apply, Run.read_apply]
    dsimp only
    rw [if_pos hk]
    rfl
  · have hnext : nextKind s.ahead.tokens.tail ≠ k := by rwa [← kind_upcoming]
    refine (fail (d := .atToken s.ahead.upcoming (.unexpectedToken k s.ahead.upcoming.kind))
      (fun _ => ?_) rfl).of_eq ?_
    · cases hts : s.ahead.tokens.tail with
      | nil => simp [Goal.move, front]
      | cons t us =>
        rw [hts, nextKind_cons] at hnext
        simp [Goal.move, front, hnext]
    · rw [Parse.expect, Parse.upcoming, Run.bind_apply, Run.bind_apply, Run.read_apply]
      dsimp only
      rw [if_neg hk]
      rfl

/-- One name. -/
theorem name {f : Ident → Parse β}
    (h : ∀ x, Tracks (f x) (past s) pre gs s.ahead.tokens.tail.tail post') :
    Tracks (Parse.name >>= f) s pre (.token .ident :: gs) s.ahead.tokens.tail post' := by
  rw [Parse.name, bind_assoc]
  refine expect (by decide) fun _ => ?_
  rw [bind_assoc]
  exact current (h _)

/-- A semicolon, if it stands next. -/
theorem semicolon {f : Unit → Parse β}
    (h : ∀ t, Tracks (f ()) t pre gs t.ahead.tokens.tail post') :
    Tracks (Parse.skip .semicolon >>= f) s pre (.semicolon :: gs) s.ahead.tokens.tail post' := by
  rw [Parse.skip, bind_assoc]
  refine upcoming ?_
  rw [kind_upcoming]
  split
  · rename_i hk
    refine expand [.token .semicolon] (fun _ => by simp [Goal.move, hk]) ?_
    exact eat hk (by decide) (advance (h (past s)))
  · rename_i hk
    exact expand [] (fun _ => by simp [Goal.move, hk]) (h s)

/-! ### Recovery -/

/-- A statement that is given up has found something wrong, and nothing later counts. -/
theorem recover {f : Option α → Parse β} (hx : Tracks x s pre gs ts post)
    (hsome : ∀ a t, x s = .ok a t → Onward s t →
      Tracks (f (some a)) t (post a) hs t.ahead.tokens.tail post')
    (hnone : ∀ d t, x s = .error d t → Moves (f none) (broken d t)) :
    Tracks (Parse.recover x >>= f) s pre (gs ++ hs) ts post' := by
  cases hxs : x s with
  | ok a t =>
    refine (hx.bind hsome).of_eq ?_
    rw [Run.bind_apply, Run.bind_apply, recover_ok hxs, hxs]
  | error e t =>
    have heq : (Parse.recover x >>= f) s = f none (broken e t) := by
      rw [Run.bind_apply, recover_error hxs]
    have hon : Onward s (broken e t) := (hx.error hxs).trans (onward_broken e t)
    have hmoves := hnone e t hxs
    have hfound : findings (x s) = (broken e t).recorded.toList := by
      rw [hxs, findings, broken, Array.toList_push]
    have hne : findings (x s) ≠ s.recorded.toList := by
      intro h
      have hlen := congrArg List.length (hfound.symm.trans h)
      have hle := (hx.error hxs).recorded.length_le
      simp only [broken, Array.length_toList, Array.size_push] at hlen hle
      omega
    refine ⟨⟨fun h => hon.trans (hmoves.ok (heq ▸ h)), fun h => hon.trans (hmoves.error (heq ▸ h)),
      heq ▸ hmoves.ends⟩, fun {a u} h hu b _ st => ?_, fun {d} h b hb st => ?_⟩
    · -- The diagnostic `e` stays recorded to the end.
      have hpre := (hmoves.ok (heq ▸ h)).recorded
      rw [hu, ← hfound] at hpre
      exact absurd (hpre.eq_of_length_le hx.toMoves.findings.length_le) hne
    · obtain ⟨ds, hds⟩ := h
      have hlater : findings (x s) <+: findings ((Parse.recover x >>= f) s) := by
        rw [hfound, heq]
        exact hmoves.findings
      rw [List.append_assoc]
      exact hx.finds (Finds.of_prefix hx.toMoves.findings hne hlater hds) hb (hs ++ st)
  | outOfFuel => exact absurd hxs hx.ends

end Tracks

end Parse

end Scriptlet
