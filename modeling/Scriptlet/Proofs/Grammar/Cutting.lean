import Scriptlet.Proofs.Diagnosis.Order
import Scriptlet.Proofs.Grammar.Progress

/-!
# Cutting an expression short

The precedence up to which an expression is read decides where it ends, and nothing else.

**Theorem (`expression_cut_short`).** An expression that is read up to a precedence is also read up
to any higher one. It may end earlier then: its tokens are the first ones of the whole expression,
and its tree stands on the left spine of the whole tree. The other way round nothing can be said:
of `a +` the name is read up to the precedence of the sign, and up to a lower one reading fails.

Both readers start with the same head, and they take the same suffixes up to the first one that
does not bind tighter than the higher precedence. There one of them stops, and what the other reads
from there on is the rest (`suffixes_cut`). So all that is left to say is what reading on does. It
moves on in the source and adds to what is recorded, as all rules do (`Onward`), and what it starts
from comes to stand on the left spine of what it makes (`suffixes_end`).
-/

namespace Scriptlet

/-! ## The precedence of a token -/

/-- How tightly a token holds on to what stands before it: `lowest` if it starts no suffix. -/
def Kind.precedence (k : Kind) : Precedence := (Suffix.ofKind k).elim .lowest Suffix.precedence

/-- Where a reader up to `p` is done, and where it goes on. -/
theorem Kind.precedence_le_or (k : Kind) (p : Precedence) :
    k.precedence ≤ p ∨ ∃ x, Suffix.ofKind k = some x ∧ p < x.precedence := by
  rw [precedence]
  cases Suffix.ofKind k with
  | none => exact .inl (Nat.zero_le p.level)
  | some x => exact (Nat.lt_or_ge p.level x.precedence.level).symm.imp_right fun h => ⟨x, rfl, h⟩

/-! ## The left spine -/

/-- Going to the left in a tree, from a suffix to what it was added to, one comes to `e`. -/
inductive Expr.OnLeftSpine (e : Expr) : Expr → Prop
  | here : OnLeftSpine e e
  | operand {t : Token} {op : BinaryOp} {left right : Expr} :
      OnLeftSpine e left → OnLeftSpine e (.binary t op left right)
  | callee {t : Token} {f : Expr} {args : List Expr} :
      OnLeftSpine e f → OnLeftSpine e (.call t f args)
  | indexed {t : Token} {base i : Expr} : OnLeftSpine e base → OnLeftSpine e (.index t base i)
  | target {t : Token} {x : Ident} {value : Expr} :
      OnLeftSpine e (.ident x) → OnLeftSpine e (.assign t x value)

theorem Expr.OnLeftSpine.trans {e e' e'' : Expr} (h : e.OnLeftSpine e') (h' : e'.OnLeftSpine e'') :
    e.OnLeftSpine e'' := by
  induction h' with
  | here => exact h
  | operand _ ih => exact .operand ih
  | callee _ ih => exact .callee ih
  | indexed _ ih => exact .indexed ih
  | target _ ih => exact .target ih

namespace Parse

/-! ## What is consumed -/

/-- On the way from `s` to `t` the tokens `used` are consumed, the current one of `t` last. -/
def Consumes (s : ParseState) (used : List Token) (t : ParseState) : Prop :=
  used ++ t.ahead.toList.tail = s.ahead.toList

variable {s t u : ParseState}

/-- Moving on from `t` consumes more than was consumed on the way to `t`. -/
theorem Onward.consumes (h : Onward s t) (h' : Onward t u) :
    ∃ used' used, Consumes s used' t ∧ Consumes s used u ∧ used' <+: used := by
  obtain ⟨used', hused⟩ := (List.tail_suffix _).trans h.toList
  obtain ⟨more, hmore⟩ := tail_suffix_tail h'.toList
  refine ⟨used', used' ++ more, hused, ?_, List.prefix_append _ _⟩
  rw [Consumes, List.append_assoc, hmore, hused]

namespace Rules

variable {r : Rules} {p q : Precedence} {k : Nat} {left e : Expr}

/-! ## Suffixes -/

theorem suffixes_of_le (h : s.ahead.upcoming.kind.precedence ≤ p) :
    r.suffixes p (k + 1) left s = .ok left s := by
  rw [suffixes, Parse.upcoming, Run.bind_apply, Run.read_apply]
  rw [Kind.precedence] at h
  dsimp only
  cases hx : Suffix.ofKind s.ahead.upcoming.kind with
  | none => rfl
  | some x =>
    rw [hx] at h
    have hp : ¬ p < x.precedence := Nat.not_lt.2 h
    dsimp only
    rw [if_neg hp]
    rfl

theorem suffixes_of_lt {x : Suffix} (hx : Suffix.ofKind s.ahead.upcoming.kind = some x)
    (hp : p < x.precedence) :
    r.suffixes p (k + 1) left s = (r.extend left x >>= r.suffixes p k) (past s) := by
  rw [suffixes, Parse.upcoming, Run.bind_apply, Run.read_apply]
  dsimp only
  rw [hx]
  dsimp only
  rw [if_pos hp]
  rfl

/-- A suffix is added at the top of the tree. -/
theorem onLeftSpine_extend {x : Suffix} (h : r.extend left x s = .ok e t) : left.OnLeftSpine e := by
  cases x with
  | binary op =>
    obtain ⟨c, _, -, h⟩ := Run.bind_eq_ok_iff.1 h
    obtain ⟨_, _, -, h⟩ := Run.bind_eq_ok_iff.1 h
    obtain ⟨right, _, -, h⟩ := Run.bind_eq_ok_iff.1 h
    cases h
    exact .operand .here
  | call =>
    obtain ⟨c, _, -, h⟩ := Run.bind_eq_ok_iff.1 h
    obtain ⟨args, _, -, h⟩ := Run.bind_eq_ok_iff.1 h
    cases h
    exact .callee .here
  | index =>
    obtain ⟨c, _, -, h⟩ := Run.bind_eq_ok_iff.1 h
    obtain ⟨_, _, -, h⟩ := Run.bind_eq_ok_iff.1 h
    obtain ⟨i, _, -, h⟩ := Run.bind_eq_ok_iff.1 h
    obtain ⟨_, _, -, h⟩ := Run.bind_eq_ok_iff.1 h
    cases h
    exact .indexed .here
  | assign =>
    obtain ⟨c, _, -, h⟩ := Run.bind_eq_ok_iff.1 h
    cases left with
    | ident x =>
      obtain ⟨_, _, -, h⟩ := Run.bind_eq_ok_iff.1 h
      obtain ⟨value, _, -, h⟩ := Run.bind_eq_ok_iff.1 h
      cases h
      exact .target .here
    | _ => cases h

/-- Reading on stops at a token that is not tighter than `p`, and it goes on at the top of the
tree that it starts from. -/
theorem suffixes_end (h : r.suffixes p k left s = .ok e t) :
    t.ahead.upcoming.kind.precedence ≤ p ∧ left.OnLeftSpine e := by
  induction k generalizing left s with
  | zero => cases h
  | succ k ih =>
    rcases s.ahead.upcoming.kind.precedence_le_or p with hp | ⟨x, hx, hp⟩
    · rw [suffixes_of_le hp] at h
      cases h
      exact ⟨hp, .here⟩
    · rw [suffixes_of_lt hx hp] at h
      obtain ⟨e', u, hextend, hmore⟩ := Run.bind_eq_ok_iff.1 h
      obtain ⟨hstop, hspine⟩ := ih hmore
      exact ⟨hstop, (onLeftSpine_extend hextend).trans hspine⟩

/-- At a token that is not tighter than `p` there is nothing to read on. -/
theorem suffixes_eq_of_le (h : r.suffixes p k left s = .ok e t)
    (hp : s.ahead.upcoming.kind.precedence ≤ p) : left = e ∧ s = t := by
  cases k with
  | zero => cases h
  | succ k =>
    rw [suffixes_of_le hp] at h
    cases h
    exact ⟨rfl, rfl⟩

/-- **Reading up to a higher precedence is a first part of reading up to a lower one.** -/
theorem suffixes_cut (hpq : p ≤ q) (h : r.suffixes p k left s = .ok e t) :
    ∃ e' t' k', r.suffixes q k left s = .ok e' t' ∧ r.suffixes p k' e' t' = .ok e t := by
  induction k generalizing left s with
  | zero => cases h
  | succ k ih =>
    rcases s.ahead.upcoming.kind.precedence_le_or q with hq | ⟨x, hx, hq⟩
    · -- One reader stops here, and all the other one reads is the rest.
      exact ⟨left, s, k + 1, suffixes_of_le hq, h⟩
    · -- Both take the suffix.
      rw [suffixes_of_lt hx (Nat.lt_of_le_of_lt hpq hq)] at h
      obtain ⟨e₁, u, hextend, hmore⟩ := Run.bind_eq_ok_iff.1 h
      obtain ⟨e', t', k', hcut, hrest⟩ := ih hmore
      rw [suffixes_of_lt hx hq]
      exact ⟨e', t', k', Run.bind_eq_ok_iff.2 ⟨e₁, u, hextend, hcut⟩, hrest⟩

/-! ## Expressions -/

theorem climb_cut (hpq : p ≤ q) (h : r.climb p s = .ok e t) :
    ∃ e' t' k, r.climb q s = .ok e' t' ∧ r.suffixes p k e' t' = .ok e t := by
  obtain ⟨first, u, hhead, hmore⟩ := Run.bind_eq_ok_iff.1 h
  obtain ⟨e', t', k, hcut, hrest⟩ := suffixes_cut hpq hmore
  exact ⟨e', t', k, Run.bind_eq_ok_iff.2 ⟨first, u, hhead, hcut⟩, hrest⟩

theorem climb_end (h : r.climb p s = .ok e t) : t.ahead.upcoming.kind.precedence ≤ p := by
  obtain ⟨_, _, -, hmore⟩ := Run.bind_eq_ok_iff.1 h
  exact (suffixes_end hmore).1

end Rules

end Parse

open Parse

/-- **Raising the precedence only cuts an expression short**, in front of a token that the higher
precedence keeps out and the lower one does not. -/
theorem expression_cut_short {source : String} {p q : Precedence} {e : Expr} {t : ParseState}
    (hpq : p ≤ q) (h : Parse.expression p (.ofSource source) = .ok e t) :
    ∃ e' t', Parse.expression q (.ofSource source) = .ok e' t' ∧
      (∃ used' used, Consumes (.ofSource source) used' t' ∧ Consumes (.ofSource source) used t ∧
        used' <+: used) ∧
      t'.recorded.toList <+: t.recorded.toList ∧
      t'.ahead.upcoming.kind.precedence ≤ q ∧
      e'.OnLeftSpine e ∧
      (e' = e ∧ t' = t ∨ p < t'.ahead.upcoming.kind.precedence) := by
  have hr := (Rules.onwards_rules (TokenStream.ofSource source).tokens.length).agreement
  obtain ⟨e', t', k, hcut, hrest⟩ := Rules.climb_cut hpq h
  have hfirst : Onward (.ofSource source) t' := (hr.climb q _ trivial).2.ok hcut
  have hon : Onward t' t := (hr.suffixes p k e' t' trivial).2.ok hrest
  refine ⟨e', t', hcut, hfirst.consumes hon, hon.recorded, Rules.climb_end hcut,
    (Rules.suffixes_end hrest).2, ?_⟩
  rcases Nat.lt_or_ge p.level t'.ahead.upcoming.kind.precedence.level with hp | hp
  · exact .inr hp
  · exact .inl (Rules.suffixes_eq_of_le hrest hp)

/-- `if a { let }[0] * b - fn() { let }` is cut before the minus sign, and the second broken
statement is not met any more. -/
theorem expression_cut_short_before_minus :
    ∃ source e t e' t', source = "if a \x7b let \x7d[0] * b - fn() \x7b let \x7d" ∧
      Precedence.lowest ≤ .sum ∧ Parse.expression .lowest (.ofSource source) = .ok e t ∧
      Parse.expression .sum (.ofSource source) = .ok e' t' ∧
      (∃ used' used, Consumes (.ofSource source) used' t' ∧ Consumes (.ofSource source) used t ∧
        used' <+: used) ∧
      t'.recorded.toList <+: t.recorded.toList ∧ t'.recorded.size = 1 ∧ t.recorded.size = 2 ∧
      t'.ahead.upcoming.kind = .minus ∧ Kind.minus.precedence ≤ .sum ∧ e'.OnLeftSpine e ∧
      Precedence.lowest < Kind.minus.precedence := by
  let source := "if a \x7b let \x7d[0] * b - fn() \x7b let \x7d"
  have hpq : Precedence.lowest ≤ .sum := by decide
  obtain ⟨e, t, h, hsize⟩ : ∃ e t, Parse.expression .lowest (.ofSource source) = .ok e t ∧
      t.recorded.size = 2 := by
    dsimp only [source]
    with_unfolding_all exact ⟨_, _, rfl, rfl⟩
  obtain ⟨e₁, t₁, h₁, hsize₁, hminus⟩ : ∃ e t,
      Parse.expression .sum (.ofSource source) = .ok e t ∧ t.recorded.size = 1 ∧
        t.ahead.upcoming.kind = .minus := by
    dsimp only [source]
    with_unfolding_all exact ⟨_, _, rfl, rfl, rfl⟩
  obtain ⟨e', t', h', hused, hrecorded, hstop, hspine, hcut⟩ := expression_cut_short hpq h
  obtain ⟨rfl, rfl⟩ := Outcome.ok.inj (h₁.symm.trans h')
  rw [hminus] at hstop hcut
  rcases hcut with ⟨-, rfl⟩ | hlt
  · rw [hsize] at hsize₁
    cases hsize₁
  · exact ⟨source, e, t, e₁, t₁, rfl, hpq, h, h', hused, hrecorded, hsize₁, hsize, hminus, hstop,
      hspine, hlt⟩

end Scriptlet
