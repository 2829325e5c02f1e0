import Scriptlet.Proofs.Grammar.Abreast
import Scriptlet.Proofs.Grammar.Acceptance
import Scriptlet.Proofs.Grammar.Openings
import Scriptlet.Proofs.Joining.Following

/-!
# Sources that differ inside a block

**Theorem (`program_around_block`).** Let two sources have the same tokens, except inside a block.
If the block is read in the one source as it is derived in the other, up to the same place, then so
is the whole program.

This is shown along the derivation. A reader in the one source follows a derivation in the other
(`Fits`): both are in front of the brace of the block, or both are behind the block. A rule looks at
the next token only, which is the same for both, so it goes on as its derivation does (`Follows`).
The brace itself is used up by the block, and by nothing else, since it opens no hash.

A reader that is cut off is left out here, so nothing is said about depths and passes.
-/

namespace Scriptlet

namespace Parse

variable {α β : Type}

/-- A brace behind which two sources differ. -/
structure Gap where
  before : List Token
  brace : Token
  /-- The tokens behind the brace of the source that is derived. -/
  inside : List Token
  /-- The tokens behind the brace of the source that is read. -/
  actual : List Token
  /-- The tokens behind the block. -/
  behind : List Token
  finish : Position
  /-- What is recorded when the block has been read. -/
  recorded : Array Diagnostic
  opens : brace.kind = .lbrace
  once : brace ∉ before ++ behind
  proper : ∀ t ∈ before ++ behind, t.Proper

namespace Gap

variable {g : Gap}

/-- Where the tokens `ts` are left of the source that is derived, the reader is in this state. -/
inductive Fits (g : Gap) : List Token → ParseState → Prop
  | before {us : List Token} : us <:+ g.before →
      Fits g (us ++ g.brace :: g.inside) ⟨⟨us ++ g.brace :: g.actual, g.finish⟩, #[]⟩
  | behind {ts : List Token} : ts <:+ g.behind → Fits g ts ⟨⟨ts, g.finish⟩, g.recorded⟩

variable {s : ParseState} {x : Token} {ts rest mid : List Token}

namespace Fits

theorem kind_eq (h : g.Fits ts s) : s.ahead.current.kind = nextKind ts := by
  rw [kind_current]
  cases h with
  | behind _ => rfl
  | @before us _ => cases us <;> rfl

theorem current (h : g.Fits (x :: ts) s) : s.ahead.current = x := by
  generalize hts : x :: ts = us at h
  cases h with
  | behind _ => rw [← hts]; rfl
  | @before us _ =>
    cases us with
    | nil => exact (List.cons.inj hts).1.symm
    | cons u us => exact (List.cons.inj hts).1.symm

/-- Past a token other than the brace. -/
theorem next (h : g.Fits (x :: ts) s) (hx : x ≠ g.brace) : g.Fits ts (past s) := by
  generalize hts : x :: ts = us at h
  cases h with
  | behind hsuffix =>
    subst hts
    exact .behind ((List.suffix_cons x ts).trans hsuffix)
  | @before us hus =>
    cases us with
    | nil => exact absurd (List.cons.inj hts).1 hx
    | cons u us =>
      obtain ⟨rfl, rfl⟩ := List.cons.inj hts
      exact .before ((List.suffix_cons _ us).trans hus)

theorem next_of_kind (h : g.Fits (x :: ts) s) (hx : x.kind ≠ .lbrace) : g.Fits ts (past s) :=
  h.next fun heq => hx (heq ▸ g.opens)

/-- At the end both readers stay where they are. -/
theorem next_nil (h : g.Fits [] s) : g.Fits [] (past s) := by
  generalize hts : ([] : List Token) = us at h
  cases h with
  | behind hsuffix => subst hts; exact .behind hsuffix
  | @before us _ => cases us <;> cases hts

theorem at_brace (h : g.Fits (g.brace :: ts) s) :
    ts = g.inside ∧ s = ⟨⟨g.brace :: g.actual, g.finish⟩, #[]⟩ := by
  generalize hts : g.brace :: ts = us at h
  cases h with
  | behind hsuffix =>
    exact absurd (List.mem_append_right _ (hsuffix.subset (hts ▸ List.mem_cons_self))) g.once
  | @before us hus =>
    cases us with
    | nil => exact ⟨(List.cons.inj hts).2, rfl⟩
    | cons u us =>
      rw [← (List.cons.inj hts).1] at hus
      exact absurd (List.mem_append_left _ (hus.subset List.mem_cons_self)) g.once

theorem proper (h : g.Fits (x :: ts) s) (hx : x ≠ g.brace) : x.Proper := by
  generalize hts : x :: ts = us at h
  cases h with
  | behind hsuffix =>
    exact g.proper x (List.mem_append_right _ (hsuffix.subset (hts ▸ List.mem_cons_self)))
  | @before us hus =>
    cases us with
    | nil => exact absurd (List.cons.inj hts).1 hx
    | cons u us =>
      rw [← (List.cons.inj hts).1] at hus
      exact g.proper x (List.mem_append_left _ (hus.subset List.mem_cons_self))

end Fits

/-- In the state `s` the step `x` reads `a` and goes on where `rest` is left, unless it is cut
off. -/
def Follows (g : Gap) (x : Parse α) (s : ParseState) (a : α) (rest : List Token) : Prop :=
  x s = .outOfFuel ∨ ∃ u, x s = .ok a u ∧ g.Fits rest (past u)

namespace Follows

variable {a : α} {b : β} {f : α → Parse β}

theorem exhausted : g.Follows (Run.exhausted : Parse α) s a rest := .inl rfl

theorem pure (a : α) (h : g.Fits rest (past s)) : g.Follows (Pure.pure a) s a rest :=
  .inr ⟨s, rfl, h⟩

theorem bind {x : Parse α} (hx : g.Follows x s a mid)
    (hf : ∀ u, g.Fits mid (past u) → g.Follows (f a) u b rest) : g.Follows (x >>= f) s b rest := by
  rw [Follows, Run.bind_apply]
  rcases hx with hx | ⟨u, hu, hmid⟩
  · exact .inl (by rw [hx])
  · rw [hu]
    exact hf u hmid

theorem map {x : Parse α} (hx : g.Follows x s a rest) (h : α → β) :
    g.Follows (x >>= fun a => Pure.pure (h a)) s (h a) rest :=
  hx.bind fun _ hrest => pure _ hrest

/-- What is read is not given up. -/
theorem recover {x : Parse α} {f : Option α → Parse β} (hx : g.Follows x s a mid)
    (hf : ∀ u, g.Fits mid (past u) → g.Follows (f (some a)) u b rest) :
    g.Follows (Parse.recover x >>= f) s b rest := by
  rw [Follows, Run.bind_apply]
  rcases hx with hx | ⟨u, hu, hmid⟩
  · exact .inl (by rw [Parse.recover, hx])
  · rw [recover_ok hu]
    exact hf u hmid

theorem current {f : Token → Parse β} (h : g.Follows (f s.ahead.current) s b rest) :
    g.Follows (Parse.current >>= f) s b rest := h

theorem upcoming {f : Token → Parse β} (h : g.Follows (f s.ahead.upcoming) s b rest) :
    g.Follows (Parse.upcoming >>= f) s b rest := h

theorem advance {f : Unit → Parse β} (h : g.Follows (f ()) (past s) b rest) :
    g.Follows (Parse.advance >>= f) s b rest := h

/-- The token of a kind, and what follows it. -/
theorem expected {k : Kind} {f : Unit → Parse β} (hs : g.Fits (x :: ts) (past s)) (hx : x.kind = k)
    (h : g.Follows (f ()) (past s) b rest) : g.Follows (Parse.expect k >>= f) s b rest := by
  rw [Parse.expect, bind_assoc]
  have hup : s.ahead.upcoming = x := hs.current
  refine upcoming ?_
  rw [hup, if_pos hx]
  exact h

theorem expect {k : Kind} (hs : g.Fits (x :: rest) (past s)) (hx : x.kind = k) (hk : k ≠ .lbrace) :
    g.Follows (Parse.expect k) s () rest := by
  have hexpect : g.Follows (Parse.expect k >>= Pure.pure) s () rest :=
    expected hs hx (pure () (hs.next_of_kind (hx ▸ hk)))
  rwa [bind_pure] at hexpect

theorem name (hs : g.Fits (x :: rest) (past s)) (hx : x.kind = .ident) :
    g.Follows Parse.name s (.ofToken x) rest := by
  refine expected hs hx (current ?_)
  rw [hs.current]
  exact pure _ (hs.next_of_kind (hx ▸ by decide))

/-- The depth that is granted does not matter. -/
theorem nested {rule : Rules → Parse α} (h : ∀ n, g.Follows (rule (rules n)) s a rest) :
    g.Follows (Parse.nested rule) s a rest := h _

/-- The kind of the next token decides as it does for the derivation. -/
theorem upcoming_kind {f : Token → Parse β} (hs : g.Fits ts (past s))
    (h : ∀ t : Token, t.kind = nextKind ts → g.Follows (f t) s b rest) :
    g.Follows (Parse.upcoming >>= f) s b rest := upcoming (h _ hs.kind_eq)

end Follows

/-! ## Rule by rule -/

/-- None of these things is a hash that the brace opens. -/
def Spares (g : Gap) (os : List Opened) : Prop := .hash g.brace ∉ os

theorem Spares.left {os os' : List Opened} (h : g.Spares (os ++ os')) : g.Spares os :=
  fun hmem => h (List.mem_append_left _ hmem)

theorem Spares.right {os os' : List Opened} (h : g.Spares (os ++ os')) : g.Spares os' :=
  fun hmem => h (List.mem_append_right _ hmem)

theorem Spares.tail {o : Opened} {os : List Opened} (h : g.Spares (o :: os)) : g.Spares os :=
  fun hmem => h (List.mem_cons_of_mem _ hmem)

/-- What is nested in the rules follows its derivation, unless the brace opens a hash in it. -/
structure Led (g : Gap) (r : Rules) : Prop where
  expression : ∀ {p s ts e rest}, g.Fits ts s → ExprAt p ts e rest → g.Spares e.opened →
    g.Follows (r.expression p) s e rest
  block : ∀ {s ts b rest}, g.Fits ts s → BlockAt ts b rest → g.Spares b.opened →
    g.Follows r.block s b rest

variable {r : Rules}

theorem follows_names {xs : List Ident} (k : Nat) (h : NamesAt ts xs rest)
    (hs : g.Fits ts (past s)) : g.Follows (Rules.names k) s xs rest := by
  induction h generalizing k s with
  | last hx hc =>
    obtain _ | k := k
    · exact .exhausted
    refine (Follows.name hs hx).bind fun u hu => .upcoming_kind hu fun t ht => ?_
    rw [ht, nextKind_cons, hc, if_neg (by decide)]
    exact (Follows.expect hu hc (by decide)).map _
  | more hx hc _ ih =>
    obtain _ | k := k
    · exact .exhausted
    refine (Follows.name hs hx).bind fun u hu => .upcoming_kind hu fun t ht => ?_
    rw [ht, nextKind_cons, if_pos hc]
    exact .advance ((ih k (hu.next_of_kind (hc ▸ by decide))).map _)

theorem follows_params {ps : List Ident} (h : ParamsAt ts ps rest) (hs : g.Fits ts (past s)) :
    g.Follows r.params s ps rest := by
  refine .upcoming_kind hs fun t ht => ?_
  cases h with
  | none hc =>
    rw [ht, nextKind_cons, if_pos hc]
    exact .advance (.pure _ (hs.next_of_kind (hc ▸ by decide)))
  | some h =>
    have hne : nextKind ts ≠ .rparen := by cases h <;> simp_all
    rw [ht, if_neg hne]
    exact follows_names _ h hs

theorem follows_pairEnd {d : Token} (hs : g.Fits (d :: ts) (past s)) (hd : d.kind = .comma) :
    g.Follows Rules.pairEnd s () ts := by
  refine .upcoming_kind hs fun t ht => ?_
  rw [ht, nextKind_cons, hd, if_neg (by decide)]
  exact .expect hs hd (by decide)

/-- The closing brace ends the pair and is left to end the pairs. -/
theorem follows_pairEnd_last {d : Token} (hs : g.Fits (d :: ts) (past s)) (hd : d.kind = .rbrace) :
    g.Follows Rules.pairEnd s () (d :: ts) := by
  refine .upcoming_kind hs fun t ht => ?_
  rw [ht, nextKind_cons, if_pos hd]
  exact .pure () hs

namespace Led

variable (h : g.Led r)
include h

/-- An expression after the current token. -/
theorem after {p : Precedence} {f : Expr → Parse β} {e : Expr} {b : β}
    (hs : g.Fits ts (past s)) (he : ExprAt p ts e mid) (hspares : g.Spares e.opened)
    (hf : ∀ u, g.Fits mid (past u) → g.Follows (f e) u b rest) :
    g.Follows (Parse.advance >>= fun _ => r.expression p >>= f) s b rest :=
  .advance ((h.expression hs he hspares).bind hf)

theorem exprs {close : Kind} (hbrace : close ≠ .lbrace) (hcomma : close ≠ .comma) (k : Nat)
    {s : ParseState} {ts : List Token} {es : List Expr} (hs : g.Fits ts s)
    (hes : ItemsAt close ts es rest) (hspares : g.Spares (openedExprs es)) :
    g.Follows (r.exprs close k) s es rest := by
  induction k generalizing s ts es with
  | zero => exact .exhausted
  | succ k ih =>
    cases hes with
    | last he hc =>
      refine (h.expression hs he hspares.left).bind fun u hu => .upcoming_kind hu fun t ht => ?_
      rw [ht, nextKind_cons, hc, if_neg hcomma]
      exact (Follows.expect hu hc hbrace).map _
    | more he hc hes =>
      refine (h.expression hs he hspares.left).bind fun u hu => .upcoming_kind hu fun t ht => ?_
      rw [ht, nextKind_cons, if_pos hc]
      have hrest := ih (hu.next_of_kind (hc ▸ by decide)) hes hspares.right
      exact .advance (.advance (hrest.map _))

/-- The closing token is one that no expression starts with. -/
theorem list {close : Kind} (hbrace : close ≠ .lbrace) (hcomma : close ≠ .comma)
    (hhead : ∀ t us e rest, ¬ HeadAt close t us e rest) {es : List Expr} (hs : g.Fits ts (past s))
    (hes : ListAt close ts es rest) (hspares : g.Spares (openedExprs es)) :
    g.Follows (r.list close) s es rest := by
  refine .upcoming_kind hs fun t ht => .advance ?_
  cases hes with
  | none hc =>
    rw [ht, nextKind_cons, if_pos hc]
    exact .pure _ (hs.next_of_kind (hc ▸ hbrace))
  | some hes =>
    have hne : nextKind ts ≠ close := by
      cases hes with
      | last he _ | more he _ _ => exact he.nextKind_ne hhead
    rw [ht, if_neg hne]
    exact h.exprs hbrace hcomma _ hs hes hspares

theorem pairs (k : Nat) {s : ParseState} {ts : List Token} {kvs : List (Expr × Expr)}
    (hs : g.Fits ts (past s)) (hkvs : PairsAt ts kvs rest) (hspares : g.Spares (openedPairs kvs)) :
    g.Follows (r.pairs k) s kvs rest := by
  induction k generalizing s ts kvs with
  | zero => exact .exhausted
  | succ k ih =>
    refine .upcoming_kind hs fun t ht => .advance ?_
    cases hkvs with
    | none hc =>
      rw [ht, nextKind_cons, if_pos hc]
      exact .pure _ (hs.next_of_kind (hc ▸ by decide))
    | last hkey hcolon hvalue hb =>
      rw [ht, if_neg (hkey.nextKind_ne (by nofun))]
      refine (h.expression hs hkey hspares.left).bind fun u hu => ?_
      refine (Follows.expect hu hcolon (by decide)).bind fun v hv => ?_
      refine h.after hv hvalue hspares.right.left fun w hw => ?_
      exact (follows_pairEnd_last hw hb).bind fun x hx => (ih hx (.none hb) (by nofun)).map _
    | more hkey hcolon hvalue hd hkvs =>
      rw [ht, if_neg (hkey.nextKind_ne (by nofun))]
      refine (h.expression hs hkey hspares.left).bind fun u hu => ?_
      refine (Follows.expect hu hcolon (by decide)).bind fun v hv => ?_
      refine h.after hv hvalue hspares.right.left fun w hw => ?_
      exact (follows_pairEnd hw hd).bind fun x hx => (ih hx hkvs hspares.right.right).map _

theorem blockAhead {b : Block} (hs : g.Fits ts (past s)) (hb : BlockAt ts b rest)
    (hspares : g.Spares b.opened) : g.Follows r.blockAhead s b rest := by
  cases hb with
  | mk ht hss => exact .expected hs ht (h.block hs (.mk ht hss) hspares)

theorem elseBranch {no : Option Block} (hs : g.Fits ts (past s)) (hno : ElseAt ts no rest)
    (hspares : g.Spares (openedElse no)) : g.Follows r.elseBranch s no rest := by
  refine .upcoming_kind hs fun t ht => ?_
  cases hno with
  | none hne =>
    rw [ht, if_neg hne]
    exact .pure none hs
  | some hx hb =>
    rw [ht, nextKind_cons, if_pos hx]
    exact .advance ((h.blockAhead (hs.next_of_kind (hx ▸ by decide)) hb hspares).map _)

theorem unary (t : Token) (op : UnaryOp) {e : Expr} (hs : g.Fits ts (past s))
    (he : ExprAt .unary ts e rest) (hspares : g.Spares e.opened) :
    g.Follows (r.unary t op) s (.unary t op e) rest :=
  h.after hs he hspares fun _ hu => .pure _ hu

theorem group {c : Token} {e : Expr} (hs : g.Fits ts (past s))
    (he : ExprAt .lowest ts e (c :: rest)) (hc : c.kind = .rparen) (hspares : g.Spares e.opened) :
    g.Follows r.group s e rest :=
  h.after hs he hspares fun _ hu => (Follows.expect hu hc (by decide)).map _

theorem conditional (t : Token) {mid' : List Token} {e : Expr} {yes : Block} {no : Option Block}
    (hs : g.Fits ts (past s)) (he : ExprAt .lowest ts e mid) (hyes : BlockAt mid yes mid')
    (hno : ElseAt mid' no rest) (hspares : g.Spares (Expr.ifElse t e yes no).opened) :
    g.Follows (r.conditional t) s (.ifElse t e yes no) rest :=
  h.after hs he hspares.left fun _ hu =>
    (h.blockAhead hu hyes hspares.right.left).bind fun _ hv =>
      (h.elseBranch hv hno hspares.right.right).map _

theorem function (t : Token) {c : Token} {ps : List Ident} {body : Block}
    (hs : g.Fits (c :: ts) (past s)) (hc : c.kind = .lparen) (hps : ParamsAt ts ps mid)
    (hbody : BlockAt mid body rest) (hspares : g.Spares body.opened) :
    g.Follows (r.function t) s (.fn t ps body) rest :=
  (Follows.expect hs hc (by decide)).bind fun _ hu => (follows_params hps hu).bind fun _ hv =>
    (h.blockAhead hv hbody hspares).map _

theorem loop (t : Token) {i c v k x : Token} {body : Block}
    (hs : g.Fits (i :: c :: v :: k :: x :: ts) (past s)) (hi : i.kind = .ident)
    (hc : c.kind = .comma) (hv : v.kind = .ident) (hk : k.kind = .inKw) (hx : x.kind = .ident)
    (hbody : BlockAt ts body rest) (hspares : g.Spares body.opened) :
    g.Follows (r.loop t) s (.forIn t (.ofToken i) (.ofToken v) (.ofToken x) body) rest := by
  refine (Follows.name hs hi).bind fun _ h₁ => ?_
  refine (Follows.expect h₁ hc (by decide)).bind fun _ h₂ => ?_
  refine (Follows.name h₂ hv).bind fun _ h₃ => ?_
  refine (Follows.expect h₃ hk (by decide)).bind fun _ h₄ => ?_
  exact (Follows.name h₄ hx).bind fun _ h₅ => (h.blockAhead h₅ hbody hspares).map _

theorem head {e : Expr} (hs : g.Fits (x :: ts) s) (he : HeadAt x.kind x ts e rest)
    (hspares : g.Spares e.opened) : g.Follows r.head s e rest := by
  refine .current ?_
  rw [hs.current]
  generalize hk : x.kind = k at he
  have hnext (hne : k ≠ .lbrace) : g.Fits ts (past s) := hs.next_of_kind (hk ▸ hne)
  cases he with
  | name | str | yes | no | null => exact .pure _ (hnext (by decide))
  | int hle =>
    have hproper := hs.proper fun heq => absurd (hk.symm.trans (heq ▸ g.opens)) (by decide)
    have hdigits := (Rules.ofDigits?_eq_some_iff (hproper.digits hk)).2 ⟨hle, rfl⟩
    dsimp only
    rw [hdigits]
    exact .pure _ (hnext (by decide))
  | not he => exact h.unary x .not (hnext (by decide)) he hspares
  | neg he => exact h.unary x .neg (hnext (by decide)) he hspares
  | group he hc => exact h.group (hnext (by decide)) he hc hspares
  | ifElse he hyes hno => exact h.conditional x (hnext (by decide)) he hyes hno hspares
  | fn hc hps hbody => exact h.function x (hnext (by decide)) hc hps hbody hspares
  | array hes =>
    exact (h.list (by decide) (by decide) (by nofun) (hnext (by decide)) hes hspares).map _
  | hash hkvs =>
    -- The one brace behind which the sources differ opens no hash.
    have hne : x ≠ g.brace := fun heq => hspares (heq ▸ List.mem_cons_self)
    exact (h.pairs _ (hs.next hne) hkvs hspares.tail).map _
  | forIn hi hc hv hin hx hbody => exact h.loop x (hnext (by decide)) hi hc hv hin hx hbody hspares

theorem extend {left e : Expr} {suffix : Suffix} (hs : g.Fits (x :: ts) s)
    (hsuffix : Suffix.ofKind x.kind = some suffix) (he : SuffixAt left suffix x ts e rest)
    (hspares : g.Spares e.opened) : g.Follows (r.extend left suffix) s e rest := by
  have hnext := hs.next_of_kind (Suffix.not_brace_of_ofKind hsuffix).1
  cases he with
  | binary hright =>
    refine .current ?_
    rw [hs.current]
    exact h.after hnext hright hspares.right fun _ hu => .pure _ hu
  | call hes =>
    refine .current ?_
    rw [hs.current]
    exact (h.list (by decide) (by decide) (by nofun) hnext hes hspares.right).map _
  | index hi hc =>
    refine .current ?_
    rw [hs.current]
    exact h.after hnext hi hspares.right fun _ hu => (Follows.expect hu hc (by decide)).map _
  | assign he =>
    refine .current ?_
    rw [hs.current]
    exact h.after hnext he hspares fun _ hu => .pure _ hu

theorem suffixes (p : Precedence) (k : Nat) {left e : Expr} {s : ParseState} {ts : List Token}
    (hs : g.Fits ts (past s)) (he : SuffixesAt p left ts e rest) (hspares : g.Spares e.opened) :
    g.Follows (r.suffixes p k left) s e rest := by
  induction k generalizing s ts left with
  | zero => exact .exhausted
  | succ k ih =>
    refine .upcoming_kind hs fun t ht => ?_
    rw [ht]
    cases he with
    | stop hno =>
      split
      · exact .pure _ hs
      · rename_i suffix hsuffix
        rw [if_neg (hno suffix hsuffix)]
        exact .pure _ hs
    | more hsuffix hp hone hmore =>
      rw [nextKind_cons, hsuffix]
      dsimp only
      rw [if_pos hp]
      have hspares' := fun hmem => hspares (hmore.subset_opened hmem)
      exact .advance ((h.extend hs hsuffix hone hspares').bind fun _ hu => ih hu hmore)

theorem climb {p : Precedence} {e : Expr} (hs : g.Fits ts s) (he : ExprAt p ts e rest)
    (hspares : g.Spares e.opened) : g.Follows (r.climb p) s e rest := by
  cases he with
  | mk hhead hsuffixes =>
    have hspares' := fun hmem => hspares (hsuffixes.subset_opened hmem)
    exact (h.head hs hhead hspares').bind fun _ hu => h.suffixes p _ hu hsuffixes hspares

theorem declaration (t : Token) (constant : Bool) {a : Token} {e : Expr}
    (hs : g.Fits (x :: a :: ts) (past s)) (hx : x.kind = .ident) (ha : a.kind = .assign)
    (he : ExprAt .lowest ts e rest) (hspares : g.Spares e.opened) :
    g.Follows (r.declaration t constant) s (.declare t constant (.ofToken x) e) rest :=
  (Follows.name hs hx).bind fun _ h₁ => (Follows.expect h₁ ha (by decide)).bind fun _ h₂ =>
    h.after h₂ he hspares fun _ hu => .pure _ hu

theorem bareStatement {st : Stmt} (hs : g.Fits ts s) (hst : BareStmtAt ts st rest)
    (hspares : g.Spares st.opened) : g.Follows r.bareStatement s st rest := by
  refine .current ?_
  cases hst with
  | letName ht hx ha he =>
    rw [hs.current, ht]
    exact h.declaration _ _ (hs.next_of_kind (ht ▸ by decide)) hx ha he hspares
  | constName ht hx ha he =>
    rw [hs.current, ht]
    exact h.declaration _ _ (hs.next_of_kind (ht ▸ by decide)) hx ha he hspares
  | ret ht he =>
    rw [hs.current, ht]
    exact h.after (hs.next_of_kind (ht ▸ by decide)) he hspares fun _ hu => .pure _ hu
  | expr he =>
    rw [hs.current]
    split
    case h_1 ht | h_2 ht | h_3 ht => exact absurd ht (he.nextKind_ne (by nofun))
    case h_4 => exact (h.expression hs he hspares).map _

theorem statement {st : Stmt} (hs : g.Fits ts s) (hst : StmtAt ts st rest)
    (hspares : g.Spares st.opened) : g.Follows r.statement s st rest := by
  cases hst with
  | ended hst hc =>
    refine (h.bareStatement hs hst hspares).bind fun u hu => ?_
    rw [skip, bind_assoc]
    refine .upcoming_kind hu fun t ht => ?_
    rw [ht, nextKind_cons, if_pos hc]
    exact .advance (.pure st (hu.next_of_kind (hc ▸ by decide)))
  | bare hst hne =>
    refine (h.bareStatement hs hst hspares).bind fun u hu => ?_
    rw [skip, bind_assoc]
    refine .upcoming_kind hu fun t ht => ?_
    rw [ht, if_neg hne]
    exact .pure st hu

theorem blockStmts (k : Nat) {s : ParseState} {ts : List Token} {ss : List Stmt}
    (hs : g.Fits ts s) (hss : StmtsAt ts ss rest) (hspares : g.Spares (openedStmts ss)) :
    g.Follows (r.blockStmts k) s ss rest := by
  induction k generalizing s ts ss with
  | zero => exact .exhausted
  | succ k ih =>
    refine .current ?_
    rw [hs.kind_eq]
    cases hss with
    | close hc =>
      rw [nextKind_cons, if_pos (.inl hc)]
      exact .pure [] (hs.next_of_kind (hc ▸ by decide))
    | finish =>
      rw [if_pos (.inr rfl)]
      exact .pure [] hs.next_nil
    | more hst hss =>
      have hrbrace := hst.nextKind_ne (k := .rbrace) (by nofun) rfl
      have heof := hst.nextKind_ne (k := .eof) (by nofun) rfl
      rw [if_neg (not_or_intro hrbrace heof)]
      refine (h.statement hs hst hspares.left).recover fun u hu => ?_
      exact .advance ((ih hu hss hspares.right).map _)

/-- Behind the brace the block is read as it is derived. -/
theorem braces {b : Block}
    (hbridge : ∀ {ss rest}, StmtsAt g.inside ss rest →
      g.Follows (r.blockStmts r.passes) ⟨⟨g.actual, g.finish⟩, #[]⟩ ss rest)
    (hs : g.Fits ts s) (hb : BlockAt ts b rest) (hspares : g.Spares b.opened) :
    g.Follows r.braces s b rest := by
  cases hb with
  | @mk t ts _ ss ht hss =>
    refine .current (.advance ?_)
    rw [hs.current]
    by_cases hbrace : t = g.brace
    · subst hbrace
      obtain ⟨rfl, rfl⟩ := hs.at_brace
      exact (hbridge hss).map _
    · exact (h.blockStmts _ (hs.next hbrace) hss hspares.tail).map _

theorem programStmts (k : Nat) {s : ParseState} {ts : List Token} {ss : List Stmt}
    (hs : g.Fits ts s) (hss : ProgramAt ts ss) (hspares : g.Spares (openedStmts ss)) :
    g.Follows (r.programStmts k) s ss [] := by
  induction k generalizing s ts ss with
  | zero => exact .exhausted
  | succ k ih =>
    refine .current ?_
    rw [hs.kind_eq]
    cases hss with
    | finish =>
      rw [nextKind_nil, if_pos rfl]
      exact .pure [] hs.next_nil
    | more hst hss =>
      rw [if_neg (hst.nextKind_ne (by nofun) rfl)]
      refine (h.statement hs hst hspares.left).recover fun u hu => ?_
      exact .advance ((ih hu hss hspares.right).map _)

end Led

/-- Behind the brace, the statements of the block are read as they are derived. -/
def Bridged (g : Gap) : Prop :=
  ∀ n {ss rest}, StmtsAt g.inside ss rest →
    g.Follows ((rules n).blockStmts (rules n).passes) ⟨⟨g.actual, g.finish⟩, #[]⟩ ss rest

theorem led_rules (hg : g.Bridged) (n : Nat) : g.Led (rules n) := by
  induction n with
  | zero => exact ⟨fun _ _ _ => .exhausted, fun _ _ _ => .exhausted⟩
  | succ n ih => exact ⟨fun hs he => ih.climb hs he, fun hs hb => ih.braces (hg n) hs hb⟩

/-- **The program is read as it is derived**, with what the block has recorded. -/
theorem program_eq (hg : g.Bridged) (hbrace : g.brace.Proper)
    (hactual : ∀ t ∈ g.actual, t.Proper) {ss : List Stmt}
    (hss : ProgramAt (g.before ++ g.brace :: g.inside) ss) (hspares : g.Spares (openedStmts ss)) :
    ∃ u, program ⟨⟨g.before ++ g.brace :: g.actual, g.finish⟩, #[]⟩ = .ok ⟨ss⟩ u ∧
      u.recorded = g.recorded := by
  have hproper : ∀ t ∈ g.before ++ g.brace :: g.actual, t.Proper := by
    intro t ht
    rcases List.mem_append.1 ht with ht | ht
    · exact g.proper t (List.mem_append_left _ ht)
    · rcases List.mem_cons.1 ht with rfl | ht
      · exact hbrace
      · exact hactual t ht
  have hread := reads_program_of_proper
    (s := ⟨⟨g.before ++ g.brace :: g.actual, g.finish⟩, #[]⟩) hproper
  have hfollows : g.Follows program _ ⟨ss⟩ [] :=
    (Follows.nested fun n => (led_rules hg n).programStmts _ (.before List.suffix_rfl) hss
      hspares).map Program.mk
  obtain ⟨u, hu, hfits⟩ := hfollows.resolve_left hread.ends
  refine ⟨u, hu, ?_⟩
  -- At the end of the source the reader is behind the block.
  generalize hnil : ([] : List Token) = us, hpast : past u = v at hfits
  cases hfits with
  | @before us _ => cases us <;> cases hnil
  | behind _ => exact congrArg ParseState.recorded hpast

/-- The block is read alike at every depth that does not cut it off. -/
theorem bridged {n : Nat} {ss : List Stmt} (hinside : ∀ t ∈ g.inside, t.Proper)
    (hss : StmtsAt g.inside ss g.behind)
    (hread : ∃ t, (rules n).blockStmts (rules n).passes ⟨⟨g.actual, g.finish⟩, #[]⟩ = .ok ss t ∧
      past t = ⟨⟨g.behind, g.finish⟩, g.recorded⟩) : g.Bridged := by
  intro m ss' rest hss'
  obtain ⟨rfl, rfl⟩ := hss.unique hinside hss'
  obtain ⟨t, ht, hpast⟩ := hread
  by_cases hends : (rules m).blockStmts (rules m).passes ⟨⟨g.actual, g.finish⟩, #[]⟩ = .outOfFuel
  · exact .inl hends
  · refine .inr ⟨t, ?_, hpast ▸ .behind List.suffix_rfl⟩
    have hsame := Tie.recovers_same.blockStmts (Tie.recovers_same.together_rules n m)
      (rules n).passes (rules m).passes (s := ⟨⟨g.actual, g.finish⟩, #[]⟩) (.inl rfl)
    rw [← hsame.eq (by rw [ht]; nofun) hends, ht]

end Gap

/-- **Where a block is read as it is derived**, so is the whole program, although the tokens
`actual` stand behind the brace in place of `inside`. -/
theorem program_around_block {pre inside actual post : List Token} {t : Token}
    {ss body all : List Stmt} {q : Position} {ds : Array Diagnostic} {n : Nat}
    (ht : t.kind = .lbrace) (hnodup : (pre ++ t :: inside).Nodup)
    (hproper : ∀ x ∈ pre ++ t :: inside, x.Proper) (hactual : ∀ x ∈ actual, x.Proper)
    (hall : ProgramAt (pre ++ t :: inside) all) (hbody : .block (.mk t body) ∈ openedStmts all)
    (hss : StmtsAt inside ss post)
    (hread : ∃ u, (rules n).blockStmts (rules n).passes ⟨⟨actual, q⟩, #[]⟩ = .ok ss u ∧
      past u = ⟨⟨post, q⟩, ds⟩) :
    body = ss ∧
      ∃ u, program ⟨⟨pre ++ t :: actual, q⟩, #[]⟩ = .ok ⟨all⟩ u ∧ u.recorded = ds := by
  have hinside : ∀ x ∈ inside, x.Proper := fun x hx => hproper x (by simp [hx])
  have hpost : post <:+ inside := hss.spends.suffix
  have honce : t ∉ pre ++ post := by
    obtain ⟨-, hcons, hdisjoint⟩ := List.nodup_append'.1 hnodup
    intro hmem
    rcases List.mem_append.1 hmem with hpre | hpost'
    · exact hdisjoint hpre List.mem_cons_self
    · exact (List.nodup_cons.1 hcons).1 (hpost.subset hpost')
  have houtside : ∀ x ∈ pre ++ post, x.Proper := by
    intro x hx
    rcases List.mem_append.1 hx with hx | hx
    · exact hproper x (List.mem_append_left _ hx)
    · exact hinside x (hpost.subset hx)
  let g : Gap := ⟨pre, t, inside, actual, post, q, ds, ht, honce, houtside⟩
  have hspares : g.Spares (openedStmts all) := by
    intro hhash
    cases hall.opens.unique hnodup hbody hhash rfl
  obtain ⟨rest, hbody'⟩ := hall.opens.stmtsAt hnodup hbody
  exact ⟨(hbody'.unique hinside hss).1, g.program_eq (Gap.bridged hinside hss hread)
    (hproper t (by simp)) hactual hall hspares⟩

end Parse

end Scriptlet
