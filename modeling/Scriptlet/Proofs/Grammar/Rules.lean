import Scriptlet.Proofs.Grammar.Reading
import Scriptlet.Proofs.Scanning
import Scriptlet.Syntax.Grammar

/-!
# The rules read the grammar

Every rule reads what the grammar derives at its place. A rule is read off its own text, step by
step, on the assumption that the rules for what is nested in it read right wherever fewer tokens
are ahead (`Rules.ReadsBelow`). Each level of `rules` then extends what the level below it reads
by one token (`readsBelow_rules`).

The tokens at hand shrink with every pass of a list, so no list meets its bound on passes.
-/

namespace Scriptlet

namespace Parse

/-- Fewer than `m` tokens, all of them proper. -/
structure Within (m : Nat) (ts : List Token) : Prop where
  length_lt : ts.length < m
  proper : ∀ t ∈ ts, t.Proper

theorem Within.suffix {m : Nat} {ts us : List Token} (h : Within m ts) (hus : us <:+ ts) :
    Within m us :=
  ⟨Nat.lt_of_le_of_lt hus.length_le h.length_lt, fun t ht => h.proper t (hus.subset ht)⟩

theorem Within.tail {m : Nat} {ts : List Token} (h : Within m ts) : Within m ts.tail :=
  h.suffix (List.tail_suffix ts)

namespace Rules

/-- The nested rules read right where fewer than `m` tokens are ahead, and the lists are granted
more than `m` passes. -/
structure ReadsBelow (r : Rules) (m : Nat) : Prop where
  expression {p : Precedence} {s : ParseState} : Within m s.ahead.tokens →
    Reads (r.expression p) s (ExprAt p s.ahead.tokens)
  expression_start {p : Precedence} {s t : ParseState} {e : Expr} :
    r.expression p s = .ok e t → s.ahead.tokens ≠ []
  block {s : ParseState} : Within m s.ahead.tokens → nextKind s.ahead.tokens = .lbrace →
    Reads r.block s (BlockAt s.ahead.tokens)
  passes : m < r.passes

variable {r : Rules} {m : Nat} {s : ParseState} {ts : List Token}

/-! ## Names -/

theorem reads_names (k : Nat) {s : ParseState} {ts : List Token} (hs : s.ahead.tokens.tail = ts)
    (hk : ts.length < k) : Reads (names k) s (NamesAt ts) := by
  induction k generalizing s ts with
  | zero => exact absurd hk (Nat.not_lt_zero _)
  | succ k ih =>
    have hread : Reads (names (k + 1)) s fun xs rest => ∃ x mid,
        (∃ c, ts = c :: mid ∧ c.kind = .ident ∧ x = .ofToken c) ∧
          (nextKind mid = .comma ∧ (∃ ys, NamesAt mid.tail ys rest ∧ xs = x :: ys) ∨
            nextKind mid ≠ .comma ∧ (∃ c, mid = c :: rest ∧ c.kind = .rparen) ∧ xs = [x]) := by
      refine (Reads.name hs).bind fun x t mid _ hmid hsuf => Reads.upcoming ?_
      have hle : mid.length ≤ ts.length := hs ▸ hsuf.length_le
      rw [kind_upcoming, hmid]
      split
      · rename_i hc
        have hlt := length_tail_lt (show nextKind mid ≠ .eof by rw [hc]; decide)
        have hxs := ih (s := past t) (by rw [past_tokens, hmid]) (by omega)
        refine (Reads.advance (hxs.map _)).congr fun xs rest => ?_
        simp [hc]
      · rename_i hc
        refine ((Reads.expect (by decide) hmid).map _).congr fun xs rest => ?_
        simp [hc]
    refine hread.congr fun xs rest => ⟨fun h => ?_, fun h => ?_⟩
    · cases h with
      | @last x c _ hx hc =>
        exact ⟨_, c :: rest, ⟨x, rfl, hx, rfl⟩, .inr ⟨by simp [hc], ⟨c, rfl, hc⟩, rfl⟩⟩
      | @more x c _ _ xs hx hc h =>
        exact ⟨_, _, ⟨x, rfl, hx, rfl⟩, .inl ⟨hc, xs, h, rfl⟩⟩
    · obtain ⟨_, mid, ⟨x, rfl, hx, rfl⟩, ⟨hc, ys, h, rfl⟩ | ⟨-, ⟨c, rfl, hc⟩, rfl⟩⟩ := h
      · obtain _ | ⟨c, mid⟩ := mid
        · cases hc
        · exact .more hx hc h
      · exact .last hx hc

theorem ReadsBelow.reads_params (hr : r.ReadsBelow m) (hs : s.ahead.tokens.tail = ts)
    (hw : Within m ts) : Reads r.params s (ParamsAt ts) := by
  refine Reads.upcoming ?_
  rw [kind_upcoming, hs]
  split
  · rename_i hc
    have hpure : Reads (pure ([] : List Ident)) (past s) _ := Reads.pure [] rfl
    refine (Reads.advance hpure).congr fun xs rest => ?_
    rw [past_tokens, hs]
    obtain _ | ⟨c, us⟩ := ts
    · cases hc
    refine ⟨fun h => ?_, fun ⟨hxs, hrest⟩ => ?_⟩
    · cases h with
      | none _ => exact ⟨rfl, rfl⟩
      | some h => cases h <;> simp_all
    · rw [hxs, hrest]; exact .none hc
  · rename_i hc
    refine (reads_names _ hs (Nat.lt_trans hw.length_lt hr.passes)).congr fun xs rest => ?_
    refine ⟨fun h => ?_, .some⟩
    cases h with
    | none h => exact absurd h hc
    | some h => exact h

/-! ## Lists of expressions -/

/-- An expression uses up a token. -/
theorem ReadsBelow.length_lt (hr : r.ReadsBelow m) {p : Precedence} {t : ParseState} {e : Expr}
    {mid : List Token} (ht : r.expression p s = .ok e t) (hmid : mid <:+ s.ahead.tokens.tail) :
    mid.length < s.ahead.tokens.length := by
  have hpos := List.length_pos_iff.2 (hr.expression_start ht)
  have hle := hmid.length_le
  rw [List.length_tail] at hle
  omega

theorem ReadsBelow.reads_exprs (hr : r.ReadsBelow m) {close : Kind} (hclose : close ≠ .comma)
    (heof : close ≠ .eof) (k : Nat) {s : ParseState} (hw : Within m s.ahead.tokens)
    (hk : s.ahead.tokens.length < k) :
    Reads (r.exprs close k) s (ItemsAt close s.ahead.tokens) := by
  induction k generalizing s with
  | zero => exact absurd hk (Nat.not_lt_zero _)
  | succ k ih =>
    have hread : Reads (r.exprs close (k + 1)) s fun es rest => ∃ e mid,
        ExprAt .lowest s.ahead.tokens e mid ∧
          (nextKind mid = .comma ∧ (∃ fs, ItemsAt close mid.tail fs rest ∧ es = e :: fs) ∨
            nextKind mid ≠ .comma ∧ (∃ c, mid = c :: rest ∧ c.kind = close) ∧ es = [e]) := by
      refine (hr.expression hw).bind fun e t mid ht hmid hsuf => Reads.upcoming ?_
      have hwm : Within m mid := hw.tail.suffix hsuf
      have hlt := hr.length_lt ht hsuf
      rw [kind_upcoming, hmid]
      split
      · rename_i hc
        have hpast : (past (past t)).ahead.tokens = mid.tail := by
          rw [past_tokens, past_tokens, hmid]
        have hlt' := length_tail_lt (show nextKind mid ≠ .eof by rw [hc]; decide)
        have hes := ih (s := past (past t)) (hpast ▸ hwm.tail) (by rw [hpast]; omega)
        refine (Reads.advance (Reads.advance (hes.map _))).congr fun es rest => ?_
        simp [hc, hmid]
      · rename_i hc
        refine ((Reads.expect heof hmid).map _).congr fun es rest => ?_
        simp [hc]
    refine hread.congr fun es rest => ⟨fun h => ?_, fun h => ?_⟩
    · cases h with
      | @last _ c _ _ e he hc =>
        exact ⟨e, c :: rest, he, .inr ⟨by simpa [hc] using hclose, ⟨c, rfl, hc⟩, rfl⟩⟩
      | @more _ c _ mid _ e fs he hc h =>
        exact ⟨e, c :: mid, he, .inl ⟨hc, fs, h, rfl⟩⟩
    · obtain ⟨e, mid, he, ⟨hc, fs, h, rfl⟩ | ⟨-, ⟨c, rfl, hc⟩, rfl⟩⟩ := h
      · obtain _ | ⟨c, mid⟩ := mid
        · cases hc
        · exact .more he hc h
      · exact .last he hc

/-- The closing token is one that no expression starts with. -/
theorem ReadsBelow.reads_list (hr : r.ReadsBelow m) (close : Kind) (hclose : close ≠ .comma)
    (heof : close ≠ .eof) (hhead : ∀ t us e rest, ¬ HeadAt close t us e rest)
    (hs : s.ahead.tokens.tail = ts) (hw : Within m ts) :
    Reads (r.list close) s (ListAt close ts) := by
  refine Reads.upcoming (Reads.advance ?_)
  rw [kind_upcoming, hs]
  split
  · rename_i hc
    have hpure : Reads (pure ([] : List Expr)) (past s) _ := Reads.pure [] rfl
    refine hpure.congr fun es rest => ?_
    rw [past_tokens, hs]
    obtain _ | ⟨c, us⟩ := ts
    · exact absurd hc.symm heof
    refine ⟨fun h => ?_, fun ⟨hes, hrest⟩ => ?_⟩
    · cases h with
      | none _ => exact ⟨rfl, rfl⟩
      | some h =>
        cases h with
        | last he _ | more he _ _ => exact absurd hc (he.nextKind_ne hhead)
    · rw [hes, hrest]; exact .none hc
  · rename_i hc
    have hp : (past s).ahead.tokens = ts := hs
    have hes := hr.reads_exprs hclose heof r.passes (s := past s) (hp ▸ hw)
      (hp ▸ Nat.lt_trans hw.length_lt hr.passes)
    rw [hp] at hes
    refine hes.congr fun es rest => ⟨fun h => ?_, .some⟩
    cases h with
    | none h => exact absurd h hc
    | some h => exact h

/-! ## Pairs -/

/-- Where a pair has ended: at the closing brace, or past a comma. -/
theorem reads_pairEnd (hs : s.ahead.tokens.tail = ts) :
    Reads pairEnd s fun _ rest =>
      nextKind ts = .rbrace ∧ rest = ts ∨ ∃ c, ts = c :: rest ∧ c.kind = .comma := by
  refine Reads.upcoming ?_
  rw [kind_upcoming, hs]
  split
  · rename_i hc
    refine (Reads.pure () hs).congr fun _ rest => ⟨fun h => ?_, fun h => .inl ⟨hc, h.2⟩⟩
    rcases h with ⟨-, h⟩ | ⟨c, rfl, hcomma⟩
    · exact ⟨rfl, h⟩
    · rw [nextKind_cons, hcomma] at hc; cases hc
  · rename_i hc
    refine (Reads.expect (by decide) hs).congr fun _ rest => ⟨fun h => ?_, .inr⟩
    rcases h with ⟨h, -⟩ | h
    · exact absurd h hc
    · exact h

/-- An expression after one more token. -/
theorem ReadsBelow.next (hr : r.ReadsBelow m) {p : Precedence} (hs : s.ahead.tokens.tail = ts)
    (hw : Within m ts) : Reads (r.expression p) (past s) (ExprAt p ts) := by
  have hp : (past s).ahead.tokens = ts := hs
  exact hp ▸ hr.expression (hp ▸ hw)

theorem ReadsBelow.reads_pairs (hr : r.ReadsBelow m) (k : Nat) {s : ParseState} {ts : List Token}
    (hs : s.ahead.tokens.tail = ts) (hw : Within m ts) (hk : ts.length < k) :
    Reads (r.pairs k) s (PairsAt ts) := by
  induction k generalizing s ts with
  | zero => exact absurd hk (Nat.not_lt_zero _)
  | succ k ih =>
    refine Reads.upcoming (Reads.advance ?_)
    rw [kind_upcoming, hs]
    split
    · rename_i hc
      have hpure : Reads (pure ([] : List (Expr × Expr))) (past s) _ := Reads.pure [] rfl
      refine hpure.congr fun kvs rest => ?_
      rw [past_tokens, hs]
      obtain _ | ⟨c, us⟩ := ts
      · cases hc
      refine ⟨fun h => ?_, fun ⟨hkvs, hrest⟩ => ?_⟩
      · cases h with
        | none _ => exact ⟨rfl, rfl⟩
        | last he | more he => exact absurd hc (he.nextKind_ne (by nofun))
      · rw [hkvs, hrest]; exact .none hc
    · rename_i hc
      have hread : Reads (do
          let key ← r.expression .lowest
          expect .colon
          advance
          let value ← r.expression .lowest
          pairEnd
          let rest ← r.pairs k
          pure ((key, value) :: rest)) (past s) fun kvs rest =>
            ∃ key m₁, ExprAt .lowest ts key m₁ ∧
              ∃ m₂, (∃ c, m₁ = c :: m₂ ∧ c.kind = .colon) ∧
                ∃ value m₃, ExprAt .lowest m₂ value m₃ ∧
                  ∃ m₄, (nextKind m₃ = .rbrace ∧ m₄ = m₃ ∨ ∃ c, m₃ = c :: m₄ ∧ c.kind = .comma) ∧
                    ∃ more, PairsAt m₄ more rest ∧ kvs = (key, value) :: more := by
        refine (hr.next hs hw).bind fun key t m₁ ht h₁ hm₁ => ?_
        have hlt := hr.length_lt ht hm₁
        rw [past_tokens, hs] at hm₁ hlt
        refine (Reads.expect (by decide) h₁).andThen fun u m₂ _ h₂ hm₂ => Reads.advance ?_
        rw [h₁] at hm₂
        have hw₂ : Within m m₂ := hw.tail.suffix (hm₂.trans hm₁)
        refine (hr.next h₂ hw₂).bind fun value v m₃ _ h₃ hm₃ => ?_
        rw [past_tokens, h₂] at hm₃
        refine (reads_pairEnd h₃).andThen fun w m₄ _ h₄ hm₄ => ?_
        rw [h₃] at hm₄
        have hsuf : m₄ <:+ m₁ := hm₄.trans (hm₃.trans ((List.tail_suffix m₂).trans hm₂))
        have hle := hsuf.length_le
        exact (ih h₄ (hw.tail.suffix (hsuf.trans hm₁)) (by omega)).map _
      refine hread.congr fun kvs rest => ⟨fun h => ?_, fun h => ?_⟩
      · cases h with
        | none h => exact absurd h hc
        | @last c b _ m₂ _ key value hkey hcolon hvalue hb =>
          exact ⟨key, _, hkey, m₂, ⟨c, rfl, hcolon⟩, value, _, hvalue, _, .inl ⟨hb, rfl⟩, [],
            .none hb, rfl⟩
        | @more c d _ m₂ m₄ _ key value more hkey hcolon hvalue hd hmore =>
          exact ⟨key, _, hkey, m₂, ⟨c, rfl, hcolon⟩, value, _, hvalue, m₄, .inr ⟨d, rfl, hd⟩,
            more, hmore, rfl⟩
      · obtain ⟨key, _, hkey, m₂, ⟨c, rfl, hcolon⟩, value, m₃, hvalue, m₄, hend, more, hmore,
          rfl⟩ := h
        rcases hend with ⟨hb, rfl⟩ | ⟨d, rfl, hd⟩
        · cases hmore with
          | none _ => exact .last hkey hcolon hvalue hb
          | last he | more he => exact absurd hb (he.nextKind_ne (by nofun))
        · exact .more hkey hcolon hvalue hd hmore

/-! ## Blocks that have to follow -/

theorem ReadsBelow.reads_blockAhead (hr : r.ReadsBelow m) (hs : s.ahead.tokens.tail = ts)
    (hw : Within m ts) : Reads r.blockAhead s (BlockAt ts) := by
  have hkind : s.ahead.upcoming.kind = nextKind ts := hs ▸ kind_upcoming s
  by_cases hc : nextKind ts = .lbrace
  · have hp : (past s).ahead.tokens = ts := hs
    exact Reads.expected (hkind.trans hc) (hp ▸ hr.block (hp ▸ hw) (hp ▸ hc))
  · refine Reads.unexpected (by rwa [hkind]) fun b rest h => ?_
    cases h with
    | mk ht _ => exact hc ht

theorem ReadsBelow.reads_elseBranch (hr : r.ReadsBelow m) (hs : s.ahead.tokens.tail = ts)
    (hw : Within m ts) : Reads r.elseBranch s (ElseAt ts) := by
  refine Reads.upcoming ?_
  rw [kind_upcoming, hs]
  split
  · rename_i hc
    have hp : (past s).ahead.tokens.tail = ts.tail := by rw [past_tokens, hs]
    refine (Reads.advance ((hr.reads_blockAhead hp hw.tail).map some)).congr fun b rest => ?_
    obtain _ | ⟨t, us⟩ := ts
    · cases hc
    refine ⟨fun h => ?_, fun ⟨b', h, hb⟩ => hb ▸ .some hc h⟩
    cases h with
    | none hne => exact absurd hc hne
    | some _ h => exact ⟨_, h, rfl⟩
  · rename_i hc
    refine (Reads.pure none hs).congr fun b rest => ⟨fun h => ?_, fun ⟨hb, hrest⟩ => ?_⟩
    · cases h with
      | none _ => exact ⟨rfl, rfl⟩
      | some ht _ => exact absurd ht hc
    · rw [hb, hrest]; exact .none hc

/-! ## Heads -/

theorem ReadsBelow.reads_unary (hr : r.ReadsBelow m) (t : Token) (op : UnaryOp)
    (hs : s.ahead.tokens.tail = ts) (hw : Within m ts) :
    Reads (r.unary t op) s fun e rest => ∃ e', ExprAt .unary ts e' rest ∧ e = .unary t op e' :=
  Reads.advance ((hr.next hs hw).map _)

theorem ReadsBelow.reads_group (hr : r.ReadsBelow m) (t : Token) (hs : s.ahead.tokens.tail = ts)
    (hw : Within m ts) : Reads r.group s (HeadAt .lparen t ts) := by
  have hread : Reads r.group s fun e rest => ∃ e' mid, ExprAt .lowest ts e' mid ∧
      ∃ mid', (∃ c, mid = c :: mid' ∧ c.kind = .rparen) ∧ e = e' ∧ rest = mid' :=
    Reads.advance <| (hr.next hs hw).bind fun e u mid _ hmid _ =>
      (Reads.expect (by decide) hmid).andThen fun v mid' _ hmid' _ => Reads.pure e hmid'
  refine hread.congr fun e rest => ⟨fun h => ?_, fun h => ?_⟩
  · cases h with
    | @group _ c _ _ e he hc => exact ⟨e, _, he, rest, ⟨c, rfl, hc⟩, rfl, rfl⟩
  · obtain ⟨e, _, he, rest, ⟨c, rfl, hc⟩, rfl, rfl⟩ := h
    exact .group he hc

theorem ReadsBelow.reads_conditional (hr : r.ReadsBelow m) (t : Token)
    (hs : s.ahead.tokens.tail = ts) (hw : Within m ts) :
    Reads (r.conditional t) s (HeadAt .ifKw t ts) := by
  have hread : Reads (r.conditional t) s fun e rest => ∃ test m₁, ExprAt .lowest ts test m₁ ∧
      ∃ yes m₂, BlockAt m₁ yes m₂ ∧ ∃ no, ElseAt m₂ no rest ∧ e = .ifElse t test yes no := by
    refine Reads.advance <| (hr.next hs hw).bind fun test u m₁ _ h₁ hm₁ => ?_
    rw [past_tokens, hs] at hm₁
    have hw₁ : Within m m₁ := hw.tail.suffix hm₁
    refine (hr.reads_blockAhead h₁ hw₁).bind fun yes v m₂ _ h₂ hm₂ => ?_
    rw [h₁] at hm₂
    exact (hr.reads_elseBranch h₂ (hw₁.suffix hm₂)).map _
  refine hread.congr fun e rest => ⟨fun h => ?_, fun h => ?_⟩
  · cases h with
    | @ifElse _ _ m₁ m₂ _ test yes no htest hyes hno =>
      exact ⟨test, m₁, htest, yes, m₂, hyes, no, hno, rfl⟩
  · obtain ⟨test, m₁, htest, yes, m₂, hyes, no, hno, rfl⟩ := h
    exact .ifElse htest hyes hno

theorem ReadsBelow.reads_function (hr : r.ReadsBelow m) (t : Token)
    (hs : s.ahead.tokens.tail = ts) (hw : Within m ts) :
    Reads (r.function t) s (HeadAt .fnKw t ts) := by
  have hread : Reads (r.function t) s fun e rest =>
      ∃ m₁, (∃ c, ts = c :: m₁ ∧ c.kind = .lparen) ∧
        ∃ ps m₂, ParamsAt m₁ ps m₂ ∧ ∃ body, BlockAt m₂ body rest ∧ e = .fn t ps body := by
    refine (Reads.expect (by decide) hs).andThen fun u m₁ _ h₁ hm₁ => ?_
    rw [hs] at hm₁
    have hw₁ : Within m m₁ := hw.suffix hm₁
    refine (hr.reads_params h₁ hw₁).bind fun ps v m₂ _ h₂ hm₂ => ?_
    rw [h₁] at hm₂
    exact (hr.reads_blockAhead h₂ (hw₁.suffix hm₂)).map _
  refine hread.congr fun e rest => ⟨fun h => ?_, fun h => ?_⟩
  · cases h with
    | @fn _ c m₁ m₂ _ ps body hc hps hbody =>
      exact ⟨m₁, ⟨c, rfl, hc⟩, ps, m₂, hps, body, hbody, rfl⟩
  · obtain ⟨m₁, ⟨c, rfl, hc⟩, ps, m₂, hps, body, hbody, rfl⟩ := h
    exact .fn hc hps hbody

theorem ReadsBelow.reads_loop (hr : r.ReadsBelow m) (t : Token)
    (hs : s.ahead.tokens.tail = ts) (hw : Within m ts) :
    Reads (r.loop t) s (HeadAt .forKw t ts) := by
  have hread : Reads (r.loop t) s fun e rest =>
      ∃ i m₁, (∃ c, ts = c :: m₁ ∧ c.kind = .ident ∧ i = .ofToken c) ∧
      ∃ m₂, (∃ c, m₁ = c :: m₂ ∧ c.kind = .comma) ∧
      ∃ v m₃, (∃ c, m₂ = c :: m₃ ∧ c.kind = .ident ∧ v = .ofToken c) ∧
      ∃ m₄, (∃ c, m₃ = c :: m₄ ∧ c.kind = .inKw) ∧
      ∃ x m₅, (∃ c, m₄ = c :: m₅ ∧ c.kind = .ident ∧ x = .ofToken c) ∧
      ∃ body, BlockAt m₅ body rest ∧ e = .forIn t i v x body := by
    refine (Reads.name hs).bind fun i u₁ m₁ _ h₁ hm₁ => ?_
    refine (Reads.expect (by decide) h₁).andThen fun u₂ m₂ _ h₂ hm₂ => ?_
    refine (Reads.name h₂).bind fun v u₃ m₃ _ h₃ hm₃ => ?_
    refine (Reads.expect (by decide) h₃).andThen fun u₄ m₄ _ h₄ hm₄ => ?_
    refine (Reads.name h₄).bind fun x u₅ m₅ _ h₅ hm₅ => ?_
    rw [hs] at hm₁
    rw [h₁] at hm₂
    rw [h₂] at hm₃
    rw [h₃] at hm₄
    rw [h₄] at hm₅
    have hsuf : m₅ <:+ ts := hm₅.trans (hm₄.trans (hm₃.trans (hm₂.trans hm₁)))
    exact (hr.reads_blockAhead h₅ (hw.suffix hsuf)).map _
  refine hread.congr fun e rest => ⟨fun h => ?_, fun h => ?_⟩
  · cases h with
    | @forIn _ i c v k x _ _ body hi hc hv hk hx hbody =>
      exact ⟨_, _, ⟨i, rfl, hi, rfl⟩, _, ⟨c, rfl, hc⟩, _, _, ⟨v, rfl, hv, rfl⟩, _, ⟨k, rfl, hk⟩,
        _, _, ⟨x, rfl, hx, rfl⟩, body, hbody, rfl⟩
  · obtain ⟨_, _, ⟨i, rfl, hi, rfl⟩, _, ⟨c, rfl, hc⟩, _, _, ⟨v, rfl, hv, rfl⟩, _, ⟨k, rfl, hk⟩,
      _, _, ⟨x, rfl, hx, rfl⟩, body, hbody, rfl⟩ := h
    exact .forIn hi hc hv hk hx hbody

/-- The digits of a token spell an integer exactly if their number fits. -/
theorem ofDigits?_eq_some_iff {t : Token} (ht : t.text.toList ≠ []) {n : Integer} :
    Integer.ofDigits? false t.text.toList = some n ↔
      decimal t.text ≤ 2 ^ 63 - 1 ∧ n = .ofNat (decimal t.text) := by
  have hdef : Integer.ofDigits? false t.text.toList = Integer.ofInt? (decimal t.text : Int) := by
    rw [Integer.ofDigits?, if_neg (by simpa using ht)]
    rfl
  rw [hdef, Integer.ofInt?_eq_some_iff]
  refine ⟨fun h => ?_, fun ⟨hle, hn⟩ => ?_⟩
  · have hlt := n.toInt_lt
    refine ⟨by omega, ?_⟩
    rw [← Int64.ofInt_toInt n, h]
    rfl
  · rw [hn, Int64.toInt_ofNat_of_lt (by omega)]

theorem ReadsBelow.reads_head (hr : r.ReadsBelow m) {t : Token} (hs : s.ahead.tokens = t :: ts)
    (ht : t.Proper) (hw : Within m ts) : Reads r.head s (HeadAt t.kind t ts) := by
  have htail : s.ahead.tokens.tail = ts := by rw [hs, List.tail_cons]
  have hcur : s.ahead.current = t := by rw [TokenStream.current, hs]; rfl
  -- A head that is the one token `t`.
  have hleaf {k : Kind} {e₀ : Expr} (hk : ∀ e rest, HeadAt k t ts e rest ↔ e = e₀ ∧ rest = ts) :
      Reads (pure e₀) s (HeadAt k t ts) := (Reads.pure e₀ htail).congr hk
  refine Reads.current ?_
  rw [hcur]
  split
  case h_1 hk =>
    rw [hk]
    exact hleaf fun e rest => ⟨fun h => by cases h; exact ⟨rfl, rfl⟩, fun ⟨he, hrest⟩ => by
      rw [he, hrest]; exact .name⟩
  case h_2 hk =>
    rw [hk]
    cases hn : Integer.ofDigits? false t.text.toList with
    | some n =>
      obtain ⟨hle, rfl⟩ := (ofDigits?_eq_some_iff (ht.digits hk)).1 hn
      exact hleaf fun e rest => ⟨fun h => by cases h; exact ⟨rfl, rfl⟩, fun ⟨he, hrest⟩ => by
        rw [he, hrest]; exact .int hle⟩
    | none =>
      refine Reads.fail _ fun e rest h => ?_
      cases h with
      | int hle =>
        rw [(ofDigits?_eq_some_iff (ht.digits hk)).2 ⟨hle, rfl⟩] at hn
        cases hn
  case h_3 hk =>
    rw [hk]
    exact hleaf fun e rest => ⟨fun h => by cases h; exact ⟨rfl, rfl⟩, fun ⟨he, hrest⟩ => by
      rw [he, hrest]; exact .str⟩
  case h_4 hk =>
    rw [hk]
    exact hleaf fun e rest => ⟨fun h => by cases h; exact ⟨rfl, rfl⟩, fun ⟨he, hrest⟩ => by
      rw [he, hrest]; exact .yes⟩
  case h_5 hk =>
    rw [hk]
    exact hleaf fun e rest => ⟨fun h => by cases h; exact ⟨rfl, rfl⟩, fun ⟨he, hrest⟩ => by
      rw [he, hrest]; exact .no⟩
  case h_6 hk =>
    rw [hk]
    exact hleaf fun e rest => ⟨fun h => by cases h; exact ⟨rfl, rfl⟩, fun ⟨he, hrest⟩ => by
      rw [he, hrest]; exact .null⟩
  case h_7 hk =>
    rw [hk]
    refine (hr.reads_unary t .not htail hw).congr fun e rest => ⟨fun h => ?_, fun h => ?_⟩
    · cases h with
      | not he => exact ⟨_, he, rfl⟩
    · obtain ⟨e', he, rfl⟩ := h
      exact .not he
  case h_8 hk =>
    rw [hk]
    refine (hr.reads_unary t .neg htail hw).congr fun e rest => ⟨fun h => ?_, fun h => ?_⟩
    · cases h with
      | neg he => exact ⟨_, he, rfl⟩
    · obtain ⟨e', he, rfl⟩ := h
      exact .neg he
  case h_9 hk => rw [hk]; exact hr.reads_group t htail hw
  case h_10 hk => rw [hk]; exact hr.reads_conditional t htail hw
  case h_11 hk => rw [hk]; exact hr.reads_function t htail hw
  case h_12 hk =>
    rw [hk]
    have hes := hr.reads_list .rbracket (by decide) (by decide) (by nofun) htail hw
    refine (hes.map _).congr fun e rest => ⟨fun h => ?_, fun ⟨es, h, he⟩ => he ▸ .array h⟩
    cases h with
    | array h => exact ⟨_, h, rfl⟩
  case h_13 hk =>
    rw [hk]
    have hkvs := hr.reads_pairs r.passes htail hw (Nat.lt_trans hw.length_lt hr.passes)
    refine (hkvs.map _).congr fun e rest => ⟨fun h => ?_, fun ⟨kvs, h, he⟩ => he ▸ .hash h⟩
    cases h with
    | hash h => exact ⟨_, h, rfl⟩
  case h_14 hk => rw [hk]; exact hr.reads_loop t htail hw
  case h_15 =>
    refine Reads.fail _ fun e rest h => ?_
    generalize hk : t.kind = k at h
    cases h <;> contradiction

/-! ## Suffixes -/

theorem ReadsBelow.reads_extend (hr : r.ReadsBelow m) (left : Expr) (suffix : Suffix) {t : Token}
    (hs : s.ahead.tokens = t :: ts) (hw : Within m ts) :
    Reads (r.extend left suffix) s (SuffixAt left suffix t ts) := by
  have htail : s.ahead.tokens.tail = ts := by rw [hs, List.tail_cons]
  have hcur : s.ahead.current = t := by rw [TokenStream.current, hs]; rfl
  cases suffix with
  | binary op =>
    refine Reads.current (Reads.advance ?_)
    rw [hcur]
    refine ((hr.next htail hw).map _).congr fun e rest =>
      ⟨fun h => ?_, fun ⟨right, h, he⟩ => he ▸ .binary h⟩
    cases h with
    | binary h => exact ⟨_, h, rfl⟩
  | call =>
    refine Reads.current ?_
    rw [hcur]
    have hes := hr.reads_list .rparen (by decide) (by decide) (by nofun) htail hw
    refine (hes.map _).congr fun e rest => ⟨fun h => ?_, fun ⟨es, h, he⟩ => he ▸ .call h⟩
    cases h with
    | call h => exact ⟨_, h, rfl⟩
  | index =>
    have hread : Reads (r.extend left .index) s fun e rest =>
        ∃ i mid, ExprAt .lowest ts i mid ∧ ∃ mid', (∃ c, mid = c :: mid' ∧ c.kind = .rbracket) ∧
          e = .index t left i ∧ rest = mid' := by
      refine Reads.current (Reads.advance ?_)
      rw [hcur]
      exact (hr.next htail hw).bind fun i u mid _ hmid _ =>
        (Reads.expect (by decide) hmid).andThen fun v mid' _ hmid' _ => Reads.pure _ hmid'
    refine hread.congr fun e rest => ⟨fun h => ?_, fun h => ?_⟩
    · cases h with
      | @index _ i _ c _ _ hi hc => exact ⟨i, _, hi, rest, ⟨c, rfl, hc⟩, rfl, rfl⟩
    · obtain ⟨i, _, hi, _, ⟨c, rfl, hc⟩, rfl, rfl⟩ := h
      exact .index hi hc
  | assign =>
    refine Reads.current ?_
    rw [hcur]
    cases left with
    | ident x =>
      refine (Reads.advance ((hr.next htail hw).map _)).congr fun e rest =>
        ⟨fun h => ?_, fun ⟨e', h, he⟩ => he ▸ .assign h⟩
      cases h with
      | assign h => exact ⟨_, h, rfl⟩
    | _ => exact Reads.fail _ (by nofun)

theorem ReadsBelow.reads_suffixes (hr : r.ReadsBelow m) (p : Precedence) (k : Nat) (left : Expr)
    {s : ParseState} {ts : List Token} (hs : s.ahead.tokens.tail = ts) (hw : Within m ts)
    (hk : ts.length < k) : Reads (r.suffixes p k left) s (SuffixesAt p left ts) := by
  induction k generalizing s ts left with
  | zero => exact absurd hk (Nat.not_lt_zero _)
  | succ k ih =>
    -- Where no suffix binds tighter than `p`, the expression ends.
    have hstop (hno : ∀ x, Suffix.ofKind (nextKind ts) = some x → ¬ p < x.precedence) :
        Reads (pure left) s (SuffixesAt p left ts) := by
      refine (Reads.pure left hs).congr fun e rest => ⟨fun h => ?_, fun ⟨he, hrest⟩ => ?_⟩
      · cases h with
        | stop _ => exact ⟨rfl, rfl⟩
        | more hsuffix hp _ _ => exact absurd hp (hno _ hsuffix)
      · rw [he, hrest]; exact .stop hno
    refine Reads.upcoming ?_
    rw [kind_upcoming, hs]
    cases hsuffix : Suffix.ofKind (nextKind ts) with
    | none => exact hstop fun x hx => by rw [hsuffix] at hx; cases hx
    | some suffix =>
      dsimp only
      split
      · rename_i hp
        obtain _ | ⟨t, us⟩ := ts
        · cases hsuffix
        have hps : (past s).ahead.tokens = t :: us := hs
        have hread := (hr.reads_extend left suffix hps hw.tail).bind fun e u mid _ hmid hsuf =>
          ih e hmid (hw.tail.suffix (by rwa [hps] at hsuf))
            (by
              rw [hps] at hsuf
              exact Nat.lt_of_le_of_lt hsuf.length_le (Nat.lt_of_succ_lt_succ hk))
        refine (Reads.advance hread).congr fun e rest => ⟨fun h => ?_, fun h => ?_⟩
        · cases h with
          | stop hno => exact absurd hp (hno _ hsuffix)
          | @more _ _ e' _ x _ _ mid _ hx _ hone hmore =>
            rw [nextKind_cons, hx] at hsuffix
            obtain rfl := Option.some.inj hsuffix
            exact ⟨e', mid, hone, hmore⟩
        · obtain ⟨e', mid, hone, hmore⟩ := h
          exact .more hsuffix hp hone hmore
      · rename_i hp
        exact hstop fun x hx => by rw [hsuffix] at hx; rwa [← Option.some.inj hx]

/-! ## Expressions -/

/-- Nothing starts on the end of the source. -/
theorem head_nil {s : ParseState} (hs : s.ahead.tokens = []) :
    r.head s = .error (.noExpressionAt s.ahead.current) s := by
  have hcur : s.ahead.current.kind = .eof := by rw [kind_current, hs]; rfl
  rw [head, Parse.current, Run.bind_apply, Run.read_apply]
  dsimp only
  rw [hcur]
  rfl

theorem climb_start {p : Precedence} {t : ParseState} {e : Expr} (h : r.climb p s = .ok e t) :
    s.ahead.tokens ≠ [] := by
  intro hs
  obtain ⟨left, u, hu, -⟩ := Run.bind_eq_ok_iff.1 h
  rw [head_nil hs] at hu
  cases hu

theorem ReadsBelow.reads_climb (hr : r.ReadsBelow m) (p : Precedence)
    (hw : Within (m + 1) s.ahead.tokens) : Reads (r.climb p) s (ExprAt p s.ahead.tokens) := by
  cases hs : s.ahead.tokens with
  | nil =>
    refine (Reads.fail (.noExpressionAt s.ahead.current) (by nofun)).of_eq ?_
    rw [climb, Run.bind_apply, head_nil hs]
    rfl
  | cons t ts =>
    rw [hs] at hw
    have hwt : Within m ts := ⟨Nat.lt_of_succ_lt_succ hw.length_lt, fun u hu =>
      hw.proper u (List.mem_cons_of_mem _ hu)⟩
    have hread := (hr.reads_head hs (hw.proper t List.mem_cons_self) hwt).bind
      fun left u mid _ hmid hsuf => by
        rw [hs, List.tail_cons] at hsuf
        have hwm := hwt.suffix hsuf
        exact hr.reads_suffixes p r.passes left hmid hwm
          (Nat.lt_trans hwm.length_lt hr.passes)
    refine hread.congr fun e rest => ⟨fun h => ?_, fun ⟨left, mid, hhead, h⟩ => .mk hhead h⟩
    cases h with
    | mk hhead h => exact ⟨_, _, hhead, h⟩

/-! ## Statements -/

theorem ReadsBelow.reads_declaration (hr : r.ReadsBelow m) (t : Token) (constant : Bool)
    (hs : s.ahead.tokens.tail = ts) (hw : Within m ts) :
    Reads (r.declaration t constant) s fun st rest => ∃ x a us e, ts = x :: a :: us ∧
      x.kind = .ident ∧ a.kind = .assign ∧ ExprAt .lowest us e rest ∧
      st = .declare t constant (.ofToken x) e := by
  have hread : Reads (r.declaration t constant) s fun st rest =>
      ∃ x m₁, (∃ c, ts = c :: m₁ ∧ c.kind = .ident ∧ x = .ofToken c) ∧
        ∃ m₂, (∃ c, m₁ = c :: m₂ ∧ c.kind = .assign) ∧
          ∃ e, ExprAt .lowest m₂ e rest ∧ st = .declare t constant x e := by
    refine (Reads.name hs).bind fun x u m₁ _ h₁ hm₁ => ?_
    refine (Reads.expect (by decide) h₁).andThen fun v m₂ _ h₂ hm₂ => Reads.advance ?_
    rw [hs] at hm₁
    rw [h₁] at hm₂
    exact (hr.next h₂ (hw.suffix (hm₂.trans hm₁))).map _
  refine hread.congr fun st rest => ⟨fun h => ?_, fun h => ?_⟩
  · obtain ⟨x, a, us, e, rfl, hx, ha, he, rfl⟩ := h
    exact ⟨_, _, ⟨x, rfl, hx, rfl⟩, us, ⟨a, rfl, ha⟩, e, he, rfl⟩
  · obtain ⟨_, _, ⟨x, rfl, hx, rfl⟩, us, ⟨a, rfl, ha⟩, e, he, rfl⟩ := h
    exact ⟨x, a, us, e, rfl, hx, ha, he, rfl⟩

theorem ReadsBelow.reads_bareStatement (hr : r.ReadsBelow m) (hw : Within m s.ahead.tokens) :
    Reads r.bareStatement s (BareStmtAt s.ahead.tokens) := by
  refine Reads.current ?_
  rw [kind_current]
  cases hs : s.ahead.tokens with
  | nil =>
    have hexpr := hr.expression (p := .lowest) hw
    rw [hs] at hexpr
    refine (hexpr.map _).congr fun st rest => ⟨fun h => ?_, fun ⟨e, he, _⟩ => ?_⟩
    · cases h
    · cases he
  | cons t ts =>
    have htail : s.ahead.tokens.tail = ts := by rw [hs, List.tail_cons]
    have hcur : s.ahead.current = t := by rw [TokenStream.current, hs]; rfl
    rw [hs] at hw
    have hwt : Within m ts := hw.tail
    rw [nextKind_cons, hcur]
    split
    case h_1 hk =>
      refine (hr.reads_declaration t false htail hwt).congr fun st rest => ⟨fun h => ?_, ?_⟩
      · cases h with
        | letName _ hx ha he => exact ⟨_, _, _, _, rfl, hx, ha, he, rfl⟩
        | constName ht _ _ _ | ret ht _ => rw [hk] at ht; cases ht
        | expr he => exact absurd hk (he.nextKind_ne (by nofun))
      · rintro ⟨x, a, us, e, rfl, hx, ha, he, rfl⟩
        exact .letName hk hx ha he
    case h_2 hk =>
      refine (hr.reads_declaration t true htail hwt).congr fun st rest => ⟨fun h => ?_, ?_⟩
      · cases h with
        | constName _ hx ha he => exact ⟨_, _, _, _, rfl, hx, ha, he, rfl⟩
        | letName ht _ _ _ | ret ht _ => rw [hk] at ht; cases ht
        | expr he => exact absurd hk (he.nextKind_ne (by nofun))
      · rintro ⟨x, a, us, e, rfl, hx, ha, he, rfl⟩
        exact .constName hk hx ha he
    case h_3 hk =>
      refine (Reads.advance ((hr.next htail hwt).map _)).congr fun st rest =>
        ⟨fun h => ?_, fun ⟨e, he, hst⟩ => hst ▸ .ret hk he⟩
      cases h with
      | ret _ he => exact ⟨_, he, rfl⟩
      | letName ht _ _ _ | constName ht _ _ _ => rw [hk] at ht; cases ht
      | expr he => exact absurd hk (he.nextKind_ne (by nofun))
    case h_4 hlet hconst hret =>
      have hexpr := hr.expression (p := .lowest) (s := s) (hs ▸ hw)
      rw [hs] at hexpr
      refine (hexpr.map _).congr fun st rest => ⟨fun h => ?_, fun ⟨e, he, hst⟩ => hst ▸ .expr he⟩
      cases h with
      | letName ht _ _ _ => exact absurd ht hlet
      | constName ht _ _ _ => exact absurd ht hconst
      | ret ht _ => exact absurd ht hret
      | expr he => exact ⟨_, he, rfl⟩

theorem ReadsBelow.reads_statement (hr : r.ReadsBelow m) (hw : Within m s.ahead.tokens) :
    Reads r.statement s (StmtAt s.ahead.tokens) := by
  have hread : Reads r.statement s fun st rest => ∃ st' mid, BareStmtAt s.ahead.tokens st' mid ∧
      ∃ mid', ((∃ c, mid = c :: mid' ∧ c.kind = .semicolon) ∨
        nextKind mid ≠ .semicolon ∧ mid' = mid) ∧ st = st' ∧ rest = mid' :=
    (hr.reads_bareStatement hw).bind fun st t mid _ hmid _ =>
      (Reads.skip (by decide) hmid).andThen fun u mid' _ hmid' _ => Reads.pure st hmid'
  refine hread.congr fun st rest => ⟨fun h => ?_, fun h => ?_⟩
  · cases h with
    | @ended _ _ c _ h hc => exact ⟨st, _, h, rest, .inl ⟨c, rfl, hc⟩, rfl, rfl⟩
    | bare h hne => exact ⟨st, rest, h, rest, .inr ⟨hne, rfl⟩, rfl, rfl⟩
  · obtain ⟨st, mid, h, rest, ⟨c, rfl, hc⟩ | ⟨hne, rfl⟩, rfl, rfl⟩ := h
    · exact .ended h hc
    · exact .bare h hne

/-! ## Lists of statements -/

theorem passBroken_apply (b : ParseState) :
    passBroken b = .ok () (if nextKind b.ahead.tokens = .rbrace then b else past b) := by
  rw [passBroken, Parse.current, Run.bind_apply, Run.read_apply]
  dsimp only
  rw [kind_current]
  split <;> rfl

theorem moves_passBroken (b : ParseState) : Moves passBroken b where
  ok h := by
    rw [passBroken_apply] at h
    cases h
    split
    · exact Onward.refl b
    · exact onward_past b
  error h := by rw [passBroken_apply] at h; cases h
  ends := by rw [passBroken_apply]; nofun

/-- After a statement that was given up, something of the source is used up: at the least, the
closing brace of the block has been reached. -/
theorem length_passBroken_lt {b u : ParseState} (hb : b.ahead.tokens <:+ s.ahead.tokens)
    (hbrace : nextKind s.ahead.tokens ≠ .rbrace) (heof : nextKind s.ahead.tokens ≠ .eof)
    (hu : passBroken b = .ok () u) : u.ahead.tokens.length < s.ahead.tokens.length := by
  have hpos := length_tail_lt heof
  have hle := hb.length_le
  rw [passBroken_apply] at hu
  cases hu
  split
  · rename_i hc
    have hne : b.ahead.tokens ≠ s.ahead.tokens := fun h => hbrace (h ▸ hc)
    exact Nat.lt_of_le_of_ne hle fun h => hne (hb.eq_of_length h)
  · rw [past_tokens, List.length_tail]
    rw [List.length_tail] at hpos
    omega

theorem stmtsAt_end_iff {rest : List Token} {ss : List Stmt} (hw : Within m ts)
    (hc : nextKind ts = .rbrace ∨ nextKind ts = .eof) :
    StmtsAt ts ss rest ↔ ss = [] ∧ rest = ts.tail := by
  refine ⟨fun h => ?_, fun ⟨hss, hrest⟩ => ?_⟩
  · cases h with
    | close _ | finish => exact ⟨rfl, rfl⟩
    | more h _ =>
      rcases hc with hc | hc
      · exact absurd hc (h.nextKind_ne (by nofun) rfl)
      · exact absurd hc (h.nextKind_ne (by nofun) rfl)
  · rw [hss, hrest]
    obtain _ | ⟨t, ts⟩ := ts
    · exact .finish
    · rcases hc with hc | hc
      · exact .close hc
      · exact absurd hc (hw.proper t List.mem_cons_self).kind_ne_eof

theorem ReadsBelow.reads_blockStmts (hr : r.ReadsBelow m) (k : Nat) {s : ParseState}
    (hw : Within m s.ahead.tokens) (hk : s.ahead.tokens.length < k) :
    Reads (r.blockStmts k) s (StmtsAt s.ahead.tokens) := by
  induction k generalizing s with
  | zero => exact absurd hk (Nat.not_lt_zero _)
  | succ k ih =>
    refine Reads.current ?_
    rw [kind_current]
    split
    · rename_i hc
      exact (Reads.pure [] rfl).congr fun ss rest => stmtsAt_end_iff hw hc
    · rename_i hc
      obtain ⟨hbrace, heof⟩ := not_or.1 hc
      have hpos := length_tail_lt heof
      have hstmt := hr.reads_statement hw
      refine (Reads.recover hstmt
        (E := fun st mid ss rest => ∃ ss', StmtsAt mid ss' rest ∧ ss = st :: ss')
        (fun st t mid _ hmid hsuf => ?_) fun d t ht => ?_).congr fun ss rest =>
          ⟨fun h => ?_, fun ⟨st, mid, hst, ss', hss, h⟩ => h ▸ .more hst hss⟩
      · have hpast : (past t).ahead.tokens = mid := hmid
        have hle := hsuf.length_le
        have hrest := ih (s := past t) (hpast ▸ hw.tail.suffix hsuf) (by rw [hpast]; omega)
        rw [hpast] at hrest
        exact Reads.advance (hrest.map _)
      · have hon : Onward s (broken d t) := (hstmt.error ht).trans (onward_broken d t)
        refine (moves_passBroken _).bind fun _ u hu => ?_
        have hlt := length_passBroken_lt hon.ahead hbrace heof hu
        have hsuf := (hon.trans ((moves_passBroken _).ok hu)).ahead
        exact (ih (hw.suffix hsuf) (by omega)).toMoves
      · generalize s.ahead.tokens = ts at h hbrace heof
        cases h with
        | close hc => exact absurd hc hbrace
        | finish => exact absurd rfl heof
        | more hst hss => exact ⟨_, _, hst, _, hss, rfl⟩

theorem ReadsBelow.reads_braces (hr : r.ReadsBelow m) (hw : Within (m + 1) s.ahead.tokens)
    (hc : nextKind s.ahead.tokens = .lbrace) : Reads r.braces s (BlockAt s.ahead.tokens) := by
  obtain ⟨hs, hk⟩ := tokens_eq_cons hc (by decide)
  have hpast : (past s).ahead.tokens = s.ahead.tokens.tail := rfl
  have hwt : Within m s.ahead.tokens.tail := by
    refine ⟨?_, hw.tail.proper⟩
    have := length_tail_lt (show nextKind s.ahead.tokens ≠ .eof by rw [hc]; decide)
    have := hw.length_lt
    omega
  have hss := hr.reads_blockStmts r.passes (s := past s) hwt
    (Nat.lt_trans hwt.length_lt hr.passes)
  rw [hpast] at hss
  refine (Reads.current (Reads.advance (hss.map _))).congr fun b rest => ?_
  rw [hs]
  refine ⟨fun h => ?_, fun ⟨ss, h, hb⟩ => hb ▸ .mk hk h⟩
  cases h with
  | mk _ h => exact ⟨_, h, rfl⟩

/-- The statements of a program, and nothing after them. -/
theorem ReadsBelow.reads_programStmts (hr : r.ReadsBelow m) (k : Nat) {s : ParseState}
    (hw : Within m s.ahead.tokens) (hk : s.ahead.tokens.length < k) :
    Reads (r.programStmts k) s fun ss rest => ProgramAt s.ahead.tokens ss ∧ rest = [] := by
  induction k generalizing s with
  | zero => exact absurd hk (Nat.not_lt_zero _)
  | succ k ih =>
    refine Reads.current ?_
    rw [kind_current]
    split
    · rename_i hc
      have hs : s.ahead.tokens = [] := by
        cases hs : s.ahead.tokens with
        | nil => rfl
        | cons t ts =>
          rw [hs] at hc
          exact absurd hc (hw.proper t (hs ▸ List.mem_cons_self)).kind_ne_eof
      refine (Reads.pure [] rfl).congr fun ss rest => ?_
      rw [hs]
      refine ⟨fun ⟨h, hrest⟩ => ?_, fun ⟨hss, hrest⟩ => ⟨hss ▸ .finish, hrest⟩⟩
      cases h with
      | finish => exact ⟨rfl, hrest⟩
      | more h _ => exact absurd rfl (h.nextKind_ne (by nofun) rfl)
    · rename_i heof
      have hpos := length_tail_lt heof
      have hstmt := hr.reads_statement hw
      -- Past the current token there is less, however the statement went.
      have hrest {t : ParseState} (hon : Onward s t) :
          Reads (r.programStmts k) (past t) fun ss rest =>
            ProgramAt t.ahead.tokens.tail ss ∧ rest = [] :=
        have hle := hon.tail.length_le
        ih (s := past t) (hw.tail.suffix hon.tail) (by rw [past_tokens]; omega)
      refine (Reads.recover hstmt
        (E := fun st mid ss rest => ∃ ss', (ProgramAt mid ss' ∧ rest = []) ∧ ss = st :: ss')
        (fun st t mid ht hmid _ => ?_) fun d t ht => ?_).congr fun ss rest => ⟨fun h => ?_, ?_⟩
      · have := hrest (hstmt.ok ht)
        rw [hmid] at this
        exact Reads.advance (this.map _)
      · exact (Reads.advance ((hrest ((hstmt.error ht).trans (onward_broken d t))).map
          fun ss => [] ++ ss)).toMoves
      · obtain ⟨h, hrest⟩ := h
        generalize s.ahead.tokens = ts at h heof
        cases h with
        | finish => exact absurd rfl heof
        | more hst hss => exact ⟨_, _, hst, _, ⟨hss, hrest⟩, rfl⟩
      · rintro ⟨st, mid, hst, ss', ⟨hss, hrest⟩, rfl⟩
        exact ⟨.more hst hss, hrest⟩

end Rules

/-! ## Nesting -/

/-- **Every level of the rules reads the grammar** where fewer tokens are ahead than there are
levels. -/
theorem readsBelow_rules (n : Nat) : (rules n).ReadsBelow n := by
  induction n with
  | zero =>
    exact ⟨fun h => absurd h.length_lt (Nat.not_lt_zero _), nofun,
      fun h => absurd h.length_lt (Nat.not_lt_zero _), Nat.zero_lt_one⟩
  | succ n ih =>
    exact ⟨fun h => (ih.reads_climb _ h).of_eq rfl, fun h => Rules.climb_start h,
      fun h hc => (ih.reads_braces h hc).of_eq rfl, Nat.lt_succ_self _⟩

end Parse

end Scriptlet
