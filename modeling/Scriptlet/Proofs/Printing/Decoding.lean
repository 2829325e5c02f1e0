import Scriptlet.Proofs.Printing.Rereading

/-!
# The canonical text shows the tree

**Theorem (`bare_eq_of_render_eq`).** If no call is of an assignment, expressions with the same
canonical text are the same up to tokens.

The condition is needed: an assignment that is called gets no parentheses, so `(x = y)(z)` and
`x = y(z)` have one text (`render_called_assignment`).

The proof reads a list of words off from the front and finds that no two expressions start it
(`Decodes`). The one form that shows what it is only at its end is the call, so the arguments of
the calls around an expression are kept beside it while it is taken apart. What follows an
expression may again start with a parenthesis, where a statement follows in a block. It then opens
an operator or an index (`Opens`), which are never taken for arguments.
-/

namespace Scriptlet

/-! ## Plain trees -/

/-- If it is a call, then not of an assignment. -/
def Expr.CallsNoAssign : Expr → Prop
  | .call _ f _ => f.isAssign = false
  | _ => True

/-- It can be written, and it is no call of an assignment. -/
def Expr.PlainNode (e : Expr) : Prop := e.Written ∧ e.CallsNoAssign

def PlainList (ss : List Stmt) : Prop := StmtsWritten ss ∧ True

/-- The whole tree can be written, and no call in it is of an assignment. -/
def Expr.Plain (e : Expr) : Prop := e.Every Expr.PlainNode PlainList

/-! ## What may follow -/

/-- What follows neither goes on with an expression nor starts with a parenthesis. -/
structure Strict (rest : List Token) : Prop where
  lparen : nextKind rest ≠ .lparen
  assign : nextKind rest ≠ .assign
  elseKw : nextKind rest ≠ .elseKw

/-- The words of `e` show where `e` ends and what it is. -/
def Shown (e : Expr) : Prop :=
  ∀ ⦃e' : Expr⦄ ⦃r r' : List Token⦄, e'.Plain → Strict r → Strict r' →
    e.words ++ r = e'.words ++ r' → e.bare = e'.bare ∧ r = r'

/-- An operator or an index in parentheses comes first. Its left operand has `D`. -/
def Opens (D : Expr → Prop) (ts : List Token) : Prop :=
  (∃ (op : UnaryOp) (us : List Token), ts = Kind.lparen.mark :: op.kind.mark :: us) ∨
    ∃ (l : Expr) (c : Token) (us : List Token), D l ∧ l.Plain ∧ Strict (c :: us) ∧
      c.kind ≠ .comma ∧ c.kind ≠ .rparen ∧ ts = Kind.lparen.mark :: (l.words ++ c :: us)

/-- What may follow an expression, in a statement too. -/
structure Follows (D : Expr → Prop) (rest : List Token) : Prop where
  assign : nextKind rest ≠ .assign
  elseKw : nextKind rest ≠ .elseKw
  opens : nextKind rest = .lparen → Opens D rest

theorem Strict.follows {D : Expr → Prop} {rest : List Token} (h : Strict rest) : Follows D rest :=
  ⟨h.assign, h.elseKw, fun hk => absurd hk h.lparen⟩

theorem strict_mark {k : Kind} (hk : k ∉ [Kind.lparen, .assign, .elseKw]) (rest : List Token) :
    Strict (k.mark :: rest) := by
  simp only [List.mem_cons, List.not_mem_nil, or_false, not_or] at hk
  exact ⟨hk.1, hk.2.1, hk.2.2⟩

theorem strict_comma (rest : List Token) : Strict (Kind.comma.mark :: rest) :=
  strict_mark (by decide) rest

theorem strict_colon (rest : List Token) : Strict (Kind.colon.mark :: rest) :=
  strict_mark (by decide) rest

theorem BinaryOp.strict (op : BinaryOp) (rest : List Token) : Strict (op.kind.mark :: rest) := by
  cases op <;> exact strict_mark (by decide) rest

theorem Expr.words_ne_cons (e : Expr) {t : Token} (ht : t.kind.leads = false) {r r' : List Token} :
    e.words ++ r ≠ t :: r' := by
  obtain ⟨u, us, hws, hu⟩ := e.exists_words
  intro h
  rw [hws, List.cons_append] at h
  obtain ⟨rfl, -⟩ := List.cons.inj h
  rw [ht] at hu
  cases hu

@[simp] theorem Kind.mark_inj {k k' : Kind} : k.mark = k'.mark ↔ k = k' :=
  ⟨fun h => congrArg Token.kind h, fun h => congrArg mark h⟩

theorem Ident.word_inj {x y : Ident} (h : x.word = y.word) : x.bare = y.bare := by
  rw [bare, bare, (Token.mk.inj h).2.1]

theorem UnaryOp.kind_inj {op op' : UnaryOp} (h : op.kind = op'.kind) : op = op' := by
  cases op <;> cases op' <;> first | rfl | cases h

theorem BinaryOp.kind_inj {op op' : BinaryOp} (h : op.kind = op'.kind) : op = op' := by
  cases op <;> cases op' <;> first | rfl | cases h

theorem UnaryOp.leads_kind (op : UnaryOp) : op.kind.leads = false := by cases op <;> rfl

/-! ## Lists with commas -/

/-- The first item of a list ends at a comma or at the closing token. -/
theorem separated_cons (ws : List Token) (wss : List (List Token)) (k : Kind) (r : List Token) :
    ∃ c us, separated (ws :: wss) ++ k.mark :: r = ws ++ c :: us ∧
      (c = Kind.comma.mark ∨ c = k.mark) := by
  cases wss with
  | nil => exact ⟨k.mark, r, by simp [separated], .inr rfl⟩
  | cons ws' wss =>
    exact ⟨Kind.comma.mark, separated (ws' :: wss) ++ k.mark :: r,
      by simp [separated, List.intercalate_cons_cons], .inl rfl⟩

/-- Kinds that close a list. -/
structure Closes (k : Kind) : Prop where
  strict : ∀ r, Strict (k.mark :: r)
  comma : k ≠ .comma
  leads : k.leads = false

theorem closes_rparen : Closes .rparen := ⟨strict_mark (by decide), nofun, rfl⟩

theorem closes_rbracket : Closes .rbracket := ⟨strict_mark (by decide), nofun, rfl⟩

theorem closes_rbrace : Closes .rbrace := ⟨strict_mark (by decide), nofun, rfl⟩

/-- A list shows its items if each of them is shown. -/
theorem separated_shown {α β : Type} (f : α → List Token) (g : α → β) {k : Kind} (hk : Closes k)
    {r r' : List Token} : ∀ (xs ys : List α),
    (∀ x ∈ xs, ∀ y ∈ ys, ∀ {r r'}, Strict r → Strict r' → f x ++ r = f y ++ r' →
      g x = g y ∧ r = r') →
    (∀ x ∈ xs ++ ys, ∀ t, t.kind.leads = false → ∀ r r', f x ++ r ≠ t :: r') →
    separated (xs.map f) ++ k.mark :: r = separated (ys.map f) ++ k.mark :: r' →
    xs.map g = ys.map g ∧ r = r'
  | [], [], _, _, h => ⟨rfl, (List.cons.inj h).2⟩
  | [], y :: ys, _, hlead, h => by
    obtain ⟨c, us, hc, -⟩ := separated_cons (f y) (ys.map f) k r'
    rw [List.map_cons, hc] at h
    exact absurd h.symm (hlead y (by simp) _ hk.leads _ _)
  | x :: xs, [], _, hlead, h => by
    obtain ⟨c, us, hc, -⟩ := separated_cons (f x) (xs.map f) k r
    rw [List.map_cons, hc] at h
    exact absurd h (hlead x (by simp) _ hk.leads _ _)
  | [x], [y], hitem, _, h => by
    have h : f x ++ k.mark :: r = f y ++ k.mark :: r' := by simpa [separated] using h
    obtain ⟨hg, hr⟩ := hitem x (by simp) y (by simp) (hk.strict r) (hk.strict r') h
    exact ⟨by simp [hg], (List.cons.inj hr).2⟩
  | [x], y :: y' :: ys, hitem, _, h => by
    have h : f x ++ k.mark :: r = f y ++ Kind.comma.mark ::
        (separated ((y' :: ys).map f) ++ k.mark :: r') := by
      simpa [separated, List.intercalate_cons_cons] using h
    obtain ⟨-, hr⟩ := hitem x (by simp) y (by simp) (hk.strict r) (strict_comma _) h
    exact absurd (Kind.mark_inj.1 (List.cons.inj hr).1) hk.comma
  | x :: x' :: xs, [y], hitem, _, h => by
    have h : f x ++ Kind.comma.mark :: (separated ((x' :: xs).map f) ++ k.mark :: r) =
        f y ++ k.mark :: r' := by
      simpa [separated, List.intercalate_cons_cons] using h
    obtain ⟨-, hr⟩ := hitem x (by simp) y (by simp) (strict_comma _) (hk.strict r') h
    exact absurd (Kind.mark_inj.1 (List.cons.inj hr).1).symm hk.comma
  | x :: x' :: xs, y :: y' :: ys, hitem, hlead, h => by
    have h : f x ++ Kind.comma.mark :: (separated ((x' :: xs).map f) ++ k.mark :: r) =
        f y ++ Kind.comma.mark :: (separated ((y' :: ys).map f) ++ k.mark :: r') := by
      simpa [separated, List.intercalate_cons_cons] using h
    obtain ⟨hg, hr⟩ := hitem x (by simp) y (by simp) (strict_comma _) (strict_comma _) h
    obtain ⟨hgs, hr⟩ := separated_shown f g hk (x' :: xs) (y' :: ys)
      (fun x hx y hy => hitem x (List.mem_cons_of_mem _ hx) y (List.mem_cons_of_mem _ hy))
      (fun z hz => hlead z (by simp at hz ⊢; tauto)) (List.cons.inj hr).2
    exact ⟨congrArg₂ List.cons hg hgs, hr⟩

theorem exprs_shown {k : Kind} (hk : Closes k) {es es' : List Expr} {r r' : List Token}
    (hes : ∀ e ∈ es, Shown e) (hes' : ∀ e ∈ es', e.Plain)
    (h : separated (wordsExprs es) ++ k.mark :: r = separated (wordsExprs es') ++ k.mark :: r') :
    bareExprs es = bareExprs es' ∧ r = r' := by
  rw [wordsExprs_eq_map, wordsExprs_eq_map] at h
  rw [bareExprs_eq_map, bareExprs_eq_map]
  exact separated_shown _ _ hk es es' (fun e he e' he' => hes e he (hes' e' he'))
    (fun e _ t ht r r' => e.words_ne_cons ht) h

theorem names_shown {xs ys : List Ident} {r r' : List Token}
    (h : separated (xs.map fun x => [x.word]) ++ Kind.rparen.mark :: r =
      separated (ys.map fun x => [x.word]) ++ Kind.rparen.mark :: r') :
    xs.map Ident.bare = ys.map Ident.bare ∧ r = r' := by
  refine separated_shown _ _ closes_rparen xs ys (fun x _ y _ {r r'} _ _ h => ?_)
    (fun x _ t ht r r' h => ?_) h
  · obtain ⟨hx, hr⟩ := List.cons.inj h
    exact ⟨Ident.word_inj hx, hr⟩
  · obtain ⟨rfl, -⟩ := List.cons.inj h
    cases ht

theorem pairs_shown {kvs kvs' : List (Expr × Expr)} {r r' : List Token}
    (hkvs : ∀ kv ∈ kvs, Shown kv.1 ∧ Shown kv.2) (hkvs' : ∀ kv ∈ kvs', kv.1.Plain ∧ kv.2.Plain)
    (h : separated (wordsPairs kvs) ++ Kind.rbrace.mark :: r =
      separated (wordsPairs kvs') ++ Kind.rbrace.mark :: r') :
    barePairs kvs = barePairs kvs' ∧ r = r' := by
  rw [wordsPairs_eq_map, wordsPairs_eq_map] at h
  rw [barePairs_eq_map, barePairs_eq_map]
  refine separated_shown _ _ closes_rbrace kvs kvs' (fun kv hkv kv' hkv' {r r'} hr hr' h => ?_)
    (fun kv _ t ht r r' h => ?_) h
  · rw [List.append_assoc, List.append_assoc] at h
    obtain ⟨hkey, h⟩ := (hkvs kv hkv).1 (hkvs' kv' hkv').1 (strict_colon _)
      (strict_colon _) h
    obtain ⟨hvalue, h⟩ := (hkvs kv hkv).2 (hkvs' kv' hkv').2 hr hr' (List.cons.inj h).2
    exact ⟨congrArg₂ Prod.mk hkey hvalue, h⟩
  · rw [List.append_assoc] at h
    exact kv.1.words_ne_cons ht h

/-! ## Calls -/

/-- Calls of `f` with these lists of arguments, one after the other. -/
def applied (f : Expr) (calls : List (List Expr)) : Expr := calls.foldl (Expr.call .blank) f

def callsWords (calls : List (List Expr)) : List Token :=
  calls.flatMap fun es => Kind.lparen.mark :: (separated (wordsExprs es) ++ [Kind.rparen.mark])

theorem callsWords_cons (es : List Expr) (calls : List (List Expr)) (r : List Token) :
    callsWords (es :: calls) ++ r =
      Kind.lparen.mark ::
        (separated (wordsExprs es) ++ Kind.rparen.mark :: (callsWords calls ++ r)) := by
  simp [callsWords]

theorem bare_applied (f : Expr) (calls : List (List Expr)) :
    (applied f calls).bare = applied f.bare (calls.map bareExprs) := by
  induction calls generalizing f with
  | nil => rfl
  | cons es calls ih => exact ih (.call .blank f es)

theorem isAssign_bare (e : Expr) : e.bare.isAssign = e.isAssign := by cases e <;> rfl

def Expr.isCall : Expr → Bool
  | .call _ _ _ => true
  | _ => false

/-- An expression is calls, perhaps none, of one that is no call. -/
theorem Expr.exists_applied : (e : Expr) → e.Plain → ∃ b calls, b.isCall = false ∧ b.Plain ∧
    (b.isAssign = true → calls = []) ∧ (∀ es ∈ calls, ∀ x ∈ es, x.Plain) ∧
    e.words = b.words ++ callsWords calls ∧ e.bare = (applied b calls).bare
  | .call t f es, h => by
    obtain ⟨b, calls, hb, hplain, hassign, hcalls, hwords, hbare⟩ := f.exists_applied h.2.1
    refine ⟨b, calls ++ [es], hb, hplain, fun hba => ?_, fun fs hfs x hx => ?_, ?_, ?_⟩
    · -- Then what is called would be an assignment.
      rw [hassign hba] at hbare
      have hf : f.isAssign = true := by
        rw [← isAssign_bare, hbare, bare_applied, List.map_nil]
        exact (isAssign_bare b).trans hba
      exact absurd (h.1.2.symm.trans hf) nofun
    · rcases List.mem_append.1 hfs with hfs | hfs
      · exact hcalls fs hfs x hx
      · rw [List.mem_singleton.1 hfs] at hx
        exact everyExprs_iff.1 h.2.2 x hx
    · rw [words, hwords]
      simp [callsWords]
    · rw [Expr.bare, hbare, bare_applied, bare_applied, List.map_append, applied, applied,
        List.foldl_append]
      rfl
  | .ident x, h | .int _ _, h | .str _ _, h | .bool _ _, h | .null _, h | .unary _ _ _, h
  | .binary _ _ _ _, h | .assign _ _ _, h | .ifElse _ _ _ _, h | .fn _ _ _, h | .array _ _, h
  | .hash _ _, h | .index _ _ _, h | .forIn _ _ _ _ _, h =>
    ⟨_, [], rfl, h, fun _ => rfl, nofun, (List.append_nil _).symm, rfl⟩

/-- What opens an operator or an index is no list of arguments, if the two can be told apart by
their first expression. -/
theorem not_opens {D : Expr → Prop} {es : List Expr} {r : List Token}
    (h : ∀ l, D l → l.Plain → ∀ e ∈ es, ∀ {s s' : List Token}, Strict s → Strict s' →
      l.words ++ s = e.words ++ s' → s = s') :
    ¬ Opens D (Kind.lparen.mark :: (separated (wordsExprs es) ++ Kind.rparen.mark :: r)) := by
  rintro (⟨op, us, hts⟩ | ⟨l, c, us, hD, hl, hc, hcomma, hrparen, hts⟩)
  · replace hts := (List.cons.inj hts).2
    cases es with
    | nil =>
      have hop := Kind.mark_inj.1 (List.cons.inj hts).1
      cases op <;> cases hop
    | cons e es =>
      obtain ⟨d, vs, hsep, -⟩ := separated_cons e.words (wordsExprs es) .rparen r
      rw [wordsExprs, hsep] at hts
      exact e.words_ne_cons op.leads_kind hts
  · replace hts := (List.cons.inj hts).2
    cases es with
    | nil => exact l.words_ne_cons rfl hts.symm
    | cons e es =>
      obtain ⟨d, vs, hsep, hd⟩ := separated_cons e.words (wordsExprs es) .rparen r
      rw [wordsExprs, hsep] at hts
      have hstrict : Strict (d :: vs) := by
        rcases hd with rfl | rfl
        · exact strict_comma vs
        · exact closes_rparen.strict vs
      obtain ⟨rfl, -⟩ := List.cons.inj (h l hD hl e List.mem_cons_self hc hstrict hts.symm)
      rcases hd with rfl | rfl
      · exact hcomma rfl
      · exact hrparen rfl

/-- Calls show how many they are and what their arguments are. -/
theorem calls_shown {r r' : List Token} (hr : Follows Shown r) (hr' : Follows (fun _ => True) r') :
    ∀ (calls calls' : List (List Expr)), (∀ es ∈ calls, ∀ e ∈ es, Shown e) →
      (∀ es ∈ calls', ∀ e ∈ es, e.Plain) → callsWords calls ++ r = callsWords calls' ++ r' →
      calls.map bareExprs = calls'.map bareExprs ∧ r = r'
  | [], [], _, _, h => ⟨rfl, h⟩
  | [], es' :: calls', _, hplain, h => by
    rw [callsWords_cons] at h
    obtain rfl : r = _ := h
    refine absurd (hr.opens rfl) (not_opens fun l hl _ e he s s' hs hs' heq => ?_)
    exact (hl (hplain es' List.mem_cons_self e he) hs hs' heq).2
  | es :: calls, [], hshown, _, h => by
    rw [callsWords_cons] at h
    obtain rfl : _ = r' := h
    refine absurd (hr'.opens rfl) (not_opens fun l _ hl e he s s' hs hs' heq => ?_)
    exact (hshown es List.mem_cons_self e he hl hs' hs heq.symm).2.symm
  | es :: calls, es' :: calls', hshown, hplain, h => by
    rw [callsWords_cons, callsWords_cons] at h
    obtain ⟨hes, h⟩ := exprs_shown closes_rparen (hshown es List.mem_cons_self)
      (hplain es' List.mem_cons_self) (List.cons.inj h).2
    obtain ⟨hcalls, h⟩ := calls_shown hr hr' calls calls'
      (fun fs hfs => hshown fs (List.mem_cons_of_mem _ hfs))
      (fun fs hfs => hplain fs (List.mem_cons_of_mem _ hfs)) h
    exact ⟨congrArg₂ List.cons hes hcalls, h⟩

/-! ## From the front of an expression to the whole -/

/-- The words of `e` with calls around it show what it is and what the calls are. -/
def Decodes (e : Expr) : Prop :=
  ∀ (calls : List (List Expr)) ⦃e' : Expr⦄ ⦃r r' : List Token⦄,
    (∀ es ∈ calls, ∀ x ∈ es, Shown x) → (e.isAssign = true → calls = []) → e'.Plain →
    Follows Shown r → Follows (fun _ => True) r' →
    e.words ++ (callsWords calls ++ r) = e'.words ++ r' →
    (applied e calls).bare = e'.bare ∧ r = r'

theorem Decodes.whole {e e' : Expr} (h : Decodes e) (he' : e'.Plain) {r r' : List Token}
    (hr : Follows Shown r) (hr' : Follows (fun _ => True) r')
    (heq : e.words ++ r = e'.words ++ r') :
    e.bare = e'.bare ∧ r = r' :=
  h [] nofun (fun _ => rfl) he' hr hr' heq

theorem Decodes.shown {e : Expr} (h : Decodes e) : Shown e :=
  fun _ _ _ he' hr hr' heq => h.whole he' hr.follows hr'.follows heq

/-- What follows neither assigns nor is an `else`. -/
structure Loose (rest : List Token) : Prop where
  assign : nextKind rest ≠ .assign
  elseKw : nextKind rest ≠ .elseKw

theorem Follows.loose {D : Expr → Prop} {r : List Token} (h : Follows D r)
    (calls : List (List Expr)) : Loose (callsWords calls ++ r) := by
  cases calls with
  | nil => exact ⟨h.assign, h.elseKw⟩
  | cons es calls => rw [callsWords_cons]; exact ⟨nofun, nofun⟩

/-- What the words of an expression start with if it is no call. The two truth values count as
one. -/
def Expr.form : Expr → Kind
  | .ident _ | .assign _ _ _ => .ident
  | .int _ _ => .int
  | .str _ _ => .string
  | .bool _ _ => .trueKw
  | .null _ => .nullKw
  | .unary _ _ _ | .binary _ _ _ _ | .index _ _ _ => .lparen
  | .ifElse _ _ _ _ => .ifKw
  | .fn _ _ _ => .fnKw
  | .array _ _ => .lbracket
  | .hash _ _ => .lbrace
  | .forIn _ _ _ _ _ => .forKw
  | .call _ _ _ => .eof

def Kind.form : Kind → Kind
  | .falseKw => .trueKw
  | k => k

theorem Expr.form_words {e : Expr} (he : e.isCall = false) (r : List Token) :
    (nextKind (e.words ++ r)).form = e.form := by
  cases e with
  | call => cases he
  | bool _ c => cases c <;> rfl
  | _ => rfl

/-- Words that are the same belong to expressions that start in the same way. -/
theorem Expr.form_eq {e b : Expr} {r r' : List Token} (he : e.isCall = false)
    (hb : b.isCall = false) (h : e.words ++ r = b.words ++ r') : b.form = e.form := by
  rw [← form_words hb r', ← h, form_words he]

/-- The words of `e` show what it is among what is no call. -/
def Stem (e : Expr) : Prop :=
  ∀ ⦃b : Expr⦄ ⦃r r' : List Token⦄, b.isCall = false → b.Plain → Loose r → Loose r' →
    e.words ++ r = b.words ++ r' → e.bare = b.bare ∧ r = r'

theorem Stem.decodes {e : Expr} (h : Stem e) : Decodes e := by
  intro calls e' r r' hcalls _ he' hr hr' heq
  obtain ⟨b, calls', hb, hplain, -, hcalls', hwords, hbare⟩ := e'.exists_applied he'
  rw [hwords, List.append_assoc] at heq
  obtain ⟨heb, heq⟩ := h hb hplain (hr.loose calls) (hr'.loose calls') heq
  obtain ⟨hargs, heq⟩ := calls_shown hr hr' calls calls' hcalls hcalls' heq
  exact ⟨by rw [hbare, bare_applied, bare_applied, heb, hargs], heq⟩

theorem decodes_call {t : Token} {f : Expr} {es : List Expr} (hf : Decodes f)
    (hassign : f.isAssign = false) (hes : ∀ e ∈ es, Shown e) : Decodes (.call t f es) := by
  intro calls e' r r' hcalls _ he' hr hr' heq
  have hargs : ∀ fs ∈ es :: calls, ∀ x ∈ fs, Shown x := List.forall_mem_cons.2 ⟨hes, hcalls⟩
  have hbare : (applied (.call t f es) calls).bare = (applied f (es :: calls)).bare := by
    rw [bare_applied, bare_applied]
    rfl
  rw [hbare]
  refine hf (es :: calls) hargs (fun h => ?_) he' hr hr' ?_
  · rw [hassign] at h; cases h
  · rw [callsWords_cons, ← heq, Expr.words]
    simp

theorem decodes_assign {t : Token} {x : Ident} {e : Expr} (he : Decodes e) :
    Decodes (.assign t x e) := by
  intro calls e' r r' _ hcalls he' hr hr' heq
  obtain rfl : calls = [] := hcalls rfl
  obtain ⟨b, calls', hb, hplain, hassign, -, hwords, hbare⟩ := e'.exists_applied he'
  rw [hwords, List.append_assoc] at heq
  have hloose := hr'.loose calls'
  have hk := Expr.form_eq rfl hb heq
  cases b with
  | ident y =>
    have heq : Kind.assign.mark :: (e.words ++ r) = callsWords calls' ++ r' := (List.cons.inj heq).2
    rw [← heq] at hloose
    exact absurd rfl hloose.assign
  | assign _ y e'' =>
    obtain rfl : calls' = [] := hassign rfl
    obtain ⟨hx, heq⟩ := List.cons.inj heq
    obtain ⟨hbe, heq⟩ := he.whole hplain.2 hr hr' (List.cons.inj heq).2
    refine ⟨?_, heq⟩
    rw [hbare]
    exact congrArg₂ (Expr.assign _) (Ident.word_inj hx) hbe
  | _ => cases hk

/-! ## Blocks -/

def BlockShown (b : Block) : Prop :=
  ∀ ⦃b' : Block⦄ ⦃r r' : List Token⦄, b'.Every Expr.PlainNode PlainList →
    b.words ++ r = b'.words ++ r' → b.bare = b'.bare ∧ r = r'

def ElseShown (no : Option Block) : Prop :=
  ∀ ⦃no' : Option Block⦄ ⦃r r' : List Token⦄, everyElse Expr.PlainNode PlainList no' →
    nextKind r ≠ .elseKw → nextKind r' ≠ .elseKw → wordsElse no ++ r = wordsElse no' ++ r' →
    bareElse no = bareElse no' ∧ r = r'

theorem Block.exists_words (b : Block) : ∃ ws, b.words = Kind.lbrace.mark :: ws := by
  cases b with
  | mk _ _ => exact ⟨_, rfl⟩

theorem Block.strict (b : Block) (r : List Token) : Strict (b.words ++ r) := by
  obtain ⟨ws, hws⟩ := b.exists_words
  rw [hws]
  exact strict_mark (by decide) _

/-! ## One form at a time -/

section Stems

variable {t : Token}

theorem stem_ident (x : Ident) : Stem (.ident x) := by
  intro b r r' hb _ hr _ heq
  have hk := Expr.form_eq rfl hb heq
  cases b with
  | ident y =>
    obtain ⟨hx, heq⟩ := List.cons.inj heq
    exact ⟨congrArg Expr.ident (Ident.word_inj hx), heq⟩
  | assign _ y e =>
    have heq : r = Kind.assign.mark :: (e.words ++ r') := (List.cons.inj heq).2
    rw [heq] at hr
    exact absurd rfl hr.assign
  | _ => cases hk

theorem Integer.text_inj {m n : Integer} (hm : 0 ≤ m.toInt) (hn : 0 ≤ n.toInt)
    (h : m.text = n.text) : m = n := by
  rw [← Integer.ofNat_toNat hm, ← Integer.ofNat_toNat hn, ← Integer.decimal_text hm,
    ← Integer.decimal_text hn, h]

theorem stem_int {n : Integer} (hn : 0 ≤ n.toInt) : Stem (.int t n) := by
  intro b r r' hb hplain _ _ heq
  have hk := Expr.form_eq rfl hb heq
  cases b with
  | int _ m =>
    obtain ⟨hx, heq⟩ := List.cons.inj heq
    have htext : n.text = m.text := congrArg Token.text hx
    exact ⟨congrArg (Expr.int _) (Integer.text_inj hn hplain.1 htext), heq⟩
  | _ => cases hk

theorem stem_str (text : String) : Stem (.str t text) := by
  intro b r r' hb _ _ _ heq
  have hk := Expr.form_eq rfl hb heq
  cases b with
  | str _ text' =>
    obtain ⟨hx, heq⟩ := List.cons.inj heq
    exact ⟨congrArg (Expr.str _) (congrArg Token.text hx), heq⟩
  | _ => cases hk

theorem stem_bool (c : Bool) : Stem (.bool t c) := by
  intro b r r' hb _ _ _ heq
  have hk := Expr.form_eq rfl hb heq
  cases b with
  | bool _ c' =>
    obtain ⟨hc, heq⟩ := List.cons.inj heq
    refine ⟨?_, heq⟩
    cases c <;> cases c' <;> first | rfl | cases hc
  | _ => cases hk

theorem stem_null : Stem (.null t) := by
  intro b r r' hb _ _ _ heq
  have hk := Expr.form_eq rfl hb heq
  cases b with
  | null _ => exact ⟨rfl, (List.cons.inj heq).2⟩
  | _ => cases hk

/-- After the opening parenthesis: the words of a unary operator against those of an expression. -/
theorem UnaryOp.ne_words (op : UnaryOp) (e : Expr) (r r' : List Token) :
    op.kind.mark :: r ≠ e.words ++ r' := fun h => e.words_ne_cons op.leads_kind h.symm

theorem stem_unary {op : UnaryOp} {e : Expr} (he : Shown e) : Stem (.unary t op e) := by
  intro b r r' hb hplain _ _ heq
  have hk := Expr.form_eq rfl hb heq
  cases b with
  | unary _ op' e' =>
    have hin : op.kind.mark :: (e.words ++ Kind.rparen.mark :: r) =
        op'.kind.mark :: (e'.words ++ Kind.rparen.mark :: r') := by simpa [Expr.words] using heq
    obtain ⟨hop, hin⟩ := List.cons.inj hin
    obtain ⟨hbare, hout⟩ := he hplain.2 (closes_rparen.strict r) (closes_rparen.strict r') hin
    rw [UnaryOp.kind_inj (Kind.mark_inj.1 hop)]
    exact ⟨congrArg (Expr.unary _ _) hbare, (List.cons.inj hout).2⟩
  | binary _ _ l _ =>
    exact absurd (by simpa [Expr.words] using heq) (op.ne_words l _ _)
  | index _ e' _ =>
    exact absurd (by simpa [Expr.words] using heq) (op.ne_words e' _ _)
  | _ => cases hk

theorem BinaryOp.kind_ne_lbracket (op : BinaryOp) : op.kind ≠ .lbracket := by
  cases op <;> decide

theorem strict_lbracket (r : List Token) : Strict (Kind.lbracket.mark :: r) :=
  strict_mark (by decide) r

theorem stem_binary {op : BinaryOp} {left right : Expr} (hl : Shown left) (hr : Shown right) :
    Stem (.binary t op left right) := by
  intro b r r' hb hplain _ _ heq
  have hk := Expr.form_eq rfl hb heq
  cases b with
  | binary _ op' l' r' =>
    have heq := (List.cons.inj heq).2
    simp only [List.append_eq, List.append_assoc, List.cons_append, List.nil_append] at heq
    obtain ⟨hleft, heq⟩ := hl hplain.2.1 (op.strict _) (op'.strict _) heq
    obtain ⟨hop, heq⟩ := List.cons.inj heq
    obtain ⟨hright, heq⟩ := hr hplain.2.2 (closes_rparen.strict _) (closes_rparen.strict _) heq
    rw [BinaryOp.kind_inj (Kind.mark_inj.1 hop)]
    exact ⟨congrArg₂ (Expr.binary _ _) hleft hright, (List.cons.inj heq).2⟩
  | unary _ op' _ =>
    exact absurd (by simpa [Expr.words] using heq.symm) (op'.ne_words left _ _)
  | index _ e' i =>
    have heq := (List.cons.inj heq).2
    simp only [List.append_eq, List.append_assoc, List.cons_append, List.nil_append] at heq
    obtain ⟨-, heq⟩ := hl hplain.2.1 (op.strict _) (strict_lbracket _) heq
    exact absurd (Kind.mark_inj.1 (List.cons.inj heq).1) op.kind_ne_lbracket
  | _ => cases hk

theorem stem_index {e i : Expr} (he : Shown e) (hi : Shown i) : Stem (.index t e i) := by
  intro b r r' hb hplain _ _ heq
  have hk := Expr.form_eq rfl hb heq
  cases b with
  | index _ e' i' =>
    have heq := (List.cons.inj heq).2
    simp only [List.append_eq, List.append_assoc, List.cons_append, List.nil_append] at heq
    obtain ⟨hbase, heq⟩ := he hplain.2.1 (strict_lbracket _) (strict_lbracket _) heq
    obtain ⟨hplace, heq⟩ := hi hplain.2.2 (closes_rbracket.strict _) (closes_rbracket.strict _)
      (List.cons.inj heq).2
    exact ⟨congrArg₂ (Expr.index _) hbase hplace, (List.cons.inj (List.cons.inj heq).2).2⟩
  | unary _ op _ =>
    exact absurd (by simpa [Expr.words] using heq.symm) (op.ne_words e _ _)
  | binary _ op l' _ =>
    have heq := (List.cons.inj heq).2
    simp only [List.append_eq, List.append_assoc, List.cons_append, List.nil_append] at heq
    obtain ⟨-, heq⟩ := he hplain.2.1 (strict_lbracket _) (op.strict _) heq
    exact absurd (Kind.mark_inj.1 (List.cons.inj heq).1).symm op.kind_ne_lbracket
  | _ => cases hk

theorem stem_ifElse {e : Expr} {yes : Block} {no : Option Block} (he : Shown e)
    (hyes : BlockShown yes) (hno : ElseShown no) : Stem (.ifElse t e yes no) := by
  intro b r r' hb hplain hr hr' heq
  have hk := Expr.form_eq rfl hb heq
  cases b with
  | ifElse _ e' yes' no' =>
    have heq := (List.cons.inj heq).2
    simp only [List.append_eq, List.append_assoc] at heq
    obtain ⟨hbe, heq⟩ := he hplain.2.1 (yes.strict _) (yes'.strict _) heq
    obtain ⟨hbyes, heq⟩ := hyes hplain.2.2.1 heq
    obtain ⟨hbno, heq⟩ := hno hplain.2.2.2 hr.elseKw hr'.elseKw heq
    exact ⟨by rw [Expr.bare, Expr.bare, hbe, hbyes, hbno], heq⟩
  | _ => cases hk

theorem stem_fn {ps : List Ident} {body : Block} (hbody : BlockShown body) :
    Stem (.fn t ps body) := by
  intro b r r' hb hplain _ _ heq
  have hk := Expr.form_eq rfl hb heq
  cases b with
  | fn _ ps' body' =>
    have heq := (List.cons.inj (List.cons.inj heq).2).2
    simp only [List.append_eq, List.append_assoc, List.cons_append] at heq
    obtain ⟨hps, heq⟩ := names_shown heq
    obtain ⟨hb, heq⟩ := hbody hplain.2 heq
    exact ⟨by rw [Expr.bare, Expr.bare, hps, hb], heq⟩
  | _ => cases hk

theorem stem_array {es : List Expr} (hes : ∀ e ∈ es, Shown e) : Stem (.array t es) := by
  intro b r r' hb hplain _ _ heq
  have hk := Expr.form_eq rfl hb heq
  cases b with
  | array _ es' =>
    have heq := (List.cons.inj heq).2
    simp only [List.append_eq, List.append_assoc, List.cons_append, List.nil_append] at heq
    obtain ⟨hbes, heq⟩ := exprs_shown closes_rbracket hes (everyExprs_iff.1 hplain.2) heq
    exact ⟨congrArg (Expr.array _) hbes, heq⟩
  | _ => cases hk

theorem stem_hash {kvs : List (Expr × Expr)} (hkvs : ∀ kv ∈ kvs, Shown kv.1 ∧ Shown kv.2) :
    Stem (.hash t kvs) := by
  intro b r r' hb hplain _ _ heq
  have hk := Expr.form_eq rfl hb heq
  cases b with
  | hash _ kvs' =>
    have heq := (List.cons.inj heq).2
    simp only [List.append_eq, List.append_assoc, List.cons_append, List.nil_append] at heq
    obtain ⟨hbkvs, heq⟩ := pairs_shown hkvs (everyPairs_iff.1 hplain.2) heq
    exact ⟨congrArg (Expr.hash _) hbkvs, heq⟩
  | _ => cases hk

theorem stem_forIn {i v x : Ident} {body : Block} (hbody : BlockShown body) :
    Stem (.forIn t i v x body) := by
  intro b r r' hb hplain _ _ heq
  have hk := Expr.form_eq rfl hb heq
  cases b with
  | forIn _ i' v' x' body' =>
    obtain ⟨hi, heq⟩ := List.cons.inj (List.cons.inj heq).2
    obtain ⟨hv, heq⟩ := List.cons.inj (List.cons.inj heq).2
    obtain ⟨hx, heq⟩ := List.cons.inj (List.cons.inj heq).2
    obtain ⟨hb, heq⟩ := hbody hplain.2 heq
    refine ⟨?_, heq⟩
    rw [Expr.bare, Expr.bare, Ident.word_inj hi, Ident.word_inj hv, Ident.word_inj hx, hb]
  | _ => cases hk

end Stems

/-! ## Statements after one another -/

/-- If the expression starts with an operator or an index, the left operand of that has `D`. -/
def Expr.Leading (D : Expr → Prop) : Expr → Prop
  | .binary _ _ l _ => D l
  | .index _ e _ => D e
  | .call _ f _ => f.Leading D
  | _ => True

def Stmt.Leading (D : Expr → Prop) : Stmt → Prop
  | .expr _ e => e.Leading D
  | _ => True

theorem Expr.leading_true : (e : Expr) → e.Leading fun _ => True
  | .call _ f _ => f.leading_true
  | .binary _ _ _ _ | .index _ _ _ | .ident _ | .int _ _ | .str _ _ | .bool _ _ | .null _
  | .unary _ _ _ | .assign _ _ _ | .ifElse _ _ _ _ | .fn _ _ _ | .array _ _ | .hash _ _
  | .forIn _ _ _ _ _ => trivial

theorem Stmt.leading_true (s : Stmt) : s.Leading fun _ => True := by
  cases s with
  | expr _ e => exact e.leading_true
  | _ => trivial

variable {D : Expr → Prop}

theorem Expr.opens : (e : Expr) → e.Plain → e.Leading D → {r : List Token} →
    nextKind (e.words ++ r) = .lparen → Opens D (e.words ++ r)
  | .unary _ op _, _, _, _, _ => .inl ⟨op, _, rfl⟩
  | .binary _ op l right, h, hl, r, _ =>
    .inr ⟨l, op.kind.mark, right.words ++ Kind.rparen.mark :: r, hl, h.2.1, op.strict _,
      by cases op <;> nofun, by cases op <;> nofun, by simp [words]⟩
  | .index _ e i, h, he, r, _ =>
    .inr ⟨e, Kind.lbracket.mark, i.words ++ Kind.rbracket.mark :: Kind.rparen.mark :: r, he, h.2.1,
      strict_lbracket _, nofun, nofun, by simp [words]⟩
  | .call _ f es, h, hf, r, hk => by
    rw [words, List.append_assoc] at hk ⊢
    exact f.opens h.2.1 hf hk
  | .bool _ true, _, _, _, hk | .bool _ false, _, _, _, hk | .ident _, _, _, _, hk
  | .int _ _, _, _, _, hk | .str _ _, _, _, _, hk | .null _, _, _, _, hk
  | .assign _ _ _, _, _, _, hk | .ifElse _ _ _ _, _, _, _, hk | .fn _ _ _, _, _, _, hk
  | .array _ _, _, _, _, hk | .hash _ _, _, _, _, hk | .forIn _ _ _ _ _, _, _, _, hk => by
    simp [words] at hk

theorem Stmt.follows {s : Stmt} (hs : s.Written) (h : s.Every Expr.PlainNode PlainList)
    (hlead : s.Leading D) (r : List Token) : Follows D (s.words ++ r) := by
  cases s with
  | declare _ constant x e => cases constant <;> exact ⟨nofun, nofun, nofun⟩
  | ret _ e => exact ⟨nofun, nofun, nofun⟩
  | block b => exact hs.elim
  | expr _ e =>
    have hne (k : Kind) (hk : k.leads = false) : nextKind (e.words ++ r) ≠ k := by
      obtain ⟨t, ws, hws, ht⟩ := e.exists_words
      rw [hws]
      rintro rfl
      exact absurd ht (by simpa using hk)
    exact ⟨hne _ rfl, hne _ rfl, e.opens h hlead⟩

/-- What follows a statement in a block: the statements after it and the closing brace. -/
theorem follows_stmts {ss : List Stmt} (hw : StmtsWritten ss)
    (h : everyStmts Expr.PlainNode PlainList ss) (hlead : ∀ s ∈ ss, s.Leading D) (r : List Token) :
    Follows D ((wordsStmts ss).flatten ++ Kind.rbrace.mark :: r) := by
  cases ss with
  | nil => exact (closes_rbrace.strict r).follows
  | cons s ss =>
    rw [wordsStmts, List.flatten_cons, List.append_assoc]
    exact s.follows (hw s List.mem_cons_self) h.1 (hlead s List.mem_cons_self) _

def StmtShown (s : Stmt) : Prop :=
  ∀ ⦃s' : Stmt⦄ ⦃r r' : List Token⦄, s'.Written → s'.Every Expr.PlainNode PlainList →
    Follows Shown r → Follows (fun _ => True) r' → s.words ++ r = s'.words ++ r' →
    s.bare = s'.bare ∧ r = r'

theorem strict_semicolon (r : List Token) : Strict (Kind.semicolon.mark :: r) :=
  strict_mark (by decide) r

theorem shown_declare {t : Token} {constant : Bool} {x : Ident} {e : Expr} (he : Shown e) :
    StmtShown (.declare t constant x e) := by
  intro s' r r' hs' hplain _ _ heq
  cases s' with
  | declare _ constant' x' e' =>
    obtain ⟨hk, heq⟩ := List.cons.inj heq
    obtain ⟨hx, heq⟩ := List.cons.inj heq
    replace heq := (List.cons.inj heq).2
    simp only [List.append_eq, List.append_assoc, List.cons_append, List.nil_append] at heq
    obtain ⟨hbare, heq⟩ := he hplain (strict_semicolon r) (strict_semicolon r') heq
    have hconstant : constant = constant' := by
      cases constant <;> cases constant' <;> first | rfl | cases hk
    refine ⟨?_, (List.cons.inj heq).2⟩
    rw [Stmt.bare, Stmt.bare, hconstant, Ident.word_inj hx, hbare]
  | ret _ e' => cases constant <;> cases heq
  | expr _ e' => cases constant <;> exact absurd heq.symm (e'.words_ne_cons rfl)
  | block b => exact hs'.elim

theorem shown_ret {t : Token} {e : Expr} (he : Shown e) : StmtShown (.ret t e) := by
  intro s' r r' hs' hplain _ _ heq
  cases s' with
  | ret _ e' =>
    replace heq := (List.cons.inj heq).2
    simp only [List.append_eq, List.append_assoc, List.cons_append, List.nil_append] at heq
    obtain ⟨hbare, heq⟩ := he hplain (strict_semicolon r) (strict_semicolon r') heq
    exact ⟨congrArg (Stmt.ret _) hbare, (List.cons.inj heq).2⟩
  | declare _ constant _ _ => cases constant <;> cases heq
  | expr _ e' => exact absurd heq.symm (e'.words_ne_cons rfl)
  | block b => exact hs'.elim

theorem shown_expr {t : Token} {e : Expr} (he : Decodes e) : StmtShown (.expr t e) := by
  intro s' r r' hs' hplain hr hr' heq
  cases s' with
  | expr _ e' =>
    obtain ⟨hbare, heq⟩ := he.whole hplain hr hr' heq
    exact ⟨congrArg (Stmt.expr _) hbare, heq⟩
  | declare _ constant _ _ => cases constant <;> exact absurd heq (e.words_ne_cons rfl)
  | ret _ e' => exact absurd heq (e.words_ne_cons rfl)
  | block b => exact hs'.elim

def StmtsShown (ss : List Stmt) : Prop :=
  ∀ ⦃ss' : List Stmt⦄ ⦃r r' : List Token⦄, StmtsWritten ss' →
    everyStmts Expr.PlainNode PlainList ss' →
    (wordsStmts ss).flatten ++ Kind.rbrace.mark :: r =
      (wordsStmts ss').flatten ++ Kind.rbrace.mark :: r' →
    bareStmts ss = bareStmts ss' ∧ r = r'

/-- No statement starts with a closing brace. -/
theorem Stmt.words_ne_rbrace {s : Stmt} (hs : s.Written) {r r' : List Token} :
    s.words ++ r ≠ Kind.rbrace.mark :: r' := by
  cases s with
  | declare _ constant _ _ => cases constant <;> nofun
  | ret _ _ => nofun
  | expr _ e => exact e.words_ne_cons rfl
  | block _ => exact hs.elim

theorem shown_nil : StmtsShown [] := by
  intro ss' r r' hw _ heq
  cases ss' with
  | nil => exact ⟨rfl, (List.cons.inj heq).2⟩
  | cons s' ss' =>
    rw [wordsStmts, wordsStmts, List.flatten_cons, List.append_assoc] at heq
    exact absurd heq.symm (Stmt.words_ne_rbrace (hw s' List.mem_cons_self))

theorem shown_cons {s : Stmt} {ss : List Stmt} (hs : StmtShown s) (hss : StmtsShown ss)
    (hw : StmtsWritten (s :: ss)) (h : everyStmts Expr.PlainNode PlainList ss)
    (hlead : ∀ u ∈ ss, u.Leading Shown) : StmtsShown (s :: ss) := by
  intro ss' r r' hw' h' heq
  rw [wordsStmts, List.flatten_cons, List.append_assoc] at heq
  cases ss' with
  | nil => exact absurd heq (Stmt.words_ne_rbrace (hw s List.mem_cons_self))
  | cons s' ss' =>
    rw [wordsStmts, List.flatten_cons, List.append_assoc] at heq
    have htail : StmtsWritten ss := fun u hu => hw u (List.mem_cons_of_mem s hu)
    have htail' : StmtsWritten ss' := fun u hu => hw' u (List.mem_cons_of_mem s' hu)
    obtain ⟨hbare, heq⟩ := hs (hw' s' List.mem_cons_self) h'.1 (follows_stmts htail h hlead r)
      (follows_stmts htail' h'.2 (fun u _ => u.leading_true) r') heq
    obtain ⟨hbares, heq⟩ := hss htail' h'.2 heq
    exact ⟨congrArg₂ List.cons hbare hbares, heq⟩

/-! ## Whole trees -/

mutual

theorem Expr.decodes : (e : Expr) → e.Plain → Decodes e ∧ e.Leading Shown
  | .ident x, _ => ⟨(stem_ident x).decodes, trivial⟩
  | .int _ _, h => ⟨(stem_int h.1).decodes, trivial⟩
  | .str _ text, _ => ⟨(stem_str text).decodes, trivial⟩
  | .bool _ c, _ => ⟨(stem_bool c).decodes, trivial⟩
  | .null _, _ => ⟨stem_null.decodes, trivial⟩
  | .unary _ _ e, h =>
    have he := (e.decodes h.2).1.shown
    ⟨(stem_unary he).decodes, trivial⟩
  | .binary _ _ l r, h =>
    have hl := (l.decodes h.2.1).1.shown
    have hr := (r.decodes h.2.2).1.shown
    ⟨(stem_binary hl hr).decodes, hl⟩
  | .assign _ _ e, h => ⟨decodes_assign (e.decodes h.2).1, trivial⟩
  | .ifElse _ e yes no, h =>
    have he := (e.decodes h.2.1).1.shown
    ⟨(stem_ifElse he (yes.shown h.2.2.1) (shownElse no h.2.2.2)).decodes, trivial⟩
  | .fn _ _ b, h => ⟨(stem_fn (b.shown h.2)).decodes, trivial⟩
  | .call _ f es, h =>
    have ⟨hf, hlead⟩ := f.decodes h.2.1
    ⟨decodes_call hf h.1.2 (shownExprs es h.2.2), hlead⟩
  | .array _ es, h => ⟨(stem_array (shownExprs es h.2)).decodes, trivial⟩
  | .hash _ kvs, h => ⟨(stem_hash (shownPairs kvs h.2)).decodes, trivial⟩
  | .index _ e i, h =>
    have he := (e.decodes h.2.1).1.shown
    have hi := (i.decodes h.2.2).1.shown
    ⟨(stem_index he hi).decodes, he⟩
  | .forIn _ _ _ _ b, h => ⟨(stem_forIn (b.shown h.2)).decodes, trivial⟩

theorem Stmt.shown : (s : Stmt) → s.Written → s.Every Expr.PlainNode PlainList →
    StmtShown s ∧ s.Leading Shown
  | .declare _ _ _ e, _, h => ⟨shown_declare (Expr.decodes e h).1.shown, trivial⟩
  | .ret _ e, _, h => ⟨shown_ret (Expr.decodes e h).1.shown, trivial⟩
  | .expr _ e, _, h =>
    have ⟨he, hlead⟩ := Expr.decodes e h
    ⟨shown_expr he, hlead⟩

theorem Block.shown : (b : Block) → b.Every Expr.PlainNode PlainList → BlockShown b
  | .mk _ ss, h => by
    intro b' r r' hb' heq
    cases b' with
    | mk _ ss' =>
      replace heq := (List.cons.inj heq).2
      simp only [List.append_eq, List.append_assoc, List.cons_append, List.nil_append] at heq
      obtain ⟨hbare, heq⟩ := (shownStmts ss h.1.1 h.2).1 hb'.1.1 hb'.2 heq
      exact ⟨congrArg (Block.mk _) hbare, heq⟩

theorem shownElse : (no : Option Block) → everyElse Expr.PlainNode PlainList no → ElseShown no
  | none, _ => by
    intro no' r r' _ hr _ heq
    cases no' with
    | none => exact ⟨rfl, heq⟩
    | some b' =>
      obtain rfl : r = Kind.elseKw.mark :: (b'.words ++ r') := heq
      exact absurd rfl hr
  | some b, h => by
    intro no' r r' hno' _ hr' heq
    cases no' with
    | none =>
      obtain rfl : Kind.elseKw.mark :: (b.words ++ r) = r' := heq
      exact absurd rfl hr'
    | some b' =>
      obtain ⟨hbare, heq⟩ := b.shown h hno' (List.cons.inj heq).2
      exact ⟨congrArg some hbare, heq⟩

theorem shownExprs : (es : List Expr) → everyExprs Expr.PlainNode PlainList es →
    ∀ e ∈ es, Shown e
  | [], _ => nofun
  | e :: es, h => List.forall_mem_cons.2 ⟨(e.decodes h.1).1.shown, shownExprs es h.2⟩

theorem shownPairs : (kvs : List (Expr × Expr)) → everyPairs Expr.PlainNode PlainList kvs →
    ∀ kv ∈ kvs, Shown kv.1 ∧ Shown kv.2
  | [], _ => nofun
  | (k, v) :: kvs, h =>
    List.forall_mem_cons.2 ⟨⟨(k.decodes h.1).1.shown, (v.decodes h.2.1).1.shown⟩,
      shownPairs kvs h.2.2⟩

theorem shownStmts : (ss : List Stmt) → StmtsWritten ss →
    everyStmts Expr.PlainNode PlainList ss → StmtsShown ss ∧ ∀ s ∈ ss, s.Leading Shown
  | [], _, _ => ⟨shown_nil, nofun⟩
  | s :: ss, hw, h =>
    have ⟨hs, hlead⟩ := s.shown (hw s List.mem_cons_self) h.1
    have ⟨hss, hleads⟩ := shownStmts ss (fun u hu => hw u (List.mem_cons_of_mem s hu)) h.2
    ⟨shown_cons hs hss hw h.2 hleads, List.forall_mem_cons.2 ⟨hlead, hleads⟩⟩

end

/-! ## The canonical text -/

/-- An expression that is a whole program can be written down again. -/
theorem written_of_parse {source : String} {t : Token} {e : Expr}
    (h : parse source = .ok ⟨[.expr t e]⟩) : e.Every Expr.Written StmtsWritten :=
  ((parse_eq_ok_iff_programAt.1 h).written (TokenStream.lexical_ofSource source)).2.1

theorem Expr.lexed_render {e : Expr} (h : e.Every Expr.Written StmtsWritten) :
    lexed e.render.toList = e.words := by
  have hlex := e.spells_render h [] apart_nil
  rwa [List.append_nil, lexed_nil, List.append_nil] at hlex

/-- **Expressions that print alike are alike**, if no call in them is of an assignment. -/
theorem bare_eq_of_render_eq {source source' : String} {t t' : Token} {e e' : Expr}
    (h : parse source = .ok ⟨[.expr t e]⟩) (h' : parse source' = .ok ⟨[.expr t' e']⟩)
    (hcalls : e.Every Expr.CallsNoAssign fun _ => True)
    (hcalls' : e'.Every Expr.CallsNoAssign fun _ => True) (htext : e.render = e'.render) :
    e.bare = e'.bare := by
  have hw := written_of_parse h
  have hw' := written_of_parse h'
  have hplain : e.Plain := Expr.Every.and e hw hcalls
  have hplain' : e'.Plain := Expr.Every.and e' hw' hcalls'
  have hwords : e.words ++ [] = e'.words ++ [] := by
    rw [← Expr.lexed_render hw, ← Expr.lexed_render hw', htext]
  have hnil : Strict [] := ⟨nofun, nofun, nofun⟩
  exact ((e.decodes hplain).1.shown hplain' hnil hnil hwords).1

/-- `f(x) + 1` with and without parentheses that say nothing. -/
theorem bare_eq_of_render_eq_sum : ∃ (t t' : Token) (e e' : Expr),
    parse "f(x) + 1" = .ok ⟨[.expr t e]⟩ ∧ parse "((f)((x)) + 1)" = .ok ⟨[.expr t' e']⟩ ∧
      e.render = e'.render ∧ e ≠ e' ∧ e.bare = e'.bare := by
  -- The same tree with its tokens at these columns.
  obtain ⟨tree, htree⟩ : ∃ tree : Nat → Nat → Nat → Nat → Nat → Expr,
      tree = fun f paren x plus one => .binary ⟨.plus, "+", ⟨1, plus⟩⟩ .add
        (.call ⟨.lparen, "(", ⟨1, paren⟩⟩ (.ident ⟨⟨.ident, "f", ⟨1, f⟩⟩, "f"⟩)
          [.ident ⟨⟨.ident, "x", ⟨1, x⟩⟩, "x"⟩]) (.int ⟨.int, "1", ⟨1, one⟩⟩ 1) := ⟨_, rfl⟩
  have h : parse "f(x) + 1" =
      .ok ⟨[.expr ⟨.ident, "f", ⟨1, 1⟩⟩ (tree 1 2 3 6 8)]⟩ := by
    rw [htree]
    with_unfolding_all rfl
  have h' : parse "((f)((x)) + 1)" =
      .ok ⟨[.expr ⟨.lparen, "(", ⟨1, 1⟩⟩ (tree 3 5 7 11 13)]⟩ := by
    rw [htree]
    with_unfolding_all rfl
  have hcalls (f paren x plus one : Nat) :
      (tree f paren x plus one).Every Expr.CallsNoAssign fun _ => True := by
    rw [htree]
    exact ⟨trivial, ⟨rfl, trivial, trivial, trivial⟩, trivial⟩
  have htext : (tree 1 2 3 6 8).render = (tree 3 5 7 11 13).render := by rw [htree]; rfl
  refine ⟨_, _, _, _, h, h', htext, ?_, bare_eq_of_render_eq h h' (hcalls ..) (hcalls ..) htext⟩
  rw [htree]
  intro hsame
  cases hsame

/-- **An assignment that is called prints like one of a call**, though neither tree is the other:
`(x = y)(z)` calls the assignment and `x = y(z)` assigns the result of the call. -/
theorem render_called_assignment : ∃ (t t' : Token) (e e' : Expr),
    parse "(x = y)(z)" = .ok ⟨[.expr t e]⟩ ∧ parse "x = y(z)" = .ok ⟨[.expr t' e']⟩ ∧
      e.render = e'.render ∧ e.bare ≠ e'.bare := by
  refine ⟨⟨.lparen, "(", ⟨1, 1⟩⟩, ⟨.ident, "x", ⟨1, 1⟩⟩,
    .call ⟨.lparen, "(", ⟨1, 8⟩⟩
      (.assign ⟨.assign, "=", ⟨1, 4⟩⟩ ⟨⟨.ident, "x", ⟨1, 2⟩⟩, "x"⟩
        (.ident ⟨⟨.ident, "y", ⟨1, 6⟩⟩, "y"⟩)) [.ident ⟨⟨.ident, "z", ⟨1, 9⟩⟩, "z"⟩],
    .assign ⟨.assign, "=", ⟨1, 3⟩⟩ ⟨⟨.ident, "x", ⟨1, 1⟩⟩, "x"⟩
      (.call ⟨.lparen, "(", ⟨1, 6⟩⟩ (.ident ⟨⟨.ident, "y", ⟨1, 5⟩⟩, "y"⟩)
        [.ident ⟨⟨.ident, "z", ⟨1, 7⟩⟩, "z"⟩]), ?_, ?_, rfl, nofun⟩
  · with_unfolding_all rfl
  · with_unfolding_all rfl

end Scriptlet
