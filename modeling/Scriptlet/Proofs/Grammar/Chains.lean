import Scriptlet.Proofs.Grammar.Acceptance
import Scriptlet.Proofs.Joining.Following
import Scriptlet.Proofs.Printing.Words

/-!
# The trees of operator chains

A chain is operands with binary operators between them, perhaps behind targets of assignments. An
operand is an atom with unary operators before and calls and indices behind it.

**The textbook tree** (`TreeOf`). The root is the operator that binds loosest, the rightmost one if
there are several, and its operands are the trees of what stands on its two sides.

**Theorem (`expression_of_chain`).** Every chain has one such tree, and that tree is read.

The grammar builds a tree from left to right, while the textbook tree is split at its root. The two
meet in `TreeOf.suffixesAt`: reading on after a first operand, up to a precedence, is reading on
after the tree of any part of the chain whose operators all bind tighter than that precedence.
-/

namespace Scriptlet

/-! ## Operands -/

theorem HeadAt.unary {op : UnaryOp} {t : Token} {ts rest : List Token} {e : Expr}
    (h : ExprAt .unary ts e rest) : HeadAt op.kind t ts (.unary t op e) rest := by
  cases op with
  | not => exact .not h
  | neg => exact .neg h

/-- A name, a literal, or what stands in parentheses starts with a token of this kind. -/
def Kind.startsAtom : Kind → Bool
  | ident | int | string | trueKw | falseKw | nullKw | lparen | lbracket | lbrace | fnKw => true
  | _ => false

/-- A name, a literal, or an expression in parentheses. The body of a function has to be closed. -/
structure Atom where
  token : Token
  others : List Token
  expr : Expr
  starts : token.kind.startsAtom
  derived : HeadAt token.kind token others expr []
  closed : token.kind = .fnKw → surplus others = 0

/-- Anything may follow an atom. -/
theorem HeadAt.append_of_atom {k : Kind} {t : Token} {ts : List Token} {e : Expr}
    (h : HeadAt k t ts e []) (hk : k.startsAtom) (hclosed : k = .fnKw → surplus ts = 0)
    (us : List Token) : HeadAt k t (ts ++ us) e us := by
  cases h with
  | name => exact .name
  | int hle => exact .int hle
  | str => exact .str
  | yes => exact .yes
  | no => exact .no
  | null => exact .null
  | not _ | neg _ | ifElse _ _ _ | forIn _ _ _ _ _ _ => cases hk
  | group he hc => exact .group (he.append (.cons ..)) hc
  | array hes => exact .array hes.append
  | hash hkvs => exact .hash hkvs.append
  | @fn _ c ts mid _ ps body hc hps hbody =>
    have hts := hclosed rfl
    rw [surplus_cons, hc, if_neg (by decide), if_neg (by decide)] at hts
    have hbalance := hps.spends.balance
    have hbalance' := hbody.spends.balance
    rw [surplus_nil] at hbalance'
    exact .fn hc hps.append (hbody.append_of_closed (by omega) us)

theorem Atom.headAt (a : Atom) (us : List Token) :
    HeadAt a.token.kind a.token (a.others ++ us) a.expr us :=
  a.derived.append_of_atom a.starts a.closed us

/-- A call or an index. -/
inductive Postfix where
  | call (t : Token) (ts : List Token) (args : List Expr) (opens : t.kind = .lparen)
      (derived : ListAt .rparen ts args [])
  | index (t : Token) (ts : List Token) (i : Expr) (c : Token) (opens : t.kind = .lbracket)
      (derived : ExprAt .lowest ts i [c]) (closes : c.kind = .rbracket)

namespace Postfix

def tokens : Postfix → List Token
  | call t ts .. | index t ts .. => t :: ts

def apply (left : Expr) : Postfix → Expr
  | call t _ args .. => .call t left args
  | index t _ i .. => .index t left i

end Postfix

structure Prefix where
  token : Token
  op : UnaryOp
  spelled : token.kind = op.kind

/-- An atom with what stands before and behind it. -/
structure Operand where
  prefixes : List Prefix
  atom : Atom
  postfixes : List Postfix

namespace Operand

def tokens (u : Operand) : List Token :=
  u.prefixes.map Prefix.token ++
    (u.atom.token :: u.atom.others ++ u.postfixes.flatMap Postfix.tokens)

/-- Calls and indices are applied to the atom from left to right, and to the result the unary
operators from right to left. -/
def expr (u : Operand) : Expr :=
  u.prefixes.foldr (fun q e => .unary q.token q.op e)
    (u.postfixes.foldl Postfix.apply u.atom.expr)

end Operand

/-! ## Chains -/

/-- A binary operator and its right operand. -/
structure Link where
  token : Token
  op : BinaryOp
  operand : Operand
  spelled : Suffix.ofKind token.kind = some (.binary op)

namespace Link

def precedence (l : Link) : Precedence := l.op.precedence

def tokens (l : Link) : List Token := l.token :: l.operand.tokens

end Link

/-- The textbook tree of a chain of operators. -/
inductive TreeOf : Expr → List Link → Expr → Prop
  | operand {e : Expr} : TreeOf e [] e
  | root {first left right : Expr} {before after : List Link} {l : Link} :
      (∀ m ∈ before, l.precedence ≤ m.precedence) → (∀ m ∈ after, l.precedence < m.precedence) →
      TreeOf first before left → TreeOf l.operand.expr after right →
      TreeOf first (before ++ l :: after) (.binary l.token l.op left right)

/-- A name that is assigned to, and the equals sign. -/
structure Target where
  name : Token
  equals : Token
  named : name.kind = .ident
  assigned : equals.kind = .assign

structure Chain where
  targets : List Target
  first : Operand
  links : List Link

namespace Chain

def tokens (c : Chain) : List Token :=
  c.targets.flatMap (fun x => [x.name, x.equals]) ++ (c.first.tokens ++ c.links.flatMap Link.tokens)

/-- The assignments of `e` to the targets. -/
def assignments (c : Chain) (e : Expr) : Expr :=
  c.targets.foldr (fun x e => .assign x.equals (.ofToken x.name) e) e

end Chain

/-! ## Reading operands -/

/-- No suffix that binds tighter than `p` is next. -/
def EndsAt (p : Precedence) (us : List Token) : Prop :=
  ∀ s, Suffix.ofKind (nextKind us) = some s → s.precedence ≤ p

variable {p q : Precedence} {us rest : List Token} {left e : Expr}

theorem EndsAt.suffixesAt (h : EndsAt p us) : SuffixesAt p e us e us :=
  .stop fun s hs => Nat.not_lt.2 (h s hs)

theorem EndsAt.mono (h : EndsAt p us) (hpq : p ≤ q) : EndsAt q us :=
  fun s hs => Nat.le_trans (h s hs) hpq

theorem EndsAt.of_none (h : Suffix.ofKind (nextKind us) = none) : EndsAt p us := by
  intro s hs
  cases h.symm.trans hs

theorem Postfix.suffixesAt (x : Postfix) (hp : p < .call)
    (h : SuffixesAt p (x.apply left) us e rest) : SuffixesAt p left (x.tokens ++ us) e rest := by
  cases x with
  | call t ts args opens derived =>
    have hs : Suffix.ofKind t.kind = some .call := by rw [opens]; rfl
    exact .more hs hp (.call derived.append) h
  | index t ts i c opens derived closes =>
    have hs : Suffix.ofKind t.kind = some .index := by rw [opens]; rfl
    exact .more hs hp (.index (derived.append (.cons ..)) closes) h

theorem suffixesAt_postfixes (xs : List Postfix) (hp : p < .call)
    (h : SuffixesAt p (xs.foldl Postfix.apply left) us e rest) :
    SuffixesAt p left (xs.flatMap Postfix.tokens ++ us) e rest := by
  induction xs generalizing left with
  | nil => exact h
  | cons x xs ih =>
    rw [List.flatMap_cons, List.append_assoc]
    exact x.suffixesAt hp (ih h)

/-- An operand is read, and then its suffixes. -/
theorem Operand.exprAt (u : Operand) (hp : p < .call) (hus : EndsAt .unary us)
    (h : SuffixesAt p u.expr us e rest) : ExprAt p (u.tokens ++ us) e rest := by
  obtain ⟨prefixes, a, postfixes⟩ := u
  rw [tokens, List.append_assoc]
  induction prefixes generalizing p e rest with
  | nil =>
    rw [List.map_nil, List.nil_append, List.append_assoc, List.cons_append]
    exact .mk (a.headAt _) (suffixesAt_postfixes postfixes hp h)
  | cons x prefixes ih =>
    -- The operand of a unary operator ends where the whole operand does.
    have hinner := ih (p := .unary) (by decide) hus.suffixesAt
    exact .mk (x.spelled ▸ HeadAt.unary hinner) h

/-! ## Reading chains -/

namespace Link

variable (l : Link)

theorem lowest_lt : .lowest < l.precedence := by
  rw [precedence]
  cases l.op <;> decide

theorem lt_unary : l.precedence < .unary := by
  rw [precedence]
  cases l.op <;> decide

theorem lt_call : l.precedence < .call := Nat.lt_succ_of_lt l.lt_unary

/-- What stands in front of an operator ends there if it asks for no looser one. -/
theorem endsAt {ts : List Token} (h : l.precedence ≤ p) : EndsAt p (l.tokens ++ ts) := by
  intro s hs
  cases l.spelled.symm.trans hs
  exact h

end Link

theorem EndsAt.links (hus : EndsAt p us) {ls : List Link} (hls : ∀ l ∈ ls, l.precedence ≤ p) :
    EndsAt p (ls.flatMap Link.tokens ++ us) := by
  obtain _ | ⟨l, ls⟩ := ls
  · exact hus
  · rw [List.flatMap_cons, List.append_assoc]
    exact l.endsAt (hls l List.mem_cons_self)

/-- **The textbook tree is what reading on makes of the first operand**, if all operators bind
tighter than what is asked for. -/
theorem TreeOf.suffixesAt {first tree : Expr} {ls : List Link} (h : TreeOf first ls tree)
    (hp : ∀ l ∈ ls, p < l.precedence) (hus : ∀ l ∈ ls, EndsAt l.precedence us)
    (hs : SuffixesAt p tree us e rest) :
    SuffixesAt p first (ls.flatMap Link.tokens ++ us) e rest := by
  induction h generalizing p us e rest with
  | operand => exact hs
  | @root first left right before after l hbefore hafter _ _ ihleft ihright =>
    have hl := hus l (by simp)
    have hafter' : ∀ m ∈ after, EndsAt m.precedence us := fun m hm => hus m (by simp [hm])
    have hends : EndsAt .unary (after.flatMap Link.tokens ++ us) :=
      (hl.mono (Nat.le_of_lt l.lt_unary)).links fun m _ => Nat.le_of_lt m.lt_unary
    -- To the right, reading takes the operators that bind tighter than the root and stops.
    have hright : ExprAt l.precedence (l.operand.tokens ++ (after.flatMap Link.tokens ++ us))
        right us := l.operand.exprAt l.lt_call hends (ihright hafter hafter' hl.suffixesAt)
    rw [List.flatMap_append, List.flatMap_cons, List.append_assoc, List.append_assoc]
    refine ihleft (fun m hm => hp m (by simp [hm])) (fun m hm => l.endsAt (hbefore m hm)) ?_
    rw [Link.tokens, List.cons_append]
    exact .more l.spelled (hp l (by simp)) (.binary hright) hs

theorem TreeOf.exprAt {u : Operand} {ls : List Link} {tree : Expr} (h : TreeOf u.expr ls tree)
    (hus : Suffix.ofKind (nextKind us) = none) :
    ExprAt .lowest (u.tokens ++ (ls.flatMap Link.tokens ++ us)) tree us :=
  u.exprAt (by decide) ((EndsAt.of_none hus).links fun l _ => Nat.le_of_lt l.lt_unary)
    (h.suffixesAt (fun l _ => l.lowest_lt) (fun _ _ => .of_none hus)
      (EndsAt.of_none hus).suffixesAt)

theorem Chain.exprAt (c : Chain) {tree : Expr} (h : TreeOf c.first.expr c.links tree)
    (hus : Suffix.ofKind (nextKind us) = none) :
    ExprAt .lowest (c.tokens ++ us) (c.assignments tree) us := by
  obtain ⟨targets, first, ls⟩ := c
  rw [tokens, List.append_assoc]
  induction targets with
  | nil =>
    rw [List.flatMap_nil, List.nil_append, List.append_assoc]
    exact h.exprAt hus
  | cons x targets ih =>
    have hs : Suffix.ofKind x.equals.kind = some .assign := by rw [x.assigned]; rfl
    have hname {ts : List Token} :
        HeadAt x.name.kind x.name ts (.ident (.ofToken x.name)) ts := by rw [x.named]; exact .name
    exact .mk hname (.more hs (by decide) (.assign (ih h)) (EndsAt.of_none hus).suffixesAt)

/-! ## The tree of a chain -/

/-- Among the loosest operators one is the last. -/
theorem exists_loosest (l : Link) (ls : List Link) :
    ∃ before m after, l :: ls = before ++ m :: after ∧
      (∀ l ∈ before, m.precedence ≤ l.precedence) ∧ ∀ l ∈ after, m.precedence < l.precedence := by
  induction ls generalizing l with
  | nil => exact ⟨[], l, [], rfl, by simp, by simp⟩
  | cons l' ls ih =>
    obtain ⟨before, m, after, heq, hbefore, hafter⟩ := ih l'
    by_cases hm : m.precedence ≤ l.precedence
    · refine ⟨l :: before, m, after, by rw [heq]; rfl, fun x hx => ?_, hafter⟩
      rcases List.mem_cons.1 hx with rfl | hx
      · exact hm
      · exact hbefore x hx
    · have hlt : l.precedence < m.precedence := Nat.lt_of_not_le hm
      refine ⟨[], l, l' :: ls, rfl, by simp, fun x hx => ?_⟩
      rw [heq] at hx
      rcases List.mem_append.1 hx with hx | hx
      · exact Nat.lt_of_lt_of_le hlt (hbefore x hx)
      · rcases List.mem_cons.1 hx with rfl | hx
        · exact hlt
        · exact Nat.lt_trans hlt (hafter x hx)

theorem exists_treeOf (first : Expr) (ls : List Link) : ∃ tree, TreeOf first ls tree := by
  obtain _ | ⟨l, ls⟩ := ls
  · exact ⟨first, .operand⟩
  · obtain ⟨before, m, after, heq, hbefore, hafter⟩ := exists_loosest l ls
    have hlen : before.length + (after.length + 1) = ls.length + 1 := by
      simpa using congrArg List.length heq.symm
    obtain ⟨left, hleft⟩ := exists_treeOf first before
    obtain ⟨right, hright⟩ := exists_treeOf m.operand.expr after
    rw [heq]
    exact ⟨_, .root hbefore hafter hleft hright⟩
termination_by ls.length

/-- **Operator chains** are read as their textbook trees. -/
theorem expression_of_chain (c : Chain) {source : String} {rest : List Token}
    (hs : (TokenStream.ofSource source).tokens = c.tokens ++ rest)
    (hrest : Suffix.ofKind (nextKind rest) = none) :
    ∃ tree t, (∀ e, TreeOf c.first.expr c.links e ↔ e = tree) ∧
      Parse.expression .lowest (.ofSource source) = .ok (c.assignments tree) t ∧
      t.recorded = #[] ∧ t.ahead.tokens.tail = rest := by
  have hw := Parse.within_ofSource source
  obtain ⟨tree, htree⟩ := exists_treeOf c.first.expr c.links
  have hsuffix : c.first.tokens ++ (c.links.flatMap Link.tokens ++ rest) <:+
      (TokenStream.ofSource source).tokens := by
    rw [hs, Chain.tokens, List.append_assoc, List.append_assoc]
    exact List.suffix_append _ _
  have hunique : ∀ e, TreeOf c.first.expr c.links e → e = tree := fun e he =>
    ((he.exprAt hrest).unique (hw.suffix hsuffix).proper (htree.exprAt hrest)).1
  have hread := (Parse.readsBelow_rules _).expression (s := .ofSource source) (p := .lowest) hw
  obtain ⟨t, ht, hrecorded, htail⟩ := hread.iff.1 (hs ▸ c.exprAt htree hrest)
  exact ⟨tree, t, fun e => ⟨hunique e, fun h => h ▸ htree⟩, ht, hrecorded, htail⟩

/-- `x = -a - f(b) - 2` is `x = ((-a - f(b)) - 2)`. -/
theorem expression_of_chain_two_minuses :
    ∃ c : Chain, (TokenStream.ofSource "x = -a - f(b) - 2").tokens = c.tokens ++ [] ∧
      Suffix.ofKind (nextKind []) = none ∧
      ∃ t, Parse.expression .lowest (.ofSource "x = -a - f(b) - 2") =
          .ok (.assign ⟨.assign, "=", ⟨1, 3⟩⟩ ⟨⟨.ident, "x", ⟨1, 1⟩⟩, "x"⟩
            (.binary ⟨.minus, "-", ⟨1, 15⟩⟩ .sub
              (.binary ⟨.minus, "-", ⟨1, 8⟩⟩ .sub
                (.unary ⟨.minus, "-", ⟨1, 5⟩⟩ .neg (.ident ⟨⟨.ident, "a", ⟨1, 6⟩⟩, "a"⟩))
                (.call ⟨.lparen, "(", ⟨1, 11⟩⟩ (.ident ⟨⟨.ident, "f", ⟨1, 10⟩⟩, "f"⟩)
                  [.ident ⟨⟨.ident, "b", ⟨1, 12⟩⟩, "b"⟩]))
              (.int ⟨.int, "2", ⟨1, 17⟩⟩ (.ofNat 2)))) t ∧
        t.recorded = #[] ∧ t.ahead.tokens.tail = [] := by
  let name (s : String) (column : Nat) : Atom :=
    ⟨⟨.ident, s, ⟨1, column⟩⟩, [], .ident (.ofToken ⟨.ident, s, ⟨1, column⟩⟩), rfl, .name,
      fun _ => rfl⟩
  let two : Atom :=
    ⟨⟨.int, "2", ⟨1, 17⟩⟩, [], .int ⟨.int, "2", ⟨1, 17⟩⟩ (.ofNat 2), rfl, .int (by decide),
      fun _ => rfl⟩
  let ofB : Postfix := .call ⟨.lparen, "(", ⟨1, 11⟩⟩
    [⟨.ident, "b", ⟨1, 12⟩⟩, ⟨.rparen, ")", ⟨1, 13⟩⟩] [.ident (.ofToken ⟨.ident, "b", ⟨1, 12⟩⟩)] rfl
    (.some (.last (.mk .name (EndsAt.of_none rfl).suffixesAt) rfl))
  let minus (column : Nat) (u : Operand) : Link := ⟨⟨.minus, "-", ⟨1, column⟩⟩, .sub, u, rfl⟩
  let l := minus 8 ⟨[], name "f" 10, [ofB]⟩
  let l' := minus 15 ⟨[], two, []⟩
  let c : Chain :=
    ⟨[⟨⟨.ident, "x", ⟨1, 1⟩⟩, ⟨.assign, "=", ⟨1, 3⟩⟩, rfl, rfl⟩],
      ⟨[⟨⟨.minus, "-", ⟨1, 5⟩⟩, .neg, rfl⟩], name "a" 6, []⟩, [l, l']⟩
  have hs : (TokenStream.ofSource "x = -a - f(b) - 2").tokens = c.tokens ++ [] := by decide +kernel
  have hrest : Suffix.ofKind (nextKind []) = none := rfl
  have hleft : TreeOf c.first.expr ([] ++ l :: []) _ := .root (by simp) (by simp) .operand .operand
  have htree : TreeOf c.first.expr ([l] ++ l' :: []) _ :=
    .root (List.forall_mem_singleton.2 (Nat.le_refl _)) (by simp) hleft .operand
  obtain ⟨tree, t, hiff, hparse, hrecorded, htail⟩ := expression_of_chain c hs hrest
  obtain rfl := (hiff _).1 htree
  exact ⟨c, hs, hrest, t, hparse, hrecorded, htail⟩

end Scriptlet
