import Mathlib.Data.List.DropRight
import Mathlib.Tactic.SplitIfs
import Scriptlet.Proofs.Scanning.Tiling

/-!
# Exact positions

A source is kept as octets, and a `Cursor` reads it octet by octet. It counts as it goes: every
octet but a continuation octet takes up a column, and a line feed starts a line. A character that
starts no token is passed by another way. Only its first octet is counted, and the others are
dropped unseen.

**Theorem (`token_positions_exact`).** The position of every token is that of its first character:
its line is one more than there are line feeds before it, and its column one more than there are
characters since the last of them. A cursor gives the tokens out at these positions too.

Two facts carry the proof. Characters are counted one by one what `behind` counts at once
(`after_start`). And a class of characters that says the same of all characters beyond ASCII, true
or false, is met by the octets of a text as it is met by its characters (`advanceWhile_octets`), so
a cursor stops only between characters, at a position that has counted each of them once
(`next_ofScanner`).
-/

namespace Scriptlet

/-! ## Where a token stands -/

namespace Position

/-- The position right behind these characters of a source. -/
def behind (before : List Char) : Position where
  line := 1 + before.count '\n'
  column := 1 + (before.rtakeWhile (· ≠ '\n')).length

theorem behind_concat (before : List Char) (c : Char) :
    behind (before ++ [c]) = (behind before).next c := by
  unfold behind next
  rw [List.rtakeWhile_concat, List.count_append]
  by_cases hc : c = '\n'
  · simp [hc, Nat.add_assoc]
  · simp [hc, Nat.add_assoc]

/-- Counted one by one, the characters come to the same. -/
theorem after_start (before : List Char) : start.after before = behind before := by
  induction before using List.reverseRecOn with
  | nil => rfl
  | append_singleton before c ih => rw [after_append, ih, behind_concat]; rfl

end Position

/-- What a source goes on with after the characters `before` is made up of gaps and tokens in turn.
Each token is the longest at its place, and its position is that of its first character. -/
inductive Placed : List Char → List Char → List Token → Prop
  | finish {before gap : List Char} : (∀ c ∈ gap, isGap c) → Placed before gap []
  | token {before gap raw rest : List Char} {t : Token} {ts : List Token} :
      (∀ c ∈ gap, isGap c) → Munch t.kind t.text.toList raw rest →
      t.position = .behind (before ++ gap) → Placed (before ++ gap ++ raw) rest ts →
      Placed before (gap ++ (raw ++ rest)) (t :: ts)

theorem Placed.gap {before cs : List Char} {c : Char} {ts : List Token} (hc : isGap c)
    (h : Placed (before ++ [c]) cs ts) : Placed before (c :: cs) ts := by
  have hcons {gap : List Char} (h : ∀ d ∈ gap, isGap d) : ∀ d ∈ c :: gap, isGap d := by
    intro d hd
    rcases List.mem_cons.1 hd with rfl | hd
    · exact hc
    · exact h d hd
  cases h with
  | finish hgap => exact .finish (hcons hgap)
  | token hgap ht hp hts =>
    rw [← List.cons_append]
    rw [List.append_assoc before, List.singleton_append] at hp hts
    exact .token (hcons hgap) ht hp hts

/-- The tokens of a source stand where they say, and the source ends where it says. -/
theorem placed_scan (p : Position) (cs : List Char) : ∀ before, p = .behind before →
    Placed before cs (TokenStream.scan p cs).tokens ∧
      (TokenStream.scan p cs).finish = .behind (before ++ cs) := by
  fun_induction TokenStream.scan p cs with
  | case1 p =>
    rintro before rfl
    exact ⟨.finish (List.forall_mem_nil _), by rw [List.append_nil]⟩
  | case2 p c cs hc ih =>
    rintro before rfl
    obtain ⟨htokens, hfinish⟩ := ih (before ++ [c]) (Position.behind_concat before c).symm
    exact ⟨htokens.gap hc, by rw [hfinish, List.append_assoc, List.singleton_append]⟩
  | case3 p c cs hc lexeme ahead ih =>
    rintro before rfl
    have hafter : (Position.behind before).after lexeme.raw = .behind (before ++ lexeme.raw) := by
      rw [← Position.after_start, ← Position.after_append, Position.after_start]
    obtain ⟨htokens, hfinish⟩ := ih _ hafter
    have hmunch : Munch lexeme.kind (String.ofList lexeme.text).toList lexeme.raw
        (Lexeme.read c cs).2 := by
      rw [String.toList_ofList]
      exact Lexeme.munch_read (by simpa using hc) cs
    have hraw : lexeme.raw ++ (Lexeme.read c cs).2 = c :: cs := Lexeme.raw_append_rest c cs
    constructor
    · rw [← hraw, ← List.nil_append (lexeme.raw ++ _)]
      refine .token (List.forall_mem_nil _) hmunch ?_ ?_
      · rw [List.append_nil]
      · rwa [List.append_nil]
    · rw [← hraw, ← List.append_assoc]
      exact hfinish

/-! ## Octets -/

/-- The octets of a text. -/
def octets (cs : List Char) : List UInt8 := cs.flatMap String.utf8EncodeChar

theorem octets_cons (c : Char) (cs : List Char) :
    octets (c :: cs) = String.utf8EncodeChar c ++ octets cs := List.flatMap_cons

theorem octets_append (cs ds : List Char) : octets (cs ++ ds) = octets cs ++ octets ds :=
  List.flatMap_append

/-- The octets that a text is kept as. -/
theorem octets_toList (s : String) : s.toUTF8.data.toList = octets s.toList := by
  conv => lhs; rw [← String.ofList_toList (s := s)]
  exact List.toList_data_toByteArray

namespace Octet

/-- The octet goes on with a character that an octet before it has started. -/
def continues (b : UInt8) : Bool := b &&& 0xC0 == 0x80

theorem continues_iff (b : UInt8) : continues b ↔ 128 ≤ b.toNat ∧ b.toNat < 192 := by
  have hall : ∀ n : Fin 256,
      continues (.ofNat n.val) = decide (128 ≤ n.val ∧ n.val < 192) := by decide +kernel
  have hb := hall ⟨b.toNat, b.toNat_lt⟩
  rw [UInt8.ofNat_toNat] at hb
  simp [hb]

end Octet

/-- Not in ASCII. -/
def Wide (c : Char) : Prop := 128 ≤ c.toNat

instance (c : Char) : Decidable (Wide c) := inferInstanceAs (Decidable (_ ≤ _))

/-- How a character is encoded: in ASCII as itself, and otherwise by a first octet and continuation
octets, none of them in ASCII. -/
inductive Encoded (c : Char) : List UInt8 → Prop
  | narrow {b : UInt8} : ¬ Wide c → Char.ofUInt8 b = c → Octet.continues b = false → Encoded c [b]
  | wide {b : UInt8} {bs : List UInt8} : Wide c → Wide (.ofUInt8 b) →
      Octet.continues b = false → (∀ d ∈ bs, Wide (.ofUInt8 d) ∧ Octet.continues d) →
      Encoded c (b :: bs)

theorem toNat_ofUInt8 (b : UInt8) : (Char.ofUInt8 b).toNat = b.toNat := UInt8.toNat_toUInt32 b

theorem encoded_utf8EncodeChar (c : Char) : Encoded c (String.utf8EncodeChar c) := by
  have hlead {n : Nat} (h : 192 ≤ n) (h' : n < 256) :
      Wide (.ofUInt8 (.ofNat n)) ∧ Octet.continues (.ofNat n) = false := by
    have hn : (UInt8.ofNat n).toNat = n := by rw [UInt8.toNat_ofNat', Nat.mod_eq_of_lt h']
    refine ⟨by rw [Wide, toNat_ofUInt8, hn]; omega, Bool.eq_false_iff.2 fun hc => ?_⟩
    have := (Octet.continues_iff _).1 hc
    omega
  have htail (n : Nat) : Wide (.ofUInt8 (.ofNat (n % 64 + 128))) ∧
      Octet.continues (.ofNat (n % 64 + 128)) := by
    have hn : (UInt8.ofNat (n % 64 + 128)).toNat = n % 64 + 128 := by
      rw [UInt8.toNat_ofNat', Nat.mod_eq_of_lt (by omega)]
    refine ⟨by rw [Wide, toNat_ofUInt8, hn]; omega, (Octet.continues_iff _).2 ?_⟩
    omega
  have hval : c.val.toNat = c.toNat := rfl
  unfold String.utf8EncodeChar
  dsimp only
  split
  · rename_i hle
    have hb : (UInt8.ofNat c.val.toNat).toNat = c.toNat := by
      rw [UInt8.toNat_ofNat', Nat.mod_eq_of_lt (by omega), hval]
    refine .narrow (by rw [Wide]; omega) ?_ (Bool.eq_false_iff.2 fun hc => ?_)
    · rw [← Char.toNat_inj, toNat_ofUInt8, hb]
    · have := (Octet.continues_iff _).1 hc
      omega
  · have hwide : Wide c := by rw [Wide]; omega
    split
    · have h := hlead (n := c.val.toNat / 64 % 32 + 192) (by omega) (by omega)
      exact .wide hwide h.1 h.2 (List.forall_mem_singleton.2 (htail _))
    · split
      · have h := hlead (n := c.val.toNat / 4096 % 16 + 224) (by omega) (by omega)
        exact .wide hwide h.1 h.2
          (List.forall_mem_cons.2 ⟨htail _, List.forall_mem_singleton.2 (htail _)⟩)
      · have h := hlead (n := c.val.toNat / 262144 % 8 + 240) (by omega) (by omega)
        exact .wide hwide h.1 h.2 (List.forall_mem_cons.2
          ⟨htail _, List.forall_mem_cons.2 ⟨htail _, List.forall_mem_singleton.2 (htail _)⟩⟩)

/-! ## Reading octet by octet -/

/-- The position after the octet `b`. A continuation octet shares the column of the first octet. -/
def Position.nextOctet (p : Position) (b : UInt8) : Position :=
  if b = 10 then ⟨p.line + 1, 1⟩
  else if Octet.continues b then p
  else ⟨p.line, p.column + 1⟩

/-- A token with the octets of its text. -/
structure OctetToken where
  kind : Kind
  text : List UInt8
  position : Position
deriving DecidableEq, Repr

def Token.encode (t : Token) : OctetToken := ⟨t.kind, octets t.text.toList, t.position⟩

structure Cursor where
  /-- The octets that are left. -/
  rest : List UInt8
  position : Position
deriving DecidableEq, Repr

namespace Cursor

def ofSource (source : String) : Cursor := ⟨source.toUTF8.data.toList, .start⟩

def advance (k : Cursor) : Cursor :=
  match k.rest with
  | [] => k
  | b :: bs => ⟨bs, k.position.nextOctet b⟩

/-- Past the octets that have `p`, each of them counted. -/
def advanceWhile (p : Char → Bool) : List UInt8 → Position → Cursor
  | [], q => ⟨[], q⟩
  | b :: bs, q => if p (.ofUInt8 b) then advanceWhile p bs (q.nextOctet b) else ⟨b :: bs, q⟩

/-- The octets from `k` up to `stop`. -/
def upTo (k stop : Cursor) : List UInt8 := k.rest.take (k.rest.length - stop.rest.length)

/-- The token of this kind from `k` up to `stop`, and where reading goes on. -/
def token (k : Cursor) (kind : Kind) (stop : Cursor) : OctetToken × Cursor :=
  (⟨kind, k.upTo stop, k.position⟩, stop)

/-- After an operator: the kind `double` if an equals sign follows at once, and else `single`. -/
def operator (k ahead : Cursor) (single double : Kind) : OctetToken × Cursor :=
  if ahead.rest.head?.map Char.ofUInt8 = some '=' then k.token double ahead.advance
  else k.token single ahead

/-- The token right here, whose first octet is `b`. What follows this octet is `ahead`. -/
def read (k : Cursor) (b : UInt8) (ahead : Cursor) : OctetToken × Cursor :=
  let c := Char.ofUInt8 b
  match Kind.ofPunctuation c with
  | some kind => k.token kind ahead
  | none =>
    if c = '=' then k.operator ahead .assign .equal
    else if c = '!' then k.operator ahead .bang .notEqual
    else if c = '"' then
      let quote := advanceWhile (· ≠ '"') ahead.rest ahead.position
      (⟨.string, ahead.upTo quote, k.position⟩, quote.advance)
    else if c.isDigit then k.token .int (advanceWhile Char.isDigit ahead.rest ahead.position)
    else if isWordStart c then
      let stop := advanceWhile isWordPart ahead.rest ahead.position
      k.token (.ofWord (String.ofList ((k.upTo stop).map Char.ofUInt8))) stop
    else
      -- The rest of the character is not counted.
      k.token .illegal ⟨ahead.rest.dropWhile Octet.continues, ahead.position⟩

/-- The next token, and where reading goes on. -/
def next (k : Cursor) : OctetToken × Cursor :=
  let here := advanceWhile isGap k.rest k.position
  match here.rest with
  | [] => (⟨.eof, [], here.position⟩, here)
  | b :: bs => here.read b ⟨bs, here.position.nextOctet b⟩

/-- The token that the call of index `i` gives. -/
def call (k : Cursor) : Nat → OctetToken
  | 0 => k.next.1
  | i + 1 => k.next.2.call i

end Cursor

/-! ## Octets and characters -/

namespace Position

theorem nextOctet_of_continues (p : Position) {b : UInt8} (h : Octet.continues b) :
    p.nextOctet b = p := by
  have hb : b ≠ 10 := by
    rintro rfl
    exact absurd h (by decide)
  rw [nextOctet, if_neg hb, if_pos h]

/-- The first octet of a character counts for the character. -/
theorem nextOctet_first (p : Position) {c : Char} {b : UInt8} {bs : List UInt8}
    (h : Encoded c (b :: bs)) : p.nextOctet b = p.next c := by
  have hten (h : Char.ofUInt8 b = '\n') : b = 10 := by
    rw [← UInt8.toNat_inj, ← toNat_ofUInt8, h]
    rfl
  cases h with
  | narrow _ hc hfirst =>
    subst hc
    by_cases hb : b = 10
    · subst hb
      rfl
    · rw [nextOctet, if_neg hb, if_neg (by simp [hfirst]), next, if_neg (mt hten hb)]
  | wide hc hb hfirst _ =>
    have hc' : c ≠ '\n' := by
      rintro rfl
      exact absurd hc (by decide)
    have hb' : b ≠ 10 := by
      rintro rfl
      exact absurd hb (by decide)
    rw [nextOctet, if_neg hb', if_neg (by simp [hfirst]), next, if_neg hc']

end Position

namespace Cursor

/-- The octets that go on with a character are passed where all that is wide is, and not counted. -/
theorem advanceWhile_continues {p : Char → Bool} (hp : ∀ c, Wide c → p c)
    {bs : List UInt8} (hbs : ∀ d ∈ bs, Wide (.ofUInt8 d) ∧ Octet.continues d)
    (more : List UInt8) (q : Position) :
    advanceWhile p (bs ++ more) q = advanceWhile p more q := by
  induction bs with
  | nil => rfl
  | cons b bs ih =>
    obtain ⟨hb, hbs⟩ := List.forall_mem_cons.1 hbs
    rw [List.cons_append, advanceWhile, if_pos (hp _ hb.1), q.nextOctet_of_continues hb.2, ih hbs]

/-- **A class of characters is met by octets as it is by characters**, if it says the same of all
that is wide. -/
theorem advanceWhile_octets {p : Char → Bool} {wide : Bool} (hp : ∀ c, Wide c → p c = wide)
    (cs : List Char) (q : Position) :
    advanceWhile p (octets cs) q =
      ⟨octets (cs.dropWhile p), q.after (cs.takeWhile p)⟩ := by
  induction cs generalizing q with
  | nil => rfl
  | cons c cs ih =>
    have henc := encoded_utf8EncodeChar c
    rw [octets_cons]
    -- Only the first octet decides.
    obtain ⟨b, bs, hbs⟩ : ∃ b bs, String.utf8EncodeChar c = b :: bs := by
      generalize String.utf8EncodeChar c = ds at henc
      cases henc with
      | narrow => exact ⟨_, _, rfl⟩
      | wide => exact ⟨_, _, rfl⟩
    have hpb : p (.ofUInt8 b) = p c := by
      rw [hbs] at henc
      cases henc with
      | narrow _ hc _ => rw [hc]
      | wide hc hb _ _ => rw [hp _ hb, hp _ hc]
    rw [hbs] at henc
    rw [hbs, List.cons_append, advanceWhile, hpb, q.nextOctet_first henc]
    cases hpc : p c with
    | false =>
      rw [if_neg (by decide), List.takeWhile_cons_of_neg (by simp [hpc]),
        List.dropWhile_cons_of_neg (by simp [hpc]), octets_cons, hbs]
      rfl
    | true =>
      have htail : advanceWhile p (bs ++ octets cs) (q.next c) =
          advanceWhile p (octets cs) (q.next c) := by
        cases henc with
        | narrow => rfl
        | wide hc _ _ hbs =>
          refine advanceWhile_continues (fun d hd => ?_) hbs _ _
          rw [hp d hd, ← hp c hc, hpc]
      rw [if_pos rfl, htail, ih, List.takeWhile_cons_of_pos hpc, List.dropWhile_cons_of_pos hpc]
      rfl

/-! ## Cursors and scanners -/

/-- A scanner, seen as a cursor. -/
def ofScanner (s : Scanner) : Cursor := ⟨octets s.rest, s.position⟩

theorem ofScanner_ofSource (source : String) :
    ofScanner (.ofSource source) = ofSource source :=
  congrArg (Cursor.mk · .start) (octets_toList source).symm

theorem upTo_append {k stop : Cursor} {raw : List Char}
    (h : k.rest = octets raw ++ stop.rest) : k.upTo stop = octets raw := by
  rw [upTo, h, List.length_append, Nat.add_sub_cancel, List.take_left]

/-- A lexeme that keeps all its characters is the token of its kind from its first octet on. -/
theorem token_plain {c : Char} {cs tail rest : List Char} (hcs : tail ++ rest = cs) (kind : Kind)
    (p : Position) :
    token ⟨octets (c :: cs), p⟩ kind ⟨octets rest, p.after (c :: tail)⟩ =
      (⟨kind, octets (c :: tail), p⟩, ⟨octets rest, p.after (c :: tail)⟩) := by
  have hrest : octets (c :: cs) = octets (c :: tail) ++ octets rest := by
    rw [← hcs, ← octets_append, List.cons_append]
  rw [token, upTo_append hrest]

end Cursor

theorem isWordPart_of_wide {c : Char} (h : Wide c) : isWordPart c = false := by
  have hc : 128 ≤ c.val.toNat := h
  have hunderscore : c ≠ '_' := by
    rintro rfl
    exact absurd h (by decide)
  delta isWordPart Char.isAlphanum Char.isAlpha Char.isUpper Char.isLower Char.isDigit
  simp only [Bool.or_eq_false_iff, Bool.and_eq_false_iff, decide_eq_false_iff_not, ge_iff_le,
    UInt32.le_iff_toNat_le]
  have hz : 'z'.val.toNat = 122 ∧ 'Z'.val.toNat = 90 ∧ '9'.val.toNat = 57 := by decide
  exact ⟨⟨⟨by omega, .inr (by omega)⟩, .inr (by omega)⟩, hunderscore⟩

theorem startsNothing_of_wide {c : Char} (h : Wide c) : StartsNothing c where
  gap := by
    refine Bool.eq_false_iff.2 fun hgap => ?_
    simp only [isGap, Bool.or_eq_true, decide_eq_true_eq] at hgap
    rcases hgap with ((rfl | rfl) | rfl) | rfl <;> exact absurd h (by decide)
  punctuation := by
    unfold Kind.ofPunctuation
    split <;> first | rfl | exact absurd h (by decide)
  equals := by rintro rfl; exact absurd h (by decide)
  bang := by rintro rfl; exact absurd h (by decide)
  quote := by rintro rfl; exact absurd h (by decide)
  digit := Bool.eq_false_iff.2 fun hc =>
    Bool.eq_false_iff.1 (isWordPart_of_wide h) (isWordPart_of_isDigit hc)
  word := Bool.eq_false_iff.2 fun hc =>
    Bool.eq_false_iff.1 (isWordPart_of_wide h) (isWordPart_of_isWordStart hc)

/-- A text in ASCII has one octet for each character. -/
theorem map_ofUInt8_octets {cs : List Char} (h : ∀ c ∈ cs, ¬ Wide c) :
    (octets cs).map Char.ofUInt8 = cs := by
  induction cs with
  | nil => rfl
  | cons c cs ih =>
    obtain ⟨hc, hcs⟩ := List.forall_mem_cons.1 h
    have henc := encoded_utf8EncodeChar c
    rw [octets_cons, List.map_append, ih hcs]
    generalize String.utf8EncodeChar c = bs at henc
    cases henc with
    | narrow _ hb _ => rw [List.map_singleton, hb, List.singleton_append]
    | wide hwide => exact absurd hwide hc

/-- No text starts with a continuation octet. -/
theorem dropWhile_continues_octets (cs : List Char) :
    (octets cs).dropWhile Octet.continues = octets cs := by
  cases cs with
  | nil => rfl
  | cons c cs =>
    have henc := encoded_utf8EncodeChar c
    rw [octets_cons]
    generalize String.utf8EncodeChar c = bs at henc
    cases henc with
    | narrow _ _ hfirst | wide _ _ hfirst _ =>
      exact List.dropWhile_cons_of_neg (by simp [hfirst])

namespace Cursor

/-- The lexeme `l` at the position `p`, as a cursor gives it out. -/
def ofLexeme (p : Position) (l : Lexeme × List Char) : OctetToken × Cursor :=
  (⟨l.1.kind, octets l.1.text, p⟩, ⟨octets l.2, p.after l.1.raw⟩)

/-- The first octet of a text is a character in ASCII where the text starts with it. -/
theorem head?_octets {c : Char} (hc : ¬ Wide c) (cs : List Char) :
    (octets cs).head?.map Char.ofUInt8 = some c ↔ cs.head? = some c := by
  cases cs with
  | nil => exact iff_of_false nofun nofun
  | cons d cs =>
    have henc := encoded_utf8EncodeChar d
    rw [octets_cons]
    generalize String.utf8EncodeChar d = bs at henc
    cases henc with
    | narrow _ hb _ => simp [hb]
    | wide hd hb _ _ =>
      simp only [List.cons_append, List.head?_cons, Option.map_some, Option.some.injEq]
      constructor
      · rintro rfl
        exact absurd hb hc
      · rintro rfl
        exact absurd hd hc

theorem advance_octets {c : Char} (hc : ¬ Wide c) (cs : List Char) (p : Position) :
    advance ⟨octets (c :: cs), p⟩ = ⟨octets cs, p.next c⟩ := by
  have henc := encoded_utf8EncodeChar c
  rw [octets_cons]
  generalize String.utf8EncodeChar c = bs at henc
  cases henc with
  | narrow hw hb hfirst =>
    have hnext := p.nextOctet_first (.narrow hw hb hfirst)
    rw [← hnext]
    rfl
  | wide hwide => exact absurd hwide hc

/-- An operator is read alike. -/
theorem operator_octets {c : Char} (single double : Kind) (cs : List Char) (p : Position) :
    operator ⟨octets (c :: cs), p⟩ ⟨octets cs, p.next c⟩ single double =
      ofLexeme p (Lexeme.readOperator c single double cs) := by
  have hequals : ¬ Wide '=' := by decide
  rw [operator]
  by_cases hhead : cs.head? = some '='
  · obtain ⟨rest, rfl⟩ := List.head?_eq_some_iff.1 hhead
    rw [if_pos ((head?_octets hequals _).2 hhead), advance_octets hequals]
    exact token_plain List.singleton_append double p
  · rw [if_neg (mt (head?_octets hequals cs).1 hhead), readOperator_single hhead]
    exact token_plain (List.nil_append cs) single p

/-- A string is read alike. -/
theorem string_octets (cs : List Char) (p : Position) :
    let ahead : Cursor := ⟨octets cs, p.next '"'⟩
    let quote := advanceWhile (· ≠ '"') ahead.rest ahead.position
    ((⟨.string, ahead.upTo quote, p⟩ : OctetToken), quote.advance) =
      ofLexeme p (Lexeme.readString cs) := by
  have hquote : ¬ Wide '"' := by decide
  have hwide : ∀ d, Wide d → decide (d ≠ '"') = true := fun d hd =>
    decide_eq_true (startsNothing_of_wide hd).quote
  have hsplit := List.takeWhile_append_dropWhile (p := (· ≠ '"')) (l := cs)
  dsimp only
  rw [advanceWhile_octets hwide, Lexeme.readString]
  have hupTo : upTo ⟨octets cs, p.next '"'⟩ ⟨octets (cs.dropWhile (· ≠ '"')),
      (p.next '"').after (cs.takeWhile (· ≠ '"'))⟩ = octets (cs.takeWhile (· ≠ '"')) := by
    refine upTo_append ?_
    rw [← octets_append, hsplit]
  rw [hupTo]
  split
  · rename_i hd
    rw [hd]
    rfl
  · rename_i q rest hd
    have hq : q = '"' := by
      have h := List.head?_dropWhile_not (fun c : Char => decide (c ≠ '"')) cs
      rw [hd] at h
      simpa using h
    subst hq
    rw [hd, advance_octets hquote, ofLexeme, Position.after_append]
    rfl

/-- Where a character in ASCII stands first, the same is read. -/
theorem read_octets {c : Char} {b : UInt8} (hb : Char.ofUInt8 b = c) (cs : List Char)
    (p : Position) :
    read ⟨octets (c :: cs), p⟩ b ⟨octets cs, p.next c⟩ = ofLexeme p (Lexeme.read c cs) := by
  unfold read Lexeme.read
  dsimp only
  rw [hb]
  cases Kind.ofPunctuation c with
  | some kind => exact token_plain (List.nil_append cs) kind p
  | none =>
    dsimp only
    split_ifs with hequals hbang hquote hdigit hword
    · exact operator_octets .assign .equal cs p
    · exact operator_octets .bang .notEqual cs p
    · subst hquote
      exact string_octets cs p
    · rw [advanceWhile_octets (fun d hd => (startsNothing_of_wide hd).digit)]
      exact token_plain List.takeWhile_append_dropWhile .int p
    · have hnarrow : ∀ d ∈ c :: cs.takeWhile isWordPart, ¬ Wide d := by
        intro d hd hwide
        have hd' : isWordPart d := by
          rcases List.mem_cons.1 hd with rfl | hd
          · exact isWordPart_of_isWordStart hword
          · exact List.all_eq_true.1 List.all_takeWhile d hd
        exact absurd hd' (by simp [isWordPart_of_wide hwide])
      rw [advanceWhile_octets (fun d hd => isWordPart_of_wide hd)]
      have htoken := token_plain (c := c) (List.takeWhile_append_dropWhile (p := isWordPart)
        (l := cs)) (.ofWord (String.ofList (c :: cs.takeWhile isWordPart))) p
      have hupTo := congrArg (fun o => o.1.text) htoken
      dsimp only [token] at hupTo
      rw [Position.after_cons] at hupTo htoken
      rw [hupTo, map_ofUInt8_octets hnarrow, htoken]
      rfl
    · rw [dropWhile_continues_octets]
      exact token_plain (List.nil_append cs) .illegal p

/-- A wide character is read alike. It is illegal, and its octets after the first are dropped. -/
theorem read_wide {c : Char} {b : UInt8} {bs : List UInt8} (hc : Wide c) (hb : Wide (.ofUInt8 b))
    (hbs : ∀ d ∈ bs, Wide (.ofUInt8 d) ∧ Octet.continues d) (cs : List Char) (p : Position) :
    read ⟨octets (c :: cs), p⟩ b ⟨bs ++ octets cs, p.next c⟩ = ofLexeme p (Lexeme.read c cs) := by
  have hread : Lexeme.read c cs = (.plain .illegal [c], cs) := by
    have h := startsNothing_of_wide hc
    rw [Lexeme.read, h.punctuation]
    dsimp only
    rw [if_neg h.equals, if_neg h.bang, if_neg h.quote, if_neg (by simp [h.digit]),
      if_neg (by simp [h.word])]
  have h := startsNothing_of_wide hb
  rw [read, h.punctuation]
  dsimp only
  rw [if_neg h.equals, if_neg h.bang, if_neg h.quote, if_neg (by simp [h.digit]),
    if_neg (by simp [h.word]), List.dropWhile_append_of_pos fun d hd => (hbs d hd).2,
    dropWhile_continues_octets, hread]
  exact token_plain (List.nil_append cs) .illegal p

/-- **A cursor reads what a scanner reads**, and both go on at the same place. -/
theorem next_ofScanner (s : Scanner) :
    (ofScanner s).next = (s.next.1.encode, ofScanner s.next.2) := by
  have hgap : advanceWhile isGap (ofScanner s).rest (ofScanner s).position =
      ofScanner s.skipGap :=
    advanceWhile_octets (fun d hd => (startsNothing_of_wide hd).gap) s.rest s.position
  rw [next, hgap, Scanner.next]
  generalize s.skipGap = here
  obtain ⟨_ | ⟨c, cs⟩, p⟩ := here
  · rfl
  · have hread : ((Scanner.read ⟨c :: cs, p⟩).1.encode, ofScanner (Scanner.read ⟨c :: cs, p⟩).2) =
        ofLexeme p (Lexeme.read c cs) := by
      simp only [Scanner.read, Token.encode, String.toList_ofList, ofScanner, ofLexeme]
    have henc := encoded_utf8EncodeChar c
    have hocts := octets_cons c cs
    rw [hread, ofScanner]
    dsimp only
    generalize String.utf8EncodeChar c = bs at henc hocts
    cases henc with
    | narrow hw hb hfirst =>
      have hnext := p.nextOctet_first (.narrow hw hb hfirst)
      rw [← read_octets hb cs p, hocts, ← hnext]
      rfl
    | wide hw hb hfirst htail =>
      have hnext := p.nextOctet_first (.wide hw hb hfirst htail)
      rw [← read_wide hw hb htail cs p, hocts, ← hnext]
      rfl

theorem call_ofScanner (s : Scanner) (i : Nat) :
    (ofScanner s).call i = (s.token i).encode := by
  induction i generalizing s with
  | zero => rw [call, next_ofScanner, Scanner.token]
  | succ i ih => rw [call, next_ofScanner, Scanner.token, ih]

end Cursor

/-- **The position of a token is that of its first character**, and the end token stands where the
source ends: on the line one more than there are line feeds before, and in the column one more than
there are characters since the last of them. A cursor, which counts octets, says the same of every
token, however often it is called. -/
theorem token_positions_exact (source : String) :
    ∃ tokens finish, (Scanner.ofSource source).tokenize = tokens ++ [⟨.eof, "", finish⟩] ∧
      Placed [] source.toList tokens ∧ finish = .behind source.toList ∧
      ∀ i, (Cursor.ofSource source).call i = (tokens.getD i ⟨.eof, "", finish⟩).encode := by
  obtain ⟨hplaced, hfinish⟩ := placed_scan .start source.toList [] rfl
  rw [List.nil_append] at hfinish
  have hstream : (Scanner.ofSource source).stream = TokenStream.ofSource source := rfl
  refine ⟨(TokenStream.ofSource source).tokens, (TokenStream.ofSource source).finish, ?_,
    hplaced, hfinish, fun i => ?_⟩
  · rw [Scanner.tokenize_eq, hstream]
    rfl
  · rw [← Cursor.ofScanner_ofSource, Cursor.call_ofScanner, Scanner.token_eq, hstream]
    rfl

/-- A carriage return takes up a column, and a character of four octets one as well. -/
example : ((Scanner.ofSource "\"é\n\" \r😀x").tokenize.map Token.position) =
    [⟨1, 1⟩, ⟨2, 4⟩, ⟨2, 5⟩, ⟨2, 6⟩] := by decide +kernel

end Scriptlet
