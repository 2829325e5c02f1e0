import Scriptlet.Proofs.Display.Cycles
import Scriptlet.Proofs.Reachability

/-!
# Data

A value is data if it is made up of integers, booleans, `null`, arrays, and hashes whose keys are
integers or booleans. What matters about it is the tree that it unfolds to in a store
(`Data.Of`): which collections there are and which of them are shared does not show in it. Two
values are the same data, perhaps in different stores, if they unfold to the same tree.

**Theorem (`exists_data_iff`).** A value unfolds to a tree exactly if everything in it is data and
it reaches no collection that contains itself.

**Lemma (`Data.text_eq`).** Its text is the text of the tree.

The least integer is left out (`Scalar`), since no literal says it.
-/

namespace Scriptlet

/-- An integer but the least, or a boolean. -/
inductive Scalar where
  | integer (n : Integer) (h : n ≠ Int64.minValue)
  | bool (b : Bool)
deriving DecidableEq, Repr

def Scalar.key : Scalar → HashKey
  | integer n _ => .integer n
  | bool b => .bool b

/-- Data as a tree. The entries of a hash are in order. -/
inductive Data where
  | scalar (s : Scalar)
  | null
  | array (items : List Data)
  | hash (entries : List (Scalar × Data))

mutual

def Data.text : Data → String
  | .scalar s => s.key.text
  | .null => "null"
  | .array ds => "[" ++ ", ".intercalate (itemTexts ds) ++ "]"
  | .hash es => "\x7b" ++ ", ".intercalate (entryTexts es) ++ "\x7d"

def itemTexts : List Data → List String
  | [] => []
  | d :: ds => d.text :: itemTexts ds

def entryTexts : List (Scalar × Data) → List String
  | [] => []
  | (s, d) :: es => (s.key.text ++ ": " ++ d.text) :: entryTexts es

end

mutual

/-- How deep evaluation nests in a literal of the data. -/
def Data.height : Data → Nat
  | .scalar _ => 2
  | .null => 1
  | .array ds => itemsHeight ds + 1
  | .hash es => entriesHeight es + 1

def itemsHeight : List Data → Nat
  | [] => 0
  | d :: ds => max d.height (itemsHeight ds)

def entriesHeight : List (Scalar × Data) → Nat
  | [] => 2
  | (_, d) :: es => max d.height (entriesHeight es)

end

/-! ## Unfolding -/

mutual

/-- The value unfolds to the tree in the store `σ`. -/
def Data.Of (σ : Store) : Data → Value → Prop
  | .scalar s, v => v = s.key.value
  | .null, v => v = .null
  | .array ds, v => ∃ id, v = .array id ∧ σ.Has (.array id) ∧ ItemsOf σ ds (σ.items id).toList
  | .hash es, v => ∃ id, v = .hash id ∧ σ.Has (.hash id) ∧ (σ.pairs id).keys.Nodup ∧
      EntriesOf σ es (σ.pairs id).entries

def ItemsOf (σ : Store) : List Data → List Value → Prop
  | [], vs => vs = []
  | d :: ds, vs => ∃ v ws, vs = v :: ws ∧ d.Of σ v ∧ ItemsOf σ ds ws

def EntriesOf (σ : Store) : List (Scalar × Data) → List (HashKey × Value) → Prop
  | [], kvs => kvs = []
  | (s, d) :: es, kvs => ∃ v rest, kvs = (s.key, v) :: rest ∧ d.Of σ v ∧ EntriesOf σ es rest

end

namespace Store

/-- The value is data, apart from what is in it. -/
def IsDatum (σ : Store) : Value → Prop
  | .integer n => n ≠ Int64.minValue
  | .bool _ | .null => True
  | .array id => σ.Has (.array id)
  | .hash id => σ.Has (.hash id) ∧ (σ.pairs id).keys.Nodup ∧
      ∀ k ∈ (σ.pairs id).keys, ∃ s : Scalar, s.key = k
  | _ => False

/-- What there is in `σ` is the same in `τ`. -/
structure Extends (σ τ : Store) : Prop where
  grows : σ.Grows τ
  same : ∀ l, σ.Has l → σ.Same τ l

end Store

variable {σ τ ρ : Store}

namespace Store.Extends

theorem refl (σ : Store) : σ.Extends σ := ⟨Grows.refl σ, fun l _ => Same.refl σ l⟩

theorem trans (h : σ.Extends τ) (h' : τ.Extends ρ) : σ.Extends ρ :=
  ⟨h.grows.trans h'.grows, fun l hl => (h.same l hl).trans (h'.same l (h.grows l hl))⟩

theorem pushArray (σ : Store) (vs : Array Value) :
    σ.Extends { σ with arrays := σ.arrays.push vs } :=
  ⟨σ.grows_pushArray vs, fun _ hl => σ.same_pushArray vs hl⟩

theorem pushHash (σ : Store) (m : OrderedMap HashKey Value) :
    σ.Extends { σ with hashes := σ.hashes.push m } :=
  ⟨σ.grows_pushHash m, fun _ hl => σ.same_pushHash m hl⟩

theorem items_eq (h : σ.Extends τ) {id : ArrayId} (hid : σ.Has (.array id)) :
    τ.items id = σ.items id := by
  have hsame : σ.arrays[id]? = τ.arrays[id]? := h.same _ hid
  rw [Store.items, Store.items, hsame]

theorem pairs_eq (h : σ.Extends τ) {id : HashId} (hid : σ.Has (.hash id)) :
    τ.pairs id = σ.pairs id := by
  have hsame : σ.hashes[id]? = τ.hashes[id]? := h.same _ hid
  rw [Store.pairs, Store.pairs, hsame]

end Store.Extends

/-! ### What is new changes no unfolding -/

mutual

theorem Data.Of.extend (hτ : σ.Extends τ) : (d : Data) → {v : Value} → d.Of σ v → d.Of τ v
  | .scalar _, _, h | .null, _, h => h
  | .array ds, _, ⟨id, hv, hid, hds⟩ =>
    ⟨id, hv, hτ.grows _ hid, hτ.items_eq hid ▸ ItemsOf.extend hτ ds hds⟩
  | .hash es, _, ⟨id, hv, hid, hnodup, hes⟩ =>
    ⟨id, hv, hτ.grows _ hid, hτ.pairs_eq hid ▸ hnodup,
      hτ.pairs_eq hid ▸ EntriesOf.extend hτ es hes⟩

theorem ItemsOf.extend (hτ : σ.Extends τ) :
    (ds : List Data) → {vs : List Value} → ItemsOf σ ds vs → ItemsOf τ ds vs
  | [], _, h => h
  | d :: ds, _, ⟨v, ws, hvs, hd, hds⟩ =>
    ⟨v, ws, hvs, Data.Of.extend hτ d hd, ItemsOf.extend hτ ds hds⟩

theorem EntriesOf.extend (hτ : σ.Extends τ) :
    (es : List (Scalar × Data)) → {kvs : List (HashKey × Value)} → EntriesOf σ es kvs →
      EntriesOf τ es kvs
  | [], _, h => h
  | (_, d) :: es, _, ⟨v, rest, hkvs, hd, hes⟩ =>
    ⟨v, rest, hkvs, Data.Of.extend hτ d hd, EntriesOf.extend hτ es hes⟩

end

theorem EntriesOf.keys_eq {es : List (Scalar × Data)} {kvs : List (HashKey × Value)}
    (h : EntriesOf σ es kvs) : kvs.map Prod.fst = es.map fun e => e.1.key := by
  induction es generalizing kvs with
  | nil =>
    obtain rfl : kvs = [] := h
    rfl
  | cons e es ih =>
    obtain ⟨s, d⟩ := e
    obtain ⟨v, rest, rfl, -, hes⟩ := h
    exact congrArg (s.key :: ·) (ih hes)

/-! ## The text of data -/

theorem Scalar.key_value (s : Scalar) : s.key.value.collection? = none := by cases s <;> rfl

theorem Scalar.scalarText_value (s : Scalar) : s.key.value.scalarText = s.key.text := by
  cases s <;> rfl

mutual

theorem Data.plainText : (d : Data) → {v : Value} → {n : Nat} → d.Of σ v → d.height ≤ n →
    σ.plainText n v = some d.text
  | .scalar s, _, n + 1, rfl, _ => by
    rw [Store.plainText, s.key_value, s.scalarText_value]
    rfl
  | .null, _, n + 1, rfl, _ => rfl
  | .array ds, _, n + 1, ⟨id, rfl, _, hds⟩, hn => by
    have hitems := ItemsOf.plainTexts ds hds (Nat.le_of_succ_le_succ hn)
    have hmembers : (σ.members (.array id)).mapM (fun e => (σ.plainText n e.2).map (e.1 ++ ·)) =
        some (itemTexts ds) :=
      Store.mapM_eq_some_iff.2 (List.forall₂_map_left_iff.2 hitems)
    exact congrArg (Option.map (Collection.array id).textOf) hmembers
  | .hash es, _, n + 1, ⟨id, rfl, _, _, hes⟩, hn => by
    have hentries := EntriesOf.plainTexts es hes (Nat.le_of_succ_le_succ hn)
    have hmembers : (σ.members (.hash id)).mapM (fun e => (σ.plainText n e.2).map (e.1 ++ ·)) =
        some (entryTexts es) :=
      Store.mapM_eq_some_iff.2 (List.forall₂_map_left_iff.2 hentries)
    exact congrArg (Option.map (Collection.hash id).textOf) hmembers

theorem ItemsOf.plainTexts : (ds : List Data) → {vs : List Value} → {n : Nat} → ItemsOf σ ds vs →
    itemsHeight ds ≤ n →
    List.Forall₂ (fun v t => (σ.plainText n v).map ("" ++ ·) = some t) vs (itemTexts ds)
  | [], _, _, rfl, _ => .nil
  | d :: ds, _, _, ⟨v, ws, rfl, hd, hds⟩, hn => by
    refine .cons ?_ (ItemsOf.plainTexts ds hds (Nat.le_trans (Nat.le_max_right _ _) hn))
    rw [d.plainText hd (Nat.le_trans (Nat.le_max_left _ _) hn), Option.map_some,
      String.empty_append]

theorem EntriesOf.plainTexts : (es : List (Scalar × Data)) → {kvs : List (HashKey × Value)} →
    {n : Nat} → EntriesOf σ es kvs → entriesHeight es ≤ n →
    List.Forall₂ (fun e t => (σ.plainText n e.2).map (e.1.text ++ ": " ++ ·) = some t) kvs
      (entryTexts es)
  | [], _, _, rfl, _ => .nil
  | (s, d) :: es, _, _, ⟨v, rest, rfl, hd, hes⟩, hn => by
    refine .cons ?_ (EntriesOf.plainTexts es hes (Nat.le_trans (Nat.le_max_right _ _) hn))
    rw [d.plainText hd (Nat.le_trans (Nat.le_max_left _ _) hn), Option.map_some]

end

/-- **Data is printed as its tree**, and it reaches no collection that contains itself. -/
theorem Data.text_eq {d : Data} {v : Value} (h : d.Of σ v) :
    ¬ σ.ReachesCycle v ∧ σ.text v = d.text := by
  have hplain : ∃ n, σ.plainText n v = some d.text := ⟨_, d.plainText h (Nat.le_refl _)⟩
  obtain ⟨hcycle, htext⟩ := Store.exists_plainText_iff.1 hplain
  exact ⟨hcycle, htext.symm⟩

/-! ## What unfolds -/

theorem exists_itemsOf_iff {vs : List Value} :
    (∃ ds, ItemsOf σ ds vs) ↔ ∀ v ∈ vs, ∃ d : Data, d.Of σ v := by
  induction vs with
  | nil => exact ⟨fun _ => nofun, fun _ => ⟨[], rfl⟩⟩
  | cons v vs ih =>
    rw [List.forall_mem_cons, ← ih]
    constructor
    · rintro ⟨_ | ⟨d, ds⟩, h⟩
      · cases h
      · obtain ⟨_, _, hvs, hd, hds⟩ := h
        cases hvs
        exact ⟨⟨d, hd⟩, ds, hds⟩
    · rintro ⟨⟨d, hd⟩, ds, hds⟩
      exact ⟨d :: ds, v, vs, rfl, hd, hds⟩

theorem exists_entriesOf_iff {kvs : List (HashKey × Value)} :
    (∃ es, EntriesOf σ es kvs) ↔
      ∀ e ∈ kvs, (∃ s : Scalar, s.key = e.1) ∧ ∃ d : Data, d.Of σ e.2 := by
  induction kvs with
  | nil => exact ⟨fun _ => nofun, fun _ => ⟨[], rfl⟩⟩
  | cons e kvs ih =>
    rw [List.forall_mem_cons, ← ih]
    constructor
    · rintro ⟨_ | ⟨⟨s, d⟩, es⟩, h⟩
      · cases h
      · obtain ⟨_, _, hkvs, hd, hes⟩ := h
        cases hkvs
        exact ⟨⟨⟨s, rfl⟩, d, hd⟩, es, hes⟩
    · obtain ⟨k, v⟩ := e
      rintro ⟨⟨⟨s, rfl⟩, d, hd⟩, es, hes⟩
      exact ⟨(s, d) :: es, v, kvs, rfl, hd, hes⟩

/-- What can be written out to some depth, and is data throughout, unfolds to a tree. -/
theorem exists_data_of_plainText {n : Nat} {v : Value} {t : String}
    (h : σ.plainText n v = some t) (hdata : ∀ p path w, σ.Occurs v p path w → σ.IsDatum w) :
    ∃ d : Data, d.Of σ v := by
  induction n generalizing v t with
  | zero => cases h
  | succ n ih =>
    have hmember {c : Collection} (hc : v.collection? = some c) :
        ∀ e ∈ σ.members c, ∃ d : Data, d.Of σ e.2 := by
      intro e he
      rw [Store.plainText, hc] at h
      obtain ⟨texts, htexts, -⟩ := Option.map_eq_some_iff.1 h
      obtain ⟨t', ht'⟩ := Store.exists_of_mapM_eq_some htexts e he
      obtain ⟨s, hs, -⟩ := Option.map_eq_some_iff.1 ht'
      obtain ⟨i, hi⟩ := List.mem_iff_getElem?.1 he
      exact ih hs fun p path w hw => hdata _ _ w (.member hc hi hw)
    have hv := hdata [] [] v .here
    cases v with
    | integer k => exact ⟨.scalar (.integer k hv), rfl⟩
    | bool b => exact ⟨.scalar (.bool b), rfl⟩
    | null => exact ⟨.null, rfl⟩
    | array id =>
      have hitems : ∀ v ∈ (σ.items id).toList, ∃ d : Data, d.Of σ v := fun v hv =>
        hmember rfl ("", v) (List.mem_map_of_mem hv)
      obtain ⟨ds, hds⟩ := exists_itemsOf_iff.2 hitems
      exact ⟨.array ds, id, rfl, hv, hds⟩
    | hash id =>
      obtain ⟨hid, hnodup, hkeys⟩ := hv
      have hentries : ∀ e ∈ (σ.pairs id).entries,
          (∃ s : Scalar, s.key = e.1) ∧ ∃ d : Data, d.Of σ e.2 := fun e he =>
        ⟨hkeys _ (List.mem_map_of_mem he),
          hmember rfl (e.1.text ++ ": ", e.2) (List.mem_map_of_mem he)⟩
      obtain ⟨es, hes⟩ := exists_entriesOf_iff.2 hentries
      exact ⟨.hash es, id, rfl, hid, hnodup, hes⟩
    | _ => exact hv.elim

theorem Data.Of.isDatum {d : Data} {v : Value} (h : d.Of σ v) : σ.IsDatum v := by
  cases d with
  | scalar s =>
    obtain rfl := h
    cases s with
    | integer n hn => exact hn
    | bool b => trivial
  | null =>
    obtain rfl := h
    trivial
  | array ds =>
    obtain ⟨id, rfl, hid, -⟩ := h
    exact hid
  | hash es =>
    obtain ⟨id, rfl, hid, hnodup, hes⟩ := h
    refine ⟨hid, hnodup, fun k hk => ?_⟩
    obtain ⟨e, he, rfl⟩ := List.mem_map.1 hk
    exact (exists_entriesOf_iff.1 ⟨es, hes⟩ e he).1

theorem Data.Of.member {d : Data} {v : Value} (h : d.Of σ v) {c : Collection}
    (hc : v.collection? = some c) {e : String × Value} (he : e ∈ σ.members c) :
    ∃ d' : Data, d'.Of σ e.2 := by
  cases d with
  | scalar s =>
    obtain rfl := h
    rw [s.key_value] at hc
    cases hc
  | null =>
    obtain rfl := h
    cases hc
  | array ds =>
    obtain ⟨id, rfl, -, hds⟩ := h
    cases hc
    obtain ⟨w, hw, rfl⟩ := List.mem_map.1 he
    exact exists_itemsOf_iff.1 ⟨ds, hds⟩ w hw
  | hash es =>
    obtain ⟨id, rfl, -, -, hes⟩ := h
    cases hc
    obtain ⟨kv, hkv, rfl⟩ := List.mem_map.1 he
    exact (exists_entriesOf_iff.1 ⟨es, hes⟩ kv hkv).2

/-- **Data throughout, without a collection that contains itself, is what unfolds to a tree.** -/
theorem exists_data_iff {v : Value} :
    (∃ d : Data, d.Of σ v) ↔
      (∀ p path w, σ.Occurs v p path w → σ.IsDatum w) ∧ ¬ σ.ReachesCycle v := by
  constructor
  · rintro ⟨d, hd⟩
    refine ⟨fun p path w hw => ?_, (d.text_eq hd).1⟩
    induction hw generalizing d with
    | here => exact hd.isDatum
    | member hc he _ ih =>
      obtain ⟨d', hd'⟩ := hd.member hc (List.mem_of_getElem? he)
      exact ih d' hd'
  · rintro ⟨hdata, hcycle⟩
    obtain ⟨n, hn⟩ := Store.exists_plainText_iff.2 ⟨hcycle, rfl⟩
    exact exists_data_of_plainText hn hdata

end Scriptlet
