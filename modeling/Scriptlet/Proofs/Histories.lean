import Mathlib.Data.Finset.Card
import Mathlib.Data.Set.Card
import Scriptlet.OrderedMap
import Scriptlet.Value

/-!
# Hashes and their history

A hash is written to by setting and unsetting keys. This module says what a hash holds in terms of
the `Change`s made to it, and of nothing else: `LastSet` gives the pair that is read at a key,
`EntersAt` the place in the history from which the key counts for the order.

The hash itself (`Pairs`) keeps each pair under the key that its first part is, in a map that is
read in an order. How that map works is a parameter, an `IndexedMap`; what is relied on is what
such maps are documented to do (`IndexedMap.Documented`).

**Lemma (`Pairs.reflects_after`).** After any history the hash holds what the history says.

The proof adds one change at the end of the history. `lastSet_concat` and `entersAt_concat` say
what this does to the two readings of the history, the laws of the map what it does to the hash.
-/

namespace Scriptlet

/-! ## The map underneath -/

/-- A map whose entries are in an order. -/
structure IndexedMap (κ α : Type) where
  Map : Type
  empty : Map
  get? : Map → κ → Option α
  insert : Map → κ → α → Map
  /-- Take the entry at a key away and close the gap. The first part is what was there. -/
  shiftRemove : Map → κ → Option α × Map
  keys : Map → List κ
  values : Map → List α
  len : Map → Nat

/-- What is documented of such a map. -/
structure IndexedMap.Documented {κ α : Type} [DecidableEq κ] (M : IndexedMap κ α) : Prop where
  keys_empty : M.keys M.empty = []
  nodup_keys (m : M.Map) : (M.keys m).Nodup
  mem_keys_iff (m : M.Map) (k : κ) : k ∈ M.keys m ↔ (M.get? m k).isSome
  /-- The values come in the order of their keys. -/
  values_eq (m : M.Map) : (M.values m).map some = (M.keys m).map (M.get? m)
  len_eq (m : M.Map) : M.len m = (M.keys m).length
  get?_insert (m : M.Map) (k k' : κ) (a : α) :
    M.get? (M.insert m k a) k' = if k = k' then some a else M.get? m k'
  /-- A key that is there keeps its place, and a new one is last. -/
  keys_insert (m : M.Map) (k : κ) (a : α) :
    M.keys (M.insert m k a) = if k ∈ M.keys m then M.keys m else M.keys m ++ [k]
  get?_shiftRemove (m : M.Map) (k k' : κ) :
    M.get? (M.shiftRemove m k).2 k' = if k = k' then none else M.get? m k'
  /-- The other keys stay in their order. -/
  keys_shiftRemove (m : M.Map) (k : κ) :
    M.keys (M.shiftRemove m k).2 = (M.keys m).filter (· ≠ k)
  fst_shiftRemove (m : M.Map) (k : κ) : (M.shiftRemove m k).1 = M.get? m k

/-! ## Keys -/

/-- The types whose values can be keys. -/
def ValueType.keys : List ValueType := [.integer, .string, .bool]

namespace Value

theorem key_eq_error {k : Value} (h : k.type ∉ ValueType.keys) :
    k.key = .error (.unusableKey k.type.name) := by
  cases k <;> first | rfl | exact absurd (by simp [type, ValueType.keys]) h

/-- Two values are the same key if they are of the same type, one whose values can be keys, and
equal. -/
theorem exists_key_iff (a b : Value) :
    (∃ slot, a.key = .ok slot ∧ b.key = .ok slot) ↔
      a.type ∈ ValueType.keys ∧ a.type = b.type ∧ a.same b := by
  constructor
  · rintro ⟨slot, ha, hb⟩
    rw [key_eq_ok_iff.1 ha, key_eq_ok_iff.1 hb]
    cases slot <;> simp [HashKey.value, type, same, ValueType.keys]
  · rintro ⟨ha, htype, hsame⟩
    cases a <;> cases b <;> simp_all [type, same, key, ValueType.keys]

end Value

/-! ## Histories -/

/-- A pair of a hash, with the key as it was written. -/
structure HashPair where
  key : Value
  value : Value

/-- What is done to a hash. -/
inductive Change where
  | set (k v : Value)
  | unset (k : Value)

namespace Change

/-- The key that a change is about, if it names one. -/
def slot? : Change → Option HashKey
  | set k _ | unset k => k.key.toOption

/-- The change takes the entry at `slot` away. -/
def Unsets (c : Change) (slot : HashKey) : Prop := ∃ k, c = unset k ∧ k.key = .ok slot

end Change

/-- The last change that is about `slot` sets it, and sets this pair. -/
def LastSet (history : List Change) (slot : HashKey) (e : HashPair) : Prop :=
  ∃ before after, history = before ++ .set e.key e.value :: after ∧ e.key.key = .ok slot ∧
    ∀ c ∈ after, c.slot? ≠ some slot

/-- At the place `i` of the history `slot` is set where it was not, and it is not unset later. -/
def EntersAt (history : List Change) (i : Nat) (slot : HashKey) : Prop :=
  ∃ before k v after, history = before ++ .set k v :: after ∧ before.length = i ∧
    k.key = .ok slot ∧ (∀ e, ¬ LastSet before slot e) ∧ ∀ c ∈ after, ¬ c.Unsets slot

/-- Both keys have entered, and the first one has entered earlier. -/
def EntersBefore (history : List Change) (slot slot' : HashKey) : Prop :=
  ∃ i j, i < j ∧ EntersAt history i slot ∧ EntersAt history j slot'

variable {history : List Change} {c : Change} {slot : HashKey} {e : HashPair} {i : Nat}

theorem not_lastSet_nil : ¬ LastSet [] slot e := by
  rintro ⟨before, after, h, -⟩
  cases before <;> cases h

/-- A list with one more member is split at that member or before it. -/
theorem concat_eq_append_cons_iff {α : Type} {xs before after : List α} {x y : α} :
    xs ++ [x] = before ++ y :: after ↔
      (xs = before ∧ x = y ∧ after = []) ∨ ∃ after', after = after' ++ [x] ∧
        xs = before ++ y :: after' := by
  constructor
  · intro h
    rcases List.eq_nil_or_concat' after with rfl | ⟨after', z, rfl⟩
    · obtain ⟨hxs, hx⟩ := List.append_inj' h rfl
      exact Or.inl ⟨hxs, List.singleton_inj.1 hx, rfl⟩
    · rw [← List.cons_append, ← List.append_assoc] at h
      obtain ⟨hxs, hx⟩ := List.append_inj' h rfl
      rw [← List.singleton_inj.1 hx]
      exact Or.inr ⟨after', rfl, hxs⟩
  · rintro (⟨rfl, rfl, rfl⟩ | ⟨after', rfl, rfl⟩)
    · rfl
    · rw [List.append_assoc, List.cons_append]

theorem lastSet_concat :
    LastSet (history ++ [c]) slot e ↔
      (c = .set e.key e.value ∧ e.key.key = .ok slot) ∨
        c.slot? ≠ some slot ∧ LastSet history slot e := by
  constructor
  · rintro ⟨before, after, h, hslot, hafter⟩
    rcases concat_eq_append_cons_iff.1 h with ⟨-, rfl, -⟩ | ⟨after', rfl, rfl⟩
    · exact Or.inl ⟨rfl, hslot⟩
    · refine Or.inr ⟨hafter c (by simp), before, after', rfl, hslot, fun c' hc' => ?_⟩
      exact hafter c' (List.mem_append_left _ hc')
  · rintro (⟨rfl, hslot⟩ | ⟨hc, before, after, rfl, hslot, hafter⟩)
    · exact ⟨history, [], rfl, hslot, List.forall_mem_nil _⟩
    · refine ⟨before, after ++ [c], by simp, hslot, List.forall_mem_append.2 ⟨hafter, ?_⟩⟩
      exact List.forall_mem_singleton.2 hc

theorem entersAt_concat :
    EntersAt (history ++ [c]) i slot ↔
      (∃ k v, c = .set k v ∧ history.length = i ∧ k.key = .ok slot ∧
          ∀ e, ¬ LastSet history slot e) ∨
        ¬ c.Unsets slot ∧ EntersAt history i slot := by
  constructor
  · rintro ⟨before, k, v, after, h, hi, hslot, hbefore, hafter⟩
    rcases concat_eq_append_cons_iff.1 h with ⟨rfl, rfl, -⟩ | ⟨after', rfl, rfl⟩
    · exact Or.inl ⟨k, v, rfl, hi, hslot, hbefore⟩
    · refine Or.inr ⟨hafter c (by simp), before, k, v, after', rfl, hi, hslot, hbefore, ?_⟩
      exact fun c' hc' => hafter c' (List.mem_append_left _ hc')
  · rintro (⟨k, v, rfl, hi, hslot, hbefore⟩ | ⟨hc, before, k, v, after, rfl, hi, hslot, hbefore,
      hafter⟩)
    · exact ⟨history, k, v, [], rfl, hi, hslot, hbefore, List.forall_mem_nil _⟩
    · refine ⟨before, k, v, after ++ [c], by simp, hi, hslot, hbefore, ?_⟩
      exact List.forall_mem_append.2 ⟨hafter, List.forall_mem_singleton.2 hc⟩

theorem Change.Unsets.slot?_eq (h : c.Unsets slot) : c.slot? = some slot := by
  obtain ⟨k, rfl, hk⟩ := h
  rw [slot?, hk]
  rfl

theorem EntersAt.lt_length (h : EntersAt history i slot) : i < history.length := by
  obtain ⟨before, k, v, after, rfl, rfl, -⟩ := h
  simp

/-- A later change that does not unset a key leaves it where it entered. -/
theorem EntersAt.concat (h : EntersAt history i slot) (hc : ¬ c.Unsets slot) :
    EntersAt (history ++ [c]) i slot := entersAt_concat.2 (Or.inr ⟨hc, h⟩)

/-- A key that is set where it was not enters there. -/
theorem entersAt_length {k : Value} (hk : k.key = .ok slot) (v : Value)
    (h : ∀ e, ¬ LastSet history slot e) :
    EntersAt (history ++ [.set k v]) history.length slot :=
  entersAt_concat.2 (Or.inl ⟨k, v, rfl, rfl, hk, h⟩)

/-- What was set last entered somewhere. -/
theorem LastSet.exists_entersAt (h : LastSet history slot e) : ∃ i, EntersAt history i slot := by
  induction history using List.reverseRecOn generalizing e with
  | nil => exact absurd h not_lastSet_nil
  | append_singleton history c ih =>
    rcases lastSet_concat.1 h with ⟨rfl, hslot⟩ | ⟨hc, h⟩
    · by_cases hbefore : ∃ e', LastSet history slot e'
      · obtain ⟨e', he'⟩ := hbefore
        obtain ⟨i, hi⟩ := ih he'
        exact ⟨i, hi.concat fun ⟨k, hk, _⟩ => by cases hk⟩
      · exact ⟨_, entersAt_length hslot _ fun e' he' => hbefore ⟨e', he'⟩⟩
    · obtain ⟨i, hi⟩ := ih h
      exact ⟨i, hi.concat fun hu => hc hu.slot?_eq⟩

/-! ## The hash -/

namespace Pairs

variable (M : IndexedMap HashKey HashPair)

/-- Put a pair under its key. -/
def insert (m : M.Map) (k v : Value) : Except RuntimeError M.Map := do
  let slot ← k.key
  pure (M.insert m slot ⟨k, v⟩)

/-- Take the pair under a key away. -/
def remove (m : M.Map) (k : Value) : Except RuntimeError M.Map := do
  let slot ← k.key
  pure (M.shiftRemove m slot).2

def change (m : M.Map) : Change → Except RuntimeError M.Map
  | .set k v => insert M m k v
  | .unset k => remove M m k

/-- The hash after a change. A change that fails leaves it as it was. -/
def apply (m : M.Map) (c : Change) : M.Map :=
  match change M m c with
  | .ok m' => m'
  | .error _ => m

/-- The hash after the changes, made one after the other to an empty one. -/
def after (history : List Change) : M.Map := history.foldl (apply M) M.empty

/-- The hash holds what the history says. -/
structure Reflects (history : List Change) (m : M.Map) : Prop where
  /-- What is read at a key is what was set there last, if it was not unset since. -/
  get?_eq_some_iff (slot : HashKey) (e : HashPair) :
    M.get? m slot = some e ↔ LastSet history slot e
  /-- Every key that is there is listed, and once only. -/
  mem_keys_iff (slot : HashKey) : slot ∈ M.keys m ↔ ∃ e, LastSet history slot e
  nodup_keys : (M.keys m).Nodup
  /-- The keys come in the order in which they entered. -/
  pairwise_keys : (M.keys m).Pairwise (EntersBefore history)
  /-- The pairs come in the order of the keys they are read at. -/
  values_eq : (M.values m).map some = (M.keys m).map (M.get? m)
  /-- The key in a pair is the one that the pair is under. -/
  keys_values : (M.values m).map (fun e => e.key.key) = (M.keys m).map .ok
  len_eq : M.len m = {slot | ∃ e, LastSet history slot e}.ncard

variable {M} {m : M.Map}

@[simp] theorem after_nil : after M [] = M.empty := rfl

theorem after_append (history later : List Change) :
    after M (history ++ later) = later.foldl (apply M) (after M history) := List.foldl_append

theorem after_concat (history : List Change) (c : Change) :
    after M (history ++ [c]) = apply M (after M history) c := after_append history [c]

theorem apply_of_key_eq_error {k : Value} {err : RuntimeError} (h : k.key = .error err)
    (v : Value) : apply M m (.set k v) = m ∧ apply M m (.unset k) = m := by
  constructor
  · rw [apply, change, insert, h]
    rfl
  · rw [apply, change, remove, h]
    rfl

theorem apply_set {k : Value} (h : k.key = .ok slot) (v : Value) :
    apply M m (.set k v) = M.insert m slot ⟨k, v⟩ := by
  rw [apply, change, insert, h]
  rfl

theorem apply_unset {k : Value} (h : k.key = .ok slot) :
    apply M m (.unset k) = (M.shiftRemove m slot).2 := by
  rw [apply, change, remove, h]
  rfl

/-- A change either is about no key, and does nothing, or sets or unsets one. -/
theorem apply_cases (m : M.Map) (c : Change) :
    (c.slot? = none ∧ apply M m c = m) ∨
      (∃ k v slot, c = .set k v ∧ k.key = .ok slot ∧
        apply M m c = M.insert m slot ⟨k, v⟩) ∨
      ∃ k slot, c = .unset k ∧ k.key = .ok slot ∧ apply M m c = (M.shiftRemove m slot).2 := by
  cases c with
  | set k v =>
    cases hk : k.key with
    | error err =>
      exact Or.inl ⟨by rw [Change.slot?, hk]; rfl, (apply_of_key_eq_error hk v).1⟩
    | ok slot => exact Or.inr (Or.inl ⟨k, v, slot, rfl, hk, apply_set hk v⟩)
  | unset k =>
    cases hk : k.key with
    | error err =>
      exact Or.inl ⟨by rw [Change.slot?, hk]; rfl, (apply_of_key_eq_error hk .null).2⟩
    | ok slot => exact Or.inr (Or.inr ⟨k, slot, rfl, hk, apply_unset hk⟩)

/-! ## The hash reflects its history -/

section

variable (hM : M.Documented)

include hM

theorem get?_empty (slot : HashKey) : M.get? M.empty slot = none := by
  rw [← Option.not_isSome_iff_eq_none, ← hM.mem_keys_iff, hM.keys_empty]
  exact List.not_mem_nil

/-- What is read after a change is what the history with that change says. -/
theorem get?_apply (hm : ∀ slot e, M.get? m slot = some e ↔ LastSet history slot e) (c : Change)
    (slot : HashKey) (e : HashPair) :
    M.get? (apply M m c) slot = some e ↔ LastSet (history ++ [c]) slot e := by
  obtain ⟨k, v⟩ := e
  rw [lastSet_concat, ← hm]
  rcases apply_cases m c with ⟨hc, h⟩ | ⟨k', v', slot', rfl, hk', h⟩ | ⟨k', slot', rfl, hk', h⟩
  · rw [h, hc]
    refine ⟨fun hget => Or.inr ⟨nofun, hget⟩, ?_⟩
    rintro (⟨rfl, hk⟩ | ⟨-, hget⟩)
    · rw [Change.slot?, hk] at hc
      cases hc
    · exact hget
  · rw [h, hM.get?_insert, Change.slot?, hk']
    by_cases hslot : slot' = slot
    · subst hslot
      simp only [if_true, Option.some_inj, HashPair.mk.injEq, Change.set.injEq, Except.toOption,
        ne_eq, not_true, false_and, or_false]
      exact ⟨fun ⟨hk, hv⟩ => ⟨⟨hk, hv⟩, hk ▸ hk'⟩, And.left⟩
    · simp only [Except.toOption, ne_eq, Option.some_inj, hslot, if_false, not_false_eq_true,
        true_and]
      refine ⟨Or.inr, ?_⟩
      rintro (⟨hset, hk⟩ | hget)
      · cases hset
        rw [hk'] at hk
        cases hk
        exact absurd rfl hslot
      · exact hget
  · rw [h, hM.get?_shiftRemove, Change.slot?, hk']
    by_cases hslot : slot' = slot
    · simp [hslot, Except.toOption]
    · simp [hslot, Except.toOption]

/-- The order after a change is the one in which the history with that change has them enter. -/
theorem pairwise_keys_apply (hm : Reflects M history m) (c : Change) :
    (M.keys (apply M m c)).Pairwise (EntersBefore (history ++ [c])) := by
  have hkept {slot slot'} (hbefore : EntersBefore history slot slot') (hs : ¬ c.Unsets slot)
      (hs' : ¬ c.Unsets slot') : EntersBefore (history ++ [c]) slot slot' := by
    obtain ⟨i, j, hij, hi, hj⟩ := hbefore
    exact ⟨i, j, hij, hi.concat hs, hj.concat hs'⟩
  rcases apply_cases m c with ⟨hc, h⟩ | ⟨k, v, slot, rfl, hk, h⟩ | ⟨k, slot, rfl, hk, h⟩
  · have hunset (slot : HashKey) : ¬ c.Unsets slot := fun hu => by
      rw [hu.slot?_eq] at hc
      cases hc
    rw [h]
    exact hm.pairwise_keys.imp fun hbefore => hkept hbefore (hunset _) (hunset _)
  · have hunset (slot : HashKey) : ¬ (Change.set k v).Unsets slot := fun ⟨_, hu, _⟩ => nomatch hu
    have hkeys := hm.pairwise_keys.imp fun {_ _} hbefore =>
      hkept hbefore (hunset _) (hunset _)
    rw [h, hM.keys_insert]
    split_ifs with hslot
    · exact hkeys
    · refine List.pairwise_append.2 ⟨hkeys, List.pairwise_singleton _ _, ?_⟩
      intro old hold new hnew
      rw [List.mem_singleton.1 hnew]
      -- The new key is the last to enter, for all the others have entered before.
      obtain ⟨e, he⟩ := (hm.mem_keys_iff old).1 hold
      obtain ⟨i, hi⟩ := he.exists_entersAt
      refine ⟨i, history.length, hi.lt_length, hi.concat (hunset old), entersAt_length hk v ?_⟩
      exact fun e' he' => hslot ((hm.mem_keys_iff slot).2 ⟨e', he'⟩)
  · rw [h, hM.keys_shiftRemove]
    have hunset {slot'} (hne : slot' ≠ slot) : ¬ (Change.unset k).Unsets slot' := by
      rintro ⟨k', hk', hslot'⟩
      cases hk'
      rw [hk] at hslot'
      cases hslot'
      exact hne rfl
    refine (hm.pairwise_keys.filter _).imp_of_mem fun {s s'} hs hs' hbefore => hkept hbefore ?_ ?_
    · exact hunset (of_decide_eq_true (List.mem_filter.1 hs).2)
    · exact hunset (of_decide_eq_true (List.mem_filter.1 hs').2)

/-- What is read and the order of the keys settle the rest. -/
theorem reflects_of_get? (hget : ∀ slot e, M.get? m slot = some e ↔ LastSet history slot e)
    (hkeys : (M.keys m).Pairwise (EntersBefore history)) : Reflects M history m := by
  have hmem (slot : HashKey) : slot ∈ M.keys m ↔ ∃ e, LastSet history slot e := by
    rw [hM.mem_keys_iff, Option.isSome_iff_exists]
    exact exists_congr (hget slot)
  refine ⟨hget, hmem, hM.nodup_keys m, hkeys, hM.values_eq m, ?_, ?_⟩
  · refine List.map_injective_iff.2 (Option.some_injective _) ?_
    calc
      ((M.values m).map fun e => e.key.key).map some
        = ((M.values m).map some).map (Option.map fun e => e.key.key) := by
          rw [List.map_map, List.map_map]
          rfl
      _ = (M.keys m).map fun slot => (M.get? m slot).map fun e => e.key.key := by
          rw [hM.values_eq, List.map_map]
          rfl
      _ = (M.keys m).map fun slot => some (.ok slot) := by
          refine List.map_congr_left fun slot hslot => ?_
          obtain ⟨e, he⟩ := (hmem slot).1 hslot
          obtain ⟨before, after, -, hkey, -⟩ := id he
          rw [(hget slot e).2 he, Option.map_some, hkey]
      _ = ((M.keys m).map .ok).map some := (List.map_map ..).symm
  · have hset : {slot | ∃ e, LastSet history slot e} = ((M.keys m).toFinset : Set HashKey) := by
      ext slot
      rw [Set.mem_ofPred_eq, ← hmem, Finset.mem_coe, List.mem_toFinset]
    rw [hset, Set.ncard_coe_finset, List.toFinset_card_of_nodup (hM.nodup_keys m), hM.len_eq]

theorem reflects_after (history : List Change) : Reflects M history (after M history) := by
  induction history using List.reverseRecOn with
  | nil =>
    refine reflects_of_get? hM (fun slot e => ?_) ?_
    · rw [after_nil, get?_empty hM]
      exact iff_of_false nofun not_lastSet_nil
    · rw [after_nil, hM.keys_empty]
      exact List.Pairwise.nil
  | append_singleton history c ih =>
    rw [after_concat]
    exact reflects_of_get? hM (get?_apply hM ih.get?_eq_some_iff c) (pairwise_keys_apply hM ih c)

/-- No change moves a key: the keys that are there before and after it are in the same order. -/
theorem keys_apply_filter (m : M.Map) (c : Change) :
    (M.keys (apply M m c)).filter (· ∈ M.keys m) =
      (M.keys m).filter (· ∈ M.keys (apply M m c)) := by
  have hall {xs ys : List HashKey} (h : ∀ x ∈ xs, x ∈ ys) : xs.filter (· ∈ ys) = xs :=
    List.filter_eq_self.2 fun x hx => decide_eq_true (h x hx)
  rcases apply_cases m c with ⟨-, h⟩ | ⟨k, v, slot, -, -, h⟩ | ⟨k, slot, -, -, h⟩
  · rw [h]
  · rw [h, hM.keys_insert]
    split_ifs with hslot
    · rfl
    · rw [List.filter_append, hall fun x hx => hx, hall fun x hx => List.mem_append_left _ hx,
        List.filter_singleton, decide_eq_false hslot]
      exact List.append_nil _
  · rw [h, hM.keys_shiftRemove, hall fun x hx => List.mem_of_mem_filter hx]
    refine List.filter_congr fun x hx => ?_
    simp [hx]

end

end Pairs

end Scriptlet
