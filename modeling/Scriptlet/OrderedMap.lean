/-!
# Maps that remember the order of insertion

An `OrderedMap κ α` is a list of entries, each key at most once. Writing to a key that is there
changes its value where it stands; writing to a new key adds an entry at the end; erasing closes
the gap. So the order of the entries is the order in which the present keys first came in.

The map is read through `find?` and `keys`. What each operation does to these two is said once,
in the lemmas below (`find?_insert`, `keys_insert`, `find?_erase`, `keys_erase`), and the entries
need not be looked at again.
-/

namespace Scriptlet

/-- Entries in the order of insertion. -/
structure OrderedMap (κ α : Type) where
  entries : List (κ × α)
deriving Repr

namespace OrderedMap

variable {κ α : Type}

def empty : OrderedMap κ α := ⟨[]⟩

instance : Inhabited (OrderedMap κ α) := ⟨empty⟩

def keys (m : OrderedMap κ α) : List κ := m.entries.map Prod.fst

def values (m : OrderedMap κ α) : List α := m.entries.map Prod.snd

def size (m : OrderedMap κ α) : Nat := m.entries.length

variable [DecidableEq κ]

/-- The value at the first entry for `k`. -/
def lookup (k : κ) : List (κ × α) → Option α
  | [] => none
  | (k', a) :: rest => if k' = k then some a else lookup k rest

/-- Overwrite the first entry for `k`, or add one at the end. -/
def put (k : κ) (a : α) : List (κ × α) → List (κ × α)
  | [] => [(k, a)]
  | (k', b) :: rest => if k' = k then (k, a) :: rest else (k', b) :: put k a rest

def find? (m : OrderedMap κ α) (k : κ) : Option α := lookup k m.entries

def contains (m : OrderedMap κ α) (k : κ) : Bool := (m.find? k).isSome

def insert (m : OrderedMap κ α) (k : κ) (a : α) : OrderedMap κ α := ⟨put k a m.entries⟩

def erase (m : OrderedMap κ α) (k : κ) : OrderedMap κ α :=
  ⟨m.entries.filter fun e => e.1 ≠ k⟩

/-! ## Reading after a write -/

@[simp] theorem find?_empty (k : κ) : (empty : OrderedMap κ α).find? k = none := rfl

theorem lookup_put (k k' : κ) (a : α) (es : List (κ × α)) :
    lookup k' (put k a es) = if k = k' then some a else lookup k' es := by
  induction es with
  | nil => simp [put, lookup]
  | cons e rest ih =>
    obtain ⟨j, b⟩ := e
    simp only [put]
    split <;> simp only [lookup] <;> grind

theorem find?_insert (m : OrderedMap κ α) (k k' : κ) (a : α) :
    (m.insert k a).find? k' = if k = k' then some a else m.find? k' :=
  lookup_put k k' a m.entries

@[simp] theorem find?_insert_self (m : OrderedMap κ α) (k : κ) (a : α) :
    (m.insert k a).find? k = some a := by simp [find?_insert]

theorem lookup_filter (k k' : κ) (es : List (κ × α)) :
    lookup k' (es.filter fun e => e.1 ≠ k) = if k = k' then none else lookup k' es := by
  induction es with
  | nil => simp [lookup]
  | cons e rest ih =>
    obtain ⟨j, b⟩ := e
    by_cases h : j = k <;> simp_all [lookup]
    grind

theorem find?_erase (m : OrderedMap κ α) (k k' : κ) :
    (m.erase k).find? k' = if k = k' then none else m.find? k' :=
  lookup_filter k k' m.entries

/-! ## Writing and erasing -/

theorem filter_put_of_ne {k k' : κ} (a : α) (h : k ≠ k') (es : List (κ × α)) :
    (put k a es).filter (fun e => e.1 ≠ k') = put k a (es.filter fun e => e.1 ≠ k') := by
  induction es with
  | nil => simp [put, h]
  | cons e rest ih =>
    by_cases hk : e.1 = k
    · simp [put, hk, h]
    · rw [put, if_neg hk]
      by_cases hk' : e.1 = k'
      · rw [List.filter_cons_of_neg (by simp [hk']), List.filter_cons_of_neg (by simp [hk']), ih]
      · rw [List.filter_cons_of_pos (by simp [hk']), List.filter_cons_of_pos (by simp [hk']), ih,
          put, if_neg hk]

/-- A key that is erased is not missed where another is written. -/
theorem erase_insert_of_ne (m : OrderedMap κ α) {k k' : κ} (a : α) (h : k ≠ k') :
    (m.insert k a).erase k' = (m.erase k').insert k a :=
  congrArg OrderedMap.mk (filter_put_of_ne a h m.entries)

theorem filter_put_of_lookup {k : κ} (a : α) {es : List (κ × α)} (h : lookup k es = none) :
    (put k a es).filter (fun e => e.1 ≠ k) = es := by
  induction es with
  | nil => simp [put]
  | cons e rest ih =>
    by_cases hk : e.1 = k
    · simp [lookup, hk] at h
    · have hrest : lookup k rest = none := by simpa [lookup, hk] using h
      rw [put, if_neg hk, List.filter_cons_of_pos (by simp [hk]), ih hrest]

/-- To erase a key that has just been added undoes it. -/
theorem erase_insert_self (m : OrderedMap κ α) {k : κ} (a : α) (h : m.find? k = none) :
    (m.insert k a).erase k = m :=
  congrArg OrderedMap.mk (filter_put_of_lookup a h)

/-! ## Which keys there are -/

theorem lookup_isSome_iff (k : κ) (es : List (κ × α)) :
    (lookup k es).isSome ↔ k ∈ es.map Prod.fst := by
  induction es with
  | nil => simp [lookup]
  | cons e rest ih =>
    obtain ⟨j, b⟩ := e
    by_cases h : j = k
    · simp [lookup, h]
    · simp [lookup, h, ih, Ne.symm h]

theorem contains_iff (m : OrderedMap κ α) (k : κ) : m.contains k ↔ k ∈ m.keys :=
  lookup_isSome_iff k m.entries

theorem find?_eq_none_iff (m : OrderedMap κ α) (k : κ) : m.find? k = none ↔ k ∉ m.keys := by
  rw [← contains_iff, contains]; cases m.find? k <;> simp

theorem keys_put (k : κ) (a : α) (es : List (κ × α)) :
    (put k a es).map Prod.fst =
      if k ∈ es.map Prod.fst then es.map Prod.fst else es.map Prod.fst ++ [k] := by
  induction es with
  | nil => simp [put]
  | cons e rest ih =>
    obtain ⟨j, b⟩ := e
    by_cases h : j = k
    · simp [put, h]
    · simp only [put, if_neg h, List.map_cons, ih, List.mem_cons, Ne.symm h, false_or]
      split <;> simp

/-- A key keeps its place, and a new one goes to the end. -/
theorem keys_insert (m : OrderedMap κ α) (k : κ) (a : α) :
    (m.insert k a).keys = if k ∈ m.keys then m.keys else m.keys ++ [k] :=
  keys_put k a m.entries

theorem put_of_not_mem {k : κ} {es : List (κ × α)} (h : k ∉ es.map Prod.fst) (a : α) :
    put k a es = es ++ [(k, a)] := by
  induction es with
  | nil => rfl
  | cons e es ih =>
    rw [List.map_cons, List.mem_cons, not_or] at h
    rw [put, if_neg (Ne.symm h.1), ih h.2, List.cons_append]

/-- The entry at a new key goes to the end. -/
theorem insert_of_not_mem {m : OrderedMap κ α} {k : κ} (a : α) (h : k ∉ m.keys) :
    m.insert k a = ⟨m.entries ++ [(k, a)]⟩ :=
  congrArg OrderedMap.mk (put_of_not_mem h a)

theorem keys_erase (m : OrderedMap κ α) (k : κ) : (m.erase k).keys = m.keys.filter (· ≠ k) := by
  unfold erase keys
  induction m.entries with
  | nil => rfl
  | cons e rest ih => by_cases h : e.1 = k <;> simp_all

theorem nodup_keys_insert (m : OrderedMap κ α) (k : κ) (a : α) (h : m.keys.Nodup) :
    (m.insert k a).keys.Nodup := by
  rw [keys_insert]; split
  · exact h
  · rename_i hk
    exact List.nodup_append.2 ⟨h, by simp, by rintro x hx y hy rfl; simp_all⟩

theorem nodup_keys_erase (m : OrderedMap κ α) (k : κ) (h : m.keys.Nodup) :
    (m.erase k).keys.Nodup := by
  rw [keys_erase]; exact h.filter _

/-! ## Which values there are -/

theorem mem_of_lookup {k : κ} {a : α} {es : List (κ × α)} (h : lookup k es = some a) :
    (k, a) ∈ es := by
  induction es with
  | nil => cases h
  | cons e es ih =>
    rw [lookup] at h
    by_cases he : e.1 = k
    · rw [if_pos he] at h
      cases h
      subst he
      exact List.mem_cons_self
    · rw [if_neg he] at h
      exact List.mem_cons_of_mem _ (ih h)

theorem mem_values_of_find? {m : OrderedMap κ α} {k : κ} {a : α} (h : m.find? k = some a) :
    a ∈ m.values :=
  List.mem_map_of_mem (mem_of_lookup h)

theorem lookup_of_mem {es : List (κ × α)} (h : (es.map Prod.fst).Nodup) {e : κ × α}
    (he : e ∈ es) : lookup e.1 es = some e.2 := by
  induction es with
  | nil => cases he
  | cons e' es ih =>
    rw [List.map_cons, List.nodup_cons] at h
    rcases List.mem_cons.1 he with rfl | he
    · simp [lookup]
    · have hne : e'.1 ≠ e.1 := fun heq => h.1 (heq ▸ List.mem_map_of_mem he)
      simp [lookup, hne, ih h.2 he]

/-- Where no key is listed twice, every entry is what is read at its key. -/
theorem find?_of_mem_entries {m : OrderedMap κ α} (h : m.keys.Nodup) {e : κ × α}
    (he : e ∈ m.entries) : m.find? e.1 = some e.2 := lookup_of_mem h he

theorem find?_eq_some_iff {m : OrderedMap κ α} (h : m.keys.Nodup) {k : κ} {a : α} :
    m.find? k = some a ↔ (k, a) ∈ m.entries :=
  ⟨mem_of_lookup, find?_of_mem_entries h⟩

theorem mem_values_insert {m : OrderedMap κ α} {k : κ} {a b : α}
    (h : b ∈ (m.insert k a).values) : b = a ∨ b ∈ m.values := by
  obtain ⟨es⟩ := m
  change b ∈ (put k a es).map Prod.snd at h
  show b = a ∨ b ∈ es.map Prod.snd
  induction es with
  | nil => exact Or.inl (by simpa [put] using h)
  | cons e es ih =>
    by_cases he : e.1 = k
    · simp only [put, if_pos he, List.map_cons, List.mem_cons] at h ⊢
      exact h.imp_right Or.inr
    · simp only [put, if_neg he, List.map_cons, List.mem_cons] at h ⊢
      rcases h with rfl | h
      · exact Or.inr (Or.inl rfl)
      · exact (ih h).imp_right Or.inr

theorem mem_values_erase {m : OrderedMap κ α} {k : κ} {b : α} (h : b ∈ (m.erase k).values) :
    b ∈ m.values := by
  obtain ⟨e, he, rfl⟩ := List.mem_map.1 h
  exact List.mem_map_of_mem ((List.mem_filter.1 he).1)

end OrderedMap

end Scriptlet
