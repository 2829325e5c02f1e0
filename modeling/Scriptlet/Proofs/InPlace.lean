import Scriptlet.Proofs.Histories.Hashes
import Scriptlet.Proofs.Reachability

/-!
# Changing a collection in place

`append` and `remove` change the collection that they are given, for everyone who holds it.

**Theorem (`append_remove_in_place`).** Whatever the store and the arguments are, a call of
`append` or `remove` changes nothing if it fails. If it succeeds, the collection has come to hold
exactly what it should (`Appends`, `Removes`), every alias of it shows this, and nothing else has
changed. The collection may be an element of itself, or be held by the scope of a function: what
is stored are identities, so the contents of one collection never say anything about another.

`ArrayBecomes` and `HashBecomes` say what a change is, once and for all. A single write is such a
change (`arrayBecomes_modifyItems`, `hashBecomes_modifyPairs`), and a write that leaves everything
as it stands is none (`modifyItems_self`, `modifyPairs_self`). What remains is to see what is
written.
-/

namespace Scriptlet

/-! ## Changes -/

/-- From `σ` to `τ` nothing changes but what is at the location `l`. -/
structure OnlyAt (l : Location) (σ τ : Store) : Prop where
  same : ∀ m ≠ l, σ.Same τ m
  has : ∀ m, τ.Has m ↔ σ.Has m
  output : τ.output = σ.output
  stamps : τ.stamps = σ.stamps

/-- From `σ` to `τ` the array `id` comes to hold `vs`, and nothing else changes. This is what every
alias of it shows. -/
structure ArrayBecomes (σ τ : Store) (id : ArrayId) (vs : List Value) : Prop
    extends OnlyAt (.array id) σ τ where
  len : ∀ w : Value, w.same (.array id) → Native.len [w] τ = .ok (.integer (.ofNat vs.length)) τ
  index : ∀ w : Value, w.same (.array id) → ∀ n : Integer, τ.index w (.integer n) =
    .ok (if 0 ≤ n.toInt then vs.getD n.toInt.toNat .null else .null)
  entries : ∀ w : Value, w.same (.array id) → Eval.entries w τ =
    .ok (vs.zipIdx.map fun e => (.integer (.ofNat e.2), e.1)) τ

/-- From `σ` to `τ` the hash `id` comes to hold the entries `es`, and nothing else changes. This is
what every alias of it shows. -/
structure HashBecomes (σ τ : Store) (id : HashId) (es : List (HashKey × Value)) : Prop
    extends OnlyAt (.hash id) σ τ where
  len : ∀ w : Value, w.same (.hash id) → Native.len [w] τ = .ok (.integer (.ofNat es.length)) τ
  index : ∀ w : Value, w.same (.hash id) → ∀ k slot, Value.key k = .ok slot →
    τ.index w k = .ok ((OrderedMap.lookup slot es).getD .null)
  entries : ∀ w : Value, w.same (.hash id) → Eval.entries w τ =
    .ok (es.map fun e => (e.1.value, e.2)) τ

/-- Setting the key `slot` to `v` makes `es'` of the entries `es`: where the key stands it gets the
new value, and if it stands nowhere it is added at the end. -/
inductive Sets (slot : HashKey) (v : Value) :
    List (HashKey × Value) → List (HashKey × Value) → Prop
  | overwrite {before after : List (HashKey × Value)} {old : Value} :
      slot ∉ before.map Prod.fst →
      Sets slot v (before ++ (slot, old) :: after) (before ++ (slot, v) :: after)
  | add {es : List (HashKey × Value)} : slot ∉ es.map Prod.fst → Sets slot v es (es ++ [(slot, v)])

/-- All that a call of `append` can come to. -/
inductive Appends (σ : Store) : List Value → Outcome Store RuntimeError Value → Prop
  /-- The array gets one more element, at its end. -/
  | item {id : ArrayId} {v : Value} {τ : Store} :
      ArrayBecomes σ τ id ((σ.items id).toList ++ [v]) →
      Appends σ [.array id, v] (.ok (.array id) τ)
  | entry {id : HashId} {k v : Value} {slot : HashKey} {es : List (HashKey × Value)} {τ : Store} :
      k.key = .ok slot → Sets slot v (σ.pairs id).entries es → HashBecomes σ τ id es →
      Appends σ [.hash id, k, v] (.ok (.hash id) τ)
  | unusableKey {id : HashId} {k v : Value} :
      k.type ∉ ValueType.keys →
      Appends σ [.hash id, k, v] (.error (.unusableKey k.type.name) σ)
  | arrayCount {id : ArrayId} {vs : List Value} :
      vs.length ≠ 1 →
      Appends σ (.array id :: vs) (.error (.wrongArgumentCount "append" "2" (vs.length + 1)) σ)
  | hashCount {id : HashId} {vs : List Value} :
      vs.length ≠ 2 →
      Appends σ (.hash id :: vs) (.error (.wrongArgumentCount "append" "3" (vs.length + 1)) σ)
  | notCollection {v : Value} {vs : List Value} :
      v.type ≠ .array → v.type ≠ .hash →
      Appends σ (v :: vs) (.error (.argumentNotSupported "append" v.type.name) σ)
  | nothing : Appends σ [] (.error (.wrongArgumentCount "append" "2 or 3" 0) σ)

/-- All that a call of `remove` can come to. -/
inductive Removes (σ : Store) : List Value → Outcome Store RuntimeError Value → Prop
  /-- The element at this place goes, and the others close the gap. -/
  | item {id : ArrayId} {n : Integer} {before after : List Value} {v : Value} {τ : Store} :
      n.toInt = before.length → (σ.items id).toList = before ++ v :: after →
      ArrayBecomes σ τ id (before ++ after) →
      Removes σ [.array id, .integer n] (.ok (.bool true) τ)
  | noItem {id : ArrayId} {n : Integer} :
      ¬ (0 ≤ n.toInt ∧ n.toInt < (σ.items id).size) →
      Removes σ [.array id, .integer n] (.ok (.bool false) σ)
  /-- The entry at this key goes, and the others keep their order. -/
  | entry {id : HashId} {k : Value} {slot : HashKey} {τ : Store} :
      k.key = .ok slot → slot ∈ (σ.pairs id).keys →
      HashBecomes σ τ id ((σ.pairs id).entries.filter fun e => e.1 ≠ slot) →
      Removes σ [.hash id, k] (.ok (.bool true) τ)
  | noEntry {id : HashId} {k : Value} {slot : HashKey} :
      k.key = .ok slot → slot ∉ (σ.pairs id).keys →
      Removes σ [.hash id, k] (.ok (.bool false) σ)
  | notPlace {id : ArrayId} {v : Value} :
      v.type ≠ .integer →
      Removes σ [.array id, v] (.error (.argumentNotSupported "remove" v.type.name) σ)
  | unusableKey {id : HashId} {k : Value} :
      k.type ∉ ValueType.keys → Removes σ [.hash id, k] (.error (.unusableKey k.type.name) σ)
  | notCollection {v w : Value} :
      v.type ≠ .array → v.type ≠ .hash →
      Removes σ [v, w] (.error (.argumentNotSupported "remove" v.type.name) σ)
  | count {args : List Value} :
      args.length ≠ 2 →
      Removes σ args (.error (.wrongArgumentCount "remove" "2" args.length) σ)

/-! ## Writes -/

section

variable {σ : Store}

theorem eq_array_of_same {w : Value} {id : ArrayId} (h : w.same (.array id)) : w = .array id := by
  cases w <;> simp [Value.same] at h
  rw [h]

theorem eq_hash_of_same {w : Value} {id : HashId} (h : w.same (.hash id)) : w = .hash id := by
  cases w <;> simp [Value.same] at h
  rw [h]

theorem arrayBecomes_modifyItems {id : ArrayId} (hid : id < σ.arrays.size)
    (f : Array Value → Array Value) :
    ArrayBecomes σ (σ.modifyItems id f) id (f (σ.items id)).toList := by
  have hitems : (σ.modifyItems id f).items id = f (σ.items id) := by
    rw [Store.items_modifyItems, if_pos ⟨rfl, hid⟩]
  refine ⟨⟨fun m hm => σ.same_modifyItems f hm, fun m => ?_, rfl, rfl⟩, fun w hw => ?_,
    fun w hw n => ?_, fun w hw => ?_⟩
  · cases m <;> simp [Store.Has, Store.modifyItems]
  all_goals rw [eq_array_of_same hw, ← hitems]
  · show Outcome.ok _ _ = _
    rw [Array.length_toList]
  · rw [Store.index, Integer.place?]
    split
    · simp
    · rfl
  · rfl

theorem hashBecomes_modifyPairs {id : HashId} (hid : id < σ.hashes.size)
    (f : OrderedMap HashKey Value → OrderedMap HashKey Value) :
    HashBecomes σ (σ.modifyPairs id f) id (f (σ.pairs id)).entries := by
  have hpairs : (σ.modifyPairs id f).pairs id = f (σ.pairs id) := by
    rw [Store.pairs_modifyPairs, if_pos ⟨rfl, hid⟩]
  refine ⟨⟨fun m hm => σ.same_modifyPairs f hm, fun m => ?_, rfl, rfl⟩, fun w hw => ?_,
    fun w hw k slot hk => ?_, fun w hw => ?_⟩
  · cases m <;> simp [Store.Has, Store.modifyPairs]
  all_goals rw [eq_hash_of_same hw, ← hpairs]
  · rfl
  · rw [Store.index, hk]
    rfl
  · rfl

theorem modify_self {α : Type} (xs : Array α) (i : Nat) {f : α → α}
    (h : ∀ x, xs[i]? = some x → f x = x) : xs.modify i f = xs := by
  refine Array.ext_getElem? fun j => ?_
  rw [Array.getElem?_modify]
  split
  · rename_i hij
    subst hij
    cases hx : xs[i]? with
    | none => rfl
    | some x => rw [Option.map_some, h x hx]
  · rfl

/-- A write of what is there anyway changes nothing. -/
theorem modifyItems_self {id : ArrayId} {f : Array Value → Array Value}
    (h : f (σ.items id) = σ.items id) : σ.modifyItems id f = σ := by
  have hself : σ.arrays.modify id f = σ.arrays :=
    modify_self _ _ fun vs hvs => by rwa [Store.items, hvs] at h
  rw [Store.modifyItems, hself]

theorem modifyPairs_self {id : HashId} {f : OrderedMap HashKey Value → OrderedMap HashKey Value}
    (h : f (σ.pairs id) = σ.pairs id) : σ.modifyPairs id f = σ := by
  have hself : σ.hashes.modify id f = σ.hashes :=
    modify_self _ _ fun m hm => by rwa [Store.pairs, hm] at h
  rw [Store.modifyPairs, hself]

end

/-! ## What is written -/

theorem Sets.cons {slot : HashKey} {v : Value} {e : HashKey × Value}
    {es es' : List (HashKey × Value)} (he : e.1 ≠ slot) (h : Sets slot v es es') :
    Sets slot v (e :: es) (e :: es') := by
  have hcons {es : List (HashKey × Value)} (hes : slot ∉ es.map Prod.fst) :
      slot ∉ (e :: es).map Prod.fst := by
    rw [List.map_cons, List.mem_cons, not_or]
    exact ⟨he.symm, hes⟩
  cases h with
  | overwrite hbefore => exact .overwrite (hcons hbefore)
  | add hes => exact .add (hcons hes)

theorem sets_put (slot : HashKey) (v : Value) (es : List (HashKey × Value)) :
    Sets slot v es (OrderedMap.put slot v es) := by
  induction es with
  | nil => exact .add List.not_mem_nil
  | cons e es ih =>
    rw [OrderedMap.put]
    split
    · rename_i hk
      obtain ⟨k, old⟩ := e
      cases hk
      show Sets k v ([] ++ (k, old) :: es) ([] ++ (k, v) :: es)
      exact .overwrite List.not_mem_nil
    · rename_i hk
      exact ih.cons hk

section

variable {σ : Store}

theorem Value.of_key_eq_error {k : Value} {e : RuntimeError} (h : k.key = .error e) :
    k.type ∉ ValueType.keys ∧ e = .unusableKey k.type.name := by
  cases k <;> cases h <;> exact ⟨by simp [Value.type, ValueType.keys], rfl⟩

theorem appends_array {id : ArrayId} (hid : id < σ.arrays.size) (vs : List Value) :
    Appends σ (.array id :: vs) (Native.append (.array id :: vs) σ) := by
  match vs with
  | [v] =>
    refine .item ?_
    rw [← Array.toList_push]
    exact arrayBecomes_modifyItems hid (·.push v)
  | [] | _ :: _ :: _ => exact .arrayCount (by simp)

theorem appends_hash {id : HashId} (hid : id < σ.hashes.size) (vs : List Value) :
    Appends σ (.hash id :: vs) (Native.append (.hash id :: vs) σ) := by
  match vs with
  | [k, v] =>
    rw [append_eq]
    cases hk : k.key with
    | ok slot => exact .entry hk (sets_put slot v _) (hashBecomes_modifyPairs hid (·.insert slot v))
    | error e =>
      obtain ⟨htype, rfl⟩ := Value.of_key_eq_error hk
      exact .unusableKey htype
  | [] | [_] | _ :: _ :: _ :: _ => exact .hashCount (by simp)

theorem appends_append {args : List Value}
    (hargs : ∀ v ∈ args.head?, ∀ l ∈ v.location?, σ.Has l) :
    Appends σ args (Native.append args σ) := by
  cases args with
  | nil => exact .nothing
  | cons v vs =>
    have hv := hargs v rfl
    cases v with
    | array id => exact appends_array (hv _ rfl) vs
    | hash id => exact appends_hash (hv _ rfl) vs
    | _ => exact .notCollection nofun nofun

/-- Deleting an element splits the others in two. -/
theorem removes_item {id : ArrayId} (hid : id < σ.arrays.size) (n : Integer) :
    Removes σ [.array id, .integer n] (Native.remove [.array id, .integer n] σ) := by
  have hrun : Native.remove [.array id, .integer n] σ =
      (Store.takeItem id n >>= fun taken => pure (Value.bool taken.isSome)) σ := rfl
  rw [hrun, Run.bind_apply, Store.takeItem, Integer.place?]
  by_cases hn : 0 ≤ n.toInt
  · rw [if_pos hn]
    show Removes σ _ (.ok (.bool (σ.items id)[n.toInt.toNat]?.isSome)
      (σ.modifyItems id (·.eraseIdxIfInBounds n.toInt.toNat)))
    by_cases hlt : n.toInt.toNat < (σ.items id).size
    · have hsplit : (σ.items id).toList = (σ.items id).toList.take n.toInt.toNat ++
          (σ.items id)[n.toInt.toNat] :: (σ.items id).toList.drop (n.toInt.toNat + 1) := by
        rw [← Array.getElem_toList, List.getElem_cons_drop, List.take_append_drop]
      have hwritten : ((σ.items id).eraseIdxIfInBounds n.toInt.toNat).toList =
          (σ.items id).toList.take n.toInt.toNat ++
            (σ.items id).toList.drop (n.toInt.toNat + 1) := by
        rw [Array.eraseIdxIfInBounds, dif_pos hlt, Array.toList_eraseIdx,
          List.eraseIdx_eq_take_drop_succ]
      have hbecomes := arrayBecomes_modifyItems hid (·.eraseIdxIfInBounds n.toInt.toNat)
      rw [hwritten] at hbecomes
      rw [Array.getElem?_eq_getElem hlt]
      refine .item ?_ hsplit hbecomes
      rw [List.length_take, Array.length_toList, Nat.min_eq_left (Nat.le_of_lt hlt),
        Int.toNat_of_nonneg hn]
    · have hself : (σ.items id).eraseIdxIfInBounds n.toInt.toNat = σ.items id := by
        rw [Array.eraseIdxIfInBounds, dif_neg hlt]
      rw [Array.getElem?_eq_none (Nat.le_of_not_lt hlt), modifyItems_self hself]
      exact .noItem (by omega)
  · rw [if_neg hn]
    exact .noItem (by omega)

theorem removes_entry {id : HashId} (hid : id < σ.hashes.size) (k : Value) :
    Removes σ [.hash id, k] (Native.remove [.hash id, k] σ) := by
  rw [remove_eq]
  cases hk : k.key with
  | error e =>
    obtain ⟨htype, rfl⟩ := Value.of_key_eq_error hk
    exact .unusableKey htype
  | ok slot =>
    dsimp only
    have hfind := (σ.pairs id).find?_eq_none_iff slot
    cases hslot : (σ.pairs id).find? slot with
    | none =>
      have habsent := hfind.1 hslot
      have hself : (σ.pairs id).erase slot = σ.pairs id := by
        have hne : ∀ e ∈ (σ.pairs id).entries, decide (e.1 ≠ slot) = true := fun e he =>
          decide_eq_true fun heq => habsent (heq ▸ List.mem_map_of_mem he)
        rw [OrderedMap.erase, List.filter_eq_self.2 hne]
      rw [modifyPairs_self hself]
      exact .noEntry hk habsent
    | some v =>
      have hpresent : slot ∈ (σ.pairs id).keys := by
        by_contra habsent
        exact Option.some_ne_none v (hslot.symm.trans (hfind.2 habsent))
      exact .entry hk hpresent (hashBecomes_modifyPairs hid (·.erase slot))

theorem removes_remove {args : List Value}
    (hargs : ∀ v ∈ args.head?, ∀ l ∈ v.location?, σ.Has l) :
    Removes σ args (Native.remove args σ) := by
  match args with
  | [] | [_] | _ :: _ :: _ :: _ => exact .count (by simp)
  | [v, w] =>
    have hv := hargs v rfl
    cases v with
    | array id =>
      cases w with
      | integer n => exact removes_item (hv _ rfl) n
      | _ => exact .notPlace nofun
    | hash id => exact removes_entry (hv _ rfl) w
    | _ => exact .notCollection nofun nofun

end

/-- **`append` and `remove` change a collection in place, exactly and atomically.** A call in a
program is a call of the native, and a failing one changes nothing. -/
theorem append_remove_in_place {σ : Store} {args : List Value}
    (hargs : ∀ v ∈ args.head?, ∀ l ∈ v.location?, σ.Has l) :
    Appends σ args (Native.append args σ) ∧ Removes σ args (Native.remove args σ) ∧
      (∀ e τ, Native.append args σ = .error e τ ∨ Native.remove args σ = .error e τ → τ = σ) ∧
      ∀ run f,
        Eval.apply .standard run f (.native "append") args σ =
          Eval.raising (Native.append args) σ ∧
        Eval.apply .standard run f (.native "remove") args σ =
          Eval.raising (Native.remove args) σ := by
  have happends := appends_append hargs
  have hremoves := removes_remove hargs
  refine ⟨happends, hremoves, ?_, fun run f => ⟨?_, ?_⟩⟩
  · rintro e τ (h | h)
    · rw [h] at happends
      cases happends <;> rfl
    · rw [h] at hremoves
      cases hremoves <;> rfl
  · show (Eval.raising (Native.append args) >>= Eval.ofNative) σ = _
    rw [Run.bind_apply, Eval.raising, Run.mapError]
    generalize Native.append args σ = o at happends
    cases happends <;> rfl
  · show (Eval.raising (Native.remove args) >>= Eval.ofNative) σ = _
    rw [Run.bind_apply, Eval.raising, Run.mapError]
    generalize Native.remove args σ = o at hremoves
    cases hremoves <;> rfl

/-- An array that is an element of itself, a value of a hash and bound to a name gets itself once
more. No place in it can be such an array. -/
theorem append_remove_in_place_of_cycle :
    let σ : Store := ⟨#[⟨⟨[("a", ⟨.array 0, false⟩)]⟩, none⟩], #[#[.array 0, .hash 0]],
      #[⟨[(.bool true, .array 0)]⟩], 0, .console #[]⟩
    let args : List Value := [.array 0, .array 0]
    (∀ v ∈ args.head?, ∀ l ∈ v.location?, σ.Has l) ∧
      (∃ τ, Native.append args σ = .ok (.array 0) τ ∧
        ArrayBecomes σ τ 0 [.array 0, .hash 0, .array 0]) ∧
      Native.remove args σ = .error (.argumentNotSupported "remove" "ARRAY") σ := by
  intro σ args
  have hargs : ∀ v ∈ args.head?, ∀ l ∈ v.location?, σ.Has l := by
    rintro v ⟨⟩ l ⟨⟩
    exact Nat.zero_lt_one
  obtain ⟨happends, hremoves, -, -⟩ := append_remove_in_place hargs
  refine ⟨hargs, ?_, ?_⟩
  · have hrun : Native.append args σ = .ok (.array 0) (σ.modifyItems 0 (·.push (.array 0))) := rfl
    rw [hrun] at happends ⊢
    dsimp only [args] at happends
    cases happends with
    | item h => exact ⟨_, rfl, h⟩
  · dsimp only [args] at hremoves ⊢
    generalize Native.remove _ σ = o at hremoves ⊢
    cases hremoves with
    | notPlace _ => rfl
    | notCollection h => exact absurd rfl h
    | count h => exact absurd rfl h

end Scriptlet
