import Scriptlet.Evaluator
import Scriptlet.Native.Standard
import Scriptlet.Proofs.Histories

/-!
# The hashes of a running program

A running program keeps the entries of a hash under their keys alone, for a key says what its
value is. `Shows` relates such entries to a hash of pairs, and every change keeps the two related:
what a hash literal puts in (`Shows.foldlM_pair`), and what a call of `append` or `remove` does
(`HasHistory.afterCall`). So a hash of a running program has a history too, and what the program
reads from it, in whatever way, is what the history says.

**Theorem (`hash_follows_history`).** A hash is a map in the order of insertion: it holds, at each
key that was set and not unset since, the value that was set last, in the order in which the keys
entered, and nothing else.
-/

namespace Scriptlet

open Eval

namespace Pairs

variable {M : IndexedMap HashKey HashPair} {m : M.Map} {r : OrderedMap HashKey Value}
variable {slot : HashKey}

/-- The entries are the pairs of `m`, in the same order. -/
structure Shows (M : IndexedMap HashKey HashPair) (m : M.Map) (r : OrderedMap HashKey Value) :
    Prop where
  keys_eq : r.keys = M.keys m
  get?_eq (slot : HashKey) : M.get? m slot = (r.find? slot).map (HashPair.mk slot.value)

namespace Shows

variable (hM : M.Documented)

include hM

theorem empty : Shows M M.empty .empty where
  keys_eq := hM.keys_empty.symm
  get?_eq slot := get?_empty hM slot

theorem insert (h : Shows M m r) {k : Value} (hk : k.key = .ok slot) (v : Value) :
    Shows M (M.insert m slot ⟨k, v⟩) (r.insert slot v) where
  keys_eq := by rw [OrderedMap.keys_insert, hM.keys_insert, h.keys_eq]
  get?_eq slot' := by
    rw [hM.get?_insert, OrderedMap.find?_insert]
    split_ifs with hslot
    · rw [← hslot, Value.key_eq_ok_iff.1 hk]
      rfl
    · exact h.get?_eq slot'

theorem erase (h : Shows M m r) (slot : HashKey) :
    Shows M (M.shiftRemove m slot).2 (r.erase slot) where
  keys_eq := by rw [OrderedMap.keys_erase, hM.keys_shiftRemove, h.keys_eq]
  get?_eq slot' := by
    rw [hM.get?_shiftRemove, OrderedMap.find?_erase]
    split_ifs with hslot
    · rfl
    · exact h.get?_eq slot'

theorem size_eq (h : Shows M m r) : r.size = M.len m := by
  rw [hM.len_eq, ← h.keys_eq, OrderedMap.keys, List.length_map, OrderedMap.size]

/-- The entries in the order of the keys are the pairs in their order. -/
theorem entries_eq (h : Shows M m r) :
    (r.entries.map fun e => (e.1.value, e.2)) = (M.values m).map fun e => (e.key, e.value) := by
  have hnodup : r.keys.Nodup := h.keys_eq ▸ hM.nodup_keys m
  have hvalues : M.values m = r.entries.map fun e => ⟨e.1.value, e.2⟩ := by
    refine List.map_injective_iff.2 (Option.some_injective _) ?_
    rw [hM.values_eq, ← h.keys_eq, OrderedMap.keys, List.map_map, List.map_map]
    refine List.map_congr_left fun e he => ?_
    show M.get? m e.1 = _
    rw [h.get?_eq, OrderedMap.find?_of_mem_entries hnodup he]
    rfl
  rw [hvalues, List.map_map]
  rfl

end Shows

/-- What the call that makes a change gives back: a hash that was set a key in is given back, and
for an unset key it is said whether there was a pair. -/
def reply (m : M.Map) (id : HashId) : Change → Value
  | .set _ _ => .hash id
  | .unset k => .bool (k.key.toOption.any fun slot => (M.shiftRemove m slot).1.isSome)

end Pairs

open Pairs

/-! ## Calls -/

/-- The call that makes a change to the hash `id`. -/
def Change.call (id : HashId) : Change → Action Value
  | .set k v => Native.append [.hash id, k, v]
  | .unset k => Native.remove [.hash id, k]

/-- The store that the call leaves, whether it fails or not. -/
def Store.afterCall (id : HashId) (σ : Store) (c : Change) : Store :=
  match c.call id σ with
  | .ok _ τ | .error _ τ => τ
  | .outOfFuel => σ

/-- The hash `id` of the store is there and has been made by these changes. -/
structure HasHistory (M : IndexedMap HashKey HashPair) (history : List Change) (id : HashId)
    (σ : Store) : Prop where
  lt_size : id < σ.hashes.size
  shows : Shows M (after M history) (σ.pairs id)

variable {M : IndexedMap HashKey HashPair} {history : List Change} {id : HashId} {σ τ : Store}

theorem HasHistory.modifyPairs {f : OrderedMap HashKey Value → OrderedMap HashKey Value}
    (hid : id < σ.hashes.size) (h : Shows M (after M history) (f (σ.pairs id))) :
    HasHistory M history id (σ.modifyPairs id f) where
  lt_size := by rwa [Store.modifyPairs, Array.size_modify]
  shows := by rwa [Store.pairs_modifyPairs, if_pos ⟨rfl, hid⟩]

theorem append_eq (k v : Value) (σ : Store) :
    Native.append [.hash id, k, v] σ = match k.key with
      | .ok slot => .ok (.hash id) (σ.modifyPairs id (·.insert slot v))
      | .error e => .error e σ := by
  show (Store.setEntry id k v >>= fun _ => pure (Value.hash id)) σ = _
  rw [Run.bind_apply, Store.setEntry]
  cases k.key <;> rfl

theorem remove_eq (k : Value) (σ : Store) :
    Native.remove [.hash id, k] σ = match k.key with
      | .ok slot => .ok (.bool ((σ.pairs id).find? slot).isSome) (σ.modifyPairs id (·.erase slot))
      | .error e => .error e σ := by
  show (Store.takeEntry id k >>= fun taken => pure (Value.bool taken.isSome)) σ = _
  rw [Run.bind_apply, Store.takeEntry]
  cases k.key <;> rfl

namespace HasHistory

variable (hM : M.Documented)

include hM

/-- A call makes its change, or fails as the change does and leaves everything as it was. -/
theorem call_eq (h : HasHistory M history id σ) (c : Change) :
    match change M (after M history) c with
    | .ok _ => ∃ τ, c.call id σ = .ok (reply (after M history) id c) τ ∧
        HasHistory M (history ++ [c]) id τ
    | .error e => c.call id σ = .error e σ ∧ HasHistory M (history ++ [c]) id σ := by
  obtain ⟨hid, hshows⟩ := h
  -- A change that fails is in the history too, where it counts for nothing.
  have hfails (hc : apply M (after M history) c = after M history) :
      HasHistory M (history ++ [c]) id σ := ⟨hid, by rwa [after_concat, hc]⟩
  cases c with
  | set k v =>
    rw [change, Pairs.insert, Change.call, append_eq]
    cases hk : k.key with
    | error e => exact ⟨rfl, hfails (apply_of_key_eq_error hk v).1⟩
    | ok slot =>
      have hafter : Shows M (after M (history ++ [.set k v])) ((σ.pairs id).insert slot v) := by
        rw [after_concat, apply_set hk]
        exact hshows.insert hM hk v
      exact ⟨_, rfl, .modifyPairs hid hafter⟩
  | unset k =>
    rw [change, Pairs.remove, Change.call, remove_eq]
    cases hk : k.key with
    | error e => exact ⟨rfl, hfails (apply_of_key_eq_error hk .null).2⟩
    | ok slot =>
      have hafter : Shows M (after M (history ++ [.unset k])) ((σ.pairs id).erase slot) := by
        rw [after_concat, apply_unset hk]
        exact hshows.erase hM slot
      have htaken : ((σ.pairs id).find? slot).isSome =
          ((M.shiftRemove (after M history) slot).1).isSome := by
        rw [hM.fst_shiftRemove, hshows.get?_eq, Option.isSome_map]
      have hreply : reply (after M history) id (.unset k) =
          .bool ((σ.pairs id).find? slot).isSome := by
        rw [reply, hk, htaken]
        rfl
      exact ⟨_, by rw [hreply], .modifyPairs hid hafter⟩

theorem afterCall (h : HasHistory M history id σ) (c : Change) :
    HasHistory M (history ++ [c]) id (σ.afterCall id c) := by
  have hcall := h.call_eq hM c
  rw [Store.afterCall]
  split at hcall
  · obtain ⟨τ, hτ, hhistory⟩ := hcall
    rw [hτ]
    exact hhistory
  · obtain ⟨hσ, hhistory⟩ := hcall
    rw [hσ]
    exact hhistory

/-- Calls go on with the history. -/
theorem afterCalls (h : HasHistory M history id σ) (later : List Change) :
    HasHistory M (history ++ later) id (later.foldl (Store.afterCall id) σ) := by
  induction later generalizing history σ with
  | nil => rwa [List.append_nil]
  | cons c later ih =>
    rw [List.append_cons, List.foldl_cons]
    exact ih (h.afterCall hM c)

end HasHistory

/-! ## Literals -/

/-- The keys and values that `run` gives for the pairs, from `σ` to `τ`. Each key can be one. -/
inductive PairValues (run : Expr → Eval Value) :
    List (Expr × Expr) → List (Value × Value) → Store → Store → Prop
  | nil {σ : Store} : PairValues run [] [] σ σ
  | cons {kv : Expr × Expr} {kvs : List (Expr × Expr)} {k v : Value} {slot : HashKey}
      {vs : List (Value × Value)} {σ ρ ρ' τ : Store} (hk : run kv.1 σ = .ok k ρ)
      (hslot : k.key = .ok slot) (hv : run kv.2 ρ = .ok v ρ')
      (hrest : PairValues run kvs vs ρ' τ) : PairValues run (kv :: kvs) ((k, v) :: vs) σ τ

/-- The changes that put pairs in, one after the other. -/
def settings (vs : List (Value × Value)) : List Change := vs.map fun kv => .set kv.1 kv.2

section

variable {run : Expr → Eval Value} {kv : Expr × Expr} {kvs : List (Expr × Expr)}
variable {r r' : OrderedMap HashKey Value}

theorem pair_eq_ok_iff :
    pair run r kv σ = .ok r' τ ↔ ∃ k ρ slot v, run kv.1 σ = .ok k ρ ∧ k.key = .ok slot ∧
      run kv.2 ρ = .ok v τ ∧ r' = r.insert slot v := by
  constructor
  · intro h
    obtain ⟨k, ρ, hk, h⟩ := Run.bind_eq_ok_iff.1 h
    obtain ⟨slot, ρ', hslot, h⟩ := Run.bind_eq_ok_iff.1 h
    obtain ⟨v, ρ'', hv, h⟩ := Run.bind_eq_ok_iff.1 h
    cases h
    cases hkey : k.key with
    | error e =>
      rw [hkey] at hslot
      cases hslot
    | ok slot' =>
      rw [hkey] at hslot
      cases hslot
      exact ⟨k, ρ, slot, v, hk, hkey, hv, rfl⟩
  · rintro ⟨k, ρ, slot, v, hk, hslot, hv, rfl⟩
    refine Run.bind_eq_ok_iff.2 ⟨k, ρ, hk, Run.bind_eq_ok_iff.2 ⟨slot, ρ, by rw [hslot]; rfl, ?_⟩⟩
    exact Run.bind_eq_ok_iff.2 ⟨v, τ, hv, rfl⟩

/-- The pairs of a literal go into the hash in the order in which they are written. -/
theorem Pairs.Shows.foldlM_pair (hM : M.Documented) (hr : Shows M (after M history) r)
    (h : kvs.foldlM (pair run) r σ = .ok r' τ) :
    ∃ vs, PairValues run kvs vs σ τ ∧ Shows M (after M (history ++ settings vs)) r' := by
  induction kvs generalizing r history σ with
  | nil =>
    cases h
    exact ⟨[], .nil, by rwa [settings, List.map_nil, List.append_nil]⟩
  | cons kv kvs ih =>
    rw [List.foldlM_cons] at h
    obtain ⟨r₁, ρ, hkv, h⟩ := Run.bind_eq_ok_iff.1 h
    obtain ⟨k, ρ', slot, v, hk, hslot, hv, rfl⟩ := pair_eq_ok_iff.1 hkv
    have hr₁ : Shows M (after M (history ++ [.set k v])) (r.insert slot v) := by
      rw [after_concat, apply_set hslot]
      exact hr.insert hM hslot v
    obtain ⟨vs, hvs, hr'⟩ := ih hr₁ h
    refine ⟨(k, v) :: vs, .cons hk hslot hv hvs, ?_⟩
    rwa [settings, List.map_cons, List.append_cons]

/-- A literal that ends with a value gives a hash, and its history is the pairs. -/
theorem HasHistory.of_literal (hM : M.Documented) {reg : Registry} {depth : Nat} {env : ScopeId}
    {token : Token} {v : Value}
    (h : eval reg (depth + 1) env (.hash token kvs) σ = .ok v τ) :
    ∃ id vs ρ, v = .hash id ∧ PairValues (eval reg depth env) kvs vs σ ρ ∧
      HasHistory M (settings vs) id τ := by
  obtain ⟨r, ρ, hr, h⟩ := Run.bind_eq_ok_iff.1 h
  obtain ⟨id, ρ', hid, h⟩ := Run.bind_eq_ok_iff.1 h
  cases hid
  cases h
  have hempty : Shows M (after M []) .empty := Shows.empty hM
  obtain ⟨vs, hvs, hshows⟩ := hempty.foldlM_pair hM hr
  refine ⟨_, vs, ρ, rfl, hvs, by simp, ?_⟩
  rwa [Store.pairs_pushHash, if_pos rfl]

/-- At a key that cannot be one the literal fails. The value beside it is not evaluated. -/
theorem PairValues.foldlM_pair_eq_error {before later : List (Expr × Expr)}
    {vs : List (Value × Value)} {ρ : Store} {k : Value} {err : RuntimeError}
    (h : PairValues run before vs σ ρ) (hk : run kv.1 ρ = .ok k τ) (hkey : k.key = .error err) :
    (before ++ kv :: later).foldlM (pair run) r σ = .error (.raised err) τ := by
  induction h generalizing r with
  | nil =>
    rw [List.nil_append, List.foldlM_cons]
    refine Run.bind_eq_error_iff.2 (Or.inl (Run.bind_eq_error_iff.2 (Or.inr ⟨k, τ, hk, ?_⟩)))
    refine Run.bind_eq_error_iff.2 (Or.inl ?_)
    rw [hkey]
    rfl
  | cons hk' hslot hv _ ih =>
    rw [List.cons_append, List.foldlM_cons]
    exact Run.bind_eq_error_iff.2 (Or.inr ⟨_, _, pair_eq_ok_iff.2 ⟨_, _, _, _, hk', hslot, hv, rfl⟩,
      ih hk⟩)

end

/-! ## What a program reads -/

/-- What a program reads from the hash `id` is what `m` holds. -/
structure Reads (M : IndexedMap HashKey HashPair) (m : M.Map) (id : HashId) (σ : Store) :
    Prop where
  len_eq : Native.len [.hash id] σ = .ok (.integer (.ofNat (M.len m))) σ
  index_eq (k : Value) (slot : HashKey) (hk : k.key = .ok slot) :
    σ.index (.hash id) k = .ok (((M.get? m slot).map HashPair.value).getD .null)
  entries_eq : entries (.hash id) σ = .ok ((M.values m).map fun e => (e.key, e.value)) σ

theorem HasHistory.reads (hM : M.Documented) (h : HasHistory M history id σ) :
    Reads M (after M history) id σ where
  len_eq := by
    rw [← h.shows.size_eq hM]
    rfl
  index_eq k slot hk := by
    rw [Store.index, hk, h.shows.get?_eq]
    show Except.ok (((σ.pairs id).find? slot).getD .null) = _
    cases (σ.pairs id).find? slot <;> rfl
  entries_eq := by
    rw [← h.shows.entries_eq hM]
    rfl

/-- Hashes of running programs are hashes of pairs. -/
structure Realizes (M : IndexedMap HashKey HashPair) : Prop where
  /-- A literal makes a hash of its pairs. -/
  literal {reg : Registry} {depth : Nat} {env : ScopeId} {token : Token}
      {kvs : List (Expr × Expr)} {v : Value} {σ τ : Store}
      (h : eval reg (depth + 1) env (.hash token kvs) σ = .ok v τ) :
    ∃ id vs ρ, v = .hash id ∧ PairValues (eval reg depth env) kvs vs σ ρ ∧
      HasHistory M (settings vs) id τ
  /-- Where a key of a literal cannot be one, the literal fails. -/
  literal_fails {reg : Registry} {depth : Nat} {env : ScopeId} {token : Token}
      {before later : List (Expr × Expr)} {kv : Expr × Expr} {vs : List (Value × Value)}
      {k : Value} {σ ρ τ : Store} (hbefore : PairValues (eval reg depth env) before vs σ ρ)
      (hk : eval reg depth env kv.1 ρ = .ok k τ) (hkey : k.type ∉ ValueType.keys) :
    eval reg (depth + 1) env (.hash token (before ++ kv :: later)) σ =
      .error (.raised (.unusableKey k.type.name)) τ
  /-- A call makes its change, or fails as the change does and leaves everything as it was. -/
  call {history : List Change} {id : HashId} {σ : Store} (h : HasHistory M history id σ)
      (c : Change) :
    match change M (after M history) c with
    | .ok _ => ∃ τ, c.call id σ = .ok (reply (after M history) id c) τ ∧
        HasHistory M (history ++ [c]) id τ
    | .error e => c.call id σ = .error e σ ∧ HasHistory M (history ++ [c]) id σ
  /-- Calls one after the other go on with the history. -/
  calls {history : List Change} {id : HashId} {σ : Store} (h : HasHistory M history id σ)
      (later : List Change) :
    HasHistory M (history ++ later) id (later.foldl (Store.afterCall id) σ)
  reads {history : List Change} {id : HashId} {σ : Store} (h : HasHistory M history id σ) :
    Reads M (after M history) id σ

theorem realizes (hM : M.Documented) : Realizes M where
  literal h := HasHistory.of_literal hM h
  literal_fails hbefore hk hkey := Run.bind_eq_error_iff.2 <| Or.inl <|
    hbefore.foldlM_pair_eq_error hk (Value.key_eq_error hkey)
  call h c := h.call_eq hM c
  calls h later := h.afterCalls hM later
  reads h := h.reads hM

/-- A hash is a map in the order of insertion, and every hash of a running program is one. -/
theorem hash_follows_history (hM : M.Documented) :
    (∀ a b : Value, (∃ slot, a.key = .ok slot ∧ b.key = .ok slot) ↔
        a.type ∈ ValueType.keys ∧ a.type = b.type ∧ a.same b) ∧
      (∀ history, Reflects M history (after M history)) ∧
      (∀ (m : M.Map) (c : Change), (M.keys (apply M m c)).filter (· ∈ M.keys m) =
        (M.keys m).filter (· ∈ M.keys (apply M m c))) ∧
      (∀ (m : M.Map) (k v : Value), k.type ∉ ValueType.keys →
        Pairs.insert M m k v = .error (.unusableKey k.type.name) ∧ apply M m (.set k v) = m) ∧
      Realizes M := by
  refine ⟨Value.exists_key_iff, reflects_after hM, keys_apply_filter hM, ?_, realizes hM⟩
  intro m k v hkey
  have hk := Value.key_eq_error hkey
  exact ⟨by rw [Pairs.insert, hk]; rfl, (apply_of_key_eq_error hk v).1⟩

/-! ## A map that is as documented -/

/-- Entries in the order of insertion, each key once, are a map as it is documented. -/
def IndexedMap.ordered {κ α : Type} [DecidableEq κ] : IndexedMap κ α where
  Map := {m : OrderedMap κ α // m.keys.Nodup}
  empty := ⟨.empty, List.nodup_nil⟩
  get? m := m.val.find?
  insert m k a := ⟨m.val.insert k a, m.val.nodup_keys_insert k a m.property⟩
  shiftRemove m k := (m.val.find? k, ⟨m.val.erase k, m.val.nodup_keys_erase k m.property⟩)
  keys m := m.val.keys
  values m := m.val.values
  len m := m.val.size

theorem IndexedMap.documented_ordered {κ α : Type} [DecidableEq κ] :
    (IndexedMap.ordered : IndexedMap κ α).Documented where
  keys_empty := rfl
  nodup_keys m := m.property
  mem_keys_iff m k := (m.val.contains_iff k).symm
  values_eq m := by
    show (m.val.entries.map Prod.snd).map some = (m.val.entries.map Prod.fst).map m.val.find?
    rw [List.map_map, List.map_map]
    exact List.map_congr_left fun e he => (OrderedMap.find?_of_mem_entries m.property he).symm
  len_eq m := (List.length_map ..).symm
  get?_insert m := m.val.find?_insert
  keys_insert m := m.val.keys_insert
  get?_shiftRemove m := m.val.find?_erase
  keys_shiftRemove m := m.val.keys_erase
  fst_shiftRemove _ _ := rfl

/-- The hash of a literal that sets `y` and `x`. Then `y` is overwritten, deleted and set again,
`null` turns out to be no key, and `x` is overwritten. -/
theorem hash_follows_history_of_literal_and_calls :
    let later : List Change := [.set (.string "y") (.bool true), .unset (.string "y"),
      .set (.string "y") (.integer 3), .set .null (.integer 4), .set (.string "x") (.integer 2)]
    let history := settings [(.string "y", .integer 1), (.string "x", .null)] ++ later
    Reflects .ordered history (after .ordered history) ∧
      ∃ id σ, HasHistory .ordered history id σ ∧
        entries (.hash id) σ = .ok [(.string "x", .integer 2), (.string "y", .integer 3)] σ := by
  intro later history
  have hM : (IndexedMap.ordered : IndexedMap HashKey HashPair).Documented :=
    IndexedMap.documented_ordered
  obtain ⟨-, hreflects, -, -, hrealizes⟩ := hash_follows_history hM
  let token : Token := ⟨.lbrace, "\x7b", .start⟩
  have heval : Eval.eval .empty 2 0 (.hash token [(.str token "y", .int token 1),
      (.str token "x", .null token)]) (.empty (.console #[])) = .ok (.hash 0) _ := rfl
  obtain ⟨id, vs, ρ, hid, hvs, hliteral⟩ := hrealizes.literal heval
  cases hvs with
  | cons hk _ hv hrest =>
    cases hk
    cases hv
    cases hrest with
    | cons hk _ hv hrest =>
      cases hk
      cases hv
      cases hrest
      have hhistory := hrealizes.calls hliteral later
      refine ⟨hreflects history, id, _, hhistory, ?_⟩
      exact (hrealizes.reads hhistory).entries_eq

end Scriptlet
