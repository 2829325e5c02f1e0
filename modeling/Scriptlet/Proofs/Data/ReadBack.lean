import Scriptlet.Proofs.Data.Reading
import Scriptlet.Proofs.Histories.Hashes

/-!
# Displayed data reads back

**Theorem (`displayed_data_reads_back`).** The text that a value is displayed as, run as a source,
gives the same data again: the same scalars, the items of an array in order, the entries of a
hash in order. This holds of integers except the least one, booleans, `null`, and arrays and
hashes of them without one that contains itself; keys are integers or booleans.

The proof evaluates the literal that the text is read as. Every part of it leaves what there was
in the store as it was, so the parts evaluated before still unfold to their trees when the
collection around them is made. A hash is built entry by entry, and each key is a new one, so
it goes to the end.
-/

namespace Scriptlet

open Eval

/-! ## Literals without tokens, taken apart -/

namespace Expr

variable {e : Expr} {t : Token}

theorem eq_bool_of_bare {b : Bool} (h : e.bare = .bool t b) : ∃ t', e = .bool t' b := by
  cases e with
  | bool t' b' => cases h; exact ⟨t', rfl⟩
  | _ => cases h

theorem eq_null_of_bare (h : e.bare = .null t) : ∃ t', e = .null t' := by
  cases e with
  | null t' => exact ⟨t', rfl⟩
  | _ => cases h

theorem eq_array_of_bare {es : List Expr} (h : e.bare = .array t es) :
    ∃ t' es', e = .array t' es' ∧ bareExprs es' = es := by
  cases e with
  | array t' es' => cases h; exact ⟨t', es', rfl, rfl⟩
  | _ => cases h

theorem eq_hash_of_bare {kvs : List (Expr × Expr)} (h : e.bare = .hash t kvs) :
    ∃ t' kvs', e = .hash t' kvs' ∧ barePairs kvs' = kvs := by
  cases e with
  | hash t' kvs' => cases h; exact ⟨t', kvs', rfl, rfl⟩
  | _ => cases h

end Expr

/-! ## Evaluating a literal -/

variable {σ ρ : Store} (reg : Registry) (env : ScopeId)

theorem eval_int {n : Integer} (hmin : n ≠ Int64.minValue) {e : Expr}
    (he : e.bare = (intExpr n.toInt).bare) {depth : Nat} (hdepth : 2 ≤ depth) (σ : Store) :
    eval reg depth env e σ = .ok (.integer n) σ := by
  obtain ⟨depth, rfl⟩ := Nat.exists_eq_add_of_le' hdepth
  have hlower := lt_toInt_of_ne_minValue hmin
  have hupper := n.toInt_lt
  generalize hr : n.toInt = r at he hlower hupper
  cases r with
  | ofNat m =>
    obtain ⟨t, rfl⟩ := Expr.eq_int_of_bare he
    have hn : Int64.ofNat m = n := by
      rw [← Int64.toInt_inj, hr]
      exact Int64.toInt_ofNat_of_lt (by rw [Int.ofNat_eq_natCast] at hupper; omega)
    rw [eval, hn]
    rfl
  | negSucc m =>
    obtain ⟨t, e₁, rfl, he₁⟩ := Expr.eq_unary_of_bare he
    obtain ⟨t', rfl⟩ := Expr.eq_int_of_bare he₁
    have hdigits : (Int64.ofNat (m + 1)).toInt = (m + 1 : Nat) :=
      Int64.toInt_ofNat_of_lt (by omega)
    have hneg : Integer.neg? (.ofNat (m + 1)) = some n := by
      rw [Integer.neg?, hdigits, Integer.ofInt?_eq_some_iff, hr]
      rfl
    rw [eval, eval, Run.bind_apply, Run.pure_apply]
    dsimp only
    rw [Value.unary, hneg]
    rfl

theorem Scalar.eval {s : Scalar} {e : Expr} (he : e.bare = s.expr.bare) {depth : Nat}
    (hdepth : 2 ≤ depth) (σ : Store) : Eval.eval reg depth env e σ = .ok s.key.value σ := by
  cases s with
  | integer n hmin => exact eval_int reg env hmin he hdepth σ
  | bool b =>
    obtain ⟨t, rfl⟩ := Expr.eq_bool_of_bare he
    obtain ⟨depth, rfl⟩ := Nat.exists_eq_add_of_le' hdepth
    rfl

theorem two_le_entriesHeight (es : List (Scalar × Data)) : 2 ≤ entriesHeight es := by
  induction es with
  | nil => exact Nat.le_refl _
  | cons e es ih => exact Nat.le_trans ih (Nat.le_max_right _ _)

mutual

/-- A literal of data that some value unfolds to makes such a value. -/
theorem Data.eval : (d : Data) → {v : Value} → d.Of ρ v → {depth : Nat} → d.height ≤ depth →
    {e : Expr} → e.bare = d.expr.bare → (σ : Store) →
    ∃ w τ, Eval.eval reg depth env e σ = .ok w τ ∧ d.Of τ w ∧ σ.Extends τ
  | .scalar s, _, _, _, hdepth, _, he, σ =>
    ⟨s.key.value, σ, s.eval reg env he hdepth σ, rfl, .refl σ⟩
  | .null, _, _, depth + 1, _, _, he, σ => by
    obtain ⟨t, rfl⟩ := Expr.eq_null_of_bare he
    exact ⟨.null, σ, rfl, rfl, .refl σ⟩
  | .array ds, _, ⟨_, _, _, hds⟩, depth + 1, hdepth, _, he, σ => by
    obtain ⟨t, es, rfl, hes⟩ := Expr.eq_array_of_bare he
    obtain ⟨ws, τ, hrun, hws, hτ⟩ :=
      evalItems ds hds (Nat.le_of_succ_le_succ hdepth) hes σ
    have hpush := Store.Extends.pushArray τ ws.toArray
    refine ⟨.array τ.arrays.size, _, Run.bind_eq_ok_iff.2 ⟨ws, τ, hrun, rfl⟩,
      ⟨_, rfl, ?_, ?_⟩, hτ.trans hpush⟩
    · simp [Store.Has]
    · simpa [Store.items] using ItemsOf.extend hpush ds hws
  | .hash es, _, ⟨_, _, _, hnodup, hes⟩, depth + 1, hdepth, _, he, σ => by
    obtain ⟨t, kvs, rfl, hkvs⟩ := Expr.eq_hash_of_bare he
    have hkeys : (es.map fun e => e.1.key).Nodup := hes.keys_eq ▸ hnodup
    obtain ⟨entries, τ, hrun, hentries, hτ⟩ :=
      evalEntries es hes (Nat.le_of_succ_le_succ hdepth) hkvs .empty hkeys σ
    have hpush := Store.Extends.pushHash τ ⟨entries⟩
    refine ⟨.hash τ.hashes.size, _, Run.bind_eq_ok_iff.2 ⟨⟨entries⟩, τ, hrun, rfl⟩,
      ⟨_, rfl, ?_, ?_, ?_⟩, hτ.trans hpush⟩
    · simp [Store.Has]
    · simpa [Store.pairs, OrderedMap.keys, hentries.keys_eq] using hkeys
    · simpa [Store.pairs] using EntriesOf.extend hpush es hentries

theorem evalItems : (ds : List Data) → {vs : List Value} → ItemsOf ρ ds vs → {depth : Nat} →
    itemsHeight ds ≤ depth → {es : List Expr} → bareExprs es = bareExprs (itemExprs ds) →
    (σ : Store) → ∃ ws τ, es.mapM (Eval.eval reg depth env) σ = .ok ws τ ∧ ItemsOf τ ds ws ∧
      σ.Extends τ
  | [], _, _, _, _, [], _, σ => ⟨[], σ, rfl, rfl, .refl σ⟩
  | d :: ds, _, ⟨_, _, _, hd, hds⟩, depth, hdepth, e :: es, he, σ => by
    obtain ⟨he, hes⟩ := List.cons.inj he
    obtain ⟨w, τ, hrun, hw, hτ⟩ := d.eval hd (Nat.le_trans (Nat.le_max_left _ _) hdepth) he σ
    obtain ⟨ws, τ', hruns, hws, hτ'⟩ :=
      evalItems ds hds (Nat.le_trans (Nat.le_max_right _ _) hdepth) hes τ
    -- The other items leave what the first one made.
    refine ⟨w :: ws, τ', ?_, ⟨w, ws, rfl, hw.extend hτ' d, hws⟩, hτ.trans hτ'⟩
    rw [List.mapM_cons]
    exact Run.bind_eq_ok_iff.2 ⟨w, τ, hrun, Run.bind_eq_ok_iff.2 ⟨ws, τ', hruns, rfl⟩⟩

/-- Entries with new keys go to the end, in order. -/
theorem evalEntries : (es : List (Scalar × Data)) → {kvs : List (HashKey × Value)} →
    EntriesOf ρ es kvs → {depth : Nat} → entriesHeight es ≤ depth → {ps : List (Expr × Expr)} →
    barePairs ps = barePairs (entryExprs es) → (m : OrderedMap HashKey Value) →
    (m.keys ++ es.map fun e => e.1.key).Nodup → (σ : Store) →
    ∃ entries τ, ps.foldlM (pair (Eval.eval reg depth env)) m σ = .ok ⟨m.entries ++ entries⟩ τ ∧
      EntriesOf τ es entries ∧ σ.Extends τ
  | [], _, _, _, _, [], _, m, _, σ => ⟨[], σ, by rw [List.append_nil]; rfl, rfl, .refl σ⟩
  | (s, d) :: es, _, ⟨_, _, _, hd, hes⟩, depth, hdepth, (k, v) :: ps, hps, m, hnodup, σ => by
    obtain ⟨hkv, hps⟩ := List.cons.inj hps
    obtain ⟨hk, hv⟩ := Prod.mk.inj hkv
    have hrest := Nat.le_trans (Nat.le_max_right d.height _) hdepth
    have hkey := s.eval reg env hk (Nat.le_trans (two_le_entriesHeight es) hrest) σ
    obtain ⟨w, τ, hrun, hw, hτ⟩ := d.eval hd (Nat.le_trans (Nat.le_max_left _ _) hdepth) hv σ
    -- No entry has the key yet.
    have hnew : s.key ∉ m.keys := fun hmem =>
      (List.nodup_append.1 hnodup).2.2 _ hmem _ List.mem_cons_self rfl
    have hinsert : m.insert s.key w = ⟨m.entries ++ [(s.key, w)]⟩ :=
      OrderedMap.insert_of_not_mem w hnew
    have hkeys : ((m.insert s.key w).keys ++ es.map fun e => e.1.key).Nodup := by
      rw [OrderedMap.keys_insert, if_neg hnew, List.append_assoc]
      exact hnodup
    obtain ⟨entries, τ', hruns, hentries, hτ'⟩ := evalEntries es hes hrest hps _ hkeys τ
    refine ⟨(s.key, w) :: entries, τ', ?_, ⟨w, entries, rfl, hw.extend hτ' d, hentries⟩,
      hτ.trans hτ'⟩
    have hpair : pair (Eval.eval reg depth env) m (k, v) σ = .ok (m.insert s.key w) τ :=
      pair_eq_ok_iff.2 ⟨s.key.value, σ, s.key, w, hkey, Value.key_value _, hrun, rfl⟩
    rw [hinsert, List.append_assoc] at hruns
    rw [List.foldlM_cons]
    exact Run.bind_eq_ok_iff.2 ⟨_, τ, hpair, hinsert ▸ hruns⟩

end

/-! ## From text to value -/

/-- **Displayed data reads back.** The text of a value that is data throughout, without a
collection that contains itself, gives the same data when it is run as a source. -/
theorem displayed_data_reads_back {v : Value}
    (hdata : ∀ p path w, σ.Occurs v p path w → σ.IsDatum w) (hcycle : ¬ σ.ReachesCycle v) :
    ∃ d : Data, d.Of σ v ∧ ∀ (session : Session) (depth : Nat), d.height < depth →
      ∃ w τ, session.eval depth (σ.text v) = .ok (some (w, { session with store := τ })) ∧
        d.Of τ w := by
  obtain ⟨d, hd⟩ := exists_data_iff.2 ⟨hdata, hcycle⟩
  refine ⟨d, hd, fun session depth hdepth => ?_⟩
  obtain ⟨k, e, hparse, he⟩ := d.parse_text
  rw [← (d.text_eq hd).2] at hparse
  obtain _ | depth := depth
  · cases hdepth
  obtain ⟨w, τ, hrun, hw, -⟩ :=
    d.eval session.registry session.globals hd (Nat.le_of_lt_succ hdepth) he session.store
  refine ⟨w, τ, ?_, hw⟩
  rw [session.eval_of_expr hparse, answer, hrun]
  rfl

/-- A hash in an array, with a boolean and a negative number as its keys. -/
theorem nested_data_reads_back :
    let σ : Store := { Store.empty (.console #[]) with
      arrays := #[#[.integer (-3), .hash 0]]
      hashes := #[⟨[(.bool true, .null), (.integer (-5), .integer 7)]⟩] }
    (∀ p path w, σ.Occurs (.array 0) p path w → σ.IsDatum w) ∧ ¬ σ.ReachesCycle (.array 0) ∧
      ∃ (d : Data) (w : Value) (τ : Store), d.Of σ (.array 0) ∧
        (Session.new .standard (.console #[])).eval (d.height + 1)
            "[-3, \x7btrue: null, -5: 7\x7d]" =
          .ok (some (w, { Session.new .standard (.console #[]) with store := τ })) ∧
        d.Of τ w := by
  intro σ
  let d : Data := .array [.scalar (.integer (-3) (by decide)),
    .hash [(.bool true, .null), (.integer (-5) (by decide), .scalar (.integer 7 (by decide)))]]
  have hhash : ∃ id, Value.hash 0 = .hash id ∧ σ.Has (.hash id) ∧ (σ.pairs id).keys.Nodup ∧
      EntriesOf σ [(.bool true, .null), (.integer (-5) (by decide),
        .scalar (.integer 7 (by decide)))] (σ.pairs id).entries :=
    ⟨0, rfl, Nat.zero_lt_one, by decide, _, _, rfl, rfl, _, _, rfl, rfl, rfl⟩
  have hd : d.Of σ (.array 0) :=
    ⟨0, rfl, Nat.zero_lt_one, _, _, rfl, rfl, _, _, rfl, hhash, rfl⟩
  have htext : σ.text (.array 0) = "[-3, \x7btrue: null, -5: 7\x7d]" :=
    (d.text_eq hd).2.trans (by decide)
  obtain ⟨hdata, hcycle⟩ := exists_data_iff.1 ⟨d, hd⟩
  obtain ⟨d', hd', hread⟩ := displayed_data_reads_back hdata hcycle
  obtain ⟨w, τ, heval, hw⟩ := hread (.new .standard (.console #[])) _ (Nat.lt_succ_self _)
  exact ⟨hdata, hcycle, d', w, τ, hd', htext ▸ heval, hw⟩

end Scriptlet
