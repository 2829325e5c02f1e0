import Mathlib.Data.List.Forall2
import Mathlib.Data.List.Lattice
import Mathlib.Logic.Relation
import Scriptlet.Proofs.Display

/-!
# Only cycles are cut short

**Theorem (`display_cuts_cycles`).** To display a value comes to an end in every store. A
placeholder stands for an occurrence of a collection exactly if the path to it goes through that
collection already, so there is one somewhere exactly if the value reaches a collection that
contains itself. If it reaches none, every occurrence is written out as it would be by itself, and
the text is what one gets by writing out every member wherever it occurs.

An occurrence is given by a position (`Occurs`): which member of the value it is in, which member
of that, and so on. The path to it has the collections on the way, outermost first. The display
gets to an occurrence exactly if no collection is on the path twice, and what it writes there is
the outline inside the collections on the path (`at?_outline`).

For the cycles, one half goes along the path: what comes later on it is contained in what comes
earlier. The other half is by contradiction. From an outline without placeholders every member can
be followed, for ever, and the open collections only become more (`Whole.reaches`). So a collection
that contains itself is met again while it is open.
-/

namespace Scriptlet

/-! ## Positions -/

/-- The part of an outline at a position. -/
def Outline.at? : Outline → List Nat → Option Outline
  | o, [] => some o
  | .full _ parts, i :: p => parts[i]?.bind fun e => e.2.at? p
  | .scalar _, _ :: _ | .again _, _ :: _ => none

namespace Store

/-- At a position in the first value, down a path through these collections, there is the other
value. -/
inductive Occurs (σ : Store) : Value → List Nat → List Collection → Value → Prop
  | here {v : Value} : Occurs σ v [] [] v
  | member {v w : Value} {c : Collection} {i : Nat} {e : String × Value} {p : List Nat}
      {path : List Collection} : v.collection? = some c → (σ.members c)[i]? = some e →
      Occurs σ e.2 p path w → Occurs σ v (i :: p) (c :: path) w

/-- The second collection is a member of the first. -/
def Contains (σ : Store) (c d : Collection) : Prop := ∃ e ∈ σ.members c, e.2.collection? = some d

/-- The value is a collection, or reaches one through its members, that contains itself, directly or
not. -/
def ReachesCycle (σ : Store) (v : Value) : Prop :=
  ∃ c d, v.collection? = some c ∧ Relation.ReflTransGen σ.Contains c d ∧
    Relation.TransGen σ.Contains d d

/-- The text that one gets by writing out every member wherever it occurs, to some depth. There is
none if that is not deep enough. -/
def plainText (σ : Store) : Nat → Value → Option String
  | 0, _ => none
  | n + 1, v =>
    match v.collection? with
    | none => some v.scalarText
    | some c => ((σ.members c).mapM fun e => (σ.plainText n e.2).map (e.1 ++ ·)).map c.textOf

variable {σ : Store} {opened : List Collection} {v w : Value} {c d : Collection} {p : List Nat}
  {path : List Collection}

/-! ## What stands at a position -/

/-- **What is written at an occurrence.** The display gets there if no collection is on the path
twice, or open from the beginning, and goes on inside all of them. -/
theorem at?_outline {o : Outline} :
    (σ.outline opened v).at? p = some o ↔
      ∃ path w, σ.Occurs v p path w ∧ path.Nodup ∧ path.Disjoint opened ∧
        o = σ.outline (path.reverse ++ opened) w := by
  induction p generalizing opened v with
  | nil =>
    constructor
    · intro h
      rw [Outline.at?] at h
      cases h
      exact ⟨[], v, .here, List.nodup_nil, List.disjoint_nil_left _, rfl⟩
    · rintro ⟨path, w, hw, -, -, rfl⟩
      cases hw
      rw [Outline.at?]
      rfl
  | cons i p ih =>
    cases hv : v.collection? with
    | none =>
      rw [outline_of_scalar hv, Outline.at?]
      refine ⟨nofun, ?_⟩
      rintro ⟨path, w, hw, -⟩
      cases hw with
      | member hc _ _ => rw [hv] at hc; cases hc
    | some c =>
      by_cases hc : c ∈ opened
      · rw [outline_of_mem hv hc, Outline.at?]
        refine ⟨nofun, ?_⟩
        rintro ⟨path, w, hw, -, hdisjoint, -⟩
        cases hw with
        | member hc' _ _ =>
          rw [hv] at hc'
          cases hc'
          exact absurd hc (List.disjoint_left.1 hdisjoint List.mem_cons_self)
      · rw [outline_of_not_mem hv hc, Outline.at?, List.getElem?_map, Option.bind_map]
        constructor
        · intro h
          obtain ⟨e, he, ho⟩ := Option.bind_eq_some_iff.1 h
          obtain ⟨path, w, hw, hnodup, hdisjoint, rfl⟩ := ih.1 ho
          obtain ⟨hcpath, hdisjoint⟩ := List.disjoint_cons_right.1 hdisjoint
          refine ⟨c :: path, w, .member hv he hw, List.nodup_cons.2 ⟨hcpath, hnodup⟩,
            List.disjoint_cons_left.2 ⟨hc, hdisjoint⟩, ?_⟩
          rw [List.reverse_cons, List.append_assoc]
          rfl
        · rintro ⟨path, w, hw, hnodup, hdisjoint, rfl⟩
          cases hw with
          | @member _ _ c' _ e _ path hc' he hw =>
            rw [hv] at hc'
            cases hc'
            obtain ⟨hcpath, hnodup⟩ := List.nodup_cons.1 hnodup
            refine Option.bind_eq_some_iff.2 ⟨e, he, ih.2 ⟨path, w, hw, hnodup, ?_, ?_⟩⟩
            · exact List.disjoint_cons_right.2 ⟨hcpath, (List.disjoint_cons_left.1 hdisjoint).2⟩
            · rw [List.reverse_cons, List.append_assoc]
              rfl

theorem outline_eq_again_iff :
    σ.outline opened v = .again c ↔ v.collection? = some c ∧ c ∈ opened := by
  cases hv : v.collection? with
  | none => rw [outline_of_scalar hv]; exact ⟨nofun, nofun⟩
  | some d =>
    by_cases hd : d ∈ opened
    · rw [outline_of_mem hv hd]
      constructor
      · intro h
        cases h
        exact ⟨rfl, hd⟩
      · rintro ⟨h, -⟩
        cases h
        rfl
    · rw [outline_of_not_mem hv hd]
      refine ⟨nofun, ?_⟩
      rintro ⟨h, hc⟩
      cases h
      exact absurd hc hd

theorem exists_outline_eq_full_iff :
    (∃ parts, σ.outline opened v = .full c parts) ↔ v.collection? = some c ∧ c ∉ opened := by
  cases hv : v.collection? with
  | none => rw [outline_of_scalar hv]; exact ⟨nofun, nofun⟩
  | some d =>
    by_cases hd : d ∈ opened
    · rw [outline_of_mem hv hd]
      refine ⟨nofun, ?_⟩
      rintro ⟨h, hc⟩
      cases h
      exact absurd hd hc
    · rw [outline_of_not_mem hv hd]
      constructor
      · rintro ⟨parts, h⟩
        cases h
        exact ⟨rfl, hd⟩
      · rintro ⟨h, -⟩
        cases h
        exact ⟨_, rfl⟩

/-- A placeholder stands where the path goes through the collection already. -/
theorem at?_eq_again_iff :
    (σ.outline [] v).at? p = some (.again c) ↔
      ∃ path w, σ.Occurs v p path w ∧ w.collection? = some c ∧ path.Nodup ∧ c ∈ path := by
  rw [at?_outline]
  constructor
  · rintro ⟨path, w, hw, hnodup, -, ho⟩
    obtain ⟨hwc, hc⟩ := outline_eq_again_iff.1 ho.symm
    exact ⟨path, w, hw, hwc, hnodup, by simpa using hc⟩
  · rintro ⟨path, w, hw, hwc, hnodup, hc⟩
    exact ⟨path, w, hw, hnodup, List.disjoint_nil_right _,
      (outline_eq_again_iff.2 ⟨hwc, by simpa using hc⟩).symm⟩

/-- A collection is written out where the path does not go through it. -/
theorem at?_eq_full_iff :
    (∃ parts, (σ.outline [] v).at? p = some (.full c parts)) ↔
      ∃ path w, σ.Occurs v p path w ∧ w.collection? = some c ∧ path.Nodup ∧ c ∉ path := by
  constructor
  · rintro ⟨parts, h⟩
    obtain ⟨path, w, hw, hnodup, -, ho⟩ := at?_outline.1 h
    obtain ⟨hwc, hc⟩ := exists_outline_eq_full_iff.1 ⟨parts, ho.symm⟩
    exact ⟨path, w, hw, hwc, hnodup, by simpa using hc⟩
  · rintro ⟨path, w, hw, hwc, hnodup, hc⟩
    have hfull : ∃ parts, σ.outline (path.reverse ++ []) w = .full c parts :=
      exists_outline_eq_full_iff.2 ⟨hwc, by simpa using hc⟩
    obtain ⟨parts, hparts⟩ := hfull
    exact ⟨parts, at?_outline.2 ⟨path, w, hw, hnodup, List.disjoint_nil_right _, hparts.symm⟩⟩

/-! ## From placeholders to cycles -/

theorem Occurs.reaches (h : σ.Occurs v p path w) (hw : w.collection? = some c) :
    ∃ r, v.collection? = some r ∧ Relation.ReflTransGen σ.Contains r c := by
  induction h with
  | here => exact ⟨c, hw, .refl⟩
  | member hv he _ ih =>
    obtain ⟨r, hr, hrc⟩ := ih hw
    exact ⟨_, hv, .head ⟨_, List.mem_of_getElem? he, hr⟩ hrc⟩

/-- All collections on the path to an occurrence contain it. -/
theorem Occurs.contains (h : σ.Occurs v p path w) (hw : w.collection? = some c) (hd : d ∈ path) :
    ∃ r, v.collection? = some r ∧ Relation.ReflTransGen σ.Contains r d ∧
      Relation.TransGen σ.Contains d c := by
  induction h with
  | here => cases hd
  | member hv he hocc ih =>
    rcases List.mem_cons.1 hd with rfl | hd
    · obtain ⟨r, hr, hrc⟩ := hocc.reaches hw
      exact ⟨_, hv, .refl, .head' ⟨_, List.mem_of_getElem? he, hr⟩ hrc⟩
    · obtain ⟨r, hr, hrd, hdc⟩ := ih hw hd
      exact ⟨_, hv, .head ⟨_, List.mem_of_getElem? he, hr⟩ hrd, hdc⟩

/-! ## Outlines without placeholders -/

/-- Nothing in the value is cut short inside the open collections. -/
def Whole (σ : Store) (opened : List Collection) (v : Value) : Prop :=
  ∀ p c, (σ.outline opened v).at? p ≠ some (.again c)

theorem Whole.not_mem (h : σ.Whole opened v) (hv : v.collection? = some c) : c ∉ opened :=
  fun hc => h [] c (congrArg some (outline_of_mem hv hc))

theorem Whole.member (h : σ.Whole opened v) (hv : v.collection? = some c) {e : String × Value}
    (he : e ∈ σ.members c) : σ.Whole (c :: opened) e.2 := by
  intro p d hd
  obtain ⟨i, hi⟩ := List.mem_iff_getElem?.1 he
  refine h (i :: p) d ?_
  rw [outline_of_not_mem hv (h.not_mem hv), Outline.at?, List.getElem?_map, hi]
  exact hd

/-- Whatever can be reached from a value that is whole is whole inside more collections. -/
theorem Whole.reaches (h : σ.Whole opened v) (hv : v.collection? = some c)
    (hcd : Relation.ReflTransGen σ.Contains c d) :
    ∃ opened' w, opened ⊆ opened' ∧ w.collection? = some d ∧ σ.Whole opened' w := by
  induction hcd with
  | refl => exact ⟨opened, v, List.Subset.refl _, hv, h⟩
  | @tail m d _ hmd ih =>
    obtain ⟨opened', w, hsub, hw, hwhole⟩ := ih
    obtain ⟨e, he, hed⟩ := hmd
    have hsub' : opened ⊆ m :: opened' := List.Subset.trans hsub (List.subset_cons_self _ _)
    exact ⟨m :: opened', e.2, hsub', hed, hwhole.member hw he⟩

/-- A value that is whole does not reach a collection that contains itself. -/
theorem Whole.not_reachesCycle (h : σ.Whole opened v) : ¬ σ.ReachesCycle v := by
  rintro ⟨c, d, hv, hcd, hdd⟩
  obtain ⟨opened', w, -, hw, hwhole⟩ := h.reaches hv hcd
  obtain ⟨b, ⟨e, he, heb⟩, hbd⟩ := Relation.TransGen.head'_iff.1 hdd
  -- From `d` one gets back to `d`, which is open by then.
  obtain ⟨opened'', w', hsub, hw', hwhole'⟩ := (hwhole.member hw he).reaches heb hbd
  exact hwhole'.not_mem hw' (hsub List.mem_cons_self)

theorem whole_iff : σ.Whole [] v ↔ ¬ σ.ReachesCycle v := by
  refine ⟨Whole.not_reachesCycle, fun h p c hc => h ?_⟩
  obtain ⟨path, w, hw, hwc, -, hmem⟩ := at?_eq_again_iff.1 hc
  obtain ⟨r, hr, hrc, hcc⟩ := hw.contains hwc hmem
  exact ⟨r, c, hr, hrc, hcc⟩

/-- What is whole is written in the same way inside fewer collections. -/
theorem Whole.outline_eq {opened' : List Collection} (h : σ.Whole opened v)
    (hsub : opened' ⊆ opened) : σ.outline opened' v = σ.outline opened v := by
  induction opened, v using outline.induct σ generalizing opened' with
  | case1 opened v hv => rw [outline_of_scalar hv, outline_of_scalar hv]
  | case2 opened v c hv hc => exact absurd hc (h.not_mem hv)
  | case3 opened v c hv hc ih =>
    have hparts : ∀ e ∈ σ.members c,
        (e.1, σ.outline (c :: opened') e.2) = (e.1, σ.outline (c :: opened) e.2) := fun e he => by
      rw [ih ⟨e, he⟩ (h.member hv he) (List.cons_subset_cons c hsub)]
    rw [outline_of_not_mem hv hc, outline_of_not_mem hv fun hc' => hc (hsub hc'),
      List.map_congr_left hparts]

/-- In what is whole, every occurrence is written out as it would be by itself. -/
theorem Whole.at?_outline (h : σ.Whole opened v) (hw : σ.Occurs v p path w) :
    (σ.outline opened v).at? p = some (σ.outline [] w) := by
  induction hw generalizing opened with
  | here => rw [Outline.at?, h.outline_eq (List.nil_subset _)]
  | member hv he _ ih =>
    rw [outline_of_not_mem hv (h.not_mem hv), Outline.at?, List.getElem?_map, he]
    exact ih (h.member hv (List.mem_of_getElem? he))

/-! ## Plain texts -/

/-- To go through a list is to find a result for each of its members. -/
theorem mapM_eq_some_iff {α β : Type} {f : α → Option β} {as : List α} {bs : List β} :
    as.mapM f = some bs ↔ List.Forall₂ (fun a b => f a = some b) as bs := by
  induction as generalizing bs with
  | nil =>
    rw [List.forall₂_nil_left_iff]
    exact ⟨fun h => (Option.some.inj h).symm, fun h => congrArg some h.symm⟩
  | cons a as ih =>
    rw [List.mapM_cons, List.forall₂_cons_left_iff]
    constructor
    · intro h
      obtain ⟨b, hb, h⟩ := Option.bind_eq_some_iff.1 h
      obtain ⟨bs', hbs', hbs⟩ := Option.bind_eq_some_iff.1 h
      exact ⟨b, bs', hb, ih.1 hbs', (Option.some.inj hbs).symm⟩
    · rintro ⟨b, bs', hb, hbs', rfl⟩
      rw [hb, ih.2 hbs']
      rfl

theorem exists_of_mapM_eq_some {α β : Type} {f : α → Option β} {as : List α} {bs : List β}
    (h : as.mapM f = some bs) : ∀ a ∈ as, ∃ b, f a = some b :=
  ((List.forall₂_and_left _ _).1 ((mapM_eq_some_iff.1 h).imp fun _ b hb => ⟨⟨b, hb⟩, hb⟩)).1

/-- The text of what is whole is plain. -/
theorem Whole.plainText {n : Nat} (h : σ.Whole opened v) (hn : σ.unopened opened < n) :
    σ.plainText n v = some (σ.textWithin opened v) := by
  induction n generalizing opened v with
  | zero => cases hn
  | succ n ih =>
    rw [Store.plainText]
    cases hv : v.collection? with
    | none => rw [textWithin_of_scalar hv]
    | some c =>
      have hc : c ∉ opened := h.not_mem hv
      have hmembers : ∀ e ∈ σ.members c, (σ.plainText n e.2).map (e.1 ++ ·) =
          some (e.1 ++ σ.textWithin (c :: opened) e.2) := by
        intro e he
        have hlt : σ.unopened (c :: opened) < n :=
          Nat.lt_of_lt_of_le (unopened_lt he hc) (Nat.le_of_lt_succ hn)
        rw [ih (h.member hv he) hlt]
        rfl
      rw [textWithin_of_collection hv, if_neg hc]
      have htexts : (σ.members c).mapM (fun e => (σ.plainText n e.2).map (e.1 ++ ·)) =
          some ((σ.members c).map fun e => e.1 ++ σ.textWithin (c :: opened) e.2) :=
        mapM_eq_some_iff.2 (List.forall₂_map_right_iff.2 (List.forall₂_same.2 hmembers))
      exact congrArg (Option.map c.textOf) htexts

/-- A plain text comes from a value that reaches no cycle. -/
theorem not_reachesCycle_of_plainText {n : Nat} {s : String} (h : σ.plainText n v = some s) :
    ¬ σ.ReachesCycle v := by
  induction n generalizing v s with
  | zero => cases h
  | succ n ih =>
    rintro ⟨c, d, hv, hcd, hdd⟩
    rw [Store.plainText, hv] at h
    obtain ⟨texts, htexts, -⟩ := Option.map_eq_some_iff.1 h
    have hmember : ∀ e ∈ σ.members c, ¬ σ.ReachesCycle e.2 := by
      intro e he
      obtain ⟨t, ht⟩ := exists_of_mapM_eq_some htexts e he
      obtain ⟨s', hs', -⟩ := Option.map_eq_some_iff.1 ht
      exact ih hs'
    -- Some member reaches `d`, also if `d` is the value itself.
    obtain ⟨b, ⟨e, he, heb⟩, hbd⟩ : ∃ b, σ.Contains c b ∧ Relation.ReflTransGen σ.Contains b d := by
      rcases Relation.ReflTransGen.cases_head hcd with rfl | hstep
      · exact Relation.TransGen.head'_iff.1 hdd
      · exact hstep
    exact hmember e he ⟨b, d, heb, hbd, hdd⟩

theorem plainText_mono {m n : Nat} {s : String} (h : σ.plainText m v = some s) (hmn : m ≤ n) :
    σ.plainText n v = some s := by
  induction m generalizing n v s with
  | zero => cases h
  | succ m ih =>
    have hn : 0 < n := Nat.lt_of_lt_of_le m.succ_pos hmn
    obtain ⟨n, rfl⟩ := Nat.exists_eq_add_one_of_ne_zero (Nat.ne_of_gt hn)
    rw [plainText] at h ⊢
    cases hv : v.collection? with
    | none => rw [hv] at h; exact h
    | some c =>
      rw [hv] at h
      obtain ⟨texts, htexts, rfl⟩ := Option.map_eq_some_iff.1 h
      have hmore : List.Forall₂ (fun e t => (σ.plainText n e.2).map (e.1 ++ ·) = some t)
          (σ.members c) texts := (mapM_eq_some_iff.1 htexts).imp fun e t ht => by
        obtain ⟨s, hs, rfl⟩ := Option.map_eq_some_iff.1 ht
        rw [ih hs (Nat.le_of_succ_le_succ hmn)]
        rfl
      exact congrArg (Option.map c.textOf) (mapM_eq_some_iff.2 hmore)

/-- The plain text of a value is its text, and it has one if it reaches no cycle. -/
theorem exists_plainText_iff {s : String} :
    (∃ n, σ.plainText n v = some s) ↔ ¬ σ.ReachesCycle v ∧ s = σ.text v := by
  have hplain : ¬ σ.ReachesCycle v → σ.plainText (σ.unopened [] + 1) v = some (σ.text v) :=
    fun h => (whole_iff.2 h).plainText (Nat.lt_succ_self _)
  constructor
  · rintro ⟨n, h⟩
    have hcycle : ¬ σ.ReachesCycle v := not_reachesCycle_of_plainText h
    have hs := plainText_mono h (Nat.le_max_left n (σ.unopened [] + 1))
    rw [plainText_mono (hplain hcycle) (Nat.le_max_right n _)] at hs
    exact ⟨hcycle, (Option.some.inj hs).symm⟩
  · rintro ⟨hcycle, rfl⟩
    exact ⟨_, hplain hcycle⟩

/-- **Display comes to an end, and only cycles are cut short.** -/
theorem display_cuts_cycles (σ : Store) (v : Value) :
    (∀ seen n, σ.unopened seen < n → σ.draw n v seen = .ok (σ.outline seen v) seen) ∧
    (∀ seen, (σ.outline seen v).text = σ.textWithin seen v) ∧
    (∀ p c, (σ.outline [] v).at? p = some (.again c) ↔
      ∃ path w, σ.Occurs v p path w ∧ w.collection? = some c ∧ path.Nodup ∧ c ∈ path) ∧
    (∀ p c, (∃ parts, (σ.outline [] v).at? p = some (.full c parts)) ↔
      ∃ path w, σ.Occurs v p path w ∧ w.collection? = some c ∧ path.Nodup ∧ c ∉ path) ∧
    ((∃ p c, (σ.outline [] v).at? p = some (.again c)) ↔ σ.ReachesCycle v) ∧
    (¬ σ.ReachesCycle v → ∀ p path w, σ.Occurs v p path w →
      (σ.outline [] v).at? p = some (σ.outline [] w)) ∧
    ∀ s, (∃ n, σ.plainText n v = some s) ↔ ¬ σ.ReachesCycle v ∧ s = σ.text v := by
  refine ⟨fun seen n h => draw_eq h, fun seen => text_outline σ seen v, fun p c => at?_eq_again_iff,
    fun p c => at?_eq_full_iff, ?_, fun h p path w hw => (whole_iff.2 h).at?_outline hw,
    fun s => exists_plainText_iff⟩
  have hwhole : ¬ σ.Whole [] v ↔ ¬ ¬ σ.ReachesCycle v := not_congr whole_iff
  simpa [Whole] using hwhole

/-- The array `[a, a]` of two occurrences of the array `["x"]`, beside an array that is its own only
element. -/
theorem display_of_shared_and_cyclic :
    ∃ σ : Store, σ.items 0 = #[.array 1, .array 1] ∧ σ.items 2 = #[.array 2] ∧
      σ.text (.array 0) = "[[x], [x]]" ∧ ¬ σ.ReachesCycle (.array 0) ∧
      σ.text (.array 2) = "[[...]]" ∧ σ.ReachesCycle (.array 2) := by
  let σ : Store := { Store.empty (.console #[]) with
    arrays := #[#[.array 1, .array 1], #[.string "x"], #[.array 2]] }
  have hplain : σ.plainText 3 (.array 0) = some "[[x], [x]]" := by decide
  obtain ⟨hcycle, htext⟩ := ((display_cuts_cycles σ (.array 0)).2.2.2.2.2.2 _).1 ⟨3, hplain⟩
  obtain ⟨-, hself, -, -, hreaches, -⟩ := display_cuts_cycles σ (.array 2)
  have houtline : σ.outline [] (.array 2) = .full (.array 2) [("", .again (.array 2))] := by
    rw [outline_of_not_mem rfl (List.not_mem_nil)]
    show Outline.full _ [("", σ.outline [.array 2] (.array 2))] = _
    rw [outline_of_mem rfl List.mem_cons_self]
  refine ⟨σ, rfl, rfl, htext.symm, hcycle, ?_, hreaches.1 ⟨[0], .array 2, ?_⟩⟩
  · rw [text, ← hself, houtline]
    decide
  · rw [houtline]
    rfl

end Store

end Scriptlet
