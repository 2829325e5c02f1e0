import Scriptlet.Value.Text

/-!
# What is written of a value

The text of a value says what is written, but not which part of it stands for which collection. An
`Outline` does: it has a part for every occurrence of a value that is written, and says of each
whether it is written out or stands as a placeholder.

`Store.draw` writes a value down as a program would that keeps the collections it has opened in one
list: it puts a collection in front of the list, writes the members, and takes it off again.
`Store.outline` is told the open collections instead and changes nothing.

**Lemma (`draw_eq`).** To write a value down takes no more nesting than there are collections left
to be opened. It ends with the open collections it began with, and gives the outline.

**Lemma (`text_outline`).** The text of a value is the text of its outline.
-/

namespace Scriptlet

namespace Collection

/-- What stands for a collection that is open already. -/
def placeholder : Collection → String
  | array _ => "[...]"
  | hash _ => "\x7b...\x7d"

/-- The text of a collection with members of these texts. -/
def textOf (members : List String) : Collection → String
  | array _ => "[" ++ ", ".intercalate members ++ "]"
  | hash _ => "\x7b" ++ ", ".intercalate members ++ "\x7d"

end Collection

namespace Value

/-- The collection that a value is. A return is shown as what it returns. -/
def collection? : Value → Option Collection
  | array id => some (.array id)
  | hash id => some (.hash id)
  | ret v => v.collection?
  | _ => none

/-- The text of a value that is no collection. -/
def scalarText : Value → String
  | integer n => n.text
  | string s => s
  | bool b => if b then "true" else "false"
  | null => "null"
  | ret v => v.scalarText
  | error e => "ERROR: " ++ e.message
  | function c => "fn(" ++ renderNames c.params ++ ") " ++ c.body.render
  | native name => "builtin function " ++ name
  | loop l => "for " ++ l.index.name ++ ", " ++ l.value.name ++ " in " ++ l.target.name
  | array _ | hash _ => ""

end Value

namespace Store

/-- The members of a collection, each with the label that is written in front of it. The key of an
entry is never a collection, so it is no more than a label. -/
def members (σ : Store) : Collection → List (String × Value)
  | .array id => (σ.items id).toList.map fun v => ("", v)
  | .hash id => (σ.pairs id).entries.map fun e => (e.1.text ++ ": ", e.2)

variable {σ : Store} {opened seen : List Collection} {v : Value} {c : Collection}

theorem textWithin_of_scalar (h : v.collection? = none) :
    σ.textWithin opened v = v.scalarText := by
  induction v with
  | ret v ih => rw [textWithin]; exact ih h
  | array id => cases h
  | hash id => cases h
  | _ => rw [textWithin]; rfl

theorem textWithin_of_collection (h : v.collection? = some c) :
    σ.textWithin opened v =
      if c ∈ opened then c.placeholder
      else c.textOf ((σ.members c).map fun e => e.1 ++ σ.textWithin (c :: opened) e.2) := by
  induction v with
  | ret v ih => rw [textWithin, ih h]
  | array id =>
    cases h
    rw [textWithin_array, Collection.placeholder, Collection.textOf, members, List.map_map]
    simp [Function.comp_def]
  | hash id =>
    cases h
    rw [textWithin_hash, Collection.placeholder, Collection.textOf, members, List.map_map]
    rfl
  | _ => cases h

/-- Where a member is written, one collection more is open. -/
theorem unopened_lt {e : String × Value} (he : e ∈ σ.members c) (h : c ∉ opened) :
    σ.unopened (c :: opened) < σ.unopened opened := by
  cases c with
  | array id =>
    obtain ⟨v, hv, -⟩ := List.mem_map.1 he
    exact unopened_array_lt (lt_size_of_mem_items hv) h
  | hash id =>
    obtain ⟨e, he, -⟩ := List.mem_map.1 he
    exact unopened_hash_lt (lt_size_of_mem_pairs he) h

end Store

/-- To go through a list without changing the state is to map it. -/
theorem Run.mapM_eq_ok {σ ε α β : Type} {f : α → Run σ ε β} {g : α → β} {s : σ} {as : List α}
    (h : ∀ a ∈ as, f a s = .ok (g a) s) : as.mapM f s = .ok (as.map g) s := by
  induction as with
  | nil => rfl
  | cons a as ih =>
    obtain ⟨ha, has⟩ := List.forall_mem_cons.1 h
    rw [List.mapM_cons, Run.bind_apply, ha]
    dsimp only
    rw [Run.bind_apply, ih has]
    rfl

/-! ## Outlines -/

/-- What is written of a value. -/
inductive Outline where
  | scalar (text : String)
  /-- A placeholder for the collection. -/
  | again (c : Collection)
  /-- The collection with its members, each after its label. -/
  | full (c : Collection) (parts : List (String × Outline))

namespace Outline

mutual

def text : Outline → String
  | scalar s => s
  | again c => c.placeholder
  | full c parts => c.textOf (partTexts parts)

def partTexts : List (String × Outline) → List String
  | [] => []
  | (label, o) :: parts => (label ++ o.text) :: partTexts parts

end

theorem partTexts_eq_map (parts : List (String × Outline)) :
    partTexts parts = parts.map fun e => e.1 ++ e.2.text := by
  induction parts with
  | nil => rfl
  | cons e parts ih => rw [partTexts, ih, List.map_cons]

end Outline

namespace Store

/-- What is written of a value inside the collections that are open. -/
def outline (σ : Store) (opened : List Collection) (v : Value) : Outline :=
  match v.collection? with
  | none => .scalar v.scalarText
  | some c =>
    if c ∈ opened then .again c
    else .full c ((σ.members c).attach.map fun e => (e.val.1, σ.outline (c :: opened) e.val.2))
termination_by σ.unopened opened
decreasing_by exact unopened_lt e.property ‹_›

/-- Write a member down after its label. -/
def drawPart (run : Value → Run (List Collection) Empty Outline) (e : String × Value) :
    Run (List Collection) Empty (String × Outline) := do
  let o ← run e.2
  pure (e.1, o)

/-- Write a value down, nesting no deeper than the number says. The state is the list of the
collections that are open. -/
def draw (σ : Store) : Nat → Value → Run (List Collection) Empty Outline
  | 0, _ => Run.exhausted
  | n + 1, v =>
    match v.collection? with
    | none => pure (.scalar v.scalarText)
    | some c => do
      let opened ← Run.read id
      if c ∈ opened then pure (.again c)
      else do
        Run.update (c :: ·)
        let parts ← (σ.members c).mapM (drawPart (σ.draw n))
        Run.update List.tail
        pure (.full c parts)

variable {σ : Store} {opened seen : List Collection} {v : Value} {c : Collection}

theorem outline_of_scalar (h : v.collection? = none) :
    σ.outline opened v = .scalar v.scalarText := by
  rw [outline, h]

theorem outline_of_mem (h : v.collection? = some c) (hc : c ∈ opened) :
    σ.outline opened v = .again c := by
  rw [outline, h]
  exact if_pos hc

theorem outline_of_not_mem (h : v.collection? = some c) (hc : c ∉ opened) :
    σ.outline opened v =
      .full c ((σ.members c).map fun e => (e.1, σ.outline (c :: opened) e.2)) := by
  rw [outline, h]
  simp only [if_neg hc]
  rw [List.attach_map_val (f := fun e : String × Value => (e.1, σ.outline (c :: opened) e.2))]

/-- **The text of a value is the text of its outline.** -/
theorem text_outline (σ : Store) (opened : List Collection) (v : Value) :
    (σ.outline opened v).text = σ.textWithin opened v := by
  induction opened, v using outline.induct σ with
  | case1 opened v h => rw [outline_of_scalar h, textWithin_of_scalar h, Outline.text]
  | case2 opened v c h hc =>
    rw [outline_of_mem h hc, textWithin_of_collection h, if_pos hc, Outline.text]
  | case3 opened v c h hc ih =>
    have hparts : ∀ e ∈ σ.members c, e.1 ++ (σ.outline (c :: opened) e.2).text =
        e.1 ++ σ.textWithin (c :: opened) e.2 := fun e he => by rw [ih ⟨e, he⟩]
    rw [outline_of_not_mem h hc, textWithin_of_collection h, if_neg hc, Outline.text,
      Outline.partTexts_eq_map, List.map_map, ← List.map_congr_left hparts]
    rfl

/-- **Writing a value down comes to an end**, and the open collections are those there were. -/
theorem draw_eq {n : Nat} (h : σ.unopened seen < n) :
    σ.draw n v seen = .ok (σ.outline seen v) seen := by
  induction n generalizing seen v with
  | zero => cases h
  | succ n ih =>
    rw [draw]
    cases hv : v.collection? with
    | none => rw [outline_of_scalar hv]; rfl
    | some c =>
      by_cases hc : c ∈ seen
      · rw [outline_of_mem hv hc]
        simp [Run.bind_apply, hc]
      · have hparts : (σ.members c).mapM (drawPart (σ.draw n)) (c :: seen) =
            .ok ((σ.members c).map fun e => (e.1, σ.outline (c :: seen) e.2)) (c :: seen) := by
          refine Run.mapM_eq_ok fun e he => ?_
          have hlt : σ.unopened (c :: seen) < n :=
            Nat.lt_of_lt_of_le (unopened_lt he hc) (Nat.le_of_lt_succ h)
          rw [drawPart, Run.bind_apply, ih hlt]
          rfl
        rw [outline_of_not_mem hv hc]
        simp only [Run.bind_apply, Run.read_apply, Run.update_apply, id, if_neg hc, hparts]
        rfl

end Store

end Scriptlet
