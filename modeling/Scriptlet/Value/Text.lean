import Scriptlet.Store
import Scriptlet.Syntax.Render

/-!
# The text of a value

How values are printed. Collections are printed with their contents, and they may contain
themselves, so the text of a value is taken along a path of collections that are open already.
One that is met again is not opened but stands as `[...]` or as dots in braces.

There are only so many collections that can still be opened, `Store.unopened` of them, and
opening one leaves fewer. This is why the text of a value comes to an end in every store.
-/

namespace Scriptlet

/-- A collection. -/
inductive Collection where
  | array (id : ArrayId)
  | hash (id : HashId)
deriving DecidableEq, Repr

def HashKey.text : HashKey → String
  | .integer n => n.text
  | .string s => s
  | .bool b => if b then "true" else "false"

/-- A list counts fewer of its members if the predicate no longer holds of one of them. -/
theorem countP_lt_countP {α : Type} {p q : α → Bool} (hle : ∀ x, p x → q x) {a : α}
    (hq : q a) (hp : ¬ p a) : ∀ {l : List α}, a ∈ l → l.countP p < l.countP q
  | b :: l, h => by
    have hmono : l.countP p ≤ l.countP q := List.countP_mono_left fun x _ => hle x
    rcases List.mem_cons.1 h with rfl | h
    · rw [List.countP_cons_of_pos hq, List.countP_cons_of_neg hp]; omega
    · have hlt := countP_lt_countP hle hq hp h
      have hb : (if p b then 1 else 0) ≤ (if q b then 1 else 0) := by
        by_cases hpb : p b
        · simp [hpb, hle b hpb]
        · simp [hpb]
      rw [List.countP_cons, List.countP_cons]
      omega

namespace Store

/-- How many collections are not on the path `opened`. -/
def unopened (σ : Store) (opened : List Collection) : Nat :=
  (List.range σ.arrays.size).countP (fun i => .array i ∉ opened) +
    (List.range σ.hashes.size).countP (fun i => .hash i ∉ opened)

theorem unopened_array_lt {σ : Store} {opened : List Collection} {id : ArrayId}
    (hid : id < σ.arrays.size) (h : .array id ∉ opened) :
    σ.unopened (.array id :: opened) < σ.unopened opened := by
  have ha : (List.range σ.arrays.size).countP (fun i => .array i ∉ Collection.array id :: opened) <
      (List.range σ.arrays.size).countP (fun i => .array i ∉ opened) :=
    countP_lt_countP (by simp) (a := id) (by simpa) (by simp) (List.mem_range.2 hid)
  simp [unopened] at ha ⊢
  omega

theorem unopened_hash_lt {σ : Store} {opened : List Collection} {id : HashId}
    (hid : id < σ.hashes.size) (h : .hash id ∉ opened) :
    σ.unopened (.hash id :: opened) < σ.unopened opened := by
  have hh : (List.range σ.hashes.size).countP (fun i => .hash i ∉ Collection.hash id :: opened) <
      (List.range σ.hashes.size).countP (fun i => .hash i ∉ opened) :=
    countP_lt_countP (by simp) (a := id) (by simpa) (by simp) (List.mem_range.2 hid)
  simp [unopened] at hh ⊢
  omega

theorem lt_size_of_mem_items {σ : Store} {id : ArrayId} {v : Value}
    (h : v ∈ (σ.items id).toList) : id < σ.arrays.size := by
  unfold items at h
  by_cases hid : id < σ.arrays.size
  · exact hid
  · simp [Array.getElem?_eq_none (Nat.le_of_not_lt hid)] at h

theorem lt_size_of_mem_pairs {σ : Store} {id : HashId} {e : HashKey × Value}
    (h : e ∈ (σ.pairs id).entries) : id < σ.hashes.size := by
  unfold pairs at h
  by_cases hid : id < σ.hashes.size
  · exact hid
  · simp [Array.getElem?_eq_none (Nat.le_of_not_lt hid), OrderedMap.empty] at h

/-- The text of a value inside the collections that are open. -/
def textWithin (σ : Store) (opened : List Collection) : Value → String
  | .integer n => n.text
  | .string s => s
  | .bool b => if b then "true" else "false"
  | .null => "null"
  | .ret v => σ.textWithin opened v
  | .error e => "ERROR: " ++ e.message
  | .function c => "fn(" ++ renderNames c.params ++ ") " ++ c.body.render
  | .native name => "builtin function " ++ name
  | .array id =>
    if .array id ∈ opened then "[...]"
    else
      "[" ++ ", ".intercalate
        ((σ.items id).toList.attach.map fun v => σ.textWithin (.array id :: opened) v.val) ++ "]"
  | .hash id =>
    if .hash id ∈ opened then "\x7b...\x7d"
    else
      "\x7b" ++ ", ".intercalate
        ((σ.pairs id).entries.attach.map fun e =>
          e.val.1.text ++ ": " ++ σ.textWithin (.hash id :: opened) e.val.2) ++ "\x7d"
  | .loop l => "for " ++ l.index.name ++ ", " ++ l.value.name ++ " in " ++ l.target.name
termination_by v => (σ.unopened opened, sizeOf v)
decreasing_by
  · exact Prod.Lex.right _ (by simp)
  · exact Prod.Lex.left _ _ (unopened_array_lt (lt_size_of_mem_items v.property) ‹_›)
  · exact Prod.Lex.left _ _ (unopened_hash_lt (lt_size_of_mem_pairs e.property) ‹_›)

theorem textWithin_array (σ : Store) (opened : List Collection) (id : ArrayId) :
    σ.textWithin opened (.array id) =
      if .array id ∈ opened then "[...]"
      else
        "[" ++ ", ".intercalate
          ((σ.items id).toList.map (σ.textWithin (.array id :: opened))) ++ "]" := by
  rw [textWithin]; simp

theorem textWithin_hash (σ : Store) (opened : List Collection) (id : HashId) :
    σ.textWithin opened (.hash id) =
      if .hash id ∈ opened then "\x7b...\x7d"
      else
        "\x7b" ++ ", ".intercalate
          ((σ.pairs id).entries.map fun e =>
            e.1.text ++ ": " ++ σ.textWithin (.hash id :: opened) e.2) ++ "\x7d" := by
  rw [textWithin, List.attach_map_val (f := fun e : HashKey × Value =>
    e.1.text ++ ": " ++ σ.textWithin (.hash id :: opened) e.2)]

/-- How a value is printed. -/
def text (σ : Store) (v : Value) : String := σ.textWithin [] v

end Store

end Scriptlet
