import Scriptlet.Proofs.Heap.Slots

/-!
# Handles under other names

Values and objects with their handles renamed. Nothing but handles changes, so what an object counts on
is renamed with it (`Object.children_rename`), and what names none of the renamed handles stays as it is
(`Object.rename_of_fixed`).
-/

namespace Scriptlet

section rename

variable (e : Handle → Handle)

def Value.rename : Value → Value
  | .object x => .object (e x)
  | v => v

def Object.rename : Object → Object
  | .string text => .string text
  | .array items => .array (items.map (Value.rename e))
  | .record type fields => .record type (fields.map (Value.rename e))
  | .nativeRecord kind storage => .nativeRecord kind (storage.map (Value.rename e))
  | .function callee receiver => .function callee (receiver.map e)

/-- An object under another name keeps its count. -/
def Cell.rename (c : Cell) : Cell := ⟨c.count, c.object.rename e⟩

theorem Value.handles_map_rename (vs : List Value) :
    Value.handles (vs.map (Value.rename e)) = (Value.handles vs).map e := by
  induction vs with
  | nil => rfl
  | cons v vs ih =>
    rw [List.map_cons, Value.handles_cons, Value.handles_cons v, List.map_append, ih]
    cases v <;> rfl

theorem Object.children_rename (o : Object) : (o.rename e).children = o.children.map e := by
  have hvs : ∀ vs : Array Value, (vs.map (Value.rename e)).toList.filterMap Value.handle? =
      (vs.toList.filterMap Value.handle?).map e := fun vs => by
    rw [Array.toList_map]
    exact Value.handles_map_rename e vs.toList
  cases o with
  | string text => rfl
  | array vs => exact hvs vs
  | record type vs => exact hvs vs
  | nativeRecord kind vs => exact hvs vs
  | function callee receiver => cases receiver <;> rfl

end rename

/-! ## What is not renamed -/

section fixed

variable {e : Handle → Handle}

theorem Value.rename_of_fixed {v : Value} (h : ∀ y ∈ Value.handles [v], e y = y) : v.rename e = v := by
  cases v with
  | object y => exact congrArg Value.object (h y (List.mem_singleton_self y))
  | _ => rfl

theorem Value.map_rename_of_fixed {vs : List Value} (h : ∀ y ∈ Value.handles vs, e y = y) :
    vs.map (Value.rename e) = vs := by
  induction vs with
  | nil => rfl
  | cons v vs ih =>
    rw [Value.handles_cons] at h
    rw [List.map_cons, Value.rename_of_fixed fun y hy => h y (List.mem_append_left _ hy),
      ih fun y hy => h y (List.mem_append_right _ hy)]

theorem Object.rename_of_fixed {o : Object} (h : ∀ y ∈ o.children, e y = y) : o.rename e = o := by
  have hvs : ∀ vs : Array Value, (∀ y ∈ Value.handles vs.toList, e y = y) →
      vs.map (Value.rename e) = vs := by
    intro vs hvs
    apply Array.toList_inj.1
    rw [Array.toList_map, Value.map_rename_of_fixed hvs]
  cases o with
  | string text => rfl
  | array vs => rw [Object.rename, hvs vs h]
  | record type vs => rw [Object.rename, hvs vs h]
  | nativeRecord kind vs => rw [Object.rename, hvs vs h]
  | function callee receiver =>
    cases receiver with
    | none => rfl
    | some y => rw [Object.rename, Option.map_some, h y (List.mem_singleton_self y)]

end fixed

end Scriptlet
