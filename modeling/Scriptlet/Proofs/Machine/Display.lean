import Scriptlet.Machine.Display

/-!
# Texts of values end

To show a container is to show the values in it, and one of them may hold the container again.
`Machine.Writes` states the rules: what is in a container is shown one level deeper, and containers
are elided from a depth of eight on. The rules do not count rounds, so they lead to a text exactly
where the showing of a value comes to an end; they do so for every value, with the text of
`Machine.display` (`writes_iff`).

What is shown at a depth was reached by as many references, so the text of a value depends only on
the objects within eight references of it (`Heap.within`, `displayTo_congr`).

Main statement: `Machine.display_reads_within_depth`.
-/

namespace Scriptlet

/-- Two programs have the same texts, functions and structure types. -/
structure Bytecode.SameTables (b b' : Bytecode) : Prop where
  strings : b'.strings = b.strings
  functions : b'.functions = b.functions
  structs : b'.structs = b.structs

/-- The handles within a number of references of a value. The object of the value itself is no
reference away, and what is in an object is one more than the object. The receiver of a function
reference is not shown, and so it is not followed. -/
def Heap.within (h : Heap) : Nat → Value → List Handle
  | 0, v => v.handle?.toList
  | n + 1, v => v.handle?.toList ++
      ((v.handle?.bind h.object?).bind Object.elements?).elim [] fun vs =>
        vs.toList.flatMap (h.within n)

namespace Machine

/-- The parts of the text of a container: what stands in front of its values, each value with its
label, and what stands behind. -/
structure Enclosed where
  opening : String
  items : List (String × Value)
  closing : String

/-- How a container is shown. -/
def enclosed? (m : Machine) : Object → Option Enclosed
  | .array items => some ⟨"[", items.toList.map fun v => ("", v), "]"⟩
  | .record type fields =>
    some ⟨structName m.bytecode type ++ " \x7b ",
      fields.toList.zipIdx.map fun f => (fieldName m.bytecode type f.2 ++ ": ", f.1), " \x7d"⟩
  | .nativeRecord kind storage =>
    some ⟨(m.structures.get? kind).elim "?" Prod.fst ++ "(",
      storage.toList.map fun v => ("", v), ")"⟩
  | .string _ | .function .. => none

mutual

/-- Showing a value at a depth, behind a text, comes to an end, with another text. -/
inductive Writes (m : Machine) : Nat → Value → String → String → Prop
  | scalar {depth v text out} (hv : scalarText v = some text) : Writes m depth v out (out ++ text)
  | collected {depth x out} (hx : m.heap.object? x = none) :
      Writes m depth (.object x) out (out ++ "<collected>")
  | string {depth x text out} (hx : m.heap.object? x = some (.string text)) :
      Writes m depth (.object x) out (out ++ text)
  | elided {depth x o out} (hx : m.heap.object? x = some o) (ho : ∀ text, o ≠ .string text)
      (hdepth : displayDepth ≤ depth) : Writes m depth (.object x) out (out ++ "...")
  | function {depth x callee receiver out}
      (hx : m.heap.object? x = some (.function callee receiver)) (hdepth : depth < displayDepth) :
      Writes m depth (.object x) out (out ++ calleeText m.bytecode callee)
  | container {depth x o e out out'} (hx : m.heap.object? x = some o)
      (ho : m.enclosed? o = some e) (hdepth : depth < displayDepth)
      (hitems : WritesItems m (depth + 1) "" e.items (out ++ e.opening) out') :
      Writes m depth (.object x) out (out' ++ e.closing)

/-- Showing labelled values one after the other comes to an end. A text leads the first, and a comma
each of the others. -/
inductive WritesItems (m : Machine) : Nat → String → List (String × Value) → String → String → Prop
  | nil {depth lead out} : WritesItems m depth lead [] out out
  | cons {depth lead label v items out mid out'} (hv : Writes m depth v (out ++ lead ++ label) mid)
      (hitems : WritesItems m depth ", " items mid out') :
      WritesItems m depth lead ((label, v) :: items) out out'

end

/-- The text of labelled values, with what leads the first of them. -/
def itemsText (f : Value → String) : String → List (String × Value) → String
  | _, [] => ""
  | lead, (label, v) :: items => lead ++ label ++ f v ++ itemsText f ", " items

variable {m m' : Machine} {depth n : Nat} {v : Value} {x : Handle} {o : Object} {e : Enclosed}
  {out out' text : String}

/-! ## Parts of a text -/

theorem itemsText_cons (f : Value → String) (lead : String) (i : String × Value)
    (items : List (String × Value)) : itemsText f lead (i :: items) =
      lead ++ commaList ((i :: items).map fun i => i.1 ++ f i.2) := by
  induction items generalizing lead i with
  | nil => simp [itemsText, commaList, String.append_assoc]
  | cons j items ih =>
    rw [itemsText, ih]
    simp only [commaList, List.map_cons, String.intercalate_cons_cons, String.append_assoc]

theorem itemsText_empty (f : Value → String) (items : List (String × Value)) :
    itemsText f "" items = commaList (items.map fun i => i.1 ++ f i.2) := by
  cases items with
  | nil => rfl
  | cons i items => rw [itemsText_cons, String.empty_append]

theorem objectText_of_enclosed (he : m.enclosed? o = some e) (f : Value → String) :
    m.objectText f o =
      e.opening ++ commaList (e.items.map fun i => i.1 ++ f i.2) ++ e.closing := by
  cases o with
  | string | function => cases he
  | array | record | nativeRecord =>
    cases he
    simp only [objectText, List.map_map, Function.comp_def, String.empty_append]

/-- An object that is no container is a string or a function reference. -/
theorem cases_of_not_enclosed (he : m.enclosed? o = none) :
    (∃ text, o = .string text) ∨ ∃ callee receiver, o = .function callee receiver := by
  cases o with
  | string text => exact .inl ⟨text, rfl⟩
  | function callee receiver => exact .inr ⟨callee, receiver, rfl⟩
  | array | record | nativeRecord => cases he

theorem eq_object_of_not_scalar (hv : scalarText v = none) : ∃ x, v = .object x := by
  cases v with
  | object x => exact ⟨x, rfl⟩
  | _ => cases hv

theorem displayTo_scalar (hv : scalarText v = some text) : m.displayTo n v = text := by
  rw [displayTo, hv]

/-- A value in the heap is shown as the object that it refers to. -/
theorem displayTo_object (m : Machine) (n : Nat) (x : Handle) :
    m.displayTo n (.object x) =
      match m.heap.object? x with
      | none => "<collected>"
      | some (.string text) => text
      | some o =>
        match n with
        | 0 => "..."
        | n + 1 => m.objectText (m.displayTo n) o := by
  rw [displayTo]
  rfl

theorem displayTo_collected (hx : m.heap.object? x = none) :
    m.displayTo n (.object x) = "<collected>" := by
  rw [displayTo_object, hx]

theorem displayTo_string (hx : m.heap.object? x = some (.string text)) :
    m.displayTo n (.object x) = text := by
  rw [displayTo_object, hx]

theorem displayTo_zero (hx : m.heap.object? x = some o) (ho : ∀ text, o ≠ .string text) :
    m.displayTo 0 (.object x) = "..." := by
  rw [displayTo_object]
  simp only [hx]

theorem displayTo_succ (hx : m.heap.object? x = some o) (ho : ∀ text, o ≠ .string text) :
    m.displayTo (n + 1) (.object x) = m.objectText (m.displayTo n) o := by
  rw [displayTo_object]
  simp only [hx]

/-! ## The showing of a value comes to an end -/

mutual

/-- Where the showing of a value ends, it leaves the text of the value behind. -/
theorem Writes.out_eq {depth : Nat} {v : Value} {out out' : String} :
    m.Writes depth v out out' → out' = out ++ m.displayTo (displayDepth - depth) v
  | .scalar hv => by rw [displayTo_scalar hv]
  | .collected hx => by rw [displayTo_collected hx]
  | .string hx => by rw [displayTo_string hx]
  | .elided hx ho hdepth => by rw [Nat.sub_eq_zero_of_le hdepth, displayTo_zero hx ho]
  | .function hx hdepth => by
    rw [← Nat.sub_add_cancel (Nat.sub_pos_of_lt hdepth), displayTo_succ hx (by simp)]
    rfl
  | .container hx he hdepth hitems => by
    have hout := hitems.out_eq
    rw [itemsText_empty, Nat.sub_add_eq] at hout
    rw [← Nat.sub_add_cancel (Nat.sub_pos_of_lt hdepth), displayTo_succ hx ?_,
      objectText_of_enclosed he, hout]
    · simp only [String.append_assoc]
    · rintro text rfl
      cases he

theorem WritesItems.out_eq {depth : Nat} {lead : String} {items : List (String × Value)}
    {out out' : String} : m.WritesItems depth lead items out out' →
      out' = out ++ itemsText (m.displayTo (displayDepth - depth)) lead items
  | .nil => by rw [itemsText, String.append_empty]
  | .cons hv hitems => by
    rw [hitems.out_eq, hv.out_eq, itemsText]
    simp only [String.append_assoc]

end

theorem writesItems_itemsText {f : Value → String}
    (hf : ∀ v out, m.Writes depth v out (out ++ f v)) (items : List (String × Value))
    (lead out : String) : m.WritesItems depth lead items out (out ++ itemsText f lead items) := by
  induction items generalizing lead out with
  | nil =>
    rw [itemsText, String.append_empty]
    exact .nil
  | cons i items ih =>
    obtain ⟨label, v⟩ := i
    have hrest := ih ", " (out ++ lead ++ label ++ f v)
    rw [itemsText]
    simp only [String.append_assoc] at hrest ⊢
    refine .cons (hf v _) ?_
    simpa only [String.append_assoc] using hrest

/-- Only objects that are no strings are shown differently at different depths. -/
theorem writes_of_objects
    (hobjects : ∀ x o out, m.heap.object? x = some o → (∀ text, o ≠ .string text) →
      m.Writes depth (.object x) out (out ++ m.displayTo n (.object x)))
    (v : Value) (out : String) : m.Writes depth v out (out ++ m.displayTo n v) := by
  cases hv : scalarText v with
  | some text =>
    rw [displayTo_scalar hv]
    exact .scalar hv
  | none =>
    obtain ⟨x, rfl⟩ := eq_object_of_not_scalar hv
    cases hx : m.heap.object? x with
    | none =>
      rw [displayTo_collected hx]
      exact .collected hx
    | some o =>
      by_cases ho : ∃ text, o = .string text
      · obtain ⟨text, rfl⟩ := ho
        rw [displayTo_string hx]
        exact .string hx
      · exact hobjects x o out hx fun text ht => ho ⟨text, ht⟩

/-- The showing of a value ends, whatever its object refers to. The induction is on the number of
levels that are left, which goes down from a container to its values. -/
theorem writes_displayTo (hn : displayDepth - depth = n) (v : Value) (out : String) :
    m.Writes depth v out (out ++ m.displayTo n v) := by
  induction n generalizing depth v out with
  | zero =>
    refine writes_of_objects (fun x o out hx ho => ?_) v out
    rw [displayTo_zero hx ho]
    exact .elided hx ho (Nat.le_of_sub_eq_zero hn)
  | succ n ih =>
    have hdepth : depth < displayDepth := by omega
    refine writes_of_objects (fun x o out hx ho => ?_) v out
    rw [displayTo_succ hx ho]
    cases he : m.enclosed? o with
    | none =>
      obtain ⟨text, rfl⟩ | ⟨callee, receiver, rfl⟩ := cases_of_not_enclosed he
      · exact absurd rfl (ho text)
      · exact .function hx hdepth
    | some e =>
      rw [objectText_of_enclosed he, ← itemsText_empty, ← String.append_assoc,
        ← String.append_assoc]
      exact .container hx he hdepth (writesItems_itemsText (ih (by omega)) _ _ _)

theorem writes_iff : m.Writes depth v out out' ↔
    out' = out ++ m.displayTo (displayDepth - depth) v := by
  constructor
  · exact Writes.out_eq
  · rintro rfl
    exact writes_displayTo rfl v out

/-! ## What a text depends on -/

theorem objectText_congr {f g : Value → String} (hb : m.bytecode.SameTables m'.bytecode)
    (hs : m'.structures = m.structures) (hfg : ∀ vs, o.elements? = some vs → ∀ v ∈ vs, g v = f v) :
    m'.objectText g o = m.objectText f o := by
  have hmap : ∀ vs, o.elements? = some vs → vs.toList.map g = vs.toList.map f := by
    intro vs hvs
    exact List.map_congr_left fun v hv => hfg vs hvs v (Array.mem_toList_iff.1 hv)
  cases o with
  | string text => rfl
  | array vs => rw [objectText, objectText, hmap vs rfl]
  | nativeRecord kind vs => rw [objectText, objectText, hmap vs rfl, hs]
  | function callee receiver =>
    cases callee <;>
      simp only [objectText, calleeText, Bytecode.function?, Bytecode.text, hb.functions,
        hb.strings]
  | record type vs =>
    have hfield : fieldName m'.bytecode type = fieldName m.bytecode type := by
      funext i
      simp only [fieldName, Bytecode.struct?, Bytecode.text, hb.structs, hb.strings]
    have hname : structName m'.bytecode type = structName m.bytecode type := by
      simp only [structName, Bytecode.struct?, Bytecode.text, hb.structs, hb.strings]
    have hzip : (vs.toList.zipIdx.map fun p => fieldName m.bytecode type p.2 ++ ": " ++ g p.1) =
        vs.toList.zipIdx.map fun p => fieldName m.bytecode type p.2 ++ ": " ++ f p.1 := by
      refine List.map_congr_left fun p hp => ?_
      obtain ⟨v, i⟩ := p
      have hv := List.mem_of_getElem? (List.mk_mem_zipIdx_iff_getElem?.1 hp)
      dsimp only
      rw [hfg vs rfl v (Array.mem_toList_iff.1 hv)]
    rw [objectText, objectText, hname, hfield, hzip]

/-- Two machines show a value in the same way where they find the same objects, if whatever makes
them do so for a container makes them do so for its values, with one level less. -/
theorem displayTo_congr {P : Nat → Value → Prop} (hb : m.bytecode.SameTables m'.bytecode)
    (hs : m'.structures = m.structures)
    (hfind : ∀ n v, P n v → v.handle?.bind m'.heap.object? = v.handle?.bind m.heap.object?)
    (hvalues : ∀ n v o vs, P (n + 1) v → v.handle?.bind m.heap.object? = some o →
      o.elements? = some vs → ∀ w ∈ vs, P n w) :
    ∀ n v, P n v → m'.displayTo n v = m.displayTo n v := by
  intro n
  induction n with
  | zero =>
    intro v hv
    rw [displayTo, displayTo, hfind 0 v hv]
  | succ n ih =>
    intro v hv
    rw [displayTo, displayTo, hfind (n + 1) v hv]
    cases ho : v.handle?.bind m.heap.object? with
    | none => rfl
    | some o =>
      have htext : m'.objectText (m'.displayTo n) o = m.objectText (m.displayTo n) o :=
        objectText_congr hb hs fun vs hvs w hw => ih w (hvalues n v o vs hv ho hvs w hw)
      cases scalarText v with
      | some text => rfl
      | none =>
        cases o with
        | string text => rfl
        | _ => exact htext

end Machine

namespace Heap

variable {h : Heap} {n : Nat} {v w : Value} {x : Handle} {o : Object} {vs : Array Value}

theorem mem_within_self (h : Heap) (n : Nat) (x : Handle) : x ∈ h.within n (.object x) := by
  cases n <;> simp [within, Value.handle?]

theorem mem_within_of_element (ho : v.handle?.bind h.object? = some o) (hvs : o.elements? = some vs)
    (hw : w ∈ vs) (hx : x ∈ h.within n w) : x ∈ h.within (n + 1) v := by
  rw [within, ho, Option.bind_some, hvs]
  exact List.mem_append_right _ (List.mem_flatMap.2 ⟨w, Array.mem_toList_iff.2 hw, hx⟩)

end Heap

namespace Machine

/-- Showing a value comes to an end, with one text, in every machine and for every value, whatever
holds itself in its heap. The text is the same in any other machine with the same tables and native
structures that has the same objects within eight references of the value. -/
theorem display_reads_within_depth (m : Machine) (v : Value) :
    (∀ text, m.Writes 0 v "" text ↔ text = m.display v) ∧
    ∀ m' : Machine, m.bytecode.SameTables m'.bytecode → m'.structures = m.structures →
      (∀ x ∈ m.heap.within displayDepth v, m'.heap.object? x = m.heap.object? x) →
      m'.display v = m.display v := by
  constructor
  · intro text
    rw [writes_iff, String.empty_append]
    rfl
  · intro m' hb hs hagree
    refine displayTo_congr (P := fun n v => ∀ x ∈ m.heap.within n v,
      m'.heap.object? x = m.heap.object? x) hb hs ?_ ?_ displayDepth v hagree
    · intro n v hv
      cases v with
      | object x => exact hv x (m.heap.mem_within_self n x)
      | _ => rfl
    · intro n v o vs hv ho hvs w hw x hx
      exact hv x (Heap.mem_within_of_element ho hvs hw hx)

/-- Nine arrays, each of which holds the next and the first also itself, and a string at the end. -/
def nestedArrays (text : String) : Machine :=
  let array (i : Nat) : Object :=
    .array ((if i = 0 then #[.object ⟨0, 0⟩] else #[]).push (.object ⟨.ofNat (i + 1), 0⟩))
  let objects := (List.range 9).map array ++ [.string text]
  { bytecode := {}, config := {}, heap := {
      slots := (objects.map fun o => { cell := some ⟨1, o⟩ }).toArray } }

/-- What stands nine references away from the first array is not seen. -/
theorem display_reads_within_depth_nested :
    let m := nestedArrays "a"
    let m' := nestedArrays "b"
    (m.bytecode.SameTables m'.bytecode ∧ m'.structures = m.structures ∧
      ∀ x ∈ m.heap.within displayDepth (.object ⟨0, 0⟩),
        m'.heap.object? x = m.heap.object? x) ∧
    m'.heap.object? ⟨9, 0⟩ ≠ m.heap.object? ⟨9, 0⟩ ∧
    m.Writes 0 (.object ⟨0, 0⟩) "" (m.display (.object ⟨0, 0⟩)) ∧
    m'.display (.object ⟨0, 0⟩) = m.display (.object ⟨0, 0⟩) := by
  intro m m'
  have htables : m.bytecode.SameTables m'.bytecode := ⟨rfl, rfl, rfl⟩
  have hagree : ∀ x ∈ m.heap.within displayDepth (.object ⟨0, 0⟩),
      m'.heap.object? x = m.heap.object? x := by decide +kernel
  obtain ⟨hends, hsame⟩ := display_reads_within_depth m (.object ⟨0, 0⟩)
  exact ⟨⟨htables, rfl, hagree⟩, by decide +kernel, (hends _).2 rfl, hsame m' htables rfl hagree⟩

/-- A string that stands eight references away is seen. -/
example : (nestedArrays "a").display (.object ⟨1, 0⟩) = "[[[[[[[[a]]]]]]]]" := by decide +kernel

end Machine

end Scriptlet
