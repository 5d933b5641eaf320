import Mathlib.Data.List.Forall2
import Scriptlet.Proofs.Heap.Sweeping
import Scriptlet.Proofs.Ideal.State
import Scriptlet.Proofs.Machine.Instructions

/-!
# Handles that stand for references

`Ideal.Names` says which handle of a machine stands for which reference of an ideal state. Under
such names values, objects, frames and whole states correspond (`ValRel`, `ObjRel`, `Sim`), and what
a machine can see of corresponding values is the same: their texts, kinds, elements and fields.
-/

namespace Scriptlet.Ideal

/-- Which handle stands for which reference. -/
abbrev Names := Ref → Handle → Prop

/-- The second names include the first. -/
def Names.Le (ρ ρ' : Names) : Prop := ∀ r x, ρ r x → ρ' r x

theorem Names.Le.refl (ρ : Names) : ρ.Le ρ := fun _ _ h => h

theorem Names.Le.trans {ρ₁ ρ₂ ρ₃ : Names} (h : ρ₁.Le ρ₂) (h' : ρ₂.Le ρ₃) : ρ₁.Le ρ₃ :=
  fun r x hx => h' r x (h r x hx)

/-- A value stands for another. All native functions that values name take their arguments. -/
inductive ValRel (ρ : Names) : Value → Val → Prop
  | plain {v : Value} (h : v.handle? = none) (hn : ∀ f, v = .native f → f.routine ≠ .leave) :
    ValRel ρ v (.plain v)
  | ref {x : Handle} {r : Ref} (h : ρ r x) : ValRel ρ (.object x) (.ref r)

/-- An object stands for another. -/
inductive ObjRel (ρ : Names) : Object → Obj → Prop
  | string (text : String) : ObjRel ρ (.string text) (.string text)
  | array {vs : Array Value} {ws : Array Val} (h : List.Forall₂ (ValRel ρ) vs.toList ws.toList) :
    ObjRel ρ (.array vs) (.array ws)
  | record (type : UInt32) {vs : Array Value} {ws : Array Val}
    (h : List.Forall₂ (ValRel ρ) vs.toList ws.toList) :
    ObjRel ρ (.record type vs) (.record type ws)
  | nativeRecord (kind : Nat) {vs : Array Value} {ws : Array Val}
    (h : List.Forall₂ (ValRel ρ) vs.toList ws.toList) :
    ObjRel ρ (.nativeRecord kind vs) (.nativeRecord kind ws)
  | function {callee : Callee} (hc : ∀ f, callee = .native f → f.routine ≠ .leave) :
    ObjRel ρ (.function callee none) (.function callee none)
  | bound {callee : Callee} (hc : ∀ f, callee = .native f → f.routine ≠ .leave) {x : Handle}
    {r : Ref} (h : ρ r x) : ObjRel ρ (.function callee (some x)) (.function callee (some r))

structure FrameRel (ρ : Names) (f : Scriptlet.Frame) (g : Frame) : Prop where
  operands : List.Forall₂ (ValRel ρ) f.operands g.operands
  locals : List.Forall₂ (ValRel ρ) f.locals.toList g.locals

structure CallerRel (ρ : Names) (c : Scriptlet.Caller) (d : Caller) : Prop where
  frame : FrameRel ρ c.frame d.frame
  returnTo : c.returnTo = d.returnTo

/-- A binding stands for another of the same name. -/
def EntryRel (ρ : Names) (e : String × Value) (f : String × Val) : Prop :=
  e.1 = f.1 ∧ ValRel ρ e.2 f.2

/-- A machine stands for an ideal state of a program. -/
structure Sim (σ : Setting) (ρ : Names) (m : Machine) (s : State) : Prop where
  bytecode : m.bytecode = σ.bytecode
  limit : m.config.maxCallDepth = σ.limit
  wellFormed : m.heap.WellFormed
  left : ∀ r x y, ρ r x → ρ r y → x = y
  right : ∀ r q x, ρ r x → ρ q x → r = q
  objects : ∀ r x, ρ r x →
    ∃ o o', m.heap.object? x = some o ∧ s.world.object? r = some o' ∧ ObjRel ρ o o'
  constants : ∀ c x, ρ (.literal c) x ↔ m.constants.lookup c = some x
  pc : m.pc = s.pc
  status : m.status = s.status
  frame : FrameRel ρ m.frame s.frame
  callers : List.Forall₂ (CallerRel ρ) m.callers s.callers
  globals : List.Forall₂ (EntryRel ρ) m.globals.entries s.world.globals.entries
  output : m.output = s.world.output
  tables : s.world.tables = m.bytecode.tables
  structures : m.structures = registry

/-! ## More names -/

section mono

variable {ρ ρ' : Names} (hle : ρ.Le ρ')
include hle

theorem ValRel.mono {v : Value} {w : Val} (h : ValRel ρ v w) : ValRel ρ' v w := by
  cases h with
  | plain h hn => exact .plain h hn
  | ref h => exact .ref (hle _ _ h)

theorem forall₂_mono {vs : List Value} {ws : List Val} (h : List.Forall₂ (ValRel ρ) vs ws) :
    List.Forall₂ (ValRel ρ') vs ws :=
  h.imp fun _ _ => ValRel.mono hle

theorem ObjRel.mono {o : Object} {o' : Obj} (h : ObjRel ρ o o') : ObjRel ρ' o o' := by
  cases h with
  | string text => exact .string text
  | array h => exact .array (forall₂_mono hle h)
  | record type h => exact .record type (forall₂_mono hle h)
  | nativeRecord kind h => exact .nativeRecord kind (forall₂_mono hle h)
  | function hc => exact .function hc
  | bound hc h => exact .bound hc (hle _ _ h)

theorem FrameRel.mono {f : Scriptlet.Frame} {g : Frame} (h : FrameRel ρ f g) : FrameRel ρ' f g :=
  ⟨forall₂_mono hle h.operands, forall₂_mono hle h.locals⟩

theorem CallerRel.mono {c : Scriptlet.Caller} {d : Caller} (h : CallerRel ρ c d) :
    CallerRel ρ' c d :=
  ⟨h.frame.mono hle, h.returnTo⟩

theorem EntryRel.mono {e : String × Value} {f : String × Val} (h : EntryRel ρ e f) :
    EntryRel ρ' e f :=
  ⟨h.1, h.2.mono hle⟩

end mono

/-! ## What values show -/

section values

variable {ρ : Names} {v : Value} {w : Val}

theorem ValRel.isTruthy (h : ValRel ρ v w) : v.isTruthy = w.face.isTruthy := by
  cases h <;> rfl

theorem ValRel.typeName (h : ValRel ρ v w) : v.typeName = w.face.typeName := by
  cases h <;> rfl

theorem ValRel.index? (h : ValRel ρ v w) : v.index? = w.face.index? := by
  cases h <;> rfl

theorem ValRel.ofValue? (h : ValRel ρ v w) : Number.ofValue? v = Number.ofValue? w.face := by
  cases h <;> rfl

theorem valRel_null (ρ : Names) : ValRel ρ .null .null :=
  .plain rfl fun f hf => by cases hf

theorem ObjRel.typeName {o : Object} {o' : Obj} (h : ObjRel ρ o o') : o.typeName = o'.typeName := by
  cases h <;> rfl

/-- Elements of corresponding objects correspond. -/
theorem ObjRel.elements? {o : Object} {o' : Obj} (h : ObjRel ρ o o') :
    (o.elements? = none ∧ o'.elements? = none) ∨ ∃ vs ws, o.elements? = some vs ∧
      o'.elements? = some ws ∧ List.Forall₂ (ValRel ρ) vs.toList ws.toList := by
  cases h with
  | string text => exact .inl ⟨rfl, rfl⟩
  | array h => exact .inr ⟨_, _, rfl, rfl, h⟩
  | record type h => exact .inr ⟨_, _, rfl, rfl, h⟩
  | nativeRecord kind h => exact .inr ⟨_, _, rfl, rfl, h⟩
  | function hc => exact .inl ⟨rfl, rfl⟩
  | bound hc h => exact .inl ⟨rfl, rfl⟩

theorem ObjRel.mapElements {o : Object} {o' : Obj} (h : ObjRel ρ o o')
    {f : Array Value → Array Value} {g : Array Val → Array Val}
    (hfg : ∀ vs ws, List.Forall₂ (ValRel ρ) vs.toList ws.toList →
      List.Forall₂ (ValRel ρ) (f vs).toList (g ws).toList) :
    ObjRel ρ (o.mapElements f) (o'.mapElements g) := by
  cases h with
  | string text => exact .string text
  | array h => exact .array (hfg _ _ h)
  | record type h => exact .record type (hfg _ _ h)
  | nativeRecord kind h => exact .nativeRecord kind (hfg _ _ h)
  | function hc => exact .function hc
  | bound hc h => exact .bound hc h

theorem size_eq_of_forall₂ {vs : Array Value} {ws : Array Val}
    (h : List.Forall₂ (ValRel ρ) vs.toList ws.toList) : vs.size = ws.size := by
  rw [Array.size_eq_length_toList, Array.size_eq_length_toList, h.length_eq]

/-- Places of corresponding lists correspond. -/
theorem forall₂_getElem? {vs : List Value} {ws : List Val} (h : List.Forall₂ (ValRel ρ) vs ws)
    (i : Nat) :
    (vs[i]? = none ∧ ws[i]? = none) ∨
      ∃ v w, vs[i]? = some v ∧ ws[i]? = some w ∧ ValRel ρ v w := by
  induction h generalizing i with
  | nil => exact .inl ⟨rfl, rfl⟩
  | cons hv _ ih =>
    cases i with
    | zero => exact .inr ⟨_, _, rfl, rfl, hv⟩
    | succ i => exact ih i

theorem forall₂_lookup {es : List (String × Value)} {fs : List (String × Val)}
    (h : List.Forall₂ (EntryRel ρ) es fs) (name : String) :
    (es.lookup name = none ∧ fs.lookup name = none) ∨
      ∃ v w, es.lookup name = some v ∧ fs.lookup name = some w ∧ ValRel ρ v w := by
  induction h with
  | nil => exact .inl ⟨rfl, rfl⟩
  | @cons e f _ _ he _ ih =>
    obtain ⟨n, v⟩ := e
    obtain ⟨n', w⟩ := f
    obtain ⟨rfl, hv⟩ := he
    simp only [List.lookup_cons]
    cases name == n with
    | true => exact .inr ⟨v, w, rfl, rfl, hv⟩
    | false => exact ih

theorem forall₂_insertEntry {es : List (String × Value)} {fs : List (String × Val)}
    (h : List.Forall₂ (EntryRel ρ) es fs) (name : String) (hv : ValRel ρ v w) :
    List.Forall₂ (EntryRel ρ) (Bindings.insertEntry name v es) (Bindings.insertEntry name w fs) := by
  induction h with
  | nil => exact .cons ⟨rfl, hv⟩ .nil
  | @cons e f es fs he hes ih =>
    obtain ⟨n, a⟩ := e
    obtain ⟨n', b⟩ := f
    obtain ⟨rfl, hab⟩ := he
    simp only [Bindings.insertEntry]
    split
    · exact .cons ⟨rfl, hv⟩ hes
    · exact .cons ⟨rfl, hab⟩ ih

end values

/-! ## What machines see -/

/-- Two outcomes of a look: the same fault, or values in relation. -/
def ExceptRel {α β : Type} (V : α → β → Prop) : Except Fault α → Except Fault β → Prop
  | .ok a, .ok b => V a b
  | .error f, .error g => f = g
  | _, _ => False

namespace Sim

variable {σ : Setting} {ρ : Names} {m : Machine} {s : State} (hs : Sim σ ρ m s)
include hs

theorem object? {x : Handle} {r : Ref} (h : ρ r x) :
    ∃ o o', m.heap.object? x = some o ∧ s.world.object? r = some o' ∧ ObjRel ρ o o' :=
  hs.objects r x h

theorem text (name : Symbol) : m.bytecode.text name = s.world.tables.text name := by
  rw [hs.tables]
  rfl

theorem struct? (type : UInt32) : m.bytecode.struct? type = s.world.tables.struct? type := by
  rw [hs.tables]
  rfl

/-- The objects of corresponding values correspond, if they are objects at all. -/
theorem objectOf? {v : Value} {w : Val} (h : ValRel ρ v w) :
    (v.handle? = none ∧ w = .plain v) ∨ ∃ x r o o', v = .object x ∧ w = .ref r ∧ ρ r x ∧
      m.heap.object? x = some o ∧ s.world.object? r = some o' ∧ ObjRel ρ o o' := by
  cases h with
  | plain h _ => exact .inl ⟨h, rfl⟩
  | ref h =>
    obtain ⟨o, o', ho, ho', hr⟩ := hs.object? h
    exact .inr ⟨_, _, o, o', rfl, rfl, h, ho, ho', hr⟩

theorem string? {v : Value} {w : Val} (h : ValRel ρ v w) :
    m.heap.string? v = s.world.string? w := by
  obtain ⟨hv, rfl⟩ | ⟨x, r, o, o', rfl, rfl, -, ho, ho', hr⟩ := hs.objectOf? h
  · simp [Heap.string?, hv, World.string?, World.objectOf?, Val.ref?]
  · simp only [Heap.string?, Value.handle?, World.string?, World.objectOf?, Val.ref?,
      Option.bind_some, ho, ho']
    cases hr <;> rfl

theorem kindName {v : Value} {w : Val} (h : ValRel ρ v w) :
    m.heap.kindName v = s.world.kindName w := by
  obtain ⟨hv, rfl⟩ | ⟨x, r, o, o', rfl, rfl, -, ho, ho', hr⟩ := hs.objectOf? h
  · cases v <;> first | rfl | cases hv
  · simp only [Heap.kindName, World.kindName, ho, ho', Option.elim_some]
    exact hr.typeName

theorem calleeText (callee : Callee) :
    Machine.calleeText m.bytecode callee = s.world.tables.calleeText callee := by
  cases callee with
  | native f => rfl
  | declared id =>
    simp only [Machine.calleeText, Tables.calleeText, hs.tables, Bytecode.tables,
      Bytecode.function?, Array.getElem?_map, Tables.text]
    cases m.bytecode.functions[id.toNat]? <;> rfl

/-- Corresponding objects have one text, if their elements do. -/
theorem objectText {f : Value → String} {g : Val → String}
    (hfg : ∀ v w, ValRel ρ v w → f v = g w) {o : Object} {o' : Obj} (h : ObjRel ρ o o') :
    m.objectText f o = s.world.objectText g o' := by
  have hmap : ∀ {vs : List Value} {ws : List Val}, List.Forall₂ (ValRel ρ) vs ws →
      vs.map f = ws.map g := fun h => by
    induction h with
    | nil => rfl
    | cons hv _ ih => rw [List.map_cons, List.map_cons, hfg _ _ hv, ih]
  cases h with
  | string text => rfl
  | array h => simp only [Machine.objectText, World.objectText, hmap h]
  | nativeRecord kind h => simp only [Machine.objectText, World.objectText, hmap h, hs.structures]
  | record type h =>
    have hz : ∀ {vs : List Value} {ws : List Val}, List.Forall₂ (ValRel ρ) vs ws → ∀ k,
        ((vs.zipIdx k).map fun e => Machine.fieldName m.bytecode type e.2 ++ ": " ++ f e.1) =
          (ws.zipIdx k).map fun e => s.world.tables.fieldName type e.2 ++ ": " ++ g e.1 := by
      intro vs ws h
      induction h with
      | nil => exact fun _ => rfl
      | cons hv _ ih =>
        intro k
        simp only [List.zipIdx_cons, List.map_cons, ih, hfg _ _ hv, hs.tables]
        rfl
    simp only [Machine.objectText, World.objectText, hz h]
    rw [hs.tables]
    rfl
  | function hc => exact hs.calleeText _
  | bound hc h => exact hs.calleeText _

theorem displayTo (n : Nat) : ∀ v w, ValRel ρ v w →
    m.displayTo n v = s.world.displayTo n w := by
  induction n with
  | zero =>
    intro v w h
    obtain ⟨hv, rfl⟩ | ⟨x, r, o, o', rfl, rfl, -, ho, ho', hr⟩ := hs.objectOf? h
    · unfold Machine.displayTo World.displayTo
      cases v <;> first | rfl | cases hv
    · simp only [Machine.displayTo, World.displayTo, Machine.scalarText, Value.handle?,
        Option.bind_some, ho, ho']
      cases hr <;> rfl
  | succ n ih =>
    intro v w h
    obtain ⟨hv, rfl⟩ | ⟨x, r, o, o', rfl, rfl, -, ho, ho', hr⟩ := hs.objectOf? h
    · unfold Machine.displayTo World.displayTo
      cases v <;> first | rfl | cases hv
    · have ht := hs.objectText ih hr
      simp only [Machine.displayTo, World.displayTo, Machine.scalarText, Value.handle?,
        Option.bind_some, ho, ho']
      cases hr <;> first | rfl | exact ht

theorem display {v : Value} {w : Val} (h : ValRel ρ v w) : m.display v = s.world.display w :=
  hs.displayTo _ v w h

/-! ### Operators -/

theorem same {v u : Value} {w t : Val} (h : ValRel ρ v w) (h' : ValRel ρ u t) :
    v.same u = w.same t := by
  cases h with
  | plain hv _ =>
    cases h' with
    | plain hu _ => rfl
    | ref h' => cases v <;> first | rfl | cases hv
  | ref h =>
    cases h' with
    | plain hu _ => cases u <;> first | rfl | cases hu
    | ref h' =>
      simp only [Value.same, Val.same]
      exact decide_eq_decide.2
        ⟨fun he => hs.right _ _ _ h (he ▸ h'), fun he => hs.left _ _ _ h (he ▸ h')⟩

theorem equal {v u : Value} {w t : Val} (h : ValRel ρ v w) (h' : ValRel ρ u t) :
    m.equal v u = s.world.equal w t := by
  unfold Machine.equal World.equal
  rewrite [h.ofValue?, h'.ofValue?, hs.string? h, hs.string? h', hs.same h h']
  rfl

theorem order (op : BinaryOp) {v u : Value} {w t : Val} (h : ValRel ρ v w) (h' : ValRel ρ u t) :
    m.order op v u = s.world.order op w t := by
  unfold Machine.order World.order Machine.operandMismatch World.operandMismatch
  rewrite [h.ofValue?, h'.ofValue?, hs.string? h, hs.string? h', hs.kindName h, hs.kindName h']
  rfl

theorem numeric (op : BinaryOp) {v u : Value} {w t : Val} (h : ValRel ρ v w)
    (h' : ValRel ρ u t) : ExceptRel (ValRel ρ) (m.numeric op v u) (s.world.numeric op w t) := by
  have hy := Machine.numeric_yields m op v u
  have hm : (m.numeric op v u).map Val.plain = s.world.numeric op w t := by
    unfold Machine.numeric World.numeric Machine.operandMismatch World.operandMismatch
    rw [h.ofValue?, h'.ofValue?, hs.kindName h, hs.kindName h']
    cases Number.ofValue? w.face with
    | none => rfl
    | some a =>
      cases Number.ofValue? t.face with
      | none => rfl
      | some b => cases op <;> rfl
  rw [← hm]
  cases hr : m.numeric op v u with
  | error f => rfl
  | ok a =>
    rw [hr] at hy
    obtain ⟨n, rfl⟩ := hy
    exact .plain (Number.handle?_toValue n) fun f hf => by cases n <;> cases hf

/-! ### Elements and fields -/

theorem nativeMethod? {v : Value} {w : Val} (h : ValRel ρ v w) (name : String) :
    m.nativeMethod? v name = s.world.nativeMethod? w name := by
  obtain ⟨hv, rfl⟩ | ⟨x, r, o, o', rfl, rfl, -, ho, ho', hr⟩ := hs.objectOf? h
  · simp [Machine.nativeMethod?, hv, World.nativeMethod?, World.objectOf?, Val.ref?]
  · simp only [Machine.nativeMethod?, Value.handle?, World.nativeMethod?, World.objectOf?,
      Val.ref?, Option.bind_some, ho, ho', hs.structures]
    cases hr <;> rfl

theorem indexMismatch (op : String) {v u : Value} {w t : Val} (h : ValRel ρ v w)
    (h' : ValRel ρ u t) : m.indexMismatch op v u = s.world.indexMismatch op w t := by
  unfold Machine.indexMismatch World.indexMismatch
  rw [hs.kindName h, hs.kindName h']

theorem elementAt {v u : Value} {w t : Val} (h : ValRel ρ v w) (h' : ValRel ρ u t) :
    ExceptRel (ValRel ρ) (m.elementAt v u) (s.world.elementAt w t) := by
  have hmis := hs.indexMismatch "[]" h h'
  unfold Machine.elementAt World.elementAt
  rw [hmis, h'.index?]
  obtain ⟨hv, rfl⟩ | ⟨x, r, o, o', rfl, rfl, -, ho, ho', hr⟩ := hs.objectOf? h
  · rw [hv]
    rfl
  · simp only [Value.handle?, ho, ho']
    cases t.face.index? with
    | none => rfl
    | some i =>
      cases hr with
      | array hvs =>
        simp only [Machine.elementCount?, World.elementCount?, Machine.element?, World.element?,
          Array.size_eq_length_toList, hvs.length_eq, ← Array.getElem?_toList]
        by_cases hi : i < 0
        · simp only [if_pos hi]
          rfl
        · simp only [if_neg hi]
          obtain ⟨h₁, h₂⟩ | ⟨a, b, h₁, h₂, hab⟩ := forall₂_getElem? hvs i.toNat
          · rw [h₁, h₂]
            rfl
          · rw [h₁, h₂]
            exact hab
      | string text =>
        simp only [Machine.elementCount?, World.elementCount?, Machine.element?, World.element?]
        by_cases hi : i < 0
        · simp only [if_pos hi]
          rfl
        · simp only [if_neg hi]
          cases text.toUTF8[i.toNat]? with
          | none => rfl
          | some c => exact .plain rfl fun f hf => by cases hf
      | _ => rfl

/-- The place of an element or a field: the same place of corresponding objects. -/
def PlaceRel (ρ : Names) (p : Handle × Nat) (q : Ref × Nat) : Prop := ρ q.1 p.1 ∧ p.2 = q.2

theorem elementPlace {v u : Value} {w t : Val} (h : ValRel ρ v w) (h' : ValRel ρ u t) :
    ExceptRel (PlaceRel ρ) (m.elementPlace v u) (s.world.elementPlace w t) := by
  have hmis := hs.indexMismatch "[]=" h h'
  unfold Machine.elementPlace World.elementPlace
  rw [hmis, h'.index?]
  obtain ⟨hv, rfl⟩ | ⟨x, r, o, o', rfl, rfl, hρ, ho, ho', hr⟩ := hs.objectOf? h
  · rw [hv]
    rfl
  · cases t.face.index? with
    | none => rfl
    | some i =>
      simp only [Value.handle?, ho, ho']
      cases hr with
      | array hvs =>
        simp only [Array.size_eq_length_toList, hvs.length_eq]
        split
        · rfl
        · exact ⟨hρ, rfl⟩
      | _ => rfl

theorem fieldPlace {v : Value} {w : Val} (h : ValRel ρ v w) (name : Symbol) :
    ExceptRel (PlaceRel ρ) (m.fieldPlace v name) (s.world.fieldPlace w name) := by
  unfold Machine.fieldPlace World.fieldPlace
  simp only [hs.text, hs.struct?]
  obtain ⟨hv, rfl⟩ | ⟨x, r, o, o', rfl, rfl, hρ, ho, ho', hr⟩ := hs.objectOf? h
  · rw [hv]
    rfl
  · simp only [Value.handle?, ho, ho']
    cases hr with
    | record type hvs =>
      dsimp only
      cases (s.world.tables.struct? type).bind fun s => s.fieldIndex? name with
      | none => rfl
      | some i => exact ⟨hρ, rfl⟩
    | _ => rfl

theorem recordField {v : Value} {w : Val} (h : ValRel ρ v w) (name : Symbol) :
    ExceptRel (ValRel ρ) (m.fieldValue v name) (s.world.recordField w name) := by
  have hp := hs.fieldPlace h name
  unfold Machine.fieldValue World.recordField
  rw [hs.text]
  revert hp
  cases m.fieldPlace v name with
  | error f =>
    cases s.world.fieldPlace w name with
    | error g => exact id
    | ok q => exact False.elim
  | ok p =>
    cases s.world.fieldPlace w name with
    | error g => exact False.elim
    | ok q =>
      obtain ⟨x, i⟩ := p
      obtain ⟨r, j⟩ := q
      rintro ⟨hρ, hij⟩
      dsimp only at hρ hij ⊢
      subst hij
      obtain ⟨o, o', ho, ho', hr⟩ := hs.object? hρ
      rw [ho, ho', Option.bind_some, Option.bind_some]
      obtain ⟨h₁, h₂⟩ | ⟨vs, ws, h₁, h₂, hvs⟩ := hr.elements?
      · rw [h₁, h₂]
        rfl
      · rw [h₁, h₂]
        dsimp only
        rw [← Array.getElem?_toList, ← Array.getElem?_toList]
        obtain ⟨h₃, h₄⟩ | ⟨a, b, h₃, h₄, hab⟩ := forall₂_getElem? hvs i
        · rw [h₃, h₄]
          rfl
        · rw [h₃, h₄]
          exact hab

theorem isCallable {v : Value} {w : Val} (h : ValRel ρ v w) :
    m.isCallable v = s.world.isCallable w := by
  obtain ⟨hv, rfl⟩ | ⟨x, r, o, o', rfl, rfl, -, ho, ho', hr⟩ := hs.objectOf? h
  · cases v <;> first | rfl | cases hv
  · simp only [Machine.isCallable, World.isCallable, ho, ho']
    cases hr <;> rfl

theorem find?_globals (name : String) :
    (m.globals.find? name = none ∧ s.world.globals.find? name = none) ∨
      ∃ v w, m.globals.find? name = some v ∧ s.world.globals.find? name = some w ∧
        ValRel ρ v w :=
  forall₂_lookup hs.globals name

end Sim

end Scriptlet.Ideal
