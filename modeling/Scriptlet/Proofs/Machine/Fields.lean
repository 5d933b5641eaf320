import Scriptlet.Proofs.Code.Image
import Scriptlet.Proofs.Heap.Stores
import Scriptlet.Proofs.Machine.Backed

/-!
# Fields by position and by name

An instance is filled by position, and its fields are read and written by name: of several fields
with one name, the first. `Machine.FieldsFaithful` is the law that positions and names agree: the
arguments of a construction are read back from the fields they were given for, the other fields
have the default of their kind, and a store to one field leaves the fields at other positions alone.

Main statement: `Machine.fields_faithful_iff_names_distinct`. A compiled program keeps this law for
a type exactly when the type does not declare two fields of one name.
-/

namespace Scriptlet

open Compile (structEntry)

/-! ## The place of a name -/

theorem StructEntry.fieldIndex?_structEntry (d : TypeDecl) (name : Symbol) :
    (structEntry d).fieldIndex? name = d.fields.findIdx? fun f => f.name = name := by
  simp [fieldIndex?, structEntry, Prototypes.signature, List.findIdx?_map, Function.comp_def]

namespace TypeDecl

variable {d : TypeDecl} {i : Nat} {f : Binder}

/-- A declared name is found at its position or before. -/
theorem exists_place (hf : d.fields[i]? = some f) :
    ∃ j, j ≤ i ∧ (structEntry d).fieldIndex? f.name = some j := by
  obtain ⟨hi, rfl⟩ := List.getElem?_eq_some_iff.1 hf
  rw [StructEntry.fieldIndex?_structEntry]
  cases hj : d.fields.findIdx? fun g => g.name = d.fields[i].name with
  | none =>
    rw [List.findIdx?_eq_none_iff] at hj
    have := hj _ (List.getElem_mem hi)
    simp at this
  | some j =>
    obtain ⟨hlt, -, hfirst⟩ := List.findIdx?_eq_some_iff_getElem.1 hj
    refine ⟨j, Nat.le_of_not_lt fun hij => ?_, rfl⟩
    have := hfirst i hij
    simp at this

theorem lt_of_place {name : Symbol} {j : Nat} (hj : (structEntry d).fieldIndex? name = some j) :
    j < d.fields.length := by
  rw [StructEntry.fieldIndex?_structEntry] at hj
  exact (List.findIdx?_eq_some_iff_getElem.1 hj).1

/-- If no name is declared twice, a name is found at its position. -/
theorem place_of_nodup (hn : (d.fields.map Binder.name).Nodup) (hf : d.fields[i]? = some f) :
    (structEntry d).fieldIndex? f.name = some i := by
  obtain ⟨j, hji, hj⟩ := exists_place hf
  rw [hj]
  rw [StructEntry.fieldIndex?_structEntry] at hj
  obtain ⟨hlt, hname, -⟩ := List.findIdx?_eq_some_iff_getElem.1 hj
  refine congrArg some ((List.getElem?_inj (by simpa using hlt) hn).1 ?_)
  rw [List.getElem?_map, List.getElem?_map, hf, List.getElem?_eq_getElem hlt]
  simpa using hname

end TypeDecl

namespace Machine

/-- Reading a field of an object by its name puts a value in the place of the object, and changes
nothing else. -/
def Reads (m : Machine) (x : Handle) (name : Symbol) (v : Value) : Prop :=
  ∀ rest, Exec.execute (.getField name) (m.withOperands (.object x :: rest)) =
    .ok () (m.withOperands (v :: rest))

/-- The object is an instance of a type with one live value for each field. -/
structure IsInstance (m : Machine) (type : UInt32) (d : TypeDecl) (x : Handle) (us : Array Value) :
    Prop where
  object : m.heap.object? x = some (.record type us)
  size : us.size = d.fields.length
  live : ∀ y ∈ Value.handles us.toList, m.heap.contains y = true

/-- In machines that run a program, the fields of a type are what they were made and set to,
position by position (module doc). -/
structure FieldsFaithful (b : Bytecode) (type : UInt32) (d : TypeDecl) : Prop where
  construct : ∀ (m : Machine) (args : UInt8) (vs rest : List Value), m.bytecode = b →
    m.heap.WellFormed → m.heap.slots.size < 2 ^ 32 → m.frame.operands = vs.reverse ++ rest →
    (∀ y ∈ Value.handles vs, m.heap.contains y = true) →
    vs.length = args.toNat → args.toNat ≤ d.fields.length →
    ∃ m' x us, Exec.execute (.construct type args) m = .ok () m' ∧
      m'.frame.operands = .object x :: rest ∧ m'.IsInstance type d x us ∧
      ∀ (i : Nat) (f : Binder), d.fields[i]? = some f →
        m'.Reads x f.name (vs[i]?.getD f.kind.default)
  setField : ∀ (m : Machine) (x : Handle) (us : Array Value) (i : Nat) (f : Binder) (w : Value)
    (rest : List Value), m.bytecode = b → m.IsInstance type d x us → d.fields[i]? = some f →
    (∀ y ∈ Value.handles [w], m.heap.contains y = true) →
    ∃ m' us', Exec.execute (.setField f.name) (m.withOperands (.object x :: w :: rest)) = .ok () m' ∧
      m'.frame.operands = rest ∧ m'.IsInstance type d x us' ∧ m'.Reads x f.name w ∧
      ∀ (j : Nat) (g : Binder) (v : Value), j ≠ i → d.fields[j]? = some g → m.Reads x g.name v →
        m'.Reads x g.name v

variable {m : Machine} {b : Bytecode} {type : UInt32} {d : TypeDecl} {x : Handle} {us : Array Value}
  {name : Symbol} {i : Nat} {v w : Value}

/-! ## Reading -/

theorem Reads.unique (hv : m.Reads x name v) (hw : m.Reads x name w) : v = w := by
  have h := (hv []).symm.trans (hw [])
  rw [EStateM.Result.ok.injEq] at h
  have hops := congrArg (fun m : Machine => m.frame.operands) h.2
  exact (List.cons.inj hops).1

section
variable (htype : m.bytecode.struct? type = some (structEntry d)) (hx : m.IsInstance type d x us)
include htype hx

theorem fieldPlace_of_place (hi : (structEntry d).fieldIndex? name = some i) :
    m.fieldPlace (.object x) name = .ok (x, i) := by
  simp only [fieldPlace, Value.handle?, hx.object, htype, Option.bind_some, hi]

/-- What is read by a name is the value at the place of the name. -/
theorem reads_of_place (hi : (structEntry d).fieldIndex? name = some i) (hv : us[i]? = some v) :
    m.Reads x name v := by
  intro rest
  have hmethod : (m.withOperands rest).nativeMethod? (.object x) (m.bytecode.text name) = none := by
    have hobj : (m.withOperands rest).heap.object? x = _ := hx.object
    simp only [nativeMethod?, Value.handle?, Option.bind_some, hobj]
  have hvalue : (m.withOperands rest).fieldValue (.object x) name = .ok v := by
    have hplace : (m.withOperands rest).fieldPlace (.object x) name = .ok (x, i) :=
      fieldPlace_of_place (m := m.withOperands rest) htype ⟨hx.object, hx.size, hx.live⟩ hi
    have hobj : (m.withOperands rest).heap.object? x = _ := hx.object
    simp only [fieldValue, hplace, hobj, Option.bind_some, Object.elements?, hv, Option.elim_some]
  show Exec.getField name _ = _
  have hpop : Exec.pop (m.withOperands (.object x :: rest)) = .ok (.object x) (m.withOperands rest) :=
    Exec.run_pop_cons rfl
  rw [Exec.getField, Exec.run_bind_ok hpop]
  have hfield : Exec.fieldValue (.object x) name (m.withOperands rest) =
      .ok v (m.withOperands rest) := by
    rw [Exec.fieldValue, Exec.run_get_bind]
    have htext : (m.withOperands rest).bytecode.text name = m.bytecode.text name := rfl
    rw [htext, hmethod]
    simp only [Exec.look, hvalue]
  rw [Exec.run_bind_ok hfield]
  rfl

/-- Every declared name reads the value at its place, which is at its position or before. -/
theorem exists_reads {f : Binder} (hf : d.fields[i]? = some f) :
    ∃ j v, (structEntry d).fieldIndex? f.name = some j ∧ us[j]? = some v ∧ m.Reads x f.name v := by
  obtain ⟨j, -, hj⟩ := TypeDecl.exists_place hf
  have hlt : j < us.size := by
    rw [hx.size]
    exact TypeDecl.lt_of_place hj
  have hget := Array.getElem?_eq_getElem hlt
  exact ⟨j, _, hj, hget, reads_of_place htype hx hj hget⟩

/-! ## Writing -/

/-- A store by a name goes to the place of the name. -/
theorem run_setField (hi : (structEntry d).fieldIndex? name = some i)
    (hw : ∀ y ∈ Value.handles [w], m.heap.contains y = true) (rest : List Value) :
    ∃ m', Exec.execute (.setField name) (m.withOperands (.object x :: w :: rest)) = .ok () m' ∧
      m'.frame.operands = rest ∧ m'.bytecode = m.bytecode ∧
      m'.IsInstance type d x (us.setIfInBounds i w) := by
  have hlt : i < us.size := by
    rw [hx.size]
    exact TypeDecl.lt_of_place hi
  have hget := Array.getElem?_eq_getElem hlt
  have helement : m.heap.element? x i = some us[i] := by
    simp [Heap.element?, hx.object, Object.elements?, hget]
  obtain ⟨h', hr, hc⟩ := Heap.setElement_of_live (v := w) helement
    (fun y hy => hw y (by rw [Value.mem_handles, hy]; exact List.mem_singleton_self _))
    (fun y hy => hx.live y (by
      rw [Value.mem_handles, ← hy]
      exact List.mem_of_getElem? (Array.getElem?_toList ▸ hget)))
  have hcontains : ∀ y, h'.contains y = m.heap.contains y := fun y =>
    (hc.contains y).trans (Heap.contains_modifyCell m.heap x y _)
  refine ⟨({ m with heap := h' } : Machine).withOperands rest, ?_, rfl, rfl, ?_, ?_, fun y hy => ?_⟩
  · have hpop : Exec.pop (m.withOperands (.object x :: w :: rest)) =
        .ok (.object x) (m.withOperands (w :: rest)) := Exec.run_pop_cons rfl
    have hpop' : Exec.pop (m.withOperands (w :: rest)) = .ok w (m.withOperands rest) :=
      Exec.run_pop_cons rfl
    have hplace : (m.withOperands rest).fieldPlace (.object x) name = .ok (x, i) :=
      fieldPlace_of_place (m := m.withOperands rest) htype ⟨hx.object, hx.size, hx.live⟩ hi
    have hlook : Exec.look (fun m => m.fieldPlace (.object x) name) (m.withOperands rest) =
        .ok (x, i) (m.withOperands rest) := by
      simp only [Exec.look, hplace]
    show Exec.setField name _ = _
    rw [Exec.setField, Exec.run_bind_ok hpop, Exec.run_bind_ok hpop', Exec.run_bind_ok hlook]
    exact Exec.run_onHeap_ok hr
  · show h'.object? x = _
    rw [hc.object? x, Heap.putElement, Heap.object?_changeObject hx.object, if_pos rfl]
    rfl
  · rw [Array.size_setIfInBounds, hx.size]
  · show h'.contains y = true
    rw [hcontains]
    rw [Value.mem_handles, Array.mem_toList_iff] at hy
    rcases Array.mem_or_eq_of_mem_setIfInBounds hy with hmem | heq
    · exact hx.live y (by rw [Value.mem_handles, Array.mem_toList_iff]; exact hmem)
    · exact hw y (by rw [Value.mem_handles, heq]; exact List.mem_singleton_self _)

end

/-! ## Constructing -/

/-- What a construction puts into an instance, field by field. -/
def filled (d : TypeDecl) (vs : List Value) : Array Value :=
  (vs ++ (d.fields.map fun f => f.kind.default).drop vs.length).toArray

theorem getElem?_filled {f : Binder} {vs : List Value} (hf : d.fields[i]? = some f) :
    (filled d vs)[i]? = some (vs[i]?.getD f.kind.default) := by
  rw [filled, List.getElem?_toArray]
  by_cases hi : i < vs.length
  · rw [List.getElem?_append_left hi, List.getElem?_eq_getElem hi, Option.getD_some]
  · have hle := Nat.le_of_not_lt hi
    rw [List.getElem?_append_right hle, List.getElem?_eq_none hle, List.getElem?_drop,
      Nat.add_sub_cancel' hle, List.getElem?_map, hf]
    rfl

theorem handles_filled (d : TypeDecl) (vs : List Value) :
    Value.handles (filled d vs).toList = Value.handles vs := by
  have h := Exec.children_instance 0 vs (Prototypes.signature d.fields) vs.length
  rw [Prototypes.signature, List.map_map] at h
  exact h

theorem run_construct (htype : m.bytecode.struct? type = some (structEntry d))
    (hw : m.heap.WellFormed) (hs : m.heap.slots.size < 2 ^ 32) {args : UInt8} {vs rest : List Value}
    (hops : m.frame.operands = vs.reverse ++ rest)
    (hlive : ∀ y ∈ Value.handles vs, m.heap.contains y = true) (hargs : vs.length = args.toNat)
    (hle : args.toNat ≤ d.fields.length) :
    ∃ m' x, Exec.execute (.construct type args) m = .ok () m' ∧
      m'.frame.operands = .object x :: rest ∧ m'.bytecode = m.bytecode ∧
      m'.IsInstance type d x (filled d vs) := by
  obtain ⟨h₁, hr₁, hc₁⟩ := Heap.recounts_retainAll fun y hy => hlive y (Value.mem_handles.2 hy)
  have hs₁ : h₁.slots.size < 2 ^ 32 := by rw [hc₁.slots]; exact hs
  have hfind := Heap.find?_allocate_eq (hc₁.wellFormed hw) hs₁ (.record type (filled d vs))
  have hnew : (h₁.allocate (.record type (filled d vs))).2.object?
      (h₁.allocate (.record type (filled d vs))).1 = some (.record type (filled d vs)) := by
    rw [Heap.object?, hfind, if_pos rfl]
    rfl
  have hkeeps : h₁.Keeps (h₁.allocate (.record type (filled d vs))).2 := fun y hy => by
    rw [Heap.contains, hfind]
    split
    · rfl
    · exact hy
  have hlen : ((structEntry d).fields.map fun f => f.2.default).length = d.fields.length := by
    simp [structEntry, Prototypes.signature]
  have hdefaults : ((structEntry d).fields.map fun f => f.2.default) =
      d.fields.map fun f => f.kind.default := by
    simp [structEntry, Prototypes.signature]
  refine ⟨({ m with heap := (h₁.allocate (.record type (filled d vs))).2 } : Machine).withOperands
    (.object (h₁.allocate (.record type (filled d vs))).1 :: rest), _, ?_, rfl, rfl, hnew, ?_,
    fun y hy => ?_⟩
  · have hpop : Exec.popN args.toNat m = .ok vs (m.withOperands rest) := by
      have hnot : ¬ m.frame.operands.length < args.toNat := by
        rw [hops, List.length_append, List.length_reverse]
        omega
      have hcount : vs.reverse.length = args.toNat := by rw [List.length_reverse, hargs]
      rw [Exec.run_popN_of_not_lt hnot, hops, ← hcount, List.take_left, List.drop_left,
        List.reverse_reverse]
      rfl
    have hretain : Exec.onHeap (Heap.retainAll vs) (m.withOperands rest) =
        .ok () { m.withOperands rest with heap := h₁ } := Exec.run_onHeap_ok hr₁
    show Exec.construct type args.toNat m = _
    rw [Exec.construct, Exec.run_get_bind, htype]
    dsimp only
    rw [hlen, if_neg (by omega), Exec.run_bind_ok hpop, Exec.run_bind_ok hretain, hdefaults, ← hargs]
    rfl
  · simp only [filled, List.size_toArray, List.length_append, List.length_drop, List.length_map]
    omega
  · rw [handles_filled] at hy
    exact hkeeps y ((hc₁.contains y).trans (hlive y hy))

/-! ## The law -/

theorem fieldsFaithful_of_nodup (htype : b.struct? type = some (structEntry d))
    (hn : (d.fields.map Binder.name).Nodup) : FieldsFaithful b type d where
  construct m args vs rest hb hw hs hops hlive hargs hle := by
    subst hb
    obtain ⟨m', x, hr, hops', hb', hx⟩ := run_construct htype hw hs hops hlive hargs hle
    rw [← hb'] at htype
    exact ⟨m', x, _, hr, hops', hx, fun i f hf =>
      reads_of_place htype hx (TypeDecl.place_of_nodup hn hf) (getElem?_filled hf)⟩
  setField m x us i f w rest hb hx hf hw := by
    subst hb
    have hplace := TypeDecl.place_of_nodup hn hf
    obtain ⟨m', hr, hops', hb', hx'⟩ := run_setField htype hx hplace hw rest
    have htype' := hb' ▸ htype
    have hlt : i < us.size := by
      rw [hx.size]
      exact TypeDecl.lt_of_place hplace
    refine ⟨m', _, hr, hops', hx', reads_of_place htype' hx' hplace (by simp [hlt]),
      fun j g v hne hg hv => ?_⟩
    obtain ⟨k, u, hk, hu, hreads⟩ := exists_reads htype hx hg
    rw [TypeDecl.place_of_nodup hn hg] at hk
    cases hk
    rw [hv.unique hreads]
    refine reads_of_place htype' hx' (TypeDecl.place_of_nodup hn hg) ?_
    rw [Array.getElem?_setIfInBounds_ne (Ne.symm hne), hu]

/-- A machine with one instance of a type, whose fields are all null. -/
def withInstance (b : Bytecode) (type : UInt32) (d : TypeDecl) : Machine :=
  { bare b {} with
    heap := (Heap.empty.allocate (.record type (Array.replicate d.fields.length .null))).2 }

theorem isInstance_withInstance (b : Bytecode) (type : UInt32) (d : TypeDecl) :
    (withInstance b type d).IsInstance type d ⟨0, 0⟩ (Array.replicate d.fields.length .null) where
  object := rfl
  size := Array.size_replicate
  live y hy := by
    rw [Value.mem_handles] at hy
    simp at hy

/-- With two fields of one name, a store to the one is seen at the other. -/
theorem nodup_of_fieldsFaithful (htype : b.struct? type = some (structEntry d))
    (hfaithful : FieldsFaithful b type d) : (d.fields.map Binder.name).Nodup := by
  rw [List.nodup_iff_getElem?_ne_getElem?]
  intro i j hij hj hsame
  rw [List.length_map] at hj
  rw [List.getElem?_map, List.getElem?_map, List.getElem?_eq_getElem (Nat.lt_trans hij hj),
    List.getElem?_eq_getElem hj] at hsame
  have hname : d.fields[i].name = d.fields[j].name := by simpa using hsame
  have hx := isInstance_withInstance b type d
  obtain ⟨k, u, hk, hu, hreads⟩ := exists_reads (m := withInstance b type d) htype hx
    (List.getElem?_eq_getElem hj)
  have hnull : u = .null := by
    obtain ⟨hlt, rfl⟩ := Array.getElem?_eq_some_iff.1 hu
    exact Array.getElem_replicate hlt
  subst hnull
  obtain ⟨m', us', -, -, -, hset, hothers⟩ := hfaithful.setField _ _ _ i _ (.bool true) [] rfl hx
    (List.getElem?_eq_getElem (Nat.lt_trans hij hj)) (by simp [Value.handles, Value.handle?])
  have hother := hothers j _ _ (Nat.ne_of_gt hij) (List.getElem?_eq_getElem hj) hreads
  rw [hname] at hset
  cases hset.unique hother

theorem struct?_of_compile {p : Program} {pool : Pool} (hc : p.compile pool = .ok b) {k : Nat}
    (hd : p.types[k]? = some d) : b.struct? (UInt32.ofNat k) = some (structEntry d) := by
  obtain ⟨env, himage⟩ := Compile.image_of_compile hc
  have hentry : env.prototypes.structs[k]? = some (structEntry d) := by
    rw [← Array.getElem?_toList, himage.types, List.getElem?_map, hd]
    rfl
  have hlen := Prototypes.length_le_of_nodup himage.distinct.structs
  have hlt := (Array.getElem?_eq_some_iff.1 hentry).1
  rw [List.length_map, Array.length_toList] at hlen
  rw [Bytecode.struct?, himage.structs, UInt32.toNat_ofNat', Nat.mod_eq_of_lt (by omega), hentry]

/-- The law of fields holds of a declared type exactly when its fields have different names. -/
theorem fields_faithful_iff_names_distinct {p : Program} {pool : Pool} {b : Bytecode}
    (hc : p.compile pool = .ok b) {k : Nat} {d : TypeDecl} (hd : p.types[k]? = some d) :
    FieldsFaithful b (UInt32.ofNat k) d ↔ (d.fields.map Binder.name).Nodup :=
  ⟨nodup_of_fieldsFaithful (struct?_of_compile hc hd), fieldsFaithful_of_nodup (struct?_of_compile hc hd)⟩

/-- `type P { f, g }  let p = P(1, 2);  print(p.f, p.g);` for two names `f` and `g`. The symbols of
`P`, `p` and `print` are 0, 1 and 2. -/
def pairProgram (f g : Symbol) : Program :=
  let int (n : Int32) : Expr := .literal (.int n) {}
  let p : Expr := .name 1 {}
  ⟨[.type ⟨0, [⟨f, .any, {}⟩, ⟨g, .any, {}⟩], {}⟩ {},
    .declare 1 (.construct 0 [int 1, int 2] {}) {},
    .expression (.call (.name 2 {}) [.field p f {}, .field p g {}] {}) {}]⟩

theorem fields_faithful_of_pair :
    let pool : Pool := { entries := #["P", "p", "print", "a", "b"] }
    ∃ b, (pairProgram 3 4).compile pool = .ok b ∧
      FieldsFaithful b 0 ⟨0, [⟨3, .any, {}⟩, ⟨4, .any, {}⟩], {}⟩ := by
  intro pool
  have hrun : ((pairProgram 3 4).compile pool).isOk = true := by decide +kernel
  cases h : (pairProgram 3 4).compile pool with
  | error e =>
    rw [h] at hrun
    cases hrun
  | ok b => exact ⟨b, rfl, (fields_faithful_iff_names_distinct h (k := 0) rfl).2 (by decide)⟩

/-- `type P { a, a }` is accepted, and the second argument of a construction cannot be read. -/
theorem repeated_field_reads_first :
    let pool : Pool := { entries := #["P", "p", "print", "a"] }
    ∃ b, (pairProgram 3 3).compile pool = .ok b ∧
      ((new b {}).after 11).output = #["1 1"] ∧
      ¬ FieldsFaithful b 0 ⟨0, [⟨3, .any, {}⟩, ⟨3, .any, {}⟩], {}⟩ := by
  intro pool
  have hrun : ((pairProgram 3 3).compile pool).toOption.any (fun b =>
      ((new b {}).after 11).output = #["1 1"]) = true := by
    decide +kernel
  cases h : (pairProgram 3 3).compile pool with
  | error e =>
    rw [h] at hrun
    cases hrun
  | ok b =>
    rw [h] at hrun
    refine ⟨b, rfl, of_decide_eq_true hrun, fun hlaw => ?_⟩
    exact absurd (nodup_of_fieldsFaithful (struct?_of_compile h (k := 0) rfl) hlaw) (by decide)

end Machine

end Scriptlet
