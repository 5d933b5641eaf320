import Mathlib.Data.List.Nodup
import Mathlib.Data.List.Perm.Subperm
import Scriptlet.Proofs.Code.Layout
import Scriptlet.Proofs.Ideal.World

/-!
# What a compiled program consists of

`Compile.Image` says what stands where in the code of a program that was compiled: the main
statements at its start, every function where its table entry says, and tables that are those of the
program (`image_of_compile`). Numbers of functions and types are their places in the program, since
names are not registered twice.
-/

namespace Scriptlet

namespace Compile

/-- The first entry that fits, with its place. -/
theorem find?_zipIdx_eq_some {α : Type} {q : α → Bool} {l : List α} {k : Nat} {a : α} {j : Nat}
    (h : (l.zipIdx k).find? (fun f => q f.1) = some (a, j)) :
    ∃ i, j = k + i ∧ l[i]? = some a ∧ q a = true := by
  obtain ⟨hq, as, bs, hl, -⟩ := List.find?_eq_some_iff_append.1 h
  have hmem : (a, j) ∈ l.zipIdx k := by rw [hl]; simp
  obtain ⟨hk, hget⟩ := List.mk_mem_zipIdx_iff_le_and_getElem?_sub.1 hmem
  exact ⟨j - k, by omega, hget, hq⟩

end Compile

namespace Prototypes

variable {p : Prototypes} {name : Symbol}

theorem of_function? {id : UInt32} {e : FunctionEntry} (h : p.function? name = some (id, e)) :
    ∃ i, id = UInt32.ofNat i ∧ p.functions[i]? = some e ∧ e.name = name := by
  unfold function? at h
  obtain ⟨⟨e', j⟩, hf, he⟩ := Option.map_eq_some_iff.1 h
  obtain ⟨i, rfl, hi, hn⟩ :=
    Compile.find?_zipIdx_eq_some (q := fun f : FunctionEntry => decide (f.name = name)) hf
  cases he
  rw [Nat.zero_add]
  exact ⟨i, rfl, by rw [← Array.getElem?_toList, hi], of_decide_eq_true hn⟩

theorem of_struct? {id : UInt32} {e : StructEntry} (h : p.struct? name = some (id, e)) :
    ∃ i, id = UInt32.ofNat i ∧ p.structs[i]? = some e ∧ e.name = name := by
  unfold struct? at h
  obtain ⟨⟨e', j⟩, hf, he⟩ := Option.map_eq_some_iff.1 h
  obtain ⟨i, rfl, hi, hn⟩ :=
    Compile.find?_zipIdx_eq_some (q := fun s : StructEntry => decide (s.name = name)) hf
  cases he
  rw [Nat.zero_add]
  exact ⟨i, rfl, by rw [← Array.getElem?_toList, hi], of_decide_eq_true hn⟩

theorem name_ne_of_function? (h : p.function? name = none) {e : FunctionEntry}
    (he : e ∈ p.functions.toList) : e.name ≠ name := by
  have hnone := List.find?_eq_none.1 (Option.map_eq_none_iff.1 h)
  obtain ⟨i, hi⟩ := List.mem_iff_getElem?.1 he
  have := hnone (e, i) (List.mk_mem_zipIdx_iff_getElem?.2 hi)
  simpa using this

theorem name_ne_of_struct? (h : p.struct? name = none) {e : StructEntry}
    (he : e ∈ p.structs.toList) : e.name ≠ name := by
  have hnone := List.find?_eq_none.1 (Option.map_eq_none_iff.1 h)
  obtain ⟨i, hi⟩ := List.mem_iff_getElem?.1 he
  have := hnone (e, i) (List.mk_mem_zipIdx_iff_getElem?.2 hi)
  simpa using this

/-- No function and no type is registered twice. -/
structure Distinct (p : Prototypes) : Prop where
  functions : (p.functions.toList.map FunctionEntry.name).Nodup
  structs : (p.structs.toList.map StructEntry.name).Nodup

/-- Names that are all different fit into their numbers. -/
theorem length_le_of_nodup {names : List Symbol} (h : names.Nodup) : names.length ≤ 2 ^ 32 := by
  have hinj : (names.map UInt32.toNat).Nodup := h.map fun a b hab => UInt32.toNat_inj.1 hab
  have hsub : names.map UInt32.toNat ⊆ List.range (2 ^ 32) := fun n hn => by
    obtain ⟨a, -, rfl⟩ := List.mem_map.1 hn
    exact List.mem_range.2 a.toNat_lt
  have := (hinj.subperm hsub).length_le
  rwa [List.length_map, List.length_range] at this

theorem Distinct.function?_eq (h : p.Distinct) {i : Nat} {e : FunctionEntry}
    (he : p.functions[i]? = some e) :
    p.function? e.name = some (UInt32.ofNat i, e) ∧ (UInt32.ofNat i).toNat = i := by
  have hlen := length_le_of_nodup h.functions
  have hi := (Array.getElem?_eq_some_iff.1 he).1
  rw [List.length_map, Array.length_toList] at hlen
  refine ⟨?_, by rw [UInt32.toNat_ofNat']; omega⟩
  cases hf : p.function? e.name with
  | none =>
    rw [← Array.getElem?_toList] at he
    exact (name_ne_of_function? hf (List.mem_of_getElem? he) rfl).elim
  | some r =>
    obtain ⟨id, e'⟩ := r
    obtain ⟨j, hid, hj, hn⟩ := of_function? hf
    have hij : i = j := by
      refine (List.getElem?_inj (by simpa using hi) h.functions).1 ?_
      rw [List.getElem?_map, List.getElem?_map, Array.getElem?_toList, Array.getElem?_toList, he, hj]
      simp [hn]
    subst hij
    cases he.symm.trans hj
    rw [← hid]

theorem Distinct.struct?_toNat (h : p.Distinct) {id : UInt32} {e : StructEntry}
    (hs : p.struct? name = some (id, e)) : p.structs[id.toNat]? = some e := by
  obtain ⟨i, rfl, hi, -⟩ := of_struct? hs
  have hlen := length_le_of_nodup h.structs
  have hlt := (Array.getElem?_eq_some_iff.1 hi).1
  rw [List.length_map, Array.length_toList] at hlen
  rw [UInt32.toNat_ofNat', Nat.mod_eq_of_lt (by omega), hi]

theorem Distinct.function?_toNat (h : p.Distinct) {id : UInt32} {e : FunctionEntry}
    (hf : p.function? name = some (id, e)) :
    p.functions[id.toNat]? = some e ∧ e.name = name := by
  obtain ⟨i, rfl, hi, hn⟩ := of_function? hf
  rw [(h.function?_eq hi).2]
  exact ⟨hi, hn⟩

end Prototypes

namespace Compile

/-- The table entry of a type. -/
def structEntry (d : TypeDecl) : StructEntry := ⟨d.name, Prototypes.signature d.fields⟩

/-- The table entry of a function before its place is known. -/
def functionEntry (d : Function) : FunctionEntry := ⟨d.name, Prototypes.signature d.params, 0⟩

theorem registerTypes_ok {pool : Pool} {ds : List TypeDecl} {p q : Prototypes}
    (h : registerTypes pool p ds = .ok q) (hp : p.Distinct) :
    q.Distinct ∧ q.functions = p.functions ∧
      q.structs.toList = p.structs.toList ++ ds.map structEntry := by
  induction ds generalizing p with
  | nil =>
    cases h
    exact ⟨hp, rfl, by simp⟩
  | cons d ds ih =>
    rw [registerTypes] at h
    unfold Prototypes.addStruct? at h
    by_cases hs : (p.struct? d.name).isSome
    · simp only [hs, if_true] at h
      cases h
    · simp only [hs] at h
      have hnone := Option.not_isSome_iff_eq_none.1 hs
      obtain ⟨hq, hf, hst⟩ := ih h ⟨hp.functions, by
        rw [Array.toList_push, List.map_append]
        refine List.nodup_append.2 ⟨hp.structs, List.nodup_singleton _, fun a ha b hb => ?_⟩
        obtain ⟨e, he, rfl⟩ := List.mem_map.1 ha
        cases List.mem_singleton.1 hb
        exact Prototypes.name_ne_of_struct? hnone he⟩
      refine ⟨hq, hf, ?_⟩
      rw [hst, Array.toList_push, List.append_assoc]
      rfl

theorem registerFunctions_ok {pool : Pool} {ds : List Function} {p q : Prototypes}
    (h : registerFunctions pool p ds = .ok q) (hp : p.Distinct) :
    q.Distinct ∧ q.structs = p.structs ∧
      q.functions.toList = p.functions.toList ++ ds.map functionEntry := by
  induction ds generalizing p with
  | nil =>
    cases h
    exact ⟨hp, rfl, by simp⟩
  | cons d ds ih =>
    rw [registerFunctions] at h
    unfold Prototypes.addFunction? at h
    by_cases hs : (p.function? d.name).isSome
    · simp only [hs, if_true] at h
      cases h
    · simp only [hs] at h
      have hnone := Option.not_isSome_iff_eq_none.1 hs
      obtain ⟨hq, hst, hf⟩ := ih h ⟨by
        rw [Array.toList_push, List.map_append]
        refine List.nodup_append.2 ⟨hp.functions, List.nodup_singleton _, fun a ha b hb => ?_⟩
        obtain ⟨e, he, rfl⟩ := List.mem_map.1 ha
        cases List.mem_singleton.1 hb
        exact Prototypes.name_ne_of_function? hnone he, hp.structs⟩
      refine ⟨hq, hst, ?_⟩
      rw [hf, Array.toList_push, List.append_assoc]
      rfl

/-! ## Linking -/

theorem link_ok {out next : PlacedCode} {f : Fragment} (h : link out f = .ok next) (hf : f.Tidy) :
    (∃ more, next.code = out.code ++ more) ∧ next.code.size = out.code.size + f.size ∧
      ∀ loop, f.Placed next.code out.code.size loop := by
  unfold link at h
  cases hp : f.place out.code.size with
  | error r =>
    rw [hp] at h
    cases h
  | ok placed =>
    rw [hp] at h
    cases h
    have hplaced := Fragment.placed_of_place hf hp
    refine ⟨⟨placed.code, rfl⟩, ?_, fun loop => (hplaced loop).1⟩
    rw [Array.size_append, (hplaced ⟨0, 0⟩).2]

theorem functionBody_tidy {env : Env} {d : Function} {f : Fragment}
    (h : functionBody env d = .ok f) : f.Tidy := by
  unfold functionBody at h
  obtain ⟨scope, -, h⟩ := of_bind_ok h
  obtain ⟨⟨fb, last⟩, hb, h⟩ := of_bind_ok h
  cases h
  split
  · exact stmts_tidy hb
  · exact (stmts_tidy hb).emit _

theorem names_setOffset (p : Prototypes) (id : UInt32) (offset : Nat) :
    (p.setOffset id offset).functions.toList.map FunctionEntry.name =
      p.functions.toList.map FunctionEntry.name := by
  refine List.ext_getElem? fun i => ?_
  rw [Prototypes.setOffset, List.getElem?_map, List.getElem?_map, Array.getElem?_toList,
    Array.getElem?_toList, Array.getElem?_modify]
  split
  · cases p.functions[i]? <;> rfl
  · rfl

/-- The bodies of functions stand in a code one behind the other, and a table says where. -/
def BodiesAt (env : Env) (table : Array FunctionEntry) (code : Array UInt8) :
    Nat → Nat → List Function → Prop
  | _, _, [] => True
  | k, offset, d :: ds => ∃ f, table[k]? = some { functionEntry d with offset } ∧
    functionBody env d = .ok f ∧ (∀ loop, f.Placed code offset loop) ∧
    BodiesAt env table code (k + 1) (offset + f.size) ds

theorem linkFunctions_ok {env : Env} {ds : List Function} {k : Nat} {p q : Prototypes}
    {out out' : PlacedCode} (h : linkFunctions env p out ds = .ok (q, out')) (hp : p.Distinct)
    (hds : ∀ j d, ds[j]? = some d → p.functions[k + j]? = some (functionEntry d)) :
    q.structs = p.structs ∧ q.functions.size = p.functions.size ∧
    (∃ more, out'.code = out.code ++ more) ∧
    (∀ i e, p.functions[i]? = some e → i < k → q.functions[i]? = some e) ∧
    BodiesAt env q.functions out'.code k out.code.size ds := by
  induction ds generalizing k p out with
  | nil =>
    rw [linkFunctions] at h
    cases h
    exact ⟨rfl, rfl, ⟨#[], by simp⟩, fun _ _ he _ => he, trivial⟩
  | cons d ds ih =>
    have hentry := hds 0 d rfl
    obtain ⟨hfun, hk⟩ := hp.function?_eq hentry
    change p.function? d.name = _ at hfun
    rw [linkFunctions, hfun] at h
    obtain ⟨f, hf, h⟩ := of_bind_ok h
    obtain ⟨next, hnext, h⟩ := of_bind_ok h
    dsimp only at h
    obtain ⟨⟨more₁, hmore₁⟩, hnextSize, hplaced⟩ := link_ok hnext (functionBody_tidy hf)
    have hget : ∀ i, (p.setOffset (UInt32.ofNat (k + 0)) out.code.size).functions[i]? =
        if k = i then p.functions[i]?.map fun f => { f with offset := out.code.size }
        else p.functions[i]? := fun i => by
      rw [Prototypes.setOffset, hk, Nat.add_zero, Array.getElem?_modify]
    have hdistinct : (p.setOffset (UInt32.ofNat (k + 0)) out.code.size).Distinct :=
      ⟨by rw [names_setOffset]; exact hp.functions, hp.structs⟩
    obtain ⟨hstructs, hsize, ⟨more, hmore⟩, hearlier, hlater⟩ := ih (k := k + 1) h hdistinct
      (fun j d' hd' => by
        rw [hget, if_neg (by omega), show k + 1 + j = k + (j + 1) by omega]
        exact hds (j + 1) d' hd')
    refine ⟨hstructs, ?_, ⟨more₁ ++ more, by rw [hmore, hmore₁, Array.append_assoc]⟩,
      fun i e he hi => ?_, f, ?_, hf, fun loop => ?_, ?_⟩
    · rw [hsize, Prototypes.setOffset, Array.size_modify]
    · exact hearlier i e (by rw [hget, if_neg (by omega), he]) (by omega)
    · refine hearlier k _ ?_ (by omega)
      rw [Nat.add_zero] at hentry
      rw [hget, if_pos rfl, hentry]
      rfl
    · rw [hmore]
      exact (hplaced loop).extend more
    · rw [← hnextSize]
      exact hlater

theorem BodiesAt.get {env : Env} {table : Array FunctionEntry} {code : Array UInt8} {k offset : Nat}
    {ds : List Function} (h : BodiesAt env table code k offset ds) {j : Nat} {d : Function}
    (hd : ds[j]? = some d) : ∃ offset f, table[k + j]? = some { functionEntry d with offset } ∧
      functionBody env d = .ok f ∧ ∀ loop, f.Placed code offset loop := by
  induction ds generalizing k offset j with
  | nil => cases hd
  | cons d' ds ih =>
    obtain ⟨f, he, hf, hp, hrest⟩ := h
    cases j with
    | zero =>
      cases hd
      exact ⟨offset, f, he, hf, hp⟩
    | succ j =>
      have := ih hrest hd
      rwa [show k + 1 + j = k + (j + 1) by omega] at this

/-- What a program declares. -/
def register (p : Program) (pool : Pool) : Except Error Prototypes := do
  let withTypes ← registerTypes pool .empty p.types
  registerFunctions pool withTypes p.functions

/-- What a compiled program consists of. -/
structure Image (p : Program) (pool : Pool) (b : Bytecode) (env : Env) : Prop where
  texts : env.pool = pool
  registered : register p pool = .ok env.prototypes
  distinct : env.prototypes.Distinct
  functions : env.prototypes.functions.toList = p.functions.map functionEntry
  types : env.prototypes.structs.toList = p.types.map structEntry
  strings : b.strings = pool
  structs : b.structs = env.prototypes.structs
  size : b.functions.size = p.functions.length
  code : ∃ f last, stmts env Scope.function p.main = .ok (f, last) ∧
    (∀ loop, (f.emit .halt).Placed b.code 0 loop) ∧
    BodiesAt env b.functions b.code 0 (f.emit .halt).size p.functions

theorem image_of_compile {p : Program} {pool : Pool} {b : Bytecode}
    (h : p.compile pool = .ok b) : ∃ env, Image p pool b env := by
  unfold Program.compile at h
  obtain ⟨withTypes, htypes, h⟩ := of_bind_ok h
  obtain ⟨prototypes, hfunctions, h⟩ := of_bind_ok h
  obtain ⟨main, hmain, h⟩ := of_bind_ok h
  obtain ⟨linked, hlinked, h⟩ := of_bind_ok h
  obtain ⟨⟨tables, out⟩, hout, h⟩ := of_bind_ok h
  cases h
  obtain ⟨hd₁, hf₁, hs₁⟩ := registerTypes_ok htypes ⟨List.nodup_nil, List.nodup_nil⟩
  obtain ⟨hd₂, hs₂, hf₂⟩ := registerFunctions_ok hfunctions hd₁
  rw [hf₁] at hf₂
  change prototypes.functions.toList = [] ++ _ at hf₂
  change withTypes.structs.toList = [] ++ _ at hs₁
  rw [List.nil_append] at hf₂ hs₁
  unfold mainBody at hmain
  obtain ⟨⟨fm, last⟩, hm, hmain⟩ := of_bind_ok hmain
  cases hmain
  obtain ⟨-, hmainSize, hplaced⟩ := link_ok hlinked ((stmts_tidy hm).emit _)
  have hentry : ∀ (i : Nat) (d : Function), p.functions[i]? = some d →
      prototypes.functions[0 + i]? = some (functionEntry d) := fun i d hd => by
    rw [Nat.zero_add, ← Array.getElem?_toList, hf₂, List.getElem?_map, hd]
    rfl
  obtain ⟨hstructs, hsize, ⟨more, hmore⟩, -, hbodies⟩ := linkFunctions_ok (k := 0) hout hd₂ hentry
  refine ⟨_, rfl, ?_, hd₂, hf₂, by rw [hs₂, hs₁], rfl, hstructs, ?_, fm, last, hm, fun loop => ?_, ?_⟩
  · unfold register
    rw [htypes]
    exact hfunctions
  · change tables.functions.size = _
    rw [hsize, ← Array.length_toList, hf₂, List.length_map]
  · change (fm.emit .halt).Placed out.code 0 loop
    rw [hmore]
    exact (hplaced loop).extend more
  · rw [← Nat.zero_add (fm.emit .halt).size]
    exact hmainSize ▸ hbodies

section image

variable {p : Program} {pool : Pool} {b : Bytecode} {env : Env} (hi : Image p pool b env)
include hi

/-- The body of a function of the program. -/
theorem Image.body {i : Nat} {d : Function} (hd : p.functions[i]? = some d) :
    ∃ offset f, b.functions[i]? = some { functionEntry d with offset } ∧
      functionBody env d = .ok f ∧ ∀ loop, f.Placed b.code offset loop := by
  obtain ⟨_, _, _, _, hbodies⟩ := hi.code
  have := hbodies.get hd
  rwa [Nat.zero_add] at this

/-- The declaration of a function of the table. -/
theorem Image.declared {id : UInt32} {f : FunctionEntry} (hf : b.function? id = some f) :
    ∃ d, p.functions[id.toNat]? = some d ∧ f = { functionEntry d with offset := f.offset } := by
  have hlt : id.toNat < b.functions.size := (Array.getElem?_eq_some_iff.1 hf).1
  rw [hi.size] at hlt
  have hd := List.getElem?_eq_getElem hlt
  obtain ⟨offset, fb, he, -⟩ := hi.body hd
  refine ⟨_, hd, ?_⟩
  change b.functions[id.toNat]? = _ at hf
  rw [hf] at he
  cases he
  rfl

/-- The numbers of functions and types. -/
theorem Image.function? {name : Symbol} {id : UInt32} {e : FunctionEntry}
    (h : env.prototypes.function? name = some (id, e)) : ∃ d offset,
      p.functions[id.toNat]? = some d ∧ d.name = name ∧ e = functionEntry d ∧
      b.function? id = some { functionEntry d with offset } := by
  obtain ⟨he, hn⟩ := hi.distinct.function?_toNat h
  rw [← Array.getElem?_toList, hi.functions, List.getElem?_map] at he
  obtain ⟨d, hd, rfl⟩ := Option.map_eq_some_iff.1 he
  obtain ⟨offset, fb, hentry, -⟩ := hi.body hd
  exact ⟨d, offset, hd, hn, rfl, hentry⟩

end image

/-! ## Numbers in the code -/

/-- The numbers that code uses stand for the functions and types of the program, and its jumps can
reach all of it. -/
structure Linked (env : Env) (b : Bytecode) : Prop where
  small : b.size < 2 ^ 32
  function : ∀ name id e, env.prototypes.function? name = some (id, e) →
    ∃ f, b.function? id = some f ∧ f.arity = e.arity
  struct : ∀ name id e, env.prototypes.struct? name = some (id, e) → b.struct? id = some e

theorem linked_of_image {p : Program} {pool : Pool} {b : Bytecode} {env : Env} (hi : Image p pool b env)
    (hsize : b.size < 2 ^ 32) : Linked env b where
  small := hsize
  function name id e h := by
    obtain ⟨d, offset, -, -, rfl, hf⟩ := hi.function? h
    exact ⟨_, hf, rfl⟩
  struct name id e h := by
    rw [Bytecode.struct?, hi.structs]
    exact hi.distinct.struct?_toNat h

section linked

variable {env : Env} {b : Bytecode}

theorem Linked.toNat_address (hb : Linked env b) {t : Nat} (ht : t ≤ b.size) :
    (UInt32.ofNat t).toNat = t := by
  have := hb.small
  rw [UInt32.toNat_ofNat']
  omega

theorem Linked.directCallee (hb : Linked env b) {sc : Scope} {callee : Expr} {name : Symbol} {id : UInt32}
    {arity : Nat} (h : directCallee? env sc callee = some (name, id, arity)) :
    ∃ f, b.function? id = some f ∧ f.arity = arity := by
  cases callee with
  | name =>
    simp only [directCallee?] at h
    split at h
    · cases h
    · obtain ⟨⟨id', e⟩, he, h⟩ := Option.map_eq_some_iff.1 h
      cases h
      exact hb.function _ _ e he
  | _ => cases h

end linked

end Compile

end Scriptlet
