import Scriptlet.Proofs.Code.Blocks
import Scriptlet.Proofs.Ideal.LockStep
import Scriptlet.Proofs.Machine.Backed

/-!
# Names read back what was assigned to them

`Machine.Sound` holds along every run from a new machine, as long as there are slots for objects. From
a sound machine the instructions that names are compiled to run without a fault, and `Goes` says where
a number of such steps lead. `PlaceHolds` is where both sides meet: storing to a name makes its place
hold the value (`SoundFor.goes_store`), and reading the name gives what its place holds
(`SoundFor.goes_load`). The one name that is read from elsewhere is that of a declared function, which
a store takes for a global.

Main statement: `Program.assigned_name_reads_back_iff`, for every block of a program and every run
that comes to the assignment.
-/

namespace Scriptlet

open Compile

namespace Machine

/-- The machine counts exactly and stands for an ideal state, as every machine does that runs from its
start, and handles are not used twice. -/
structure Sound (m : Machine) : Prop where
  counted : m.Counted [] []
  ideal : ∃ σ ρ s, Ideal.Sim σ ρ m s
  slots : m.heap.slots.size < 2 ^ 32

variable {m m' : Machine}

theorem sound_new (b : Bytecode) (cfg : Config) : (new b cfg).Sound :=
  ⟨counted_new b cfg, ⟨_, _, _, Ideal.sim_new b cfg⟩, Nat.two_pow_pos 32⟩

theorem Sound.after (hm : m.Sound) (n : Nat) (hs : (m.after n).heap.slots.size < 2 ^ 32) :
    (m.after n).Sound := by
  obtain ⟨σ, ρ, s, hsim⟩ := hm.ideal
  obtain ⟨ρ', s', hsim', -⟩ := hsim.exists_after (I := fun _ => True) (fun _ _ _ => trivial) hm.counted
    trivial n hs
  exact ⟨(hm.counted.after n hs).1, ⟨σ, ρ', s', hsim'⟩, hs⟩

/-- The collection that may be due before an instruction does no harm. -/
theorem Sound.collected (hm : m.Sound) (pc : Nat) (events : Array Event) :
    ({ m with heap := m.collectIfDue.heap, pc, events } : Machine).Sound := by
  obtain ⟨σ, ρ, s, hsim⟩ := hm.ideal
  obtain ⟨ρ', hsim'⟩ := hsim.collectIfDue hm.counted
  obtain ⟨events', he⟩ := m.collectIfDue_eq
  have hc := hm.counted.collectIfDue
  rw [he] at hc hsim'
  refine ⟨hc.reframe rfl rfl fun _ hx => hx, ⟨σ, ρ', { s with pc }, { hsim' with pc := rfl }⟩, ?_⟩
  rw [m.size_collectIfDue]
  exact hm.slots

/-- A constant is the string of its symbol. -/
theorem Sound.string? (hm : m.Sound) {c : Symbol} {x : Handle} (hx : m.constants.lookup c = some x) :
    m.heap.string? (.object x) = some (m.bytecode.text c) := by
  obtain ⟨σ, ρ, s, hsim⟩ := hm.ideal
  obtain ⟨o, o', ho, ho', hrel⟩ := hsim.objects _ _ ((hsim.constants c x).2 hx)
  cases ho'
  cases hrel
  rw [Heap.string?, Value.handle?, Option.bind_some, ho, hsim.text]

theorem Sound.contains_operand (hm : m.Sound) {x : Handle} (hx : .object x ∈ m.frame.operands) :
    m.heap.contains x = true := by
  refine hm.counted.operands x ?_
  rw [List.nil_append, Exec.pinned_eq]
  exact List.mem_append_left _ (Value.mem_handles.2 hx)

/-! ## Instructions -/

end Machine

namespace Exec

variable {m : Machine} {v w : Value} {vs : List Value} {x : Handle}

theorem run_setLocal (hm : m.Sound) (hops : m.frame.operands = v :: vs) (slot : UInt8) :
    ∃ heap, execute (.setLocal slot) m = .ok () { m with
      heap, frame := storeLocal slot.toNat v { m.frame with operands := vs } } := by
  have hv : ∀ x, v = .object x → m.heap.contains x = true := fun x hx =>
    hm.contains_operand (by rw [hops, hx]; exact List.mem_cons_self)
  obtain ⟨h₁, hr₁, hrec⟩ := Heap.recounts_retain hv
  let stored : Machine := { m with
    frame := storeLocal slot.toNat v { m.frame with operands := vs } }
  rw [execute, run_bind_ok (run_pop_cons hops), setLocal_eq, run_get_bind]
  cases hold : m.frame.locals[slot.toNat]? with
  | none => exact ⟨h₁, run_onHeap_ok (m := stored) hr₁⟩
  | some old =>
    have hlive : ∀ x, old = .object x → h₁.contains x = true := fun x hx => by
      rw [hrec.contains]
      refine hm.counted.contains_owner (Machine.mem_owners_of_local hold ?_)
      rw [Value.mem_handles, hx]
      exact List.mem_singleton_self _
    obtain ⟨h₂, hr₂, -⟩ := Heap.recounts_release hlive
    have hretain := run_onHeap_ok (m := { m with frame := { m.frame with operands := vs } }) hr₁
    exact ⟨h₂, (run_bind_ok hretain _).trans (run_onHeap_ok (m := { stored with heap := h₁ }) hr₂)⟩

theorem run_getLocal {slot : UInt8} (hv : m.frame.locals[slot.toNat]? = some v) :
    execute (.getLocal slot) m = .ok () { m with
      frame := { m.frame with operands := v :: m.frame.operands } } := by
  rw [execute, getLocal, run_get_bind, hv]
  rfl

theorem run_constant (hm : m.Sound) (c : Symbol) :
    ∃ x heap constants, constant c m = .ok x { m with heap, constants } ∧
      constants.lookup c = some x := by
  cases hx : m.constants.lookup c with
  | some x =>
    refine ⟨x, m.heap, m.constants, ?_, hx⟩
    rw [constant, run_get_bind, hx]
    rfl
  | none =>
    let o : Object := .string (m.bytecode.text c)
    have hlive : ∀ x, Value.object (m.heap.allocate o).1 = .object x →
        (m.heap.allocate o).2.contains x = true := fun x hx => by
      cases hx
      rw [Heap.contains, Heap.find?_allocate_eq hm.counted.exact.wellFormed hm.slots, if_pos rfl]
      rfl
    obtain ⟨heap, hr, -⟩ := Heap.recounts_retain hlive
    refine ⟨(m.heap.allocate o).1, heap, (c, (m.heap.allocate o).1) :: m.constants, ?_, ?_⟩
    · rw [constant, run_get_bind, hx]
      dsimp only
      rw [run_get_bind, run_bind_ok (run_allocate _ m), run_bind_ok (run_onHeap_ok hr)]
      rfl
    · exact List.lookup_cons_self

theorem run_pushString (hm : m.Sound) (c : Symbol) :
    ∃ x heap constants, execute (.pushString c) m = .ok () { m with
      heap, constants, frame := { m.frame with operands := .object x :: m.frame.operands } } ∧
      constants.lookup c = some x := by
  obtain ⟨x, heap, constants, hr, hx⟩ := run_constant hm c
  refine ⟨x, heap, constants, ?_, hx⟩
  rw [execute, run_bind_ok hr]
  rfl

theorem run_popString (hops : m.frame.operands = .object x :: vs) {text : String}
    (hx : m.heap.string? (.object x) = some text) :
    popString m = .ok text { m with frame := { m.frame with operands := vs } } := by
  rw [popString, run_bind_ok (run_pop_cons hops), run_get_bind, hx]
  rfl

theorem run_setGlobal (hm : m.Sound) (hops : m.frame.operands = .object x :: v :: vs) {text : String}
    (hx : m.heap.string? (.object x) = some text) :
    ∃ heap, execute .setGlobal m = .ok () { m with
      heap, globals := m.globals.insert text v, frame := { m.frame with operands := vs } } := by
  have hv : ∀ y, v = .object y → m.heap.contains y = true := fun y hy =>
    hm.contains_operand (by rw [hops, hy]; exact List.mem_cons_of_mem _ List.mem_cons_self)
  obtain ⟨h₁, hr₁, hrec⟩ := Heap.recounts_retain hv
  let popped : Machine := { m with frame := { m.frame with operands := vs } }
  have hpop := run_pop_cons (m := { m with frame := { m.frame with operands := v :: vs } }) rfl
  have hstart : execute .setGlobal m = setGlobal text v popped := by
    rw [execute, run_bind_ok (run_popString hops hx), run_bind_ok hpop]
  have hretain := run_onHeap_ok (m := popped) hr₁
  rw [hstart, setGlobal, run_bind_ok hretain, run_get_bind, run_bind_ok (run_modify _ _)]
  cases hold : m.globals.find? text with
  | none => exact ⟨h₁, rfl⟩
  | some old =>
    have hlive : ∀ y, old = .object y → h₁.contains y = true := fun y hy => by
      rw [hrec.contains]
      refine hm.counted.contains_owner (Machine.mem_owners_of_global hold ?_)
      rw [Value.mem_handles, hy]
      exact List.mem_singleton_self _
    obtain ⟨h₂, hr₂, -⟩ := Heap.recounts_release hlive
    exact ⟨h₂, run_onHeap_ok
      (m := { popped with heap := h₁, globals := m.globals.insert text v }) hr₂⟩

theorem run_getGlobal (hops : m.frame.operands = .object x :: vs) {text : String}
    (hx : m.heap.string? (.object x) = some text) (hv : m.globals.find? text = some v) :
    execute .getGlobal m = .ok () { m with frame := { m.frame with operands := v :: vs } } := by
  rw [execute, getGlobal, run_bind_ok (run_popString hops hx), run_get_bind, hv]
  rfl

end Exec

/-! ## Steps -/

namespace Machine

variable {m m' m'' : Machine} {k l n : Nat}

/-- The machine is sound, and so are those after the next steps. -/
structure SoundFor (n : Nat) (m : Machine) : Prop where
  sound : m.Sound
  slots : (m.after n).heap.slots.size < 2 ^ 32

theorem after_succ (m : Machine) : ∀ n : Nat, m.after (n + 1) = m.next.after n
  | 0 => rfl
  | n + 1 => congrArg next (after_succ m n)

theorem SoundFor.step (hm : m.SoundFor (n + 1)) {status : Status} (h : step m = .ok status m') :
    m'.SoundFor n := by
  have hnext : m.next = m' := by rw [next, h]
  have hslots := hm.slots
  rw [after_succ, hnext] at hslots
  have hle := (m'.extends_after n).slots
  have hsound := hm.sound.after 1 (by rw [after, after, hnext]; omega)
  rw [after, after, hnext] at hsound
  exact ⟨hsound, hslots⟩

theorem SoundFor.pred (hm : m.SoundFor (n + 1)) : m.SoundFor n :=
  ⟨hm.sound, Nat.lt_of_le_of_lt (m.after n).extends_next.slots hm.slots⟩

/-- A number of steps without a fault, after none of which the machine is halted. -/
inductive Leads : Nat → Machine → Machine → Prop
  | refl (m : Machine) : Leads 0 m m
  | step {n : Nat} {m m₁ m' : Machine} (h : step m = .ok .ready m₁) (hrest : Leads n m₁ m') :
    Leads (n + 1) m m'

theorem Leads.single (h : Machine.step m = .ok .ready m') : Leads 1 m m' := .step h (.refl m')

theorem Leads.trans (h₁ : Leads k m m') (h₂ : Leads l m' m'') : Leads (k + l) m m'' := by
  induction h₁ with
  | refl m => rwa [Nat.zero_add]
  | step h _ ih =>
    rw [Nat.add_right_comm]
    exact .step h (ih h₂)

theorem Leads.stepTimes (h : Leads k m m') (hready : m'.status = .ready) :
    stepTimes k m = .ok .ready m' := by
  induction h with
  | refl m => exact hready ▸ rfl
  | @step n m m₁ m' h hrest ih =>
    -- the last of the steps is the answer, and the others are forgotten
    have hunfold : ∀ k, Machine.stepTimes (k + 1) m =
        if k = 0 then .ok .ready m₁ else Machine.stepTimes k m₁ := fun k => by
      simp only [Machine.stepTimes, h]
    cases n with
    | zero =>
      cases hrest
      rw [hunfold, if_pos rfl]
    | succ n => rw [hunfold, if_neg (Nat.succ_ne_zero n), ih hready]

/-- A number of steps leads to an offset, without a fault and in the same call, and leaves some
operands. -/
structure Goes (k : Nat) (m : Machine) (stop : Nat) (vs : List Value) (m' : Machine) : Prop where
  leads : Leads k m m'
  bytecode : m'.bytecode = m.bytecode
  callers : m'.callers = m.callers
  ready : m'.status = .ready
  pc : m'.pc = stop
  operands : m'.frame.operands = vs

theorem Goes.trans {stop stop' : Nat} {vs vs' : List Value} (h₁ : Goes k m stop vs m')
    (h₂ : Goes l m' stop' vs' m'') : Goes (k + l) m stop' vs' m'' :=
  ⟨h₁.leads.trans h₂.leads, h₂.bytecode.trans h₁.bytecode, h₂.callers.trans h₁.callers, h₂.ready,
    h₂.pc, h₂.operands⟩

/-- A step from a sound machine runs the instruction on a sound machine that differs in its heap. -/
theorem Sound.goes (hm : m.Sound) (hready : m.status = .ready) {i : Instruction}
    (hd : Instruction.decode m.bytecode.code m.pc = .instruction i) :
    ∃ heap events, ({ m with heap, pc := m.pc + i.width, events } : Machine).Sound ∧
      ∀ m', Exec.execute i { m with heap, pc := m.pc + i.width, events } = .ok () m' →
        m'.status = .ready → step m = .ok .ready m' := by
  obtain ⟨events, hstep⟩ := step_of_decode hready hd
  refine ⟨m.collectIfDue.heap, events, hm.collected _ _, fun m' h hready' => ?_⟩
  rw [← hready']
  exact (hstep _ rfl).1 m' h

/-! ## Names -/

/-- The place of a name holds a value: its slot if it is a variable, else the global. -/
def PlaceHolds (sc : Scope) (x : Symbol) (v : Value) (m : Machine) : Prop :=
  match sc.slot? x with
  | some slot => m.frame.locals[slot.toNat]? = some v
  | none => m.globals.find? (m.bytecode.text x) = some v

section names

variable {env : Env} {sc : Scope} {x : Symbol} {span : Span} {loop : LoopAddresses} {v : Value}
  {vs : List Value}

/-- The name of a global is pushed first, as a constant. -/
theorem SoundFor.goes_name (hm : m.SoundFor (n + 1)) (hready : m.status = .ready)
    (hd : Instruction.decode m.bytecode.code m.pc = .instruction (.pushString x)) :
    ∃ h m', Goes 1 m (m.pc + 5) (.object h :: m.frame.operands) m' ∧ m'.globals = m.globals ∧
      m'.constants.lookup x = some h ∧ m'.SoundFor n := by
  obtain ⟨heap, events, hm₀, hstep⟩ := hm.sound.goes hready hd
  obtain ⟨h, heap', constants, hr, hh⟩ := Exec.run_pushString hm₀ x
  have hnext := hstep _ hr hready
  exact ⟨h, _, ⟨.single hnext, rfl, rfl, hready, rfl, rfl⟩, rfl, hh, hm.step hnext⟩

theorem SoundFor.goes_setGlobal (hm : m.SoundFor (n + 1)) (hready : m.status = .ready)
    (hd : Instruction.decode m.bytecode.code m.pc = .instruction .setGlobal) {h : Handle}
    (hops : m.frame.operands = .object h :: v :: vs) (hh : m.constants.lookup x = some h) :
    ∃ m', Goes 1 m (m.pc + 1) vs m' ∧ m'.globals.find? (m'.bytecode.text x) = some v ∧
      m'.SoundFor n := by
  obtain ⟨heap, events, hm₀, hstep⟩ := hm.sound.goes hready hd
  obtain ⟨heap', hr⟩ := Exec.run_setGlobal hm₀ hops (hm₀.string? hh)
  have hnext := hstep _ hr hready
  exact ⟨_, ⟨.single hnext, rfl, rfl, hready, rfl, rfl⟩, Bindings.find?_insert_self _ _ _,
    hm.step hnext⟩

theorem SoundFor.goes_getGlobal (hm : m.SoundFor (n + 1)) (hready : m.status = .ready)
    (hd : Instruction.decode m.bytecode.code m.pc = .instruction .getGlobal) {h : Handle}
    (hops : m.frame.operands = .object h :: vs) (hh : m.constants.lookup x = some h)
    (hv : m.globals.find? (m.bytecode.text x) = some v) :
    ∃ m', Goes 1 m (m.pc + 1) (v :: vs) m' ∧ m'.SoundFor n := by
  obtain ⟨heap, events, hm₀, hstep⟩ := hm.sound.goes hready hd
  have hnext := hstep _ (Exec.run_getGlobal hops (hm₀.string? hh) hv) hready
  exact ⟨_, ⟨.single hnext, rfl, rfl, hready, rfl, rfl⟩, hm.step hnext⟩

theorem SoundFor.goes_setLocal {slot : UInt8} (hm : m.SoundFor (n + 1)) (hready : m.status = .ready)
    (hd : Instruction.decode m.bytecode.code m.pc = .instruction (.setLocal slot))
    (hops : m.frame.operands = v :: vs) :
    ∃ m', Goes 1 m (m.pc + 2) vs m' ∧ m'.frame.locals[slot.toNat]? = some v ∧ m'.SoundFor n := by
  obtain ⟨heap, events, hm₀, hstep⟩ := hm.sound.goes hready hd
  obtain ⟨heap', hr⟩ := Exec.run_setLocal hm₀ hops slot
  have hnext := hstep _ hr hready
  exact ⟨_, ⟨.single hnext, rfl, rfl, hready, rfl, rfl⟩,
    (Exec.getElem?_storeLocal ..).trans (if_pos rfl), hm.step hnext⟩

theorem SoundFor.goes_getLocal {slot : UInt8} (hm : m.SoundFor (n + 1)) (hready : m.status = .ready)
    (hd : Instruction.decode m.bytecode.code m.pc = .instruction (.getLocal slot))
    (hv : m.frame.locals[slot.toNat]? = some v) :
    ∃ m', Goes 1 m (m.pc + 2) (v :: m.frame.operands) m' ∧ m'.SoundFor n := by
  obtain ⟨heap, events, hm₀, hstep⟩ := hm.sound.goes hready hd
  have hnext := hstep _ (Exec.run_getLocal hv) hready
  exact ⟨_, ⟨.single hnext, rfl, rfl, hready, rfl, rfl⟩, hm.step hnext⟩

/-- A function reference is new, so it is none of the values that globals hold. -/
theorem SoundFor.goes_pushFunction {id : UInt32} (hm : m.SoundFor (n + 1))
    (hready : m.status = .ready)
    (hd : Instruction.decode m.bytecode.code m.pc = .instruction (.pushFunction id)) :
    ∃ m' w, Goes 1 m (m.pc + 5) (w :: m.frame.operands) m' ∧
      (∀ name, m.globals.find? name ≠ some w) ∧ m'.SoundFor n := by
  obtain ⟨heap, events, hm₀, hstep⟩ := hm.sound.goes hready hd
  have hnext := hstep _ rfl hready
  refine ⟨_, _, ⟨.single hnext, rfl, rfl, hready, rfl, rfl⟩, fun name hname => ?_, hm.step hnext⟩
  -- a global that held it would hold a live handle, and the handle was free
  have hlive := hm₀.counted.contains_owner (Machine.mem_owners_of_global
    (m := { m with heap, pc := m.pc + 5, events }) hname
    (Value.mem_handles.2 (List.mem_singleton_self _)))
  obtain ⟨c, hc⟩ := Heap.contains_iff.1 hlive
  have hnew := Heap.find?_new hm₀.counted.exact.wellFormed hm₀.slots (.function (.declared id) none)
  cases hnew.symm.trans hc

/-- Storing an operand in a name. -/
theorem SoundFor.goes_store {p : Place} (hm : m.SoundFor (n + 2)) (hready : m.status = .ready)
    (hp : PlaceCode env sc (.name x span) p) (hpl : p.store.Placed m.bytecode.code m.pc loop)
    (hops : m.frame.operands = v :: vs) :
    ∃ k ≤ 2, ∃ m', Goes k m (m.pc + p.store.size) vs m' ∧ m'.PlaceHolds sc x v ∧ m'.SoundFor n := by
  unfold PlaceHolds
  cases hp with
  | slot hslot =>
    obtain ⟨-, hd⟩ := hpl.emit Fragment.tidy_empty
    obtain ⟨m₁, hgoes, hv, hm₁⟩ := hm.goes_setLocal hready hd hops
    refine ⟨1, by omega, m₁, hgoes, ?_, hm₁.pred⟩
    rw [hslot]
    exact hv
  | global hslot =>
    obtain ⟨hpn, hset⟩ := hpl.emit (Fragment.tidy_empty.emit _)
    obtain ⟨-, hname⟩ := hpn.emit Fragment.tidy_empty
    obtain ⟨h, m₁, hgoes, -, hh, hm₁⟩ := hm.goes_name hready hname
    change Instruction.decode m.bytecode.code (m.pc + 5) = _ at hset
    rw [← hgoes.bytecode, ← hgoes.pc] at hset
    have hops₁ := hgoes.operands
    rw [hops] at hops₁
    obtain ⟨m₂, hgoes₂, hv, hm₂⟩ := hm₁.goes_setGlobal hgoes.ready hset hops₁ hh
    rw [hgoes.pc] at hgoes₂
    refine ⟨2, Nat.le_refl 2, m₂, hgoes.trans hgoes₂, ?_, hm₂⟩
    rw [hslot]
    exact hv

/-- Reading a name whose place holds a value gives that value, unless the name is that of a declared
function, which gives a new reference. -/
theorem SoundFor.goes_load (hm : m.SoundFor (n + 2)) (hready : m.status = .ready)
    (hpl : (readName env sc x span).Placed m.bytecode.code m.pc loop) (hv : m.PlaceHolds sc x v) :
    ∃ k ≤ 2, ∃ m' w, Goes k m (m.pc + (readName env sc x span).size) (w :: m.frame.operands) m' ∧
      (w = v ↔ directCallee? env sc (.name x span) = none) ∧ m'.SoundFor n := by
  unfold PlaceHolds at hv
  unfold readName at hpl ⊢
  unfold directCallee?
  cases hslot : sc.slot? x with
  | some slot =>
    simp only [hslot] at hv hpl ⊢
    obtain ⟨-, hd⟩ := hpl.emit Fragment.tidy_empty
    obtain ⟨m₁, hgoes, hm₁⟩ := hm.goes_getLocal hready hd hv
    exact ⟨1, by omega, m₁, v, hgoes, by simp, hm₁.pred⟩
  | none =>
    simp only [hslot] at hv hpl ⊢
    cases hf : env.prototypes.function? x with
    | some f =>
      simp only [hf] at hpl ⊢
      obtain ⟨-, hd⟩ := hpl.emit Fragment.tidy_empty
      obtain ⟨m₁, w, hgoes, hnew, hm₁⟩ := hm.goes_pushFunction hready hd
      refine ⟨1, by omega, m₁, w, hgoes, ?_, hm₁.pred⟩
      have hne : w ≠ v := fun hw => hnew _ (hw ▸ hv)
      simp [hne]
    | none =>
      simp only [hf] at hpl ⊢
      obtain ⟨hpn, hget⟩ := hpl.emitAt (Fragment.tidy_empty.emit _)
      obtain ⟨-, hname⟩ := hpn.emit Fragment.tidy_empty
      obtain ⟨h, m₁, hgoes, hglobals, hh, hm₁⟩ := hm.goes_name hready hname
      change Instruction.decode m.bytecode.code (m.pc + 5) = _ at hget
      rw [← hgoes.bytecode, ← hgoes.pc] at hget
      rw [← hgoes.bytecode, ← hglobals] at hv
      obtain ⟨m₂, hgoes₂, hm₂⟩ := hm₁.goes_getGlobal hgoes.ready hget hgoes.operands hh hv
      rw [hgoes.pc] at hgoes₂
      refine ⟨2, Nat.le_refl 2, m₂, v, ?_, by simp, hm₂⟩
      rw [Fragment.size_emitAt]
      exact hgoes.trans hgoes₂

/-- A store to a name, and a declaration that reads the name right behind it. -/
theorem SoundFor.goes_readBack {p : Place} {r : UInt8} {span' : Span} (hm : m.SoundFor 5)
    (hready : m.status = .ready) (hp : PlaceCode env sc (.name x span') p)
    (hps : p.store.Placed m.bytecode.code m.pc loop)
    (hpl : (readName env sc x span).Placed m.bytecode.code (m.pc + p.store.size) loop)
    (hd : Instruction.decode m.bytecode.code (m.pc + p.store.size + (readName env sc x span).size) =
      .instruction (.setLocal r)) (hops : m.frame.operands = v :: vs) :
    ∃ k ≤ 5, ∃ m' w, Goes k m (m.pc + p.store.size + (readName env sc x span).size + 2) vs m' ∧
      m'.frame.locals[r.toNat]? = some w ∧ (w = v ↔ directCallee? env sc (.name x span) = none) := by
  obtain ⟨k₁, hk₁, m₁, hstore, hholds, hm₁⟩ := hm.goes_store (n := 3) hready hp hps hops
  rw [← hstore.bytecode, ← hstore.pc] at hpl hd
  obtain ⟨k₂, hk₂, m₂, w, hload, hw, hm₂⟩ := hm₁.goes_load (n := 1) hstore.ready hpl hholds
  rw [← hload.bytecode, ← hload.pc] at hd
  rw [hstore.operands] at hload
  obtain ⟨m₃, hset, hr, -⟩ := hm₂.goes_setLocal (n := 0) hload.ready hd hload.operands
  rw [hload.pc, hstore.pc] at hset
  exact ⟨k₁ + k₂ + 1, by omega, m₃, w, (hstore.trans hload).trans hset, hr, hw⟩

end names

end Machine

/-! ## Programs -/

/-- After `x = e; let r = x;` anywhere in a program, whatever run comes to the store with the value
`v`: no fault follows, and the slot of `r` holds some `w`, which is `v` exactly if `x` is not the name
of a declared function that no variable hides. -/
theorem Program.assigned_name_reads_back_iff {p : Program} {pool : Pool} {b : Bytecode}
    {prototypes : Prototypes} (h : p.compile pool = .ok b) (hreg : register p pool = .ok prototypes)
    {base : Nat} {sc : Scope} {x r : Symbol} {e : Expr} {rest : List Stmt} {s₁ s₂ s₃ s₄ : Span}
    (hat : p.BlockAt b ⟨pool, prototypes⟩ base sc
      (.assign (.name x s₁) none e s₂ :: .declare r (.name x s₃) s₄ :: rest)) :
    let env : Env := ⟨pool, prototypes⟩
    ∃ fe fa fr next slot, expr env sc e = .ok fe ∧
      stmt env sc (.assign (.name x s₁) none e s₂) = .ok (fa, sc) ∧
      stmt env sc (.declare r (.name x s₃) s₄) = .ok (fr, next) ∧ next.slot? r = some slot ∧
      ∀ (cfg : Config) (n : Nat) (v : Value) (vs : List Value),
        let m := (Machine.new b cfg).after n
        m.status = .ready → m.pc = base + fe.size → m.frame.operands = v :: vs →
        (m.after 5).heap.slots.size < 2 ^ 32 →
        ∃ k ≤ 5, ∃ m' w, Machine.stepTimes k m = .ok .ready m' ∧ m'.callers = m.callers ∧
          m'.pc = base + fa.size + fr.size ∧ m'.frame.operands = vs ∧
          m'.frame.locals[slot.toNat]? = some w ∧
          (w = v ↔ directCallee? env sc (.name x s₁) = none) := by
  intro env
  obtain ⟨env', hi⟩ := image_of_compile h
  -- there is one environment only, since registering is a function
  have henv : env' = env := by
    obtain ⟨pool', prototypes'⟩ := env'
    cases hi.texts
    cases hreg.symm.trans hi.registered
    rfl
  subst henv
  obtain ⟨f, last, loop, hf, hpf⟩ := hat.placed hi
  obtain ⟨fa, next₁, f₁, ha, hf₁, rfl⟩ := stmts_cons hf
  obtain ⟨fr, next, f₂, hr, -, rfl⟩ := stmts_cons hf₁
  obtain ⟨hpa, hprest⟩ := hpf.append (stmt_tidy ha)
  -- the value and the store, then the reading and the store to the new slot
  cases stmt_code ha with
  | @assign _ _ _ place fe hplace he =>
  cases stmt_code hr with
  | @declare _ _ _ fx slot _ hx hdecl =>
  have hpr := (hprest.append (stmt_tidy hr)).1
  obtain ⟨hpx, hd⟩ := hpr.emit ((Fragment.tidy_empty.mark _).append (expr_tidy hx))
  have hps := (hpa.append ((Fragment.tidy_empty.mark _).append (expr_tidy he))).2
  have hpx' := placed_mark_append hpx
  rw [expr] at hx
  cases hx
  rw [size_mark_append] at hps hd
  rw [Fragment.size_append, size_mark_append, ← Nat.add_assoc] at hd hpx'
  refine ⟨fe, _, _, next, slot, he, ha, hr, Scope.slot?_declare hdecl, ?_⟩
  intro cfg n v vs m hready hpc hops hslots
  have hcode : m.bytecode = b := ((Machine.new b cfg).extends_after n).bytecode
  have hsound : m.Sound := (Machine.sound_new b cfg).after n
    (Nat.lt_of_le_of_lt (m.extends_after 5).slots hslots)
  rw [← hcode, ← hpc] at hps hpx' hd
  obtain ⟨k, hk, m', w, hgoes, hw, hiff⟩ :=
    Machine.SoundFor.goes_readBack ⟨hsound, hslots⟩ hready hplace hps hpx' hd hops
  refine ⟨k, hk, m', w, hgoes.leads.stepTimes hgoes.ready, hgoes.callers, ?_, hgoes.operands, hw, hiff⟩
  rw [hgoes.pc, hpc, Fragment.size_emit, Fragment.size_append, size_mark_append, size_mark_append]
  simp only [Nat.add_assoc]
  rfl

/-- `let x = 1; { let x = 2; x = 7; let r = x; }` -/
def Program.shadowing : Program :=
  ⟨[.declare 0 (.literal (.int 1) {}) {},
    .block [.declare 0 (.literal (.int 2) {}) {}, .assign (.name 0 {}) none (.literal (.int 7) {}) {},
      .declare 1 (.name 0 {}) {}] {}]⟩

/-- The inner variable is assigned, and the inner variable is read. -/
theorem Program.assigned_name_reads_back_shadowing :
    ∃ b, shadowing.compile {} = .ok b ∧
      let m := (Machine.new b {}).after 5
      m.pc = 19 ∧ m.frame.operands = [.int 7] ∧
      ∃ k ≤ 5, ∃ m', Machine.stepTimes k m = .ok .ready m' ∧ m'.pc = 25 ∧
        m'.frame.locals[2]? = some (.int 7) := by
  have hrun : (shadowing.compile {}).toOption.any (fun b =>
      let m := (Machine.new b {}).after 5
      m.status = .ready ∧ m.pc = 19 ∧ m.frame.operands = [.int 7] ∧
        (m.after 5).heap.slots.size < 2 ^ 32) = true := by decide +kernel
  cases h : shadowing.compile {} with
  | error e =>
    rw [h] at hrun
    cases hrun
  | ok b =>
    rw [h] at hrun
    obtain ⟨hready, hpc, hops, hslots⟩ := of_decide_eq_true hrun
    have hmain : shadowing.BlockAt b ⟨{}, .empty⟩ 0 _ _ := .main
    have hblock := (hmain.next rfl).block
    obtain ⟨fe, fa, fr, next, slot, he, ha, hr, hslot, hrest⟩ :=
      assigned_name_reads_back_iff h rfl (hblock.next rfl)
    cases he
    cases ha
    cases hr
    cases hslot
    obtain ⟨k, hk, m', w, hsteps, -, hpc', -, hw, hiff⟩ := hrest {} 5 (.int 7) [] hready hpc hops hslots
    rw [hiff.2 rfl] at hw
    exact ⟨b, rfl, hpc, hops, k, hk, m', hsteps, hpc', hw⟩

/-- `func f() { } f = 1; let r = f;` -/
def Program.assignedFunction : Program :=
  ⟨[.function ⟨0, [], none, [], {}⟩ {}, .assign (.name 0 {}) none (.literal (.int 1) {}) {},
    .declare 1 (.name 0 {}) {}]⟩

/-- The number is stored in the global `f`, and a reference to the function `f` is read. -/
theorem Program.assigned_function_reads_reference :
    ∃ b, assignedFunction.compile {} = .ok b ∧
      let m := (Machine.new b {}).after 1
      m.pc = 5 ∧ m.frame.operands = [.int 1] ∧ m.faultWithin? 4 = none ∧ (m.after 4).pc = 18 ∧
      (m.after 4).frame.locals = #[.object ⟨1, 0⟩] ∧
      (m.after 4).heap.object? ⟨1, 0⟩ = some (.function (.declared 0) none) := by
  have hrun : (assignedFunction.compile {}).toOption.any (fun b =>
      let m := (Machine.new b {}).after 1
      m.pc = 5 ∧ m.frame.operands = [.int 1] ∧ m.faultWithin? 4 = none ∧ (m.after 4).pc = 18 ∧
      (m.after 4).frame.locals = #[.object ⟨1, 0⟩] ∧
      (m.after 4).heap.object? ⟨1, 0⟩ = some (.function (.declared 0) none)) = true := by
    decide +kernel
  cases h : assignedFunction.compile {} with
  | error e =>
    rw [h] at hrun
    cases hrun
  | ok b =>
    rw [h] at hrun
    exact ⟨b, rfl, of_decide_eq_true hrun⟩

end Scriptlet
