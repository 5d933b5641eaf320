import Scriptlet.Proofs.Code.Discipline
import Scriptlet.Proofs.Code.Origins
import Scriptlet.Proofs.Code.RoundTrip

/-!
# Faults point at the source

Where a compiled program may fault are its `Bytecode.faultPoints`, one for each origin of the program.
A machine that runs it stays at the starts of instructions (`Shaped.atBoundaries`), and of these only
the fault points fault, since all others would fault as malformed code does (`onlyMalformed_execute`).
So every fault has the region of the node that its instruction comes from.

Main statement: `Program.faults_at_source`.
-/

namespace Scriptlet

/-- The instructions of a program that may fault, with their offsets. -/
def Bytecode.faultPoints (b : Bytecode) : List (Nat × Instruction) :=
  b.instructions.filter (·.2.canFault)

/-! ## Instructions that do not fault -/

namespace Ideal

/-- An action that faults as malformed code does only. -/
def OnlyMalformed {α : Type} (act : Act α) : Prop :=
  ∀ s f s', act s = .error f s' → f.isMalformed = true

section onlyMalformed

variable {α β : Type}

theorem onlyMalformed_modify (g : State → State) : OnlyMalformed (modify g : Act Unit) :=
  fun s f s' h => by cases h

theorem onlyMalformed_fault {f : Fault} (hf : f.isMalformed = true) :
    OnlyMalformed (Act.fault f : Act α) := by
  intro s g s' h
  cases h
  exact hf

theorem OnlyMalformed.bind {act : Act α} {k : α → Act β} (h : OnlyMalformed act)
    (hk : ∀ a, OnlyMalformed (k a)) : OnlyMalformed (act >>= k) := by
  intro s f s' hrun
  cases hact : act s with
  | ok a s₁ =>
    rw [Act.run_bind_ok hact] at hrun
    exact hk a s₁ f s' hrun
  | error g s₁ =>
    rw [Act.run_bind_error hact] at hrun
    cases hrun
    exact h s _ _ hact

theorem onlyMalformed_get_bind {k : State → Act α} (hk : ∀ s, OnlyMalformed (k s)) :
    OnlyMalformed (get >>= k) :=
  fun s => hk s s

theorem onlyMalformed_pop : OnlyMalformed Act.pop := by
  intro s f s' h
  unfold Act.pop at h
  split at h
  · cases h
    rfl
  · cases h

theorem onlyMalformed_popN (count : Nat) : OnlyMalformed (Act.popN count) := by
  intro s f s' h
  unfold Act.popN at h
  dsimp only at h
  split at h
  · cases h
    rfl
  · cases h

theorem onlyMalformed_pushNew (o : Obj) : OnlyMalformed (Act.pushNew o) :=
  fun s f s' h => by cases h

theorem onlyMalformed_popString : OnlyMalformed Act.popString := by
  refine onlyMalformed_pop.bind fun v => onlyMalformed_get_bind fun s => ?_
  split
  · exact fun s f s' h => by cases h
  · exact onlyMalformed_fault rfl

theorem onlyMalformed_shrinkLocals (n : Nat) : OnlyMalformed (Act.shrinkLocals n) := by
  induction n with
  | zero => exact fun s f s' h => by cases h
  | succ n ih =>
    refine OnlyMalformed.bind (fun s f s' h => ?_) fun _ => ih
    unfold Act.dropLocal at h
    split at h
    · cases h
    · cases h
      rfl

theorem onlyMalformed_returnValue (v : Val) : OnlyMalformed (Act.returnValue v) := by
  intro s f s' h
  unfold Act.returnValue at h
  split at h
  · cases h
  · cases h

/-- Other instructions fault as malformed code does only. -/
theorem onlyMalformed_execute (σ : Setting) (answer : Int32) {i : Instruction}
    (hi : i.canFault = false) : OnlyMalformed (Act.execute σ answer i) := by
  cases i with
  | pushFunction id => exact onlyMalformed_pushNew _
  | getLocal slot =>
    refine onlyMalformed_get_bind fun s => ?_
    split
    · exact onlyMalformed_modify _
    · exact onlyMalformed_fault rfl
  | setLocal slot => exact onlyMalformed_pop.bind fun v => onlyMalformed_modify _
  | shrinkLocals count => exact onlyMalformed_shrinkLocals _
  | setGlobal =>
    refine onlyMalformed_popString.bind fun name => onlyMalformed_pop.bind fun v => ?_
    exact fun s f s' h => by cases h
  | createArray count => exact (onlyMalformed_popN _).bind fun vs => onlyMalformed_pushNew _
  | ret => exact onlyMalformed_returnValue _
  | retValue => exact onlyMalformed_pop.bind onlyMalformed_returnValue
  | jumpIfFalse target =>
    refine onlyMalformed_pop.bind fun v => ?_
    split
    · exact fun s f s' h => by cases h
    · exact onlyMalformed_modify _
  | drop => exact onlyMalformed_pop.bind fun v => fun s f s' h => by cases h
  | pushNull | pushTrue | pushFalse | pushInt | pushUInt | pushFloat | pushChar | pushString | jump
  | halt => exact onlyMalformed_modify _
  | _ => cases hi

end onlyMalformed

theorem State.execute_of_nextFault? {σ : Setting} {answer : Int32} {s : State} {f : Fault}
    {i : Instruction} (h : s.nextFault? σ answer = some f)
    (hd : Instruction.decode σ.bytecode.code s.pc = .instruction i) :
    s.status = .ready ∧
      ∃ s', Act.execute σ answer i { s with pc := s.pc + i.width } = .error f s' := by
  unfold State.nextFault? at h
  have hready : s.status = .ready := by
    cases hst : s.status with
    | ready => rfl
    | halted =>
      simp only [State.step, hst] at h
      cases h
  have hsize : ¬ σ.bytecode.size ≤ s.pc := Nat.not_le.2 (Instruction.lt_of_decode hd)
  have hstep : s.step σ answer = s.executeNext σ answer := by
    simp only [State.step, hready, if_neg hsize]
  rw [hstep, State.executeNext, hd] at h
  cases hrun : Act.execute σ answer i { s with pc := s.pc + i.width } with
  | ok a s' =>
    simp only [hrun] at h
    cases h
  | error g s' =>
    simp only [hrun] at h
    cases h
    exact ⟨hready, s', rfl⟩

/-- A fault of shaped code is that of an instruction that has a shape and may fault. -/
theorem State.Fits.fault {σ : Setting} {P : Shapes} {s : State} (hP : Shaped σ.bytecode P)
    (hs : s.Fits P) {answer : Int32} {f : Fault} (h : s.nextFault? σ answer = some f) :
    (∃ sh, P s.pc = some sh) ∧
      ∃ i, Instruction.decode σ.bytecode.code s.pc = .instruction i ∧ i.canFault = true := by
  obtain ⟨i, hd, hclean, -⟩ := (hs.step hP answer).2 f h
  obtain ⟨hready, s', hrun⟩ := State.execute_of_nextFault? h hd
  obtain ⟨sh, hsh, -⟩ := hs.frame hready
  refine ⟨⟨sh, hsh⟩, i, hd, ?_⟩
  by_contra hi
  have hmalformed := onlyMalformed_execute σ answer (Bool.eq_false_iff.2 hi) _ _ _ hrun
  rw [hclean] at hmalformed
  cases hmalformed

end Ideal

/-! ## The starts of instructions -/

/-- Where execution goes on inside of well laid code, an instruction starts. -/
theorem Bytecode.WellLaid.goesTo {b : Bytecode} (hw : b.WellLaid) {pc q : Nat} {i : Instruction}
    (hi : (pc, i) ∈ b.instructions) (hq : i.GoesTo pc q) (hlt : q < b.size) :
    ∃ j, (q, j) ∈ b.instructions := by
  rcases hq with rfl | ⟨t, ht, rfl⟩
  · exact (hw.whole.of_mem_next hi).resolve_left (Nat.ne_of_lt hlt)
  · obtain ⟨part, hall, hlaid⟩ := hw.parts
    rw [hall] at hi ⊢
    obtain ⟨x, hx, hi⟩ := List.mem_flatMap.1 hi
    have hsound := (hlaid x hx).sound pc i hi
    obtain ⟨j, hj⟩ : ∃ j, (t.toNat, j) ∈ part x := by
      rcases ht with rfl | rfl
      · exact hsound
      · exact hsound
    exact ⟨j, List.mem_flatMap.2 ⟨x, hx, hj⟩⟩

/-- Shapes for the starts of the instructions of a program only. -/
def Shapes.atBoundaries (P : Shapes) (b : Bytecode) : Shapes := fun pc =>
  if pc ∈ b.instructions.map Prod.fst then P pc else none

theorem Shapes.atBoundaries_eq_some {P : Shapes} {b : Bytecode} {pc : Nat} {sh : Shape} :
    P.atBoundaries b pc = some sh ↔ (∃ i, (pc, i) ∈ b.instructions) ∧ P pc = some sh := by
  unfold atBoundaries
  simp

/-- A program that is laid out well never leaves the starts of its instructions. -/
theorem Shaped.atBoundaries {b : Bytecode} {P : Shapes} (hw : b.WellLaid) (hP : Shaped b P) :
    Shaped b (P.atBoundaries b) := by
  have hlt : ∀ {pc sh}, P pc = some sh → pc < b.size := fun h => by
    obtain ⟨i, hd, -⟩ := hP.admits _ _ h
    exact Instruction.lt_of_decode hd
  refine ⟨fun pc sh hsh => ?_, ?_, fun id f hf => ?_⟩
  · obtain ⟨⟨i, hi⟩, hsh⟩ := Shapes.atBoundaries_eq_some.1 hsh
    obtain ⟨j, hd, hadmits⟩ := hP.admits pc sh hsh
    obtain ⟨-, -, hd'⟩ := hw.whole.of_mem hi
    cases hd.symm.trans hd'
    refine ⟨i, hd, hadmits.imp fun q s hq hs => ?_⟩
    exact Shapes.atBoundaries_eq_some.2 ⟨hw.goesTo hi hq (hlt hs), hs⟩
  · exact Shapes.atBoundaries_eq_some.2 ⟨hw.whole.exists_mem_start (hlt hP.start), hP.start⟩
  · refine Shapes.atBoundaries_eq_some.2 ⟨hw.boundaries f ?_, hP.function id f hf⟩
    exact List.mem_of_getElem? (Array.getElem?_toList.trans hf)

/-! ## Faults of machines -/

theorem Machine.pc_collectIfDue (m : Machine) : m.collectIfDue.pc = m.pc := by
  unfold collectIfDue
  split
  · obtain ⟨events, he⟩ := m.collectGarbage_eq
    rw [he]
  · rfl

theorem Machine.of_executeNext_error {m m' : Machine} {e : RuntimeFault}
    (h : m.executeNext = .error e m') : e.pc = m.pc ∧ e.span = m'.bytecode.spanAt? m.pc := by
  obtain ⟨f, he, -⟩ | ⟨i, events, -, he⟩ := m.executeNext_cases
  · rw [he] at h
    cases h
    exact ⟨rfl, rfl⟩
  · rw [he] at h
    split at h
    · cases h
    · cases h
      exact ⟨rfl, rfl⟩

/-- A fault says where it happened, and what the table of the program says of that place. -/
theorem Machine.of_nextFault? {m : Machine} {e : RuntimeFault} (h : m.nextFault? = some e) :
    e.pc = m.pc ∧ e.span = m.bytecode.spanAt? m.pc := by
  obtain ⟨m', hstep⟩ : ∃ m', step m = .error e m' := by
    unfold nextFault? at h
    split at h
    · cases h
    · next hstep =>
      cases h
      exact ⟨_, hstep⟩
  have hnext : m.next = m' := by rw [next, hstep]
  have hbytecode : m'.bytecode = m.bytecode := hnext ▸ m.extends_next.bytecode
  obtain ⟨h, -⟩ | ⟨h, -⟩ | ⟨h, -⟩ := m.step_cases
  · cases hstep.symm.trans h
  · cases hstep.symm.trans h
  · have herror := of_executeNext_error (h.symm.trans hstep)
    rwa [m.pc_collectIfDue, hbytecode] at herror

/-- Machines fault at the fault points of a compiled program only. -/
theorem Machine.mem_faultPoints {p : Program} {pool : Pool} {b : Bytecode}
    (h : p.compile pool = .ok b) (hsize : b.size < 2 ^ 32) (cfg : Config) (n : Nat)
    (hn : ((Machine.new b cfg).after n).heap.slots.size < 2 ^ 32) {e : RuntimeFault}
    (he : ((Machine.new b cfg).after n).nextFault? = some e) :
    ∃ i, (e.pc, i) ∈ b.faultPoints := by
  obtain ⟨P, hP, -⟩ := Compile.shaped_of_compile h hsize
  obtain ⟨prototypes, -, hbodies⟩ := Compile.holds_bodies h hsize
  have hw := wellLaid_of_laid ((List.forall₂_and_left _ _).1 hbodies.flip).1
  have hP' := hP.atBoundaries hw
  obtain ⟨ρ, s, a, -, hs, hfault⟩ := Machine.exists_fits hP' cfg n hn
  rw [he] at hfault
  obtain ⟨f, hf, rfl⟩ := Option.map_eq_some_iff.1 hfault.symm
  have hshaped : Shaped (Ideal.Setting.mk b cfg.maxCallDepth).bytecode (P.atBoundaries b) := hP'
  obtain ⟨⟨sh, hsh⟩, i, hd, hi⟩ := hs.fault hshaped hf
  obtain ⟨⟨j, hj⟩, -⟩ := Shapes.atBoundaries_eq_some.1 hsh
  obtain ⟨-, -, hd'⟩ := hw.whole.of_mem hj
  cases hd.symm.trans hd'
  exact ⟨i, List.mem_filter.2 ⟨hj, hi⟩⟩

/-! ## Compiled programs -/

/-- Faults of a compiled program point at the source. Its table of positions ascends. The instructions
that may fault come from the origins of the program, one by one, and the table has the region of its
node for each of them. And whatever fault a machine has, it has it at one of these instructions, and
with the region of that node. -/
theorem Program.faults_at_source {p : Program} {pool : Pool} {b : Bytecode}
    (h : p.compile pool = .ok b) (hsize : b.size < 2 ^ 32) :
    Ascending b.positions.toList ∧
    List.Forall₂ (fun x o => x.2 = o.instruction ∧ b.spanAt? x.1 = some o.node.span) b.faultPoints
      (p.origins pool) ∧
    ∀ (cfg : Config) (n : Nat) (e : RuntimeFault),
      let m := (Machine.new b cfg).after n
      m.nextFault? = some e → e.pc = m.pc ∧ e.span = b.spanAt? e.pc ∧
        (m.heap.slots.size < 2 ^ 32 → ∃ (k : Nat) (o : Origin), b.faultPoints[k]? = some (e.pc, o.instruction) ∧
          (p.origins pool)[k]? = some o ∧ e.span = some o.node.span) := by
  have hchart := Compile.charted_of_compile h
  obtain ⟨is, hr, his⟩ := hchart.traced
  have hpoints : b.faultPoints = is.filter (·.2.canFault) := by
    unfold Bytecode.faultPoints
    rw [Bytecode.instructions, Instruction.decodeAll, hr.decodeFrom_eq rfl]
  have horigins : List.Forall₂ (fun x o => x.2 = o.instruction ∧
      b.spanAt? x.1 = some o.node.span) b.faultPoints (p.origins pool) := by
    rw [hpoints]
    refine his.imp fun x o hxo => ⟨hxo.1, ?_⟩
    rw [Bytecode.spanAt?_eq_closest? hchart.ascending]
    exact hxo.2
  refine ⟨hchart.ascending, horigins, ?_⟩
  intro cfg n e m he
  have hbytecode : m.bytecode = b := ((Machine.new b cfg).extends_after n).bytecode
  obtain ⟨hpc, hspan⟩ := Machine.of_nextFault? he
  rw [hbytecode, ← hpc] at hspan
  refine ⟨hpc, hspan, fun hn => ?_⟩
  obtain ⟨i, hi⟩ := Machine.mem_faultPoints h hsize cfg n hn he
  obtain ⟨k, hk⟩ := List.mem_iff_getElem?.1 hi
  obtain ⟨hlt, hget⟩ := List.getElem?_eq_some_iff.1 hk
  have hlt' : k < (p.origins pool).length := horigins.length_eq ▸ hlt
  obtain ⟨hinstruction, hregion⟩ := horigins.get hlt hlt'
  rw [List.get_eq_getElem, hget] at hinstruction hregion
  refine ⟨k, (p.origins pool)[k], ?_, List.getElem?_eq_getElem hlt', hspan.trans hregion⟩
  rw [hk]
  exact congrArg (fun i => some (e.pc, i)) hinstruction

/-- A function that divides the first element of its argument by zero, in the arm of a branching.
```
func f(x) {
    if x {
        x[0] /= 0;
    }
}
f([1]);
``` -/
def Program.dividing : Program :=
  let element : Expr :=
    .index (.name 1 ⟨31, 32, 3, 9⟩) (.literal (.int 0) ⟨33, 34, 3, 11⟩) ⟨31, 35, 3, 9⟩
  let division : Stmt :=
    .assign element (some .div) (.literal (.int 0) ⟨39, 40, 3, 17⟩) ⟨31, 41, 3, 9⟩
  let branching : Stmt :=
    .branch [⟨.name 1 ⟨19, 20, 2, 8⟩, [division], ⟨16, 47, 2, 5⟩⟩] none ⟨16, 47, 2, 5⟩
  ⟨[.function ⟨0, [⟨1, .any, ⟨7, 8, 1, 8⟩⟩], none, [branching], ⟨0, 49, 1, 1⟩⟩ ⟨0, 49, 1, 1⟩,
    .expression (.call (.name 0 ⟨50, 51, 6, 1⟩)
      [.array [.literal (.int 1) ⟨53, 54, 6, 4⟩] ⟨52, 55, 6, 3⟩] ⟨50, 56, 6, 1⟩) ⟨50, 57, 6, 1⟩]⟩

/-- The division faults inside of the function, with the region of the whole assignment. -/
theorem Program.faults_at_source_dividing :
    ∃ b, dividing.compile {} = .ok b ∧ ∃ e, ((Machine.new b {}).after 9).nextFault? = some e ∧
      e.fault = .divisionByZero ∧ e.span = some ⟨31, 41, 3, 9⟩ ∧
      ∃ (k : Nat) (o : Origin), b.faultPoints[k]? = some (e.pc, o.instruction) ∧
        (dividing.origins {})[k]? = some o ∧ e.span = some o.node.span := by
  have hrun : (dividing.compile {}).toOption.any (fun b => b.size < 2 ^ 32 ∧
      ((Machine.new b {}).after 9).heap.slots.size < 2 ^ 32 ∧
      ((Machine.new b {}).after 9).nextFault? =
        some ⟨.divisionByZero, 37, some ⟨31, 41, 3, 9⟩⟩) = true := by
    decide +kernel
  cases h : dividing.compile {} with
  | error e =>
    rw [h] at hrun
    cases hrun
  | ok b =>
    rw [h] at hrun
    obtain ⟨hsize, hslots, hfault⟩ := of_decide_eq_true hrun
    obtain ⟨-, -, hfaults⟩ := Program.faults_at_source h hsize
    exact ⟨b, rfl, _, hfault, rfl, rfl, (hfaults {} 9 _ hfault).2.2 hslots⟩

end Scriptlet
