import Scriptlet.Proofs.Machine.NativeCalls

/-!
# Functions of the host

A host registers functions of its own, and what they do with the machine is up to them. `Natives`
says it for every native function; `Machine.stepBy` takes a step with them. With what the library's
own native functions do (`Natives.own`) that is `Machine.step` (`Machine.stepBy_own`).

What a host promises of its functions is what its steps keep: functions that keep counts exact
(`Natives.KeepCounts`) make steps that do (`Machine.Counted.nextBy`).
-/

namespace Scriptlet

open Machine (Counted)

/-- What native functions do with a number of arguments. -/
abbrev Natives := Native → Nat → Exec Unit

namespace Natives

/-- What the library's own native functions do. -/
def own : Natives := fun f => Exec.routine f.routine

/-- The functions keep counts exact, also where they fault, and find no stale handle. They leave the
program, the limits and the registry alone. -/
def KeepCounts (ρ : Natives) : Prop :=
  ∀ f args, Exec.Triple (Counted [] []) (ρ f args) fun _ => Counted [] []

theorem keepCounts_own : own.KeepCounts := fun f args => Exec.triple_routine f.routine args

/-- The functions of one name do what an action says, the others do what they did. -/
def define (ρ : Natives) (name : String) (action : Nat → Exec Unit) : Natives := fun f =>
  if f.name = name then action else ρ f

theorem KeepCounts.define {ρ : Natives} (hρ : ρ.KeepCounts) (name : String)
    {action : Nat → Exec Unit}
    (h : ∀ args, Exec.Triple (Counted [] []) (action args) fun _ => Counted [] []) :
    (ρ.define name action).KeepCounts := by
  intro f args
  unfold Natives.define
  split
  · exact h args
  · exact hρ f args

end Natives

namespace Exec

/-- Calls a native function that does what `ρ` says, where there is a call, and takes another action
where there is none. -/
def callBy (ρ : Natives) (call : Option NativeCall) (otherwise : Exec Unit) : Exec Unit := fun m =>
  match call with
  | none => otherwise m
  | some c =>
    callAction c.callee.name (ρ c.callee) c.args.length (m.withOperands (c.args.reverse ++ c.below))

/-- Executes an instruction where native functions do what `ρ` says. -/
def executeBy (ρ : Natives) (i : Instruction) : Exec Unit := fun m =>
  callBy ρ (m.callIn? i) (execute i) m

end Exec

namespace Machine

/-- A step where native functions do what `ρ` says. -/
def stepBy (ρ : Natives) : Run Status := fun m =>
  match m.status, Instruction.decode m.bytecode.code m.pc with
  | .ready, .instruction i =>
    outcome (Exec.executeBy ρ i) m.pc
      { m.collectIfDue.note (.executed m.pc i) with pc := m.pc + i.width }
  | _, _ => step m

/-- The machine after one step where native functions do what `ρ` says, also when it faults. -/
def nextBy (ρ : Natives) (m : Machine) : Machine :=
  match stepBy ρ m with
  | .ok _ m' => m'
  | .error _ m' => m'

/-- The machine after a number of steps where native functions do what `ρ` says. -/
def afterBy (ρ : Natives) (m : Machine) : Nat → Machine
  | 0 => m
  | n + 1 => (m.afterBy ρ n).nextBy ρ

end Machine

/-! ## The library's own functions -/

theorem Exec.executeBy_own (i : Instruction) : executeBy .own i = execute i := by
  funext m
  unfold executeBy
  cases h : m.callIn? i with
  | none => rfl
  | some c => exact (execute_of_call h).symm

namespace Machine

/-- A step with the library's own native functions is a step. -/
theorem stepBy_own : stepBy .own = step := by
  funext m
  unfold stepBy
  split
  · next i hready hd =>
    have hpc : ¬ m.bytecode.size ≤ m.pc := Nat.not_le.2 (Instruction.lt_of_decode hd)
    obtain ⟨events, he⟩ := m.collectIfDue_eq
    rw [Exec.executeBy_own]
    simp only [step, hready, if_neg hpc]
    rw [he]
    simp only [executeNext, hd]
    rfl
  · rfl

theorem nextBy_own (m : Machine) : m.nextBy .own = m.next := by
  rw [nextBy, stepBy_own]
  rfl

theorem afterBy_own (m : Machine) (n : Nat) : m.afterBy .own n = m.after n := by
  induction n with
  | zero => rfl
  | succ n ih => rw [afterBy, after, ih, nextBy_own]

end Machine

/-! ## Counts -/

section counts

variable {ρ : Natives} {m : Machine} {c : NativeCall}

/-- What is passed to a native function is live. -/
theorem Machine.Counted.withCall (hc : m.Counted [] []) {i : Instruction}
    (hcall : m.callIn? i = some c) :
    (m.withOperands (c.args.reverse ++ c.below)).Counted [] [] := by
  have hpinned : ∀ x ∈ m.pinned, m.heap.contains x = true := hc.operands
  refine ⟨hc.exact, fun x hx => ?_⟩
  rw [List.nil_append, withOperands, Exec.pinned_push, List.mem_append] at hx
  rcases hx with hx | hx
  · rcases mem_of_callIn? hcall (Value.mem_handles.1 hx) with hops | ⟨y, o, ho, z, hz, heq⟩
    · exact hpinned x (List.mem_append_left _ (Value.mem_handles.2 hops))
    · cases heq
      exact hc.exact.contains_child ho hz
  · exact hpinned x (List.mem_append_right _ hx)

theorem Exec.triple_executeBy (hρ : ρ.KeepCounts) (i : Instruction) :
    Triple (Counted [] []) (executeBy ρ i) fun _ => Counted [] [] := by
  have hcall : ∀ c : NativeCall, Triple (Counted [] [])
      (callAction c.callee.name (ρ c.callee) c.args.length) fun _ => Counted [] [] :=
    fun c => triple_callAction c.callee.name (hρ c.callee c.args.length)
  constructor
  · intro m
    unfold final executeBy callBy
    cases m.callIn? i with
    | none => exact (triple_execute i).ext m
    | some c =>
      have hm : m.Extends (m.withOperands (c.args.reverse ++ c.below)) :=
        ⟨rfl, rfl, rfl, Nat.le_refl _⟩
      exact hm.trans ((hcall c).ext _)
  · intro m hc hs
    unfold final executeBy callBy at hs
    unfold executeBy callBy
    cases h : m.callIn? i with
    | none =>
      rw [h] at hs
      exact (triple_execute i).run m hc hs
    | some c =>
      rw [h] at hs
      exact (hcall c).run _ (hc.withCall h) hs

namespace Machine

/-- A step with functions of a host is a step, or one instruction behind a collection that may be
due. -/
theorem stepBy_cases (ρ : Natives) (m : Machine) : stepBy ρ m = step m ∨ ∃ i m₀,
    stepBy ρ m = outcome (Exec.executeBy ρ i) m.pc m₀ ∧ m.Extends m₀ ∧
      (m.Counted [] [] → m₀.Counted [] []) := by
  unfold stepBy
  split
  · next i _ _ =>
    refine .inr ⟨i, _, rfl, ?_, fun hc => ?_⟩
    · rw [note_eq]
      exact m.extends_collectIfDue.trans ⟨rfl, rfl, rfl, Nat.le_refl _⟩
    · rw [note_eq]
      exact hc.collectIfDue.reframe rfl rfl fun _ hx => hx
  · exact .inl rfl

theorem extends_nextBy (hρ : ρ.KeepCounts) (m : Machine) : m.Extends (m.nextBy ρ) := by
  unfold nextBy
  obtain h | ⟨i, m₀, h, hm, -⟩ := stepBy_cases ρ m
  · rw [h]
    exact m.extends_next
  · have hx := hm.outcome (Exec.triple_executeBy hρ i).ext m.pc
    rw [h]
    revert hx
    cases outcome (Exec.executeBy ρ i) m.pc m₀ with
    | ok _ m' => exact id
    | error f m' => exact id

/-- A step with functions that keep counts exact keeps them exact, whether it faults or not. -/
theorem Counted.nextBy (hρ : ρ.KeepCounts) (hc : m.Counted [] [])
    (hs : (m.nextBy ρ).heap.slots.size < 2 ^ 32) : (m.nextBy ρ).Counted [] [] := by
  unfold Machine.nextBy at hs ⊢
  obtain h | ⟨i, m₀, h, -, hm⟩ := stepBy_cases ρ m
  · rw [h] at hs ⊢
    exact (hc.next hs).1
  · have hx := (hm hc).outcome (Exec.triple_executeBy hρ i) m.pc
    rw [h] at hs ⊢
    revert hx hs
    cases Machine.outcome (Exec.executeBy ρ i) m.pc m₀ with
    | ok _ m' => exact fun hs hx => hx hs
    | error f m' => exact fun hs hx => (hx hs).2

end Machine

end counts

/-! ### A function of a host -/

namespace Exec

/-- A function that a host may have: it binds a global to its argument. -/
def bindArgument (name : String) (args : Nat) : Exec Unit := do
  let v ← argument args
  setGlobal name v

theorem triple_bindArgument (name : String) (args : Nat) :
    Triple (Counted [] []) (bindArgument name args) fun _ => Counted [] [] :=
  .bind (triple_argument args) fun v => triple_setGlobal name v

end Exec

end Scriptlet
