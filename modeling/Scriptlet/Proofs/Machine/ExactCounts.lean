import Scriptlet.Proofs.Code.RoundTrip
import Scriptlet.Proofs.Machine.Instructions

/-!
# Counts are exact in every reachable state

`Machine.CountsExact`: everything that a machine holds is live, and the count of every live object is
the number of places outside of operand stacks that hold it. A step keeps this
(`Machine.Counted.next`), so it holds after any number of steps of a machine that starts with an
empty heap (`Machine.counts_exact`). It follows that no step faults for a stale handle, and that no
release finds a count of zero.
-/

namespace Scriptlet

namespace Machine

/-- What every handle of a machine refers to is live, and counts are the numbers of owners. -/
structure CountsExact (m : Machine) : Prop where
  live : ∀ x ∈ m.pinned ++ (m.owners ++ m.heap.inner), m.heap.contains x = true
  count : ∀ x c, m.heap.find? x = some c → c.count = (m.owners ++ m.heap.inner).count x

theorem Counted.countsExact {m : Machine} (hc : m.Counted [] []) : m.CountsExact where
  live x hx := (List.mem_append.1 hx).elim (hc.operands x) (hc.exact.live x)
  count := hc.exact.count

/-! ## Actions as steps -/

section outcome

variable {m m' : Machine} {act : Exec Unit}

/-- What a step gives whose instruction, at an offset, does what an action does. -/
def outcome (act : Exec Unit) (pc : Nat) (m : Machine) : EStateM.Result RuntimeFault Machine Status :=
  match act m with
  | .ok _ m' => .ok m'.status m'
  | .error f m' => m'.stop f pc

theorem outcome_congr {act' : Exec Unit} (h : act m = act' m') (pc : Nat) :
    outcome act pc m = outcome act' pc m' := by
  rw [outcome, outcome, h]

theorem outcome_ok (h : act m = .ok () m') (hready : m'.status = .ready) (pc : Nat) :
    outcome act pc m = .ok .ready m' := by
  rw [outcome, h, ← hready]

theorem Extends.outcome {b : Machine} (hb : b.Extends m) (hact : act.Extending) (pc : Nat) :
    match outcome act pc m with
    | .ok _ m' => b.Extends m'
    | .error _ m' => b.Extends m' := by
  have hx := hb.trans (hact m)
  unfold Exec.final at hx
  unfold Machine.outcome
  revert hx
  cases act m with
  | ok _ m' => exact id
  | error f m' => exact fun hx => ⟨hx.bytecode, hx.config, hx.structures, hx.slots⟩

theorem Counted.outcome (hc : m.Counted [] [])
    (hact : Exec.Triple (Counted [] []) act fun _ => Counted [] []) (pc : Nat) :
    match outcome act pc m with
    | .ok _ m' => m'.heap.slots.size < 2 ^ 32 → m'.Counted [] []
    | .error f m' => m'.heap.slots.size < 2 ^ 32 → f.fault ≠ .staleHandle ∧ m'.Counted [] [] := by
  have hx := hact.run m hc
  unfold Exec.final at hx
  unfold Machine.outcome
  revert hx
  cases act m with
  | ok _ m' => exact id
  | error f m' => exact fun hx hs => (hx hs).imp_right fun hc' => hc'.reframe rfl rfl fun _ hx => hx

end outcome

/-! ## One step -/

/-- The parts of a step: it ends with the code, or takes one instruction after a collection that
may be due. -/
theorem step_cases (m : Machine) :
    (step m = .ok .halted m ∧ m.status = .halted) ∨
    (step m = .ok .halted { m with status := .halted } ∧ m.status = .ready ∧
      m.bytecode.size ≤ m.pc) ∨
    (step m = m.collectIfDue.executeNext ∧ m.status = .ready ∧ ¬ m.bytecode.size ≤ m.pc) := by
  unfold step
  cases hst : m.status with
  | halted => exact .inl ⟨rfl, rfl⟩
  | ready =>
    by_cases hpc : m.bytecode.size ≤ m.pc
    · exact .inr (.inl ⟨by simp only [hpc, if_true], rfl, hpc⟩)
    · exact .inr (.inr ⟨by simp only [hpc, if_false], rfl, hpc⟩)

/-- Executing an instruction is running its action behind it. -/
theorem executeNext_instruction {m : Machine} {i : Instruction}
    (hd : Instruction.decode m.bytecode.code m.pc = .instruction i) :
    ∃ events, m.executeNext = match Exec.execute i { m with pc := m.pc + i.width, events } with
      | .ok _ m' => .ok m'.status m'
      | .error f m' => m'.stop f m.pc := by
  refine ⟨(m.note (.executed m.pc i)).events, ?_⟩
  simp only [executeNext, hd]
  rewrite [note_eq]
  rfl

/-- A collection that may be due changes the heap and the record of events only. -/
theorem collectIfDue_eq (m : Machine) :
    ∃ events, m.collectIfDue = { m with heap := m.collectIfDue.heap, events } := by
  unfold collectIfDue
  split
  · obtain ⟨events, he⟩ := m.collectGarbage_eq
    refine ⟨events, ?_⟩
    rw [he]
  · exact ⟨m.events, rfl⟩

theorem collectIfDue_of_lt {m : Machine} (hgc : m.heap.sinceSweep < m.config.gcThreshold) :
    m.collectIfDue = m :=
  if_neg (Nat.not_le.2 hgc)

/-- A step where an instruction stands: a collection that may be due, then the action. -/
theorem step_of_decode {m : Machine} {i : Instruction} (hready : m.status = .ready)
    (hd : Instruction.decode m.bytecode.code m.pc = .instruction i) :
    ∃ events, ∀ m₀ : Machine,
      m₀ = { m with heap := m.collectIfDue.heap, pc := m.pc + i.width, events } →
      (∀ m', Exec.execute i m₀ = .ok () m' → step m = .ok m'.status m') ∧
      ∀ f m', Exec.execute i m₀ = .error f m' → step m = m'.stop f m.pc := by
  have hpc : ¬ m.bytecode.size ≤ m.pc := Nat.not_le.2 (Instruction.lt_of_decode hd)
  have hstep : step m = m.collectIfDue.executeNext := by
    simp only [step, hready, if_neg hpc]
  obtain ⟨events, he⟩ := m.collectIfDue_eq
  obtain ⟨events', hrun⟩ := executeNext_instruction
    (m := { m with heap := m.collectIfDue.heap, events }) hd
  rw [hstep, he]
  refine ⟨events', fun m₀ hm₀ => ?_⟩
  subst hm₀
  exact ⟨fun m' h => by rw [hrun, h], fun f m' h => by rw [hrun, h]⟩

/-- Executing the next instruction is running its action, or a fault of its own. -/
theorem executeNext_cases (m : Machine) :
    (∃ f, m.executeNext = m.stop f m.pc ∧ f ≠ .staleHandle) ∨
    ∃ i events, Instruction.decode m.bytecode.code m.pc = .instruction i ∧
      m.executeNext = match Exec.execute i { m with pc := m.pc + i.width, events } with
        | .ok _ m' => .ok m'.status m'
        | .error f m' => m'.stop f m.pc := by
  cases hd : Instruction.decode m.bytecode.code m.pc with
  | truncated => exact .inl ⟨.truncatedInstruction, by simp only [executeNext, hd], by simp⟩
  | unknown byte => exact .inl ⟨.invalidOpcode byte, by simp only [executeNext, hd], by simp⟩
  | instruction i =>
    obtain ⟨events, he⟩ := executeNext_instruction hd
    exact .inr ⟨i, events, rfl, he⟩

theorem extends_collectIfDue (m : Machine) : m.Extends m.collectIfDue := by
  unfold collectIfDue
  split
  · exact m.extends_collectGarbage
  · exact .refl m

theorem size_collectIfDue (m : Machine) :
    m.collectIfDue.heap.slots.size = m.heap.slots.size := by
  unfold collectIfDue
  split
  · obtain ⟨events, he⟩ := m.collectGarbage_eq
    rw [he]
    exact Heap.size_sweep m.heap _
  · rfl

theorem Counted.collectIfDue {m : Machine} (hc : m.Counted [] []) :
    m.collectIfDue.Counted [] [] := by
  unfold Machine.collectIfDue
  split
  · exact hc.collectGarbage
  · exact hc

/-- The result of one instruction, with or without a fault. -/
theorem extends_executeNext (m : Machine) :
    match m.executeNext with
    | .ok _ m' => m.Extends m'
    | .error _ m' => m.Extends m' := by
  obtain ⟨f, he, -⟩ | ⟨i, events, -, he⟩ := m.executeNext_cases
  · rw [he]
    exact ⟨rfl, rfl, rfl, Nat.le_refl _⟩
  · rw [he]
    have hb : m.Extends { m with pc := m.pc + i.width, events } := ⟨rfl, rfl, rfl, Nat.le_refl _⟩
    exact hb.outcome (Exec.triple_execute i).ext m.pc

theorem extends_next (m : Machine) : m.Extends m.next := by
  unfold next
  obtain ⟨h, -⟩ | ⟨h, -⟩ | ⟨h, -⟩ := m.step_cases
  · rw [h]
    exact .refl m
  · rw [h]
    exact ⟨rfl, rfl, rfl, Nat.le_refl _⟩
  · rw [h]
    have hx := m.collectIfDue.extends_executeNext
    revert hx
    cases m.collectIfDue.executeNext with
    | ok _ m' => exact m.extends_collectIfDue.trans
    | error f m' => exact m.extends_collectIfDue.trans

theorem Counted.executeNext {m : Machine} (hc : m.Counted [] []) :
    match m.executeNext with
    | .ok _ m' => m'.heap.slots.size < 2 ^ 32 → m'.Counted [] []
    | .error f m' => m'.heap.slots.size < 2 ^ 32 → f.fault ≠ .staleHandle ∧ m'.Counted [] [] := by
  obtain ⟨f, he, hf⟩ | ⟨i, events, -, he⟩ := m.executeNext_cases
  · rw [he]
    exact fun _ => ⟨hf, hc.reframe rfl rfl fun _ hx => hx⟩
  · have hc' : Counted [] [] { m with pc := m.pc + i.width, events } :=
      hc.reframe rfl rfl fun _ hx => hx
    rw [he]
    exact hc'.outcome (Exec.triple_execute i) m.pc

/-- A step keeps counts exact, whether it faults or not, and finds no stale handle. -/
theorem Counted.next {m : Machine} (hc : m.Counted [] []) (hs : m.next.heap.slots.size < 2 ^ 32) :
    m.next.Counted [] [] ∧ ∀ f, m.nextFault? = some f → f.fault ≠ .staleHandle := by
  unfold Machine.next at hs ⊢
  unfold nextFault?
  obtain ⟨h, -⟩ | ⟨h, -⟩ | ⟨h, -⟩ := m.step_cases
  · rw [h]
    exact ⟨hc, fun f hf => by cases hf⟩
  · rw [h]
    exact ⟨hc.reframe rfl rfl fun _ hx => hx, fun f hf => by cases hf⟩
  · rw [h] at hs ⊢
    have hx := hc.collectIfDue.executeNext
    revert hx hs
    cases m.collectIfDue.executeNext with
    | ok _ m' => exact fun hs hx => ⟨hx hs, fun f hf => by cases hf⟩
    | error f m' => exact fun hs hx => ⟨(hx hs).2, fun g hg => by cases hg; exact (hx hs).1⟩

/-! ## Any number of steps -/

theorem extends_after (m : Machine) : ∀ n : Nat, m.Extends (m.after n)
  | 0 => .refl m
  | n + 1 => (extends_after m n).trans (m.after n).extends_next

theorem Counted.after {m : Machine} (hc : m.Counted [] []) : ∀ n : Nat,
    (m.after n).heap.slots.size < 2 ^ 32 →
    (m.after n).Counted [] [] ∧ ∀ f, m.faultWithin? n = some f → f.fault ≠ .staleHandle
  | 0, _ => ⟨hc, fun f hf => by cases hf⟩
  | n + 1, hs => by
    have hs' := Nat.lt_of_le_of_lt (m.after n).extends_next.slots hs
    obtain ⟨hc', hf'⟩ := Counted.after hc n hs'
    obtain ⟨hc₂, hf₂⟩ := hc'.next hs
    refine ⟨hc₂, fun f hf => ?_⟩
    rw [faultWithin?, Option.or_eq_some_iff] at hf
    exact hf.elim (hf' f) fun h => hf₂ f h.2

/-- A machine without objects counts exactly, if it holds nothing. -/
theorem counted_of_empty {m : Machine} (hh : m.heap = .empty) (ho : m.owners = [])
    (hp : m.pinned = []) : m.Counted [] [] where
  exact := by
    rw [hh, ho]
    refine ⟨⟨List.nodup_nil, fun i hi => ?_⟩, fun x hx => ?_, fun x c hx => ?_, rfl⟩
    · cases hi
    · cases hx
    · rw [Heap.find?_eq_some_iff] at hx
      cases hx
  operands x hx := by
    rw [hp] at hx
    cases hx

theorem counted_bare (b : Bytecode) (cfg : Config) : (bare b cfg).Counted [] [] :=
  counted_of_empty rfl rfl rfl

theorem counted_new (b : Bytecode) (cfg : Config) : (new b cfg).Counted [] [] :=
  counted_of_empty rfl rfl rfl

/-- After any number of steps of a machine that was just made, fault or not, as long as handles are
not used twice: all that is held is live and counts are exact, no step so far found a stale handle,
and no release so far found a count of zero. -/
theorem counts_exact (b : Bytecode) (cfg : Config) (m : Machine)
    (hm : m = new b cfg ∨ m = bare b cfg) (n : Nat)
    (hs : (m.after n).heap.slots.size < 2 ^ 32) :
    (m.after n).CountsExact ∧
      (∀ f, m.faultWithin? n = some f → f.fault ≠ .staleHandle) ∧
      (m.after n).heap.lost = 0 := by
  have hc : m.Counted [] [] := by
    obtain rfl | rfl := hm
    · exact counted_new b cfg
    · exact counted_bare b cfg
  obtain ⟨hn, hf⟩ := hc.after n hs
  exact ⟨hn.countsExact, hf, hn.exact.balance⟩

/-- A run that collects before every instruction: a string is put in an array, the array in a local,
and a call of a number faults. -/
theorem counts_exact_faulted :
    let code := Instruction.encodeAll
      [.pushString 0, .createArray 1, .setLocal 0, .pushInt 1, .call 0]
    let m := new { code := code.toArray } { gcThreshold := 0 }
    m.faultWithin? 5 = some ⟨.notCallable "int", 17, none⟩ ∧ (m.after 5).CountsExact ∧
      (∀ f, m.faultWithin? 5 = some f → f.fault ≠ .staleHandle) ∧ (m.after 5).heap.lost = 0 :=
  ⟨by decide +kernel, counts_exact _ _ _ (.inl rfl) 5 (by decide +kernel)⟩

end Machine

end Scriptlet
