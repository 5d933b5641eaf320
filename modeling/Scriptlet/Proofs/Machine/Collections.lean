import Scriptlet.Proofs.Machine.ListCalls

/-!
# Automatic collections bound garbage

A step sweeps the heap before its instruction if that is due, and its instruction may call the native
function that sweeps again. `Machine.sweptHeap?` is what the last of these sweeps leaves. From there,
or from the heap before a step that does not sweep, the step makes at most one object
(`Machine.onward_next`), which is why allocations since the latest sweep stay within the threshold, and
the number of objects within that many more than the latest sweep has left.

Main statement: `Machine.garbage_bounded`.
-/

namespace Scriptlet.Machine

variable {m : Machine}

/-- The next step collects garbage before its instruction. -/
def Due (m : Machine) : Prop :=
  m.status = .ready ∧ m.pc < m.bytecode.size ∧ m.config.gcThreshold ≤ m.heap.sinceSweep

instance (m : Machine) : Decidable m.Due := inferInstanceAs (Decidable (_ ∧ _ ∧ _))

/-- What the native function leaves that collects garbage, if the next step calls it. -/
def sweptByCall? (m : Machine) : Option Heap :=
  m.call?.bind fun c =>
    if c.callee.routine = .gc ∧ c.args = [] then
      some (m.collectIfDue.withOperands c.below).collectGarbage.2.heap
    else none

/-- What the last sweep of the next step leaves, if the step sweeps. -/
def sweptHeap? (m : Machine) : Option Heap :=
  m.sweptByCall?.or (if m.Due then some m.collectIfDue.heap else none)

/-- The number of objects that the latest sweep of the first steps has left, none before there is
one. -/
def survivors (m : Machine) : Nat → Nat
  | 0 => 0
  | n + 1 => ((m.after n).sweptHeap?).elim (m.survivors n) Heap.occupied

theorem numbered_collectGarbage (hn : m.heap.Numbered) : m.collectGarbage.2.heap.Numbered := by
  obtain ⟨events, he⟩ := m.collectGarbage_eq
  rw [he]
  exact (hn.sweep _).1

theorem sinceSweep_collectGarbage (m : Machine) : m.collectGarbage.2.heap.sinceSweep = 0 := by
  obtain ⟨events, he⟩ := m.collectGarbage_eq
  rw [he]
  rfl

theorem numbered_collectIfDue (hn : m.heap.Numbered) : m.collectIfDue.heap.Numbered := by
  unfold collectIfDue
  split
  · exact numbered_collectGarbage hn
  · exact hn

/-- What a step sweeps it counts anew. -/
theorem swept (hn : m.heap.Numbered) {h : Heap} (hh : m.sweptHeap? = some h) :
    h.Numbered ∧ h.sinceSweep = 0 := by
  rcases Option.or_eq_some_iff.1 hh with hcall | ⟨-, hdue⟩
  · obtain ⟨c, -, hc⟩ := Option.bind_eq_some_iff.1 hcall
    split at hc
    · cases hc
      exact ⟨numbered_collectGarbage (numbered_collectIfDue hn), sinceSweep_collectGarbage _⟩
    · cases hc
  · split at hdue
    · next hdue' =>
      cases hdue
      refine ⟨numbered_collectIfDue hn, ?_⟩
      rw [collectIfDue, if_pos hdue'.2.2]
      exact sinceSweep_collectGarbage m
    · cases hdue

/-- The heap that a step goes on from counts its objects. -/
theorem numbered_getD_sweptHeap? (hn : m.heap.Numbered) : (m.sweptHeap?.getD m.heap).Numbered := by
  cases hsw : m.sweptHeap? with
  | none => exact hn
  | some h => exact (swept hn hsw).1

/-! ## One step -/

theorem heap_collectGarbage (m : Machine) :
    m.collectGarbage.2.heap = (m.heap.sweep m.pinned.contains).2 := by
  obtain ⟨events, he⟩ := m.collectGarbage_eq
  rw [he]

/-- Collecting garbage without arguments sweeps the heap that the call finds. -/
theorem heap_callNative_gc {f : Native} (hf : f.routine = .gc) (m : Machine) :
    ((Exec.callNative f 0).final m).heap = (m.heap.sweep m.pinned.contains).2 := by
  have hops : m.frame.operands = [].reverse ++ m.frame.operands := rfl
  obtain ⟨events, hheap, -⟩ := Exec.final_callNative (f := f) hops
  let m' : Machine := { m with events }
  have hargs : Exec.arguments 0 0 m' = .ok [] m' := Exec.run_arguments (m := m') hops 0
  have hgc : Exec.gc 0 m' = Exec.push (.int (Int32.ofNat m'.collectGarbage.1)) m'.collectGarbage.2 :=
    Exec.run_bind_ok hargs _
  rw [hf] at hheap
  refine hheap.trans ((congrArg Machine.heap (Exec.final_congr hgc)).trans ?_)
  exact heap_collectGarbage m'

/-- A machine that executes no instruction does not sweep either. -/
theorem idle (h : ¬ (m.status = .ready ∧ m.pc < m.bytecode.size)) :
    m.sweptHeap? = none ∧ m.next.heap = m.heap := by
  constructor
  · have hcall : m.call? = none := by
      cases hc : m.call? with
      | none => rfl
      | some c =>
        obtain ⟨hready, i, hd, -⟩ := exists_of_call hc
        exact absurd ⟨hready, Instruction.lt_of_decode hd⟩ h
    rw [sweptHeap?, sweptByCall?, hcall, if_neg fun hdue => h ⟨hdue.1, hdue.2.1⟩]
    rfl
  · unfold next
    obtain ⟨hs, -⟩ | ⟨hs, -⟩ | ⟨hs, hready, hpc⟩ := m.step_cases
    · rw [hs]
    · rw [hs]
    · exact absurd ⟨hready, Nat.lt_of_not_le hpc⟩ h

/-- Without a call that sweeps, a step goes on from the heap of a collection that may be due. -/
theorem getD_sweptHeap? (hcall : m.sweptByCall? = none) (hready : m.status = .ready)
    (hpc : m.pc < m.bytecode.size) : m.sweptHeap?.getD m.heap = m.collectIfDue.heap := by
  rw [sweptHeap?, hcall]
  by_cases hdue : m.config.gcThreshold ≤ m.heap.sinceSweep
  · rw [if_pos ⟨hready, hpc, hdue⟩]
    rfl
  · rw [if_neg fun h => hdue h.2.2, collectIfDue, if_neg hdue]
    rfl

/-- The list that the next step makes or changes. -/
def changed? (m : Machine) : Option Handle :=
  m.call?.bind fun c => c.changed? m.collectIfDue.heap

/-- Behind its last sweep a step makes at most one object, and changes at most one list. -/
theorem onward_next (m : Machine) :
    Heap.Onward 1 m.changed? (m.sweptHeap?.getD m.heap) m.next.heap := by
  by_cases hruns : m.status = .ready ∧ m.pc < m.bytecode.size
  · obtain ⟨hready, hpc⟩ := hruns
    cases hcall : m.call? with
    | none =>
      have hswept : m.sweptByCall? = none := by
        rw [sweptByCall?, hcall]
        rfl
      rw [getD_sweptHeap? hswept hready hpc]
      exact (onward_next_of_no_call hready hpc hcall).spare
    | some c =>
      obtain ⟨m₀, hheap, hops, hcallers, -, hnext, -⟩ := next_of_call hcall
      by_cases hgc : c.callee.routine = .gc ∧ c.args = []
      · obtain ⟨f, args, below⟩ := c
        obtain ⟨hf, rfl⟩ := hgc
        have hswept : m.sweptByCall? =
            some (m.collectIfDue.withOperands below).collectGarbage.2.heap := by
          rw [sweptByCall?, hcall]
          exact if_pos ⟨hf, rfl⟩
        have hsame : m₀.pinned = (m.collectIfDue.withOperands below).pinned := by
          rw [Exec.pinned_eq, hops, hcallers, ← m.frame_collectIfDue.2.1]
          rfl
        have hnext' : m.next.heap = (m.collectIfDue.withOperands below).collectGarbage.2.heap := by
          rw [hnext, heap_collectGarbage, ← hsame]
          exact (heap_callNative_gc hf m₀).trans (by rw [hheap]; rfl)
        rw [sweptHeap?, hswept, hnext']
        exact (Heap.Onward.refl _).spare.mono (Nat.zero_le 1)
      · have hswept : m.sweptByCall? = none := by
          rw [sweptByCall?, hcall]
          exact if_neg hgc
        have hon := Exec.onward_callNative hops fun hf hargs => hgc ⟨hf, hargs⟩
        rw [getD_sweptHeap? hswept hready hpc, hnext, changed?, hcall, ← hheap]
        exact hon
  · obtain ⟨hsw, hnext⟩ := idle hruns
    rw [hsw, hnext]
    exact (Heap.Onward.refl _).spare.mono (Nat.zero_le 1)

/-! ## Any number of steps -/

/-- The heap counts its objects, of which the latest sweep has left some, and all others were made
since then. -/
structure Accounted (bound survivors : Nat) (h : Heap) : Prop where
  numbered : h.Numbered
  live : h.live = survivors + h.sinceSweep
  bound : h.sinceSweep ≤ bound

/-- A step keeps the account, which starts anew where the step sweeps. -/
theorem Accounted.next {survivors : Nat}
    (ha : Accounted (max m.config.gcThreshold 1) survivors m.heap) :
    Accounted (max m.config.gcThreshold 1) (m.sweptHeap?.elim survivors Heap.occupied)
      m.next.heap := by
  by_cases hruns : m.status = .ready ∧ m.pc < m.bytecode.size
  · obtain ⟨hready, hpc⟩ := hruns
    have hon := m.onward_next
    have hadded := hon.added
    have hbound := hon.bound
    cases hsw : m.sweptHeap? with
    | none =>
      have hnot : ¬ m.Due := fun hdue => by
        rw [sweptHeap?, Option.or_eq_none_iff, if_pos hdue] at hsw
        cases hsw.2
      have hlt : m.heap.sinceSweep < m.config.gcThreshold :=
        Nat.lt_of_not_le fun hle => hnot ⟨hready, hpc, hle⟩
      rw [hsw] at hon hadded hbound
      dsimp only [Option.getD_none, Option.elim_none] at hon hadded hbound ⊢
      have hlive := ha.live
      exact ⟨hon.numbered ha.numbered, by omega, by omega⟩
    | some h =>
      obtain ⟨hn, hzero⟩ := swept ha.numbered hsw
      rw [hsw] at hon hadded hbound
      dsimp only [Option.getD_some, Option.elim_some] at hon hadded hbound ⊢
      have hlive := hn.live
      exact ⟨hon.numbered hn, by omega, by omega⟩
  · obtain ⟨hsw, hnext⟩ := idle hruns
    rw [hsw, hnext]
    exact ha

theorem accounted_after (b : Bytecode) (cfg : Config) : ∀ n : Nat,
    Accounted (max cfg.gcThreshold 1) ((new b cfg).survivors n) ((new b cfg).after n).heap
  | 0 => ⟨Heap.Numbered.ofOps [], rfl, Nat.zero_le _⟩
  | n + 1 => by
    have ha := accounted_after b cfg n
    have hconfig : ((new b cfg).after n).config = cfg := ((new b cfg).extends_after n).config
    have hnext := Accounted.next (m := (new b cfg).after n) (by rwa [hconfig])
    rwa [hconfig] at hnext

/-- After any number of steps of a machine that was just made, faults and calls of the collector
included: there were no more allocations since the latest sweep than the threshold has it, or one if
the threshold is zero, so there are at most that many objects more than the latest sweep has left. -/
theorem garbage_bounded (b : Bytecode) (cfg : Config) (n : Nat) :
    let m := (new b cfg).after n
    m.heap.sinceSweep ≤ max cfg.gcThreshold 1 ∧ m.heap.live = m.heap.occupied ∧
      m.heap.occupied ≤ (new b cfg).survivors n + max cfg.gcThreshold 1 := by
  intro m
  obtain ⟨hn, hlive, hbound⟩ := accounted_after b cfg n
  refine ⟨hbound, hn.live, ?_⟩
  calc m.heap.occupied = (new b cfg).survivors n + m.heap.sinceSweep := by rw [← hn.live, hlive]
    _ ≤ (new b cfg).survivors n + max cfg.gcThreshold 1 := Nat.add_le_add_left hbound _

end Scriptlet.Machine
