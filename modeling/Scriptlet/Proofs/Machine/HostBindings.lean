import Scriptlet.Proofs.Machine.HostFunctions

/-!
# Bindings of the host

A host lets a machine take steps, and binds globals in between (`HostOp`). Binding a global to a
value moves one count from what the global held to the new value (`Machine.Rebinds`), and so counts
stay exact. Registering a native function does not look at what the global of that name held: where
that is an object, the object keeps the count of a place that does not hold it any more, and is
never swept.

So counts are exact throughout an interleaving of steps and bindings exactly if no registration
drops an object (`Machine.drops`). It does not matter what the registered functions do, as long as
they keep counts exact themselves (`Natives.KeepCounts`).

Main statements: `Machine.host_bindings_counted` for the library's own functions, and
`Machine.host_functions_counted` for those of any host.
-/

namespace Scriptlet

/-- What a host does with a machine. -/
inductive HostOp where
  | step
  | setGlobal (name : String) (v : Value)
  | registerNative (name : String) (routine : Routine)

/-- A global was bound to a value: objects are as they were, what the global held has one count
less, and the new value has one more. -/
structure Machine.Rebinds (m : Machine) (name : String) (v : Value) (m' : Machine) : Prop where
  globals : m'.globals = m.globals.insert name v
  objects : ∀ x, m'.heap.object? x = m.heap.object? x
  counts : ∀ x n, m.heap.count? x = some n → ∃ n', m'.heap.count? x = some n' ∧
    n' + (Value.handles (m.globals.find? name).toList).count x = n + (Value.handles [v]).count x

namespace HostOp

/-- The machine after an operation, also when that fails. -/
def apply (m : Machine) : HostOp → Machine
  | step => m.next
  | setGlobal name v => (Exec.setGlobal name v).final m
  | registerNative name routine => m.registerNative name routine

/-- A value to be bound is no handle, or a live one. -/
def isServed (m : Machine) : HostOp → Bool
  | setGlobal _ v => v.handle?.all m.heap.contains
  | _ => true

/-- A native function is registered under a name whose global holds an object. -/
def drops (m : Machine) : HostOp → Bool
  | registerNative name _ => (m.globals.find? name).any fun v => v.handle?.isSome
  | _ => false

/-- What an operation binds is bound, and counts move along. -/
def Binds (m : Machine) : HostOp → Prop
  | step => True
  | setGlobal name v => ∃ m', Exec.setGlobal name v m = .ok () m' ∧ m.Rebinds name v m'
  | registerNative name routine =>
    m.Rebinds name (.native ⟨name, routine⟩) (m.registerNative name routine)

/-- The machine after an operation where native functions do what `ρ` says, also when it fails. -/
def applyBy (ρ : Natives) (m : Machine) : HostOp → Machine
  | step => m.nextBy ρ
  | op => op.apply m

end HostOp

namespace Machine

/-- The machine after several operations. -/
def hosted (m : Machine) : List HostOp → Machine
  | [] => m
  | op :: ops => (op.apply m).hosted ops

/-- Every value that is bound on the way is no handle, or a live one by then. -/
def isServed (m : Machine) : List HostOp → Bool
  | [] => true
  | op :: ops => op.isServed m && (op.apply m).isServed ops

/-- Some registration on the way drops an object. -/
def drops (m : Machine) : List HostOp → Bool
  | [] => false
  | op :: ops => op.drops m || (op.apply m).drops ops

/-- Counts are exact before and after every operation, and move with every binding. -/
def BindsCounted (m : Machine) : List HostOp → Prop
  | [] => m.CountsExact
  | op :: ops => m.CountsExact ∧ op.Binds m ∧ (op.apply m).BindsCounted ops

/-- Several operations with the machines that they are done to, where native functions do what `ρ`
says. -/
def stages (ρ : Natives) (m : Machine) : List HostOp → List (HostOp × Machine)
  | [] => []
  | op :: ops => (op, m) :: (op.applyBy ρ m).stages ρ ops

/-- The machine after several operations where native functions do what `ρ` says. -/
def hostedBy (ρ : Natives) (m : Machine) : List HostOp → Machine
  | [] => m
  | op :: ops => (op.applyBy ρ m).hostedBy ρ ops

end Machine

/-! ## Counts -/

namespace Heap

variable {h h' : Heap} {v : Value}

/-- An owner that is released had a count to give up. -/
theorem Exact.count?_release {owners : List Handle} {x : Handle} {n : Nat}
    (he : h.Exact (Value.handles [v] ++ owners)) (hr : Heap.release v h = .ok () h')
    (hx : h.count? x = some n) :
    ∃ n', h'.count? x = some n' ∧ n' + (Value.handles [v]).count x = n := by
  refine ⟨_, (Heap.count?_release hr x).trans (congrArg _ hx), ?_⟩
  obtain ⟨c, hc, rfl⟩ := Option.map_eq_some_iff.1 hx
  have hcount := he.count x c hc
  rw [List.count_append, List.count_append] at hcount
  dsimp only
  omega

end Heap

namespace Machine

variable {m : Machine} {name : String} {v : Value}

theorem CountsExact.counted (hc : m.CountsExact) (hw : m.heap.WellFormed) (hb : m.heap.lost = 0) :
    m.Counted [] [] :=
  ⟨⟨hw, fun x hx => hc.live x (List.mem_append_right _ hx), hc.count, hb⟩,
    fun x hx => hc.live x (List.mem_append_left _ hx)⟩

/-! ## One operation -/

/-- Binding a global to a value that is no handle, or a live one, goes through. -/
theorem Counted.setGlobal (hc : m.Counted [] []) (name : String)
    (hv : ∀ x ∈ Value.handles [v], m.heap.contains x = true) :
    ∃ m', Exec.setGlobal name v m = .ok () m' ∧ m.Rebinds name v m' ∧ m'.Counted [] [] := by
  obtain ⟨h₁, hr₁, he₁, hk₁, -⟩ := hc.exact.retain hv
  have he₂ := he₁.perm (Exec.owners_insert m name v)
  cases hold : m.globals.find? name with
  | none =>
    rw [hold] at he₂
    refine ⟨{ m with heap := h₁, globals := m.globals.insert name v }, ?_, ⟨rfl, ?_, ?_⟩, ?_⟩
    · rw [Exec.setGlobal, Exec.run_bind_ok (Exec.run_onHeap_ok hr₁), Exec.run_get_bind, hold]
      rfl
    · exact Heap.object?_retain hr₁
    · intro x n hx
      rw [hold]
      exact ⟨_, (Heap.count?_retain hr₁ x).trans (congrArg _ hx), rfl⟩
    · exact ⟨he₂, fun x hx => hk₁ x (hc.operands x hx)⟩
  | some old =>
    rw [hold] at he₂
    obtain ⟨h₂, hr₂, he₃, hk₂, -⟩ := he₂.release
    refine ⟨{ m with heap := h₂, globals := m.globals.insert name v }, ?_, ⟨rfl, ?_, ?_⟩, ?_⟩
    · rw [Exec.setGlobal, Exec.run_bind_ok (Exec.run_onHeap_ok hr₁), Exec.run_get_bind, hold]
      exact Exec.run_onHeap_ok (m := { m with heap := h₁, globals := m.globals.insert name v }) hr₂
    · exact fun x => (Heap.object?_release hr₂ x).trans (Heap.object?_retain hr₁ x)
    · intro x n hx
      rw [hold]
      exact he₂.count?_release hr₂ ((Heap.count?_retain hr₁ x).trans (congrArg _ hx))
    · exact ⟨he₃, fun x hx => hk₂ x (hk₁ x (hc.operands x hx))⟩

/-- Registering a native function takes what the global held from the owners, and does nothing
else. -/
theorem owners_registerNative (m : Machine) (name : String) (routine : Routine) :
    m.owners.Perm (Value.handles (m.globals.find? name).toList ++
      (m.registerNative name routine).owners) :=
  Exec.owners_insert m name (.native ⟨name, routine⟩)

theorem handles_of_not_drops {routine : Routine}
    (h : (HostOp.registerNative name routine).drops m = false) :
    Value.handles (m.globals.find? name).toList = [] := by
  rw [HostOp.drops] at h
  cases hold : m.globals.find? name with
  | none => rfl
  | some old =>
    rw [hold] at h
    cases old with
    | object x => cases h
    | _ => rfl

/-- A registration that drops no object binds its name, and counts stay exact. -/
theorem Counted.registerNative (hc : m.Counted [] []) {routine : Routine}
    (h : (HostOp.registerNative name routine).drops m = false) :
    m.Rebinds name (.native ⟨name, routine⟩) (m.registerNative name routine) ∧
      (m.registerNative name routine).Counted [] [] := by
  have hnone := handles_of_not_drops h
  refine ⟨⟨rfl, fun _ => rfl, fun x n hx => ⟨n, hx, ?_⟩⟩, ?_⟩
  · rw [hnone]
    rfl
  · have howners := m.owners_registerNative name routine
    rw [hnone] at howners
    exact hc.reown rfl howners fun x hx => hx

/-- The object that a registration drops has one count too many. -/
theorem not_countsExact_of_drops (hc : m.CountsExact) {routine : Routine}
    (h : (HostOp.registerNative name routine).drops m = true) :
    ¬ (m.registerNative name routine).CountsExact := by
  intro hc'
  obtain ⟨x, hx⟩ : ∃ x, Value.handles (m.globals.find? name).toList = [x] := by
    rw [HostOp.drops] at h
    cases hold : m.globals.find? name with
    | none => rw [hold] at h; cases h
    | some old =>
      rw [hold] at h
      cases old with
      | object x => exact ⟨x, rfl⟩
      | _ => cases h
  have howners := m.owners_registerNative name routine
  rw [hx] at howners
  have hlive : m.heap.contains x = true := by
    refine hc.live x (List.mem_append_right _ (List.mem_append_left _ ?_))
    exact howners.mem_iff.2 (List.mem_cons_self ..)
  obtain ⟨c, hfind⟩ := Heap.contains_iff.1 hlive
  have hbefore := hc.count x c hfind
  have hafter := hc'.count x c hfind
  have hmoved := howners.count_eq x
  rw [List.count_append] at hbefore hafter
  rw [List.singleton_append, List.count_cons_self] at hmoved
  have hheap : (m.registerNative name routine).heap = m.heap := rfl
  rw [hheap] at hafter
  omega

/-- An operation that drops no object keeps counts exact, and moves them with what it binds. -/
theorem Counted.applyBy {ρ : Natives} (hρ : ρ.KeepCounts) (hc : m.Counted [] []) {op : HostOp}
    (hserved : op.isServed m = true) (hdrops : op.drops m = false)
    (hs : (op.applyBy ρ m).heap.slots.size < 2 ^ 32) :
    op.Binds m ∧ (op.applyBy ρ m).Counted [] [] := by
  cases op with
  | step => exact ⟨trivial, hc.nextBy hρ hs⟩
  | registerNative name routine => exact hc.registerNative hdrops
  | setGlobal name v =>
    have hv : ∀ x ∈ Value.handles [v], m.heap.contains x = true := by
      intro x hx
      rw [Value.mem_handles, List.mem_singleton] at hx
      subst hx
      exact hserved
    obtain ⟨m', hrun, hbinds, hc'⟩ := hc.setGlobal name hv
    have happly : (HostOp.setGlobal name v).applyBy ρ m = m' := Exec.final_ok hrun
    rw [happly]
    exact ⟨⟨m', hrun, hbinds⟩, hc'⟩

theorem slots_applyBy {ρ : Natives} (hρ : ρ.KeepCounts) (m : Machine) (op : HostOp) :
    m.heap.slots.size ≤ (op.applyBy ρ m).heap.slots.size := by
  cases op with
  | step => exact (extends_nextBy hρ m).slots
  | setGlobal name v => exact ((@Exec.triple_setGlobal [] name v).ext m).slots
  | registerNative name routine => exact Nat.le_refl _

/-! ## Any number of operations -/

theorem slots_hostedBy {ρ : Natives} (hρ : ρ.KeepCounts) (m : Machine) (ops : List HostOp) :
    m.heap.slots.size ≤ (m.hostedBy ρ ops).heap.slots.size := by
  induction ops generalizing m with
  | nil => exact Nat.le_refl _
  | cons op ops ih => exact Nat.le_trans (slots_applyBy hρ m op) (ih _)

theorem countsExact_of_stages {ρ : Natives} {ops : List HostOp}
    (h : (∀ s ∈ m.stages ρ ops, s.2.CountsExact ∧ s.1.Binds s.2) ∧
      (m.hostedBy ρ ops).CountsExact) : m.CountsExact := by
  cases ops with
  | nil => exact h.2
  | cons op ops => exact (h.1 _ List.mem_cons_self).1

/-- By induction on the operations: counts are exact as far as nothing was dropped, and they are off
right behind an operation that drops an object. -/
theorem Counted.stages_iff {ρ : Natives} (hρ : ρ.KeepCounts) {ops : List HostOp}
    (hc : m.Counted [] []) (hserved : ∀ s ∈ m.stages ρ ops, s.1.isServed s.2 = true)
    (hs : (m.hostedBy ρ ops).heap.slots.size < 2 ^ 32) :
    ((∀ s ∈ m.stages ρ ops, s.2.CountsExact ∧ s.1.Binds s.2) ∧ (m.hostedBy ρ ops).CountsExact) ↔
      ∀ s ∈ m.stages ρ ops, s.1.drops s.2 = false := by
  induction ops generalizing m with
  | nil => exact ⟨fun _ _ h => (by cases h), fun _ => ⟨fun _ h => (by cases h), hc.countsExact⟩⟩
  | cons op ops ih =>
    rw [stages, List.forall_mem_cons] at hserved
    rw [stages, List.forall_mem_cons, List.forall_mem_cons, hostedBy]
    have hs' := Nat.lt_of_le_of_lt (slots_hostedBy hρ (op.applyBy ρ m) ops) hs
    cases hdrops : op.drops m with
    | false =>
      obtain ⟨hbinds, hc'⟩ := hc.applyBy hρ hserved.1 hdrops hs'
      have hrest := ih hc' hserved.2 hs
      refine ⟨fun h => ⟨rfl, hrest.1 ⟨h.1.2, h.2⟩⟩, fun h => ?_⟩
      obtain ⟨hstages, hlast⟩ := hrest.2 h.2
      exact ⟨⟨⟨hc.countsExact, hbinds⟩, hstages⟩, hlast⟩
    | true =>
      -- Only a registration drops an object, and counts are off right behind it.
      refine ⟨fun h => ?_, fun h => by cases h.1⟩
      cases op with
      | registerNative name routine =>
        exact absurd (countsExact_of_stages ⟨h.1.2, h.2⟩) (not_countsExact_of_drops h.1.1.1 hdrops)
      | step => cases hdrops
      | setGlobal name v => cases hdrops

/-! ### With the library's own functions -/

theorem applyBy_own (op : HostOp) (m : Machine) : op.applyBy .own m = op.apply m := by
  cases op with
  | step => exact m.nextBy_own
  | _ => rfl

theorem hostedBy_own (m : Machine) (ops : List HostOp) : m.hostedBy .own ops = m.hosted ops := by
  induction ops generalizing m with
  | nil => rfl
  | cons op ops ih => rw [hostedBy, hosted, applyBy_own, ih]

theorem isServed_iff (m : Machine) (ops : List HostOp) :
    m.isServed ops = true ↔ ∀ s ∈ m.stages .own ops, s.1.isServed s.2 = true := by
  induction ops generalizing m with
  | nil => exact ⟨fun _ _ h => (by cases h), fun _ => rfl⟩
  | cons op ops ih =>
    rw [isServed, Bool.and_eq_true, stages, List.forall_mem_cons, applyBy_own, ih]

theorem drops_iff (m : Machine) (ops : List HostOp) :
    m.drops ops = false ↔ ∀ s ∈ m.stages .own ops, s.1.drops s.2 = false := by
  induction ops generalizing m with
  | nil => exact ⟨fun _ _ h => (by cases h), fun _ => rfl⟩
  | cons op ops ih =>
    rw [drops, Bool.or_eq_false_iff, stages, List.forall_mem_cons, applyBy_own, ih]

theorem bindsCounted_iff (m : Machine) (ops : List HostOp) : m.BindsCounted ops ↔
    (∀ s ∈ m.stages .own ops, s.2.CountsExact ∧ s.1.Binds s.2) ∧
      (m.hostedBy .own ops).CountsExact := by
  induction ops generalizing m with
  | nil => exact ⟨fun h => ⟨fun _ h => (by cases h), h⟩, And.right⟩
  | cons op ops ih =>
    rw [BindsCounted, stages, hostedBy, List.forall_mem_cons, applyBy_own, ih, and_assoc, and_assoc]

/-! ## Bindings by a host -/

/-- Whatever a host does in whatever order, from a machine with exact counts, with functions of its
own that keep counts exact: counts are exact before and after each operation, and every binding
takes one count from what the global held and gives one to the new value, exactly if no native
function is registered under a name whose global holds an object. The values that the host binds are
no handles or live ones. The free list of the heap has to be in order and no release so far may have
found a count of zero, and handles are not used twice. -/
theorem host_functions_counted {ρ : Natives} (hρ : ρ.KeepCounts) {m : Machine}
    (hw : m.heap.WellFormed) (hb : m.heap.lost = 0) (hc : m.CountsExact) {ops : List HostOp}
    (hserved : ∀ s ∈ m.stages ρ ops, s.1.isServed s.2 = true)
    (hs : (m.hostedBy ρ ops).heap.slots.size < 2 ^ 32) :
    ((∀ s ∈ m.stages ρ ops, s.2.CountsExact ∧ s.1.Binds s.2) ∧ (m.hostedBy ρ ops).CountsExact) ↔
      ∀ s ∈ m.stages ρ ops, s.1.drops s.2 = false :=
  (hc.counted hw hb).stages_iff hρ hserved hs

/-- A program calls a function that binds a global to an array, and then the host binds the global to
a number. -/
theorem host_functions_counted_bindArgument :
    let code := Instruction.encodeAll [.pushInt 1, .createArray 1, .pushString 0, .getGlobal, .call 1]
    let m := new { code := code.toArray, strings := .ofList ["keep"] } {}
    let ρ := Natives.own.define "keep" (Exec.bindArgument "kept")
    let ops := [.registerNative "keep" .leave, .step, .step, .step, .step, .step,
      .setGlobal "kept" (.int 5)]
    (m.hostedBy ρ ops).heap.count? ⟨0, 0⟩ = some 0 ∧
      (∀ s ∈ m.stages ρ ops, s.2.CountsExact ∧ s.1.Binds s.2) ∧ (m.hostedBy ρ ops).CountsExact := by
  intro code m ρ ops
  have hc : m.Counted [] [] := counted_new _ _
  have hρ : ρ.KeepCounts := Natives.keepCounts_own.define "keep" (Exec.triple_bindArgument "kept")
  refine ⟨by decide +kernel, ?_⟩
  exact (host_functions_counted hρ hc.exact.wellFormed hc.exact.balance hc.countsExact
    (by decide +kernel) (by decide +kernel)).2 (by decide +kernel)

/-- From a machine with exact counts, whatever a host does in whatever order, as long as the values
that it binds are no handles or live ones: counts are exact before and after each operation, and
every binding takes one count from what the global held and gives one to the new value, exactly if
no native function is registered under a name whose global holds an object. The free list of the
heap has to be in order and no release so far may have found a count of zero, and handles are not
used twice. -/
theorem host_bindings_counted {m : Machine} (hw : m.heap.WellFormed) (hb : m.heap.lost = 0)
    (hc : m.CountsExact) {ops : List HostOp} (hserved : m.isServed ops = true)
    (hs : (m.hosted ops).heap.slots.size < 2 ^ 32) :
    m.BindsCounted ops ↔ m.drops ops = false := by
  rw [bindsCounted_iff, drops_iff]
  rw [isServed_iff] at hserved
  rw [← hostedBy_own] at hs
  exact (hc.counted hw hb).stages_iff Natives.keepCounts_own hserved hs

/-- A program binds `a` to an array. The host binds `b` to the same array, binds `a` to a number,
registers a function, and lets go of the array. -/
theorem host_bindings_counted_sharing :
    let code := Instruction.encodeAll
      [.pushInt 1, .createArray 1, .pushString 0, .setGlobal, .pushNull, .drop]
    let m := new { code := code.toArray, strings := .ofList ["a"] } {}
    let ops := [.step, .step, .step, .step, .setGlobal "b" (.object ⟨0, 0⟩), .step,
      .setGlobal "a" (.int 5), .registerNative "f" .discard, .setGlobal "b" .null, .step]
    (m.isServed ops = true ∧ (m.hosted ops).heap.slots.size < 2 ^ 32 ∧ m.drops ops = false) ∧
      m.BindsCounted ops := by
  intro code m ops
  have hc : m.Counted [] [] := counted_new _ _
  have h : m.isServed ops = true ∧ (m.hosted ops).heap.slots.size < 2 ^ 32 ∧
      m.drops ops = false := by
    decide +kernel
  exact ⟨h, (host_bindings_counted hc.exact.wellFormed hc.exact.balance hc.countsExact h.1 h.2.1).2
    h.2.2⟩

/-- The same program, and a function that is registered under the name `a`: nothing holds the array
any more, and it still has a count of one. -/
theorem registering_over_object_not_exact :
    let code := Instruction.encodeAll [.pushInt 1, .createArray 1, .pushString 0, .setGlobal]
    let m := (new { code := code.toArray, strings := .ofList ["a"] } {}).after 4
    let m' := m.registerNative "a" .discard
    m.CountsExact ∧ m'.heap.count? ⟨0, 0⟩ = some 1 ∧ ⟨0, 0⟩ ∉ m'.owners ++ m'.heap.inner ∧
      ¬ m'.CountsExact := by
  intro code m m'
  have hm : m.CountsExact := ((counted_new _ _).after 4 (by decide +kernel)).1.countsExact
  have hcount : m'.heap.count? ⟨0, 0⟩ = some 1 := by decide +kernel
  have hnone : ⟨0, 0⟩ ∉ m'.owners ++ m'.heap.inner := by decide +kernel
  refine ⟨hm, hcount, hnone, fun h => ?_⟩
  obtain ⟨c, hc, hone⟩ := Option.map_eq_some_iff.1 hcount
  have := h.count _ c hc
  rw [List.count_eq_zero_of_not_mem hnone, hone] at this
  cases this

end Machine

end Scriptlet
