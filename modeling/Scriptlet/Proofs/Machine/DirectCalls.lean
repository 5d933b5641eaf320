import Scriptlet.Proofs.Machine.Garbage

/-!
# Direct calls and calls of function references

A function of the program is called directly, or by way of a reference to it that is pushed first. The
reference is one object more on the heap (`Heap.Extra`), which is garbage as soon as it is taken from
the operands again. Everything else that the two ways do is the same, since counting the arguments
does not come across the extra object (`Heap.overlooks_retainAll`) as long as the machine does not hold
the handle of an object that is yet to come (`Heap.upcoming`). No machine that runs from its start
does (`Machine.Counted.upcoming_not_held`), but a host can push any handle.

Main statement: `Machine.direct_call_agrees`.
-/

namespace Scriptlet

namespace Heap

/-- The handle that the next object gets. -/
def upcoming (h : Heap) : Handle :=
  match h.free with
  | index :: _ => ⟨index, (h.slots[index.toNat]?).elim 0 Slot.generation⟩
  | [] => ⟨UInt32.ofNat h.slots.size, 0⟩

/-- The second heap has one object more, which is counted for nothing. -/
structure Extra (x : Handle) (o : Object) (h h' : Heap) : Prop where
  absent : h.find? x = none
  object : h'.find? x = some ⟨0, o⟩
  others : ∀ y, y ≠ x → h'.find? y = h.find? y
  live : h'.live = h.live + 1
  sinceSweep : h'.sinceSweep = h.sinceSweep + 1
  stats : h'.stats = { h.stats with allocations := h.stats.allocations + 1 }

/-- The operation ends with the same fault or the same result, whether there is an extra object
or not. -/
def Overlooks {α : Type} (x : Handle) (o : Object) (act : Action α) : Prop :=
  ∀ h h' : Heap, Extra x o h h' →
    (∃ e k k', act h = .error e k ∧ act h' = .error e k') ∨
    ∃ a k k', act h = .ok a k ∧ act h' = .ok a k' ∧ Extra x o k k'

variable {α β : Type} {h : Heap} {x : Handle} {o : Object}

theorem fst_allocate (h : Heap) (o : Object) : (h.allocate o).1 = h.upcoming := by
  unfold allocate upcoming
  cases h.free <;> rfl

theorem extra_allocate (hw : h.WellFormed) (hs : h.slots.size < 2 ^ 32) (o : Object) :
    Extra h.upcoming o h (h.allocate o).2 := by
  have hfind := find?_allocate_eq hw hs o
  rw [fst_allocate] at hfind
  refine ⟨?_, ?_, fun y hy => ?_, ?_, ?_, ?_⟩
  · rw [← fst_allocate h o]
    exact find?_new hw hs o
  · rw [hfind, if_pos rfl]
  · rw [hfind, if_neg hy]
  all_goals
    unfold allocate
    cases h.free <;> rfl

theorem Extra.object? {h' : Heap} (he : Extra x o h h') : h'.object? x = some o := by
  rw [Heap.object?, he.object]
  rfl

theorem Overlooks.bind {act : Action α} {k : α → Action β} (ha : Overlooks x o act)
    (hk : ∀ a, Overlooks x o (k a)) : Overlooks x o (act >>= k) := fun h h' he => by
  obtain ⟨e, h₁, h₁', hr, hr'⟩ | ⟨a, h₁, h₁', hr, hr', he₁⟩ := ha h h' he
  · refine .inl ⟨e, h₁, h₁', ?_, ?_⟩
    · simp only [Bind.bind, EStateM.bind, hr]
    · simp only [Bind.bind, EStateM.bind, hr']
  · simp only [Bind.bind, EStateM.bind, hr, hr']
    exact hk a h₁ h₁' he₁

theorem overlooks_retain {v : Value} (hv : v ≠ .object x) : Overlooks x o (retain v) := fun h h' he => by
  cases v with
  | object y =>
    have hyx : y ≠ x := fun hyx => hv (congrArg Value.object hyx)
    have hcontains : h'.contains y = h.contains y := by
      rw [contains, contains, he.others y hyx]
    simp only [retain, hcontains]
    by_cases hy : h.contains y = true
    · simp only [hy, if_true]
      obtain ⟨c, hc⟩ := contains_iff.1 hy
      have hc' : h'.find? y = some c := (he.others y hyx).trans hc
      have hfind := fun z => find?_modifyCell_of_find? (y := z)
        (f := fun c => { c with count := c.count + 1 }) hc
      have hfind' := fun z => find?_modifyCell_of_find? (y := z)
        (f := fun c => { c with count := c.count + 1 }) hc'
      refine .inr ⟨(), _, _, rfl, rfl, ?_, ?_, fun z hz => ?_, he.live, he.sinceSweep, ?_⟩
      · exact (hfind x).trans (by rw [if_neg (Ne.symm hyx), he.absent])
      · exact (hfind' x).trans (by rw [if_neg (Ne.symm hyx), he.object])
      · exact (hfind' z).trans (by rw [he.others z hz]; exact (hfind z).symm)
      · exact congrArg (fun s : HeapStats => { s with retains := s.retains + 1 }) he.stats
    · simp only [hy]
      exact .inl ⟨.staleHandle, h, h', rfl, rfl⟩
  | _ => exact .inr ⟨(), h, h', rfl, rfl, he⟩

theorem overlooks_retainAll : ∀ {vs : List Value}, .object x ∉ vs → Overlooks x o (retainAll vs)
  | [], _ => fun h h' he => .inr ⟨(), h, h', rfl, rfl, he⟩
  | v :: vs, hvs => by
    rw [List.mem_cons, not_or] at hvs
    exact (overlooks_retain (Ne.symm hvs.1)).bind fun _ => overlooks_retainAll hvs.2

end Heap

namespace Machine

variable {m : Machine}

/-- What a machine holds that counts exactly is live, so it does not hold a handle yet to come. -/
theorem Counted.upcoming_not_held (hc : m.Counted [] []) (hs : m.heap.slots.size < 2 ^ 32) :
    m.heap.upcoming ∉ m.held := fun hx => by
  have hlive : m.heap.contains m.heap.upcoming = true := hc.countsExact.live _ hx
  obtain ⟨c, hfind⟩ := Heap.contains_iff.1 hlive
  rw [← Heap.fst_allocate m.heap (.string ""), Heap.find?_new hc.exact.wellFormed hs] at hfind
  cases hfind

/-- A new object is garbage before it is put anywhere. -/
theorem garbage_allocate (hw : m.heap.WellFormed) (hs : m.heap.slots.size < 2 ^ 32)
    (hfresh : m.heap.upcoming ∉ m.held) {o : Object} (ho : o.children = []) :
    ({ m with heap := (m.heap.allocate o).2 } : Machine).Garbage m.heap.upcoming := by
  rw [held, List.mem_append, List.mem_append, not_or, not_or] at hfresh
  obtain ⟨hpinned, howners, hinner⟩ := hfresh
  refine ⟨⟨hw.allocate hs o, ?_, ?_⟩, hpinned, howners⟩
  · rw [Heap.count?, (Heap.extra_allocate hw hs o).object]
    rfl
  · rw [← List.count_eq_zero, Heap.count_inner_allocate hw hs, ho, List.count_nil,
      List.count_eq_zero.2 hinner]

/-- Two machines that have entered the same function on top of the same calls. They differ in where
the function returns to, in an extra object of the second, and in the events that they recorded. -/
structure EnteredAlike (x : Handle) (o : Object) (callers : List Caller) (m₁ : Machine)
    (return₁ : Nat) (m₂ : Machine) (return₂ : Nat) : Prop where
  machine : ∃ frame, m₁.callers = ⟨frame, return₁⟩ :: callers ∧ m₂ = { m₁ with
    callers := ⟨frame, return₂⟩ :: callers, heap := m₂.heap, events := m₂.events }
  heap : Heap.Extra x o m₁.heap m₂.heap

/-- The calls of a function, directly at `p` and by way of a reference at `q`, fault alike or enter the
function alike, and the reference is held nowhere and freed by the next sweep. -/
def CallsAgree (m : Machine) (id : UInt32) (p q : Nat) : Prop :=
  let x := m.heap.upcoming
  (∃ f₁ f₂ m₁ m₂, step { m with pc := p } = .error f₁ m₁ ∧
    stepTimes 2 { m with pc := q } = .error f₂ m₂ ∧ f₁.fault = f₂.fault) ∨
  ∃ m₁ m₂, step { m with pc := p } = .ok .ready m₁ ∧ stepTimes 2 { m with pc := q } = .ok .ready m₂ ∧
    EnteredAlike x (.function (.declared id) none) m.callers m₁ (p + 5) m₂ (q + 7) ∧
    ∀ n, (∀ k < n, ¬ (m₂.after k).Collects) → (m₂.after n).heap.slots.size < 2 ^ 32 →
      x ∉ (m₂.after n).held ∧ (m₂.after n).heap.count? x = some 0 ∧
      ∀ pinned, pinned x = false → ((m₂.after n).heap.sweep pinned).2.contains x = false

/-! ## The parts of the calls -/

theorem stepTimes_two (m : Machine) : stepTimes 2 m = match step m with
    | .ok _ m' => step m'
    | .error f m' => .error f m' := by
  have hone : ∀ m, stepTimes 1 m = step m := fun m => by
    cases hr : step m <;> simp only [stepTimes, hr, if_true]
  cases hr : step m with
  | ok status m' =>
    refine Eq.trans ?_ (hone m')
    simp only [stepTimes, hr, if_neg Nat.one_ne_zero]
  | error f m' => simp only [stepTimes, hr]

/-- Pushing a function reference allocates it. -/
theorem step_pushFunction {id : UInt32} (hready : m.status = .ready)
    (hd : Instruction.decode m.bytecode.code m.pc = .instruction (.pushFunction id))
    (hgc : m.heap.sinceSweep < m.config.gcThreshold) :
    ∃ events, step m = .ok .ready { m with
      pc := m.pc + 5, events
      frame := { m.frame with operands := .object m.heap.upcoming :: m.frame.operands }
      heap := (m.heap.allocate (.function (.declared id) none)).2 } := by
  obtain ⟨events, hstep⟩ := step_of_decode hready hd
  rw [collectIfDue_of_lt hgc] at hstep
  refine ⟨events, ?_⟩
  rw [← Heap.fst_allocate m.heap (.function (.declared id) none), ← hready]
  exact (hstep _ rfl).1 _ rfl

end Machine

namespace Exec

variable {m : Machine} {x : Handle} {o : Object}

theorem run_callFunction {id : UInt32} {f : FunctionEntry} (hf : m.bytecode.function? id = some f) :
    callFunction id m = callDeclared id f.arity m := by
  rw [callFunction, run_get_bind, hf]

/-- Calling a reference to a function of the program, which is taken from the operands first. -/
theorem run_call {id : UInt32} {vs : List Value} (hops : m.frame.operands = .object x :: vs)
    (hx : m.heap.object? x = some (.function (.declared id) none)) (args : UInt8) :
    execute (.call args) m =
      callDeclared id args.toNat { m with frame := { m.frame with operands := vs } } := by
  have hpop := run_pop_cons hops
  rw [execute, run_bind_ok hpop]
  simp only [callValue, run_get_bind, hx, callCallee]

/-- A call that neither lacks operands nor exceeds the depth counts its arguments, and then goes to the
function. -/
theorem run_callDeclared {id : UInt32} {f : FunctionEntry} (hf : m.bytecode.function? id = some f)
    (hdepth : ¬ m.config.maxCallDepth ≤ m.depth) (hlen : ¬ m.frame.operands.length < f.arity) :
    callDeclared id f.arity m =
      (onHeap (Heap.retainAll (m.frame.operands.take f.arity).reverse) >>= fun _ =>
        enter f.offset (m.frame.operands.take f.arity).reverse)
      { m with frame := { m.frame with operands := m.frame.operands.drop f.arity } } := by
  simp only [callDeclared, run_get_bind, hf, ne_eq, not_true_eq_false, if_false, if_neg hdepth]
  rw [run_bind_ok (run_popN_of_not_lt hlen)]

/-- A call of a function of the program goes the same way, whether there is an extra object
or not. -/
theorem callDeclared_alike {h' : Heap} (he : Heap.Extra x o m.heap h')
    (hx : .object x ∉ m.frame.operands) {id : UInt32} {f : FunctionEntry}
    (hf : m.bytecode.function? id = some f) (pc : Nat) (events : Array Event) :
    let m' : Machine := { m with heap := h', pc, events }
    (∃ e k k', callDeclared id f.arity m = .error e k ∧ callDeclared id f.arity m' = .error e k') ∨
    ∃ k k', callDeclared id f.arity m = .ok () k ∧ callDeclared id f.arity m' = .ok () k' ∧
      k.status = m.status ∧ Machine.EnteredAlike x o m.callers k m.pc k' pc := by
  intro m'
  by_cases hdepth : m.config.maxCallDepth ≤ m.depth
  · have hrun : ∀ k : Machine, k.bytecode = m.bytecode → k.config.maxCallDepth ≤ k.depth →
        callDeclared id f.arity k = .error (.callDepthExceeded k.config.maxCallDepth) k := by
      intro k hk hd
      simp only [callDeclared, run_get_bind, hk, hf, ne_eq, not_true_eq_false, if_false, if_pos hd]
      rfl
    exact .inl ⟨_, _, _, hrun m rfl hdepth, hrun m' rfl hdepth⟩
  by_cases hlen : m.frame.operands.length < f.arity
  · have hrun : ∀ k : Machine, k.bytecode = m.bytecode → ¬ k.config.maxCallDepth ≤ k.depth →
        k.frame.operands.length < f.arity → callDeclared id f.arity k = .error .stackUnderflow k := by
      intro k hk hd hl
      simp only [callDeclared, run_get_bind, hk, hf, ne_eq, not_true_eq_false, if_false, if_neg hd]
      exact run_bind_error (run_popN_of_lt hl) _
    exact .inl ⟨_, _, _, hrun m rfl hdepth hlen, hrun m' rfl hdepth hlen⟩
  rw [run_callDeclared hf hdepth hlen, run_callDeclared (m := m') hf hdepth hlen]
  have hvs : .object x ∉ (m.frame.operands.take f.arity).reverse := fun hmem =>
    hx (List.mem_of_mem_take (List.mem_reverse.1 hmem))
  let waiting : Frame := { m.frame with operands := m.frame.operands.drop f.arity }
  obtain ⟨e, k, k', hr, hr'⟩ | ⟨_, k, k', hr, hr', he'⟩ :=
    Heap.overlooks_retainAll hvs m.heap h' he
  · have hk : onHeap (Heap.retainAll (m.frame.operands.take f.arity).reverse)
        { m with frame := waiting } = .error e { m with frame := waiting, heap := k } := by
      rw [run_onHeap, hr]
    have hk' : onHeap (Heap.retainAll (m.frame.operands.take f.arity).reverse)
        { m' with frame := waiting } = .error e { m' with frame := waiting, heap := k' } := by
      rw [run_onHeap, hr']
    exact .inl ⟨e, _, _, run_bind_error hk _, run_bind_error hk' _⟩
  · have hk := run_onHeap_ok (m := { m with frame := waiting }) hr
    have hk' := run_onHeap_ok (m := { m' with frame := waiting }) hr'
    exact .inr ⟨_, _, run_bind_ok hk _, run_bind_ok hk' _, rfl, ⟨waiting, rfl, rfl⟩, he'⟩

end Exec

/-! ## Both calls -/

namespace Machine

variable {m : Machine}

/-- For every machine that does not hold the handle of an object yet to come, and every function that
can be called with one byte for its arguments: if no collection is due in between, a direct call and
a call of a new reference agree. -/
theorem direct_call_agrees {id : UInt32} {f : FunctionEntry} {args : UInt8} {p q : Nat}
    (hready : m.status = .ready) (hf : m.bytecode.function? id = some f)
    (hargs : f.arity = args.toNat)
    (hp : Instruction.decode m.bytecode.code p = .instruction (.callFunction id))
    (hq : Instruction.decode m.bytecode.code q = .instruction (.pushFunction id))
    (hcall : Instruction.decode m.bytecode.code (q + 5) = .instruction (.call args))
    (hgc : m.heap.sinceSweep + 1 < m.config.gcThreshold) (hw : m.heap.WellFormed)
    (hs : m.heap.slots.size < 2 ^ 32) (hfresh : m.heap.upcoming ∉ m.held) :
    m.CallsAgree id p q := by
  let x := m.heap.upcoming
  have hextra := Heap.extra_allocate hw hs (.function (.declared id) none)
  have hx : .object x ∉ m.frame.operands := fun hx => by
    refine hfresh (List.mem_append_left _ ?_)
    rw [Exec.pinned_eq]
    exact List.mem_append_left _ (Value.mem_handles.2 hx)
  -- the direct call
  obtain ⟨events₁, hstep₁⟩ := step_of_decode (m := { m with pc := p }) hready hp
  rw [collectIfDue_of_lt (by exact Nat.lt_of_succ_lt hgc)] at hstep₁
  let direct : Machine := { m with pc := p + 5, events := events₁ }
  have hrun₁ : Exec.execute (.callFunction id) direct = Exec.callDeclared id f.arity direct :=
    Exec.run_callFunction hf
  -- the reference, which is called in the next step
  obtain ⟨events, hpush⟩ := step_pushFunction (m := { m with pc := q }) hready hq
    (Nat.lt_of_succ_lt hgc)
  let pushed : Machine := { m with
    pc := q + 5, events
    frame := { m.frame with operands := .object x :: m.frame.operands }
    heap := (m.heap.allocate (.function (.declared id) none)).2 }
  have htwice : stepTimes 2 { m with pc := q } = step pushed := by
    rw [stepTimes_two, hpush]
  obtain ⟨events₂, hstep₂⟩ := step_of_decode (m := pushed) hready hcall
  rw [collectIfDue_of_lt (by rw [hextra.sinceSweep]; exact hgc)] at hstep₂
  have hrun₂ := Exec.run_call (m := { pushed with pc := q + 7, events := events₂ }) rfl
    hextra.object? args
  rw [← hargs] at hrun₂
  obtain ⟨e, k, k', hk, hk'⟩ | ⟨k, k', hk, hk', hstatus, halike⟩ :=
    Exec.callDeclared_alike (m := direct) hextra hx hf (q + 7) events₂
  · have h₁ := (hstep₁ direct rfl).2 e k (hrun₁.trans hk)
    have h₂ := (hstep₂ _ rfl).2 e k' (hrun₂.trans hk')
    exact .inl ⟨_, _, _, _, h₁, htwice.trans h₂, rfl⟩
  · have h₁ := (hstep₁ direct rfl).1 k (hrun₁.trans hk)
    have h₂ := (hstep₂ _ rfl).1 k' (hrun₂.trans hk')
    have hready₁ : k.status = .ready := hstatus.trans hready
    have hready₂ : k'.status = .ready := by
      obtain ⟨frame, -, he⟩ := halike.machine
      rw [he]
      exact hready₁
    rw [hready₁] at h₁
    rw [hready₂] at h₂
    refine .inr ⟨k, k', h₁, htwice.trans h₂, halike, fun n hno hslots => ?_⟩
    -- the reference was taken from the operands, so it is garbage when the function is entered
    have hgarbage := garbage_allocate hw hs hfresh (o := .function (.declared id) none) rfl
    have hspares := Exec.spares_callDeclared (m := { direct with
      heap := (m.heap.allocate (.function (.declared id) none)).2, pc := q + 7, events := events₂ })
      (hgarbage.spared.congr rfl rfl rfl) id f.arity
    unfold Exec.Spares at hspares
    rw [hk'] at hspares
    have hentered := (hspares (Nat.lt_of_le_of_lt (k'.extends_after n).slots hslots)).1
    have hafter := hentered.after n hno hslots
    exact ⟨hafter.not_held, hafter.heap.count, fun _ hp => hafter.contains_sweep hp⟩

/-- A program of one function with one parameter, which its code calls in both ways. -/
def bothCalls : Bytecode where
  code := (Instruction.encodeAll
    [.pushString 0, .callFunction 0, .pushFunction 0, .call 1, .ret]).toArray
  functions := #[{ name := 0, params := [(0, .any)], offset := 17 }]

/-- The machine that has pushed a string calls the function with it. -/
theorem direct_call_agrees_string :
    ((bare bothCalls {}).after 1).frame.operands = [.object ⟨0, 0⟩] ∧
      ((bare bothCalls {}).after 1).CallsAgree 0 5 10 := by
  have hs : ((bare bothCalls {}).after 1).heap.slots.size < 2 ^ 32 := by decide +kernel
  obtain ⟨hc, -⟩ := (counted_bare bothCalls {}).after 1 hs
  have hargs : ({ name := 0, params := [(0, .any)], offset := 17 } : FunctionEntry).arity =
      (1 : UInt8).toNat := rfl
  refine ⟨by decide +kernel, ?_⟩
  exact direct_call_agrees (by decide +kernel) (by decide +kernel) hargs (by decide +kernel)
    (by decide +kernel) (by decide +kernel) (by decide +kernel) hc.exact.wellFormed hs
    (hc.upcoming_not_held hs)

/-- A host has pushed the handle of an object yet to come. The direct call finds it stale; the other
call makes the object first, and passes the reference to the function that it refers to. -/
theorem forged_handle_is_passed :
    let m : Machine := { bare bothCalls {} with frame := { operands := [.object ⟨0, 0⟩] } }
    ({ m with pc := 5 } : Machine).nextFault?.map RuntimeFault.fault = some .staleHandle ∧
      ({ m with pc := 10 } : Machine).faultWithin? 2 = none ∧
      (({ m with pc := 10 } : Machine).after 2).frame.locals = #[.object ⟨0, 0⟩] ∧
      ¬ m.CallsAgree 0 5 10 := by
  intro m
  have hfault : ({ m with pc := 5 } : Machine).nextFault?.map RuntimeFault.fault =
      some .staleHandle := by decide +kernel
  have hnone : (match stepTimes 2 { m with pc := 10 } with
      | .ok .. => true
      | .error .. => false) = true := by decide +kernel
  refine ⟨hfault, by decide +kernel, by decide +kernel, ?_⟩
  rintro (⟨f₁, f₂, m₁, m₂, -, h₂, -⟩ | ⟨m₁, m₂, h₁, -⟩)
  · rw [h₂] at hnone
    cases hnone
  · rw [nextFault?, h₁] at hfault
    cases hfault

end Machine

end Scriptlet
