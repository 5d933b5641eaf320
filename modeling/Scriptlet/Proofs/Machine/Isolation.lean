import Scriptlet.Proofs.Machine.Backed
import Scriptlet.Proofs.Machine.ExactCounts

/-!
# Calls are isolated

An instruction leaves the callers of a machine alone, enters a function, or returns from one
(`Machine.Moves`). What a call leaves behind for its caller is fixed when it is entered: the frame
without the operands that the call takes, and the address behind the call instruction. Nothing touches it
until the call depth is back, and then one value is put on top (`Machine.calls_isolated`).

A return releases the locals of the call. That they can be released is where counts come in
(`Machine.Backed`): a return that faulted would leave the caller without a value.
-/

namespace Scriptlet

/-- The number of operands that a call instruction takes from its caller: the arguments, and the callee
or the receiver if there is one. -/
def Instruction.takes? (b : Bytecode) : Instruction → Option Nat
  | .call args => some (args.toNat + 1)
  | .callMethod _ args => some (args.toNat + 1)
  | .callFunction id => (b.function? id).map FunctionEntry.arity
  | _ => none

namespace Machine

/-- The machine enters a function that takes `k` operands of the frame and returns to an address. -/
structure Enters (k returnTo : Nat) (m m' : Machine) : Prop where
  limit : m.depth < m.config.maxCallDepth
  enough : k ≤ m.frame.operands.length
  callers : m'.callers =
    ⟨{ m.frame with operands := m.frame.operands.drop k }, returnTo⟩ :: m.callers

/-- The machine returns a value to its innermost caller. -/
def Returns (m m' : Machine) : Prop :=
  ∃ (caller : Caller) (v : Value), m.callers = caller :: m'.callers ∧ m'.pc = caller.returnTo ∧
    m'.frame = { caller.frame with operands := v :: caller.frame.operands }

/-- What an instruction that calls with `taken` operands does to the callers. -/
inductive Moves (taken : Option Nat) (m m' : Machine) : Prop where
  | stay (callers : m'.callers = m.callers)
  | enter (k : Nat) (taken_eq : taken = some k) (enters : m.Enters k m.pc m')
  | back (returns : m.Returns m')

end Machine

open Machine (Backed)

namespace Exec

variable {α : Type} {taken taken' : Option Nat} {m m' : Machine}

/-- What an instruction does to the callers of a machine, with counts that stay high enough unless it
faults. -/
structure Framed (taken : Option Nat) (m : Machine) (act : Exec Unit) : Prop where
  moves : m.Moves taken (act.final m)
  run : ∀ m', act m = .ok () m' → m'.Backed []

theorem Stays.framed {act : Exec Unit} (h : Stays m act fun _ => Backed []) : Framed taken m act :=
  ⟨.stay h.callers, fun m' => h.run () m'⟩

namespace Framed

theorem get_bind {k : Machine → Exec Unit} (hk : Framed taken m (k m)) : Framed taken m (get >>= k) :=
  ⟨hk.moves, hk.run⟩

theorem of_ok {act : Exec Unit} (hr : act m = .ok () m') (hmoves : m.Moves taken m')
    (hm : m'.Backed []) : Framed taken m act :=
  ⟨by rwa [final_ok hr], fun m'' hr' => by
    rw [hr] at hr'
    cases hr'
    exact hm⟩

/-- A change of operands before an action changes what the action takes from the frame. -/
theorem bind {act : Exec α} {f : α → Exec Unit} {a : α} {vs : List Value}
    (hr : act m = .ok a { m with frame := { m.frame with operands := vs } })
    (htaken : ∀ j, taken' = some j → ∃ k, taken = some k ∧ vs.drop j = m.frame.operands.drop k ∧
      (j ≤ vs.length → k ≤ m.frame.operands.length))
    (hf : Framed taken' { m with frame := { m.frame with operands := vs } } (f a)) :
    Framed taken m (act >>= f) := by
  refine ⟨?_, fun m' h => hf.run m' (by rwa [run_bind_ok hr] at h)⟩
  rw [final, run_bind_ok hr]
  cases hf.moves with
  | stay hcallers => exact .stay hcallers
  | enter j hj he =>
    obtain ⟨k, hk, hdrop, hlen⟩ := htaken j hj
    refine .enter k hk ⟨he.limit, hlen he.enough, ?_⟩
    rw [← hdrop]
    exact he.callers
  | back hback => exact .back hback

end Framed

/-! ## Calls and returns -/

/-- A call that has taken its arguments is entered, if they can be counted. -/
theorem framed_enter (hm : m.Backed []) (hlimit : m.depth < m.config.maxCallDepth) (offset : Nat)
    (vs : List Value) : Framed (some 0) m (do onHeap (Heap.retainAll vs); enter offset vs) := by
  cases hh : Heap.retainAll vs m.heap with
  | error f h' =>
    have hr : onHeap (Heap.retainAll vs) m = .error f { m with heap := h' } := by rw [run_onHeap, hh]
    exact (Stays.of_error (run_bind_error hr _) rfl).framed
  | ok _ h' =>
    refine .of_ok (run_bind_ok (run_onHeap_ok hh) _) (.enter 0 rfl ⟨hlimit, Nat.zero_le _, rfl⟩) ?_
    have hb : ({ m with heap := h' } : Machine).Backed (Value.handles vs) := Heap.Backs.retainAll hm hh
    exact hb.reown rfl (.of_eq (owners_enter { m with heap := h' } offset vs))

theorem framed_callDeclared (hm : m.Backed []) (id : UInt32) (args : Nat) :
    Framed (some args) m (callDeclared id args) := by
  refine .get_bind ?_
  split
  · exact Stays.fault.framed
  · split
    · exact Stays.fault.framed
    · split
      · exact Stays.fault.framed
      · next hlimit =>
        by_cases hl : m.frame.operands.length < args
        · exact (Stays.of_error (run_bind_error (run_popN_of_lt hl) _) rfl).framed
        · refine .bind (run_popN_of_not_lt hl) ?_
            (framed_enter (hm.withOperands (m.frame.operands.drop args)) (Nat.lt_of_not_le hlimit) _ _)
          rintro j ⟨⟩
          exact ⟨args, rfl, rfl, fun _ => Nat.le_of_not_lt hl⟩

theorem framed_callFunction (hm : m.Backed []) (id : UInt32) :
    Framed ((m.bytecode.function? id).map FunctionEntry.arity) m (callFunction id) := by
  refine .get_bind ?_
  cases m.bytecode.function? id with
  | none => exact Stays.fault.framed
  | some f => exact framed_callDeclared hm id f.arity

theorem framed_callCallee (hm : m.Backed []) (callee : Callee) (args : Nat) :
    Framed (some args) m (callCallee callee args) := by
  cases callee with
  | declared id => exact framed_callDeclared hm id args
  | native f => exact (stays_callNative hm f args).framed

theorem run_insertBelow_of_lt {count : Nat} {v : Value} (h : m.frame.operands.length < count) :
    insertBelow count v m = .error .stackUnderflow m := by
  simp only [insertBelow, if_pos h]

theorem run_insertBelow_of_not_lt {count : Nat} {v : Value} (h : ¬ m.frame.operands.length < count) :
    insertBelow count v m = .ok () { m with frame := { m.frame with
      operands := m.frame.operands.take count ++ v :: m.frame.operands.drop count } } := by
  simp only [insertBelow, if_neg h]

theorem framed_callValue (hm : m.Backed []) (v : Value) (args : Nat) :
    Framed (some args) m (callValue v args) := by
  unfold callValue
  split
  · exact (stays_callNative hm _ args).framed
  · refine .get_bind ?_
    split
    · exact framed_callCallee hm _ args
    · next callee receiver _ =>
      by_cases hl : m.frame.operands.length < args
      · exact (Stays.of_error (run_bind_error (run_insertBelow_of_lt hl) _) rfl).framed
      · -- the receiver is taken as one more argument, so nothing of it is left
        refine .bind (run_insertBelow_of_not_lt hl) ?_
          (framed_callCallee (hm.withOperands _) callee (args + 1))
        rintro j ⟨⟩
        have hlen : (m.frame.operands.take args).length = args := by
          rw [List.length_take, Nat.min_eq_left (Nat.le_of_not_lt hl)]
        refine ⟨args, rfl, ?_, fun _ => Nat.le_of_not_lt hl⟩
        rw [← List.drop_drop, List.drop_left' hlen]
        rfl
    · exact Stays.fault.framed
    · exact Stays.fault.framed
  · exact Stays.fault.framed

theorem framed_callMethod (hm : m.Backed []) (name : Symbol) (args : Nat) :
    Framed (some (args + 1)) m (callMethod name args) := by
  refine .get_bind ?_
  split
  · exact Stays.fault.framed
  · next receiver hreceiver =>
    split
    · exact (stays_callNative hm _ _).framed
    · split
      · next callee _ =>
        split
        · refine .bind (a := ()) (run_modify _ m) ?_ (framed_callValue (hm.withOperands _) callee args)
          rintro j ⟨⟩
          have hlt := (List.getElem?_eq_some_iff.1 hreceiver).1
          have hlen : (m.frame.operands.take args).length = args := by
            rw [List.length_take, Nat.min_eq_left (Nat.le_of_lt hlt)]
          refine ⟨args + 1, rfl, ?_, fun _ => hlt⟩
          rw [List.eraseIdx_eq_take_drop_succ, List.drop_left' hlen]
        · exact Stays.fault.framed
      · exact Stays.fault.framed

theorem framed_returnValue (hm : m.Backed []) (v : Value) : Framed none m (returnValue v) := by
  cases hcs : m.callers with
  | nil => exact .of_ok (run_returnValue_nil hcs v) (.stay rfl) (hm.congr rfl rfl)
  | cons caller callers =>
    have hb : m.heap.Backs (Value.handles m.frame.locals.toList ++
        ({ m with frame := caller.frame, callers } : Machine).owners) := owners_return hcs ▸ hm
    obtain ⟨h', hr, hb'⟩ := hb.releaseAll
    have hrun : returnValue v m = .ok () { m with
        heap := h'
        pc := caller.returnTo
        frame := { caller.frame with operands := v :: caller.frame.operands }
        callers } := by
      rw [run_returnValue_cons hcs, giveBack]
      exact run_bind_ok (run_onHeap_ok (m := { m with frame := caller.frame, callers }) hr) _
    exact .of_ok hrun (.back ⟨caller, v, hcs, rfl, rfl⟩) hb'

/-! ## Instructions -/

theorem framed_execute (hm : m.Backed []) (i : Instruction) :
    Framed (i.takes? m.bytecode) m (execute i) := by
  -- all but calls and returns leave the callers as they are
  cases i with
  | pushNull => exact (stays_push hm _).framed
  | pushTrue => exact (stays_push hm _).framed
  | pushFalse => exact (stays_push hm _).framed
  | pushInt n => exact (stays_push hm _).framed
  | pushUInt n => exact (stays_push hm _).framed
  | pushFloat x => exact (stays_push hm _).framed
  | pushChar c => exact (stays_push hm _).framed
  | pushString s =>
    exact Stays.framed (.bind (stays_constant hm s) fun x _ hm => stays_push hm (.object x))
  | pushFunction id => exact Stays.framed (stays_pushNew hm)
  | binary op => exact (stays_binary hm op).framed
  | unary op => exact (stays_unary hm op).framed
  | getLocal slot => exact (stays_getLocal hm slot).framed
  | setLocal slot => exact Stays.framed (.bind (stays_pop hm) fun v _ hm => stays_setLocal hm slot v)
  | shrinkLocals count => exact (stays_shrinkLocals count.toNat hm).framed
  | getGlobal => exact (stays_getGlobal hm).framed
  | setGlobal =>
    exact Stays.framed (.bind (stays_popString hm) fun name _ hm => .bind (stays_pop hm) fun v _ hm =>
      stays_setGlobal hm name v)
  | getElement => exact (stays_getElement hm).framed
  | setElement => exact (stays_setElement hm).framed
  | getField name => exact (stays_getField hm name).framed
  | setField name => exact (stays_setField hm name).framed
  | createArray count => exact (stays_createArray hm count.toNat).framed
  | construct type args => exact (stays_construct hm type args.toNat).framed
  | callMethod name args => exact framed_callMethod hm name args.toNat
  | call args =>
    cases hv : m.frame.operands with
    | nil => exact (Stays.of_error (run_bind_error (run_pop_nil hv) _) rfl).framed
    | cons v vs =>
      refine .bind (run_pop_cons hv) ?_ (framed_callValue (hm.withOperands _) v args.toNat)
      rintro j ⟨⟩
      rw [hv]
      exact ⟨args.toNat + 1, rfl, rfl, Nat.succ_le_succ⟩
  | callFunction id => exact framed_callFunction hm id
  | ret => exact framed_returnValue hm .null
  | retValue =>
    cases hv : m.frame.operands with
    | nil => exact (Stays.of_error (run_bind_error (run_pop_nil hv) _) rfl).framed
    | cons v vs =>
      refine .bind (run_pop_cons hv) ?_ (framed_returnValue (hm.withOperands _) v)
      rintro j ⟨⟩
  | jump target => exact Stays.framed (.modify rfl (hm.congr rfl rfl))
  | jumpIfFalse target =>
    refine Stays.framed (.bind (stays_pop hm) fun v _ hm => ?_)
    split
    · exact .pure hm
    · exact .modify rfl (hm.congr rfl rfl)
  | drop => exact Stays.framed (.bind (stays_pop hm) fun _ _ hm => .pure hm)
  | halt => exact Stays.framed (.modify rfl (hm.congr rfl rfl))

end Exec

namespace Machine

/-! ## One step -/

theorem frame_collectIfDue (m : Machine) : m.collectIfDue.frame = m.frame ∧
    m.collectIfDue.callers = m.callers ∧ m.collectIfDue.pc = m.pc := by
  unfold collectIfDue
  split
  · obtain ⟨events, he⟩ := m.collectGarbage_eq
    rw [he]
    exact ⟨rfl, rfl, rfl⟩
  · exact ⟨rfl, rfl, rfl⟩

theorem Backed.collectIfDue {m : Machine} (hm : m.Backed []) : m.collectIfDue.Backed [] := by
  unfold Machine.collectIfDue
  split
  · exact hm.collectGarbage
  · exact hm

/-- What a step does to the callers. -/
inductive Steps (m m' : Machine) : Prop where
  | stay (callers : m'.callers = m.callers)
  | enter (i : Instruction) (k : Nat)
    (decode : Instruction.decode m.bytecode.code m.pc = .instruction i)
    (takes : i.takes? m.bytecode = some k) (enters : m.Enters k (m.pc + i.width) m')
  | back (returns : m.Returns m')

/-- An instruction runs with the program counter behind it. -/
theorem Moves.steps {m m' : Machine} {i : Instruction} {events : Array Event}
    (hd : Instruction.decode m.bytecode.code m.pc = .instruction i)
    (hm : ({ m with pc := m.pc + i.width, events } : Machine).Moves (i.takes? m.bytecode) m') :
    m.Steps m' := by
  cases hm with
  | stay hcallers => exact .stay hcallers
  | enter k hk he => exact .enter i k hd hk ⟨he.limit, he.enough, he.callers⟩
  | back hback => exact .back hback

/-- A halt leaves frames alone. -/
theorem Steps.halt {m m' : Machine} (hm : m.Steps m') : m.Steps { m' with status := .halted } := by
  cases hm with
  | stay hcallers => exact .stay hcallers
  | enter i k hd hk he => exact .enter i k hd hk ⟨he.limit, he.enough, he.callers⟩
  | back hback => exact .back hback

theorem Backed.executeNext {m : Machine} (hm : m.Backed []) :
    match m.executeNext with
    | .ok _ m' => m.Steps m' ∧ m'.Backed []
    | .error _ m' => m.Steps m' ∧ m'.status = .halted := by
  obtain ⟨f, he, -⟩ | ⟨i, events, hd, he⟩ := m.executeNext_cases
  · rw [he]
    exact ⟨.stay rfl, rfl⟩
  · have hm' : ({ m with pc := m.pc + i.width, events } : Machine).Backed [] := hm.congr rfl rfl
    have hf := Exec.framed_execute hm' i
    have hsteps := hf.moves.steps hd
    rw [he]
    cases hr : Exec.execute i { m with pc := m.pc + i.width, events } with
    | ok _ m' =>
      rw [Exec.final_ok hr] at hsteps
      exact ⟨hsteps, hf.run m' hr⟩
    | error f m' =>
      rw [Exec.final_error hr] at hsteps
      exact ⟨hsteps.halt, rfl⟩

theorem Steps.of_collectIfDue {m m' : Machine} (hm : m.collectIfDue.Steps m') : m.Steps m' := by
  obtain ⟨hframe, hcallers, hpc⟩ := m.frame_collectIfDue
  have hext := m.extends_collectIfDue
  cases hm with
  | stay h => exact .stay (h.trans hcallers)
  | enter i k hd hk he =>
    rw [hext.bytecode, hpc] at hd
    rw [hext.bytecode] at hk
    obtain ⟨hlimit, henough, hentered⟩ := he
    rw [depth, hcallers, hext.config] at hlimit
    rw [hframe] at henough hentered
    rw [hpc, hcallers] at hentered
    exact .enter i k hd hk ⟨hlimit, henough, hentered⟩
  | back h =>
    rw [Returns, hcallers] at h
    exact .back h

/-- A step stays in its function, enters another or returns, and counts stay high enough as long as it
does not fault. -/
theorem steps_next {m : Machine} (hm : m.status = .ready → m.Backed []) :
    m.Steps m.next ∧ (m.next.status = .ready → m.next.Backed []) := by
  unfold next
  obtain ⟨h, hs⟩ | ⟨h, -⟩ | ⟨h, hs, -⟩ := m.step_cases
  · rw [h]
    exact ⟨.stay rfl, hm⟩
  · rw [h]
    exact ⟨.stay rfl, fun hr => by cases hr⟩
  · rw [h]
    have hx := (hm hs).collectIfDue.executeNext
    revert hx
    cases m.collectIfDue.executeNext with
    | ok _ m' => exact fun hx => ⟨hx.1.of_collectIfDue, fun _ => hx.2⟩
    | error f m' =>
      rintro ⟨hsteps, hhalted⟩
      refine ⟨hsteps.of_collectIfDue, fun hr => ?_⟩
      rw [hhalted] at hr
      cases hr

/-- Only a call makes calls deeper. -/
theorem Steps.exists_call {m m' : Machine} (hm : m.Steps m') (hdeeper : m.depth < m'.depth) :
    ∃ i k, Instruction.decode m.bytecode.code m.pc = .instruction i ∧ i.takes? m.bytecode = some k ∧
      m.Enters k (m.pc + i.width) m' := by
  unfold depth at hdeeper
  cases hm with
  | stay hcallers =>
    rw [hcallers] at hdeeper
    exact absurd hdeeper (Nat.lt_irrefl _)
  | enter i k hd hk he => exact ⟨i, k, hd, hk, he⟩
  | back h =>
    obtain ⟨caller, v, hcallers, -⟩ := h
    rw [hcallers, List.length_cons] at hdeeper
    omega

/-! ## Any number of steps -/

theorem backed_new (b : Bytecode) (cfg : Config) : (new b cfg).Backed [] := by
  refine ⟨⟨List.nodup_nil, fun i hi => ?_⟩, fun x => Nat.le_refl _⟩
  cases hi

theorem backed_after (b : Bytecode) (cfg : Config) : ∀ n : Nat,
    ((new b cfg).after n).status = .ready → ((new b cfg).after n).Backed []
  | 0 => fun _ => backed_new b cfg
  | n + 1 => (steps_next (backed_after b cfg n)).2

theorem steps_after (b : Bytecode) (cfg : Config) (n : Nat) :
    ((new b cfg).after n).Steps ((new b cfg).after (n + 1)) :=
  (steps_next (backed_after b cfg n)).1

theorem depth_after_le (b : Bytecode) (cfg : Config) : ∀ n : Nat,
    ((new b cfg).after n).depth ≤ cfg.maxCallDepth
  | 0 => Nat.zero_le _
  | n + 1 => by
    have hle := depth_after_le b cfg n
    have hconfig := ((new b cfg).extends_after n).config
    unfold depth at hle ⊢
    cases steps_after b cfg n with
    | stay hcallers => rwa [hcallers]
    | enter i k _ _ he =>
      have := he.limit
      rw [he.callers, List.length_cons]
      rw [hconfig] at this
      exact this
    | back h =>
      obtain ⟨caller, v, hcallers, -⟩ := h
      rw [hcallers, List.length_cons] at hle
      exact Nat.le_of_succ_le hle

/-- A step leaves a caller where it is, unless it returns to it. -/
theorem Steps.caller {m m' : Machine} (hm : m.Steps m') {c : Caller} {cs : List Caller}
    (hc : c :: cs <:+ m.callers) : c :: cs <:+ m'.callers ∨ (m'.callers = cs ∧ m'.pc = c.returnTo ∧
      ∃ v, m'.frame = { c.frame with operands := v :: c.frame.operands }) := by
  cases hm with
  | stay hcallers => exact .inl (hcallers ▸ hc)
  | enter i k _ _ he =>
    rw [he.callers]
    exact .inl (hc.trans (List.suffix_cons _ _))
  | back h =>
    obtain ⟨caller, v, hcallers, hpc, hframe⟩ := h
    rw [hcallers] at hc
    rcases List.suffix_cons_iff.1 hc with heq | hsuffix
    · cases heq
      exact .inr ⟨rfl, hpc, v, hframe⟩
    · exact .inl hsuffix

/-- A caller stays where it is until the call depth is back. -/
theorem caller_after {b : Bytecode} {cfg : Config} {n : Nat} {c : Caller}
    (hc : ((new b cfg).after (n + 1)).callers = c :: ((new b cfg).after n).callers) {j : Nat}
    (hj : n + 1 ≤ j)
    (hinside : ∀ i, n < i → i ≤ j → ((new b cfg).after i).depth ≠ ((new b cfg).after n).depth) :
    c :: ((new b cfg).after n).callers <:+ ((new b cfg).after j).callers := by
  induction j, hj using Nat.le_induction with
  | base => rw [hc]
  | succ j hj ih =>
    have hstay := ih fun i hi hij => hinside i hi (Nat.le_succ_of_le hij)
    rcases (steps_after b cfg j).caller hstay with hsuffix | ⟨hback, -⟩
    · exact hsuffix
    · exact absurd (congrArg List.length hback) (hinside (j + 1) (by omega) (Nat.le_refl _))

/-- In every state that a machine reaches there is one frame more than there are active calls, which is
so by the shape of a machine (`Machine.callers` pairs every waiting frame with its address), and calls
are limited. If a step makes the calls deeper, it executes a call instruction. After the first later step
that brings the call depth back, the caller has the locals that it had, one value on top of the operands
that the call did not take, and goes on behind the call instruction. -/
theorem calls_isolated (b : Bytecode) (cfg : Config) (n : Nat) :
    let run := (new b cfg).after
    (run n).frames.length = (run n).depth + 1 ∧ (run n).depth ≤ cfg.maxCallDepth ∧
    ((run n).depth < (run (n + 1)).depth →
      ∃ i k, Instruction.decode b.code (run n).pc = .instruction i ∧ i.takes? b = some k ∧
        k ≤ (run n).frame.operands.length ∧
        ∀ last, n < last → (run last).depth = (run n).depth →
          (∀ j, n < j → j < last → (run j).depth ≠ (run n).depth) →
          (run last).frame.locals = (run n).frame.locals ∧
          (∃ v, (run last).frame.operands = v :: (run n).frame.operands.drop k) ∧
          (run last).pc = (run n).pc + i.width) := by
  intro run
  refine ⟨by simp [frames, depth], depth_after_le b cfg n, fun hdeeper => ?_⟩
  have hcode : (run n).bytecode = b := ((new b cfg).extends_after n).bytecode
  obtain ⟨i, k, hd, hk, he⟩ := (steps_after b cfg n).exists_call hdeeper
  rw [hcode] at hd hk
  refine ⟨i, k, hd, hk, he.enough, fun last hlast hback hinside => ?_⟩
  obtain ⟨j, rfl⟩ : ∃ j, last = j + 1 := ⟨last - 1, by omega⟩
  have hj : n + 1 ≤ j := by
    rcases Nat.lt_or_ge n j with h | h
    · exact h
    · obtain rfl : j = n := by omega
      omega
  have hstay := caller_after he.callers hj fun i hi hij => hinside i hi (by omega)
  rcases (steps_after b cfg j).caller hstay with hsuffix | ⟨-, hpc, v, hframe⟩
  · have := hsuffix.length_le
    rw [List.length_cons] at this
    exact absurd hback (Nat.ne_of_gt this)
  · change (run (j + 1)).pc = _ at hpc
    change (run (j + 1)).frame = _ at hframe
    rw [hpc, hframe]
    exact ⟨rfl, ⟨v, rfl⟩, rfl⟩

/-- A function is called with a new array, calls another one that leaves an operand behind, and
overwrites its argument. -/
def nested : Bytecode where
  code := (Instruction.encodeAll
    [.pushInt 7, .setLocal 0, .pushInt 1, .pushInt 2, .createArray 1, .pushFunction 0, .call 1, .halt,
      .callFunction 1, .setLocal 0, .pushInt 3, .retValue,
      .pushNull, .ret]).toArray
  functions := #[⟨0, [(0, .any)], 30⟩, ⟨0, [], 43⟩]

/-- Garbage is collected before every instruction. -/
def eager : Config := { gcThreshold := 0 }

/-- The call at offset 27 takes the array and the function reference, and is back seven steps later. -/
theorem calls_isolated_nested :
    ((new nested eager).after 6).depth < ((new nested eager).after 7).depth ∧
    ((new nested eager).after 13).depth = ((new nested eager).after 6).depth ∧
    (∀ j, 6 < j → j < 13 → ((new nested eager).after j).depth ≠ ((new nested eager).after 6).depth) ∧
    ((new nested eager).after 6).pc = 27 ∧
    ((new nested eager).after 13).frame.locals = ((new nested eager).after 6).frame.locals ∧
    (∃ v, ((new nested eager).after 13).frame.operands =
      v :: ((new nested eager).after 6).frame.operands.drop 2) ∧
    ((new nested eager).after 13).pc = ((new nested eager).after 6).pc + 2 := by
  have hdeeper : ((new nested eager).after 6).depth < ((new nested eager).after 7).depth := by
    decide +kernel
  have hback : ((new nested eager).after 13).depth = ((new nested eager).after 6).depth := by
    decide +kernel
  have hdepths : ∀ j, j < 13 → 6 < j →
      ((new nested eager).after j).depth ≠ ((new nested eager).after 6).depth := by decide +kernel
  have hinside : ∀ j, 6 < j → j < 13 →
      ((new nested eager).after j).depth ≠ ((new nested eager).after 6).depth :=
    fun j h₁ h₂ => hdepths j h₂ h₁
  have hi : Instruction.decode nested.code ((new nested eager).after 6).pc = .instruction (.call 1) := by
    decide +kernel
  obtain ⟨-, -, hcall⟩ := calls_isolated nested eager 6
  obtain ⟨i, k, hd, hk, -, hlast⟩ := hcall hdeeper
  obtain rfl : Instruction.call 1 = i := Instruction.Decoded.instruction.inj (hi.symm.trans hd)
  have hk' : 2 = k := Option.some.inj hk
  have hwidth : (Instruction.call 1).width = 2 := rfl
  obtain ⟨hlocals, hoperands, hpc⟩ := hlast 13 (by decide) hback hinside
  rw [← hk'] at hoperands
  rw [hwidth] at hpc
  exact ⟨hdeeper, hback, hinside, by decide +kernel, hlocals, hoperands, hpc⟩

end Machine

end Scriptlet
