import Scriptlet.Proofs.Machine.Garbage
import Scriptlet.Proofs.Machine.HostFunctions
import Scriptlet.Proofs.Machine.Mirror
import Scriptlet.Proofs.Machine.Twins

/-!
# Functions that are called as methods

A native function is called by twins (`Machine.Twins`), of which the second has one object more that
nothing holds (`Machine.Receiving`). If it has an object as its first argument, both go on in the
same way (`Machine.Follows`): the function does not come across the object more, and if it makes an
object, that gets different handles, which are then exchanged (`Heap.Besides.allocate`).

This is proved for the library's own functions, and is a promise of those of a host
(`Natives.Oblivious`). What follows from it about calls holds for both
(`Exec.alike_callAction_receiver`, `Exec.alike_callValueBy`).
-/

namespace Scriptlet

open Heap (Besides)

/-! ## Machines that are not renamed -/

section fixed

variable {e : Handle → Handle}

theorem Frame.rename_of_fixed {f : Frame}
    (h : ∀ y ∈ Value.handles f.operands ++ Value.handles f.locals.toList, e y = y) :
    f.rename e = f := by
  have hlocals : f.locals.map (Value.rename e) = f.locals := by
    apply Array.toList_inj.1
    rw [Array.toList_map, Value.map_rename_of_fixed fun y hy => h y (List.mem_append_right _ hy)]
  rw [Frame.rename, hlocals, Value.map_rename_of_fixed fun y hy => h y (List.mem_append_left _ hy)]

theorem Bindings.rename_of_fixed {b : Bindings Value}
    (h : ∀ y ∈ Value.handles (b.entries.map Prod.snd), e y = y) : b.rename e = b := by
  have hentries : b.entries.map (fun f => (f.1, f.2.rename e)) = b.entries := by
    refine (List.map_congr_left fun f hf => ?_).trans (List.map_id b.entries)
    have hvalue : f.2.rename e = f.2 := Value.rename_of_fixed fun y hy => by
      rw [Value.mem_handles, List.mem_singleton] at hy
      refine h y (Value.mem_handles.2 ?_)
      rw [hy]
      exact List.mem_map_of_mem hf
    rw [hvalue]
    rfl
  rw [Bindings.rename, hentries]

end fixed

namespace Machine

/-- Behind a call the second machine goes on as the first one does, under other names: both are
behind their calls, which stand before `p` and `q`, or have entered the same function. -/
structure GoesOnAs (e : Handle → Handle) (callers : List Caller) (p q : Nat) (m m' : Machine) :
    Prop where
  frame : m'.frame = m.frame.rename e
  globals : m'.globals = m.globals.rename e
  constants : m'.constants = m.constants.map fun c => (c.1, e c.2)
  output : m'.output = m.output
  place : (m.pc = p ∧ m'.pc = q ∧ m.callers = callers ∧
      m'.callers = callers.map (Caller.rename e)) ∨
    m'.pc = m.pc ∧ ∃ frame, m.callers = ⟨frame, p⟩ :: callers ∧
      m'.callers = ⟨frame.rename e, q⟩ :: callers.map (Caller.rename e)

/-- The second machine has one object more, which it does not hold. A sweep that does not pin it
frees it, and leaves the same objects with the same counts as a sweep of the first machine. -/
def HasOneMore (e : Equiv.Perm Handle) (o : Object) (m m' : Machine) : Prop :=
  ∃ x, x ∉ m'.held ∧ Besides e x o m.heap m'.heap ∧
    ∀ pinned, pinned x = false → (m'.heap.sweep pinned).2.contains x = false ∧
      ∀ z, (m'.heap.sweep pinned).2.find? (e z) =
        ((m.heap.sweep (pinned ∘ e)).2.find? z).map (Cell.rename e)

/-! ## Behind a native -/

/-- A native was called by twins of `b` with one object more. -/
structure Follows (b : Machine) (q : Nat) (x : Handle) (o : Object) (e : Equiv.Perm Handle)
    (m m' : Machine) : Prop where
  goesOn : GoesOnAs e b.callers b.pc q m m'
  status : m.status = b.status ∧ m'.status = b.status
  heap : Besides e x o m.heap m'.heap
  tallied : m.heap.Tallied b.owners.count
  unowned : b.owners.count (e.symm x) = 0

variable {b m m' : Machine} {q : Nat} {x : Handle} {o : Object} {e : Equiv.Perm Handle}

/-- A machine is the same under other names if none of those that it holds is another. -/
theorem rename_of_fixed (hfixed : ∀ y ∈ m.pinned ++ m.owners, e y = y) :
    m.frame.rename e = m.frame ∧ m.callers.map (Caller.rename e) = m.callers ∧
      m.globals.rename e = m.globals ∧ m.constants.map (fun c => (c.1, e c.2)) = m.constants := by
  have hpinned : ∀ y ∈ m.pinned, e y = y := fun y hy => hfixed y (List.mem_append_left _ hy)
  have howners : ∀ y ∈ m.owners, e y = y := fun y hy => hfixed y (List.mem_append_right _ hy)
  have hframe : ∀ f ∈ m.frames, f.rename e = f := by
    intro f hf
    refine Frame.rename_of_fixed fun y hy => ?_
    rcases List.mem_append.1 hy with hy | hy
    · exact hpinned y (List.mem_flatMap.2 ⟨f, hf, hy⟩)
    · exact howners y (List.mem_append_left _ (List.mem_flatMap.2 ⟨f, hf, hy⟩))
  refine ⟨hframe _ List.mem_cons_self, ?_, ?_, ?_⟩
  · refine (List.map_congr_left fun c hc => ?_).trans (List.map_id m.callers)
    rw [Caller.rename, hframe c.frame (List.mem_cons_of_mem _ (List.mem_map_of_mem hc))]
    rfl
  · refine Bindings.rename_of_fixed fun y hy => howners y ?_
    exact List.mem_append_right _ (List.mem_append_left _ hy)
  · refine (List.map_congr_left fun c hc => ?_).trans (List.map_id m.constants)
    rw [howners c.2 (List.mem_append_right _ (List.mem_append_right _ (List.mem_map_of_mem hc)))]
    rfl

theorem Twins.goesOn {extra : Option (Handle × Object)} (hm : Twins b q extra [] m m') :
    GoesOnAs (Equiv.refl Handle) b.callers b.pc q m m' ∧ m.status = b.status ∧
      m'.status = b.status := by
  obtain ⟨hframe, hcallers, hglobals, hconstants⟩ :=
    rename_of_fixed (m := m) (e := Equiv.refl Handle) fun _ _ => rfl
  obtain ⟨⟨operands, heap, output, events, rfl⟩, ⟨heap', events', rfl⟩, -, -, -⟩ := hm
  refine ⟨⟨hframe.symm, hglobals.symm, hconstants.symm, rfl, .inl ⟨rfl, rfl, rfl, hcallers.symm⟩⟩,
    rfl, rfl⟩

theorem Entered.goesOn (hm : b.Entered q m m') :
    GoesOnAs (Equiv.refl Handle) b.callers b.pc q m m' ∧ m.status = b.status ∧
      m'.status = b.status := by
  obtain ⟨hframe, hcallers, hglobals, hconstants⟩ :=
    rename_of_fixed (m := m) (e := Equiv.refl Handle) fun _ _ => rfl
  obtain ⟨hstatus, frame, events, hm, rfl⟩ := hm
  rw [hm, List.map_cons, List.cons.injEq, Caller.rename, Caller.mk.injEq] at hcallers
  obtain ⟨⟨hcaller, -⟩, hwaiting⟩ := hcallers
  refine ⟨⟨hframe.symm, hglobals.symm, hconstants.symm, rfl, .inr ⟨rfl, frame, hm, ?_⟩⟩,
    hstatus, hstatus⟩
  rw [hcaller, hwaiting]

theorem Twins.follows (hm : Twins b q (some (x, o)) [] m m') (hx : x ∉ b.owners) :
    Follows b q x o (Equiv.refl Handle) m m' := by
  obtain ⟨hb, ht⟩ := hm.more x o rfl
  obtain ⟨hgoesOn, hstatus⟩ := hm.goesOn
  exact ⟨hgoesOn, hstatus, hb, ht, List.count_eq_zero.2 hx⟩

namespace Follows

theorem length_eq (h : Follows b q x o e m m') :
    m'.frame.operands.length = m.frame.operands.length := by
  rw [h.goesOn.frame]
  exact List.length_map ..

theorem pushNull (h : Follows b q x o e m m') : Follows b q x o e
    { m with frame := { m.frame with operands := .null :: m.frame.operands } }
    { m' with frame := { m'.frame with operands := .null :: m'.frame.operands } } := by
  obtain ⟨⟨hframe, hglobals, hconstants, houtput, hplace⟩, hstatus, hheap, htallied, hunowned⟩ := h
  refine ⟨⟨?_, hglobals, hconstants, houtput, hplace⟩, hstatus, hheap, htallied, hunowned⟩
  rw [hframe]
  rfl

theorem hasOneMore (h : Follows b q x o e m m') (hx : x ∉ m'.held) : HasOneMore e o m m' := by
  refine ⟨x, hx, h.heap, fun pinned hp => ⟨?_, fun z => ?_⟩⟩
  · exact h.heap.contains_sweep h.tallied h.unowned hp
  · exact h.heap.find?_sweep h.tallied h.unowned hp z

end Follows

/-- A method of an object is called by twins, of which the second has one object more that nothing
holds. The arguments are the operands above the receiver. -/
structure Receiving (b : Machine) (q : Nat) (x : Handle) (o : Object) (us : List Value) (y : Handle)
    (m m' : Machine) : Prop where
  twins : Twins b q (some (x, o)) [] m m'
  garbage : m'.Garbage x
  operands : ∃ rest, m.frame.operands = us ++ .object y :: rest
  wellFormed : m.heap.WellFormed
  slots : m.heap.slots.size < 2 ^ 32
  slots' : m'.heap.slots.size < 2 ^ 32
  live : ∀ z ∈ m.pinned ++ m.owners, m.heap.contains z = true

namespace Receiving

variable {us : List Value} {y : Handle}

theorem unowned (hr : Receiving b q x o us y m m') : x ∉ b.owners := by
  obtain ⟨hm, hgarbage, -, -, -, -, -⟩ := hr
  obtain ⟨⟨operands, heap, output, events, rfl⟩, ⟨heap', events', rfl⟩, -, -, -⟩ := hm
  exact hgarbage.owners

theorem withEvents (hr : Receiving b q x o us y m m') (es es' : Array Event) :
    Receiving b q x o us y { m with events := es } { m' with events := es' } :=
  ⟨hr.twins.withEvents es es', ⟨hr.garbage.heap, hr.garbage.operands, hr.garbage.owners⟩,
    hr.operands, hr.wellFormed, hr.slots, hr.slots', hr.live⟩

end Receiving

end Machine

open Machine (Counted Twins Follows Avoids Receiving Spared)

namespace Exec

variable {b m m' : Machine} {q : Nat} {x : Handle} {o : Object} {temps : List Value}

theorem run_pushNew (o : Object) (m : Machine) :
    pushNew o m = .ok () { m with
      frame := { m.frame with operands := .object (m.heap.allocate o).1 :: m.frame.operands }
      heap := (m.heap.allocate o).2 } := by
  rw [pushNew, run_bind_ok (run_allocate o m)]
  rfl

/-- Two new strings exchange their handles. -/
theorem alike_pushString (hm : Twins b q (some (x, o)) temps m m') (hw : m.heap.WellFormed)
    (hw' : m'.heap.WellFormed) (hs : m.heap.slots.size < 2 ^ 32) (hs' : m'.heap.slots.size < 2 ^ 32)
    (hlive : ∀ y ∈ m.pinned ++ m.owners, m.heap.contains y = true) (text : String) :
    Alike m m' (pushNew (.string text)) fun _ k k' => ∃ e, Follows b q x o e k k' := by
  obtain ⟨hb, ht⟩ := hm.more x o rfl
  obtain ⟨⟨operands, heap, output, events, rfl⟩, ⟨heap', events', rfl⟩, -, -, -⟩ := hm
  dsimp only at hb ht hw hw' hs hs'
  have hfixed := fun y hy => hb.swap_of_contains hw hw' hs hs' (.string text) (hlive y hy)
  obtain ⟨hrest, hcallers, hglobals, hconstants⟩ :=
    Machine.rename_of_fixed fun y hy => (hfixed y hy).2.2
  have hb' := hb.allocate ht hw hw' hs hs' (p := .string text) rfl
  have hnew : b.owners.count (heap.allocate (.string text)).1 = 0 := by
    refine List.count_eq_zero.2 fun hmem => ?_
    exact (hfixed _ (List.mem_append_right _ hmem)).1 rfl
  have ht' := ht.allocate hw hs (o := .string text) rfl hnew
  refine .inr ⟨(), _, _, run_pushNew _ _, run_pushNew _ _, Equiv.swap (heap.allocate (.string text)).1
    (heap'.allocate (.string text)).1, ?_, ⟨rfl, rfl⟩, hb', ht', ?_⟩
  · refine ⟨?_, hglobals.symm, hconstants.symm, rfl, .inl ⟨rfl, rfl, rfl, hcallers.symm⟩⟩
    rw [Frame.rename, Frame.mk.injEq] at hrest
    obtain ⟨hoperands, hlocals⟩ := hrest
    rw [Frame.rename, List.map_cons, hoperands, hlocals, Value.rename, Equiv.swap_apply_left]
  · refine List.count_eq_zero.2 fun hmem => ?_
    obtain ⟨c, hc⟩ := Heap.contains_iff.1 (hlive _ (List.mem_append_right _ hmem))
    have habsent := hb'.absent
    dsimp only at hc
    rw [Heap.find?_allocate_eq hw hs, hc] at habsent
    split at habsent <;> cases habsent

theorem run_argument_one {v : Value} {vs : List Value} (h : m.frame.operands = v :: vs) :
    argument 1 m = .ok v { m with frame := { m.frame with operands := vs } } := by
  have hlen : ¬ m.frame.operands.length < 1 := by
    rw [h, List.length_cons]
    omega
  have hpop := run_popN_of_not_lt hlen
  rw [h] at hpop
  have harguments : arguments 1 1 m =
      .ok [v] { m with frame := { m.frame with operands := vs } } := by
    rw [arguments, run_bind_ok hpop]
    rfl
  rw [argument, run_bind_ok harguments]
  rfl

/-- A native that wants one argument gets the receiver, if it gets no other. -/
theorem alike_argument_receiver {extra : Option (Handle × Object)} {us rest : List Value} {v : Value}
    (hm : Twins b q extra [] m m') (hops : m.frame.operands = us ++ v :: rest) :
    Alike m m' (argument (us.length + 1)) fun w k k' => w = v ∧ Twins b q extra [v] k k' ∧
      k = { m with frame := { m.frame with operands := rest } } ∧
      k' = { m' with frame := { m'.frame with operands := rest } } := by
  cases us with
  | nil =>
    have hm' := hm.reframe [v] rest fun w hw => by
      rw [hops]
      exact hw
    have hops' : m'.frame.operands = v :: rest := by
      rw [hm.frame_eq]
      exact hops
    exact .of_ok (run_argument_one hops) (run_argument_one hops') ⟨rfl, hm', rfl, rfl⟩
  | cons u us =>
    have hne : (u :: us).length + 1 ≠ 1 := by
      rw [List.length_cons]
      omega
    exact .bind (Q := fun _ _ _ => False) (alike_arguments_of_ne hm hne) fun _ _ _ h => h.elim

/-- What the library's own functions do as methods, they do alike on twins. -/
theorem alike_receiver_routine {us : List Value} {y : Handle} (hr : Receiving b q x o us y m m')
    (r : Routine) : Alike m m' (routine r (us.length + 1)) fun _ k k' =>
      r ≠ .gc ∧ ∃ e, Follows b q x o e k k' := by
  have hm := hr.twins
  have hquiet : Quiet r = true → Alike m m' (routine r (us.length + 1)) fun _ k k' =>
      r ≠ .gc ∧ ∃ e, Follows b q x o e k k' := by
    intro hquiet
    refine (alike_routine hm (.inr hquiet) _).post fun _ _ _ hk => ⟨?_, _, hk.follows hr.unowned⟩
    rintro rfl
    cases hquiet
  have hne : us.length + 1 ≠ 0 := Nat.succ_ne_zero _
  obtain ⟨rest, hops⟩ := hr.operands
  cases r with
  | gc => exact .bind (Q := fun _ _ _ => False) (alike_arguments_of_ne hm hne) fun _ _ _ h => h.elim
  | listNew =>
    exact .bind (Q := fun _ _ _ => False) (alike_arguments_of_ne hm hne) fun _ _ _ h => h.elim
  | array =>
    refine .bind (alike_argument_receiver hm hops) ?_
    rintro _ k k' ⟨rfl, hk, -, -⟩
    exact alike_refuseArgument hk _ _ (hk.avoids (.object y) List.mem_cons_self)
  | str =>
    refine .bind (alike_argument_receiver hm hops) ?_
    rintro _ _ _ ⟨rfl, hk, rfl, rfl⟩
    refine .get_bind ?_ ?_
    · rw [hk.display_eq (hk.avoids (.object y) List.mem_cons_self)]
    · refine (alike_pushString hk hr.wellFormed hr.garbage.heap.wellFormed hr.slots hr.slots'
        (fun z hz => hr.live z ?_) _).post fun _ _ _ h => ⟨by decide, h⟩
      rw [List.mem_append, pinned_push, List.mem_append] at hz
      rw [List.mem_append, pinned_eq, List.mem_append, hops, Value.handles_append,
        Value.handles_cons, List.mem_append, List.mem_append]
      exact hz.imp_left fun hz => hz.imp_left fun hz => .inr (.inr hz)
  | _ => exact hquiet rfl

end Exec

/-! ### What hosts promise -/

namespace Natives

/-- The functions do not find out where they are called. Called as methods, they do not come across
an object that nothing holds, and leave it so; objects that they make may have other handles then. -/
structure Oblivious (ρ : Natives) : Prop where
  keepCounts : ρ.KeepCounts
  same : ∀ {b : Machine} {q : Nat} {m m' : Machine}, Twins b q none [] m m' → ∀ f args,
    Exec.Alike m m' (ρ f args) fun _ => Twins b q none []
  receiving : ∀ {b : Machine} {q : Nat} {x : Handle} {o : Object} {us : List Value} {y : Handle}
    {m m' : Machine}, Receiving b q x o us y m m' → ∀ f,
    Exec.Alike m m' (ρ f (us.length + 1)) fun _ k k' =>
      k'.Spared x [] ∧ ∃ e, Follows b q x o e k k'

theorem oblivious_own : own.Oblivious where
  keepCounts := keepCounts_own
  same hm f args := Exec.alike_routine hm (.inl rfl) args
  receiving := by
    intro b q x o us y m m' hr f
    refine (Exec.alike_receiver_routine hr f.routine).post_of_ok fun _ k k' hr' h => ?_
    have hspares := Exec.spares_routine hr.garbage.spared h.1 (us.length + 1)
    rw [Exec.Spares, hr'] at hspares
    exact ⟨hspares, h.2⟩

theorem Oblivious.define {ρ : Natives} (hρ : ρ.Oblivious) (name : String)
    {action : Nat → Exec Unit} (h : Oblivious fun _ => action) : (ρ.define name action).Oblivious where
  keepCounts := hρ.keepCounts.define name (h.keepCounts default)
  same hm f args := by
    unfold Natives.define
    split
    · exact h.same hm f args
    · exact hρ.same hm f args
  receiving hr f := by
    unfold Natives.define
    split
    · exact h.receiving hr f
    · exact hρ.receiving hr f

end Natives

namespace Exec

variable {b m m' : Machine} {q : Nat} {x : Handle} {o : Object} {ρ : Natives}

/-- A method of a native structure is called alike on twins. -/
theorem alike_callAction_receiver (hρ : ρ.Oblivious) {us : List Value} {y : Handle}
    (hr : Receiving b q x o us y m m') (f : Native) :
    Alike m m' (callAction f.name (ρ f) (us.length + 1)) fun _ k k' =>
      k'.Spared x [] ∧ ∃ e, Follows b q x o e k k' := by
  refine alike_callAction hr.twins f.name (fun es es' => ?_) ?_ ?_
  · exact hρ.receiving (hr.withEvents es es') f
  · rintro k k' ⟨-, e, hk⟩
    exact hk.length_eq
  · rintro k k' ⟨hspared, e, hk⟩
    exact ⟨hspared.reframe fun _ hy => hy, e, hk.pushNull⟩

theorem callBy_congr {act act' : Exec Unit} {vs : List Value}
    (h : act m = act' (m.withOperands vs)) (c : Option NativeCall) :
    callBy ρ c act m = callBy ρ c act' (m.withOperands vs) := by
  cases c with
  | none => exact h
  | some c => rfl

/-- Calls a value where native functions do what `ρ` says. -/
def callValueBy (ρ : Natives) (v : Value) (args : Nat) : Exec Unit := fun m =>
  callBy ρ (m.callOf? v m.frame.operands args) (callValue v args) m

/-- A call of a value ends alike on twins with the same heap: they are twins still, or have entered
the same function. -/
theorem alike_callValueBy (hρ : ρ.Oblivious) (hm : Twins b q none [] m m') (v : Value) (args : Nat) :
    Alike m m' (callValueBy ρ v args) fun _ k k' => Twins b q none [] k k' ∨ b.Entered q k k' := by
  have hcall : m'.callOf? v m'.frame.operands args = m.callOf? v m.frame.operands args := by
    obtain ⟨heap, events, rfl⟩ := hm.twin
    obtain rfl : heap = m.heap := hm.same rfl
    rfl
  cases h : m.callOf? v m.frame.operands args with
  | none =>
    have hrun : callValueBy ρ v args m = callValue v args m := by rw [callValueBy, h, callBy]
    have hrun' : callValueBy ρ v args m' = callValue v args m' := by
      rw [callValueBy, hcall, h, callBy]
    exact .of_run hrun hrun' (alike_callValue hm v args)
  | some c =>
    let action := callAction c.callee.name (ρ c.callee) c.args.length
    have hm' : Twins b q none [] (m.withOperands (c.args.reverse ++ c.below))
        (m'.withOperands (c.args.reverse ++ c.below)) := hm.withOperands _
    have hrun : callValueBy ρ v args m = action (m.withOperands (c.args.reverse ++ c.below)) := by
      rw [callValueBy, h, callBy]
    have hrun' : callValueBy ρ v args m' = action (m'.withOperands (c.args.reverse ++ c.below)) := by
      rw [callValueBy, hcall, h, callBy]
    have halike := alike_callAction hm' c.callee.name
      (fun es es' => hρ.same (hm'.withEvents es es') c.callee c.args.length)
      (fun _ _ hk => congrArg (List.length ∘ Frame.operands) hk.frame_eq) fun _ _ hk => hk.pushNull
    exact .of_run hrun hrun' (halike.post fun _ _ _ hk => .inl hk)

end Exec

/-! ### A function of a host -/

namespace Exec

/-- A method that a host may have: its result is its receiver. -/
def itself (args : Nat) : Exec Unit := do
  match ← popN args with
  | [] => pure ()
  | v :: _ => push v

variable {b m m' : Machine} {q : Nat} {extra : Option (Handle × Object)}

theorem triple_itself (args : Nat) :
    Triple (Counted [] []) (itself args) fun _ => Counted [] [] := by
  refine .bind (triple_popN args) fun vs => ?_
  cases vs with
  | nil => exact .pure fun _ h => h.drop_temps
  | cons v vs =>
    refine (triple_push v).weaken fun m h => h.temps_subset fun y hy => ?_
    rw [Value.handles_cons, List.append_assoc]
    exact (List.mem_append.1 hy).elim (List.mem_append_left _) fun h => (by cases h)

theorem spares_itself {x : Handle} (hm : m.Spared x []) (args : Nat) :
    Spares x m (itself args) fun _ => Spared x [] := by
  refine .bind (spares_popN hm args) fun vs _ hm => ?_
  cases vs with
  | nil => exact .pure hm.drop
  | cons v vs =>
    refine spares_push (hm.mono fun y hy => ?_)
    rw [Value.handles_cons, List.append_assoc]
    exact (List.mem_append.1 hy).elim (List.mem_append_left _) fun h => (by cases h)

theorem alike_itself (hm : Twins b q extra [] m m') (args : Nat) :
    Alike m m' (itself args) fun _ => Twins b q extra [] := by
  refine .bind (alike_popN hm args) fun vs k k' hk => ?_
  cases vs with
  | nil => exact .pure hk
  | cons v vs =>
    exact alike_push hk.drop (hk.avoids v (List.mem_append_left _ List.mem_cons_self))

theorem oblivious_itself : Natives.Oblivious fun _ => itself where
  keepCounts _ args := triple_itself args
  same hm _ args := alike_itself hm args
  receiving := by
    intro b q x o us y m m' hr _
    refine (alike_itself hr.twins _).post_of_ok fun _ k k' hrun hk => ⟨?_, _, hk.follows hr.unowned⟩
    have hspares := spares_itself hr.garbage.spared (us.length + 1)
    rw [Spares, hrun] at hspares
    exact hspares

end Exec

end Scriptlet
