import Scriptlet.Proofs.Ideal.Calls
import Scriptlet.Proofs.Machine.ExactCounts

/-!
# Machines run in step with ideal states

Every instruction of a machine follows that of an ideal state (`Sim.execute`), and so does every
step, collection included (`Sim.step`). After any number of steps a machine that was just made stands
for an ideal state that has taken as many steps (`Machine.sim_after`).
-/

namespace Scriptlet.Ideal

variable {σ : Setting} {ρ : Names} {n : Nat} {m : Machine} {s : State}

theorem matches_giveBack {vs : List Value} {ws : List Val} (hvs : List.Forall₂ (ValRel ρ) vs ws)
    (pc : Nat) {v : Value} {w : Val} (hv : ValRel ρ v w) :
    Matches σ ρ n (Exec.giveBack vs pc v) (do modify fun s => { s with pc }; Act.push w) Done := by
  refine .bind_left (matches_releaseAll hvs) fun _ _ hle _ => ?_
  refine .bind (V := Done) (.modify (fun _ => rfl) (fun _ _ hs => hs.withPc pc) trivial)
    fun _ _ _ hle' _ => ?_
  exact matches_push (hv.mono (hle.trans hle'))

theorem matches_returnValue {v : Value} {w : Val} (hv : ValRel ρ v w) :
    Matches σ ρ n (Exec.returnValue v) (Act.returnValue w) Done := by
  intro m s hs hsz
  have hcallers := hs.callers
  cases hcs : m.callers with
  | nil =>
    rw [hcs] at hcallers
    rw [Exec.run_returnValue_nil hcs, Act.run_returnValue_nil (List.forall₂_nil_left_iff.1 hcallers)]
    exact ⟨by simp, ρ, .refl ρ, hs.withStatus .halted, trivial⟩
  | cons c cs =>
    rw [hcs] at hcallers
    obtain ⟨d, ds, hcd, hrest, hds⟩ := List.forall₂_cons_left_iff.1 hcallers
    rw [Exec.run_returnValue_cons hcs, Act.run_returnValue_cons hds, ← hcd.returnTo]
    have hback : Sim σ ρ { m with frame := c.frame, callers := cs }
        { s with frame := d.frame, callers := ds } :=
      { hs with frame := hcd.frame, callers := hrest }
    exact matches_giveBack hs.frame.locals c.returnTo hv _ _ hback hsz

theorem Sim.call (hs : Sim σ ρ m s) (hc : m.Counted [] []) (hsz : m.heap.slots.size < 2 ^ 32)
    (args : Nat) {G : Prop}
    (hG : ∀ v vs f, m.frame.operands = v :: vs → m.nativeOf? v vs.length args = some f →
      f.routine = .gc → G) :
    Follows σ G ((do let callee ← Exec.pop; Exec.callValue callee args) m)
      fun a => (do let callee ← Act.pop; Act.callValue σ a callee args) s := by
  have hoperands := hs.frame.operands
  cases hm : m.frame.operands with
  | nil =>
    rw [hm] at hoperands
    have hs' := List.forall₂_nil_left_iff.1 hoperands
    refine ⟨0, fun a _ => ?_⟩
    simp only [bind, EStateM.bind, Exec.pop, Act.pop, hm, hs']
    exact ⟨rfl, ρ, hs⟩
  | cons v vs =>
    rw [hm] at hoperands
    obtain ⟨w, ws, hv, hvs, hw⟩ := List.forall₂_cons_left_iff.1 hoperands
    have hpop : Exec.pop m = .ok v { m with frame := { m.frame with operands := vs } } := by
      simp only [Exec.pop, hm]
    have hpop' : Act.pop s = .ok w { s with frame := { s.frame with operands := ws } } := by
      simp only [Act.pop, hw]
    have hct := Exec.triple_pop.run m hc
    rw [Exec.final_ok hpop, hpop] at hct
    have hs₂ : Sim σ ρ { m with frame := { m.frame with operands := vs } }
        { s with frame := { s.frame with operands := ws } } := hs.withFrame ⟨hvs, hs.frame.locals⟩
    simp only [bind, EStateM.bind, hpop, hpop']
    obtain ⟨a₀, h⟩ := hs₂.callValue (hct hsz).drop_temps hsz hv args
    refine ⟨a₀, fun a ha => h a fun hg => ha ?_⟩
    obtain ⟨f, hf, hgc⟩ := hg
    exact hG v vs f hm hf hgc

/-- Every instruction follows its counterpart. -/
theorem Sim.execute (hs : Sim σ ρ m s) (hc : m.Counted [] []) (hsz : m.heap.slots.size < 2 ^ 32)
    (i : Instruction) {G : Prop}
    (hcall : ∀ args v vs f, i = .call args → m.frame.operands = v :: vs →
      m.nativeOf? v vs.length args.toNat = some f → f.routine = .gc → G)
    (hmethod : ∀ name args receiver callee f, i = .callMethod name args →
      m.frame.operands[args.toNat]? = some receiver →
      m.nativeMethod? receiver (m.bytecode.text name) = none →
      m.fieldValue receiver name = .ok callee →
      m.nativeOf? callee args.toNat args.toNat = some f → f.routine = .gc → G) :
    Follows σ G (Exec.execute i m) fun a => Act.execute σ a i s := by
  have hplain : ∀ {v : Value}, v.handle? = none → (∀ f, v ≠ .native f) →
      Matches σ ρ 1 (Exec.push v) (Act.push (.plain v)) Done := fun h hn =>
    matches_push (.plain h fun f hf => (hn f hf).elim)
  have hpc : ∀ {ρ' : Names} (pc : Nat), Matches σ ρ' 1 (modify fun m => { m with pc })
      (modify fun s => { s with pc }) Done := fun pc =>
    .modify (fun _ => rfl) (fun _ _ hs => hs.withPc pc) trivial
  cases i with
  | pushNull => exact (hplain rfl fun f hf => by cases hf).follows hs hsz G
  | pushTrue => exact (hplain rfl fun f hf => by cases hf).follows hs hsz G
  | pushFalse => exact (hplain rfl fun f hf => by cases hf).follows hs hsz G
  | pushInt n => exact (hplain rfl fun f hf => by cases hf).follows hs hsz G
  | pushUInt n => exact (hplain rfl fun f hf => by cases hf).follows hs hsz G
  | pushFloat x => exact (hplain rfl fun f hf => by cases hf).follows hs hsz G
  | pushChar c => exact (hplain rfl fun f hf => by cases hf).follows hs hsz G
  | pushString c =>
    exact (Matches.bind_last (matches_constant c) (g := Act.push) fun _ _ _ _ hx =>
      matches_push hx).follows hs hsz G
  | pushFunction id =>
    exact (matches_pushNew (.function fun f hf => by cases hf)).follows hs hsz G
  | binary op => exact (matches_binary op).follows hs hsz G
  | unary op => exact (matches_unary op).follows hs hsz G
  | getLocal slot => exact (matches_getLocal slot).follows hs hsz G
  | setLocal slot =>
    exact (Matches.bind matches_pop fun _ _ _ _ hv => matches_setLocal slot hv).follows hs hsz G
  | shrinkLocals count => exact (matches_shrinkLocals ρ count.toNat).follows hs hsz G
  | getGlobal => exact matches_getGlobal.follows hs hsz G
  | setGlobal =>
    exact (Matches.bind matches_popString fun _ name name' _ hname => by
      subst hname
      exact .bind matches_pop fun _ _ _ _ hv => matches_setGlobal name hv).follows hs hsz G
  | getElement => exact matches_getElement.follows hs hsz G
  | setElement => exact matches_setElement.follows hs hsz G
  | getField name => exact (matches_getField name).follows hs hsz G
  | setField name => exact (matches_setField name).follows hs hsz G
  | createArray count => exact (matches_createArray count.toNat).follows hs hsz G
  | construct type args => exact (matches_construct type args.toNat).follows hs hsz G
  | callMethod name args =>
    exact hs.callMethod hc hsz name args.toNat fun receiver callee f =>
      hmethod name args receiver callee f rfl
  | call args =>
    exact hs.call hc hsz args.toNat fun v vs f => hcall args v vs f rfl
  | callFunction id => exact (matches_callFunction id).follows hs hsz G
  | ret => exact (matches_returnValue (valRel_null ρ)).follows hs hsz G
  | retValue =>
    exact (Matches.bind matches_pop fun _ _ _ _ hv => matches_returnValue hv).follows hs hsz G
  | jump target => exact (hpc target.toNat).follows hs hsz G
  | jumpIfFalse target =>
    refine (Matches.bind (W := Done) matches_pop fun ρ' v w _ hv => ?_).follows hs hsz G
    rw [hv.isTruthy]
    split
    · exact .pure trivial
    · exact hpc target.toNat
  | drop =>
    exact (Matches.bind (W := Done) matches_pop fun _ _ _ _ _ => .pure trivial).follows hs hsz G
  | halt =>
    have hhalt : Matches σ ρ 1 (modify fun m => { m with status := .halted })
        (modify fun s => { s with status := .halted }) Done :=
      .modify (fun _ => rfl) (fun _ _ hs => hs.withStatus .halted) trivial
    exact hhalt.follows hs hsz G

/-- The next step calls the same native function. -/
theorem Sim.nextNative? (hs : Sim σ ρ m s) : m.nextNative? = s.nextNative? σ := by
  unfold Machine.nextNative? State.nextNative?
  rw [hs.status, hs.bytecode, hs.pc]
  cases s.status with
  | halted => rfl
  | ready =>
    cases Instruction.decode σ.bytecode.code s.pc with
    | truncated => rfl
    | unknown byte => rfl
    | instruction i =>
      cases i with
      | call args =>
        have hoperands := hs.frame.operands
        revert hoperands
        cases m.frame.operands with
        | nil =>
          intro hoperands
          rw [List.forall₂_nil_left_iff.1 hoperands]
        | cons v vs =>
          intro hoperands
          obtain ⟨w, ws, hv, hvs, hw⟩ := List.forall₂_cons_left_iff.1 hoperands
          rw [hw]
          dsimp only
          rw [hs.nativeOf? hv, hvs.length_eq]
      | callMethod name args =>
        dsimp only
        obtain ⟨h₁, h₂⟩ | ⟨v, w, h₁, h₂, hv⟩ := forall₂_getElem? hs.frame.operands args.toNat
        · rw [h₁, h₂]
        · rw [h₁, h₂]
          dsimp only
          rw [← hs.bytecode, hs.text, hs.nativeMethod? hv]
          cases s.world.nativeMethod? w (s.world.tables.text name) with
          | some method => rfl
          | none =>
            have hfield := hs.recordField hv name
            revert hfield
            cases m.fieldValue v name <;> cases s.world.recordField w name <;> intro hfield
            · rfl
            · exact hfield.elim
            · exact hfield.elim
            · exact hs.nativeOf? hfield _ _
      | _ => rfl

/-! ## Steps -/

namespace State

variable (σ : Setting) (answer : Int32)

/-- The state after one step, also when the step faults. -/
def next (s : State) : State :=
  match s.step σ answer with
  | .ok _ s' => s'
  | .error _ s' => s'

/-- The fault of the next step, if it faults. -/
def nextFault? (s : State) : Option Fault :=
  match s.step σ answer with
  | .ok _ _ => none
  | .error f _ => some f

/-- The state after a number of steps of a program, all collections of which answer the same. -/
def after : Nat → State
  | 0 => initial σ
  | n + 1 => (after n).next σ answer

/-- The fault that one of the first steps of a program ended in, if one did. -/
def faultWithin? : Nat → Option RuntimeFault
  | 0 => none
  | n + 1 =>
    let s := after σ answer n
    (faultWithin? n).or ((s.nextFault? σ answer).map fun f => ⟨f, s.pc, σ.bytecode.spanAt? s.pc⟩)

end State

theorem Sim.collectIfDue (hs : Sim σ ρ m s) (hc : m.Counted [] []) :
    ∃ ρ', Sim σ ρ' m.collectIfDue s := by
  unfold Machine.collectIfDue
  split
  · exact ⟨_, hs.collect hc⟩
  · exact ⟨ρ, hs⟩

/-- The outcomes of two steps from an offset correspond, under some names. -/
def AgreeAt (σ : Setting) (pc : Nat) : EStateM.Result RuntimeFault Machine Status →
    EStateM.Result Fault State Unit → Prop
  | .ok _ m, .ok _ s => ∃ ρ, Sim σ ρ m s
  | .error e m, .error f s => e = ⟨f, pc, σ.bytecode.spanAt? pc⟩ ∧ ∃ ρ, Sim σ ρ m s
  | _, _ => False

/-- The instruction at the program counter follows its counterpart. -/
theorem Sim.executeNext (hs : Sim σ ρ m s) (hc : m.Counted [] [])
    (hsz : m.heap.slots.size < 2 ^ 32) (hready : m.status = .ready) :
    ∃ a₀, ∀ a, (m.CallsGc → a = a₀) → AgreeAt σ s.pc m.executeNext (s.executeNext σ a) := by
  have hstop : ∀ {ρ' : Names} {m' : Machine} {s' : State} (f : Fault), Sim σ ρ' m' s' →
      AgreeAt σ s.pc (m'.stop f s.pc) (.error f { s' with status := .halted }) := fun f hs' =>
    ⟨by rw [hs'.bytecode], _, hs'.withStatus .halted⟩
  have hd' : Instruction.decode m.bytecode.code m.pc = Instruction.decode σ.bytecode.code s.pc := by
    rw [hs.bytecode, hs.pc]
  cases hd : Instruction.decode m.bytecode.code m.pc with
  | truncated =>
    refine ⟨0, fun a _ => ?_⟩
    simp only [Machine.executeNext, hd, State.executeNext, hd'.symm.trans hd]
    rw [hs.pc]
    exact hstop _ hs
  | unknown byte =>
    refine ⟨0, fun a _ => ?_⟩
    simp only [Machine.executeNext, hd, State.executeNext, hd'.symm.trans hd]
    rw [hs.pc]
    exact hstop _ hs
  | instruction i =>
    obtain ⟨events, he⟩ := Machine.executeNext_instruction hd
    have hs₁ : Sim σ ρ { m with pc := m.pc + i.width, events } { s with pc := s.pc + i.width } :=
      { hs with pc := congrArg (· + i.width) hs.pc }
    have hc₁ : Machine.Counted [] [] { m with pc := m.pc + i.width, events } :=
      hc.reframe rfl rfl fun _ hx => hx
    obtain ⟨a₀, h⟩ := hs₁.execute hc₁ hsz i (G := m.CallsGc)
      (fun args v vs f hi ho hf hgc => ⟨f, by
        simp only [Machine.nextNative?, hready, hd, hi]
        rw [ho]
        exact hf, hgc⟩)
      (fun name args receiver callee f hi ho hm hfv hf hgc => ⟨f, by
        change m.nativeMethod? receiver (m.bytecode.text name) = none at hm
        change m.fieldValue receiver name = .ok callee at hfv
        simp only [Machine.nextNative?, hready, hd, hi]
        simp only [ho, hm, hfv]
        exact hf, hgc⟩)
    refine ⟨a₀, fun a ha => ?_⟩
    have hagree := h a ha
    simp only [he, State.executeNext, hd'.symm.trans hd]
    revert hagree
    dsimp only
    cases Exec.execute i { m with pc := m.pc + i.width, events } <;>
      cases Act.execute σ a i { s with pc := s.pc + i.width } <;> intro hagree
    · exact hagree
    · exact hagree.elim
    · exact hagree.elim
    · obtain ⟨rfl, ρ', hs'⟩ := hagree
      rw [hs.pc]
      exact hstop _ hs'

/-- Both runs end where the code does. -/
theorem Sim.step (hs : Sim σ ρ m s) (hc : m.Counted [] []) (hsz : m.heap.slots.size < 2 ^ 32) :
    ∃ a₀, ∀ a, (m.CallsGc → a = a₀) → AgreeAt σ s.pc (Machine.step m) (s.step σ a) := by
  have hst := hs.status
  have hsize : m.bytecode.size = σ.bytecode.size := by rw [hs.bytecode]
  obtain ⟨h, hhalted⟩ | ⟨h, hready, hpc⟩ | ⟨h, hready, hpc⟩ := m.step_cases
  · refine ⟨0, fun a _ => ?_⟩
    rw [hhalted] at hst
    simp only [h, State.step, ← hst]
    exact ⟨ρ, hs⟩
  · refine ⟨0, fun a _ => ?_⟩
    rw [hready] at hst
    rw [hsize, hs.pc] at hpc
    simp only [h, State.step, ← hst, if_pos hpc]
    exact ⟨ρ, hs.withStatus .halted⟩
  · obtain ⟨ρ', hs'⟩ := hs.collectIfDue hc
    have hready' : m.collectIfDue.status = .ready := by rw [hs'.status, ← hst, hready]
    have hsz' : m.collectIfDue.heap.slots.size < 2 ^ 32 := by
      rw [m.size_collectIfDue]
      exact hsz
    obtain ⟨a₀, hnext⟩ := hs'.executeNext hc.collectIfDue hsz' hready'
    refine ⟨a₀, fun a ha => ?_⟩
    have hagree := hnext a fun hgc => ha ?_
    · rw [hready] at hst
      rw [hsize, hs.pc] at hpc
      simp only [h, State.step, ← hst, if_neg hpc]
      exact hagree
    · obtain ⟨f, hf, hgc⟩ := hgc
      exact ⟨f, by rw [hs.nextNative?, ← hs'.nextNative?, hf], hgc⟩

theorem AgreeAt.next {pc : Nat} {a : Int32} 
    (h : AgreeAt σ pc (Machine.step m) (s.step σ a)) :
    (∃ ρ, Sim σ ρ m.next (s.next σ a)) ∧
      m.nextFault? = (s.nextFault? σ a).map fun f => ⟨f, pc, σ.bytecode.spanAt? pc⟩ := by
  unfold Machine.next State.next Machine.nextFault? State.nextFault?
  revert h
  cases Machine.step m <;> cases s.step σ a <;> intro h
  · exact ⟨h, rfl⟩
  · exact h.elim
  · exact h.elim
  · exact ⟨h.2, congrArg some h.1⟩

/-! ## Runs -/

/-- What an ideal run keeps, whatever collections answer, a machine keeps that stands for it. -/
theorem Sim.exists_after {I : State → Prop} (hI : ∀ s a, I s → I (s.next σ a))
    (hs : Sim σ ρ m s) (hc : m.Counted [] []) (h₀ : I s) : ∀ n : Nat,
    (m.after n).heap.slots.size < 2 ^ 32 → ∃ ρ' s', Sim σ ρ' (m.after n) s' ∧ I s'
  | 0, _ => ⟨ρ, s, hs, h₀⟩
  | n + 1, hsz => by
    have hsz' := Nat.lt_of_le_of_lt (m.after n).extends_next.slots hsz
    obtain ⟨ρ', s', hs', hi⟩ := exists_after hI hs hc h₀ n hsz'
    obtain ⟨a₀, h⟩ := hs'.step (hc.after n hsz').1 hsz'
    obtain ⟨⟨ρ₂, hs₂⟩, -⟩ := (h a₀ fun _ => rfl).next
    exact ⟨ρ₂, s'.next σ a₀, hs₂, hI s' a₀ hi⟩

theorem forall₂_natives {es : Bindings Value} {fs : Bindings Val}
    (h : List.Forall₂ (EntryRel ρ) es.entries fs.entries) (natives : List (String × Routine))
    (hl : ∀ f ∈ natives, f.2 ≠ .leave) :
    List.Forall₂ (EntryRel ρ)
      (natives.foldl (fun b f => b.insert f.1 (.native ⟨f.1, f.2⟩)) es).entries
      (natives.foldl (fun b f => b.insert f.1 (.plain (.native ⟨f.1, f.2⟩))) fs).entries := by
  induction natives generalizing es fs with
  | nil => exact h
  | cons f natives ih =>
    refine ih (forall₂_insertEntry h f.1 (.plain rfl fun g hg => ?_)) fun g hg =>
      hl g (List.mem_cons_of_mem _ hg)
    cases hg
    exact hl f List.mem_cons_self

/-- The state of a machine that was just made. -/
theorem sim_new (b : Bytecode) (cfg : Config) :
    Sim ⟨b, cfg.maxCallDepth⟩ (fun _ _ => False) (Machine.new b cfg)
      (State.initial ⟨b, cfg.maxCallDepth⟩) where
  bytecode := rfl
  limit := rfl
  wellFormed := (Machine.counted_new b cfg).exact.wellFormed
  left _ _ _ h := h.elim
  right _ _ _ h := h.elim
  objects _ _ h := h.elim
  constants _ _ := ⟨False.elim, fun h => by cases h⟩
  pc := rfl
  status := rfl
  frame := ⟨.nil, .nil⟩
  callers := .nil
  globals := forall₂_natives .nil Machine.prelude (by decide)
  output := rfl
  tables := rfl
  structures := rfl

/-- A machine that never calls `gc` stands for the ideal state after as many steps, and it faults
where an ideal state does. -/
theorem sim_after (b : Bytecode) (cfg : Config) (a : Int32) : ∀ n : Nat,
    (∀ k < n, ¬ ((Machine.new b cfg).after k).CallsGc) →
    ((Machine.new b cfg).after n).heap.slots.size < 2 ^ 32 →
    (∃ ρ, Sim ⟨b, cfg.maxCallDepth⟩ ρ ((Machine.new b cfg).after n)
      (State.after ⟨b, cfg.maxCallDepth⟩ a n)) ∧
    (Machine.new b cfg).faultWithin? n = State.faultWithin? ⟨b, cfg.maxCallDepth⟩ a n
  | 0, _, _ => ⟨⟨_, sim_new b cfg⟩, rfl⟩
  | n + 1, hgc, hsz => by
    have hsz' := Nat.lt_of_le_of_lt ((Machine.new b cfg).after n).extends_next.slots hsz
    obtain ⟨⟨ρ, hs⟩, hf⟩ := sim_after b cfg a n (fun k hk => hgc k (by omega)) hsz'
    obtain ⟨a₀, h⟩ := hs.step ((Machine.counted_new b cfg).after n hsz').1 hsz'
    obtain ⟨hsim, hfault⟩ := (h a fun hcalls => (hgc n (by omega) hcalls).elim).next
    exact ⟨hsim, by rw [Machine.faultWithin?, State.faultWithin?, hf, hfault]⟩

end Scriptlet.Ideal
