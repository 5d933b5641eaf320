import Scriptlet.Proofs.Ideal.Faults
import Scriptlet.Proofs.Ideal.LockStep

/-!
# Code that keeps to its shapes

A `Shape` is the number of operands and of local slots that a call has at an instruction. Shapes that
are assigned to the offsets of a code can be checked instruction by instruction
(`Instruction.Admits`): there are enough operands, the local slots are in use, and what can be
executed next has the shape that this instruction leaves. Code that passes the check is `Shaped`, and
a run of it has the assigned shape at every step (`State.Fits.next`). So it does not fault as malformed
code does.
-/

namespace Scriptlet

/-- The operands and local slots of a call at an instruction, and whether the topmost operand is the
name of a global. -/
structure Shape where
  height : Nat
  locals : Nat
  named : Bool := false
deriving DecidableEq, Repr

/-- The shapes of instructions, by their offsets. -/
abbrev Shapes := Nat → Option Shape

/-- The instruction builds or enters something that the program declares. -/
def Instruction.isDirect : Instruction → Bool
  | .callFunction _ | .construct .. => true
  | _ => false

/-- An instruction at an offset can be executed with a shape, and what can be executed next has the
shape that it leaves. -/
def Instruction.Admits (b : Bytecode) (pc : Nat) (sh : Shape) (K : Nat → Shape → Prop)
    (i : Instruction) : Prop :=
  let next := pc + i.width
  let h := sh.height
  let l := sh.locals
  match i with
  | .pushNull | .pushTrue | .pushFalse | .pushInt _ | .pushUInt _ | .pushFloat _ | .pushChar _
  | .pushFunction _ => K next ⟨h + 1, l, false⟩
  | .pushString _ => ∃ named, K next ⟨h + 1, l, named⟩
  | .binary _ | .getElement => 2 ≤ h ∧ K next ⟨h - 1, l, false⟩
  | .unary _ | .getField _ => 1 ≤ h ∧ K next ⟨h, l, false⟩
  | .getLocal slot => slot.toNat < l ∧ K next ⟨h + 1, l, false⟩
  | .setLocal slot => 1 ≤ h ∧ slot.toNat ≤ l ∧ K next ⟨h - 1, max l (slot.toNat + 1), false⟩
  | .shrinkLocals count => count.toNat ≤ l ∧ K next ⟨h, l - count.toNat, false⟩
  | .getGlobal => sh.named = true ∧ K next ⟨h, l, false⟩
  | .setGlobal => sh.named = true ∧ 2 ≤ h ∧ K next ⟨h - 2, l, false⟩
  | .setElement => 3 ≤ h ∧ K next ⟨h - 3, l, false⟩
  | .setField _ => 2 ≤ h ∧ K next ⟨h - 2, l, false⟩
  | .createArray count => count.toNat ≤ h ∧ K next ⟨h - count.toNat + 1, l, false⟩
  | .construct type args => (∃ entry, b.struct? type = some entry ∧
      args.toNat ≤ entry.fields.length) ∧ args.toNat ≤ h ∧ K next ⟨h - args.toNat + 1, l, false⟩
  | .callMethod _ args | .call args => args.toNat + 1 ≤ h ∧ K next ⟨h - args.toNat, l, false⟩
  | .callFunction id => ∃ f, b.function? id = some f ∧ f.arity ≤ h ∧
      K next ⟨h - f.arity + 1, l, false⟩
  | .ret | .halt => True
  | .retValue => 1 ≤ h
  | .jump target => K target.toNat ⟨h, l, false⟩
  | .jumpIfFalse target => 1 ≤ h ∧ K next ⟨h - 1, l, false⟩ ∧ K target.toNat ⟨h - 1, l, false⟩
  | .drop => 1 ≤ h ∧ K next ⟨h - 1, l, false⟩

/-- Every instruction that has a shape can be executed with it, a program starts without operands
and local slots, and a function with its arguments as local slots. -/
structure Shaped (b : Bytecode) (P : Shapes) : Prop where
  admits : ∀ pc sh, P pc = some sh → ∃ i, Instruction.decode b.code pc = .instruction i ∧
    i.Admits b pc sh fun q sh' => P q = some sh'
  start : P 0 = some ⟨0, 0, false⟩
  function : ∀ id f, b.function? id = some f → P f.offset = some ⟨0, f.arity, false⟩

namespace Ideal

/-- A frame has a shape. -/
structure Frame.Has (f : Frame) (sh : Shape) : Prop where
  height : f.operands.length = sh.height
  locals : f.locals.length = sh.locals
  named : sh.named = true → ∃ c vs, f.operands = .ref (.literal c) :: vs

/-- A frame that waits has the shape of the instruction that it goes on with, once it has the result
of the call. -/
def Caller.Fits (P : Shapes) (c : Caller) : Prop :=
  P c.returnTo = some ⟨c.frame.operands.length + 1, c.frame.locals.length, false⟩

/-- Unless a state is halted, its innermost call has the shape of the next instruction, and the
others wait. -/
structure State.Fits (P : Shapes) (s : State) : Prop where
  frame : s.status = .ready → ∃ sh, P s.pc = some sh ∧ s.frame.Has sh
  callers : s.status = .ready → ∀ c ∈ s.callers, c.Fits P

theorem State.fits_of_halted {P : Shapes} {s : State} (h : s.status = .halted) : s.Fits P := by
  have hne : s.status ≠ .ready := by simp [h]
  exact ⟨fun hr => (hne hr).elim, fun hr => (hne hr).elim⟩

/-- The faults that an instruction of shaped code does not have. -/
def Avoids (i : Instruction) (f : Fault) : Prop :=
  f.isMalformed = false ∧
    (i.isDirect = true → (∀ kind, f ≠ .notCallable kind) ∧ ∀ a c, f ≠ .wrongArity a c)

/-- What an instruction of shaped code leads to. -/
def Outcome (P : Shapes) (i : Instruction) : EStateM.Result Fault State Unit → Prop
  | .ok _ s => s.Fits P
  | .error f _ => Avoids i f

/-- A state in the middle of an instruction, with numbers of operands and local slots. -/
structure State.Poised (P : Shapes) (h l : Nat) (s : State) : Prop where
  callers : ∀ c ∈ s.callers, c.Fits P
  height : s.frame.operands.length = h
  locals : s.frame.locals.length = l

section outcome

variable {σ : Setting} {answer : Int32} {P : Shapes} {i : Instruction} {h l : Nat} {s : State}

theorem State.Poised.withOperands (hs : s.Poised P h l) (vs : List Val) :
    (s.withOperands vs).Poised P vs.length l :=
  ⟨hs.callers, rfl, hs.locals⟩

theorem outcome_fault (hd : i.isDirect = false) {f : Fault} (hf : f.isMalformed = false) (s : State) :
    Outcome P i (.error f s) :=
  ⟨hf, fun hi => by rw [hd] at hi; cases hi⟩

theorem outcome_ok (hs : s.Poised P h l) (hnext : P s.pc = some ⟨h, l, false⟩) :
    Outcome P i (.ok () s) :=
  ⟨fun _ => ⟨_, hnext, hs.height, hs.locals, fun hn => (by cases hn)⟩, fun _ => hs.callers⟩

theorem outcome_pop (hs : s.Poised P (h + 1) l) {k : Val → Act Unit}
    (hk : ∀ v vs, (s.withOperands vs).Poised P h l → Outcome P i (k v (s.withOperands vs))) :
    Outcome P i ((Act.pop >>= k) s) := by
  have hh := hs.height
  cases ho : s.frame.operands with
  | nil =>
    rw [ho] at hh
    cases hh
  | cons v vs =>
    rw [ho, List.length_cons, Nat.add_right_cancel_iff] at hh
    rw [Act.run_bind_ok (Act.run_pop ho)]
    exact hk v vs (hh ▸ hs.withOperands vs)

theorem outcome_popN {n : Nat} (hs : s.Poised P h l) (hn : n ≤ h) {k : List Val → Act Unit}
    (hk : ∀ vs us, vs.length = n → (s.withOperands us).Poised P (h - n) l →
      Outcome P i (k vs (s.withOperands us))) : Outcome P i ((Act.popN n >>= k) s) := by
  have hh := hs.height
  rw [Act.run_bind_ok (Act.run_popN (by omega))]
  refine hk _ _ ?_ ?_
  · rw [List.length_reverse, List.length_take]
    omega
  · have := hs.withOperands (s.frame.operands.drop n)
    rwa [List.length_drop, hh] at this

theorem outcome_push (hs : s.Poised P h l) (hnext : P s.pc = some ⟨h + 1, l, false⟩) (v : Val) :
    Outcome P i (Act.push v s) := by
  have hpushed := hs.withOperands (v :: s.frame.operands)
  rw [List.length_cons, hs.height] at hpushed
  exact outcome_ok hpushed hnext

/-- The result of an operation becomes an operand. -/
theorem outcome_give (hd : i.isDirect = false) (hs : s.Poised P h l)
    (hnext : P s.pc = some ⟨h + 1, l, false⟩) {f : World → Except Fault (Val × World)}
    (hf : ∀ w, Clean (f w)) : Outcome P i ((do Act.push (← Act.onWorld f)) s) := by
  cases hw : f s.world with
  | ok p =>
    rw [Act.run_bind_ok (Act.run_onWorld_ok (a := p.1) (w := p.2) hw)]
    exact outcome_push (s := { s with world := p.2 }) ⟨hs.callers, hs.height, hs.locals⟩ hnext p.1
  | error e =>
    rw [Act.run_bind_error (Act.run_onWorld_error hw)]
    exact outcome_fault hd (hf _ e hw) _

theorem outcome_change (hd : i.isDirect = false) (hs : s.Poised P h l)
    (hnext : P s.pc = some ⟨h, l, false⟩) {f : World → Except Fault World} (hf : ∀ w, Clean (f w)) :
    Outcome P i (Act.change f s) := by
  unfold Act.change
  cases hw : f s.world with
  | ok w =>
    rw [Act.run_onWorld_ok (a := ()) (w := w) (by rw [hw]; rfl)]
    exact outcome_ok (s := { s with world := w }) ⟨hs.callers, hs.height, hs.locals⟩ hnext
  | error e =>
    rw [Act.run_onWorld_error (by rw [hw]; rfl)]
    exact outcome_fault hd (hf _ e hw) _

theorem outcome_pushNew (hs : s.Poised P h l) (hnext : P s.pc = some ⟨h + 1, l, false⟩) (o : Obj) :
    Outcome P i (Act.pushNew o s) :=
  outcome_push (s := { s with world := (s.world.alloc o).2 }) ⟨hs.callers, hs.height, hs.locals⟩
    hnext _

theorem outcome_shrinkLocals {n : Nat} (hs : s.Poised P h l) (hn : n ≤ l)
    (hnext : P s.pc = some ⟨h, l - n, false⟩) : Outcome P i (Act.shrinkLocals n s) := by
  induction n generalizing s l with
  | zero => exact outcome_ok hs hnext
  | succ n ih =>
    have hl := hs.locals
    have hne : s.frame.locals ≠ [] := fun he => by
      rw [he] at hl
      simp at hl
      omega
    have hdrop : Act.dropLocal s =
        .ok () { s with frame := { s.frame with locals := s.frame.locals.dropLast } } := by
      simp only [Act.dropLocal, List.getLast?_eq_some_getLast hne]
    rw [Act.shrinkLocals, Act.run_bind_ok hdrop]
    refine ih (l := l - 1) ⟨hs.callers, hs.height, ?_⟩ (by omega) ?_
    · change s.frame.locals.dropLast.length = _
      rw [List.length_dropLast, hl]
    · rw [Nat.sub_sub, Nat.add_comm 1 n]
      exact hnext

theorem length_storeLocal {slot : Nat} (v : Val) {locals : List Val} (hl : slot ≤ locals.length) :
    (Act.storeLocal slot v locals).length = max locals.length (slot + 1) := by
  unfold Act.storeLocal
  split
  · rw [List.length_set]
    omega
  · simp
    omega

/-- The name of a global is on top. -/
theorem outcome_popString (hs : s.Poised P (h + 1) l) {c : Symbol} {vs : List Val}
    (ho : s.frame.operands = .ref (.literal c) :: vs) {k : String → Act Unit}
    (hk : ∀ text, (s.withOperands vs).Poised P h l → Outcome P i (k text (s.withOperands vs))) :
    Outcome P i ((Act.popString >>= k) s) := by
  have hrun : Act.popString s = .ok (s.world.tables.text c) (s.withOperands vs) := by
    unfold Act.popString
    rw [Act.run_bind_ok (Act.run_pop ho)]
    rfl
  have hh := hs.height
  rw [ho, List.length_cons, Nat.add_right_cancel_iff] at hh
  rw [Act.run_bind_ok hrun]
  exact hk _ (hh ▸ hs.withOperands vs)

/-! ### Calls -/

section call

variable {args : Nat} (hs : s.Poised P h l) (hargs : args ≤ h)
  (hnext : P s.pc = some ⟨h - args + 1, l, false⟩)
include hs hargs hnext

theorem outcome_callNative (hd : i.isDirect = false) (f : Native) :
    Outcome P i (Act.callNative answer f args s) := by
  refine outcome_popN hs hargs fun vs us _ hus => ?_
  cases hw : s.world.routine answer f.routine vs with
  | error e =>
    rw [Act.run_bind_error (Act.run_onWorld_error hw)]
    exact outcome_fault hd (clean_routine s.world answer f.routine vs e hw) _
  | ok p =>
    rw [Act.run_bind_ok (Act.run_onWorld_ok (a := p.1) (w := p.2) hw)]
    exact outcome_push (s := { s.withOperands us with world := p.2 })
      ⟨hus.callers, hus.height, hus.locals⟩ hnext _

/-- A function that the program declares. What an instruction enters directly is there, and gets as
many arguments as it takes. -/
theorem outcome_callDeclared (hP : Shaped σ.bytecode P) {id : UInt32}
    (hd : i.isDirect = false ∨ ∃ f, σ.bytecode.function? id = some f ∧ f.arity = args) :
    Outcome P i (Act.callDeclared σ id args s) := by
  unfold Act.callDeclared
  rw [Act.run_get_bind]
  cases hf : σ.bytecode.function? id with
  | none =>
    obtain hd | ⟨f, hf', -⟩ := hd
    · exact outcome_fault hd rfl _
    · rw [hf] at hf'
      cases hf'
  | some f =>
    dsimp only
    by_cases ha : args = f.arity
    · rw [if_neg (Decidable.not_not.2 ha)]
      by_cases hdepth : σ.limit ≤ s.callers.length
      · rw [if_pos hdepth]
        exact ⟨rfl, fun _ => ⟨fun _ he => (by cases he), fun _ _ he => (by cases he)⟩⟩
      · rw [if_neg hdepth]
        refine outcome_popN hs hargs fun vs us hvs hus => ?_
        refine outcome_ok (h := 0) (l := f.arity) ⟨fun c hm => ?_, rfl, hvs.trans ha⟩
          (hP.function id f hf)
        rcases List.mem_cons.1 hm with rfl | hm
        · rw [← hus.height, ← hus.locals] at hnext
          exact hnext
        · exact hus.callers c hm
    · rw [if_pos ha]
      obtain hd | ⟨g, hg, hga⟩ := hd
      · exact outcome_fault hd rfl _
      · rw [hf] at hg
        cases hg
        exact (ha hga.symm).elim

theorem outcome_callCallee (hP : Shaped σ.bytecode P) (hd : i.isDirect = false) (callee : Callee) :
    Outcome P i (Act.callCallee σ answer callee args s) := by
  cases callee with
  | declared id => exact outcome_callDeclared hs hargs hnext hP (.inl hd)
  | native f => exact outcome_callNative hs hargs hnext hd f

theorem outcome_callValue (hP : Shaped σ.bytecode P) (hd : i.isDirect = false) (v : Val) :
    Outcome P i (Act.callValue σ answer v args s) := by
  have hh := hs.height
  cases v with
  | plain v =>
    cases v with
    | native f => exact outcome_callNative hs hargs hnext hd f
    | _ => exact outcome_fault hd rfl _
  | ref r =>
    cases ho : s.world.object? r with
    | none =>
      unfold Act.callValue
      simp only [Act.run_get_bind, ho]
      exact outcome_fault hd rfl _
    | some o =>
      rw [Act.run_callValue_ref σ answer ho]
      cases o with
      | function callee receiver =>
        cases receiver with
        | none => exact outcome_callCallee hs hargs hnext hP hd callee
        | some receiver =>
          dsimp only
          rw [Act.run_bind_ok (Act.run_insertBelow (by omega) _)]
          have hins := hs.withOperands
            (s.frame.operands.take args ++ .ref receiver :: s.frame.operands.drop args)
          have hlen : (s.frame.operands.take args ++ .ref receiver ::
              s.frame.operands.drop args).length = h + 1 := by
            simp
            omega
          rw [hlen] at hins
          exact outcome_callCallee hins (by omega) (by rw [Nat.add_sub_add_right]; exact hnext)
            hP hd callee
      | _ => exact outcome_fault hd rfl _

end call

theorem outcome_callMethod {args : Nat} (hs : s.Poised P h l) (hargs : args + 1 ≤ h)
    (hnext : P s.pc = some ⟨h - args, l, false⟩) (hP : Shaped σ.bytecode P)
    (hd : i.isDirect = false) (name : Symbol) :
    Outcome P i (Act.callMethod σ answer name args s) := by
  have hh := hs.height
  unfold Act.callMethod
  rw [Act.run_get_bind, List.getElem?_eq_getElem (by omega)]
  dsimp only
  generalize s.frame.operands[args] = receiver
  cases s.world.nativeMethod? receiver (s.world.tables.text name) with
  | some method =>
    refine outcome_callNative hs hargs ?_ hd _
    rw [hnext, show h - (args + 1) + 1 = h - args by omega]
  | none =>
    dsimp only
    cases s.world.recordField receiver name with
    | error e => exact outcome_fault hd rfl _
    | ok callee =>
      dsimp only
      split
      · have hremoved := hs.withOperands (s.frame.operands.eraseIdx args)
        rw [List.length_eraseIdx_of_lt (by omega), hh] at hremoved
        refine outcome_callValue hremoved (by omega) ?_ hP hd _
        rw [show h - 1 - args + 1 = h - args by omega]
        exact hnext
      · exact outcome_fault hd rfl _

theorem outcome_returnValue (hc : ∀ c ∈ s.callers, c.Fits P) (v : Val) :
    Outcome P i (Act.returnValue v s) := by
  cases hcs : s.callers with
  | nil =>
    rw [Act.run_returnValue_nil hcs]
    exact State.fits_of_halted rfl
  | cons d ds =>
    rw [Act.run_returnValue_cons hcs]
    rw [hcs] at hc
    exact outcome_push (s := { s with frame := d.frame, callers := ds, pc := d.returnTo })
      ⟨fun c hm => hc c (List.mem_cons_of_mem _ hm), rfl, rfl⟩ (hc d List.mem_cons_self) v

end outcome

/-! ## Instructions of shaped code

One lemma for each kind of instruction. The number of operands is written as a sum where an instruction
takes some, so that each pop takes one from it. -/

section instructions

variable {σ : Setting} {P : Shapes} {answer : Int32} {h l : Nat} {s : State} (hs : s.Poised P h l)
include hs

theorem outcome_pushString {c : Symbol} {named : Bool} (hnext : P s.pc = some ⟨h + 1, l, named⟩) :
    Outcome P (.pushString c) (Act.execute σ answer (.pushString c) s) :=
  ⟨fun _ => ⟨_, hnext, congrArg (· + 1) hs.height, hs.locals, fun _ => ⟨c, _, rfl⟩⟩,
    fun _ => hs.callers⟩

theorem outcome_binary {op : BinaryOp} (h₂ : 2 ≤ h) (hnext : P s.pc = some ⟨h - 1, l, false⟩) :
    Outcome P (.binary op) (Act.execute σ answer (.binary op) s) := by
  obtain ⟨n, rfl⟩ := Nat.exists_eq_add_of_le' h₂
  exact outcome_pop hs fun y _ hs => outcome_pop hs fun x _ hs =>
    outcome_give rfl hs hnext fun w => clean_binary w op x y

theorem outcome_unary {op : UnaryOp} (h₁ : 1 ≤ h) (hnext : P s.pc = some ⟨h, l, false⟩) :
    Outcome P (.unary op) (Act.execute σ answer (.unary op) s) := by
  obtain ⟨n, rfl⟩ := Nat.exists_eq_add_of_le' h₁
  exact outcome_pop hs fun v _ hs => outcome_give rfl hs hnext fun w => (clean_unary w op v).map _

theorem outcome_getLocal {slot : UInt8} (hslot : slot.toNat < l)
    (hnext : P s.pc = some ⟨h + 1, l, false⟩) :
    Outcome P (.getLocal slot) (Act.execute σ answer (.getLocal slot) s) := by
  have hlt : slot.toNat < s.frame.locals.length := by rw [hs.locals]; exact hslot
  change Outcome P _ ((get >>= _ : Act Unit) s)
  rw [Act.run_get_bind, List.getElem?_eq_getElem hlt]
  exact outcome_push hs hnext _

theorem outcome_setLocal {slot : UInt8} (h₁ : 1 ≤ h) (hslot : slot.toNat ≤ l)
    (hnext : P s.pc = some ⟨h - 1, max l (slot.toNat + 1), false⟩) :
    Outcome P (.setLocal slot) (Act.execute σ answer (.setLocal slot) s) := by
  obtain ⟨n, rfl⟩ := Nat.exists_eq_add_of_le' h₁
  refine outcome_pop hs fun v vs hs => ?_
  refine outcome_ok (s := { s with frame := ⟨vs, Act.storeLocal slot.toNat v s.frame.locals⟩ })
    ⟨hs.callers, hs.height, ?_⟩ hnext
  have hl : s.frame.locals.length = l := hs.locals
  change (Act.storeLocal slot.toNat v s.frame.locals).length = _
  rw [length_storeLocal v (by omega), hl]

theorem outcome_getGlobal {c : Symbol} {vs : List Val} (ho : s.frame.operands = .ref (.literal c) :: vs)
    (hnext : P s.pc = some ⟨h, l, false⟩) :
    Outcome P .getGlobal (Act.execute σ answer .getGlobal s) := by
  obtain ⟨n, rfl⟩ : ∃ n, h = n + 1 := ⟨vs.length, by rw [← hs.height, ho]; rfl⟩
  exact outcome_popString hs ho fun text hs =>
    outcome_give rfl hs hnext fun w => (clean_getGlobal w text).map _

theorem outcome_setGlobal {c : Symbol} {vs : List Val} (ho : s.frame.operands = .ref (.literal c) :: vs)
    (h₂ : 2 ≤ h) (hnext : P s.pc = some ⟨h - 2, l, false⟩) :
    Outcome P .setGlobal (Act.execute σ answer .setGlobal s) := by
  obtain ⟨n, rfl⟩ := Nat.exists_eq_add_of_le' h₂
  exact outcome_popString hs ho fun text hs => outcome_pop hs fun v _ hs =>
    outcome_change rfl hs hnext fun w => clean_ok _

theorem outcome_getElement (h₂ : 2 ≤ h) (hnext : P s.pc = some ⟨h - 1, l, false⟩) :
    Outcome P .getElement (Act.execute σ answer .getElement s) := by
  obtain ⟨n, rfl⟩ := Nat.exists_eq_add_of_le' h₂
  exact outcome_pop hs fun index _ hs => outcome_pop hs fun target _ hs =>
    outcome_give rfl hs hnext fun w => (clean_elementAt w target index).map _

theorem outcome_setElement (h₃ : 3 ≤ h) (hnext : P s.pc = some ⟨h - 3, l, false⟩) :
    Outcome P .setElement (Act.execute σ answer .setElement s) := by
  obtain ⟨n, rfl⟩ := Nat.exists_eq_add_of_le' h₃
  exact outcome_pop hs fun index _ hs => outcome_pop hs fun target _ hs => outcome_pop hs fun v _ hs =>
    outcome_change rfl hs hnext fun w => clean_setElement w target index v

theorem outcome_getField {name : Symbol} (h₁ : 1 ≤ h) (hnext : P s.pc = some ⟨h, l, false⟩) :
    Outcome P (.getField name) (Act.execute σ answer (.getField name) s) := by
  obtain ⟨n, rfl⟩ := Nat.exists_eq_add_of_le' h₁
  exact outcome_pop hs fun target _ hs =>
    outcome_give rfl hs hnext fun w => clean_fieldValue w target name

theorem outcome_setField {name : Symbol} (h₂ : 2 ≤ h) (hnext : P s.pc = some ⟨h - 2, l, false⟩) :
    Outcome P (.setField name) (Act.execute σ answer (.setField name) s) := by
  obtain ⟨n, rfl⟩ := Nat.exists_eq_add_of_le' h₂
  exact outcome_pop hs fun target _ hs => outcome_pop hs fun v _ hs =>
    outcome_change rfl hs hnext fun w => clean_setField w target name v

theorem outcome_createArray {count : UInt32} (hcount : count.toNat ≤ h)
    (hnext : P s.pc = some ⟨h - count.toNat + 1, l, false⟩) :
    Outcome P (.createArray count) (Act.execute σ answer (.createArray count) s) :=
  outcome_popN hs hcount fun _ _ _ hs => outcome_pushNew hs hnext _

theorem outcome_construct {type : UInt32} {args : UInt8} {entry : StructEntry}
    (he : σ.bytecode.struct? type = some entry) (hfields : args.toNat ≤ entry.fields.length)
    (hargs : args.toNat ≤ h) (hnext : P s.pc = some ⟨h - args.toNat + 1, l, false⟩) :
    Outcome P (.construct type args) (Act.execute σ answer (.construct type args) s) := by
  change Outcome P _ (Act.construct σ type args.toNat s)
  unfold Act.construct
  rw [he]
  dsimp only
  rw [if_neg (Nat.not_lt.2 hfields)]
  exact outcome_popN hs hargs fun vs _ _ hs => outcome_pushNew hs hnext _

theorem outcome_call {args : UInt8} (hP : Shaped σ.bytecode P) (hargs : args.toNat + 1 ≤ h)
    (hnext : P s.pc = some ⟨h - args.toNat, l, false⟩) :
    Outcome P (.call args) (Act.execute σ answer (.call args) s) := by
  obtain ⟨n, rfl⟩ : ∃ n, h = n + 1 := ⟨h - 1, by omega⟩
  rw [show n + 1 - args.toNat = n - args.toNat + 1 by omega] at hnext
  exact outcome_pop hs fun v _ hs => outcome_callValue hs (by omega) hnext hP rfl v

theorem outcome_callFunction {id : UInt32} {f : FunctionEntry} (hP : Shaped σ.bytecode P)
    (hfun : σ.bytecode.function? id = some f) (harity : f.arity ≤ h)
    (hnext : P s.pc = some ⟨h - f.arity + 1, l, false⟩) :
    Outcome P (.callFunction id) (Act.execute σ answer (.callFunction id) s) := by
  change Outcome P _ (Act.callFunction σ id s)
  unfold Act.callFunction
  rw [hfun]
  exact outcome_callDeclared hs harity hnext hP (.inr ⟨f, hfun, rfl⟩)

theorem outcome_retValue (h₁ : 1 ≤ h) :
    Outcome P .retValue (Act.execute σ answer .retValue s) := by
  obtain ⟨n, rfl⟩ := Nat.exists_eq_add_of_le' h₁
  exact outcome_pop hs fun v _ hs => outcome_returnValue hs.callers v

theorem outcome_jump {target : UInt32} (hnext : P target.toNat = some ⟨h, l, false⟩) :
    Outcome P (.jump target) (Act.execute σ answer (.jump target) s) :=
  outcome_ok (s := { s with pc := target.toNat }) ⟨hs.callers, hs.height, hs.locals⟩ hnext

theorem outcome_jumpIfFalse {target : UInt32} (h₁ : 1 ≤ h) (hnext : P s.pc = some ⟨h - 1, l, false⟩)
    (hjump : P target.toNat = some ⟨h - 1, l, false⟩) :
    Outcome P (.jumpIfFalse target) (Act.execute σ answer (.jumpIfFalse target) s) := by
  obtain ⟨n, rfl⟩ := Nat.exists_eq_add_of_le' h₁
  refine outcome_pop hs fun v vs hs => ?_
  split
  · exact outcome_ok hs hnext
  · exact outcome_ok (s := { s.withOperands vs with pc := target.toNat })
      ⟨hs.callers, hs.height, hs.locals⟩ hjump

theorem outcome_drop (h₁ : 1 ≤ h) (hnext : P s.pc = some ⟨h - 1, l, false⟩) :
    Outcome P .drop (Act.execute σ answer .drop s) := by
  obtain ⟨n, rfl⟩ := Nat.exists_eq_add_of_le' h₁
  exact outcome_pop hs fun v vs hs => outcome_ok hs hnext

end instructions

/-! ## Steps of shaped code -/

section step

variable {σ : Setting} {P : Shapes} {s : State}

/-- An instruction of shaped code leads to a state that fits, or to a fault that such code has. -/
theorem outcome_execute (hP : Shaped σ.bytecode P) (answer : Int32) {i : Instruction} {pc : Nat}
    {sh : Shape} (hi : i.Admits σ.bytecode pc sh fun q sh' => P q = some sh')
    (hc : ∀ c ∈ s.callers, c.Fits P) (hpc : s.pc = pc + i.width) (hf : s.frame.Has sh) :
    Outcome P i (Act.execute σ answer i s) := by
  obtain ⟨h, l, named⟩ := sh
  have hs : s.Poised P h l := ⟨hc, hf.height, hf.locals⟩
  dsimp only [Instruction.Admits] at hi
  rw [← hpc] at hi
  cases i with
  | pushNull => exact outcome_push hs hi _
  | pushTrue => exact outcome_push hs hi _
  | pushFalse => exact outcome_push hs hi _
  | pushInt n => exact outcome_push hs hi _
  | pushUInt n => exact outcome_push hs hi _
  | pushFloat x => exact outcome_push hs hi _
  | pushChar c => exact outcome_push hs hi _
  | pushString c =>
    obtain ⟨named', hnext⟩ := hi
    exact outcome_pushString hs hnext
  | pushFunction id => exact outcome_pushNew hs hi _
  | binary op => exact outcome_binary hs hi.1 hi.2
  | unary op => exact outcome_unary hs hi.1 hi.2
  | getLocal slot => exact outcome_getLocal hs hi.1 hi.2
  | setLocal slot => exact outcome_setLocal hs hi.1 hi.2.1 hi.2.2
  | shrinkLocals count => exact outcome_shrinkLocals hs hi.1 hi.2
  | getGlobal =>
    obtain ⟨c, vs, ho⟩ := hf.named hi.1
    exact outcome_getGlobal hs ho hi.2
  | setGlobal =>
    obtain ⟨c, vs, ho⟩ := hf.named hi.1
    exact outcome_setGlobal hs ho hi.2.1 hi.2.2
  | getElement => exact outcome_getElement hs hi.1 hi.2
  | setElement => exact outcome_setElement hs hi.1 hi.2
  | getField name => exact outcome_getField hs hi.1 hi.2
  | setField name => exact outcome_setField hs hi.1 hi.2
  | createArray count => exact outcome_createArray hs hi.1 hi.2
  | construct type args =>
    obtain ⟨⟨entry, he, hfields⟩, hargs, hnext⟩ := hi
    exact outcome_construct hs he hfields hargs hnext
  | callMethod name args => exact outcome_callMethod hs hi.1 hi.2 hP rfl name
  | call args => exact outcome_call hs hP hi.1 hi.2
  | callFunction id =>
    obtain ⟨f, hfun, harity, hnext⟩ := hi
    exact outcome_callFunction hs hP hfun harity hnext
  | ret => exact outcome_returnValue hc _
  | retValue => exact outcome_retValue hs hi
  | jump target => exact outcome_jump hs hi
  | jumpIfFalse target => exact outcome_jumpIfFalse hs hi.1 hi.2.1 hi.2.2
  | drop => exact outcome_drop hs hi.1 hi.2
  | halt => exact State.fits_of_halted rfl

/-- A fault that an instruction of shaped code may have. -/
def Tolerable (b : Bytecode) (pc : Nat) (f : Fault) : Prop :=
  ∃ i, Instruction.decode b.code pc = .instruction i ∧ Avoids i f

/-- What one step of shaped code does: the next state fits again, and only tolerable faults end the
run. -/
theorem State.Fits.step (hP : Shaped σ.bytecode P) (hs : s.Fits P) (answer : Int32) :
    (s.next σ answer).Fits P ∧ ∀ f, s.nextFault? σ answer = some f → Tolerable σ.bytecode s.pc f := by
  unfold State.next State.nextFault? State.step
  cases hst : s.status with
  | halted => exact ⟨hs, fun f hf => by cases hf⟩
  | ready =>
    obtain ⟨sh, hsh, hf⟩ := hs.frame hst
    obtain ⟨i, hd, hi⟩ := hP.admits s.pc sh hsh
    have hout := outcome_execute (s := { s with pc := s.pc + i.width }) hP answer hi
      (hs.callers hst) rfl hf
    by_cases hend : σ.bytecode.size ≤ s.pc
    · simp only [if_pos hend]
      exact ⟨fits_of_halted rfl, fun f hf => by cases hf⟩
    · simp only [if_neg hend, State.executeNext, hd]
      revert hout
      cases Act.execute σ answer i { s with pc := s.pc + i.width } with
      | ok a s' => exact fun hout => ⟨hout, fun f hf => by cases hf⟩
      | error f s' =>
        refine fun hout => ⟨fits_of_halted rfl, fun g hg => ?_⟩
        cases hg
        exact ⟨i, hd, hout⟩

theorem fits_initial (hP : Shaped σ.bytecode P) : (State.initial σ).Fits P :=
  ⟨fun _ => ⟨_, hP.start, rfl, rfl, fun hn => (by cases hn)⟩, fun _ c hc => (by cases hc)⟩

end step

end Ideal

end Scriptlet
