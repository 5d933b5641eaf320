import Scriptlet.Proofs.Code.Linking

/-!
# Where jumps go

Branchings and loops are laid out from parts whose sizes are known, so the targets of their jumps
are computed before the bytes are there. `Fragment.Holds` says that a part stands in a fragment,
with its bytes and its jumps, and `Fragment.JumpAt` that a jump does. With these, a failed condition
goes to what stands behind its arm and a finished arm behind the branching (`BranchJumps`), and the
jumps of a loop go to its condition and behind its last jump (`LoopJumps`).

The jumps that wait for a loop are those of the `break` and `continue` statements that belong to it,
in source order (`Fragment.Waits`, `Stmt.exits`). The loop binds all of them, and leaves alone what
an inner loop has bound: inner loops stand in it as they are (`Stmt.Inside`).

Main statement: `Compile.jump_targets`.
-/

namespace Scriptlet

theorem JumpTarget.shift_zero (t : JumpTarget) : t.shift 0 = t := by
  cases t with
  | offset n => rfl
  | loopExit => rfl
  | loopStart => rfl

theorem Relocation.shift_zero (r : Relocation) : r.shift 0 = r := by
  rw [shift, JumpTarget.shift_zero, Nat.add_zero]

namespace Fragment

variable {f g e : Fragment} {j k : Nat} {kind : JumpKind} {target : JumpTarget}

/-! ## Parts of fragments -/

/-- A fragment stands in another from an offset on, with its bytes and its jumps. -/
structure Holds (f : Fragment) (k : Nat) (g : Fragment) : Prop where
  bytes : ∀ (i : Nat) (b : UInt8), g.code[i]? = some b → f.code[k + i]? = some b
  relocations : ∀ r ∈ g.relocations.toList, r.shift k ∈ f.relocations.toList

/-- A jump stands at an offset, and its operand waits for the address of a target. -/
def JumpAt (f : Fragment) (k : Nat) (kind : JumpKind) (target : JumpTarget) : Prop :=
  Blank f.code k kind ∧ ⟨k + 1, target⟩ ∈ f.relocations.toList

theorem Blank.of_bytes {code code' : Array UInt8} {i : Nat}
    (hbytes : ∀ (i : Nat) (b : UInt8), code'[i]? = some b → code[k + i]? = some b)
    (h : Blank code' i kind) : Blank code (k + i) kind := by
  obtain ⟨h₀, h₁, h₂, h₃, h₄, -⟩ := h
  exact ⟨hbytes _ _ h₀, hbytes _ _ h₁, hbytes _ _ h₂, hbytes _ _ h₃, hbytes _ _ h₄, trivial⟩

namespace Holds

theorem refl (f : Fragment) : f.Holds 0 f where
  bytes i b hb := by rw [Nat.zero_add]; exact hb
  relocations r hr := by rw [r.shift_zero]; exact hr

theorem trans (hf : f.Holds j g) (hg : g.Holds k e) : f.Holds (j + k) e where
  bytes i b hb := by
    rw [Nat.add_assoc]
    exact hf.bytes _ b (hg.bytes i b hb)
  relocations r hr := by
    rw [Nat.add_comm, ← Relocation.shift_shift]
    exact hf.relocations _ (hg.relocations r hr)

/-- The jumps of a part are jumps of the whole. -/
theorem jumpAt {i : Nat} (h : f.Holds k g) (hj : g.JumpAt i kind target) :
    f.JumpAt (k + i) kind (target.shift k) := by
  refine ⟨hj.1.of_bytes h.bytes, ?_⟩
  have := h.relocations _ hj.2
  rw [show k + i + 1 = i + 1 + k by omega]
  exact this

end Holds

/-- What stands in a beginning stands in the whole. -/
theorem Holds.under (hf : f.Holds 0 g) (hg : g.Holds k e) : f.Holds k e := by
  have := hf.trans hg
  rwa [Nat.zero_add] at this

theorem JumpAt.under (hf : f.Holds 0 g) (hj : g.JumpAt k kind target) : f.JumpAt k kind target := by
  have := hf.jumpAt hj
  rwa [Nat.zero_add, target.shift_zero] at this

theorem bytes_append_left {code : Array UInt8} (more : Array UInt8) (i : Nat) (b : UInt8)
    (h : code[i]? = some b) : (code ++ more)[0 + i]? = some b := by
  rw [Nat.zero_add, Array.getElem?_append_left (Array.getElem?_eq_some_iff.1 h).1, h]

theorem holds_append_left (f g : Fragment) : (f ++ g).Holds 0 f where
  bytes := bytes_append_left g.code
  relocations r hr := by
    rw [r.shift_zero]
    exact mem_append_relocations.2 (.inl hr)

theorem holds_append_right (f g : Fragment) : (f ++ g).Holds f.size g where
  bytes i b hb := by
    have hright : f.code.size ≤ f.size + i := Nat.le_add_right _ _
    rw [append_code, Array.getElem?_append_right hright, size, Nat.add_sub_cancel_left, hb]
  relocations r hr := mem_append_relocations.2 (.inr ⟨r, hr, rfl⟩)

theorem holds_mark_append (span : Span) (g : Fragment) : (empty.mark span ++ g).Holds 0 g := by
  have := holds_append_right (empty.mark span) g
  rwa [size_mark, size_empty] at this

theorem holds_empty (f : Fragment) (k : Nat) : f.Holds k empty where
  bytes i b hb := by cases hb
  relocations r hr := by cases hr

theorem holds_emit (f : Fragment) (i : Instruction) : (f.emit i).Holds 0 f where
  bytes := bytes_append_left _
  relocations r hr := by
    rw [r.shift_zero]
    exact hr

theorem holds_emitJump (f : Fragment) (kind : JumpKind) (target : JumpTarget) :
    (f.emitJump kind target).Holds 0 f where
  bytes := bytes_append_left _
  relocations r hr := by
    rw [r.shift_zero]
    simp only [emitJump, Array.toList_push, List.mem_append]
    exact .inl hr

theorem jumpAt_emitJump (f : Fragment) (kind : JumpKind) (target : JumpTarget) :
    (f.emitJump kind target).JumpAt f.size kind target := by
  refine ⟨blank_append_jump f.code kind, ?_⟩
  simp [emitJump]

/-- A jump between two parts. -/
theorem holds_jump_append (f : Fragment) (kind : JumpKind) (target : JumpTarget) (g : Fragment) :
    (f.emitJump kind target ++ g).Holds 0 f ∧
      (f.emitJump kind target ++ g).JumpAt f.size kind target ∧
      (f.emitJump kind target ++ g).Holds (f.size + jumpWidth) g := by
  have hleft := holds_append_left (f.emitJump kind target) g
  have hright := holds_append_right (f.emitJump kind target) g
  rw [size_emitJump] at hright
  exact ⟨hleft.under (holds_emitJump f kind target), (jumpAt_emitJump f kind target).under hleft,
    hright⟩

/-- Binding a loop leaves alone what is bound already. -/
theorem Holds.bindLoop (h : f.Holds k g) (hg : g.Bound) (start exit : Nat) :
    (f.bindLoop start exit).Holds k g where
  bytes := h.bytes
  relocations r hr := by
    obtain ⟨n, hn⟩ := hg r hr
    rw [bindLoop_relocations, Array.toList_map, List.mem_map]
    refine ⟨r.shift k, h.relocations r hr, ?_⟩
    simp [bound, Relocation.shift, hn, JumpTarget.shift]

theorem JumpAt.bindLoop (h : f.JumpAt k kind target) (start exit : Nat) :
    (f.bindLoop start exit).JumpAt k kind (bound start exit ⟨k + 1, target⟩).target := by
  refine ⟨h.1, ?_⟩
  rw [bindLoop_relocations, Array.toList_map, List.mem_map]
  refine ⟨_, h.2, ?_⟩
  cases target with
  | offset n => rfl
  | loopExit => rfl
  | loopStart => rfl

/-! ## Jumps that wait for their loop -/

end Fragment

/-- The target is one of the loop around the jump. -/
def JumpTarget.waits : JumpTarget → Bool
  | offset _ => false
  | loopExit => true
  | loopStart => true

theorem JumpTarget.shift_of_waits {t : JumpTarget} (h : t.waits = true) (k : Nat) :
    t.shift k = t := by
  cases t with
  | offset n => cases h
  | loopExit => rfl
  | loopStart => rfl

theorem JumpTarget.waits_shift (t : JumpTarget) (k : Nat) : (t.shift k).waits = t.waits := by
  cases t <;> rfl

theorem JumpTarget.filter_waits_shift (k : Nat) (ts : List JumpTarget) :
    (ts.map (shift k)).filter waits = ts.filter waits := by
  induction ts with
  | nil => rfl
  | cons t ts ih =>
    rw [List.map_cons, List.filter_cons, List.filter_cons, waits_shift, ih]
    split
    · next h => rw [shift_of_waits h]
    · rfl

namespace Fragment

variable {f g : Fragment} {ts us : List JumpTarget}

/-- The targets of the jumps that wait for their loop, in the order of the code. -/
def waiting (f : Fragment) : List JumpTarget :=
  (f.relocations.toList.map Relocation.target).filter JumpTarget.waits

/-- The operand that waits is that of an unconditional jump. -/
def Unconditional (f : Fragment) (r : Relocation) : Prop :=
  ∃ k, r.site = k + 1 ∧ f.JumpAt k .always r.target

/-- The jumps that wait for their loop have the given targets, and are unconditional. -/
structure Waits (f : Fragment) (ts : List JumpTarget) : Prop where
  targets : f.waiting = ts
  always : ∀ r ∈ f.relocations.toList, r.target.waits = true → f.Unconditional r

theorem Holds.unconditional {k : Nat} {r : Relocation} (h : f.Holds k g) (hr : g.Unconditional r) :
    f.Unconditional (r.shift k) := by
  obtain ⟨i, hsite, hjump⟩ := hr
  refine ⟨k + i, ?_, h.jumpAt hjump⟩
  simp only [Relocation.shift, hsite]
  omega

theorem Holds.unconditional_zero {r : Relocation} (h : f.Holds 0 g) (hr : g.Unconditional r) :
    f.Unconditional r := by
  have := h.unconditional hr
  rwa [r.shift_zero] at this

theorem Bound.waits (h : f.Bound) : f.Waits [] := by
  have hnone : ∀ r ∈ f.relocations.toList, r.target.waits = false := fun r hr => by
    obtain ⟨n, hn⟩ := h r hr
    rw [hn]
    rfl
  refine ⟨?_, fun r hr hw => ?_⟩
  · rw [waiting, List.filter_eq_nil_iff]
    intro t ht
    obtain ⟨r, hr, rfl⟩ := List.mem_map.1 ht
    rw [hnone r hr]
    exact Bool.false_ne_true
  · rw [hnone r hr] at hw
    cases hw

namespace Waits

theorem emit (h : f.Waits ts) (i : Instruction) : (f.emit i).Waits ts :=
  ⟨h.targets, fun r hr hw => (holds_emit f i).unconditional_zero (h.always r hr hw)⟩

theorem emitJump (h : f.Waits ts) (kind : JumpKind) (t : JumpTarget)
    (ht : t.waits = true → kind = .always) :
    (f.emitJump kind t).Waits (ts ++ [t].filter JumpTarget.waits) := by
  refine ⟨?_, fun r hr hw => ?_⟩
  · rw [← h.targets]
    simp [waiting, Fragment.emitJump]
  · simp only [Fragment.emitJump, Array.toList_push, List.mem_append, List.mem_singleton] at hr
    rcases hr with hr | rfl
    · exact (holds_emitJump f kind t).unconditional_zero (h.always r hr hw)
    · refine ⟨f.size, rfl, ?_⟩
      rw [← ht hw]
      exact jumpAt_emitJump f kind t

theorem emitJump_offset (h : f.Waits ts) (kind : JumpKind) (n : Nat) :
    (f.emitJump kind (.offset n)).Waits ts := by
  have := h.emitJump kind (.offset n) fun ht => by cases ht
  rwa [show [JumpTarget.offset n].filter JumpTarget.waits = [] from rfl, List.append_nil] at this

theorem append (hf : f.Waits ts) (hg : g.Waits us) : (f ++ g).Waits (ts ++ us) := by
  refine ⟨?_, fun r hr hw => ?_⟩
  · rw [← hf.targets, ← hg.targets, waiting, append_relocations, Array.toList_append,
      Array.toList_map, List.map_append, List.filter_append, List.map_map]
    have hshift := JumpTarget.filter_waits_shift f.size (g.relocations.toList.map Relocation.target)
    rw [List.map_map] at hshift
    exact congrArg (f.waiting ++ ·) hshift
  · rcases mem_append_relocations.1 hr with hr | ⟨q, hq, rfl⟩
    · exact (holds_append_left f g).unconditional_zero (hf.always r hr hw)
    · rw [Relocation.shift, JumpTarget.waits_shift] at hw
      exact (holds_append_right f g).unconditional (hg.always q hq hw)

end Waits

end Fragment

/-! ## Statements that leave or repeat their loop -/

mutual

/-- The `break` and `continue` statements in a statement that belong to a loop around it, in source
order. -/
def Stmt.exits : Stmt → List JumpTarget
  | .exitLoop _ => [.loopExit]
  | .nextRound _ => [.loopStart]
  | .block body _ => exitsAll body
  | .branch branches none _ => exitsArms branches
  | .branch branches (some body) _ => exitsArms branches ++ exitsAll body
  | .loop .. => []
  | .expression .. | .declare .. | .assign .. | .giveBack .. | .function .. | .type .. => []

/-- The `break` and `continue` statements in statements that belong to a loop around them. -/
def Stmt.exitsAll : List Stmt → List JumpTarget
  | [] => []
  | s :: ss => s.exits ++ exitsAll ss

/-- The `break` and `continue` statements in arms that belong to a loop around them. -/
def Stmt.exitsArms : List (Arm Stmt) → List JumpTarget
  | [] => []
  | ⟨_, body, _⟩ :: rest => exitsAll body ++ exitsArms rest

end

namespace Compile

open Fragment (Guarded Waits)

variable {env : Env} {sc : Scope} {f : Fragment} {ts us : List JumpTarget}

theorem waits_mark (span : Span) : (Fragment.empty.mark span).Waits [] :=
  (Fragment.bound_empty.mark span).waits

theorem releaseSlots_waits (hf : f.Waits ts) (count : Nat) : (releaseSlots f count).Waits ts :=
  releaseSlots_keeps (P := fun f => f.Waits ts) (fun _ i h => h.emit i) hf count

theorem layoutArm_waits {stop : Nat} {more : Bool} {out : Fragment} {arm : Guarded}
    (hout : out.Waits ts) (hcond : arm.condition.Waits []) (hbody : arm.body.Waits us) :
    (layoutArm stop more out arm).Waits (ts ++ us) := by
  have hguarded := ((hout.append hcond).emitJump_offset .ifFalse
    (out.size + arm.size more)).append hbody
  rw [List.append_nil] at hguarded
  unfold layoutArm
  cases more with
  | true => exact hguarded.emitJump_offset .always stop
  | false => exact hguarded

mutual

/-- What waits in the code of a statement. -/
theorem stmt_waits {env : Env} : ∀ {s : Stmt} {sc : Scope} {f : Fragment} {next : Scope},
    stmt env sc s = .ok (f, next) → f.Waits s.exits
  | .expression e span, _, _, _, h => by
    cases stmt_code h with
    | expression he => exact ((waits_mark span).append (expr_bound he).waits).emit _
  | .declare name e span, _, _, _, h => by
    cases stmt_code h with
    | declare he hd => exact ((waits_mark span).append (expr_bound he).waits).emit _
  | .assign target op value span, _, _, _, h => by
    have hmark := Fragment.bound_empty.mark span
    cases stmt_code h with
    | assign hp hv => exact ((hmark.append (expr_bound hv)).append hp.bound.2).waits
    | fold hp hv =>
      have hread := (hmark.append hp.bound.1).append (expr_bound hv)
      exact ((hread.emitAt _ span).append hp.bound.2).waits
  | .block body span, _, _, _, h => by
    cases stmt_code h with
    | block hb => exact (waits_mark span).append (releaseSlots_waits (stmts_waits hb) _)
  | .branch branches none span, _, _, _, h => by
    cases stmt_code h with
    | branch ha =>
      exact (waits_mark span).append (arms_waits ha _ _ Fragment.bound_empty.waits)
  | .branch branches (some body) span, _, _, _, h => by
    cases stmt_code h with
    | branchElse ha hb =>
      exact (waits_mark span).append ((arms_waits ha _ _ Fragment.bound_empty.waits).append
        (releaseSlots_waits (stmts_waits hb) _))
  | .loop condition body span, _, _, _, h => by
    cases stmt_code h with
    | loop hc hb => exact (waits_mark span).append (Fragment.bound_bindLoop _ _ _).waits
  | .exitLoop span, _, _, _, h => by
    cases stmt_code h with
    | exitLoop hl => exact (releaseSlots_waits (waits_mark span) _).emitJump _ _ fun _ => rfl
  | .nextRound span, _, _, _, h => by
    cases stmt_code h with
    | nextRound hl => exact (releaseSlots_waits (waits_mark span) _).emitJump _ _ fun _ => rfl
  | .giveBack none span, _, _, _, h => by
    cases stmt_code h with
    | giveBack => exact (waits_mark span).emit _
  | .giveBack (some e) span, _, _, _, h => by
    cases stmt_code h with
    | giveBackValue he => exact ((waits_mark span).append (expr_bound he).waits).emit _
  | .function decl span, _, _, _, h => by cases stmt_code h
  | .type decl span, _, _, _, h => by cases stmt_code h

theorem stmts_waits {env : Env} : ∀ {ss : List Stmt} {sc : Scope} {f : Fragment} {last : Scope},
    stmts env sc ss = .ok (f, last) → f.Waits (Stmt.exitsAll ss)
  | [], _, _, _, h => by
    rw [stmts] at h
    cases h
    exact Fragment.bound_empty.waits
  | s :: ss, _, _, _, h => by
    obtain ⟨fs, next, fss, hs, hss, rfl⟩ := stmts_cons h
    exact (stmt_waits hs).append (stmts_waits hss)

theorem arms_waits {env : Env} : ∀ {as : List (Arm Stmt)} {sc : Scope} {gs : List Guarded},
    arms env sc as = .ok gs → ∀ (stop : Nat) (hasElse : Bool) {out : Fragment}
      {ts : List JumpTarget}, out.Waits ts →
        (layoutArms stop hasElse out gs).Waits (ts ++ Stmt.exitsArms as)
  | [], _, _, h, _, _, _, _, hout => by
    rw [arms] at h
    cases h
    rw [Stmt.exitsArms, List.append_nil]
    exact hout
  | ⟨condition, body, span⟩ :: rest, _, _, h, stop, hasElse, out, ts, hout => by
    obtain ⟨fc, fb, inner, more, hc, hb, hm, rfl⟩ := arms_cons h
    rw [layoutArms_cons, Stmt.exitsArms, ← List.append_assoc]
    exact arms_waits hm stop hasElse (layoutArm_waits hout (expr_bound hc).waits
      (releaseSlots_waits (stmts_waits hb) _))

end

/-! ## Branchings -/

open Fragment (jumpWidth)

/-- An arm of a branching stands from `start` on, and what is behind it from `next` on. A failed
condition goes there, and a finished arm that something follows to `stop`. -/
structure ArmAt (f : Fragment) (stop : Nat) (followed : Bool) (start next : Nat) (g : Guarded) :
    Prop where
  condition : f.Holds start g.condition
  test : f.JumpAt (start + g.condition.size) .ifFalse (.offset next)
  body : f.Holds (start + g.condition.size + jumpWidth) g.body
  exit : followed = true →
    f.JumpAt (start + g.condition.size + jumpWidth + g.body.size) .always (.offset stop)
  next : next = start + g.size followed

/-- The jumps of a branching: `start` says where its arms start, and what is behind them. -/
structure BranchJumps (f : Fragment) (gs : List Guarded) (otherwise : Option Fragment)
    (start : Nat → Nat) : Prop where
  tidy : f.Tidy
  size : f.size = armsSize otherwise.isSome gs + (otherwise.getD .empty).size
  first : start 0 = 0
  arms : ∀ i g, gs[i]? = some g → ArmAt f f.size (decide (i + 1 < gs.length) || otherwise.isSome)
    (start i) (start (i + 1)) g
  rest : f.Holds (start gs.length) (otherwise.getD .empty)
  last : start gs.length + (otherwise.getD .empty).size = f.size

section arms

variable {g : Fragment} {stop start next : Nat} {followed hasElse : Bool} {arm : Guarded}

theorem ArmAt.under (hf : f.Holds 0 g) (h : ArmAt g stop followed start next arm) :
    ArmAt f stop followed start next arm where
  condition := hf.under h.condition
  test := h.test.under hf
  body := hf.under h.body
  exit hx := (h.exit hx).under hf
  next := h.next

theorem layoutArm_armAt (stop : Nat) (followed : Bool) (out : Fragment) (arm : Guarded) :
    (layoutArm stop followed out arm).Holds 0 out ∧
      ArmAt (layoutArm stop followed out arm) stop followed out.size (out.size + arm.size followed)
        arm := by
  obtain ⟨hpair, htest, hbody⟩ := Fragment.holds_jump_append (out ++ arm.condition) .ifFalse
    (.offset (out.size + arm.size followed)) arm.body
  rw [Fragment.size_append] at htest hbody
  -- The arm without the jump behind it, at the beginning of the arm with that jump.
  have harm : ∀ f : Fragment, f.Holds 0 ((out ++ arm.condition).emitJump .ifFalse
      (.offset (out.size + arm.size followed)) ++ arm.body) →
      (followed = true → f.JumpAt (out.size + arm.condition.size + jumpWidth + arm.body.size)
        .always (.offset stop)) →
      f.Holds 0 out ∧ ArmAt f stop followed out.size (out.size + arm.size followed) arm := by
    intro f hf hexit
    have hout := hpair.under (Fragment.holds_append_left out arm.condition)
    have hcond := hpair.under (Fragment.holds_append_right out arm.condition)
    exact ⟨hf.under hout, hf.under hcond, htest.under hf, hf.under hbody, hexit, rfl⟩
  unfold layoutArm
  cases followed with
  | false => exact harm _ (.refl _) fun hx => by cases hx
  | true =>
    refine harm _ (Fragment.holds_emitJump _ _ _) fun _ => ?_
    have hjump := Fragment.jumpAt_emitJump ((out ++ arm.condition).emitJump .ifFalse
      (.offset (out.size + arm.size true)) ++ arm.body) .always (.offset stop)
    rw [Fragment.size_append, Fragment.size_emitJump, Fragment.size_append] at hjump
    exact hjump

/-- Where the arms of a branching start, the first one at `start`, and what is behind them. -/
def armStart (hasElse : Bool) (start : Nat) : List Guarded → Nat → Nat
  | _, 0 => start
  | [], _ + 1 => start
  | g :: gs, i + 1 => armStart hasElse (start + g.size (!gs.isEmpty || hasElse)) gs i

theorem armStart_length (hasElse : Bool) (start : Nat) (gs : List Guarded) :
    armStart hasElse start gs gs.length = start + armsSize hasElse gs := by
  induction gs generalizing start with
  | nil => rfl
  | cons g gs ih =>
    rw [List.length_cons, armStart, ih, armsSize]
    omega

theorem layoutArms_armAt (stop : Nat) (hasElse : Bool) (out : Fragment) (gs : List Guarded) :
    (layoutArms stop hasElse out gs).Holds 0 out ∧
      ∀ i g, gs[i]? = some g → ArmAt (layoutArms stop hasElse out gs) stop
        (decide (i + 1 < gs.length) || hasElse) (armStart hasElse out.size gs i)
        (armStart hasElse out.size gs (i + 1)) g := by
  induction gs generalizing out with
  | nil => exact ⟨.refl out, fun i g hg => by cases hg⟩
  | cons arm rest ih =>
    rw [layoutArms_cons]
    obtain ⟨hout, harm⟩ := layoutArm_armAt stop (!rest.isEmpty || hasElse) out arm
    obtain ⟨hfirst, hrest⟩ := ih (layoutArm stop (!rest.isEmpty || hasElse) out arm)
    rw [size_layoutArm] at hrest
    refine ⟨hfirst.under hout, fun i g hg => ?_⟩
    cases i with
    | zero =>
      cases hg
      have hmore : decide (0 + 1 < (arm :: rest).length) = !rest.isEmpty := by
        cases rest with
        | nil => rfl
        | cons _ _ => rfl
      rw [hmore]
      exact harm.under hfirst
    | succ i =>
      have hmore : decide (i + 1 + 1 < (arm :: rest).length) = decide (i + 1 < rest.length) := by
        simp
      rw [hmore]
      exact hrest i g hg

theorem layoutBranch_jumps {gs : List Guarded} {otherwise : Option Fragment}
    (hgs : ∀ g ∈ gs, g.condition.Tidy ∧ g.body.Tidy) (ho : ∀ b ∈ otherwise, b.Tidy) (span : Span) :
    BranchJumps (Fragment.empty.mark span ++ layoutBranch gs otherwise) gs otherwise
      (armStart otherwise.isSome 0 gs) := by
  have hmark := Fragment.holds_mark_append span (layoutBranch gs otherwise)
  have htidy := (Fragment.tidy_empty.mark span).append (layoutBranch_tidy hgs ho)
  cases otherwise with
  | none =>
    have hsize := (size_mark_append span _).trans (size_layoutBranch gs)
    have hlast := armStart_length false 0 gs
    rw [Nat.zero_add] at hlast
    refine ⟨htidy, hsize, rfl, fun i g hg => ?_, Fragment.holds_empty _ _, hlast.trans hsize.symm⟩
    rw [hsize]
    exact ((layoutArms_armAt _ _ _ gs).2 i g hg).under hmark
  | some body =>
    have hsize := (size_mark_append span _).trans (size_layoutBranch_some gs body)
    have hlast := armStart_length true 0 gs
    rw [Nat.zero_add] at hlast
    refine ⟨htidy, hsize, rfl, fun i g hg => ?_, ?_, ?_⟩
    · rw [hsize]
      have harms := (layoutArms_armAt (armsSize true gs + body.size) true .empty gs).2 i g hg
      exact (harms.under (Fragment.holds_append_left _ body)).under hmark
    · have hbody := Fragment.holds_append_right
        (layoutArms (armsSize true gs + body.size) true .empty gs) body
      rw [size_layoutArms, Fragment.size_empty, Nat.zero_add] at hbody
      show Fragment.Holds _ (armStart true 0 gs gs.length) body
      rw [hlast]
      exact hmark.under hbody
    · rw [hsize]
      exact congrArg (· + body.size) hlast

end arms

/-! ## Loops -/

/-- The jumps of a loop. -/
structure LoopJumps (f : Fragment) (g : Guarded) : Prop where
  tidy : f.Tidy
  size : f.size = g.size true
  condition : f.Holds 0 g.condition
  test : f.JumpAt g.condition.size .ifFalse (.offset f.size)
  body : ∀ (i : Nat) (b : UInt8), g.body.code[i]? = some b →
    f.code[g.condition.size + jumpWidth + i]? = some b
  back : f.JumpAt (g.condition.size + jumpWidth + g.body.size) .always (.offset 0)
  breaks : ∀ r ∈ g.body.relocations.toList, r.target = .loopExit →
    ∃ k, r.site = k + 1 ∧ f.JumpAt (g.condition.size + jumpWidth + k) .always (.offset f.size)
  continues : ∀ r ∈ g.body.relocations.toList, r.target = .loopStart →
    ∃ k, r.site = k + 1 ∧ f.JumpAt (g.condition.size + jumpWidth + k) .always (.offset 0)
  kept : ∀ r ∈ g.body.relocations.toList, ∀ n, r.target = .offset n →
    r.shift (g.condition.size + jumpWidth) ∈ f.relocations.toList
  bound : f.Bound

theorem layoutLoop_jumps {g : Guarded} (hc : g.condition.Tidy) (hb : g.body.Tidy)
    (hcb : g.condition.Bound) (hw : g.body.Waits ts) (span : Span) :
    LoopJumps (Fragment.empty.mark span ++ layoutLoop g) g := by
  have hmark := Fragment.holds_mark_append span (layoutLoop g)
  have hsize := (size_mark_append span _).trans (size_layoutLoop g)
  obtain ⟨hcond, htest, hbody⟩ :=
    Fragment.holds_jump_append g.condition .ifFalse (.offset (g.size true)) g.body
  have hopen := Fragment.holds_emitJump (g.condition.emitJump .ifFalse (.offset (g.size true)) ++
    g.body) .always (.offset 0)
  have hback := Fragment.jumpAt_emitJump (g.condition.emitJump .ifFalse (.offset (g.size true)) ++
    g.body) .always (.offset 0)
  rw [Fragment.size_append, Fragment.size_emitJump] at hback
  -- The jumps of the body that wait get their targets from the loop.
  have hwaiting : ∀ r ∈ g.body.relocations.toList, r.target.waits = true →
      ∃ k, r.site = k + 1 ∧ (Fragment.empty.mark span ++ layoutLoop g).JumpAt
        (g.condition.size + jumpWidth + k) .always (Fragment.bound 0 (g.size true)
          ⟨g.condition.size + jumpWidth + k + 1, r.target⟩).target := by
    intro r hr ht
    obtain ⟨k, hsite, hjump⟩ := hw.always r hr ht
    have := ((hopen.under hbody).jumpAt hjump).bindLoop 0 (g.size true)
    rw [JumpTarget.shift_of_waits ht] at this
    exact ⟨k, hsite, this.under hmark⟩
  refine {
    tidy := (Fragment.tidy_empty.mark span).append (layoutLoop_tidy hc hb)
    size := hsize
    condition := hmark.under ((hopen.under hcond).bindLoop hcb _ _)
    test := ?test
    body := ?body
    back := (hback.bindLoop 0 _).under hmark
    breaks := ?breaks
    continues := ?continues
    kept := ?kept
    bound := (Fragment.bound_empty.mark span).append (Fragment.bound_bindLoop _ _ _) }
  case test =>
    rw [hsize]
    exact ((htest.under hopen).bindLoop 0 _).under hmark
  case body =>
    intro i b hi
    have := hmark.bytes _ b ((hopen.under hbody).bytes i b hi)
    rwa [Nat.zero_add] at this
  case breaks =>
    intro r hr ht
    rw [hsize]
    have := hwaiting r hr
    rw [ht] at this
    exact this rfl
  case continues =>
    intro r hr ht
    have := hwaiting r hr
    rw [ht] at this
    exact this rfl
  case kept =>
    intro r hr n hn
    have hloop : r.shift (g.condition.size + jumpWidth) ∈ (layoutLoop g).relocations.toList := by
      rw [layoutLoop, Fragment.bindLoop_relocations, Array.toList_map, List.mem_map]
      refine ⟨_, (hopen.under hbody).relocations r hr, ?_⟩
      simp [Fragment.bound, Relocation.shift, hn, JumpTarget.shift]
    have := hmark.relocations _ hloop
    rwa [Relocation.shift_zero] at this

end Compile

/-! ## Inner loops -/

/-- A statement is one of a list, or inside of one, at any depth. -/
inductive Stmt.Inside (s : Stmt) : List Stmt → Prop
  | here (ss : List Stmt) : Inside s (s :: ss)
  | later (t : Stmt) {ss : List Stmt} (h : Inside s ss) : Inside s (t :: ss)
  | block {body : List Stmt} (span : Span) (ss : List Stmt) (h : Inside s body) :
    Inside s (.block body span :: ss)
  | arm {branches : List (Arm Stmt)} {arm : Arm Stmt} (otherwise : Option (List Stmt)) (span : Span)
    (ss : List Stmt) (hmem : arm ∈ branches) (h : Inside s arm.body) :
    Inside s (.branch branches otherwise span :: ss)
  | otherwise {body : List Stmt} (branches : List (Arm Stmt)) (span : Span) (ss : List Stmt)
    (h : Inside s body) : Inside s (.branch branches (some body) span :: ss)
  | loop {body : List Stmt} (condition : Expr) (span : Span) (ss : List Stmt) (h : Inside s body) :
    Inside s (.loop condition body span :: ss)

namespace Compile

open Fragment (Guarded)

variable {env : Env} {sc : Scope} {f g : Fragment}

theorem holds_closeBlock (r : Fragment × Scope) : (closeBlock r).Holds 0 r.1 :=
  releaseSlots_keeps (P := fun f => f.Holds 0 r.1) (fun f i h => (Fragment.holds_emit f i).under h)
    (.refl r.1) _

/-- The code behind the arms of a branching, if there is any. -/
def ElseCode (env : Env) (sc : Scope) : Option (List Stmt) → Option Fragment → Prop
  | none, fo => fo = none
  | some body, fo => ∃ r, stmts env (sc.enter .plain) body = .ok r ∧ fo = some (closeBlock r)

theorem stmt_branch_jumps {branches : List (Arm Stmt)} {otherwise : Option (List Stmt)}
    {span : Span} {next : Scope}
    (h : stmt env sc (.branch branches otherwise span) = .ok (f, next)) :
    ∃ gs fo start, arms env sc branches = .ok gs ∧ ElseCode env sc otherwise fo ∧
      BranchJumps f gs fo start := by
  cases stmt_code h with
  | branch ha => exact ⟨_, none, _, ha, rfl, layoutBranch_jumps (arms_tidy ha) (by simp) span⟩
  | @branchElse _ _ _ gs fb inner ha hb =>
    refine ⟨gs, _, _, ha, ⟨_, hb, rfl⟩, layoutBranch_jumps (arms_tidy ha) (fun b hmem => ?_) span⟩
    cases hmem
    exact releaseSlots_tidy (stmts_tidy hb) _

theorem stmt_loop_jumps {condition : Expr} {body : List Stmt} {span : Span} {next : Scope}
    (h : stmt env sc (.loop condition body span) = .ok (f, next)) :
    ∃ fc r, expr env sc condition = .ok fc ∧ stmts env (sc.enter .loop) body = .ok r ∧
      LoopJumps f ⟨fc, closeBlock r⟩ ∧ (closeBlock r).waiting = Stmt.exitsAll body := by
  cases stmt_code h with
  | @loop _ _ _ fc fb inner hc hb =>
    have hwaits : (closeBlock (fb, inner)).Waits (Stmt.exitsAll body) :=
      releaseSlots_waits (stmts_waits hb) _
    exact ⟨fc, _, hc, hb, layoutLoop_jumps (expr_tidy hc) (releaseSlots_tidy (stmts_tidy hb) _)
      (expr_bound hc) hwaits span, hwaits.targets⟩

/-- A fragment holds the code of a statement, unless a jump of that code waits for its loop. -/
def HoldsCode (env : Env) (f : Fragment) (s : Stmt) : Prop :=
  ∃ sc g next k, stmt env sc s = .ok (g, next) ∧ (g.Bound → f.Holds k g)

theorem HoldsCode.within {s : Stmt} {k : Nat} (h : HoldsCode env g s) (hf : f.Holds k g) :
    HoldsCode env f s := by
  obtain ⟨sc, e, next, i, he, hi⟩ := h
  exact ⟨sc, e, next, k + i, he, fun hb => hf.trans (hi hb)⟩

theorem HoldsCode.bindLoop {s : Stmt} (h : HoldsCode env f s) (start exit : Nat) :
    HoldsCode env (f.bindLoop start exit) s := by
  obtain ⟨sc, e, next, i, he, hi⟩ := h
  exact ⟨sc, e, next, i, he, fun hb => (hi hb).bindLoop hb start exit⟩

/-- The body of an arm is compiled to that of an arm of the layout. -/
theorem arms_body {branches : List (Arm Stmt)} {gs : List Guarded} {arm : Arm Stmt}
    (h : arms env sc branches = .ok gs) (hmem : arm ∈ branches) :
    ∃ (r : Fragment × Scope) (i : Nat) (g : Guarded),
      stmts env (sc.enter .plain) arm.body = .ok r ∧ gs[i]? = some g ∧ g.body = closeBlock r := by
  induction branches generalizing gs with
  | nil => cases hmem
  | cons first rest ih =>
    obtain ⟨fc, fb, inner, more, hc, hb, hm, rfl⟩ := arms_cons h
    rcases List.mem_cons.1 hmem with rfl | hmem
    · exact ⟨_, 0, _, hb, rfl, rfl⟩
    · obtain ⟨r, i, g, hr, hi, hg⟩ := ih hm hmem
      exact ⟨r, i + 1, g, hr, hi, hg⟩

/-- What the body of a loop holds, the loop does. -/
theorem stmt_loop_holdsCode {condition : Expr} {body : List Stmt} {span : Span} {next : Scope}
    {s : Stmt} (h : stmt env sc (.loop condition body span) = .ok (f, next))
    (hbody : ∀ {sc : Scope} {r : Fragment × Scope}, stmts env sc body = .ok r →
      HoldsCode env r.1 s) : HoldsCode env f s := by
  cases stmt_code h with
  | @loop _ _ _ fc fb inner hc hb =>
    have hblock := (hbody hb).within (holds_closeBlock (fb, inner))
    obtain ⟨-, -, hpart⟩ := Fragment.holds_jump_append fc .ifFalse
      (.offset (Guarded.size ⟨fc, closeBlock (fb, inner)⟩ true)) (closeBlock (fb, inner))
    have hopen := (hblock.within hpart).within (Fragment.holds_emitJump _ .always (.offset 0))
    exact (hopen.bindLoop 0 _).within (Fragment.holds_mark_append span _)

theorem stmts_holdsCode {s : Stmt} {ss : List Stmt} (hin : s.Inside ss) : ∀ {sc : Scope}
    {r : Fragment × Scope}, stmts env sc ss = .ok r → HoldsCode env r.1 s := by
  -- The first statement of a list stands at the beginning of the code.
  have hfirst : ∀ {sc : Scope} {t : Stmt} {ts : List Stmt} {r : Fragment × Scope},
      stmts env sc (t :: ts) = .ok r →
      (∀ fs next, stmt env sc t = .ok (fs, next) → HoldsCode env fs s) → HoldsCode env r.1 s := by
    intro sc t ts r h ht
    obtain ⟨fs, next, fss, hs, -, hr⟩ := stmts_cons h
    rw [hr]
    exact (ht fs next hs).within (Fragment.holds_append_left fs fss)
  induction hin with
  | here ss =>
    intro sc r h
    exact hfirst h fun fs next hs => ⟨sc, fs, next, 0, hs, fun _ => .refl fs⟩
  | later t _ ih =>
    intro sc r h
    obtain ⟨fs, next, fss, -, hss, hr⟩ := stmts_cons h
    rw [hr]
    exact (ih hss).within (Fragment.holds_append_right fs fss)
  | block span ss _ ih =>
    intro sc r h
    refine hfirst h fun fs next hs => ?_
    cases stmt_code hs with
    | block hb =>
      exact ((ih hb).within (holds_closeBlock _)).within (Fragment.holds_mark_append span _)
  | arm otherwise span ss hmem _ ih =>
    intro sc r h
    refine hfirst h fun fs next hs => ?_
    obtain ⟨gs, fo, start, ha, -, hjumps⟩ := stmt_branch_jumps hs
    obtain ⟨r', i, g, hb, hi, hg⟩ := arms_body ha hmem
    have hbody := (hjumps.arms i g hi).body
    rw [hg] at hbody
    exact ((ih hb).within (holds_closeBlock _)).within hbody
  | otherwise branches span ss _ ih =>
    intro sc r h
    refine hfirst h fun fs next hs => ?_
    obtain ⟨gs, fo, start, -, ⟨r', hb, rfl⟩, hjumps⟩ := stmt_branch_jumps hs
    exact ((ih hb).within (holds_closeBlock _)).within hjumps.rest
  | loop condition span ss _ ih =>
    intro sc r h
    refine hfirst h fun fs next hs => ?_
    exact stmt_loop_holdsCode hs ih

/-- The jumps of branchings and loops. In the code of a branching a failed condition goes to the
next arm, to the code behind the arms, or to the end if there is none, and every arm that something
follows ends with a jump to the end, which is where it was computed to be. In the code of a loop the
failed condition and every `break` of the loop go behind the jump back, and the jump back and every
`continue` of the loop go to the condition; no jump waits any more, and inner loops stand in it as
they are. -/
theorem jump_targets {env : Env} {sc next : Scope} {s : Stmt} {f : Fragment}
    (h : stmt env sc s = .ok (f, next)) :
    (∀ branches otherwise span, s = .branch branches otherwise span →
      ∃ gs fo start, arms env sc branches = .ok gs ∧ ElseCode env sc otherwise fo ∧
        BranchJumps f gs fo start) ∧
    (∀ condition body span, s = .loop condition body span →
      ∃ fc r, expr env sc condition = .ok fc ∧ stmts env (sc.enter .loop) body = .ok r ∧
        LoopJumps f ⟨fc, closeBlock r⟩ ∧ (closeBlock r).waiting = Stmt.exitsAll body ∧
        ∀ c b sp, (Stmt.loop c b sp).Inside body →
          ∃ sc' g next' k, stmt env sc' (.loop c b sp) = .ok (g, next') ∧ f.Holds k g) := by
  refine ⟨fun branches otherwise span hs => ?_, fun condition body span hs => ?_⟩
  · subst hs
    exact stmt_branch_jumps h
  · subst hs
    obtain ⟨fc, r, hc, hr, hjumps, hwaiting⟩ := stmt_loop_jumps h
    refine ⟨fc, r, hc, hr, hjumps, hwaiting, fun c b sp hin => ?_⟩
    obtain ⟨sc', g, next', k, hg, hk⟩ := stmt_loop_holdsCode h (stmts_holdsCode hin)
    obtain ⟨_, _, _, _, hinner, _⟩ := stmt_loop_jumps hg
    exact ⟨sc', g, next', k, hg, hk hinner.bound⟩

/-- The loop
`while (true) { if (a) { break; } elif (b) { while (c) { break; } } else { continue; } }`
and the branching in it. -/
theorem jump_targets_nested :
    let env : Env := ⟨.ofList ["a", "b", "c"], .empty⟩
    let inner : Stmt := .loop (.name 2 {}) [.exitLoop {}] {}
    let branches : List (Arm Stmt) :=
      [⟨.name 0 {}, [.exitLoop {}], {}⟩, ⟨.name 1 {}, [inner], {}⟩]
    let branch : Stmt := .branch branches (some [.nextRound {}]) {}
    let body : List Stmt := [branch]
    let condition : Expr := .literal (.bool true) {}
    (Stmt.exitsAll body = [.loopExit, .loopStart] ∧ inner.Inside body) ∧
    (∃ f gs fo start, stmt env (Scope.function.enter .loop) branch =
        .ok (f, Scope.function.enter .loop) ∧ gs.length = 2 ∧ BranchJumps f gs fo start) ∧
    ∃ f fc r, stmt env .function (.loop condition body {}) = .ok (f, .function) ∧
      LoopJumps f ⟨fc, closeBlock r⟩ ∧ (closeBlock r).waiting = [.loopExit, .loopStart] ∧
      ∃ sc g next k, stmt env sc inner = .ok (g, next) ∧ f.Holds k g := by
  intro env inner branches branch body condition
  have hinside : inner.Inside body :=
    .arm _ _ _ (List.mem_cons_of_mem _ List.mem_cons_self) (.here [])
  refine ⟨⟨rfl, hinside⟩, ?_, ?_⟩
  · obtain ⟨f, hf⟩ : ∃ f, stmt env (Scope.function.enter .loop) branch =
        .ok (f, Scope.function.enter .loop) := ⟨_, rfl⟩
    obtain ⟨gs, fo, start, hgs, -, hjumps⟩ := (jump_targets hf).1 _ _ _ rfl
    cases hgs
    exact ⟨f, _, fo, start, hf, rfl, hjumps⟩
  · obtain ⟨f, hf⟩ : ∃ f, stmt env .function (.loop condition body {}) = .ok (f, .function) :=
      ⟨_, rfl⟩
    obtain ⟨fc, r, -, -, hjumps, hwaiting, hinner⟩ := (jump_targets hf).2 _ _ _ rfl
    exact ⟨f, fc, r, hf, hjumps, hwaiting, hinner _ _ _ hinside⟩

end Compile

end Scriptlet
