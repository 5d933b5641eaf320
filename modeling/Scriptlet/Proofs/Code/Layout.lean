import Mathlib.Algebra.Ring.Nat
import Scriptlet.Proofs.Code.Parts

/-!
# Where the parts of code stand

Slots are released in portions (`ReleasesAt`), the arms of a branching stand one behind the other
(`ArmsAt`), and the jumps of a loop go to its condition and behind it (`placed_layoutLoop`). All code
is tidy (`stmts_tidy`).
-/

namespace Scriptlet.Compile

open Fragment (Guarded Tidy Placed jumpWidth)

variable {env : Env} {sc : Scope} {f : Fragment} {code : Array UInt8} {base : Nat}
  {loop : LoopAddresses}

theorem size_mark_append (span : Span) (g : Fragment) :
    (Fragment.empty.mark span ++ g).size = g.size := by
  simp

theorem placed_mark_append {span : Span} {g : Fragment}
    (h : (Fragment.empty.mark span ++ g).Placed code base loop) : g.Placed code base loop := by
  have := (h.append (Fragment.tidy_empty.mark span)).2
  rwa [Fragment.size_mark] at this

theorem endsWithReturn_cons (s t : Stmt) (ss : List Stmt) :
    endsWithReturn (s :: t :: ss) = endsWithReturn (t :: ss) := by
  unfold endsWithReturn
  rw [List.getLast?_cons_cons]

/-! ## Releasing slots -/

/-- Goes on with instructions that release slots. -/
def emitReleases (f : Fragment) : List UInt8 → Fragment
  | [] => f
  | n :: ns => emitReleases (f.emit (.shrinkLocals n)) ns

/-- Slots are released in portions. -/
theorem exists_releaseSlots (f : Fragment) (count : Nat) :
    ∃ ns : List UInt8, (ns.map UInt8.toNat).sum = count ∧
      releaseSlots f count = emitReleases f ns := by
  induction count using Nat.strongRecOn generalizing f with
  | ind count ih =>
    rw [releaseSlots]
    split
    · next h => exact ⟨[], h.symm, rfl⟩
    · obtain ⟨ns, hsum, hns⟩ := ih (count - min count 255) (by omega)
        (f.emit (.shrinkLocals (UInt8.ofNat (min count 255))))
      refine ⟨UInt8.ofNat (min count 255) :: ns, ?_, hns⟩
      rw [List.map_cons, List.sum_cons, hsum, UInt8.toNat_ofNat']
      omega

/-- What every instruction keeps, releasing slots does. -/
theorem releaseSlots_keeps {P : Fragment → Prop} (hemit : ∀ f i, P f → P (f.emit i)) {f : Fragment}
    (hf : P f) (count : Nat) : P (releaseSlots f count) := by
  obtain ⟨ns, -, h⟩ := exists_releaseSlots f count
  rw [h]
  clear h
  induction ns generalizing f with
  | nil => exact hf
  | cons n ns ih => exact ih (hemit f _ hf)

theorem size_emitReleases (f : Fragment) (ns : List UInt8) :
    (emitReleases f ns).size = f.size + 2 * ns.length := by
  induction ns generalizing f with
  | nil => rfl
  | cons n ns ih =>
    have hwidth : (Instruction.shrinkLocals n).width = 2 := rfl
    rw [emitReleases, ih, Fragment.size_emit, List.length_cons, hwidth]
    omega

theorem emitReleases_tidy (hf : f.Tidy) (ns : List UInt8) : (emitReleases f ns).Tidy := by
  induction ns generalizing f with
  | nil => exact hf
  | cons n ns ih => exact ih (hf.emit _)

theorem releaseSlots_tidy (hf : f.Tidy) (count : Nat) : (releaseSlots f count).Tidy := by
  obtain ⟨ns, -, h⟩ := exists_releaseSlots f count
  rw [h]
  exact emitReleases_tidy hf ns

/-- Instructions that release slots stand in a code. -/
def ReleasesAt (code : Array UInt8) : List UInt8 → Nat → Prop
  | [], _ => True
  | n :: ns, pc =>
    Instruction.decode code pc = .instruction (.shrinkLocals n) ∧ ReleasesAt code ns (pc + 2)

theorem placed_emitReleases {ns : List UInt8} (hf : f.Tidy) (h : (emitReleases f ns).Placed code base loop) :
    f.Placed code base loop ∧ ReleasesAt code ns (base + f.size) := by
  induction ns generalizing f with
  | nil => exact ⟨h, trivial⟩
  | cons n ns ih =>
    obtain ⟨he, hns⟩ := ih (hf.emit _) h
    obtain ⟨hp, hi⟩ := he.emit hf
    refine ⟨hp, hi, ?_⟩
    rw [Fragment.size_emit, ← Nat.add_assoc] at hns
    exact hns

theorem placed_releaseSlots {count : Nat} (hf : f.Tidy) (h : (releaseSlots f count).Placed code base loop) :
    f.Placed code base loop ∧ ∃ ns, (ns.map UInt8.toNat).sum = count ∧
      ReleasesAt code ns (base + f.size) ∧
      (releaseSlots f count).size = f.size + 2 * ns.length := by
  obtain ⟨ns, hsum, he⟩ := exists_releaseSlots f count
  rw [he] at h ⊢
  obtain ⟨hp, hns⟩ := placed_emitReleases hf h
  exact ⟨hp, ns, hsum, hns, size_emitReleases f ns⟩

/-! ## Branchings and loops -/

/-- The arms of a branching stand in a code, one behind the other; what is behind them is at
`stop`. -/
def ArmsAt (code : Array UInt8) (loop : LoopAddresses) (stop : Nat) (hasElse : Bool) :
    List Guarded → Nat → Prop
  | [], _ => True
  | arm :: rest, pc =>
    let exits := !rest.isEmpty || hasElse
    let body := pc + arm.condition.size + jumpWidth
    arm.condition.Placed code pc loop ∧
    Instruction.decode code (pc + arm.condition.size) =
      .instruction (.jumpIfFalse (UInt32.ofNat (pc + arm.size exits))) ∧
    arm.body.Placed code body loop ∧
    (exits = true → Instruction.decode code (body + arm.body.size) =
      .instruction (.jump (UInt32.ofNat stop))) ∧
    ArmsAt code loop stop hasElse rest (pc + arm.size exits)

theorem size_layoutArms (stop : Nat) (hasElse : Bool) (out : Fragment) (gs : List Guarded) :
    (layoutArms stop hasElse out gs).size = out.size + armsSize hasElse gs := by
  induction gs generalizing out with
  | nil => rfl
  | cons arm rest ih =>
    rw [layoutArms, ih, armsSize]
    cases hx : !rest.isEmpty || hasElse with
    | true => simp [Guarded.size]; omega
    | false => simp [Guarded.size]; omega

/-- One arm: a condition, a jump behind the arm, a body, and a jump to `stop` if something follows. -/
def layoutArm (stop : Nat) (exits : Bool) (out : Fragment) (arm : Guarded) : Fragment :=
  let guarded := (out ++ arm.condition).emitJump .ifFalse (.offset (out.size + arm.size exits)) ++
    arm.body
  if exits then guarded.emitJump .always (.offset stop) else guarded

theorem layoutArms_cons (stop : Nat) (hasElse : Bool) (out : Fragment) (arm : Guarded)
    (rest : List Guarded) : layoutArms stop hasElse out (arm :: rest) =
      layoutArms stop hasElse (layoutArm stop (!rest.isEmpty || hasElse) out arm) rest := rfl

theorem size_layoutArm (stop : Nat) (exits : Bool) (out : Fragment) (arm : Guarded) :
    (layoutArm stop exits out arm).size = out.size + arm.size exits := by
  unfold layoutArm Guarded.size
  cases exits with
  | true => simp; omega
  | false => simp; omega

section arm

variable {out : Fragment} {arm : Guarded} (hout : out.Tidy) (hcond : arm.condition.Tidy)
  (hbody : arm.body.Tidy)
include hout hcond hbody

theorem layoutArm_tidy (stop : Nat) (exits : Bool) : (layoutArm stop exits out arm).Tidy := by
  have hguarded := ((hout.append hcond).emitJump .ifFalse
    (.offset (out.size + arm.size exits))).append hbody
  unfold layoutArm
  cases exits with
  | true => exact hguarded.emitJump _ _
  | false => exact hguarded

theorem placed_layoutArm {stop : Nat} {exits : Bool}
    (h : (layoutArm stop exits out arm).Placed code base loop) :
    let pc := base + out.size
    let body := pc + arm.condition.size + jumpWidth
    out.Placed code base loop ∧ arm.condition.Placed code pc loop ∧
    Instruction.decode code (pc + arm.condition.size) =
      .instruction (.jumpIfFalse (UInt32.ofNat (pc + arm.size exits))) ∧
    arm.body.Placed code body loop ∧
    (exits = true → Instruction.decode code (body + arm.body.size) =
      .instruction (.jump (UInt32.ofNat (base + stop)))) := by
  intro pc body
  have hpair := hout.append hcond
  have hjump := hpair.emitJump .ifFalse (.offset (out.size + arm.size exits))
  have hguarded := hjump.append hbody
  -- The guarded code stands at the base, with or without the jump behind it.
  obtain ⟨hg, hexit⟩ : ((out ++ arm.condition).emitJump .ifFalse
      (.offset (out.size + arm.size exits)) ++ arm.body).Placed code base loop ∧
      (exits = true → Instruction.decode code (body + arm.body.size) =
        .instruction (.jump (UInt32.ofNat (base + stop)))) := by
    unfold layoutArm at h
    cases exits with
    | false => exact ⟨h, fun hx => by cases hx⟩
    | true =>
      obtain ⟨hg, hj⟩ := h.emitJump hguarded
      refine ⟨hg, fun _ => ?_⟩
      rw [Fragment.size_append, Fragment.size_emitJump, Fragment.size_append] at hj
      simp only [body, pc, Nat.add_assoc] at hj ⊢
      exact hj
  obtain ⟨hj, hb⟩ := hg.append hjump
  obtain ⟨hp, hi⟩ := hj.emitJump hpair
  obtain ⟨ho, hc⟩ := hp.append hout
  rw [Fragment.size_emitJump, Fragment.size_append] at hb
  rw [Fragment.size_append] at hi
  simp only [body, pc, Nat.add_assoc] at hi hb ⊢
  exact ⟨ho, hc, hi, hb, by simpa only [body, pc, Nat.add_assoc] using hexit⟩

end arm

theorem placed_layoutArms {stop : Nat} {hasElse : Bool} {out : Fragment} {gs : List Guarded}
    (hout : out.Tidy) (hgs : ∀ g ∈ gs, g.condition.Tidy ∧ g.body.Tidy)
    (h : (layoutArms stop hasElse out gs).Placed code base loop) :
    out.Placed code base loop ∧ ArmsAt code loop (base + stop) hasElse gs (base + out.size) := by
  induction gs generalizing out with
  | nil => exact ⟨h, trivial⟩
  | cons arm rest ih =>
    obtain ⟨hcond, hbody⟩ := hgs arm List.mem_cons_self
    rw [layoutArms_cons] at h
    obtain ⟨harm, hrest⟩ := ih (layoutArm_tidy hout hcond hbody _ _)
      (fun g hg => hgs g (List.mem_cons_of_mem _ hg)) h
    obtain ⟨ho, hc, hi, hb, hx⟩ := placed_layoutArm hout hcond hbody harm
    rw [size_layoutArm, ← Nat.add_assoc] at hrest
    exact ⟨ho, hc, hi, hb, hx, hrest⟩

theorem layoutArms_tidy {stop : Nat} {hasElse : Bool} {out : Fragment} {gs : List Guarded}
    (hout : out.Tidy) (hgs : ∀ g ∈ gs, g.condition.Tidy ∧ g.body.Tidy) :
    (layoutArms stop hasElse out gs).Tidy := by
  induction gs generalizing out with
  | nil => exact hout
  | cons arm rest ih =>
    obtain ⟨hcond, hbody⟩ := hgs arm List.mem_cons_self
    rw [layoutArms_cons]
    exact ih (layoutArm_tidy hout hcond hbody _ _) fun g hg => hgs g (List.mem_cons_of_mem _ hg)

section branch

variable {gs : List Guarded} (hgs : ∀ g ∈ gs, g.condition.Tidy ∧ g.body.Tidy)
include hgs

theorem placed_layoutBranch (h : (layoutBranch gs none).Placed code base loop) :
    ArmsAt code loop (base + armsSize false gs) false gs base :=
  (placed_layoutArms Fragment.tidy_empty hgs h).2

theorem placed_layoutBranch_some {body : Fragment}
    (h : (layoutBranch gs (some body)).Placed code base loop) :
    ArmsAt code loop (base + (armsSize true gs + body.size)) true gs base ∧
      body.Placed code (base + armsSize true gs) loop := by
  obtain ⟨ha, hb⟩ := h.append (layoutArms_tidy Fragment.tidy_empty hgs)
  rw [size_layoutArms, Fragment.size_empty, Nat.zero_add] at hb
  exact ⟨(placed_layoutArms Fragment.tidy_empty hgs ha).2, hb⟩

theorem layoutBranch_tidy {otherwise : Option Fragment} (ho : ∀ b ∈ otherwise, b.Tidy) :
    (layoutBranch gs otherwise).Tidy := by
  cases otherwise with
  | none => exact layoutArms_tidy Fragment.tidy_empty hgs
  | some body => exact (layoutArms_tidy Fragment.tidy_empty hgs).append (ho body rfl)

end branch

theorem size_layoutBranch (gs : List Guarded) :
    (layoutBranch gs none).size = armsSize false gs := by
  rw [layoutBranch, size_layoutArms, Fragment.size_empty, Nat.zero_add]

theorem size_layoutBranch_some (gs : List Guarded) (body : Fragment) :
    (layoutBranch gs (some body)).size = armsSize true gs + body.size := by
  rw [layoutBranch, Fragment.size_append, size_layoutArms, Fragment.size_empty, Nat.zero_add]

theorem size_layoutLoop (g : Guarded) : (layoutLoop g).size = g.size true := by
  unfold layoutLoop Guarded.size
  simp

theorem layoutLoop_tidy {g : Guarded} (hc : g.condition.Tidy) (hb : g.body.Tidy) :
    (layoutLoop g).Tidy :=
  (((hc.emitJump _ _).append hb).emitJump _ _).bindLoop _ _

theorem placed_layoutLoop {g : Guarded} (hc : g.condition.Tidy) (hb : g.body.Tidy)
    (h : (layoutLoop g).Placed code base loop) :
    let inner : LoopAddresses := ⟨base + g.size true, base⟩
    let body := base + g.condition.size + jumpWidth
    g.condition.Placed code base inner ∧
    Instruction.decode code (base + g.condition.size) =
      .instruction (.jumpIfFalse (UInt32.ofNat (base + g.size true))) ∧
    g.body.Placed code body inner ∧
    Instruction.decode code (body + g.body.size) = .instruction (.jump (UInt32.ofNat base)) := by
  intro inner body
  have hjump := hc.emitJump .ifFalse (.offset (g.size true))
  have hguarded := hjump.append hb
  obtain ⟨hg, hback⟩ := h.bindLoop.emitJump hguarded
  obtain ⟨hj, hbody⟩ := hg.append hjump
  obtain ⟨hcond, hi⟩ := hj.emitJump hc
  rw [Fragment.size_append, Fragment.size_emitJump, Nat.add_assoc] at hback
  rw [Fragment.size_emitJump] at hbody
  simp only [body, Nat.add_assoc]
  exact ⟨hcond, hi, hbody, hback⟩

mutual

theorem stmt_tidy {env : Env} : ∀ {s : Stmt} {sc : Scope} {f : Fragment} {next : Scope},
    stmt env sc s = .ok (f, next) → f.Tidy
  | .expression e span, _, _, _, h => by
    cases stmt_code h with
    | expression he => exact ((Fragment.tidy_empty.mark _).append (expr_tidy he)).emit _
  | .declare name e span, _, _, _, h => by
    cases stmt_code h with
    | declare he hd => exact ((Fragment.tidy_empty.mark _).append (expr_tidy he)).emit _
  | .assign target op value span, _, _, _, h => by
    cases stmt_code h with
    | assign hp hv =>
      exact ((Fragment.tidy_empty.mark _).append (expr_tidy hv)).append hp.tidy.2
    | fold hp hv =>
      exact ((((Fragment.tidy_empty.mark _).append hp.tidy.1).append (expr_tidy hv)).emitAt _ _).append
        hp.tidy.2
  | .block body span, _, _, _, h => by
    cases stmt_code h with
    | block hb =>
      exact (Fragment.tidy_empty.mark _).append (releaseSlots_tidy (stmts_tidy hb) _)
  | .branch branches none span, _, _, _, h => by
    cases stmt_code h with
    | branch ha =>
      exact (Fragment.tidy_empty.mark _).append
        (layoutBranch_tidy (arms_tidy ha) fun b hb => by cases hb)
  | .branch branches (some body) span, _, _, _, h => by
    cases stmt_code h with
    | branchElse ha hb =>
      refine (Fragment.tidy_empty.mark _).append (layoutBranch_tidy (arms_tidy ha) fun b hb' => ?_)
      cases hb'
      exact releaseSlots_tidy (stmts_tidy hb) _
  | .loop condition body span, _, _, _, h => by
    cases stmt_code h with
    | loop hc hb =>
      exact (Fragment.tidy_empty.mark _).append
        (layoutLoop_tidy (expr_tidy hc) (releaseSlots_tidy (stmts_tidy hb) _))
  | .exitLoop span, _, _, _, h => by
    cases stmt_code h with
    | exitLoop hl => exact (releaseSlots_tidy (Fragment.tidy_empty.mark _) _).emitJump _ _
  | .nextRound span, _, _, _, h => by
    cases stmt_code h with
    | nextRound hl => exact (releaseSlots_tidy (Fragment.tidy_empty.mark _) _).emitJump _ _
  | .giveBack none span, _, _, _, h => by
    cases stmt_code h with
    | giveBack => exact (Fragment.tidy_empty.mark _).emit _
  | .giveBack (some e) span, _, _, _, h => by
    cases stmt_code h with
    | giveBackValue he => exact ((Fragment.tidy_empty.mark _).append (expr_tidy he)).emit _
  | .function decl span, _, _, _, h => by cases stmt_code h
  | .type decl span, _, _, _, h => by cases stmt_code h

theorem stmts_tidy {env : Env} : ∀ {ss : List Stmt} {sc : Scope} {f : Fragment} {last : Scope},
    stmts env sc ss = .ok (f, last) → f.Tidy
  | [], _, _, _, h => by
    rw [stmts] at h
    cases h
    exact Fragment.tidy_empty
  | s :: ss, _, _, _, h => by
    obtain ⟨fs, next, fss, hs, hss, rfl⟩ := stmts_cons h
    exact (stmt_tidy hs).append (stmts_tidy hss)

theorem arms_tidy {env : Env} : ∀ {as : List (Arm Stmt)} {sc : Scope} {gs : List Guarded},
    arms env sc as = .ok gs → ∀ g ∈ gs, g.condition.Tidy ∧ g.body.Tidy
  | [], _, _, h => by
    rw [arms] at h
    cases h
    exact fun g hg => by cases hg
  | ⟨condition, body, span⟩ :: rest, _, _, h => by
    obtain ⟨fc, fb, inner, more, hc, hb, hm, rfl⟩ := arms_cons h
    intro g hg
    rcases List.mem_cons.1 hg with rfl | hg
    · exact ⟨expr_tidy hc, releaseSlots_tidy (stmts_tidy hb) _⟩
    · exact arms_tidy hm g hg

end

end Scriptlet.Compile
