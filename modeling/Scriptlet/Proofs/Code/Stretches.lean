import Scriptlet.Proofs.Code.Image
import Scriptlet.Proofs.Code.Scopes

/-!
# Stretches of whole instructions

`Reads`: a range of code consists of whole instructions, one behind the other. A `Stretch` is such a
range whose jumps go to the start of one of its instructions or to an exit, and whose instructions use
numbers of functions and types that there are. Neighbouring stretches are joined (`Stretch.join`), so
the code of an expression is one (`expr_stretch`), and so is that of a statement, its exits being what
is behind it and what leaves or repeats the loop around it (`stmt_stretch`).
-/

namespace Scriptlet

/-! ## Whole instructions -/

/-- A range of code consists of instructions at some offsets. -/
inductive Reads (code : Array UInt8) : Nat → Nat → List (Nat × Instruction) → Prop
  | nil (pc : Nat) : Reads code pc pc []
  | cons {pc stop : Nat} {i : Instruction} {is : List (Nat × Instruction)}
    (h : Instruction.decode code pc = .instruction i) (rest : Reads code (pc + i.width) stop is) :
    Reads code pc stop ((pc, i) :: is)

namespace Reads

variable {code : Array UInt8} {lo mid hi : Nat} {is js : List (Nat × Instruction)}

theorem single {i : Instruction} (h : Instruction.decode code lo = .instruction i) :
    Reads code lo (lo + i.width) [(lo, i)] :=
  .cons h (.nil _)

theorem append (h₁ : Reads code lo mid is) (h₂ : Reads code mid hi js) :
    Reads code lo hi (is ++ js) := by
  induction h₁ with
  | nil => exact h₂
  | cons h _ ih => exact .cons h (ih h₂)

theorem le (h : Reads code lo hi is) : lo ≤ hi := by
  induction h with
  | nil => exact Nat.le_refl _
  | cons => omega

/-- An instruction of a range lies inside of it as a whole, and can be read there. -/
theorem of_mem (h : Reads code lo hi is) {q : Nat} {i : Instruction} (hq : (q, i) ∈ is) :
    lo ≤ q ∧ q + i.width ≤ hi ∧ Instruction.decode code q = .instruction i := by
  induction h with
  | nil => cases hq
  | cons h rest ih =>
    rcases List.mem_cons.1 hq with hq | hq
    · cases hq
      exact ⟨Nat.le_refl _, rest.le, h⟩
    · obtain ⟨hlo, hhi, hd⟩ := ih hq
      exact ⟨by omega, hhi, hd⟩

/-- Behind an instruction of a range another one starts, or the range ends. -/
theorem of_mem_next (h : Reads code lo hi is) {q : Nat} {i : Instruction} (hq : (q, i) ∈ is) :
    q + i.width = hi ∨ ∃ j, (q + i.width, j) ∈ is := by
  induction h with
  | nil => cases hq
  | cons h rest ih =>
    rcases List.mem_cons.1 hq with hq | hq
    · cases hq
      cases rest with
      | nil => exact .inl rfl
      | cons => exact .inr ⟨_, List.mem_cons_of_mem _ List.mem_cons_self⟩
    · exact (ih hq).imp id fun ⟨j, hj⟩ => ⟨j, List.mem_cons_of_mem _ hj⟩

/-- A range that is not empty starts with an instruction. -/
theorem exists_mem_start (h : Reads code lo hi is) (hlt : lo < hi) : ∃ i, (lo, i) ∈ is := by
  cases h with
  | nil => exact absurd hlt (Nat.lt_irrefl _)
  | cons => exact ⟨_, List.mem_cons_self⟩

/-- What is read in a range is determined. -/
theorem unique (h₁ : Reads code lo hi is) (h₂ : Reads code lo hi js) : is = js := by
  induction h₁ generalizing js with
  | nil =>
    cases h₂ with
    | nil => rfl
    | @cons _ _ i _ _ rest =>
      have := i.width_pos
      have := rest.le
      omega
  | @cons _ _ i _ h rest ih =>
    cases h₂ with
    | nil =>
      have := i.width_pos
      have := rest.le
      omega
    | cons h' rest' =>
      rw [h] at h'
      cases h'
      rw [ih rest']

theorem decodeFrom_eq (h : Reads code lo hi is) (hhi : hi = code.size) :
    Instruction.decodeFrom code lo = is := by
  induction h with
  | nil =>
    rw [Instruction.decodeFrom, if_neg (by omega)]
  | @cons pc stop i is h rest ih =>
    have hwidth := i.width_pos
    have hle := rest.le
    rw [Instruction.decodeFrom, if_pos (by omega), h]
    simp only [ih hhi]

end Reads

/-! ## Jumps and numbers -/

/-- The operands of an instruction are in order: it jumps where jumps may go, and the functions and
types that it names are there. -/
def Instruction.Sound (b : Bytecode) (J : Nat → Prop) : Instruction → Prop
  | .jump t => J t.toNat
  | .jumpIfFalse t => J t.toNat
  | .pushFunction id => id.toNat < b.functions.size
  | .callFunction id => id.toNat < b.functions.size
  | .construct type args =>
    ∃ entry, b.struct? type = some entry ∧ args.toNat ≤ entry.fields.length
  | _ => True

theorem Instruction.Sound.mono {b : Bytecode} {J L : Nat → Prop} {i : Instruction} (h : i.Sound b J)
    (hJ : ∀ t, J t → L t) : i.Sound b L := by
  cases i with
  | jump t => exact hJ _ h
  | jumpIfFalse t => exact hJ _ h
  | _ => exact h

/-- Where jumps of some instructions may go: to one of them, or to an exit. -/
def Targets (is : List (Nat × Instruction)) (X : Nat → Prop) (t : Nat) : Prop :=
  (∃ i, (t, i) ∈ is) ∨ X t

/-- A range of whole instructions that jump to each other or to exits. -/
def Stretch (b : Bytecode) (lo hi : Nat) (X : Nat → Prop) : Prop :=
  ∃ is, Reads b.code lo hi is ∧ ∀ x ∈ is, x.2.Sound b (Targets is X)

namespace Stretch

variable {b : Bytecode} {lo mid hi : Nat} {X X₁ X₂ : Nat → Prop}

theorem nil : Stretch b lo lo X := ⟨[], .nil lo, fun x hx => by cases hx⟩

theorem single {i : Instruction} (hd : Instruction.decode b.code lo = .instruction i)
    (hi : i.Sound b X) : Stretch b lo (lo + i.width) X := by
  refine ⟨[(lo, i)], .single hd, fun x hx => ?_⟩
  cases List.mem_singleton.1 hx
  exact hi.mono fun t ht => .inr ht

theorem mono (h : Stretch b lo hi X₁) (hX : ∀ t, X₁ t → X t) : Stretch b lo hi X := by
  obtain ⟨is, hr, hs⟩ := h
  exact ⟨is, hr, fun x hx => (hs x hx).mono fun t ht => ht.imp id (hX t)⟩

/-- Neighbouring stretches make one. What is an exit of one of them may be the start of one of them,
as long as that is the start of an instruction or an exit of both. -/
theorem join (h₁ : Stretch b lo mid X₁) (h₂ : Stretch b mid hi X₂)
    (hX : ∀ t, X₁ t ∨ X₂ t → (t = lo ∨ t = mid) ∧ (mid < hi ∨ X hi) ∨ X t) : Stretch b lo hi X := by
  obtain ⟨is, his, hs⟩ := h₁
  obtain ⟨js, hjs, hs'⟩ := h₂
  have hle := his.le
  have hstart : ∀ t, (t = lo ∨ t = mid) → (mid < hi ∨ X hi) → Targets (is ++ js) X t := by
    rintro t (rfl | rfl) hstop
    · obtain hlt | hge := Nat.lt_or_ge t hi
      · exact .inl ((his.append hjs).exists_mem_start hlt)
      · have := hjs.le
        obtain rfl : t = hi := by omega
        exact .inr (hstop.resolve_left (by omega))
    · obtain hlt | hge := Nat.lt_or_ge t hi
      · obtain ⟨i, hi⟩ := hjs.exists_mem_start hlt
        exact .inl ⟨i, List.mem_append_right _ hi⟩
      · obtain rfl : t = hi := Nat.le_antisymm hjs.le hge
        exact .inr (hstop.resolve_left (Nat.lt_irrefl _))
  have hexit : ∀ t, X₁ t ∨ X₂ t → Targets (is ++ js) X t := fun t ht =>
    (hX t ht).elim (fun h => hstart t h.1 h.2) .inr
  refine ⟨is ++ js, his.append hjs, fun x hx => ?_⟩
  rcases List.mem_append.1 hx with hx | hx
  · refine (hs x hx).mono fun t ht => ht.elim (fun ⟨i, hi⟩ => .inl ⟨i, List.mem_append_left _ hi⟩) ?_
    exact fun ht => hexit t (.inl ht)
  · refine (hs' x hx).mono fun t ht => ht.elim (fun ⟨i, hi⟩ => .inl ⟨i, List.mem_append_right _ hi⟩) ?_
    exact fun ht => hexit t (.inr ht)

theorem append (h₁ : Stretch b lo mid X) (h₂ : Stretch b mid hi X) : Stretch b lo hi X :=
  h₁.join h₂ fun _ ht => .inr (ht.elim id id)

/-- Code that goes back to its start. -/
theorem cycle (h : Stretch b lo hi fun t => t = lo ∨ X t) (hhi : X hi) : Stretch b lo hi X :=
  (nil : Stretch b lo lo X).join h fun _ ht => ht.elim .inr fun ht =>
    ht.imp (fun h => ⟨.inl h, .inr hhi⟩) id

/-- Code that goes on behind it with the code that stands there. -/
theorem seq (h₁ : Stretch b lo mid fun t => t = mid ∨ X t) (h₂ : Stretch b mid hi X)
    (hhi : mid < hi ∨ X hi) : Stretch b lo hi X :=
  h₁.join h₂ fun _ ht => ht.elim (fun ht => ht.imp (fun h => ⟨.inr h, hhi⟩) id) .inr

variable {f : Fragment} {base : Nat}

theorem emit {i : Instruction} (h : Stretch b base (base + f.size) X)
    (hd : Instruction.decode b.code (base + f.size) = .instruction i) (hi : i.Sound b X) :
    Stretch b base (base + (f.emit i).size) X := by
  rw [Fragment.size_emit, ← Nat.add_assoc]
  exact h.append (single hd hi)

theorem emitAt {i : Instruction} {span : Span} (h : Stretch b base (base + f.size) X)
    (hd : Instruction.decode b.code (base + f.size) = .instruction i) (hi : i.Sound b X) :
    Stretch b base (base + (f.emitAt i span).size) X := by
  rw [Fragment.size_emitAt, ← Nat.add_assoc]
  exact h.append (single hd hi)

theorem appended {g : Fragment} (hf : Stretch b base (base + f.size) X)
    (hg : Stretch b (base + f.size) (base + f.size + g.size) X) :
    Stretch b base (base + (f ++ g).size) X := by
  rw [Fragment.size_append, ← Nat.add_assoc]
  exact hf.append hg

end Stretch

namespace Compile

open Fragment (Guarded jumpWidth)

variable {env : Env} {b : Bytecode} {sc : Scope} {f : Fragment} {base : Nat} {loop : LoopAddresses}
  {X : Nat → Prop}

/-! ## Expressions -/

theorem Linked.lt_functions (hb : Linked env b) {name : Symbol} {id : UInt32} {e : FunctionEntry}
    (h : env.prototypes.function? name = some (id, e)) : id.toNat < b.functions.size := by
  obtain ⟨g, hg, -⟩ := hb.function name id e h
  exact (Array.getElem?_eq_some_iff.1 hg).1

theorem sound_pushLiteral (v : Literal Symbol) : (pushLiteral v).Sound b X := by
  cases v with
  | bool v => cases v <;> trivial
  | _ => trivial

/-- The code of a single instruction. -/
theorem stretch_one {i : Instruction} (hp : (Fragment.empty.emit i).Placed b.code base loop)
    (hi : i.Sound b X) : Stretch b base (base + (Fragment.empty.emit i).size) X :=
  Stretch.nil.emit (hp.emit Fragment.tidy_empty).2 hi

theorem readName_stretch (hb : Linked env b) {name : Symbol} {span : Span}
    (hp : (readName env sc name span).Placed b.code base loop) :
    Stretch b base (base + (readName env sc name span).size) X := by
  unfold readName at hp ⊢
  cases hslot : sc.slot? name with
  | some slot =>
    simp only [hslot] at hp ⊢
    exact stretch_one hp trivial
  | none =>
    simp only [hslot] at hp ⊢
    cases hf : env.prototypes.function? name with
    | some r =>
      simp only [hf] at hp ⊢
      exact stretch_one hp (hb.lt_functions hf)
    | none =>
      simp only [hf] at hp ⊢
      obtain ⟨hname, hget⟩ := hp.emitAt (Fragment.tidy_empty.emit _)
      exact (stretch_one hname trivial).emitAt hget trivial

mutual

/-- The code of an expression is a stretch without exits. -/
theorem expr_stretch {env : Env} {b : Bytecode} (hb : Linked env b) {sc : Scope}
    {loop : LoopAddresses} {X : Nat → Prop} : ∀ {e : Expr} {f : Fragment} {base : Nat},
    expr env sc e = .ok f → f.Placed b.code base loop → Stretch b base (base + f.size) X
  | .literal v _, _, _, he, hp => by
    rw [expr] at he
    cases he
    exact stretch_one hp (sound_pushLiteral v)
  | .name name span, _, _, he, hp => by
    rw [expr] at he
    cases he
    exact readName_stretch hb hp
  | .binary op l r _, _, _, he, hp => by
    obtain ⟨fl, fr, hl, hr, rfl⟩ := expr_binary he
    obtain ⟨hp, hd⟩ := hp.emitAt ((expr_tidy hl).append (expr_tidy hr))
    obtain ⟨hpl, hpr⟩ := hp.append (expr_tidy hl)
    exact ((expr_stretch hb hl hpl).appended (expr_stretch hb hr hpr)).emitAt hd trivial
  | .unary op e _, _, _, he, hp => by
    obtain ⟨v, -, rfl⟩ | ⟨-, fe, ho, rfl⟩ := expr_unary he
    · exact stretch_one hp (sound_pushLiteral v)
    · obtain ⟨hp, hd⟩ := hp.emitAt (expr_tidy ho)
      exact (expr_stretch hb ho hp).emitAt hd trivial
  | .array items _, _, _, he, hp => by
    obtain ⟨fs, hfs, rfl⟩ := expr_array he
    obtain ⟨hp, hd⟩ := hp.emit (exprs_tidy hfs)
    exact (exprs_stretch hb hfs hp).emit hd trivial
  | .index o i _, _, _, he, hp => by
    obtain ⟨fo, fi, ho, hi, rfl⟩ := expr_index he
    obtain ⟨hp, hd⟩ := hp.emitAt ((expr_tidy ho).append (expr_tidy hi))
    obtain ⟨hpo, hpi⟩ := hp.append (expr_tidy ho)
    exact ((expr_stretch hb ho hpo).appended (expr_stretch hb hi hpi)).emitAt hd trivial
  | .field o name _, _, _, he, hp => by
    obtain ⟨fo, ho, rfl⟩ := expr_field he
    obtain ⟨hp, hd⟩ := hp.emitAt (expr_tidy ho)
    exact (expr_stretch hb ho hp).emitAt hd trivial
  | .call callee args _, _, _, he, hp => by
    obtain ⟨name, id, fs, hdirect, hfs, rfl⟩ | ⟨-, count, fs, fc, -, hfs, hc, rfl⟩ := expr_call he
    · obtain ⟨hp, hd⟩ := hp.emitAt (exprs_tidy hfs)
      obtain ⟨g, hg, -⟩ := hb.directCallee hdirect
      exact (exprs_stretch hb hfs hp).emitAt hd (Array.getElem?_eq_some_iff.1 hg).1
    · obtain ⟨hp, hd⟩ := hp.emitAt ((exprs_tidy hfs).append (expr_tidy hc))
      obtain ⟨hpa, hpc⟩ := hp.append (exprs_tidy hfs)
      exact ((exprs_stretch hb hfs hpa).appended (expr_stretch hb hc hpc)).emitAt hd trivial
  | .methodCall o name args _, _, _, he, hp => by
    obtain ⟨count, fo, fs, -, ho, hfs, rfl⟩ := expr_methodCall he
    obtain ⟨hp, hd⟩ := hp.emitAt ((expr_tidy ho).append (exprs_tidy hfs))
    obtain ⟨hpo, hpa⟩ := hp.append (expr_tidy ho)
    exact ((expr_stretch hb ho hpo).appended (exprs_stretch hb hfs hpa)).emitAt hd trivial
  | .construct type args _, _, _, he, hp => by
    obtain ⟨id, entry, count, fs, hstruct, hfields, hcount, hfs, rfl⟩ := expr_construct he
    obtain ⟨hp, hd⟩ := hp.emitAt (exprs_tidy hfs)
    refine (exprs_stretch hb hfs hp).emitAt hd ⟨entry, hb.struct type id entry hstruct, ?_⟩
    rw [(of_checkCount hcount).2]
    exact hfields

theorem exprs_stretch {env : Env} {b : Bytecode} (hb : Linked env b) {sc : Scope}
    {loop : LoopAddresses} {X : Nat → Prop} : ∀ {es : List Expr} {f : Fragment} {base : Nat},
    exprs env sc es = .ok f → f.Placed b.code base loop → Stretch b base (base + f.size) X
  | [], _, _, he, _ => by
    rw [exprs] at he
    cases he
    exact .nil
  | e :: es, _, _, he, hp => by
    obtain ⟨fe, fs, hfe, hfs, rfl⟩ := exprs_cons he
    obtain ⟨hpe, hps⟩ := hp.append (expr_tidy hfe)
    exact (expr_stretch hb hfe hpe).appended (exprs_stretch hb hfs hps)

end

/-! ## Statements -/

theorem PlaceCode.stretches {target : Expr} {p : Place} (hb : Linked env b)
    (h : PlaceCode env sc target p) :
    (p.load.Placed b.code base loop → Stretch b base (base + p.load.size) X) ∧
    (p.store.Placed b.code base loop → Stretch b base (base + p.store.size) X) := by
  cases h with
  | slot hslot => exact ⟨fun hp => stretch_one hp trivial, fun hp => stretch_one hp trivial⟩
  | global hslot =>
    refine ⟨fun hp => ?_, fun hp => ?_⟩
    · obtain ⟨hname, hget⟩ := hp.emitAt (Fragment.tidy_empty.emit _)
      exact (stretch_one hname trivial).emitAt hget trivial
    · obtain ⟨hname, hset⟩ := hp.emit (Fragment.tidy_empty.emit _)
      exact (stretch_one hname trivial).emit hset trivial
  | element ho hi =>
    have htidy := (expr_tidy ho).append (expr_tidy hi)
    refine ⟨fun hp => ?_, fun hp => ?_⟩ <;>
    · obtain ⟨hpp, hd⟩ := hp.emitAt htidy
      obtain ⟨hpo, hpi⟩ := hpp.append (expr_tidy ho)
      exact ((expr_stretch hb ho hpo).appended (expr_stretch hb hi hpi)).emitAt hd trivial
  | field ho =>
    refine ⟨fun hp => ?_, fun hp => ?_⟩ <;>
    · obtain ⟨hpo, hd⟩ := hp.emitAt (expr_tidy ho)
      exact (expr_stretch hb ho hpo).emitAt hd trivial

/-- An expression at the start of a statement. -/
theorem marked_stretch (hb : Linked env b) {e : Expr} {fe : Fragment} {span : Span}
    (he : expr env sc e = .ok fe) (hp : (Fragment.empty.mark span ++ fe).Placed b.code base loop) :
    Stretch b base (base + (Fragment.empty.mark span ++ fe).size) X := by
  rw [size_mark_append]
  exact expr_stretch hb he (placed_mark_append hp)

theorem releases_stretch {ns : List UInt8} {pc : Nat} (h : ReleasesAt b.code ns pc) :
    Stretch b pc (pc + 2 * ns.length) X := by
  induction ns generalizing pc with
  | nil => exact .nil
  | cons n ns ih =>
    obtain ⟨hd, hns⟩ := h
    have hrest := ih hns
    rw [Nat.add_assoc pc 2, show 2 + 2 * ns.length = 2 * (n :: ns).length by
      rw [List.length_cons]; omega] at hrest
    exact (Stretch.single hd trivial).append hrest

theorem jump_stretch (hb : Linked env b) (kind : JumpKind) {t : Nat}
    (hd : Instruction.decode b.code base = .instruction (kind.jump (UInt32.ofNat t)))
    (ht : t ≤ b.size) (hX : X t) : Stretch b base (base + jumpWidth) X := by
  rw [← kind.width_jump (UInt32.ofNat t)]
  refine .single hd ?_
  rw [← hb.toNat_address ht] at hX
  cases kind <;> exact hX

/-- A block goes on with the release of its slots. -/
theorem closeBlock_stretch {fb : Fragment} {inner : Scope} (hf : fb.Tidy)
    (hp : (releaseSlots fb inner.leave.1).Placed b.code base loop)
    (h : fb.Placed b.code base loop → Stretch b base (base + fb.size) fun t => t = base + fb.size ∨ X t)
    (hX : X (base + (releaseSlots fb inner.leave.1).size)) :
    Stretch b base (base + (releaseSlots fb inner.leave.1).size) X := by
  obtain ⟨hpb, ns, -, hns, hsize⟩ := placed_releaseSlots hf hp
  rw [hsize, ← Nat.add_assoc] at hX ⊢
  exact (h hpb).seq (releases_stretch hns) (.inr hX)

/-- Statements that leave or repeat a loop. -/
theorem loopJump_stretch (hb : Linked env b) {span : Span} {count : Nat} {target : JumpTarget}
    (hp : ((releaseSlots (Fragment.empty.mark span) count).emitJump .always target).Placed b.code base
      loop) (ht : target.address base loop ≤ b.size) (hX : X (target.address base loop)) :
    Stretch b base
      (base + ((releaseSlots (Fragment.empty.mark span) count).emitJump .always target).size) X := by
  have htidy := Fragment.tidy_empty.mark span
  obtain ⟨hpr, hd⟩ := hp.emitJump (releaseSlots_tidy htidy count)
  obtain ⟨-, ns, -, hns, hsize⟩ := placed_releaseSlots htidy hpr
  rw [Fragment.size_mark, Fragment.size_empty] at hns hsize
  rw [hsize, Nat.zero_add] at hd
  rw [Fragment.size_emitJump, hsize, Nat.zero_add, ← Nat.add_assoc]
  exact (releases_stretch hns).append (jump_stretch hb .always hd ht hX)

/-- Where statements may go on: behind them, and in a loop also where it is left or repeated. -/
structure Exit (X : Nat → Prop) (sc : Scope) (stop : Nat) (loop : LoopAddresses) : Prop where
  behind : X stop
  looping : sc.outerSlots?.isSome → X loop.exit ∧ X loop.start

theorem outerSlots?_isSome_of_loopSlots? {count : Nat} (h : sc.loopSlots? = some count) :
    sc.outerSlots?.isSome := by
  rw [Scope.outerSlots?, h]
  rfl

/-- The exits of a block are those around it, and its end. -/
theorem Exit.enter_plain {stop next : Nat} (h : Exit X sc stop loop) :
    Exit (fun t => t = next ∨ X t) (sc.enter .plain) next loop where
  behind := .inl rfl
  looping hl := by
    rw [Scope.outerSlots?_enter_plain] at hl
    exact (h.looping hl).imp .inr .inr

/-- A condition, a jump behind what it guards, and that. -/
theorem guarded_stretch (hb : Linked env b) {c : Expr} {fc : Fragment} {t hi : Nat}
    (hc : expr env sc c = .ok fc) (hp : fc.Placed b.code base loop)
    (hd : Instruction.decode b.code (base + fc.size) = .instruction (.jumpIfFalse (UInt32.ofNat t)))
    (ht : t ≤ b.size) (hX : X t) (h : Stretch b (base + fc.size + jumpWidth) hi X) :
    Stretch b base hi X :=
  ((expr_stretch hb hc hp).append (jump_stretch hb .ifFalse hd ht hX)).append h

/-- An arm goes on behind the branching, or with what follows it. -/
theorem arm_stretch (hb : Linked env b) {c : Expr} {fc body : Fragment} {exits : Bool}
    {pc stop next : Nat} (hc : expr env sc c = .ok fc)
    (hnext : next = pc + Guarded.size ⟨fc, body⟩ exits) (hpc : fc.Placed b.code pc loop)
    (hd : Instruction.decode b.code (pc + fc.size) = .instruction (.jumpIfFalse (UInt32.ofNat next)))
    (hbody : Stretch b (pc + fc.size + jumpWidth) (pc + fc.size + jumpWidth + body.size)
      fun t => t = pc + fc.size + jumpWidth + body.size ∨ X t)
    (hexit : exits = true → Instruction.decode b.code (pc + fc.size + jumpWidth + body.size) =
      .instruction (.jump (UInt32.ofNat stop)))
    (hfits : next ≤ b.size) (hstop : stop ≤ b.size) (hX : X stop) :
    Stretch b pc next fun t => t = next ∨ X t := by
  refine guarded_stretch hb hc hpc hd hfits (.inl rfl) ?_
  -- Behind the body there is a jump to the end of the branching, or nothing.
  cases exits with
  | true =>
    have hjump := jump_stretch (X := fun t => t = next ∨ X t) hb .always (hexit rfl) hstop
      (.inr hX)
    rw [show next = pc + fc.size + jumpWidth + body.size + jumpWidth by
      simp only [hnext, Guarded.size, if_true]; omega] at hjump ⊢
    exact (hbody.mono fun t ht => ht.imp id .inr).seq hjump (.inr (.inl rfl))
  | false =>
    rw [show next = pc + fc.size + jumpWidth + body.size by simp [hnext, Guarded.size]; omega]
    exact hbody

/-! ### One lemma for each kind of statement -/

/-- The code of a body is a stretch wherever it stands, with the exits of its scope. -/
def BodyStretches (b : Bytecode) (loop : LoopAddresses) (sc : Scope) (f : Fragment) : Prop :=
  ∀ {base : Nat} {X : Nat → Prop}, f.Placed b.code base loop → Exit X sc (base + f.size) loop →
    Stretch b base (base + f.size) X

/-- The code of the arms of a branching is a stretch wherever it stands, with the exits of the scope
around it and the end of the branching. -/
def ArmsStretch (b : Bytecode) (loop : LoopAddresses) (sc : Scope) (gs : List Guarded) : Prop :=
  ∀ {pc stop : Nat} {hasElse : Bool} {X : Nat → Prop}, ArmsAt b.code loop stop hasElse gs pc →
    pc + armsSize hasElse gs ≤ b.size → stop ≤ b.size → Exit X sc (pc + armsSize hasElse gs) loop →
    X stop → Stretch b pc (pc + armsSize hasElse gs) X

/-- Statements that end with an instruction that uses the value of an expression. -/
theorem consumer_stretch (hb : Linked env b) {e : Expr} {fe : Fragment} {span : Span}
    {i : Instruction} (he : expr env sc e = .ok fe)
    (hp : ((Fragment.empty.mark span ++ fe).emit i).Placed b.code base loop) (hi : i.Sound b X) :
    Stretch b base (base + ((Fragment.empty.mark span ++ fe).emit i).size) X := by
  obtain ⟨hpe, hd⟩ := hp.emit ((Fragment.tidy_empty.mark span).append (expr_tidy he))
  exact (marked_stretch hb he hpe).emit hd hi

theorem assign_stretch (hb : Linked env b) {target value : Expr} {span : Span} {p : Place}
    {fv : Fragment} (hplace : PlaceCode env sc target p) (hv : expr env sc value = .ok fv)
    (hp : ((Fragment.empty.mark span ++ fv) ++ p.store).Placed b.code base loop) :
    Stretch b base (base + ((Fragment.empty.mark span ++ fv) ++ p.store).size) X := by
  obtain ⟨hpv, hps⟩ := hp.append ((Fragment.tidy_empty.mark span).append (expr_tidy hv))
  exact (marked_stretch hb hv hpv).appended ((hplace.stretches hb).2 hps)

theorem fold_stretch (hb : Linked env b) {target value : Expr} {op : BinaryOp} {span : Span}
    {p : Place} {fv : Fragment} (hplace : PlaceCode env sc target p)
    (hv : expr env sc value = .ok fv)
    (hp : (((Fragment.empty.mark span ++ p.load) ++ fv).emitAt (.binary op) span ++ p.store).Placed
      b.code base loop) :
    Stretch b base (base +
      (((Fragment.empty.mark span ++ p.load) ++ fv).emitAt (.binary op) span ++ p.store).size) X := by
  have htidy := ((Fragment.tidy_empty.mark span).append hplace.tidy.1).append (expr_tidy hv)
  obtain ⟨hpo, hps⟩ := hp.append (htidy.emitAt (.binary op) span)
  obtain ⟨hpr, hd⟩ := hpo.emitAt htidy
  obtain ⟨hpl, hpv⟩ := hpr.append ((Fragment.tidy_empty.mark span).append hplace.tidy.1)
  have hload : Stretch b base (base + (Fragment.empty.mark span ++ p.load).size) X := by
    rw [size_mark_append]
    exact (hplace.stretches hb).1 (placed_mark_append hpl)
  exact ((hload.appended (expr_stretch hb hv hpv)).emitAt hd trivial).appended
    ((hplace.stretches hb).2 hps)

theorem block_stretch {span : Span} {fb : Fragment} {inner : Scope} (hf : fb.Tidy)
    (hp : (Fragment.empty.mark span ++ releaseSlots fb inner.leave.1).Placed b.code base loop)
    (hbody : BodyStretches b loop (sc.enter .plain) fb)
    (hX : Exit X sc (base + (Fragment.empty.mark span ++ releaseSlots fb inner.leave.1).size) loop) :
    Stretch b base (base + (Fragment.empty.mark span ++ releaseSlots fb inner.leave.1).size) X := by
  rw [size_mark_append] at hX ⊢
  exact closeBlock_stretch hf (placed_mark_append hp) (hbody · hX.enter_plain) hX.behind

theorem branch_stretch {as : List (Arm Stmt)} {span : Span} {gs : List Guarded}
    (ha : arms env sc as = .ok gs)
    (hp : (Fragment.empty.mark span ++ layoutBranch gs none).Placed b.code base loop)
    (harms : ArmsStretch b loop sc gs)
    (hX : Exit X sc (base + (Fragment.empty.mark span ++ layoutBranch gs none).size) loop) :
    Stretch b base (base + (Fragment.empty.mark span ++ layoutBranch gs none).size) X := by
  rw [size_mark_append, size_layoutBranch] at hX ⊢
  have hpb := placed_mark_append hp
  have hfits : base + (layoutBranch _ none).size ≤ b.size := hpb.fits
  rw [size_layoutBranch] at hfits
  exact harms (placed_layoutBranch (arms_tidy ha) hpb) hfits hfits hX hX.behind

/-- The arms go on with the code of `else`, if no condition held, or behind the branching. -/
theorem branchElse_stretch {as : List (Arm Stmt)} {span : Span} {gs : List Guarded} {fb : Fragment}
    {inner : Scope} (ha : arms env sc as = .ok gs) (hf : fb.Tidy)
    (hp : (Fragment.empty.mark span ++
      layoutBranch gs (some (releaseSlots fb inner.leave.1))).Placed b.code base loop)
    (harms : ArmsStretch b loop sc gs) (hbody : BodyStretches b loop (sc.enter .plain) fb)
    (hX : Exit X sc (base + (Fragment.empty.mark span ++
      layoutBranch gs (some (releaseSlots fb inner.leave.1))).size) loop) :
    Stretch b base (base + (Fragment.empty.mark span ++
      layoutBranch gs (some (releaseSlots fb inner.leave.1))).size) X := by
  rw [size_mark_append, size_layoutBranch_some] at hX ⊢
  have hpb := placed_mark_append hp
  have hfits : base + (layoutBranch gs (some _)).size ≤ b.size := hpb.fits
  rw [size_layoutBranch_some] at hfits
  obtain ⟨hpa, hpe⟩ := placed_layoutBranch_some (arms_tidy ha) hpb
  have hfirst := harms (X := fun t => t = base + armsSize true gs ∨ X t) hpa (by omega) hfits
    ⟨.inl rfl, fun hl => (hX.looping hl).imp .inr .inr⟩ (.inr hX.behind)
  have helse := closeBlock_stretch hf hpe (hbody · hX.enter_plain)
    (by rw [Nat.add_assoc]; exact hX.behind)
  rw [Nat.add_assoc] at helse
  exact hfirst.seq helse (.inr hX.behind)

/-- A loop goes back to its start, and its body may leave it, too. -/
theorem loop_stretch (hb : Linked env b) {c : Expr} {span : Span} {fc fb : Fragment} {inner : Scope}
    (hc : expr env sc c = .ok fc) (hf : fb.Tidy)
    (hp : (Fragment.empty.mark span ++ layoutLoop ⟨fc, releaseSlots fb inner.leave.1⟩).Placed
      b.code base loop)
    (hbody : ∀ {exit : Nat}, exit ≤ b.size → base ≤ b.size →
      BodyStretches b ⟨exit, base⟩ (sc.enter .loop) fb)
    (hX : X (base +
      (Fragment.empty.mark span ++ layoutLoop ⟨fc, releaseSlots fb inner.leave.1⟩).size)) :
    Stretch b base (base +
      (Fragment.empty.mark span ++ layoutLoop ⟨fc, releaseSlots fb inner.leave.1⟩).size) X := by
  rw [size_mark_append, size_layoutLoop] at hX ⊢
  have hpl := placed_mark_append hp
  have hfits : base + (layoutLoop _).size ≤ b.size := hpl.fits
  rw [size_layoutLoop] at hfits
  obtain ⟨hpc, hd, hpb, hback⟩ := placed_layoutLoop (expr_tidy hc) (releaseSlots_tidy hf _) hpl
  have hstop : base + Guarded.size ⟨fc, releaseSlots fb inner.leave.1⟩ true =
      base + fc.size + jumpWidth + (releaseSlots fb inner.leave.1).size + jumpWidth := by
    simp only [Guarded.size, if_true]
    omega
  generalize base + Guarded.size ⟨fc, releaseSlots fb inner.leave.1⟩ true = stop at *
  have hinside : Stretch b (base + fc.size + jumpWidth)
      (base + fc.size + jumpWidth + (releaseSlots fb inner.leave.1).size)
      fun t => t = base + fc.size + jumpWidth + (releaseSlots fb inner.leave.1).size ∨
        (t = base ∨ X t) :=
    closeBlock_stretch hf hpb (fun hpf => hbody hfits (by omega) hpf
      ⟨.inl rfl, fun _ => ⟨.inr (.inr (.inr hX)), .inr (.inr (.inl rfl))⟩⟩) (.inl rfl)
  have hjump := jump_stretch (X := fun t => t = base ∨ X t) hb .always hback (by omega) (.inl rfl)
  rw [← hstop] at hjump
  exact (guarded_stretch hb hc hpc hd hfits (.inr hX)
    (hinside.seq hjump (.inr (.inr hX)))).cycle hX

theorem giveBack_stretch {span : Span}
    (hp : ((Fragment.empty.mark span).emit .ret).Placed b.code base loop) :
    Stretch b base (base + ((Fragment.empty.mark span).emit .ret).size) X := by
  obtain ⟨-, hd⟩ := hp.emit (Fragment.tidy_empty.mark span)
  rw [Fragment.size_mark] at hd
  rw [Fragment.size_emit, Fragment.size_mark]
  exact .single hd trivial

mutual

/-- The code of a statement is a stretch that goes on behind it, or leaves or repeats the loop around
it. -/
theorem stmt_stretch {env : Env} {b : Bytecode} (hb : Linked env b) : ∀ {s : Stmt} {sc : Scope}
    {f : Fragment} {next : Scope} {base : Nat} {loop : LoopAddresses} {X : Nat → Prop},
    stmt env sc s = .ok (f, next) → f.Placed b.code base loop → loop.exit ≤ b.size →
    loop.start ≤ b.size → Exit X sc (base + f.size) loop → Stretch b base (base + f.size) X
  | .expression e span, _, _, _, _, _, _, h, hp, _, _, _ => by
    cases stmt_code h with
    | expression he => exact consumer_stretch hb he hp trivial
  | .declare name e span, _, _, _, _, _, _, h, hp, _, _, _ => by
    cases stmt_code h with
    | declare he hdecl => exact consumer_stretch hb he hp trivial
  | .assign target none value span, _, _, _, _, _, _, h, hp, _, _, _ => by
    cases stmt_code h with
    | assign hplace hv => exact assign_stretch hb hplace hv hp
  | .assign target (some op) value span, _, _, _, _, _, _, h, hp, _, _, _ => by
    cases stmt_code h with
    | fold hplace hv => exact fold_stretch hb hplace hv hp
  | .block body span, _, _, _, _, _, _, h, hp, hx, hy, hX => by
    cases stmt_code h with
    | block hbody =>
      exact block_stretch (stmts_tidy hbody) hp (stmts_stretch hb hbody hx hy) hX
  | .branch branches none span, _, _, _, _, _, _, h, hp, hx, hy, hX => by
    cases stmt_code h with
    | branch ha =>
      exact branch_stretch ha hp (arms_stretch hb ha hx hy) hX
  | .branch branches (some body) span, _, _, _, _, _, _, h, hp, hx, hy, hX => by
    cases stmt_code h with
    | branchElse ha hbody =>
      exact branchElse_stretch ha (stmts_tidy hbody) hp (arms_stretch hb ha hx hy)
        (stmts_stretch hb hbody hx hy) hX
  | .loop condition body span, _, _, _, _, _, _, h, hp, _, _, hX => by
    cases stmt_code h with
    | loop hc hbody =>
      exact loop_stretch hb hc (stmts_tidy hbody) hp
        (fun hx hy => stmts_stretch hb hbody hx hy) hX.behind
  | .exitLoop span, _, _, _, _, _, _, h, hp, hx, _, hX => by
    cases stmt_code h with
    | exitLoop hcount =>
      exact loopJump_stretch hb hp hx (hX.looping (outerSlots?_isSome_of_loopSlots? hcount)).1
  | .nextRound span, _, _, _, _, _, _, h, hp, _, hy, hX => by
    cases stmt_code h with
    | nextRound hcount =>
      exact loopJump_stretch hb hp hy (hX.looping (outerSlots?_isSome_of_loopSlots? hcount)).2
  | .giveBack none span, _, _, _, _, _, _, h, hp, _, _, _ => by
    cases stmt_code h with
    | giveBack => exact giveBack_stretch hp
  | .giveBack (some e) span, _, _, _, _, _, _, h, hp, _, _, _ => by
    cases stmt_code h with
    | giveBackValue he => exact consumer_stretch hb he hp trivial
  | .function decl span, _, _, _, _, _, _, h, _, _, _, _ => by cases stmt_code h
  | .type decl span, _, _, _, _, _, _, h, _, _, _, _ => by cases stmt_code h

theorem stmts_stretch {env : Env} {b : Bytecode} (hb : Linked env b) : ∀ {ss : List Stmt} {sc : Scope}
    {f : Fragment} {last : Scope} {loop : LoopAddresses}, stmts env sc ss = .ok (f, last) →
    loop.exit ≤ b.size → loop.start ≤ b.size → BodyStretches b loop sc f
  | [], _, _, _, _, h, _, _, _, _, _, _ => by
    rw [stmts] at h
    cases h
    exact .nil
  | s :: ss, _, _, _, _, h, hx, hy, _, _, hp, hX => by
    obtain ⟨fs, next, fss, hst, hss, rfl⟩ := stmts_cons h
    obtain ⟨hps, hpss⟩ := hp.append (stmt_tidy hst)
    rw [Fragment.size_append, ← Nat.add_assoc] at hX ⊢
    refine (stmt_stretch hb hst hps hx hy
      ⟨.inl rfl, fun hl => (hX.looping hl).imp .inr .inr⟩).seq
      (stmts_stretch hb hss hx hy hpss ⟨hX.behind, ?_⟩) (.inr hX.behind)
    rw [stmt_outerSlots? hst]
    exact hX.looping

theorem arms_stretch {env : Env} {b : Bytecode} (hb : Linked env b) : ∀ {as : List (Arm Stmt)}
    {sc : Scope} {gs : List Guarded} {loop : LoopAddresses}, arms env sc as = .ok gs →
    loop.exit ≤ b.size → loop.start ≤ b.size → ArmsStretch b loop sc gs
  | [], _, _, _, h, _, _, _, _, _, _, _, _, _, _, _ => by
    rw [arms] at h
    cases h
    exact .nil
  | ⟨condition, body, span⟩ :: rest, _, _, _, h, hx, hy, pc, _, _, X, ha, hfits, hstop, hX, hXs => by
    obtain ⟨fc, fb, inner, more, hc, hbody, hm, rfl⟩ := arms_cons h
    obtain ⟨hpc, hd, hpb, hexit, hrest⟩ := ha
    rw [armsSize, ← Nat.add_assoc] at hfits hX ⊢
    have hmore := arms_stretch hb hm hx hy hrest hfits hstop hX hXs
    have hbody := closeBlock_stretch
      (X := fun t => t = pc + fc.size + jumpWidth + (releaseSlots fb inner.leave.1).size ∨ X t)
      (stmts_tidy hbody) hpb (fun hpf => stmts_stretch hb hbody hx hy hpf
        ⟨.inl rfl, fun hl => (hX.enter_plain.looping hl).imp .inr .inr⟩) (.inl rfl)
    exact (arm_stretch hb hc rfl hpc hd hbody hexit (by omega) hstop hXs).seq hmore (.inr hX.behind)

end

end Compile

end Scriptlet
