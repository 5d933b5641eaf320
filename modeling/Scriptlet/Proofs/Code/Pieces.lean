import Scriptlet.Proofs.Code.Image
import Scriptlet.Proofs.Code.Scopes
import Scriptlet.Proofs.Code.Shapes

/-!
# Shapes of pieces of code

A `Piece` gives shapes to the instructions of a range of code, which go on inside of the range or as
the exits allow. Neighbouring pieces are joined (`Piece.append`), so the shapes of compiled code are
put together from those of its parts. Here this is done for expressions: they leave one more operand
and all slots as they are (`expr_balanced`).
-/

namespace Scriptlet

/-- An offset with a shape is inside of a range, or it is an exit. -/
def Entered (P : Shapes) (K : Nat → Shape → Prop) (q : Nat) (sh : Shape) : Prop :=
  P q = some sh ∨ K q sh

/-- The one exit of code that goes on in one place. -/
def Only (stop : Nat) (sh : Shape) (q : Nat) (sh' : Shape) : Prop := q = stop ∧ sh' = sh

theorem only_self (stop : Nat) (sh : Shape) : Only stop sh stop sh := ⟨rfl, rfl⟩

/-- Where execution may go on behind an instruction of the same call: with the next instruction, or
where it jumps to. -/
def Instruction.GoesTo (i : Instruction) (pc q : Nat) : Prop :=
  q = pc + i.width ∨ ∃ t : UInt32, (i = .jump t ∨ i = .jumpIfFalse t) ∧ q = t.toNat

/-- What is admitted depends on the offsets only that execution may go on at. -/
theorem Instruction.Admits.imp {b : Bytecode} {pc : Nat} {sh : Shape} {K L : Nat → Shape → Prop}
    {i : Instruction} (h : i.Admits b pc sh K) (hK : ∀ q s, i.GoesTo pc q → K q s → L q s) :
    i.Admits b pc sh L := by
  have hnext : ∀ s, K (pc + i.width) s → L (pc + i.width) s := fun s => hK _ s (.inl rfl)
  cases i with
  | pushString c =>
    obtain ⟨named, h⟩ := h
    exact ⟨named, hnext _ h⟩
  | construct type args => exact ⟨h.1, h.2.1, hnext _ h.2.2⟩
  | callFunction id =>
    obtain ⟨f, hf, ha, h⟩ := h
    exact ⟨f, hf, ha, hnext _ h⟩
  | setLocal slot => exact ⟨h.1, h.2.1, hnext _ h.2.2⟩
  | setGlobal => exact ⟨h.1, h.2.1, hnext _ h.2.2⟩
  | jumpIfFalse target =>
    exact ⟨h.1, hnext _ h.2.1, hK _ _ (.inr ⟨target, .inr rfl, rfl⟩) h.2.2⟩
  | ret => exact h
  | retValue => exact h
  | halt => exact h
  | pushNull => exact hnext _ h
  | pushTrue => exact hnext _ h
  | pushFalse => exact hnext _ h
  | pushInt n => exact hnext _ h
  | pushUInt n => exact hnext _ h
  | pushFloat x => exact hnext _ h
  | pushChar c => exact hnext _ h
  | pushFunction id => exact hnext _ h
  | jump target => exact hK _ _ (.inr ⟨target, .inl rfl, rfl⟩) h
  | _ => exact ⟨h.1, hnext _ h.2⟩

theorem Instruction.Admits.mono {b : Bytecode} {pc : Nat} {sh : Shape} {K L : Nat → Shape → Prop}
    {i : Instruction} (h : i.Admits b pc sh K) (hK : ∀ q s, K q s → L q s) : i.Admits b pc sh L :=
  h.imp fun q s _ => hK q s

/-- The instructions of a range that have shapes go on inside of it, or as the exits allow. -/
structure Piece (b : Bytecode) (lo hi : Nat) (K : Nat → Shape → Prop) (P : Shapes) : Prop where
  within : ∀ pc sh, P pc = some sh → lo ≤ pc ∧ pc < hi
  admits : ∀ pc sh, P pc = some sh → ∃ i, Instruction.decode b.code pc = .instruction i ∧
    i.Admits b pc sh (Entered P K)

/-- The shapes of two ranges. -/
def Shapes.join (P Q : Shapes) : Shapes := fun q => (P q).or (Q q)

section piece

variable {b : Bytecode} {lo mid hi : Nat} {K K₁ K₂ : Nat → Shape → Prop} {P Q : Shapes} {e e₂ : Shape}

theorem Shapes.join_left {q : Nat} {sh : Shape} (h : P q = some sh) : P.join Q q = some sh := by
  rw [join, h]
  rfl

theorem Shapes.of_join {q : Nat} {sh : Shape} (h : P.join Q q = some sh) :
    P q = some sh ∨ Q q = some sh := by
  rw [join, Option.or_eq_some_iff] at h
  exact h.imp id And.right

theorem Piece.mono (h : Piece b lo hi K P) (hK : ∀ q s, K q s → K₂ q s) : Piece b lo hi K₂ P :=
  ⟨h.within, fun pc sh hp => by
    obtain ⟨i, hd, hi⟩ := h.admits pc sh hp
    exact ⟨i, hd, hi.mono fun q s hq => hq.imp id (hK q s)⟩⟩

theorem Piece.join_right (h₁ : Piece b lo mid K₁ P) (h₂ : Piece b mid hi K₂ Q) {q : Nat} {sh : Shape}
    (h : Q q = some sh) : P.join Q q = some sh := by
  cases hp : P q with
  | none => rw [Shapes.join, hp, h]; rfl
  | some s =>
    have := h₁.within q s hp
    have := h₂.within q sh h
    omega

/-- Neighbouring pieces make one, each of them being an exit of the other. -/
theorem Piece.append (h₁ : Piece b lo mid K₁ P) (h₂ : Piece b mid hi K₂ Q) (hlo : lo ≤ mid)
    (hhi : mid ≤ hi) (hK₁ : ∀ q s, K₁ q s → Entered Q K q s) (hK₂ : ∀ q s, K₂ q s → Entered P K q s) :
    Piece b lo hi K (P.join Q) := by
  have hleft : ∀ q s, Entered P K q s → Entered (P.join Q) K q s := fun q s h =>
    h.imp Shapes.join_left id
  have hright : ∀ q s, Entered Q K q s → Entered (P.join Q) K q s := fun q s h =>
    h.imp (h₁.join_right h₂) id
  constructor
  · intro pc sh h
    obtain h | h := Shapes.of_join h
    · have := h₁.within pc sh h
      omega
    · have := h₂.within pc sh h
      omega
  · intro pc sh h
    obtain h | h := Shapes.of_join h
    · obtain ⟨i, hd, hi⟩ := h₁.admits pc sh h
      exact ⟨i, hd, hi.mono fun q s hq =>
        hq.elim (fun hq => hleft q s (.inl hq)) fun hq => hright q s (hK₁ q s hq)⟩
    · obtain ⟨i, hd, hi⟩ := h₂.admits pc sh h
      exact ⟨i, hd, hi.mono fun q s hq =>
        hq.elim (fun hq => hright q s (.inl hq)) fun hq => hleft q s (hK₂ q s hq)⟩

/-- The shapes of a single instruction. -/
def Shapes.single (pc : Nat) (sh : Shape) : Shapes := fun q => if q = pc then some sh else none

theorem Shapes.of_single {pc q : Nat} {sh s : Shape} (h : single pc sh q = some s) :
    q = pc ∧ s = sh := by
  unfold single at h
  split at h
  · next hq =>
    cases h
    exact ⟨hq, rfl⟩
  · cases h

theorem piece_single {i : Instruction} (hd : Instruction.decode b.code lo = .instruction i)
    (hi : i.Admits b lo e K) : Piece b lo (lo + i.width) K (Shapes.single lo e) := by
  constructor
  · intro pc sh h
    obtain ⟨rfl, rfl⟩ := Shapes.of_single h
    have := i.width_pos
    omega
  · intro pc sh h
    obtain ⟨rfl, rfl⟩ := Shapes.of_single h
    exact ⟨i, hd, hi.mono fun q s hq => .inr hq⟩

/-! ## Code that keeps the slots -/

/-- A range that is entered with a shape, and in which the number of slots stays the same. -/
def Flows (b : Bytecode) (lo hi : Nat) (e : Shape) (K : Nat → Shape → Prop) : Prop :=
  lo ≤ hi ∧ ∃ P, Piece b lo hi K P ∧ Entered P K lo e ∧ ∀ pc sh, P pc = some sh → sh.locals = e.locals

theorem flows_nil (h : K lo e) : Flows b lo lo e K :=
  ⟨Nat.le_refl _, fun _ => none, ⟨fun _ _ h => (by cases h), fun _ _ h => (by cases h)⟩, .inr h,
    fun _ _ h => (by cases h)⟩

theorem flows_single {i : Instruction} (hd : Instruction.decode b.code lo = .instruction i)
    (hi : i.Admits b lo e K) : Flows b lo (lo + i.width) e K :=
  ⟨Nat.le_add_right _ _, _, piece_single hd hi, .inl (if_pos rfl), fun pc sh h => by
    rw [(Shapes.of_single h).2]⟩

theorem Flows.mono (h : Flows b lo hi e K) (hK : ∀ q s, K q s → K₂ q s) : Flows b lo hi e K₂ := by
  obtain ⟨hle, P, hP, hent, hl⟩ := h
  exact ⟨hle, P, hP.mono hK, hent.imp id (hK _ _), hl⟩

theorem Flows.seq (h₁ : Flows b lo mid e (Only mid e₂)) (hl : e₂.locals = e.locals)
    (h₂ : Flows b mid hi e₂ K) : Flows b lo hi e K := by
  obtain ⟨hlo, P, hP, hPe, hPl⟩ := h₁
  obtain ⟨hhi, Q, hQ, hQe, hQl⟩ := h₂
  have hK₁ : ∀ q s, Only mid e₂ q s → Entered Q K q s := by
    rintro q s ⟨rfl, rfl⟩
    exact hQe
  refine ⟨Nat.le_trans hlo hhi, P.join Q, hP.append hQ hlo hhi hK₁ fun _ _ => .inr, ?_, ?_⟩
  · obtain h | h := hPe
    · exact .inl (Shapes.join_left h)
    · exact (hK₁ _ _ h).imp (hP.join_right hQ) id
  · intro pc sh h
    obtain h | h := Shapes.of_join h
    · exact hPl pc sh h
    · rw [hQl pc sh h, hl]

/-- An instruction behind code. -/
theorem Flows.emit {i : Instruction} (h : Flows b lo mid e (Only mid e₂)) (hl : e₂.locals = e.locals)
    (hd : Instruction.decode b.code mid = .instruction i) (hi : i.Admits b mid e₂ K) :
    Flows b lo (mid + i.width) e K :=
  h.seq hl (flows_single hd hi)

end piece

/-! ## Expressions -/

namespace Compile

variable {env : Env} {b : Bytecode} {sc : Scope} {f : Fragment} {base : Nat} {loop : LoopAddresses}

/-- Code that is entered with `h` operands and leaves `k`, the slots of the scope being in use. -/
abbrev Balanced (b : Bytecode) (base stop : Nat) (sc : Scope) (h k : Nat) : Prop :=
  Flows b base stop ⟨h, sc.liveSlots, false⟩ (Only stop ⟨k, sc.liveSlots, false⟩)

theorem Balanced.append {g : Fragment} {h k m : Nat} (hf : Balanced b base (base + f.size) sc h k)
    (hg : Balanced b (base + f.size) (base + f.size + g.size) sc k m) :
    Balanced b base (base + (f ++ g).size) sc h m := by
  rw [Fragment.size_append, ← Nat.add_assoc]
  exact hf.seq rfl hg

theorem Balanced.emit {i : Instruction} {h k m : Nat} (hf : Balanced b base (base + f.size) sc h k)
    (hd : Instruction.decode b.code (base + f.size) = .instruction i)
    (hi : i.Admits b (base + f.size) ⟨k, sc.liveSlots, false⟩
      (Only (base + f.size + i.width) ⟨m, sc.liveSlots, false⟩)) :
    Balanced b base (base + (f.emit i).size) sc h m := by
  rw [Fragment.size_emit, ← Nat.add_assoc]
  exact Flows.emit hf rfl hd hi

theorem Balanced.emitAt {i : Instruction} {span : Span} {h k m : Nat}
    (hf : Balanced b base (base + f.size) sc h k)
    (hd : Instruction.decode b.code (base + f.size) = .instruction i)
    (hi : i.Admits b (base + f.size) ⟨k, sc.liveSlots, false⟩
      (Only (base + f.size + i.width) ⟨m, sc.liveSlots, false⟩)) :
    Balanced b base (base + (f.emitAt i span).size) sc h m := by
  rw [Fragment.size_emitAt, ← Nat.add_assoc]
  exact Flows.emit hf rfl hd hi

theorem balanced_empty (b : Bytecode) (base : Nat) (sc : Scope) (h : Nat) :
    Balanced b base (base + Fragment.empty.size) sc h h :=
  flows_nil (only_self _ _)

theorem balanced_literal {v : Literal Symbol}
    (hp : (Fragment.empty.emit (pushLiteral v)).Placed b.code base loop) (h : Nat) :
    Balanced b base (base + (Fragment.empty.emit (pushLiteral v)).size) sc h (h + 1) := by
  obtain ⟨-, hd⟩ := hp.emit Fragment.tidy_empty
  refine (balanced_empty b base sc h).emit hd ?_
  cases v with
  | text c => exact ⟨false, only_self _ _⟩
  | bool v => cases v <;> exact only_self _ _
  | _ => exact only_self _ _

/-- The name of a global is pushed and used at once. -/
theorem flows_global {name : Symbol} {i : Instruction} {stop : Nat} {h : Nat} {K : Nat → Shape → Prop}
    (hn : Instruction.decode b.code base = .instruction (.pushString name))
    (hd : Instruction.decode b.code (base + 5) = .instruction i) (hstop : stop = base + 5 + i.width)
    (hi : i.Admits b (base + 5) ⟨h + 1, sc.liveSlots, true⟩ K) :
    Flows b base stop ⟨h, sc.liveSlots, false⟩ K := by
  rw [hstop]
  exact (flows_single (K := Only (base + 5) ⟨h + 1, sc.liveSlots, true⟩) hn
    ⟨true, only_self _ _⟩).emit rfl hd hi

theorem balanced_readName (hs : sc.Sound) {name : Symbol} {span : Span}
    (hp : (readName env sc name span).Placed b.code base loop) (h : Nat) :
    Balanced b base (base + (readName env sc name span).size) sc h (h + 1) := by
  unfold readName at hp ⊢
  cases hslot : sc.slot? name with
  | some slot =>
    simp only [hslot] at hp ⊢
    obtain ⟨-, hd⟩ := hp.emit Fragment.tidy_empty
    exact (balanced_empty b base sc h).emit hd ⟨hs.slot?_lt hslot, only_self _ _⟩
  | none =>
    simp only [hslot] at hp ⊢
    cases hf : env.prototypes.function? name with
    | some r =>
      simp only [hf] at hp ⊢
      obtain ⟨-, hd⟩ := hp.emit Fragment.tidy_empty
      exact (balanced_empty b base sc h).emit hd (only_self _ _)
    | none =>
      simp only [hf] at hp ⊢
      obtain ⟨hp, hget⟩ := hp.emitAt (Fragment.tidy_empty.emit _)
      obtain ⟨-, hname⟩ := hp.emit Fragment.tidy_empty
      exact flows_global hname hget rfl ⟨rfl, only_self _ _⟩

mutual

/-- The code of an expression leaves one more operand. -/
theorem expr_balanced {env : Env} {b : Bytecode} (hb : Linked env b) {sc : Scope} (hs : sc.Sound)
    {loop : LoopAddresses} : ∀ {e : Expr} {f : Fragment} {base : Nat}, expr env sc e = .ok f →
    f.Placed b.code base loop → ∀ h, Balanced b base (base + f.size) sc h (h + 1)
  | .literal v _, _, _, he, hp, h => by
    rw [expr] at he
    cases he
    exact balanced_literal hp h
  | .name name span, _, _, he, hp, h => by
    rw [expr] at he
    cases he
    exact balanced_readName hs hp h
  | .binary op l r _, _, _, he, hp, h => by
    obtain ⟨fl, fr, hl, hr, rfl⟩ := expr_binary he
    obtain ⟨hp, hd⟩ := hp.emitAt ((expr_tidy hl).append (expr_tidy hr))
    obtain ⟨hpl, hpr⟩ := hp.append (expr_tidy hl)
    exact ((expr_balanced hb hs hl hpl h).append (expr_balanced hb hs hr hpr (h + 1))).emitAt hd
      ⟨Nat.le_add_left 2 h, only_self _ _⟩
  | .unary op e _, _, _, he, hp, h => by
    obtain ⟨v, -, rfl⟩ | ⟨-, fe, ho, rfl⟩ := expr_unary he
    · exact balanced_literal hp h
    · obtain ⟨hp, hd⟩ := hp.emitAt (expr_tidy ho)
      exact (expr_balanced hb hs ho hp h).emitAt hd ⟨Nat.le_add_left 1 h, only_self _ _⟩
  | .array items _, _, base, he, hp, h => by
    obtain ⟨fs, hfs, rfl⟩ := expr_array he
    obtain ⟨hp, hd⟩ := hp.emit (exprs_tidy hfs)
    have hlen : (UInt32.ofNat items.length).toNat = items.length := by
      have : base + fs.size ≤ b.size := hp.fits
      have := hb.small
      have := length_le_size_exprs hfs
      rw [UInt32.toNat_ofNat']
      omega
    refine (exprs_balanced hb hs hfs hp h).emit hd ⟨by dsimp only; omega, ?_⟩
    rw [hlen, Nat.add_sub_cancel]
    exact only_self _ _
  | .index o i _, _, _, he, hp, h => by
    obtain ⟨fo, fi, ho, hi, rfl⟩ := expr_index he
    obtain ⟨hp, hd⟩ := hp.emitAt ((expr_tidy ho).append (expr_tidy hi))
    obtain ⟨hpo, hpi⟩ := hp.append (expr_tidy ho)
    exact ((expr_balanced hb hs ho hpo h).append (expr_balanced hb hs hi hpi (h + 1))).emitAt hd
      ⟨Nat.le_add_left 2 h, only_self _ _⟩
  | .field o name _, _, _, he, hp, h => by
    obtain ⟨fo, ho, rfl⟩ := expr_field he
    obtain ⟨hp, hd⟩ := hp.emitAt (expr_tidy ho)
    exact (expr_balanced hb hs ho hp h).emitAt hd ⟨Nat.le_add_left 1 h, only_self _ _⟩
  | .call callee args _, _, _, he, hp, h => by
    obtain ⟨name, id, fs, hdirect, hfs, rfl⟩ | ⟨-, count, fs, fc, hcount, hfs, hc, rfl⟩ := expr_call he
    · obtain ⟨hp, hd⟩ := hp.emitAt (exprs_tidy hfs)
      obtain ⟨g, hg, harity⟩ := hb.directCallee hdirect
      refine (exprs_balanced hb hs hfs hp h).emitAt hd ⟨g, hg, by rw [harity]; exact Nat.le_add_left _ _, ?_⟩
      rw [harity, Nat.add_sub_cancel]
      exact only_self _ _
    · obtain ⟨hp, hd⟩ := hp.emitAt ((exprs_tidy hfs).append (expr_tidy hc))
      obtain ⟨hpa, hpc⟩ := hp.append (exprs_tidy hfs)
      obtain ⟨-, hlen⟩ := of_checkCount hcount
      refine ((exprs_balanced hb hs hfs hpa h).append (expr_balanced hb hs hc hpc _)).emitAt hd
        ⟨by dsimp only; omega, ?_⟩
      rw [hlen, show h + args.length + 1 - args.length = h + 1 by omega]
      exact only_self _ _
  | .methodCall o name args _, _, _, he, hp, h => by
    obtain ⟨count, fo, fs, hcount, ho, hfs, rfl⟩ := expr_methodCall he
    obtain ⟨hp, hd⟩ := hp.emitAt ((expr_tidy ho).append (exprs_tidy hfs))
    obtain ⟨hpo, hpa⟩ := hp.append (expr_tidy ho)
    obtain ⟨-, hlen⟩ := of_checkCount hcount
    refine ((expr_balanced hb hs ho hpo h).append (exprs_balanced hb hs hfs hpa (h + 1))).emitAt hd
      ⟨by dsimp only; omega, ?_⟩
    rw [hlen, show h + 1 + args.length - args.length = h + 1 by omega]
    exact only_self _ _
  | .construct type args _, _, _, he, hp, h => by
    obtain ⟨id, entry, count, fs, hstruct, hfields, hcount, hfs, rfl⟩ := expr_construct he
    obtain ⟨hp, hd⟩ := hp.emitAt (exprs_tidy hfs)
    obtain ⟨-, hlen⟩ := of_checkCount hcount
    refine (exprs_balanced hb hs hfs hp h).emitAt hd
      ⟨⟨entry, hb.struct type id entry hstruct, by rw [hlen]; exact hfields⟩, by dsimp only; omega, ?_⟩
    rw [hlen, Nat.add_sub_cancel]
    exact only_self _ _

/-- The code of several expressions leaves as many more operands. -/
theorem exprs_balanced {env : Env} {b : Bytecode} (hb : Linked env b) {sc : Scope} (hs : sc.Sound)
    {loop : LoopAddresses} : ∀ {es : List Expr} {f : Fragment} {base : Nat}, exprs env sc es = .ok f →
    f.Placed b.code base loop → ∀ h, Balanced b base (base + f.size) sc h (h + es.length)
  | [], _, _, he, hp, h => by
    rw [exprs] at he
    cases he
    exact balanced_empty b _ sc h
  | e :: es, _, _, he, hp, h => by
    obtain ⟨fe, fs, hfe, hfs, rfl⟩ := exprs_cons he
    obtain ⟨hpe, hps⟩ := hp.append (expr_tidy hfe)
    have hrest := exprs_balanced hb hs hfs hps (h + 1)
    rw [show h + 1 + es.length = h + (e :: es).length by rw [List.length_cons]; omega] at hrest
    exact (expr_balanced hb hs hfe hpe h).append hrest

end

end Compile

end Scriptlet
