import Scriptlet.Proofs.Code.Parts

/-!
# Slots of a scope

While code is compiled, the slots of the visible names are the first `Scope.liveSlots` ones, and a
declaration takes the next. Statements add names to the innermost block only (`stmts_grows`), so at
the end of a block just its own slots are left to release (`leave_of_grows`), and what leaves the body
of a loop releases all slots that were not live outside (`Scope.outerSlots?`).
-/

namespace Scriptlet

namespace Scope

variable {sc inner : Scope} {name : Symbol}

theorem slotIn?_lt {bs : List Block} {i : Nat} (h : slotIn? name bs = some i) : i < countNames bs := by
  induction bs generalizing i with
  | nil => cases h
  | cons b bs ih =>
    rw [slotIn?] at h
    rw [countNames]
    split at h
    · next j hj =>
      cases h
      obtain ⟨hlt, -⟩ := List.idxOf?_eq_some_iff.1 hj
      omega
    · have := ih h
      omega

/-- All slots fit into an operand. -/
def Sound (sc : Scope) : Prop := sc.liveSlots ≤ maxSlots

theorem Sound.toNat_slot (hs : sc.Sound) {i : Nat} (h : slotIn? name sc.blocks = some i) :
    (UInt8.ofNat i).toNat = i := by
  have : i < countNames sc.blocks := slotIn?_lt h
  have : countNames sc.blocks ≤ 256 := hs
  rw [UInt8.toNat_ofNat']
  omega

theorem Sound.slot?_lt (hs : sc.Sound) {slot : UInt8} (h : sc.slot? name = some slot) :
    slot.toNat < sc.liveSlots := by
  obtain ⟨i, hi, rfl⟩ := Option.map_eq_some_iff.1 h
  rw [hs.toNat_slot hi]
  exact slotIn?_lt hi

theorem sound_function : function.Sound := Nat.zero_le _

@[simp] theorem liveSlots_enter (sc : Scope) (kind : BlockKind) :
    (sc.enter kind).liveSlots = sc.liveSlots :=
  Nat.zero_add _

theorem Sound.enter (hs : sc.Sound) (kind : BlockKind) : (sc.enter kind).Sound := by
  unfold Sound
  rw [liveSlots_enter]
  exact hs

/-- What a declaration does: it takes the next slot for a name of the innermost block. -/
theorem declare_ok {slot : UInt8} (h : sc.declare name = .ok (slot, inner)) :
    (∃ b bs, sc.blocks = b :: bs ∧ b.names.contains name = false ∧
      inner.blocks = { b with names := b.names ++ [name] } :: bs) ∧
    slot.toNat = sc.liveSlots ∧ sc.liveSlots < maxSlots := by
  unfold declare at h
  cases hb : sc.blocks with
  | nil =>
    rw [hb] at h
    cases h
  | cons b bs =>
    rw [hb] at h
    dsimp only at h
    split at h
    · cases h
    · next hn =>
      split at h
      · cases h
      · next hl =>
        cases h
        refine ⟨⟨b, bs, rfl, by simpa using hn, rfl⟩, ?_, Nat.not_le.1 hl⟩
        have : sc.liveSlots < 256 := Nat.not_le.1 hl
        rw [UInt8.toNat_ofNat']
        omega

theorem liveSlots_declare {slot : UInt8} (h : sc.declare name = .ok (slot, inner)) :
    inner.liveSlots = sc.liveSlots + 1 := by
  obtain ⟨⟨b, bs, hb, -, hinner⟩, -, -⟩ := declare_ok h
  simp only [liveSlots, hb, hinner, countNames, List.length_append, List.length_singleton]
  omega

/-- A declared name has the slot that it was given, whatever it hides. -/
theorem slot?_declare {slot : UInt8} (h : sc.declare name = .ok (slot, inner)) :
    inner.slot? name = some slot := by
  obtain ⟨⟨b, bs, hb, hnew, hinner⟩, hslot, -⟩ := declare_ok h
  have hidx : (b.names ++ [name]).idxOf? name = some b.names.length := by
    refine List.idxOf?_eq_some_iff.2 ⟨by simp, by simp, fun j hj => ?_⟩
    rw [List.getElem_append_left hj]
    rintro rfl
    simp at hnew
  have hlive : sc.liveSlots = countNames bs + b.names.length := by
    rw [liveSlots, hb, countNames, Nat.add_comm]
  rw [slot?, hinner, slotIn?, hidx]
  dsimp only
  rw [Option.map_some, ← hlive, ← hslot, UInt8.ofNat_toNat]

theorem sound_declare {slot : UInt8} (h : sc.declare name = .ok (slot, inner)) : inner.Sound := by
  have := (declare_ok h).2.2
  unfold Sound
  rw [liveSlots_declare h]
  exact this

/-! ## Loops -/

theorem loopSlotsIn?_le {bs : List Block} {n : Nat} (h : loopSlotsIn? bs = some n) :
    n ≤ countNames bs := by
  induction bs generalizing n with
  | nil => cases h
  | cons b bs ih =>
    rw [loopSlotsIn?] at h
    rw [countNames]
    split at h
    · cases h
      omega
    · cases h
    · obtain ⟨k, hk, rfl⟩ := Option.map_eq_some_iff.1 h
      have := ih hk
      omega

theorem loopSlots?_le {n : Nat} (h : sc.loopSlots? = some n) : n ≤ sc.liveSlots :=
  loopSlotsIn?_le h

/-- The slots that are in use outside of the innermost loop. -/
def outerSlots? (sc : Scope) : Option Nat := sc.loopSlots?.map (sc.liveSlots - ·)

theorem outerSlots?_le {n : Nat} (h : sc.outerSlots? = some n) : n ≤ sc.liveSlots := by
  obtain ⟨k, -, rfl⟩ := Option.map_eq_some_iff.1 h
  exact Nat.sub_le _ _

theorem outerSlots?_enter_loop (sc : Scope) : (sc.enter .loop).outerSlots? = some sc.liveSlots := by
  change some ((sc.enter .loop).liveSlots - 0) = _
  rw [liveSlots_enter, Nat.sub_zero]

theorem outerSlots?_enter_plain (sc : Scope) : (sc.enter .plain).outerSlots? = sc.outerSlots? := by
  unfold outerSlots?
  rw [liveSlots_enter]
  change (sc.loopSlots?.map (0 + ·)).map _ = _
  rw [Option.map_map]
  congr 1
  funext n
  rw [Function.comp_apply, Nat.zero_add]

theorem outerSlots?_declare {slot : UInt8} (h : sc.declare name = .ok (slot, inner)) :
    inner.outerSlots? = sc.outerSlots? := by
  have hlive := liveSlots_declare h
  obtain ⟨⟨b, bs, hb, -, hinner⟩, -, -⟩ := declare_ok h
  have hcount : sc.liveSlots = b.names.length + countNames bs := by rw [liveSlots, hb, countNames]
  unfold outerSlots?
  rw [hlive]
  unfold loopSlots?
  rw [hinner, hb]
  obtain ⟨kind, names⟩ := b
  dsimp only at hcount
  cases kind with
  | function => rfl
  | loop =>
    simp only [loopSlotsIn?, Option.map_some, List.length_append, List.length_singleton]
    congr 1
    omega
  | plain =>
    simp only [loopSlotsIn?, Option.map_map, List.length_append, List.length_singleton]
    cases hl : loopSlotsIn? bs with
    | none => rfl
    | some n =>
      have := loopSlotsIn?_le hl
      simp only [Option.map_some, Function.comp_apply]
      congr 1
      omega

/-! ## Blocks -/

/-- A scope with more names in its innermost block. -/
def Grows (sc last : Scope) : Prop :=
  ∀ b bs, sc.blocks = b :: bs → ∃ more, last.blocks = { b with names := b.names ++ more } :: bs

theorem Grows.refl (sc : Scope) : Grows sc sc := fun b bs h => ⟨[], by rw [List.append_nil, h]⟩

theorem Grows.trans {mid last : Scope} (h₁ : sc.Grows mid) (h₂ : mid.Grows last) :
    sc.Grows last := fun b bs h => by
  obtain ⟨names, hm⟩ := h₁ b bs h
  obtain ⟨more, hl⟩ := h₂ _ bs hm
  exact ⟨names ++ more, by rw [hl, List.append_assoc]⟩

theorem grows_declare {slot : UInt8} (h : sc.declare name = .ok (slot, inner)) : sc.Grows inner := by
  obtain ⟨⟨b, bs, hb, -, hinner⟩, -, -⟩ := declare_ok h
  intro b' bs' hb'
  rw [hb] at hb'
  cases hb'
  exact ⟨[name], hinner⟩

/-- A block that is left held what it declared. -/
theorem leave_of_grows {kind : BlockKind} {last : Scope} (h : (sc.enter kind).Grows last) :
    last.leave.2 = sc ∧ last.liveSlots = sc.liveSlots + last.leave.1 := by
  obtain ⟨names, hl⟩ := h _ _ rfl
  unfold leave liveSlots
  rw [hl]
  exact ⟨rfl, Nat.add_comm _ _⟩

end Scope

namespace Compile

variable {env : Env} {sc : Scope} {f : Fragment} {last : Scope}

/-- The scope behind a statement: the same, or with one more name. -/
theorem stmt_next {s : Stmt} {next : Scope} (h : stmt env sc s = .ok (f, next)) :
    next = sc ∨ ∃ name slot, sc.declare name = .ok (slot, next) := by
  cases stmt_code h with
  | declare he hd => exact .inr ⟨_, _, hd⟩
  | _ => exact .inl rfl

theorem stmt_grows {s : Stmt} {next : Scope} (h : stmt env sc s = .ok (f, next)) :
    sc.Grows next := by
  obtain rfl | ⟨name, slot, hd⟩ := stmt_next h
  · exact .refl _
  · exact Scope.grows_declare hd

theorem stmt_sound {s : Stmt} {next : Scope} (h : stmt env sc s = .ok (f, next)) (hs : sc.Sound) :
    next.Sound := by
  obtain rfl | ⟨name, slot, hd⟩ := stmt_next h
  · exact hs
  · exact Scope.sound_declare hd

theorem stmt_outerSlots? {s : Stmt} {next : Scope} (h : stmt env sc s = .ok (f, next)) :
    next.outerSlots? = sc.outerSlots? := by
  obtain rfl | ⟨name, slot, hd⟩ := stmt_next h
  · rfl
  · exact Scope.outerSlots?_declare hd

theorem stmts_grows {ss : List Stmt} (h : stmts env sc ss = .ok (f, last)) : sc.Grows last := by
  induction ss generalizing sc f with
  | nil =>
    rw [stmts] at h
    cases h
    exact .refl _
  | cons s ss ih =>
    obtain ⟨fs, next, fss, hs, hss, -⟩ := stmts_cons h
    exact (stmt_grows hs).trans (ih hss)

/-- The parameters of a function are its first slots. -/
theorem declareParams_ok {params : List Binder} {inner : Scope}
    (h : declareParams env sc params = .ok inner) (hs : sc.Sound) :
    inner.Sound ∧ inner.liveSlots = sc.liveSlots + params.length ∧
      inner.outerSlots? = sc.outerSlots? := by
  induction params generalizing sc with
  | nil =>
    cases h
    exact ⟨hs, rfl, rfl⟩
  | cons b bs ih =>
    rw [declareParams] at h
    obtain ⟨⟨slot, next⟩, hd, h⟩ := of_bind_ok h
    obtain ⟨hsound, hlive, houter⟩ := ih h (Scope.sound_declare (of_declare hd))
    refine ⟨hsound, ?_, houter.trans (Scope.outerSlots?_declare (of_declare hd))⟩
    rw [hlive, Scope.liveSlots_declare (of_declare hd), List.length_cons]
    omega

theorem declareParams_blocks {params : List Binder} {inner : Scope} {b : Block} {bs : List Block}
    (h : declareParams env sc params = .ok inner) (hb : sc.blocks = b :: bs) :
    inner.blocks = { b with names := b.names ++ params.map Binder.name } :: bs := by
  induction params generalizing sc b with
  | nil =>
    cases h
    simp [hb]
  | cons x params ih =>
    rw [declareParams] at h
    obtain ⟨⟨slot, next⟩, hd, h⟩ := of_bind_ok h
    obtain ⟨⟨b', bs', hb', -, hnext⟩, -, -⟩ := Scope.declare_ok (of_declare hd)
    rw [hb] at hb'
    cases hb'
    rw [ih h hnext]
    simp

end Compile

end Scriptlet
