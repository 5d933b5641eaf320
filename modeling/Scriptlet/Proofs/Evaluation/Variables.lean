import Scriptlet.Proofs.Code.Scopes
import Scriptlet.Proofs.Evaluation.Evaluator

/-!
# Variables and slots

Variables `Fit` a scope if their names are those of the scope, block by block. Then the slots of the
scope hold their values (`Vars.slots`), the outermost block first: a name is found where its slot is
(`Vars.Fits.find?`), and an assignment changes that slot (`Vars.Fits.assign?`).
-/

namespace Scriptlet.Evaluation

open Scriptlet.Ideal

namespace Vars

/-- The values of variables in the order of their slots. -/
def slots : Vars → List Val
  | [] => []
  | b :: bs => slots bs ++ b.map Prod.snd

/-- Variables have the names of a scope, block by block. -/
def Fits (sc : Scope) (vars : Vars) : Prop :=
  sc.blocks.map Block.names = vars.map (List.map Prod.fst)

section names

variable {name : Symbol}

theorem lookup_eq (b : List (Symbol × Val)) :
    b.lookup name = ((b.map Prod.fst).idxOf? name).bind fun i => (b.map Prod.snd)[i]? := by
  induction b with
  | nil => rfl
  | cons x b ih =>
    rw [List.lookup_cons, List.map_cons, List.idxOf?_cons]
    by_cases hx : x.1 = name
    · rw [if_pos (beq_iff_eq.2 hx), beq_iff_eq.2 hx.symm]
      rfl
    · rw [if_neg (by simpa using hx), beq_eq_false_iff_ne.2 (Ne.symm hx), ih, Option.bind_map]
      rfl

theorem assignIn?_eq_none {b : List (Symbol × Val)} {v : Val}
    (h : (b.map Prod.fst).idxOf? name = none) : assignIn? name v b = none := by
  induction b with
  | nil => rfl
  | cons x b ih =>
    rw [List.map_cons, List.idxOf?_cons] at h
    by_cases hx : x.1 = name
    · rw [if_pos (beq_iff_eq.2 hx)] at h
      cases h
    · rw [if_neg (by simpa using hx)] at h
      rw [assignIn?, if_neg hx, ih (Option.map_eq_none_iff.1 h), Option.map_none]

theorem assignIn?_eq_some {b : List (Symbol × Val)} {i : Nat} (v : Val)
    (h : (b.map Prod.fst).idxOf? name = some i) : ∃ b', assignIn? name v b = some b' ∧
      b'.map Prod.fst = b.map Prod.fst ∧ b'.map Prod.snd = (b.map Prod.snd).set i v := by
  induction b generalizing i with
  | nil => cases h
  | cons x b ih =>
    rw [List.map_cons, List.idxOf?_cons] at h
    by_cases hx : x.1 = name
    · rw [if_pos (beq_iff_eq.2 hx)] at h
      cases h
      exact ⟨(name, v) :: b, by rw [assignIn?, if_pos hx], by simp [hx], rfl⟩
    · rw [if_neg (by simpa using hx)] at h
      obtain ⟨j, hj, rfl⟩ := Option.map_eq_some_iff.1 h
      obtain ⟨b', hb', hnames, hvalues⟩ := ih hj
      exact ⟨x :: b', by rw [assignIn?, if_neg hx, hb', Option.map_some], by simp [hnames],
        by simp [hvalues]⟩

end names

section blocks

variable {bs : List Block} {vars : Vars} {name : Symbol}

theorem length_slots_of_names (h : bs.map Block.names = vars.map (List.map Prod.fst)) :
    vars.slots.length = Scope.countNames bs := by
  induction bs generalizing vars with
  | nil =>
    cases vars with
    | nil => rfl
    | cons b vars => cases h
  | cons b bs ih =>
    cases vars with
    | nil => cases h
    | cons vb vars =>
      rw [List.map_cons, List.map_cons, List.cons.injEq] at h
      rw [slots, List.length_append, ih h.2, Scope.countNames, h.1, List.length_map, List.length_map,
        Nat.add_comm]

theorem find?_of_names (h : bs.map Block.names = vars.map (List.map Prod.fst)) :
    (Scope.slotIn? name bs = none ∧ vars.find? name = none) ∨
      ∃ i v, Scope.slotIn? name bs = some i ∧ vars.find? name = some v ∧ vars.slots[i]? = some v := by
  induction bs generalizing vars with
  | nil =>
    cases vars with
    | nil => exact .inl ⟨rfl, rfl⟩
    | cons b vars => cases h
  | cons b bs ih =>
    cases vars with
    | nil => cases h
    | cons vb vars =>
      rw [List.map_cons, List.map_cons, List.cons.injEq] at h
      have hlen := length_slots_of_names h.2
      rw [Scope.slotIn?, find?, lookup_eq, h.1]
      cases hi : (vb.map Prod.fst).idxOf? name with
      | some i =>
        obtain ⟨hlt, -⟩ := List.idxOf?_eq_some_iff.1 hi
        rw [List.length_map] at hlt
        have hget : (vb.map Prod.snd)[i]? = some vb[i].2 := by simp [hlt]
        refine .inr ⟨_, vb[i].2, rfl, ?_, ?_⟩
        · rw [Option.bind_some, hget]
        · rw [slots, List.getElem?_append_right (by omega), hlen, Nat.add_sub_cancel_left, hget]
      | none =>
        obtain ⟨hs, hf⟩ | ⟨i, v, hs, hf, hv⟩ := ih h.2
        · exact .inl ⟨hs, hf⟩
        · refine .inr ⟨i, v, hs, hf, ?_⟩
          have := Scope.slotIn?_lt hs
          rw [slots, List.getElem?_append_left (by omega), hv]

theorem assign?_of_names (h : bs.map Block.names = vars.map (List.map Prod.fst)) (v : Val) :
    (Scope.slotIn? name bs = none ∧ vars.assign? name v = none) ∨
      ∃ i vars', Scope.slotIn? name bs = some i ∧ vars.assign? name v = some vars' ∧
        bs.map Block.names = vars'.map (List.map Prod.fst) ∧ vars'.slots = vars.slots.set i v := by
  induction bs generalizing vars with
  | nil =>
    cases vars with
    | nil => exact .inl ⟨rfl, rfl⟩
    | cons b vars => cases h
  | cons b bs ih =>
    cases vars with
    | nil => cases h
    | cons vb vars =>
      rw [List.map_cons, List.map_cons, List.cons.injEq] at h
      have hlen := length_slots_of_names h.2
      rw [Scope.slotIn?, assign?, h.1]
      cases hi : (vb.map Prod.fst).idxOf? name with
      | some i =>
        obtain ⟨b', hb', hnames, hvalues⟩ := assignIn?_eq_some v hi
        refine .inr ⟨_, b' :: vars, rfl, by rw [hb'], ?_, ?_⟩
        · rw [List.map_cons, List.map_cons, h.1, h.2, hnames]
        · rw [slots, slots, hvalues, List.set_append_right _ _ (by omega), hlen, Nat.add_sub_cancel_left]
      | none =>
        rw [assignIn?_eq_none hi]
        obtain ⟨hs, ha⟩ | ⟨i, vars', hs, ha, hnames, hslots⟩ := ih h.2
        · exact .inl ⟨hs, by rw [ha]; rfl⟩
        · refine .inr ⟨i, vb :: vars', hs, by rw [ha]; rfl, ?_, ?_⟩
          · rw [List.map_cons, List.map_cons, h.1, hnames]
          · have := Scope.slotIn?_lt hs
            rw [slots, slots, hslots, List.set_append_left _ _ (by omega)]

end blocks

/-! ## Scopes -/

namespace Fits

variable {sc inner : Scope} {vars : Vars} (h : Fits sc vars)
include h

theorem length : vars.slots.length = sc.liveSlots := length_slots_of_names h

theorem find? (hs : sc.Sound) (name : Symbol) : (sc.slot? name = none ∧ vars.find? name = none) ∨
    ∃ slot v, sc.slot? name = some slot ∧ vars.find? name = some v ∧
      vars.slots[slot.toNat]? = some v := by
  unfold Scope.slot?
  obtain ⟨hn, hf⟩ | ⟨i, v, hi, hf, hv⟩ := find?_of_names h
  · exact .inl ⟨by rw [hn]; rfl, hf⟩
  · exact .inr ⟨_, v, by rw [hi]; rfl, hf, by rw [hs.toNat_slot hi]; exact hv⟩

theorem assign? (hs : sc.Sound) (name : Symbol) (v : Val) :
    (sc.slot? name = none ∧ vars.assign? name v = none) ∨
    ∃ slot vars', sc.slot? name = some slot ∧ vars.assign? name v = some vars' ∧ Fits sc vars' ∧
      vars'.slots = vars.slots.set slot.toNat v := by
  unfold Scope.slot?
  obtain ⟨hn, ha⟩ | ⟨i, vars', hi, ha, hnames, hslots⟩ := assign?_of_names h v
  · exact .inl ⟨by rw [hn]; rfl, ha⟩
  · exact .inr ⟨_, vars', by rw [hi]; rfl, ha, hnames, by rw [hs.toNat_slot hi]; exact hslots⟩

theorem declare {name : Symbol} {slot : UInt8} (hd : sc.declare name = .ok (slot, inner)) (v : Val) :
    Fits inner (vars.declare name v) ∧ (vars.declare name v).slots = vars.slots ++ [v] := by
  obtain ⟨⟨b, bs, hb, -, hinner⟩, -, -⟩ := Scope.declare_ok hd
  unfold Fits at h ⊢
  rw [hb] at h
  rw [hinner]
  cases vars with
  | nil => cases h
  | cons vb vars =>
    rw [List.map_cons, List.map_cons, List.cons.injEq] at h
    simp [Vars.declare, slots, h.1, h.2]

theorem enter (kind : BlockKind) : Fits (sc.enter kind) ([] :: vars) :=
  congrArg (List.cons []) h

omit h in
theorem leave {kind : BlockKind} (hg : (sc.enter kind).Grows inner) (h : Fits inner vars) :
    Fits sc vars.tail ∧ slots vars.tail = (slots vars).take sc.liveSlots := by
  obtain ⟨names, hb⟩ := hg _ _ rfl
  unfold Fits at h
  rw [hb] at h
  cases vars with
  | nil => cases h
  | cons vb vars =>
    rw [List.map_cons, List.map_cons, List.cons.injEq] at h
    have hlen : (slots vars).length = sc.liveSlots := length_slots_of_names h.2
    refine ⟨h.2, ?_⟩
    rw [slots, ← hlen, List.take_left]
    rfl

end Fits

@[simp] theorem slots_enter (vars : Vars) : slots ([] :: vars) = vars.slots := List.append_nil _

/-- The variables of a function that starts are its parameters, with the arguments as their values. -/
theorem fits_params {env : Compile.Env} {params : List Binder} {sc : Scope} {vs : List Val}
    (h : Compile.declareParams env Scope.function params = .ok sc) (hlen : vs.length = params.length) :
    Fits sc [(params.map Binder.name).zip vs] ∧ slots [(params.map Binder.name).zip vs] = vs := by
  have hb := Compile.declareParams_blocks h rfl
  have hnames : ((params.map Binder.name).zip vs).map Prod.fst = params.map Binder.name :=
    List.map_fst_zip (by simp [hlen])
  have hvalues : ((params.map Binder.name).zip vs).map Prod.snd = vs :=
    List.map_snd_zip (by simp [hlen])
  unfold Fits
  rw [hb]
  simp [slots, hnames, hvalues]

end Vars

end Scriptlet.Evaluation
