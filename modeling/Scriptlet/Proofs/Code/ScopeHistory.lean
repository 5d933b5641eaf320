import Mathlib.Data.List.Nodup
import Scriptlet.Proofs.Code.Scopes

/-!
# Scopes and what was done to them

A scope keeps names in blocks, and computes slots from them whenever it is asked. `Scope.History`
records instead what happened: the blocks that were opened and are still open, each with the number of
slots in use at that time, and the declarations that are still active, each with the slot that it was
told. A scope answers what its history says (`History.Agrees`): the slots of the active declarations are
the first ones, in the order of declaration, a name stands for its last active declaration, and the slots
to release at the end of a loop are those that came into use since its body was opened.

`Blocks.Records` ties the blocks of a scope to a history, block by block. Every operation keeps it
(`Records.note`), and the answers follow by induction on it.

Main statement: `Scope.agrees_with_history`.
-/

namespace Scriptlet.Scope

/-- An operation on a scope. -/
inductive Op where
  /-- Starts a function; nothing from before is visible. -/
  | function
  | enter (kind : BlockKind)
  | leave
  | declare (name : Symbol)
  | resolve (name : Symbol)
deriving DecidableEq, Repr

/-- A block that was opened, and how many slots were in use then. -/
structure Opening where
  kind : BlockKind
  live : Nat
deriving DecidableEq, Repr

/-- A declaration with the slot that was told, and the number of blocks that were open. -/
structure Declaration where
  name : Symbol
  slot : UInt8
  depth : Nat
deriving DecidableEq, Repr

/-- A scope with what led to it: the blocks that are open, innermost first, and the declarations that
are active, in the order in which they were made. -/
structure History where
  scope : Scope := .empty
  openings : List Opening := []
  active : List Declaration := []
deriving DecidableEq, Repr

namespace History

/-- Carries an operation out, and records it. A block that is left ends the declarations that were made
in it, a declaration that is refused is none, and looking for a name changes nothing. -/
def note (h : History) : Op → History
  | .function => { scope := .function, openings := [⟨.function, 0⟩] }
  | .enter kind =>
    { h with
      scope := h.scope.enter kind
      openings := ⟨kind, h.scope.liveSlots⟩ :: h.openings }
  | .leave =>
    { scope := h.scope.leave.2
      openings := h.openings.tail
      active := h.active.filter fun d => d.depth < h.openings.length }
  | .declare name =>
    match h.scope.declare name with
    | .ok (slot, scope) =>
      { h with scope, active := h.active ++ [⟨name, slot, h.openings.length⟩] }
    | .error _ => h
  | .resolve _ => h

/-- The history of some operations, from the start. -/
def ofOps (ops : List Op) : History := ops.foldl note {}

/-- The last active declaration of a name. -/
def last? (h : History) (name : Symbol) : Option Declaration :=
  h.active.reverse.find? fun d => d.name = name

/-- The body of the innermost loop that is open, if no function was opened inside of it. -/
def LoopBody (openings : List Opening) (body : Opening) : Prop :=
  ∃ inner outer, openings = inner ++ body :: outer ∧ body.kind = .loop ∧
    ∀ o ∈ inner, o.kind ≠ .loop ∧ o.kind ≠ .function

/-- What a scope answers is what its history says (module doc). -/
structure Agrees (h : History) : Prop where
  /-- There are never more slots than operands can tell apart. -/
  bound : h.scope.liveSlots ≤ 256
  /-- The active declarations have the first slots, in their order. -/
  slots : h.active.map (fun d => d.slot.toNat) = List.range h.scope.liveSlots
  /-- A name stands for its last active declaration. -/
  resolve : ∀ name, h.scope.slot? name = (h.last? name).map Declaration.slot
  /-- The number of a slot is not cut off. -/
  exact : ∀ name, (h.scope.slot? name).map UInt8.toNat = slotIn? name h.scope.blocks
  /-- Two names never have the same slot. -/
  distinct : ∀ name other slot, h.scope.slot? name = some slot → h.scope.slot? other = some slot →
    name = other
  /-- The slots to release at the end of a loop came into use since its body was opened. -/
  loopExit : ∀ body, LoopBody h.openings body → body.live ≤ h.scope.liveSlots ∧
    h.scope.loopSlots? = some (h.scope.liveSlots - body.live)
  /-- There is no loop to leave outside of loops and in a function inside of a loop. -/
  noLoop : (∀ body, ¬ LoopBody h.openings body) → h.scope.loopSlots? = none

end History

/-- Operations that leave each block that they open, and no other. -/
inductive Balanced : List Op → Prop
  | nil : Balanced []
  | declare (name : Symbol) {ops : List Op} (rest : Balanced ops) : Balanced (.declare name :: ops)
  | resolve (name : Symbol) {ops : List Op} (rest : Balanced ops) : Balanced (.resolve name :: ops)
  | block (kind : BlockKind) {inner ops : List Op} (h : Balanced inner) (rest : Balanced ops) :
    Balanced (.enter kind :: (inner ++ .leave :: ops))

/-! ## Blocks and their records -/

/-- A block with names that are declared once, and the declarations in it: they have the slots behind
`start`. -/
structure BlockRecord (b : Block) (start depth : Nat) (ds : List Declaration) : Prop where
  names : ds.map Declaration.name = b.names
  slots : ds.map (fun d => d.slot.toNat) = List.range' start b.names.length
  depth : ∀ d ∈ ds, d.depth = depth
  nodup : b.names.Nodup

/-- The blocks of a scope with their openings and declarations. -/
inductive Records : List Block → List Opening → List Declaration → Prop
  | nil : Records [] [] []
  | cons {b : Block} {bs : List Block} {os : List Opening} {ds es : List Declaration}
    (rest : Records bs os ds) (h : BlockRecord b (countNames bs) (bs.length + 1) es) :
    Records (b :: bs) (⟨b.kind, countNames bs⟩ :: os) (ds ++ es)

namespace Records

variable {bs : List Block} {os : List Opening} {ds : List Declaration}

theorem length_openings (h : Records bs os ds) : os.length = bs.length := by
  induction h with
  | nil => rfl
  | cons _ _ ih => rw [List.length_cons, List.length_cons, ih]

theorem depth_le (h : Records bs os ds) : ∀ d ∈ ds, d.depth ≤ bs.length := by
  induction h with
  | nil => exact fun d hd => by cases hd
  | cons rest hb ih =>
    intro d hd
    rw [List.length_cons]
    rcases List.mem_append.1 hd with hd | hd
    · exact Nat.le_succ_of_le (ih d hd)
    · exact Nat.le_of_eq (hb.depth d hd)

theorem live_le (h : Records bs os ds) : ∀ o ∈ os, o.live ≤ countNames bs := by
  induction h with
  | nil => exact fun o ho => by cases ho
  | cons rest hb ih =>
    intro o ho
    rw [countNames]
    rcases List.mem_cons.1 ho with rfl | ho
    · exact Nat.le_add_left _ _
    · exact Nat.le_trans (ih o ho) (Nat.le_add_left _ _)

theorem slots (h : Records bs os ds) :
    ds.map (fun d => d.slot.toNat) = List.range (countNames bs) := by
  induction h with
  | nil => rfl
  | @cons b bs os ds es rest hb ih =>
    rw [List.map_append, ih, hb.slots, countNames, Nat.add_comm, List.range_eq_range',
      List.range_eq_range', ← List.range'_append_1, Nat.zero_add]

end Records

theorem loopBody_nil (body : Opening) : ¬ History.LoopBody [] body := by
  rintro ⟨inner, outer, h, -⟩
  cases inner <;> cases h

theorem loopBody_cons (o : Opening) (os : List Opening) (body : Opening) :
    History.LoopBody (o :: os) body ↔
      (o.kind = .loop ∧ body = o) ∨ (o.kind = .plain ∧ History.LoopBody os body) := by
  constructor
  · rintro ⟨inner, outer, h, hbody, hinner⟩
    cases inner with
    | nil =>
      cases h
      exact .inl ⟨hbody, rfl⟩
    | cons o' inner =>
      cases h
      have ho := hinner o List.mem_cons_self
      refine .inr ⟨?_, inner, outer, rfl, hbody, fun o' ho' => hinner o' (List.mem_cons_of_mem _ ho')⟩
      cases hk : o.kind <;> simp_all
  · rintro (⟨ho, rfl⟩ | ⟨ho, inner, outer, rfl, hbody, hinner⟩)
    · exact ⟨[], os, rfl, ho, fun o' ho' => by cases ho'⟩
    · refine ⟨o :: inner, outer, rfl, hbody, fun o' ho' => ?_⟩
      rcases List.mem_cons.1 ho' with rfl | ho'
      · simp [ho]
      · exact hinner o' ho'

/-- In one block, the declaration of a name is found at the place of the name. -/
theorem find?_reverse_eq_idxOf? {ds : List Declaration} {names : List Symbol} {start : Nat}
    (hnames : ds.map Declaration.name = names)
    (hslots : ds.map (fun d => d.slot.toNat) = List.range' start names.length)
    (hnodup : names.Nodup) (name : Symbol) :
    (ds.reverse.find? fun d => d.name = name).map (fun d => d.slot.toNat) =
      (names.idxOf? name).map (start + ·) := by
  induction ds generalizing names start with
  | nil =>
    subst hnames
    rfl
  | cons d ds ih =>
    subst hnames
    rw [List.map_cons, List.nodup_cons] at hnodup
    simp only [List.map_cons, List.length_cons, List.range'_succ, List.cons.injEq] at hslots
    have hrest := ih rfl hslots.2 hnodup.2
    rw [List.reverse_cons, List.find?_append, Option.map_or, hrest, List.map_cons, List.idxOf?_cons]
    by_cases hd : d.name = name
    · -- the list is searched from its end, but no later declaration of the block has the name
      have hnone : (ds.map Declaration.name).idxOf? name = none :=
        List.idxOf?_eq_none_iff.2 (hd ▸ hnodup.1)
      simp [hd, hnone, hslots.1]
    · cases (ds.map Declaration.name).idxOf? name with
      | none => simp [hd]
      | some i => simp [hd]; omega

namespace Records

variable {bs : List Block} {os : List Opening} {ds : List Declaration}

theorem slotIn?_eq (h : Records bs os ds) (name : Symbol) :
    slotIn? name bs =
      (ds.reverse.find? fun d => d.name = name).map fun d => d.slot.toNat := by
  induction h with
  | nil => rfl
  | @cons b bs os ds es rest hb ih =>
    have hfind := find?_reverse_eq_idxOf? hb.names hb.slots hb.nodup name
    rw [List.reverse_append, List.find?_append, Option.map_or, hfind, ← ih, slotIn?]
    cases b.names.idxOf? name <;> rfl

theorem live_le_of_loopBody (h : Records bs os ds) {body : Opening} (hbody : History.LoopBody os body) :
    body.live ≤ countNames bs := by
  obtain ⟨inner, outer, rfl, -⟩ := hbody
  exact h.live_le body (by simp)

theorem loopSlotsIn?_eq_some_iff (h : Records bs os ds) (n : Nat) :
    loopSlotsIn? bs = some n ↔ ∃ body, History.LoopBody os body ∧ n + body.live = countNames bs := by
  induction h generalizing n with
  | nil => simp [loopSlotsIn?, loopBody_nil]
  | @cons b bs os ds es rest hb ih =>
    obtain ⟨kind, names⟩ := b
    simp only [loopBody_cons, countNames, loopSlotsIn?]
    cases kind with
    | loop =>
      simp only [true_and, reduceCtorEq, false_and, or_false, exists_eq_left, Option.some.injEq]
      omega
    | function => simp
    | plain =>
      -- the slots of this block are released on top of those of the blocks around it
      simp only [reduceCtorEq, false_and, true_and, false_or, Option.map_eq_some_iff, ih]
      constructor
      · rintro ⟨k, ⟨body, hbody, hk⟩, rfl⟩
        exact ⟨body, hbody, by omega⟩
      · rintro ⟨body, hbody, hn⟩
        have hlive := rest.live_le_of_loopBody hbody
        exact ⟨countNames bs - body.live, ⟨body, hbody, by omega⟩, by omega⟩

/-- A block that is left takes its declarations with it. -/
theorem leave {b : Block} {o : Opening} (h : Records (b :: bs) (o :: os) ds) :
    Records bs os (ds.filter fun d => d.depth < os.length + 1) := by
  cases h with
  | @cons _ _ _ ds es rest hb =>
    have hkeep : ds.filter (fun d => d.depth < os.length + 1) = ds :=
      List.filter_eq_self.2 fun d hd => by
        have := rest.depth_le d hd
        rw [rest.length_openings]
        simp only [decide_eq_true_eq]
        omega
    have hdrop : es.filter (fun d => d.depth < os.length + 1) = [] :=
      List.filter_eq_nil_iff.2 fun d hd => by
        rw [rest.length_openings, hb.depth d hd]
        simp
    rw [List.filter_append, hkeep, hdrop, List.append_nil]
    exact rest

theorem enter (h : Records bs os ds) (kind : BlockKind) :
    Records ({ kind } :: bs) (⟨kind, countNames bs⟩ :: os) ds := by
  have hcons : Records ({ kind } :: bs) (⟨kind, countNames bs⟩ :: os) (ds ++ []) :=
    .cons h ⟨rfl, rfl, fun d hd => (by cases hd), List.nodup_nil⟩
  rwa [List.append_nil] at hcons

/-- A declaration takes the next slot in the innermost block. -/
theorem declare {b : Block} {name : Symbol} {slot : UInt8} (h : Records (b :: bs) os ds)
    (hname : name ∉ b.names) (hslot : slot.toNat = countNames (b :: bs)) :
    Records ({ b with names := b.names ++ [name] } :: bs) os (ds ++ [⟨name, slot, os.length⟩]) := by
  have hdepth := h.length_openings
  cases h with
  | @cons _ _ os ds es rest hb =>
    rw [List.append_assoc]
    refine .cons rest ⟨?_, ?_, fun d hd => ?_, ?_⟩
    · rw [List.map_append, hb.names]
      rfl
    · rw [List.map_append, hb.slots, List.length_append, List.length_singleton,
        List.range'_concat, Nat.one_mul, List.map_singleton, hslot, countNames, Nat.add_comm]
    · rcases List.mem_append.1 hd with hd | hd
      · exact hb.depth d hd
      · rw [List.mem_singleton.1 hd]
        exact hdepth
    · refine List.nodup_append'.2 ⟨hb.nodup, List.nodup_singleton _, ?_⟩
      rwa [List.disjoint_singleton]

end Records

/-! ## Operations -/

/-- The blocks of a scope are recorded, and there are not too many names in them. -/
structure History.Recorded (h : History) : Prop where
  records : Records h.scope.blocks h.openings h.active
  sound : h.scope.Sound

theorem sound_leave {sc : Scope} (hs : sc.Sound) : sc.leave.2.Sound := by
  unfold leave
  cases hb : sc.blocks with
  | nil => exact hs
  | cons b bs =>
    rw [Sound, liveSlots, hb, countNames] at hs
    exact Nat.le_trans (Nat.le_add_left _ _) hs

namespace History

theorem note_declare_ok {h : History} {name : Symbol} {slot : UInt8} {sc : Scope}
    (hd : h.scope.declare name = .ok (slot, sc)) :
    h.note (.declare name) =
      { h with scope := sc, active := h.active ++ [⟨name, slot, h.openings.length⟩] } := by
  simp only [note, hd]

theorem note_declare_error {h : History} {name : Symbol} {e : DeclareError}
    (hd : h.scope.declare name = .error e) : h.note (.declare name) = h := by
  simp only [note, hd]

/-- Every operation is recorded. -/
theorem Recorded.note {h : History} (hr : h.Recorded) (op : Op) : (h.note op).Recorded := by
  obtain ⟨hrec, hsound⟩ := hr
  cases op with
  | function => exact ⟨Records.nil.enter .function, sound_function⟩
  | enter kind => exact ⟨hrec.enter kind, hsound.enter kind⟩
  | leave =>
    obtain ⟨⟨blocks⟩, os, ds⟩ := h
    cases hrec with
    | nil => exact ⟨.nil, hsound⟩
    | cons rest hb => exact ⟨(Records.cons rest hb).leave, sound_leave hsound⟩
  | declare name =>
    cases hd : h.scope.declare name with
    | error e =>
      rw [note_declare_error hd]
      exact ⟨hrec, hsound⟩
    | ok r =>
      obtain ⟨⟨b, bs, hb, hname, hblocks⟩, hslot, -⟩ := declare_ok hd
      rw [note_declare_ok hd]
      refine ⟨?_, sound_declare hd⟩
      dsimp only
      rw [hblocks]
      rw [hb] at hrec
      rw [liveSlots, hb] at hslot
      exact hrec.declare (by simpa using hname) hslot
  | resolve name => exact ⟨hrec, hsound⟩

theorem recorded_ofOps (ops : List Op) : (ofOps ops).Recorded := by
  have hrun : ∀ h : History, h.Recorded → (ops.foldl note h).Recorded := by
    induction ops with
    | nil => exact fun h hr => hr
    | cons op ops ih => exact fun h hr => ih (h.note op) (hr.note op)
  exact hrun {} ⟨.nil, Nat.zero_le _⟩

/-- A scope whose blocks are recorded answers what the records say. -/
theorem Recorded.agrees {h : History} (hr : h.Recorded) : h.Agrees := by
  have hslots := hr.records.slots
  have hfind : ∀ name, slotIn? name h.scope.blocks =
      (h.last? name).map fun d => d.slot.toNat := hr.records.slotIn?_eq
  have hresolve : ∀ name, h.scope.slot? name = (h.last? name).map Declaration.slot := fun name => by
    rw [slot?, hfind, Option.map_map]
    congr 1
    funext d
    exact UInt8.ofNat_toNat
  have hloop := hr.records.loopSlotsIn?_eq_some_iff
  refine ⟨hr.sound, hslots, hresolve, fun name => ?_, fun name other slot hname hother => ?_,
    fun body hbody => ?_, fun hnone => ?_⟩
  · rw [hresolve, hfind, Option.map_map]
    rfl
  · rw [hresolve, Option.map_eq_some_iff] at hname hother
    obtain ⟨d, hd, rfl⟩ := hname
    obtain ⟨e, he, heq⟩ := hother
    have hnodup : (h.active.map fun d => d.slot.toNat).Nodup := hslots ▸ List.nodup_range
    have hde : d = e := List.inj_on_of_nodup_map hnodup
      (List.mem_reverse.1 (List.mem_of_find?_eq_some hd))
      (List.mem_reverse.1 (List.mem_of_find?_eq_some he)) (by rw [heq])
    have hdn := List.find?_some hd
    have hen := List.find?_some he
    simp only [decide_eq_true_eq] at hdn hen
    rw [← hdn, ← hen, hde]
  · have hle := hr.records.live_le_of_loopBody hbody
    exact ⟨hle, (hloop _).2 ⟨body, hbody, Nat.sub_add_cancel hle⟩⟩
  · cases hn : h.scope.loopSlots? with
    | none => rfl
    | some n =>
      obtain ⟨body, hbody, -⟩ := (hloop n).1 hn
      exact absurd hbody (hnone body)

end History

/-! ## Blocks that are left again -/

/-- A block that only got more names is left without a trace. -/
theorem scope_note_leave {h last : History} {kind : BlockKind}
    (hg : (h.note (.enter kind)).scope.Grows last.scope) : (last.note .leave).scope = h.scope :=
  (leave_of_grows (show (h.scope.enter kind).Grows last.scope from hg)).1

/-- Operations that leave what they open add names to the innermost block at most. -/
theorem Balanced.grows {ops : List Op} (hb : Balanced ops) (h : History) :
    h.scope.Grows (ops.foldl History.note h).scope := by
  induction hb generalizing h with
  | nil => exact .refl _
  | @declare name ops _ ih =>
    refine Grows.trans ?_ (ih (h.note (.declare name)))
    cases hd : h.scope.declare name with
    | error e =>
      rw [History.note_declare_error hd]
      exact .refl _
    | ok r =>
      rw [History.note_declare_ok hd]
      exact grows_declare hd
  | resolve name _ ih => exact ih h
  | @block kind inner ops hinner _ ihinner ih =>
    rw [List.foldl_cons, List.foldl_append, List.foldl_cons]
    have hrest := ih ((inner.foldl History.note (h.note (.enter kind))).note .leave)
    rwa [scope_note_leave (ihinner (h.note (.enter kind)))] at hrest

/-- After any operations, a scope answers what its history says, and a block that is opened and left
again leaves the scope as it was, with the same slots and names. -/
theorem agrees_with_history (ops : List Op) :
    (History.ofOps ops).Agrees ∧
    ∀ (kind : BlockKind) (inner : List Op), Balanced inner →
      let before := (History.ofOps ops).scope
      let behind := (History.ofOps (ops ++ .enter kind :: (inner ++ [.leave]))).scope
      behind.liveSlots = before.liveSlots ∧ ∀ name, behind.slot? name = before.slot? name := by
  refine ⟨(History.recorded_ofOps ops).agrees, fun kind inner hb => ?_⟩
  have hleft : (History.ofOps (ops ++ .enter kind :: (inner ++ [.leave]))).scope =
      (History.ofOps ops).scope := by
    unfold History.ofOps
    rw [List.foldl_append, List.foldl_cons, List.foldl_append]
    exact scope_note_leave (hb.grows _)
  dsimp only
  rw [hleft]
  exact ⟨rfl, fun _ => rfl⟩

/-- A name that is declared again in a block inside of a loop: the block hides the first declaration,
and gives it back; the end of the loop releases both names of its body. -/
theorem agrees_with_history_shadowing :
    let ops : List Op := [.function, .declare 7, .enter .loop, .declare 8, .declare 9]
    let inner : List Op := [.declare 7, .enter .plain, .declare 8, .leave]
    (History.ofOps (ops ++ .enter .plain :: inner)).scope.slot? 7 = some 3 ∧
    Balanced inner ∧
    (History.ofOps (ops ++ .enter .plain :: (inner ++ [.leave]))).scope.slot? 7 = some 0 ∧
    History.LoopBody (History.ofOps ops).openings ⟨.loop, 1⟩ ∧
    (History.ofOps ops).scope.loopSlots? = some (3 - 1) := by
  intro ops inner
  have hb : Balanced inner := .declare 7 (.block .plain (.declare 8 .nil) .nil)
  have hbody : History.LoopBody (History.ofOps ops).openings ⟨.loop, 1⟩ :=
    ⟨[], [⟨.function, 0⟩], by decide, rfl, by simp⟩
  obtain ⟨hagrees, hblock⟩ := agrees_with_history ops
  exact ⟨by decide, hb, ((hblock .plain inner hb).2 7).trans (by decide), hbody,
    (hagrees.loopExit _ hbody).2⟩

end Scriptlet.Scope
