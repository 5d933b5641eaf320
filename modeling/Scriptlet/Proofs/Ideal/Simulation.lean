import Scriptlet.Proofs.Ideal.Matching

/-!
# Instructions do the same

Every action of an instruction matches its counterpart on ideal states (`Matches`).
-/

namespace Scriptlet.Ideal

variable {σ : Setting} {ρ : Names} {n : Nat}

/-! ## Lists in relation -/

theorem forall₂_set {α β : Type} {R : α → β → Prop} {l : List α} {l' : List β}
    (h : List.Forall₂ R l l') {a : α} {b : β} (hab : R a b) (i : Nat) :
    List.Forall₂ R (l.set i a) (l'.set i b) := by
  induction h generalizing i with
  | nil => exact .nil
  | cons h₁ h₂ ih =>
    cases i with
    | zero => exact .cons hab h₂
    | succ i => exact .cons h₁ (ih i)

theorem forall₂_dropLast {α β : Type} {R : α → β → Prop} {l : List α} {l' : List β}
    (h : List.Forall₂ R l l') : List.Forall₂ R l.dropLast l'.dropLast := by
  rw [List.dropLast_eq_take, List.dropLast_eq_take, h.length_eq]
  exact List.forall₂_take _ h

theorem forall₂_replicate {α β : Type} {R : α → β → Prop} {a : α} {b : β} (h : R a b) :
    ∀ k : Nat, List.Forall₂ R (List.replicate k a) (List.replicate k b)
  | 0 => .nil
  | k + 1 => .cons h (forall₂_replicate h k)

theorem forall₂_eraseIdx {α β : Type} {R : α → β → Prop} {l : List α} {l' : List β}
    (h : List.Forall₂ R l l') (i : Nat) : List.Forall₂ R (l.eraseIdx i) (l'.eraseIdx i) := by
  induction h generalizing i with
  | nil => exact .nil
  | cons h₁ h₂ ih =>
    cases i with
    | zero => exact h₂
    | succ i => exact .cons h₁ (ih i)

theorem forall₂_getLast? {α β : Type} {R : α → β → Prop} {l : List α} {l' : List β}
    (h : List.Forall₂ R l l') :
    (l = [] ∧ l' = []) ∨ ∃ a b, l.getLast? = some a ∧ l'.getLast? = some b ∧ R a b := by
  induction h with
  | nil => exact .inl ⟨rfl, rfl⟩
  | @cons a b l l' hab _ ih =>
    obtain ⟨rfl, rfl⟩ | ⟨c, d, hc, hd, hcd⟩ := ih
    · exact .inr ⟨a, b, rfl, rfl, hab⟩
    · exact .inr ⟨c, d, by simp [List.getLast?_cons, hc], by simp [List.getLast?_cons, hd], hcd⟩

/-! ## Locals -/

theorem matches_getLocal (slot : UInt8) :
    Matches σ ρ n (Exec.getLocal slot) (Act.getLocal slot) Done := by
  refine .get_bind fun m s hs => ?_
  rw [← Array.getElem?_toList]
  obtain ⟨h₁, h₂⟩ | ⟨v, w, h₁, h₂, hv⟩ := forall₂_getElem? hs.frame.locals slot.toNat
  · rw [h₁, h₂]
    exact .fault _
  · rw [h₁, h₂]
    exact matches_push hv

theorem FrameRel.storeLocal {f : Scriptlet.Frame} {g : Frame} (h : FrameRel ρ f g) (slot : Nat)
    {v : Value} {w : Val} (hv : ValRel ρ v w) :
    FrameRel ρ (Exec.storeLocal slot v f)
      { g with locals := Act.storeLocal slot w g.locals } := by
  refine ⟨h.operands, ?_⟩
  unfold Exec.storeLocal Act.storeLocal
  rw [← h.locals.length_eq, Array.size_eq_length_toList]
  dsimp only
  split
  · rw [Array.toList_setIfInBounds]
    exact forall₂_set h.locals hv slot
  · rw [Array.toList_push, Array.toList_append, Array.toList_replicate]
    exact List.rel_append (List.rel_append h.locals
      (forall₂_replicate (valRel_null ρ) _)) (.cons hv .nil)

theorem matches_setLocal (slot : UInt8) {v : Value} {w : Val} (hv : ValRel ρ v w) :
    Matches σ ρ n (Exec.setLocal slot v) (Act.setLocal slot w) Done := by
  have hstore : ∀ {ρ' : Names}, ρ.Le ρ' → Matches σ ρ' n
      (modify fun m => { m with frame := Exec.storeLocal slot.toNat v m.frame })
      (Act.setLocal slot w) Done := fun hle =>
    .modify (fun _ => rfl) (fun _ _ hs => hs.withFrame (hs.frame.storeLocal _ (hv.mono hle))) trivial
  rw [Exec.setLocal_eq]
  refine .get_left fun m s hs => ?_
  obtain ⟨h₁, -⟩ | ⟨old, old', h₁, -, hold⟩ := forall₂_getElem? hs.frame.locals slot.toNat
  · rw [Array.getElem?_toList] at h₁
    rw [h₁]
    exact .bind_after (hstore (.refl ρ)) fun _ _ _ hle _ => matches_retain (hv.mono hle)
  · rw [Array.getElem?_toList] at h₁
    rw [h₁]
    exact .bind_left (matches_retain hv) fun _ _ hle _ => .bind_after (hstore hle)
      fun _ _ _ hle' _ => matches_release (hold.mono (hle.trans hle'))

theorem matches_dropLocal :
    Matches σ ρ n Exec.dropLocal Act.dropLocal fun ρ v _ => ∃ w, ValRel ρ v w := by
  intro m s hs _
  have hl := hs.frame.locals
  unfold Exec.dropLocal Act.dropLocal
  rw [← Array.getLast?_toList]
  obtain ⟨h₁, h₂⟩ | ⟨v, w, h₁, h₂, hv⟩ := forall₂_getLast? hl
  · rw [h₁, h₂]
    exact ⟨rfl, ρ, hs⟩
  · rw [h₁]
    rw [h₂]
    refine ⟨by simp, ρ, .refl ρ, hs.withFrame ⟨hs.frame.operands, ?_⟩, w, hv⟩
    rw [Array.toList_pop]
    exact forall₂_dropLast hl

theorem matches_shrinkLocals : ∀ (ρ : Names) (k : Nat),
    Matches σ ρ n (Exec.shrinkLocals k) (Act.shrinkLocals k) Done
  | _, 0 => .pure trivial
  | _, k + 1 => .bind matches_dropLocal fun _ _ _ _ hv => by
    obtain ⟨w, hv⟩ := hv
    exact .bind_left (matches_release hv) fun ρ' _ _ _ => matches_shrinkLocals ρ' k

/-! ## Globals and constants -/

theorem matches_popString :
    Matches σ ρ n Exec.popString Act.popString fun _ a b => a = b := by
  refine .bind matches_pop fun ρ' v w hle hv => .get_bind fun m s hs => ?_
  rw [hs.string? hv, hv.typeName]
  cases s.world.string? w with
  | none => exact .fault _
  | some text => exact .pure rfl

theorem matches_getGlobal : Matches σ ρ n Exec.getGlobal Act.getGlobal Done := by
  refine .bind matches_popString fun ρ' name name' _ hname => ?_
  subst hname
  intro m s hs hsz
  rw [Exec.run_get_bind]
  obtain ⟨h₁, h₂⟩ | ⟨v, w, h₁, h₂, hv⟩ := hs.find?_globals name
  · rw [h₁]
    simp only [bind, EStateM.bind]
    rw [Act.run_onWorld_error (e := .undefinedGlobal name)
      (by simp only [World.getGlobal, h₂]; rfl)]
    exact ⟨rfl, ρ', hs⟩
  · rw [h₁]
    simp only [bind, EStateM.bind]
    rw [Act.run_onWorld_ok (a := w) (w := s.world) (by simp only [World.getGlobal, h₂]; rfl)]
    exact matches_push hv m s hs hsz

theorem Sim.setGlobal {m : Machine} {s : State} (hs : Sim σ ρ m s) (name : String) {v : Value}
    {w : Val} (hv : ValRel ρ v w) :
    Sim σ ρ { m with globals := m.globals.insert name v }
      { s with world := s.world.setGlobal name w } :=
  { hs with globals := forall₂_insertEntry hs.globals name hv }

theorem matches_setGlobal (name : String) {v : Value} {w : Val} (hv : ValRel ρ v w) :
    Matches σ ρ n (Exec.setGlobal name v) (Act.change fun u => .ok (u.setGlobal name w)) Done := by
  refine .bind_left (matches_retain hv) fun ρ' _ hle _ => .get_left fun m s hs => ?_
  have hset : Matches σ ρ' n (modify fun m => { m with globals := m.globals.insert name v })
      (Act.change fun u => .ok (u.setGlobal name w)) Done := fun m s hs _ =>
    ⟨by simp, ρ', .refl ρ', hs.setGlobal name (hv.mono hle), trivial⟩
  refine .bind_after hset fun ρ₂ _ _ hle₂ _ => ?_
  obtain ⟨h₁, -⟩ | ⟨old, old', h₁, -, hold⟩ := hs.find?_globals name
  · rw [h₁]
    exact .pure trivial
  · rw [h₁]
    exact matches_release (hold.mono hle₂)

/-- A constant is named by its symbol, from its first use on. -/
theorem matches_constant (c : Symbol) :
    Matches σ ρ 1 (Exec.constant c) (pure (Val.ref (.literal c))) fun ρ x v =>
      ValRel ρ (.object x) v := by
  intro m s hs hsz
  unfold Exec.constant
  rw [Exec.run_get_bind]
  cases hx : m.constants.lookup c with
  | some x => exact ⟨by simp, ρ, .refl ρ, hs, .ref ((hs.constants c x).2 hx)⟩
  | none =>
    -- the first use makes the string, so its symbol gets a name that it did not have
    have hfresh : ∀ x, ¬ ρ (.literal c) x := fun x hρ => by
      rw [hs.constants, hx] at hρ
      cases hρ
    let o := Object.string (m.bytecode.text c)
    let x := (m.heap.allocate o).1
    have hext := hs.extend (o := o) (by omega) (.string _) hfresh s.world
      (by rw [hs.text]; rfl) (fun _ _ _ => rfl) rfl ((c, x) :: m.constants) fun d y => by
        rw [List.lookup_cons]
        by_cases hd : d = c
        · subst hd
          simp only [beq_self_eq_true, Names.add, true_and]
          exact ⟨fun h => by rw [h.resolve_left (hfresh y)], fun h => .inr (Option.some.inj h).symm⟩
        · simp only [beq_eq_false_iff_ne.2 hd, ← hs.constants]
          exact ⟨fun h => h.resolve_right fun h => hd (Ref.literal.inj h.1), .inl⟩
    obtain ⟨h', hr, hc⟩ := Heap.recounts_retain (h := (m.heap.allocate o).2) (v := .object x)
      fun y hy => by
        cases hy
        rw [Heap.contains, Heap.find?_allocate_eq hs.wellFormed (by omega), if_pos rfl]
        rfl
    dsimp only
    rw [Exec.run_get_bind, Exec.run_bind_ok (Exec.run_allocate _ m),
      Exec.run_bind_ok (Exec.run_onHeap_ok hr)]
    refine ⟨?_, _, ρ.le_add _ _, hext.recount hc, .ref (.inr ⟨rfl, rfl⟩)⟩
    rw [show Heap.slots _ = h'.slots from rfl, hc.slots]
    exact Heap.size_allocate_le m.heap o

/-! ## Elements and fields -/

theorem matches_getElement : Matches σ ρ n Exec.getElement Act.getElement Done :=
  .bind matches_pop fun _ _ _ _ hi => .bind matches_pop fun _ _ _ hle ht =>
    .bind (matches_look fun _ _ hs => hs.elementAt ht (hi.mono hle)) fun _ _ _ _ hv =>
      matches_push hv

/-- Storing a value at corresponding places. -/
theorem matches_heapSetElement {x : Handle} {r : Ref} (hρ : ρ r x) (i : Nat) {v : Value} {w : Val}
    (hv : ValRel ρ v w) :
    Matches σ ρ n (Exec.onHeap (Heap.setElement x i v)) (Act.change fun u => u.store (r, i) w)
      Done := by
  intro m s hs _
  obtain ⟨o, o', ho, ho', hr⟩ := hs.object? hρ
  rw [Exec.run_onHeap]
  unfold Heap.setElement Act.change
  rw [ho]
  dsimp only
  obtain ⟨h₁, h₂⟩ | ⟨vs, ws, h₁, h₂, hvs⟩ := hr.elements?
  · rw [Act.run_onWorld_error (e := .typeMismatch "[]=" o'.typeName w.face.typeName)
      (by simp only [World.store, ho', h₂]; rfl), h₁, hr.typeName, hv.typeName]
    exact ⟨rfl, ρ, hs⟩
  · rw [h₁]
    dsimp only
    have hlen := size_eq_of_forall₂ hvs
    cases hold : vs[i]? with
    | none =>
      have hi : ¬ i < ws.size := by
        rw [Array.getElem?_eq_none_iff] at hold
        omega
      rw [Act.run_onWorld_error (e := .indexOutOfBounds i ws.size)
        (by simp only [World.store, ho', h₂, if_neg hi]; rfl), hlen]
      exact ⟨rfl, ρ, hs⟩
    | some old =>
      have hi : i < ws.size := by
        have := (Array.getElem?_eq_some_iff.1 hold).1
        omega
      have hch := hs.change hρ ho ho' h₂ (hr.mapElements
        (f := fun vs => vs.setIfInBounds i v) (g := fun ws => ws.setIfInBounds i w)
        fun as bs hab => by
          rw [Array.toList_setIfInBounds, Array.toList_setIfInBounds]
          exact forall₂_set hab hv i)
      obtain ⟨old', hold'⟩ : ∃ old', ValRel ρ old old' := by
        obtain ⟨h₃, -⟩ | ⟨a, b, h₃, -, hab⟩ := forall₂_getElem? hvs i
        · rw [Array.getElem?_toList, hold] at h₃
          cases h₃
        · rw [Array.getElem?_toList, hold] at h₃
          cases h₃
          exact ⟨b, hab⟩
      -- the world does not count, so moving the count is seen on one side only
      obtain ⟨h₃, hr₃, hc₃⟩ := Heap.recounts_retain (hch.contains hv)
      obtain ⟨h₄, hr₄, hc₄⟩ := Heap.recounts_release ((hch.recount hc₃).contains hold')
      rw [Act.run_onWorld_ok (by simp only [World.store, ho', h₂, if_pos hi]; rfl)]
      have hrun : (do Heap.retain v; Heap.release old : Heap.Action Unit)
          (m.heap.changeObject x (Object.mapElements fun vs => vs.setIfInBounds i v)) =
          .ok () h₄ := by
        simp only [bind, EStateM.bind, hr₃, hr₄]
      rw [Heap.changeObject] at hrun
      simp only [hrun]
      refine ⟨?_, ρ, .refl ρ, hch.recount (hc₃.trans hc₄), trivial⟩
      have hsz := (hc₃.trans hc₄).slots.trans (Heap.size_modifyCell m.heap x _)
      simp only [hsz]
      omega

/-- A store to the place that a look gives. -/
theorem matches_storeAt {f : Machine → Except Fault (Handle × Nat)}
    {g : World → Except Fault (Ref × Nat)} {v : Value} {w : Val} (hv : ValRel ρ v w)
    (h : ∀ m s, Sim σ ρ m s → ExceptRel (Sim.PlaceRel ρ) (f m) (g s.world)) :
    Matches σ ρ n (do let (x, i) ← Exec.look f; Exec.onHeap (Heap.setElement x i v))
      (Act.change fun u => match g u with
        | .error e => .error e
        | .ok place => u.store place w) Done := by
  intro m s hs hsz
  have hp := h m s hs
  rw [Exec.run_bind]
  unfold Exec.look Act.change
  cases hf : f m with
  | error e =>
    cases hg : g s.world with
    | ok q => rw [hf, hg] at hp; exact hp.elim
    | error e' =>
      rw [hf, hg] at hp
      rw [Act.run_onWorld_error (e := e') (by simp only [hg]; rfl)]
      exact ⟨hp, ρ, hs⟩
  | ok p =>
    cases hg : g s.world with
    | error e' => rw [hf, hg] at hp; exact hp.elim
    | ok q =>
      rw [hf, hg] at hp
      obtain ⟨x, i⟩ := p
      obtain ⟨r, j⟩ := q
      obtain ⟨hρ, hij⟩ := hp
      dsimp only at hρ hij
      subst hij
      have := matches_heapSetElement hρ i hv m s hs hsz
      unfold Act.change at this
      rw [Act.onWorld_congr (g := fun u => (u.store (r, i) w).map fun u => ((), u))
        (by simp only [hg])]
      exact this

theorem matches_setElement : Matches σ ρ n Exec.setElement Act.setElement Done :=
  .bind matches_pop fun _ _ _ _ hi => .bind matches_pop fun _ _ _ hle ht =>
    .bind matches_pop fun _ _ _ hle' hv => matches_storeAt hv fun _ _ hs =>
      hs.elementPlace (ht.mono hle') (hi.mono (hle.trans hle'))

theorem matches_setField (name : Symbol) :
    Matches σ ρ n (Exec.setField name) (Act.setField name) Done :=
  .bind matches_pop fun _ _ _ _ ht => .bind matches_pop fun _ _ _ hle hv =>
    matches_storeAt hv fun _ _ hs => hs.fieldPlace (ht.mono hle) name

/-- The methods of native structures take their arguments, and do not collect. -/
theorem routine_of_nativeMethod? {w : World} {v : Val} {name : String} {f : Native}
    (h : w.nativeMethod? v name = some f) : f.routine ≠ .leave ∧ f.routine ≠ .gc := by
  have hall : ∀ e ∈ registry.entries, ∀ p ∈ e.2.entries,
      p.2.routine ≠ .leave ∧ p.2.routine ≠ .gc := by decide
  unfold World.nativeMethod? at h
  split at h
  · obtain ⟨e, he, hf⟩ := Option.bind_eq_some_iff.1 h
    obtain ⟨l₁, l₂, hl, -⟩ := List.lookup_eq_some_iff.1 hf
    refine hall e (List.mem_of_getElem? he) (name, f) ?_
    rw [hl]
    simp
  · cases h

theorem matches_fieldValue {v : Value} {w : Val} (hv : ValRel ρ v w) (name : Symbol) :
    Matches σ ρ 1 (Exec.fieldValue v name) (Act.onWorld fun u => u.fieldValue w name) ValRel := by
  intro m s hs hsz
  unfold Exec.fieldValue
  rw [Exec.run_get_bind, hs.text, hs.nativeMethod? hv]
  cases hm : s.world.nativeMethod? w (s.world.tables.text name) with
  | none =>
    rw [Act.onWorld_congr (g := fun u => u.still (u.recordField w name))
      (by simp only [World.fieldValue, hm])]
    exact matches_look (fun _ _ hs => hs.recordField hv name) m s hs hsz
  | some method =>
    have hne := (routine_of_nativeMethod? hm).1
    rw [Act.onWorld_congr (g := fun u => .ok (u.alloc (.function (.native method) w.ref?)))
      (by simp only [World.fieldValue, hm])]
    refine Matches.bind_left (matches_retain hv) (fun ρ' _ hle _ => ?_) m s hs hsz
    have hobj : ObjRel ρ' (.function (.native method) v.handle?)
        (.function (.native method) w.ref?) := by
      have hc : ∀ f, Callee.native method = .native f → f.routine ≠ .leave := fun f hf => by
        cases hf
        exact hne
      cases hv.mono hle with
      | plain h _ => rw [h]; exact .function hc
      | ref h => exact .bound hc h
    exact .bind_after (matches_allocate hobj) fun _ _ _ _ hx => .pure hx

theorem matches_getField (name : Symbol) :
    Matches σ ρ 1 (Exec.getField name) (Act.getField name) Done :=
  .bind matches_pop fun _ _ _ _ ht => .bind_last (matches_fieldValue ht name) fun _ _ _ _ hv =>
    matches_push hv

/-! ## New objects -/

theorem matches_createArray (count : Nat) :
    Matches σ ρ 1 (Exec.createArray count) (Act.createArray count) Done :=
  .bind (matches_popN count) fun _ _ _ _ hvs => .bind_left (matches_retainAll hvs.1)
    fun _ _ hle _ => matches_pushNew (.array (forall₂_mono hle hvs.1))

theorem matches_construct (type : UInt32) (args : Nat) :
    Matches σ ρ 1 (Exec.construct type args) (Act.construct σ type args) Done := by
  refine .get_left fun m s hs => ?_
  rw [hs.bytecode]
  unfold Act.construct
  cases σ.bytecode.struct? type with
  | none => exact .fault _
  | some entry =>
    dsimp only
    rw [List.length_map]
    split
    · exact .fault _
    · refine .bind (matches_popN args) fun _ vs ws _ hvs => .bind_left (matches_retainAll hvs.1)
        fun ρ' _ hle _ => matches_pushNew (.record type ?_)
      rw [hvs.2]
      refine List.rel_append (forall₂_mono hle hvs.1) (List.forall₂_drop args ?_)
      rw [List.forall₂_map_left_iff, List.forall₂_map_right_iff, List.forall₂_same]
      exact fun f _ => .plain (handle?_default f.2) fun g hg => by
        cases f with | mk _ a => cases a <;> cases hg

/-! ## Operators -/

theorem matches_ofExcept {α β : Type} {r : Except Fault α} {q : Except Fault β}
    {V : Names → α → β → Prop} (h : ExceptRel (V ρ) r q) :
    Matches σ ρ n (Exec.ofExcept r) (Act.onWorld fun w => w.still q) V := by
  intro m s hs _
  cases r with
  | ok a =>
    cases q with
    | ok b => exact ⟨by simp, ρ, .refl ρ, hs, h⟩
    | error e => exact h.elim
  | error e =>
    cases q with
    | ok b => exact h.elim
    | error e' => exact ⟨h, ρ, hs⟩

theorem valRel_bool (ρ : Names) (b : Bool) : ValRel ρ (.bool b) (.plain (.bool b)) :=
  .plain rfl fun f hf => by cases hf

theorem valRel_int (ρ : Names) (k : Int32) : ValRel ρ (.int k) (.plain (.int k)) :=
  .plain rfl fun f hf => by cases hf

theorem Exec.get_ofExcept {α : Type} (f : Machine → Except Fault α) :
    (do Exec.ofExcept (f (← get))) = Exec.look f := by
  funext m
  rw [Exec.run_get_bind]
  unfold Exec.look
  cases f m <;> rfl

theorem matches_numeric (op : BinaryOp) {a b : Value} {a' b' : Val} (ha : ValRel ρ a a')
    (hb : ValRel ρ b b') :
    Matches σ ρ n (do Exec.ofExcept ((← get).numeric op a b))
      (Act.onWorld fun w => w.still (w.numeric op a' b')) ValRel := by
  rw [Exec.get_ofExcept fun m => m.numeric op a b]
  exact matches_look fun _ _ hs => hs.numeric op ha hb

theorem matches_comparison (op : BinaryOp) {a b : Value} {a' b' : Val} (ha : ValRel ρ a a')
    (hb : ValRel ρ b b') :
    Matches σ ρ n
      (do let o ← Exec.ofExcept ((← get).order op a b); return .bool (Machine.holds op o))
      (Act.onWorld fun w => w.still
        ((w.order op a' b').map fun o => .plain (.bool (Machine.holds op o)))) ValRel := by
  intro m s hs _
  rw [Exec.run_get_bind, hs.order op ha hb]
  cases ho : s.world.order op a' b' with
  | ok o =>
    rw [Act.run_onWorld_ok (by rw [ho]; rfl)]
    exact ⟨by simp, ρ, .refl ρ, hs, valRel_bool ρ _⟩
  | error e =>
    rw [Act.run_onWorld_error (by rw [ho]; rfl)]
    exact ⟨rfl, ρ, hs⟩

theorem matches_binaryResult (op : BinaryOp) {a b : Value} {a' b' : Val} (ha : ValRel ρ a a')
    (hb : ValRel ρ b b') :
    Matches σ ρ 1 (Exec.binaryResult op a b) (Act.onWorld fun w => w.binary op a' b') ValRel := by
  cases op with
  | and =>
    intro m s hs _
    refine ⟨by simp, ρ, .refl ρ, hs, ?_⟩
    rw [ha.isTruthy, hb.isTruthy]
    exact valRel_bool ρ _
  | or =>
    intro m s hs _
    refine ⟨by simp, ρ, .refl ρ, hs, ?_⟩
    rw [ha.isTruthy, hb.isTruthy]
    exact valRel_bool ρ _
  | equal =>
    intro m s hs _
    refine ⟨by simp, ρ, .refl ρ, hs, ?_⟩
    rw [hs.equal ha hb]
    exact valRel_bool ρ _
  | notEqual =>
    intro m s hs _
    refine ⟨by simp, ρ, .refl ρ, hs, ?_⟩
    rw [hs.equal ha hb]
    exact valRel_bool ρ _
  | less => exact matches_comparison .less ha hb
  | greater => exact matches_comparison .greater ha hb
  | lessEqual => exact matches_comparison .lessEqual ha hb
  | greaterEqual => exact matches_comparison .greaterEqual ha hb
  | add =>
    intro m s hs hsz
    simp only [Exec.binaryResult]
    rw [Exec.run_get_bind, hs.string? ha, hs.string? hb, hs.display ha, hs.display hb]
    split
    · next hstr =>
      rw [Act.onWorld_congr
        (g := fun u => .ok (u.alloc (.string (s.world.display a' ++ s.world.display b'))))
        (by simp only [World.binary, hstr, if_true])]
      exact Matches.bind_after (matches_allocate (.string _)) (fun _ _ _ _ hx => .pure hx) m s hs hsz
    · next hstr =>
      rw [Act.onWorld_congr (g := fun u => u.still (u.numeric .add a' b'))
        (by simp only [World.binary, hstr]; rfl)]
      exact matches_numeric .add ha hb m s hs hsz
  | _ => exact matches_numeric _ ha hb

theorem matches_binary (op : BinaryOp) : Matches σ ρ 1 (Exec.binary op) (Act.binary op) Done :=
  .bind matches_pop fun _ _ _ _ hb => .bind matches_pop fun _ _ _ hle ha =>
    .bind_last (matches_binaryResult op ha (hb.mono hle)) fun _ _ _ _ hv => matches_push hv

theorem matches_unaryResult (op : UnaryOp) {v : Value} {w : Val} (hv : ValRel ρ v w) :
    Matches σ ρ n (Exec.unaryResult op v) (Act.onWorld fun u => u.still (u.unary op w)) ValRel := by
  intro m s hs _
  have hk := hs.kindName hv
  have hplain : ∀ {u : Value}, u.handle? = none → (∀ f, u ≠ .native f) →
      Related σ ρ (m.heap.slots.size + n) ValRel (.ok u m) (.ok (Val.plain u) s) :=
    fun h hn => ⟨by simp, ρ, .refl ρ, hs, .plain h fun f hf => (hn f hf).elim⟩
  cases hv with
  | ref h =>
    cases op with
    | not => exact hplain rfl fun f hf => by cases hf
    | negate => exact ⟨by rw [hk], ρ, hs⟩
    | complement => exact ⟨by rw [hk], ρ, hs⟩
  | plain h hn =>
    cases op with
    | not => exact hplain rfl fun f hf => by cases hf
    | negate =>
      cases v <;> first
        | exact hplain rfl fun f hf => by cases hf
        | exact ⟨by rw [hk], ρ, hs⟩
    | complement =>
      cases v <;> first
        | exact hplain rfl fun f hf => by cases hf
        | exact ⟨by rw [hk], ρ, hs⟩

theorem matches_unary (op : UnaryOp) : Matches σ ρ n (Exec.unary op) (Act.unary op) Done :=
  .bind matches_pop fun _ _ _ _ hv => .bind (matches_unaryResult op hv) fun _ _ _ _ hw =>
    matches_push hw

end Scriptlet.Ideal
