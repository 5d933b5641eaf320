import Scriptlet.Proofs.Ideal.Names

/-!
# Actions that do the same

`Matches σ ρ n act act' V`: from a machine that stands for an ideal state under `ρ`, both actions
fault alike, or both succeed with values in relation `V`; the machines behind them correspond under
more names. The action of the machine makes at most `n` new slots, and there is room for them.

What an action does to counts has no counterpart (`Matches.bind_left`). The primitive actions come
first, then variables, elements and fields, operators and native functions.
-/

namespace Scriptlet.Ideal

variable {α β γ δ : Type} {σ : Setting}

/-- The outcomes of two actions correspond. -/
def Related (σ : Setting) (ρ : Names) (size : Nat) (V : Names → α → β → Prop) :
    EStateM.Result Fault Machine α → EStateM.Result Fault State β → Prop
  | .ok a m, .ok b s => m.heap.slots.size ≤ size ∧ ∃ ρ', ρ.Le ρ' ∧ Sim σ ρ' m s ∧ V ρ' a b
  | .error f m, .error g s => f = g ∧ ∃ ρ', Sim σ ρ' m s
  | _, _ => False

/-- Two actions do the same (module doc). -/
def Matches (σ : Setting) (ρ : Names) (n : Nat) (act : Exec α) (act' : Act β)
    (V : Names → α → β → Prop) : Prop :=
  ∀ m s, Sim σ ρ m s → m.heap.slots.size + n ≤ 2 ^ 32 →
    Related σ ρ (m.heap.slots.size + n) V (act m) (act' s)

/-- No value to be related. -/
abbrev Done : Names → α → β → Prop := fun _ _ _ => True

namespace Matches

variable {ρ : Names} {n k j : Nat} {V : Names → α → β → Prop} {W : Names → γ → δ → Prop}

theorem bind_add {act : Exec α} {act' : Act β} {f : α → Exec γ} {g : β → Act δ}
    (ha : Matches σ ρ j act act' V)
    (hk : ∀ ρ' a b, ρ.Le ρ' → V ρ' a b → Matches σ ρ' k (f a) (g b) W)
    (hn : j + k = n) : Matches σ ρ n (act >>= f) (act' >>= g) W := by
  intro m s hs hsz
  have h := ha m s hs (by omega)
  rw [Exec.run_bind]
  simp only [Bind.bind, EStateM.bind]
  revert h
  cases act m with
  | ok a m' =>
    cases act' s with
    | ok b s' =>
      rintro ⟨hsz', ρ', hle, hs', hv⟩
      have h₂ := hk ρ' a b hle hv m' s' hs' (by omega)
      revert h₂
      dsimp only
      cases f a m' with
      | ok c m₂ =>
        cases g b s' with
        | ok d s₂ =>
          rintro ⟨hsz₂, ρ₂, hle₂, hs₂, hw⟩
          exact ⟨by omega, ρ₂, hle.trans hle₂, hs₂, hw⟩
        | error e s₂ => exact id
      | error e m₂ =>
        cases g b s' with
        | ok d s₂ => exact id
        | error e' s₂ => exact id
    | error e s' => exact False.elim
  | error e m' =>
    cases act' s with
    | ok b s' => exact False.elim
    | error e' s' => exact id

theorem bind {act : Exec α} {act' : Act β} {f : α → Exec γ} {g : β → Act δ}
    (ha : Matches σ ρ 0 act act' V)
    (hk : ∀ ρ' a b, ρ.Le ρ' → V ρ' a b → Matches σ ρ' n (f a) (g b) W) :
    Matches σ ρ n (act >>= f) (act' >>= g) W :=
  ha.bind_add hk (Nat.zero_add n)

/-- The first action may make new slots, the others do not. -/
theorem bind_last {act : Exec α} {act' : Act β} {f : α → Exec γ} {g : β → Act δ}
    (ha : Matches σ ρ n act act' V)
    (hk : ∀ ρ' a b, ρ.Le ρ' → V ρ' a b → Matches σ ρ' 0 (f a) (g b) W) :
    Matches σ ρ n (act >>= f) (act' >>= g) W :=
  ha.bind_add hk (Nat.add_zero n)

theorem pure {a : α} {b : β} (h : V ρ a b) : Matches σ ρ n (pure a) (pure b) V :=
  fun _ _ hs _ => ⟨by omega, ρ, .refl ρ, hs, h⟩

theorem fault (f : Fault) : Matches σ ρ n (Exec.fault f) (Act.fault f) V :=
  fun _ _ hs _ => ⟨rfl, ρ, hs⟩

/-- An action without a counterpart. -/
theorem bind_left {act : Exec α} {f : α → Exec γ} {act' : Act δ}
    {V : Names → α → Unit → Prop} (ha : Matches σ ρ 0 act (Pure.pure ()) V)
    (hk : ∀ ρ' a, ρ.Le ρ' → V ρ' a () → Matches σ ρ' n (f a) act' W) :
    Matches σ ρ n (act >>= f) act' W :=
  ha.bind (g := fun _ => act') fun ρ' a _ hle hv => hk ρ' a hle hv

/-- An action without a counterpart behind one that has one. -/
theorem bind_after {act : Exec α} {act' : Act β} {f : α → Exec γ} {W : Names → γ → β → Prop}
    (ha : Matches σ ρ n act act' V)
    (hk : ∀ ρ' a b, ρ.Le ρ' → V ρ' a b → Matches σ ρ' 0 (f a) (Pure.pure b) W) :
    Matches σ ρ n (act >>= f) act' W := by
  rw [← bind_pure act']
  exact ha.bind_last hk

theorem get_bind {f : Machine → Exec γ} {g : State → Act δ}
    (h : ∀ m s, Sim σ ρ m s → Matches σ ρ n (f m) (g s) W) :
    Matches σ ρ n (get >>= f) (get >>= g) W :=
  fun m s hs hsz => h m s hs m s hs hsz

theorem get_left {f : Machine → Exec γ} {act' : Act δ}
    (h : ∀ m s, Sim σ ρ m s → Matches σ ρ n (f m) act' W) : Matches σ ρ n (get >>= f) act' W :=
  fun m s hs hsz => h m s hs m s hs hsz

/-- A change of both states that keeps them related. -/
theorem modify {f : Machine → Machine} {g : State → State} {V : Names → Unit → Unit → Prop}
    (hsz : ∀ m, (f m).heap.slots.size = m.heap.slots.size)
    (h : ∀ m s, Sim σ ρ m s → Sim σ ρ (f m) (g s)) (hv : V ρ () ()) :
    Matches σ ρ n (modify f) (modify g) V :=
  fun m s hs _ => ⟨by rw [hsz]; omega, ρ, .refl ρ, h m s hs, hv⟩

end Matches

namespace Sim

variable {ρ : Names} {m : Machine} {s : State}

theorem withFrame (hs : Sim σ ρ m s) {f : Scriptlet.Frame} {g : Frame} (h : FrameRel ρ f g) :
    Sim σ ρ { m with frame := f } { s with frame := g } :=
  { hs with frame := h }

theorem withPc (hs : Sim σ ρ m s) (pc : Nat) : Sim σ ρ { m with pc } { s with pc } :=
  { hs with pc := rfl }

theorem withStatus (hs : Sim σ ρ m s) (status : Status) :
    Sim σ ρ { m with status } { s with status } :=
  { hs with status := rfl }

/-- What is counted makes no difference. -/
theorem recount (hs : Sim σ ρ m s) {h : Heap} (hr : m.heap.Recounts h) :
    Sim σ ρ { m with heap := h } s :=
  { hs with
    wellFormed := hr.wellFormed hs.wellFormed
    objects := fun r x hρ => by
      obtain ⟨o, o', ho, ho', h⟩ := hs.objects r x hρ
      exact ⟨o, o', (hr.object? x).trans ho, ho', h⟩ }

theorem contains (hs : Sim σ ρ m s) {v : Value} {w : Val} (h : ValRel ρ v w) (x : Handle)
    (hx : v = .object x) : m.heap.contains x = true := by
  subst hx
  cases h with
  | plain hv _ => cases hv
  | ref hρ =>
    obtain ⟨o, -, ho, -⟩ := hs.objects _ x hρ
    exact Heap.contains_of_object? ho

theorem contains_of_forall₂ (hs : Sim σ ρ m s) {vs : List Value} {ws : List Val}
    (h : List.Forall₂ (ValRel ρ) vs ws) (x : Handle) (hx : Value.object x ∈ vs) :
    m.heap.contains x = true := by
  induction h with
  | nil => cases hx
  | cons hv _ ih =>
    rcases List.mem_cons.1 hx with rfl | hx
    · exact hs.contains hv x rfl
    · exact ih hx

end Sim

/-! ## Primitive actions -/

theorem Act.onWorld_congr {f g : World → Except Fault (α × World)} {s : State}
    (h : f s.world = g s.world) : Act.onWorld f s = Act.onWorld g s := by
  simp only [Act.onWorld, h]

section primitive

variable {ρ : Names} {n : Nat}

theorem matches_push {v : Value} {w : Val} (h : ValRel ρ v w) :
    Matches σ ρ n (Exec.push v) (Act.push w) Done :=
  .modify (fun _ => rfl) (fun _ _ hs => hs.withFrame ⟨.cons h hs.frame.operands, hs.frame.locals⟩)
    trivial

theorem matches_pop : Matches σ ρ n Exec.pop Act.pop ValRel := by
  intro m s hs _
  have hf := hs.frame
  unfold Exec.pop Act.pop
  cases ho : m.frame.operands with
  | nil =>
    have := hf.operands
    rw [ho] at this
    rw [List.forall₂_nil_left_iff.1 this]
    exact ⟨rfl, ρ, hs⟩
  | cons v vs =>
    have := hf.operands
    rw [ho] at this
    obtain ⟨w, ws, hv, hvs, hw⟩ := List.forall₂_cons_left_iff.1 this
    rw [hw]
    exact ⟨by simp, ρ, .refl ρ, hs.withFrame ⟨hvs, hf.locals⟩, hv⟩

theorem matches_popN (count : Nat) :
    Matches σ ρ n (Exec.popN count) (Act.popN count) fun ρ vs ws =>
      List.Forall₂ (ValRel ρ) vs ws ∧ ws.length = count := by
  intro m s hs _
  have hf := hs.frame
  unfold Exec.popN Act.popN
  dsimp only
  rw [hf.operands.length_eq]
  split
  · exact ⟨rfl, ρ, hs⟩
  · refine ⟨by simp, ρ, .refl ρ, hs.withFrame ⟨?_, hf.locals⟩, ?_, ?_⟩
    · exact List.forall₂_drop count hf.operands
    · exact List.rel_reverse (List.forall₂_take count hf.operands)
    · simp only [List.length_reverse, List.length_take]
      omega

theorem matches_recount {act : Heap.Action Unit}
    (h : ∀ m s, Sim σ ρ m s → ∃ h', act m.heap = .ok () h' ∧ m.heap.Recounts h') :
    Matches σ ρ n (Exec.onHeap act) (pure ()) Done := by
  intro m s hs _
  obtain ⟨h', hr, hc⟩ := h m s hs
  rw [Exec.run_onHeap_ok hr]
  exact ⟨by simp [hc.slots], ρ, .refl ρ, hs.recount hc, trivial⟩

theorem matches_retain {v : Value} {w : Val} (h : ValRel ρ v w) :
    Matches σ ρ n (Exec.onHeap (Heap.retain v)) (pure ()) Done :=
  matches_recount fun _ _ hs => Heap.recounts_retain (hs.contains h)

theorem matches_release {v : Value} {w : Val} (h : ValRel ρ v w) :
    Matches σ ρ n (Exec.onHeap (Heap.release v)) (pure ()) Done :=
  matches_recount fun _ _ hs => Heap.recounts_release (hs.contains h)

theorem matches_retainAll {vs : List Value} {ws : List Val} (h : List.Forall₂ (ValRel ρ) vs ws) :
    Matches σ ρ n (Exec.onHeap (Heap.retainAll vs)) (pure ()) Done :=
  matches_recount fun _ _ hs => Heap.recounts_retainAll (hs.contains_of_forall₂ h)

theorem matches_releaseAll {vs : List Value} {ws : List Val} (h : List.Forall₂ (ValRel ρ) vs ws) :
    Matches σ ρ n (Exec.onHeap (Heap.releaseAll vs)) (pure ()) Done :=
  matches_recount fun _ _ hs => Heap.recounts_releaseAll (hs.contains_of_forall₂ h)

/-- A look at the machine, and the same look at the world. -/
theorem matches_look {α β : Type} {f : Machine → Except Fault α} {g : World → Except Fault β}
    {V : Names → α → β → Prop}
    (h : ∀ m s, Sim σ ρ m s → ExceptRel (V ρ) (f m) (g s.world)) :
    Matches σ ρ n (Exec.look f) (Act.onWorld fun w => w.still (g w)) V := by
  intro m s hs _
  have := h m s hs
  cases hf : f m with
  | ok a =>
    cases hg : g s.world with
    | ok b =>
      rw [hf, hg] at this
      rw [Act.run_onWorld_ok (show World.still s.world (g s.world) = .ok (b, s.world) by rw [hg]; rfl)]
      simp only [Exec.look, hf]
      exact ⟨by simp, ρ, .refl ρ, hs, this⟩
    | error e => rw [hf, hg] at this; exact this.elim
  | error e =>
    cases hg : g s.world with
    | ok b => rw [hf, hg] at this; exact this.elim
    | error e' =>
      rw [hf, hg] at this
      rw [Act.run_onWorld_error (show World.still s.world (g s.world) = .error e' by rw [hg]; rfl)]
      simp only [Exec.look, hf]
      exact ⟨this, ρ, hs⟩

end primitive

/-! ## New objects and changes of objects -/

/-- One more name. -/
def Names.add (ρ : Names) (r : Ref) (x : Handle) : Names := fun q y => ρ q y ∨ (q = r ∧ y = x)

theorem Names.le_add (ρ : Names) (r : Ref) (x : Handle) : ρ.Le (ρ.add r x) := fun _ _ h => .inl h

namespace World

theorem object?_alloc_of_object? {w : World} {o : Obj} {r : Ref} {o' : Obj}
    (h : w.object? r = some o') : (w.alloc o).2.object? r = some o' := by
  cases r with
  | literal c => exact h
  | object n =>
    simp only [World.object?, alloc] at h ⊢
    have hn := (Array.getElem?_eq_some_iff.1 h).1
    rw [Array.getElem?_push_lt hn, ← Array.getElem?_eq_getElem hn, h]

theorem object?_alloc_new (w : World) (o : Obj) :
    (w.alloc o).2.object? (.object w.objects.size) = some o :=
  Array.getElem?_push_size

theorem object?_size (w : World) : w.object? (.object w.objects.size) = none := by
  simp [World.object?]

theorem object?_change {w : World} {r : Ref} {o : Obj} (h : w.object? r = some o)
    {vs : Array Val} (he : o.elements? = some vs) (f : Obj → Obj) (q : Ref) :
    (w.change r f).object? q = if q = r then some (f o) else w.object? q := by
  cases r with
  | literal c =>
    cases h
    cases he
  | object n =>
    cases q with
    | literal c => rfl
    | object k =>
      simp only [World.object?, change, Array.getElem?_modify, Ref.object.injEq] at h ⊢
      by_cases hk : n = k
      · subst hk
        simp [h]
      · rw [if_neg hk, if_neg (Ne.symm hk)]

theorem change_eq (w : World) (r : Ref) (f : Obj → Obj) :
    w.change r f = { w with objects := (w.change r f).objects } := by
  cases r <;> rfl

end World

namespace Sim

variable {ρ : Names} {m : Machine} {s : State}

/-- A new object on both sides, under a new name. -/
theorem extend (hs : Sim σ ρ m s) (hsz : m.heap.slots.size < 2 ^ 32) {o : Object} {o' : Obj}
    (ho : ObjRel ρ o o') {r : Ref} (hr : ∀ x, ¬ ρ r x) (w : World) (hw : w.object? r = some o')
    (hold : ∀ q y, ρ q y → w.object? q = s.world.object? q)
    (hsame : w = { s.world with objects := w.objects }) (constants : List (Symbol × Handle))
    (hc : ∀ c y, ρ.add r (m.heap.allocate o).1 (.literal c) y ↔ constants.lookup c = some y) :
    Sim σ (ρ.add r (m.heap.allocate o).1)
      { m with heap := (m.heap.allocate o).2, constants } { s with world := w } := by
  have hle := ρ.le_add r (m.heap.allocate o).1
  have hnew : ∀ q, ¬ ρ q (m.heap.allocate o).1 := fun q hq => by
    obtain ⟨o₁, -, ho₁, -⟩ := hs.objects q _ hq
    obtain ⟨k, hk⟩ := Heap.object?_eq_some_iff.1 ho₁
    rw [Heap.find?_new hs.wellFormed hsz o] at hk
    cases hk
  have hobj : ∀ y, (m.heap.allocate o).2.object? y =
      if y = (m.heap.allocate o).1 then some o else m.heap.object? y := fun y => by
    rw [Heap.object?, Heap.find?_allocate_eq hs.wellFormed hsz o]
    split <;> rfl
  constructor
  · exact hs.bytecode
  · exact hs.limit
  · exact hs.wellFormed.allocate hsz o
  · rintro q x y (hx | ⟨rfl, rfl⟩) (hy | ⟨hq, rfl⟩)
    · exact hs.left q x y hx hy
    · subst hq
      exact (hr x hx).elim
    · exact (hr y hy).elim
    · rfl
  · rintro p q x (hx | ⟨rfl, rfl⟩) (hy | ⟨rfl, hxy⟩)
    · exact hs.right p q x hx hy
    · subst hxy
      exact (hnew p hx).elim
    · exact (hnew q hy).elim
    · rfl
  · rintro q x (hx | ⟨rfl, rfl⟩)
    · obtain ⟨o₁, o₁', h₁, h₁', hrel⟩ := hs.objects q x hx
      refine ⟨o₁, o₁', ?_, (hold q x hx).trans h₁', hrel.mono hle⟩
      have hne : x ≠ (m.heap.allocate o).1 := fun he => hnew q (he ▸ hx)
      rw [hobj, if_neg hne]
      exact h₁
    · exact ⟨o, o', by rw [hobj, if_pos rfl], hw, ho.mono hle⟩
  · exact hc
  · exact hs.pc
  · exact hs.status
  · exact hs.frame.mono hle
  · exact hs.callers.imp fun _ _ => CallerRel.mono hle
  · rw [hsame]
    exact hs.globals.imp fun _ _ => EntryRel.mono hle
  · rw [hsame]
    exact hs.output
  · rw [hsame]
    exact hs.tables
  · exact hs.structures

theorem alloc (hs : Sim σ ρ m s) (hsz : m.heap.slots.size < 2 ^ 32) {o : Object} {o' : Obj}
    (ho : ObjRel ρ o o') :
    Sim σ (ρ.add (.object s.world.objects.size) (m.heap.allocate o).1)
      { m with heap := (m.heap.allocate o).2 } { s with world := (s.world.alloc o').2 } := by
  refine hs.extend hsz ho (fun x hx => ?_) _ (s.world.object?_alloc_new o') (fun q y hq => ?_) rfl
    m.constants fun c y => ?_
  · obtain ⟨-, o₁, -, h₁, -⟩ := hs.objects _ x hx
    rw [World.object?_size] at h₁
    cases h₁
  · obtain ⟨-, o₁, -, h₁, -⟩ := hs.objects q y hq
    rw [h₁, World.object?_alloc_of_object? h₁]
  · rw [← hs.constants]
    refine ⟨fun h => h.resolve_right fun h => ?_, .inl⟩
    cases h.1

/-- A change of an object, and the same change of its counterpart. -/
theorem change (hs : Sim σ ρ m s) {r : Ref} {x : Handle} (hρ : ρ r x) {o : Object} {o' : Obj}
    (ho : m.heap.object? x = some o) (ho' : s.world.object? r = some o') {vs : Array Val}
    (he : o'.elements? = some vs) {f : Object → Object} {g : Obj → Obj}
    (hfg : ObjRel ρ (f o) (g o')) :
    Sim σ ρ { m with heap := m.heap.changeObject x f } { s with world := s.world.change r g } := by
  have hsame := s.world.change_eq r g
  refine ⟨hs.bytecode, hs.limit, hs.wellFormed.modifyCell x _, hs.left, hs.right, ?_, hs.constants,
    hs.pc, hs.status,
    hs.frame, hs.callers, ?_, ?_, ?_, hs.structures⟩
  · intro q y hq
    obtain ⟨o₁, o₁', h₁, h₁', hrel⟩ := hs.objects q y hq
    rw [show ({ m with heap := m.heap.changeObject x f } : Machine).heap =
      m.heap.changeObject x f from rfl, Heap.object?_changeObject ho, World.object?_change ho' he]
    by_cases hqr : q = r
    · subst hqr
      have hyx := hs.left q y x hq hρ
      subst hyx
      exact ⟨f o, g o', by rw [if_pos rfl], by rw [if_pos rfl], hfg⟩
    · have hyx : y ≠ x := fun h => hqr (hs.right q r y hq (h ▸ hρ))
      exact ⟨o₁, o₁', by rw [if_neg hyx, h₁], by rw [if_neg hqr, h₁'], hrel⟩
  · rw [hsame]
    exact hs.globals
  · rw [hsame]
    exact hs.output
  · rw [hsame]
    exact hs.tables

end Sim

section objects

variable {ρ : Names} {n : Nat}

theorem matches_allocate {o : Object} {o' : Obj} (h : ObjRel ρ o o') :
    Matches σ ρ 1 (Exec.onHeap (Heap.allocateM o)) (Act.onWorld fun w => .ok (w.alloc o'))
      fun ρ x v => ValRel ρ (.object x) v := by
  intro m s hs hsz
  rw [Act.run_onWorld_ok rfl]
  refine ⟨?_, _, ρ.le_add _ _, hs.alloc (by omega) h, .ref (.inr ⟨rfl, rfl⟩)⟩
  exact Heap.size_allocate_le m.heap o

theorem matches_pushNew {o : Object} {o' : Obj} (h : ObjRel ρ o o') :
    Matches σ ρ 1 (Exec.pushNew o) (Act.pushNew o') Done :=
  .bind_last (matches_allocate h) fun _ _ _ _ hv => matches_push hv

end objects

end Scriptlet.Ideal
