import Scriptlet.Proofs.Heap.Sweeping
import Scriptlet.Proofs.Machine.Actions

/-!
# Who holds what

`Machine.owners` lists the handles in the locals of all frames, the globals and the constants.
`Machine.Counted extra temps m`: counts are exact for these owners and those in `extra`, which an
action has counted but not stored yet, and everything on an operand stack or in `temps`, which an
action has taken from there, is live.

`Exec.Triple P act Q`: from a machine with `P` the action ends with `Q`, or it faults, not for a
stale handle, and leaves exact counts behind. It is stated for runs that end with fewer than 2 ^ 32
slots, beyond which handles are used twice. The primitive actions follow; each says how handles
move between operands, `temps`, `extra` and the heap.
-/

namespace Scriptlet

namespace Machine

/-- The frames of a machine, the innermost first. -/
def frames (m : Machine) : List Frame := m.frame :: m.callers.map Caller.frame

/-- The handles that are held outside of the heap, one for each place: in the locals of all frames,
in globals, and as constants. -/
def owners (m : Machine) : List Handle :=
  m.frames.flatMap (fun f => Value.handles f.locals.toList) ++
    (Value.handles (m.globals.entries.map Prod.snd) ++ m.constants.map Prod.snd)

/-- The handles that are held neither in the heap nor by the innermost call. -/
def outerOwners (m : Machine) : List Handle :=
  (m.callers.map Caller.frame).flatMap (fun f => Value.handles f.locals.toList) ++
    (Value.handles (m.globals.entries.map Prod.snd) ++ m.constants.map Prod.snd)

theorem owners_eq (m : Machine) :
    m.owners = Value.handles m.frame.locals.toList ++ m.outerOwners := by
  simp [owners, outerOwners, frames]

theorem mem_owners_of_local {m : Machine} {i : Nat} {v : Value} (h : m.frame.locals[i]? = some v)
    {x : Handle} (hx : x ∈ Value.handles [v]) : x ∈ m.owners := by
  rw [Value.mem_handles, List.mem_singleton] at hx
  rw [owners_eq, List.mem_append, Value.mem_handles, hx]
  rw [← Array.getElem?_toList] at h
  exact .inl (List.mem_of_getElem? h)

theorem mem_owners_of_global {m : Machine} {name : String} {v : Value}
    (h : m.globals.find? name = some v) {x : Handle} (hx : x ∈ Value.handles [v]) :
    x ∈ m.owners := by
  rw [Value.mem_handles, List.mem_singleton] at hx
  obtain ⟨l₁, l₂, hl, -⟩ := List.lookup_eq_some_iff.1 h
  have hm : v ∈ m.globals.entries.map Prod.snd := by
    rw [hl]
    simp
  simp only [owners, List.mem_append, Value.mem_handles, hx]
  exact .inr (.inl hm)

/-- Counts are exact up to what an action holds in its hands (module doc). -/
structure Counted (extra temps : List Handle) (m : Machine) : Prop where
  exact : m.heap.Exact (extra ++ m.owners)
  operands : ∀ x ∈ temps ++ m.pinned, m.heap.contains x = true

namespace Counted

variable {extra extra' temps temps' : List Handle} {m m' : Machine}

theorem assoc {xs : List Handle} (hc : m.Counted (xs ++ extra) temps) :
    m.heap.Exact (xs ++ (extra ++ m.owners)) := by
  rw [← List.append_assoc]
  exact hc.exact

theorem temps_subset (hc : m.Counted extra temps) (hs : ∀ x ∈ temps', x ∈ temps) :
    m.Counted extra temps' :=
  ⟨hc.exact, fun x hx => hc.operands x (by
    rw [List.mem_append] at hx ⊢
    exact hx.imp_left (hs x))⟩

theorem drop_temps (hc : m.Counted extra temps) : m.Counted extra [] :=
  hc.temps_subset fun _ hx => by cases hx

theorem contains_owner (hc : m.Counted extra temps) {x : Handle} (hx : x ∈ m.owners) :
    m.heap.contains x = true :=
  hc.exact.contains_owner (List.mem_append_right _ hx)

theorem contains_temp (hc : m.Counted extra temps) {x : Handle} (hx : x ∈ temps) :
    m.heap.contains x = true :=
  hc.operands x (List.mem_append_left _ hx)

/-- Anything that is live can be held in hands. -/
theorem add_temps (hc : m.Counted extra temps) (hl : ∀ x ∈ temps', m.heap.contains x = true) :
    m.Counted extra (temps' ++ temps) :=
  ⟨hc.exact, fun x hx => by
    rw [List.append_assoc, List.mem_append] at hx
    exact hx.elim (hl x) (hc.operands x)⟩

theorem add_temp (hc : m.Counted extra temps) {x : Handle} (hx : m.heap.contains x = true) :
    m.Counted extra (x :: temps) :=
  ⟨hc.exact, fun y hy => (List.mem_cons.1 hy).elim (fun he => he ▸ hx) (hc.operands y)⟩

/-- Handles that change their places on the same heap. -/
theorem reown (hc : m.Counted extra temps) (hheap : m'.heap = m.heap)
    (hp : (extra ++ m.owners).Perm (extra' ++ m'.owners))
    (hpins : ∀ x ∈ temps' ++ m'.pinned, x ∈ temps ++ m.pinned) : m'.Counted extra' temps' :=
  ⟨by rw [hheap]; exact hc.exact.perm hp,
    fun x hx => by rw [hheap]; exact hc.operands x (hpins x hx)⟩

/-- The same owners, with operands that are live. -/
theorem reframe (hc : m.Counted extra temps) (hheap : m'.heap = m.heap)
    (howners : m'.owners = m.owners)
    (hpins : ∀ x ∈ temps' ++ m'.pinned, x ∈ temps ++ m.pinned) : m'.Counted extra temps' :=
  hc.reown hheap (by rw [howners]) hpins

theorem withHeap (hc : m.Counted extra temps) {h : Heap} (he : h.Exact (extra' ++ m.owners))
    (hk : m.heap.Keeps h) : ({ m with heap := h } : Machine).Counted extra' temps :=
  ⟨he, fun x hx => hk x (hc.operands x hx)⟩

end Counted

end Machine

open Machine (Counted)

namespace Exec

variable {α β : Type}

/-- The action keeps what no action changes (`Machine.Extends`), also when it faults. -/
def Extending (act : Exec α) : Prop := ∀ m : Machine, m.Extends (act.final m)

namespace Extending

theorem bind {act : Exec α} {k : α → Exec β} (ha : act.Extending) (hk : ∀ a, (k a).Extending) :
    (act >>= k).Extending := by
  intro m
  have h₁ := ha m
  cases hr : act m with
  | ok a m' =>
    rw [final_ok hr] at h₁
    have h₂ := hk a m'
    rw [final, run_bind_ok hr]
    exact h₁.trans h₂
  | error f m' =>
    rw [final_error hr] at h₁
    rw [final_error (run_bind_error hr k)]
    exact h₁

theorem onHeap {act : Heap.Action α} (hg : Heap.Grows act) : (onHeap act).Extending := by
  intro m
  have := hg m.heap
  rw [final, run_onHeap]
  revert this
  cases act m.heap with
  | ok a h' => exact fun hs => .ofHeap m hs
  | error f h' => exact fun hs => .ofHeap m hs

end Extending

/-- What an action does to exact counts (module doc). -/
structure Triple (P : Machine → Prop) (act : Exec α) (Q : α → Machine → Prop) : Prop where
  ext : act.Extending
  run : ∀ m, P m → (act.final m).heap.slots.size < 2 ^ 32 →
    match act m with
    | .ok a m' => Q a m'
    | .error f m' => f ≠ .staleHandle ∧ m'.Counted [] []

namespace Triple

variable {P P' : Machine → Prop} {Q' : α → Machine → Prop} {Q : β → Machine → Prop}

theorem bind {act : Exec α} {k : α → Exec β} (ha : Triple P act Q')
    (hk : ∀ a, Triple (Q' a) (k a) Q) : Triple P (act >>= k) Q := by
  refine ⟨ha.ext.bind fun a => (hk a).ext, fun m hP hs => ?_⟩
  have h₁ := ha.run m hP
  cases hr : act m with
  | ok a m' =>
    rw [final_ok hr, hr] at h₁
    have hs' : ((k a).final m').heap.slots.size < 2 ^ 32 := by
      rw [final, run_bind_ok hr] at hs
      exact hs
    rw [run_bind_ok hr]
    exact (hk a).run m' (h₁ (Nat.lt_of_le_of_lt ((hk a).ext m').slots hs')) hs'
  | error f m' =>
    rw [final_error hr, hr] at h₁
    rw [final_error (run_bind_error hr k)] at hs
    rw [run_bind_error hr k]
    exact h₁ hs

theorem weaken {act : Exec β} (ha : Triple P act Q) (hp : ∀ m, P' m → P m) : Triple P' act Q :=
  ⟨ha.ext, fun m hm hs => ha.run m (hp m hm) hs⟩

theorem post {act : Exec α} {R : α → Machine → Prop} (ha : Triple P act Q')
    (hq : ∀ a m, Q' a m → R a m) : Triple P act R :=
  ⟨ha.ext, fun m hm hs => by
    have h := ha.run m hm hs
    revert h
    cases act m with
    | ok a m' => exact hq a m'
    | error f m' => exact id⟩

theorem get_bind {k : Machine → Exec β} (hk : ∀ m, Triple (fun m' => m' = m ∧ P m) (k m) Q) :
    Triple P (get >>= k) Q := by
  constructor
  · intro m
    exact (hk m).ext m
  · intro m hP hs
    rw [run_get_bind]
    exact (hk m).run m ⟨rfl, hP⟩ hs

theorem pure {a : α} (h : ∀ m, P m → Q' a m) : Triple P (pure a) Q' :=
  ⟨fun m => .refl m, fun m hm _ => h m hm⟩

theorem fault {f : Fault} (hf : f ≠ .staleHandle) (h : ∀ m, P m → m.Counted [] []) :
    Triple P (fault f) Q' :=
  ⟨fun m => .refl m, fun m hm _ => ⟨hf, h m hm⟩⟩

/-- A change of the machine that cannot fail. -/
theorem modify {f : Machine → Machine} {R : Unit → Machine → Prop} (hext : ∀ m : Machine, m.Extends (f m))
    (h : ∀ m, P m → R () (f m)) : Triple P (modify f) R :=
  ⟨fun m => hext m, fun m hm _ => h m hm⟩

/-- A precondition that can never be met. -/
theorem absurd {act : Exec β} (hext : act.Extending) (h : ∀ m, ¬ P m) :
    Triple P act Q :=
  ⟨hext, fun m hm => (h m hm).elim⟩

end Triple

/-! ## Operands -/

variable {extra temps : List Handle}

theorem pinned_push (m : Machine) (vs : List Value) :
    ({ m with frame := { m.frame with operands := vs } } : Machine).pinned =
      Value.handles vs ++ (m.callers.map Caller.frame).flatMap fun f => Value.handles f.operands :=
  rfl

theorem pinned_eq (m : Machine) : m.pinned = Value.handles m.frame.operands ++
    (m.callers.map Caller.frame).flatMap fun f => Value.handles f.operands :=
  rfl

theorem triple_push (v : Value) :
    Triple (Counted extra (Value.handles [v] ++ temps)) (push v) fun _ => Counted extra temps := by
  refine .modify (fun m => ⟨rfl, rfl, rfl, Nat.le_refl _⟩) fun m hc => ?_
  refine hc.reframe rfl rfl fun x hx => ?_
  rw [pinned_push, Value.handles_cons v] at hx
  rw [pinned_eq]
  simp only [List.mem_append] at hx ⊢
  tauto

theorem triple_pop :
    Triple (Counted [] temps) pop fun v => Counted [] (Value.handles [v] ++ temps) := by
  constructor
  · intro m
    unfold final pop
    split
    · next h => split at h <;> cases h; exact ⟨rfl, rfl, rfl, Nat.le_refl _⟩
    · next h => split at h <;> cases h; exact .refl m
  · intro m hc _
    unfold pop
    cases hv : m.frame.operands with
    | nil => exact ⟨by simp, hc.temps_subset (by simp)⟩
    | cons v vs =>
      refine hc.reframe rfl rfl fun x hx => ?_
      rw [pinned_push] at hx
      rw [pinned_eq, hv, Value.handles_cons v]
      simp only [List.mem_append] at hx ⊢
      tauto

theorem triple_popN (count : Nat) :
    Triple (Counted [] temps) (popN count) fun vs => Counted [] (Value.handles vs ++ temps) := by
  constructor
  · intro m
    unfold final popN
    dsimp only
    by_cases hl : m.frame.operands.length < count
    · rw [if_pos hl]; exact .refl m
    · rw [if_neg hl]; exact ⟨rfl, rfl, rfl, Nat.le_refl _⟩
  · intro m hc _
    unfold popN
    dsimp only
    by_cases hl : m.frame.operands.length < count
    · rw [if_pos hl]; exact ⟨by simp, hc.temps_subset (by simp)⟩
    · rw [if_neg hl]
      refine hc.reframe rfl rfl fun x hx => ?_
      rw [pinned_push] at hx
      rw [pinned_eq, ← List.take_append_drop count m.frame.operands, Value.handles_append]
      have hr := (Value.handles_perm (List.reverse_perm (m.frame.operands.take count))).mem_iff
        (a := x)
      simp only [List.mem_append] at hx ⊢
      tauto

/-! ## The heap -/

/-- An operation on the heap that cannot fail. -/
theorem triple_onHeap {act : Heap.Action α} {P : Machine → Prop} {Q : α → Machine → Prop}
    (hg : Heap.Grows act)
    (h : ∀ m, P m → ∃ a h', act m.heap = .ok a h' ∧
      (h'.slots.size < 2 ^ 32 → Q a { m with heap := h' })) : Triple P (onHeap act) Q := by
  refine ⟨.onHeap hg, fun m hP hs => ?_⟩
  obtain ⟨a, h', hr, hQ⟩ := h m hP
  rw [run_onHeap_ok hr]
  rw [final_ok (run_onHeap_ok hr)] at hs
  exact hQ hs

/-- What does not look at the heap stays as it is. -/
theorem Triple.beside {act : Heap.Action α} {P : Machine → Prop} {Q : α → Machine → Prop}
    (ht : Triple P (onHeap act) Q) {I : Machine → Prop}
    (hI : ∀ m h, I m → I { m with heap := h }) :
    Triple (fun m => P m ∧ I m) (onHeap act) fun a m => Q a m ∧ I m :=
  ⟨ht.ext, fun m hm hs => by
    have h := ht.run m hm.1 hs
    rw [run_onHeap] at h ⊢
    revert h
    cases act m.heap with
    | ok a h' => exact fun h => ⟨h, hI m h' hm.2⟩
    | error f h' => exact id⟩

theorem triple_retain {v : Value} (hv : ∀ x ∈ Value.handles [v], x ∈ temps) :
    Triple (Counted extra temps) (onHeap (Heap.retain v)) fun _ =>
      Counted (Value.handles [v] ++ extra) temps := by
  refine triple_onHeap (Heap.grows_retain v) fun m hc => ?_
  obtain ⟨h', hr, he, hk, -⟩ := hc.exact.retain fun x hx => hc.contains_temp (hv x hx)
  exact ⟨(), h', hr, fun _ => hc.withHeap (by rw [List.append_assoc]; exact he) hk⟩

theorem triple_retainAll {vs : List Value} (hv : ∀ x ∈ Value.handles vs, x ∈ temps) :
    Triple (Counted extra temps) (onHeap (Heap.retainAll vs)) fun _ =>
      Counted (Value.handles vs ++ extra) temps := by
  refine triple_onHeap (Heap.grows_retainAll vs) fun m hc => ?_
  obtain ⟨h', hr, he, hk, -⟩ := hc.exact.retainAll fun x hx => hc.contains_temp (hv x hx)
  exact ⟨(), h', hr, fun _ => hc.withHeap (by rw [List.append_assoc]; exact he) hk⟩

theorem triple_release (v : Value) :
    Triple (Counted (Value.handles [v] ++ extra) temps) (onHeap (Heap.release v)) fun _ =>
      Counted extra temps := by
  refine triple_onHeap (Heap.grows_release v) fun m hc => ?_
  obtain ⟨h', hr, he, hk, -⟩ := hc.assoc.release
  exact ⟨(), h', hr, fun _ => hc.withHeap he hk⟩

theorem triple_releaseAll (vs : List Value) :
    Triple (Counted (Value.handles vs ++ extra) temps) (onHeap (Heap.releaseAll vs)) fun _ =>
      Counted extra temps := by
  refine triple_onHeap (Heap.grows_releaseAll vs) fun m hc => ?_
  obtain ⟨h', hr, he, hk, -⟩ := hc.assoc.releaseAll
  exact ⟨(), h', hr, fun _ => hc.withHeap he hk⟩

theorem triple_allocate (o : Object) :
    Triple (Counted (o.children ++ extra) temps) (onHeap (Heap.allocateM o)) fun x =>
      Counted extra (x :: temps) := by
  refine triple_onHeap (Heap.grows_allocateM o) fun m hc => ?_
  refine ⟨_, _, rfl, fun hs => ?_⟩
  have hs' := Nat.lt_of_le_of_lt (Heap.size_le_allocate m.heap o) hs
  obtain ⟨he, hk, hx⟩ := hc.assoc.allocate hs'
  exact (hc.withHeap he hk).add_temp hx

theorem triple_pushNew (o : Object) :
    Triple (Counted (o.children ++ extra) temps) (pushNew o) fun _ => Counted extra temps :=
  .bind (triple_allocate o) fun x => triple_push (.object x)

end Exec

end Scriptlet
