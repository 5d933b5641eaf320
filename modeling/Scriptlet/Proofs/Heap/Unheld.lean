import Scriptlet.Proofs.Heap.Arena
import Scriptlet.Proofs.Heap.Garbage
import Scriptlet.Proofs.Heap.Stores

/-!
# Objects that nothing holds

`Heap.Unheld x h`: the object of `x` is live and counted for nothing, and no object of the heap holds
it. Nothing is assumed of other objects, whose counts may be wrong. As long as `x` itself is not handed
to them, the operations of the heap keep it so, also when they fail (`Heap.Spares`), and new objects
get other handles (`Unheld.allocate`).

A sweep leaves no object behind that is counted for nothing and not pinned, whatever the counts of
the heap are worth (`waits_sweep`), and no count grows in it (`Heap.Shrinks`). So it frees what is
unheld (`Unheld.contains_sweep`).
-/

namespace Scriptlet.Heap

/-- The object of a handle is live, counted for nothing, and held by no object. -/
structure Unheld (x : Handle) (h : Heap) : Prop where
  wellFormed : h.WellFormed
  count : h.count? x = some 0
  inner : x ∉ h.inner

/-- The operation keeps an object unheld, also when it fails. -/
def Spares {α : Type} (x : Handle) (act : Action α) : Prop :=
  ∀ h : Heap, h.Unheld x → (act.final h).Unheld x

variable {h h' : Heap} {x y : Handle} {v : Value}

theorem Unheld.find? (hu : h.Unheld x) : ∃ o, h.find? x = some ⟨0, o⟩ := by
  have hcount := hu.count
  rw [count?, Option.map_eq_some_iff] at hcount
  obtain ⟨⟨n, o⟩, hx, hn⟩ := hcount
  cases hn
  exact ⟨o, hx⟩

theorem Unheld.not_child (hu : h.Unheld x) {o : Object} (ho : h.object? y = some o) :
    x ∉ o.children := by
  obtain ⟨n, hn⟩ := object?_eq_some_iff.1 ho
  exact fun hx => hu.inner (mem_inner_of_find? hn hx)

/-- A change of one object that does not count the unheld one and does not take it as a child. -/
theorem Unheld.modify (hu : h.Unheld x) {c : Cell} {f : Cell → Cell} (hy : h.find? y = some c)
    (hslots : h'.slots = (h.modifyCell y f).slots) (hfree : h'.free = h.free)
    (hcount : y = x → (f c).count = 0) (hchildren : x ∉ (f c).object.children) : h'.Unheld x := by
  refine ⟨(hu.wellFormed.modifyCell y f).congr hslots hfree, ?_, ?_⟩
  · have hfind : h'.find? x = if x = y then some (f c) else h.find? x := by
      rw [← find?_modifyCell_of_find? hy, Heap.find?, hslots]
      rfl
    rw [count?, hfind]
    by_cases hxy : x = y
    · rw [if_pos hxy, Option.map_some, hcount hxy.symm]
    · rw [if_neg hxy]
      exact hu.count
  · have hinner := count_inner_modifyCell f hy x
    have hnone := List.count_eq_zero.2 hu.inner
    have hnew := List.count_eq_zero.2 hchildren
    rw [Heap.inner, hslots, ← Heap.inner, ← List.count_eq_zero]
    omega

/-! ## Counting -/

theorem spares_retain (hv : v ≠ .object x) : Spares x (retain v) := fun h hu => by
  cases v with
  | object y =>
    unfold Action.final retain
    by_cases hy : h.contains y = true
    · simp only [hy]
      obtain ⟨c, hc⟩ := contains_iff.1 hy
      refine hu.modify (f := fun c => { c with count := c.count + 1 }) hc rfl rfl (fun hyx => ?_) ?_
      · exact absurd (congrArg Value.object hyx) hv
      · exact hu.not_child (object?_eq_some_iff.2 ⟨c.count, hc⟩)
    · simp only [hy]
      exact hu
  | _ => exact hu

/-- Releasing the object itself does no harm, since a count of zero stays zero. -/
theorem spares_release (v : Value) : Spares x (release v) := fun h hu => by
  cases v with
  | object y =>
    unfold Action.final release
    by_cases hy : h.contains y = true
    · simp only [hy]
      obtain ⟨c, hc⟩ := contains_iff.1 hy
      refine hu.modify (f := fun c => { c with count := c.count - 1 }) hc rfl rfl (fun hyx => ?_) ?_
      · obtain ⟨o, ho⟩ := hu.find?
        rw [hyx, ho] at hc
        cases hc
        rfl
      · exact hu.not_child (object?_eq_some_iff.2 ⟨c.count, hc⟩)
    · simp only [hy]
      exact hu
  | _ => exact hu

theorem Spares.bind {α β : Type} {act : Action α} {k : α → Action β} (ha : Spares x act)
    (hk : ∀ a, Spares x (k a)) : Spares x (act >>= k) := fun h hu => by
  have hu₁ := ha h hu
  simp only [Action.final, Bind.bind, EStateM.bind] at hu₁ ⊢
  cases hr : act h with
  | ok a h₁ =>
    rw [hr] at hu₁
    exact hk a h₁ hu₁
  | error e h₁ =>
    rw [hr] at hu₁
    exact hu₁

theorem spares_retainAll : ∀ {vs : List Value}, .object x ∉ vs → Spares x (retainAll vs)
  | [], _ => fun _ hu => hu
  | v :: vs, hvs => by
    rw [List.mem_cons, not_or] at hvs
    exact (spares_retain (Ne.symm hvs.1)).bind fun _ => spares_retainAll hvs.2

theorem spares_releaseAll : ∀ vs : List Value, Spares x (releaseAll vs)
  | [] => fun _ hu => hu
  | v :: vs => (spares_release v).bind fun _ => spares_releaseAll vs

/-! ## New objects and changes of objects -/

/-- A new object has another handle. -/
theorem Unheld.allocate (hu : h.Unheld x) (hs : h.slots.size < 2 ^ 32) {o : Object}
    (ho : x ∉ o.children) : (h.allocate o).1 ≠ x ∧ (h.allocate o).2.Unheld x := by
  have hne : (h.allocate o).1 ≠ x := fun hx => by
    obtain ⟨o', ho'⟩ := hu.find?
    rw [← hx, find?_new hu.wellFormed hs o] at ho'
    cases ho'
  refine ⟨hne, hu.wellFormed.allocate hs o, ?_, ?_⟩
  · rw [count?, find?_allocate_eq hu.wellFormed hs, if_neg (Ne.symm hne)]
    exact hu.count
  · rw [← List.count_eq_zero, count_inner_allocate hu.wellFormed hs, List.count_eq_zero.2 hu.inner,
      List.count_eq_zero.2 ho]

theorem Unheld.changeObject (hu : h.Unheld x) {o : Object} (ho : h.object? y = some o)
    {g : Object → Object} (hg : x ∉ (g o).children) : (h.changeObject y g).Unheld x := by
  obtain ⟨n, hn⟩ := object?_eq_some_iff.1 ho
  refine hu.modify hn rfl rfl (fun hyx => ?_) hg
  obtain ⟨o', ho'⟩ := hu.find?
  rw [hyx, ho'] at hn
  cases hn
  rfl

theorem spares_setElement (hv : v ≠ .object x) (y : Handle) (i : Nat) :
    Spares x (setElement y i v) := fun h hu => by
  cases he : h.element? y i with
  | none =>
    obtain ⟨e, hr⟩ := setElement_of_none (v := v) he
    unfold Action.final
    rw [hr]
    exact hu
  | some old =>
    obtain ⟨o, vs, ho, hvs, hi⟩ := exists_of_element? he
    have hput : (h.putElement y i v).Unheld x := hu.changeObject ho fun hx => by
      have hmem := (Object.children_set hvs hi v).mem_iff.2 (List.mem_append_left _ hx)
      rcases List.mem_append.1 hmem with hx | hx
      · exact hu.not_child ho hx
      · exact hv (List.mem_singleton.1 (Value.mem_handles.1 hx)).symm
    unfold Action.final
    rw [setElement_of_some he]
    exact (spares_retain hv).bind (fun _ => spares_release old) _ hput

/-! ## Sweeping -/

/-- Objects may go and counts may fall; nothing else changes. -/
def Shrinks (h h' : Heap) : Prop :=
  ∀ y d, h'.find? y = some d → ∃ n, d.count ≤ n ∧ h.find? y = some ⟨n, d.object⟩

theorem Shrinks.refl (h : Heap) : h.Shrinks h := fun _ d hd => ⟨d.count, Nat.le_refl _, hd⟩

theorem Shrinks.trans {h₁ h₂ h₃ : Heap} (h₁₂ : h₁.Shrinks h₂) (h₂₃ : h₂.Shrinks h₃) :
    h₁.Shrinks h₃ := fun y d hd => by
  obtain ⟨n, hn, hy⟩ := h₂₃ y d hd
  obtain ⟨k, hk, hy'⟩ := h₁₂ y _ hy
  exact ⟨k, Nat.le_trans hn hk, hy'⟩

theorem shrinks_decrement {c : Cell}
    (hslots : h'.slots = (h.modifyCell y fun c => { c with count := c.count - 1 }).slots)
    (hy : h.find? y = some c) : h.Shrinks h' := fun z d hd => by
  rw [find?_decrement hslots hy] at hd
  split at hd
  · next hzy =>
    cases hd
    exact ⟨c.count, Nat.sub_le _ _, hzy ▸ hy⟩
  · exact ⟨d.count, Nat.le_refl _, hd⟩

theorem shrinks_clear {c : Cell} (hy : h.find? y = some c) : h.Shrinks (h.clear y.index) :=
  fun z d hd => by
    rw [find?_clear hy] at hd
    split at hd
    · cases hd
    · exact ⟨d.count, Nat.le_refl _, hd⟩

section sweep

variable {pinned : Handle → Bool}

/-- Releasing the children of a freed object, of which some may be stale: whatever is not pinned and
counted for nothing waits. -/
theorem Waits.releaseChildren : ∀ (xs : List Handle) {waiting : List Handle} {h : Heap},
    Waits pinned h waiting → let r := Heap.releaseChildren pinned xs waiting h
    Waits pinned r.2 r.1 ∧ h.Shrinks r.2 ∧ ∀ y, r.2.contains y = h.contains y
  | [], waiting, h, hw => ⟨hw, .refl h, fun _ => rfl⟩
  | x :: xs, waiting, h, hw => by
    intro r
    cases hc : h.find? x with
    | none =>
      simp only [r, Heap.releaseChildren, hc]
      exact hw.releaseChildren xs
    | some c =>
      simp only [r, Heap.releaseChildren, hc]
      let h' : Heap := { h.modifyCell x fun c => { c with count := c.count - 1 } with
        stats := { h.stats with releases := h.stats.releases + 1 } }
      have hslots : h'.slots = (h.modifyCell x fun c => { c with count := c.count - 1 }).slots := rfl
      obtain ⟨hw₂, hshrinks, hcontains⟩ := (hw.decrement hslots hc).releaseChildren xs
      refine ⟨hw₂, (shrinks_decrement hslots hc).trans hshrinks, fun y => ?_⟩
      exact (hcontains y).trans (contains_modifyCell h x y _)

/-- As many rounds as there are live objects leave nothing that waits. -/
theorem Waits.sweepRounds : ∀ {n : Nat} {waiting : List Handle} {h : Heap}, Waits pinned h waiting →
    {x | h.contains x = true}.ncard ≤ n →
    let r := Heap.sweepRounds pinned n waiting h
    Waits pinned r.2 [] ∧ h.Shrinks r.2
  | 0, waiting, h, _, hn => by
    have hempty := (Set.ncard_eq_zero).1 (Nat.le_zero.1 hn)
    refine ⟨⟨fun x o hx _ => ?_, fun x hx => by cases hx⟩, .refl h⟩
    have hmem : x ∈ {x | h.contains x = true} := contains_iff.2 ⟨_, hx⟩
    rw [hempty] at hmem
    cases hmem
  | n + 1, waiting, h, hw, hn => by
    intro r
    cases hnext : h.nextUnheld waiting with
    | none =>
      simp only [r, Heap.sweepRounds, hnext]
      exact ⟨hw.held hnext, .refl h⟩
    | some found =>
      obtain ⟨x, o, rest⟩ := found
      simp only [r, Heap.sweepRounds, hnext]
      obtain ⟨hx, -, hw₁⟩ := hw.nextUnheld hnext
      obtain ⟨hw₂, hshrinks, hcontains⟩ := hw₁.releaseChildren o.children
      have hset : {y | (Heap.releaseChildren pinned o.children rest (h.clear x.index)).2.contains y =
          true} = {y | h.contains y = true} \ {x} := Set.ext fun y => by
        have hy : (h.clear x.index).contains y = if y = x then false else h.contains y := by
          rw [contains, find?_clear hx]
          split <;> rfl
        simp only [Set.mem_ofPred_eq, hcontains, hy, Set.mem_sdiff, Set.mem_singleton_iff]
        by_cases hyx : y = x <;> simp [hyx]
      have hcard := Set.ncard_sdiff_singleton_add_one (s := {y | h.contains y = true})
        (show x ∈ {y | h.contains y = true} from contains_iff.2 ⟨_, hx⟩)
      rw [← hset] at hcard
      obtain ⟨hw₃, hshrinks₃⟩ := hw₂.sweepRounds (n := n) (by omega)
      exact ⟨hw₃, (shrinks_clear hx).trans (hshrinks.trans hshrinks₃)⟩

/-- A sweep leaves nothing behind that is counted for nothing and not pinned, and no count grows. -/
theorem waits_sweep (h : Heap) (pinned : Handle → Bool) :
    Waits pinned (h.sweep pinned).2 [] ∧ h.Shrinks (h.sweep pinned).2 := by
  obtain ⟨hw, hshrinks⟩ := (waits_unheld h pinned).sweepRounds h.ncard_live_le
  exact ⟨⟨hw.unheld, hw.unpinned⟩, hshrinks⟩

/-- A sweep frees what nothing holds, unless it is pinned. -/
theorem Unheld.contains_sweep (hu : h.Unheld x) (hp : pinned x = false) :
    (h.sweep pinned).2.contains x = false := by
  obtain ⟨o, hx⟩ := hu.find?
  obtain ⟨hw, hshrinks⟩ := waits_sweep h pinned
  by_contra hc
  obtain ⟨d, hd⟩ := contains_iff.1 (Bool.not_eq_false _ ▸ hc)
  obtain ⟨n, hn, hx'⟩ := hshrinks x d hd
  rw [hx] at hx'
  cases hx'
  obtain ⟨k, o'⟩ := d
  cases Nat.le_zero.1 hn
  cases hw.unheld x o' hd hp

end sweep

end Scriptlet.Heap
