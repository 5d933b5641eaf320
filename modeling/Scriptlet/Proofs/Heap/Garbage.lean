import Mathlib.Data.Fintype.Card
import Mathlib.Data.Set.Card
import Mathlib.Logic.Relation
import Scriptlet.Proofs.Heap.Sweeping

/-!
# What a sweep frees

The counts of a heap are tallied (`Heap.Tallied`) if the count of every live object is the number of
times that live objects hold it, plus a number of holders outside of the heap. A sweep of such a heap
keeps what is pinned, what is held from outside, what lies on a cycle, and all that these lead to
(`Heap.Kept`), and frees everything else.

Nothing that is kept is ever freed: each of it that is not pinned is held by something that is kept,
or from outside (`Kept.holder`). Conversely, behind the last round everything that is left is pinned or
held, and in a finite heap the holders of an object lead back to what is kept or run in a circle
(`Sweeping.kept_of_contains`).

Main statement: `Heap.sweep_frees_garbage`.
-/

namespace Scriptlet

instance : Finite Handle :=
  Finite.of_injective (fun x : Handle => (x.index.toFin, x.generation.toFin)) fun x y h => by
    obtain ⟨xi, xg⟩ := x
    obtain ⟨yi, yg⟩ := y
    simp only [Prod.mk.injEq] at h
    rw [UInt32.toFin_inj.1 h.1, UInt32.toFin_inj.1 h.2]

namespace Heap

/-- The slots that a handle can name. -/
def named (h : Heap) : List Slot := h.slots.toList.take (2 ^ 32)

/-- The number of times that live objects hold a handle. -/
def holders (h : Heap) (x : Handle) : Nat := (h.named.flatMap Slot.children).count x

/-- A live object holds a handle. -/
def Holds (h : Heap) (x y : Handle) : Prop := ∃ o, h.object? x = some o ∧ y ∈ o.children

/-- What live objects hold is live, and the count of a live object is the number of its holders, of
which `ext` are outside of the heap. -/
structure Tallied (h : Heap) (ext : Handle → Nat) : Prop where
  live : ∀ x y, h.Holds x y → h.contains y = true
  count : ∀ x c, h.find? x = some c → c.count = ext x + h.holders x

/-- What a sweep has to keep for its own sake: it is pinned, held from outside, or on a cycle. -/
structure Root (h : Heap) (pinned : Handle → Bool) (ext : Handle → Nat) (x : Handle) : Prop where
  live : h.contains x = true
  stays : pinned x = true ∨ 0 < ext x ∨ Relation.TransGen h.Holds x x

/-- What a sweep has to keep: something that stays for its own sake leads to it. -/
def Kept (h : Heap) (pinned : Handle → Bool) (ext : Handle → Nat) (x : Handle) : Prop :=
  ∃ r, h.Root pinned ext r ∧ Relation.ReflTransGen h.Holds r x

/-! ## Holders -/

theorem getElem?_named (h : Heap) (x : Handle) :
    h.named[x.index.toNat]? = h.slots[x.index.toNat]? := by
  rw [named, List.getElem?_take_of_lt x.index.toNat_lt, Array.getElem?_toList]

theorem holders_eq_sum (h : Heap) (y : Handle) :
    h.holders y = (h.named.map fun s => s.children.count y).sum := by
  rw [holders, List.count_flatMap]
  rfl

/-- A change of one slot changes the holders by what it held and holds. -/
theorem holders_modify {h h' : Heap} {x : Handle} {s : Slot} {f : Slot → Slot}
    (hslots : h'.slots = h.slots.modify x.index.toNat f) (hs : h.slots[x.index.toNat]? = some s)
    (y : Handle) : h'.holders y + s.children.count y = h.holders y + (f s).children.count y := by
  have hnamed : h'.named = h.named.modify x.index.toNat f := by
    rw [named, hslots, Array.toList_modify, List.take_modify]
    rfl
  rw [holders_eq_sum, holders_eq_sum, hnamed]
  exact sum_map_modify _ _ _ _ _ ((getElem?_named h x).trans hs)

theorem Holds.holders_pos {h : Heap} {x y : Handle} (hxy : h.Holds x y) : 0 < h.holders y := by
  obtain ⟨o, ho, hy⟩ := hxy
  obtain ⟨n, hn⟩ := object?_eq_some_iff.1 ho
  rw [find?_eq_some_iff, ← getElem?_named] at hn
  refine List.count_pos_iff.2 (List.mem_flatMap.2 ⟨_, List.mem_of_getElem? hn, ?_⟩)
  exact hy

theorem exists_holds {h : Heap} {y : Handle} (hy : 0 < h.holders y) : ∃ x, h.Holds x y := by
  obtain ⟨s, hs, hys⟩ := List.mem_flatMap.1 (List.count_pos_iff.1 hy)
  obtain ⟨i, hi⟩ := List.mem_iff_getElem?.1 hs
  obtain ⟨g, cell⟩ := s
  cases cell with
  | none => cases hys
  | some c =>
    have hlt : i < 2 ^ 32 := by
      have := (List.getElem?_eq_some_iff.1 hi).1
      rw [named, List.length_take] at this
      omega
    have htoNat : (UInt32.ofNat i).toNat = i := by
      rw [UInt32.toNat_ofNat', Nat.mod_eq_of_lt hlt]
    have hfind : h.find? ⟨UInt32.ofNat i, g⟩ = some c := by
      rw [find?_eq_some_iff, ← getElem?_named, htoNat]
      exact hi
    exact ⟨_, c.object, by rw [object?, hfind]; rfl, hys⟩

theorem Holds.contains {h : Heap} {x y : Handle} (hxy : h.Holds x y) : h.contains x = true := by
  obtain ⟨o, ho, -⟩ := hxy
  exact contains_of_object? ho

/-- With handles for all slots, the holders of an object are what all objects count on. -/
theorem holders_eq_count_inner {h : Heap} (hs : h.slots.size ≤ 2 ^ 32) (x : Handle) :
    h.holders x = h.inner.count x := by
  rw [holders, named, List.take_of_length_le (by rwa [Array.length_toList]), inner]

/-! ## Freeing one object -/

section decrement

variable {h h' : Heap} {x : Handle}
  (hslots : h'.slots = (h.modifyCell x fun c => { c with count := c.count - 1 }).slots)
include hslots

theorem find?_decrement {c : Cell} (hx : h.find? x = some c) (y : Handle) :
    h'.find? y = if y = x then some { c with count := c.count - 1 } else h.find? y := by
  have hfind := find?_modifyCell_of_find? (f := fun c => { c with count := c.count - 1 }) (y := y) hx
  rw [find?] at hfind ⊢
  rwa [hslots]

theorem object?_decrement (y : Handle) : h'.object? y = h.object? y := by
  rw [← object?_modifyCell h x y (f := fun c => { c with count := c.count - 1 }) fun _ => rfl]
  unfold object? find?
  rw [hslots]

theorem contains_decrement {y : Handle} (hy : h.contains y = true) : h'.contains y = true := by
  obtain ⟨o, ho⟩ := exists_object?_of_contains hy
  exact contains_of_object? ((object?_decrement hslots y).trans ho)

end decrement

namespace Tallied

variable {h : Heap} {ext : Handle → Nat}

/-- Freeing an object that nothing holds makes holders from outside of what it held. -/
theorem clear (ht : h.Tallied ext) {x : Handle} {o : Object} (hx : h.find? x = some ⟨0, o⟩) :
    (h.clear x.index).Tallied (fun y => ext y + o.children.count y) ∧
      ∀ y ∈ o.children, (h.clear x.index).contains y = true := by
  have hfind := find?_clear hx
  have hzero : h.holders x = 0 := by
    have : 0 = ext x + h.holders x := ht.count x _ hx
    omega
  have hne : ∀ {z y}, h.Holds z y → y ≠ x := fun hzy he => by
    have := hzy.holders_pos
    rw [he] at this
    omega
  have hcontains : ∀ {z y}, h.Holds z y → (h.clear x.index).contains y = true := fun hzy => by
    rw [Heap.contains, hfind, if_neg (hne hzy)]
    exact ht.live _ _ hzy
  refine ⟨⟨fun z y hzy => ?_, fun y c hy => ?_⟩, fun y hy => ?_⟩
  · obtain ⟨o', ho', hy⟩ := hzy
    rw [object?, hfind] at ho'
    split at ho'
    · cases ho'
    · exact hcontains ⟨o', ho', hy⟩
  · rw [hfind] at hy
    split at hy
    · cases hy
    · have hholders : (h.clear x.index).holders y + o.children.count y = h.holders y + 0 :=
        holders_modify (f := fun s => ⟨s.generation + 1, none⟩) rfl (find?_eq_some_iff.1 hx) y
      rw [ht.count y c hy]
      omega
  · exact hcontains ⟨o, object?_eq_some_iff.2 ⟨0, hx⟩, hy⟩

/-- One holder from outside of the heap lets go. -/
theorem release {x : Handle} {xs : List Handle} (ht : h.Tallied fun y => ext y + (x :: xs).count y)
    {c : Cell} (hx : h.find? x = some c) {h' : Heap}
    (hslots : h'.slots = (h.modifyCell x fun c => { c with count := c.count - 1 }).slots) :
    h'.Tallied fun y => ext y + xs.count y := by
  have hholders : ∀ y, h'.holders y = h.holders y := fun y => by
    have : h'.holders y + c.object.children.count y = h.holders y + c.object.children.count y :=
      holders_modify (f := fun s => { s with cell := s.cell.map fun c => { c with count := c.count - 1 } })
        hslots (find?_eq_some_iff.1 hx) y
    omega
  have hcount := ht.count
  refine ⟨fun z y ⟨o, ho, hy⟩ => ?_, fun y d hy => ?_⟩
  · rw [object?_decrement hslots] at ho
    exact contains_decrement hslots (ht.live z y ⟨o, ho, hy⟩)
  · rw [find?_decrement hslots hx] at hy
    rw [hholders]
    split at hy
    · next hyx =>
      cases hy
      subst hyx
      have := hcount y c hx
      simp only [List.count_cons_self] at this
      dsimp only
      omega
    · next hyx =>
      have := hcount y d hy
      rwa [List.count_cons_of_ne (Ne.symm hyx)] at this

end Tallied

/-! ## What waits -/

/-- The objects that wait are those that nothing holds and that are not pinned, and maybe others that
are not pinned. -/
structure Waits (pinned : Handle → Bool) (h : Heap) (waiting : List Handle) : Prop where
  unheld : ∀ x o, h.find? x = some ⟨0, o⟩ → pinned x = false → x ∈ waiting
  unpinned : ∀ x ∈ waiting, pinned x = false

theorem waits_unheld (h : Heap) (pinned : Handle → Bool) : Waits pinned h (h.unheld pinned) := by
  refine ⟨fun x o hx hp => ?_, fun x hx => by simpa using (List.mem_filter.1 hx).2⟩
  refine List.mem_filter.2 ⟨List.mem_filterMap.2 ⟨(⟨x.generation, some ⟨0, o⟩⟩, x.index.toNat), ?_, ?_⟩, ?_⟩
  · rw [find?_eq_some_iff, ← Array.getElem?_toList] at hx
    exact List.mk_mem_zipIdx_iff_getElem?.2 hx
  · simp [unheld?]
  · simp [hp]

/-- What waits behind the object that is freed next is all that is left to wait. -/
theorem Waits.nextUnheld {pinned : Handle → Bool} {h : Heap} {waiting : List Handle}
    (hw : Waits pinned h waiting) {x : Handle} {o : Object} {rest : List Handle}
    (hn : h.nextUnheld waiting = some (x, o, rest)) :
    h.find? x = some ⟨0, o⟩ ∧ pinned x = false ∧ Waits pinned (h.clear x.index) rest := by
  obtain ⟨hx, hmem, hrest⟩ := Exact.nextUnheld hn
  have hskipped : ∀ (ys : List Handle) y o', h.nextUnheld ys = some (x, o, rest) → y ∈ ys →
      h.find? y = some ⟨0, o'⟩ → y ≠ x → y ∈ rest := by
    intro ys
    induction ys with
    | nil => intro y o' hys hy; cases hy
    | cons z zs ih =>
      intro y o' hys hy hfind hyx
      rw [Heap.nextUnheld] at hys
      split at hys
      · simp only [Option.some.injEq, Prod.mk.injEq] at hys
        obtain ⟨rfl, rfl, rfl⟩ := hys
        exact (List.mem_cons.1 hy).resolve_left hyx
      · next hz =>
        rcases List.mem_cons.1 hy with rfl | hy
        · exact (hz o' hfind).elim
        · exact ih y o' hys hy hfind hyx
  refine ⟨hx, hw.unpinned x hmem, fun y o' hy hp => ?_, fun y hy => hw.unpinned y (hrest y hy)⟩
  rw [find?_clear hx] at hy
  split at hy
  · cases hy
  · next hyx => exact hskipped waiting y o' hn (hw.unheld y o' hy hp) hy hyx

/-- If nothing can be freed, everything is pinned or held. -/
theorem Waits.held {pinned : Handle → Bool} {h : Heap} {waiting : List Handle}
    (hw : Waits pinned h waiting) (hn : h.nextUnheld waiting = none) : Waits pinned h [] := by
  have hnone : ∀ ys : List Handle, h.nextUnheld ys = none → ∀ y ∈ ys, ∀ o, h.find? y ≠ some ⟨0, o⟩ := by
    intro ys
    induction ys with
    | nil => intro _ y hy; cases hy
    | cons z zs ih =>
      intro hys y hy o
      rw [Heap.nextUnheld] at hys
      split at hys
      · cases hys
      · next hz =>
        rcases List.mem_cons.1 hy with rfl | hy
        · exact hz o
        · exact ih hys y hy o
  exact ⟨fun x o hx hp => (hnone waiting hn x (hw.unheld x o hx hp) o hx).elim, fun x hx => by cases hx⟩

/-- An object that falls to zero is put in front of those that wait. -/
theorem Waits.decrement {pinned : Handle → Bool} {h h' : Heap} {waiting : List Handle} {x : Handle}
    {c : Cell} (hw : Waits pinned h waiting)
    (hslots : h'.slots = (h.modifyCell x fun c => { c with count := c.count - 1 }).slots)
    (hc : h.find? x = some c) :
    Waits pinned h' (if c.count ≤ 1 && !pinned x then x :: waiting else waiting) := by
  refine ⟨fun y o hy hp => ?_, fun y hy => ?_⟩
  · rw [find?_decrement hslots hc] at hy
    split at hy
    · next hyx =>
      simp only [Option.some.injEq, Cell.mk.injEq] at hy
      have hle : c.count ≤ 1 := by omega
      subst hyx
      simp [hle, hp]
    · have := hw.unheld y o hy hp
      split
      · exact List.mem_cons_of_mem _ this
      · exact this
  · split at hy
    · next hp =>
      rcases List.mem_cons.1 hy with rfl | hy
      · simpa using (Bool.and_eq_true_iff.1 hp).2
      · exact hw.unpinned y hy
    · exact hw.unpinned y hy

/-- Releasing what a freed object held settles the counts, and whatever falls to zero waits. -/
theorem releaseChildren_tallied {pinned : Handle → Bool} {ext : Handle → Nat} :
    ∀ {xs waiting : List Handle} {h : Heap}, h.Tallied (fun y => ext y + xs.count y) →
    (∀ x ∈ xs, h.contains x = true) → Waits pinned h waiting →
    let r := releaseChildren pinned xs waiting h
    r.2.Tallied ext ∧ (∀ y, r.2.object? y = h.object? y) ∧ Waits pinned r.2 r.1
  | [], waiting, h, ht, _, hw => ⟨ht, fun _ => rfl, hw⟩
  | x :: xs, waiting, h, ht, hlive, hw => by
    obtain ⟨c, hc⟩ := contains_iff.1 (hlive x List.mem_cons_self)
    intro r
    simp only [r, releaseChildren, hc]
    let h' : Heap := { h.modifyCell x fun c => { c with count := c.count - 1 } with
      stats := { h.stats with releases := h.stats.releases + 1 } }
    have hslots : h'.slots = (h.modifyCell x fun c => { c with count := c.count - 1 }).slots := rfl
    have hlive' : ∀ y ∈ xs, h'.contains y = true := fun y hy =>
      contains_decrement hslots (hlive y (List.mem_cons_of_mem _ hy))
    obtain ⟨ht₂, hobject₂, hw₂⟩ :=
      releaseChildren_tallied (ht.release hc hslots) hlive' (hw.decrement hslots hc)
    exact ⟨ht₂, fun y => (hobject₂ y).trans (object?_decrement hslots y), hw₂⟩

/-! ## Rounds -/

/-- Whatever is kept is pinned, held from outside, or held by something that is kept. -/
theorem Kept.holder {h : Heap} {pinned : Handle → Bool} {ext : Handle → Nat} {x : Handle}
    (hk : h.Kept pinned ext x) :
    pinned x = true ∨ 0 < ext x ∨ ∃ z, h.Kept pinned ext z ∧ h.Holds z x := by
  obtain ⟨r, hr, hrx⟩ := hk
  rcases Relation.ReflTransGen.cases_tail hrx with rfl | ⟨z, hrz, hzx⟩
  · rcases hr.stays with hp | he | hcycle
    · exact .inl hp
    · exact .inr (.inl he)
    · -- The one before it on its cycle is on the same cycle.
      obtain ⟨z, hxz, hzx⟩ := Relation.TransGen.tail'_iff.1 hcycle
      exact .inr (.inr ⟨z, ⟨x, hr, hxz⟩, hzx⟩)
  · exact .inr (.inr ⟨z, ⟨r, hr, hrz⟩, hzx⟩)

/-- A sweep of `h₀` has come to `h`, with some objects that wait. -/
structure Sweeping (pinned : Handle → Bool) (ext : Handle → Nat) (h₀ h : Heap)
    (waiting : List Handle) : Prop where
  tallied : h.Tallied ext
  object : ∀ x o, h.object? x = some o → h₀.object? x = some o
  kept : ∀ x, h₀.Kept pinned ext x → h.contains x = true
  waits : Waits pinned h waiting

namespace Sweeping

variable {pinned : Handle → Bool} {ext : Handle → Nat} {h₀ h : Heap} {waiting : List Handle}

/-- What is left holds what it held before. -/
theorem object_eq (hs : Sweeping pinned ext h₀ h waiting) {x : Handle} (hx : h.contains x = true) :
    h.object? x = h₀.object? x := by
  obtain ⟨o, ho⟩ := exists_object?_of_contains hx
  rw [ho, hs.object x o ho]

/-- An object that nothing holds and that is not pinned is not kept. -/
theorem not_kept (hs : Sweeping pinned ext h₀ h waiting) {x : Handle} {o : Object}
    (hx : h.find? x = some ⟨0, o⟩) (hp : pinned x = false) : ¬ h₀.Kept pinned ext x := by
  intro hk
  have hcount : 0 = ext x + h.holders x := hs.tallied.count x _ hx
  rcases hk.holder with hp' | he | ⟨z, hz, hzx⟩
  · rw [hp] at hp'
    cases hp'
  · omega
  · obtain ⟨o', ho', hy⟩ := hzx
    rw [← hs.object_eq (hs.kept z hz)] at ho'
    have := Holds.holders_pos ⟨o', ho', hy⟩
    omega

/-- A round frees one object, and keeps to the sweep. -/
theorem round (hs : Sweeping pinned ext h₀ h waiting) {x : Handle} {o : Object} {rest : List Handle}
    (hn : h.nextUnheld waiting = some (x, o, rest)) :
    let r := releaseChildren pinned o.children rest (h.clear x.index)
    Sweeping pinned ext h₀ r.2 r.1 ∧ h.contains x = true ∧
      ∀ y, r.2.contains y = true ↔ h.contains y = true ∧ y ≠ x := by
  intro r
  obtain ⟨hx, hp, hw⟩ := hs.waits.nextUnheld hn
  obtain ⟨ht, hlive⟩ := hs.tallied.clear hx
  obtain ⟨ht', hobject, hw'⟩ := releaseChildren_tallied ht hlive hw
  have hobject' : ∀ y, r.2.object? y = if y = x then none else h.object? y := fun y => by
    rw [hobject, object?, find?_clear hx]
    split <;> rfl
  have hcontains : ∀ y, r.2.contains y = true ↔ h.contains y = true ∧ y ≠ x := fun y => by
    have hiff : ∀ g : Heap, g.contains y = true ↔ (g.object? y).isSome = true := fun g => by
      rw [object?, Option.isSome_map]
      rfl
    rw [hiff, hobject', hiff]
    by_cases hyx : y = x
    · simp [hyx]
    · simp [hyx]
  refine ⟨⟨ht', fun y o' ho' => ?_, fun y hy => (hcontains y).2 ⟨hs.kept y hy, ?_⟩, hw'⟩,
    contains_iff.2 ⟨_, hx⟩, hcontains⟩
  · rw [hobject'] at ho'
    split at ho'
    · cases ho'
    · exact hs.object y o' ho'
  · rintro rfl
    exact hs.not_kept hx hp hy

/-- Everything that is left in the end is kept. -/
theorem kept_of_contains (hs : Sweeping pinned ext h₀ h []) {x : Handle}
    (hx : h.contains x = true) : h₀.Kept pinned ext x := by
  have hholds : ∀ {z y}, h.Holds z y → h₀.Holds z y := fun ⟨o, ho, hy⟩ => ⟨o, hs.object _ o ho, hy⟩
  have hlive₀ : ∀ {y}, h.contains y = true → h₀.contains y = true := fun hy => by
    obtain ⟨o, ho⟩ := exists_object?_of_contains hy
    exact contains_of_object? (hs.object _ o ho)
  by_contra hnot
  -- What is left and not kept has holders of the same sort.
  let Lost := {y : Handle // h.contains y = true ∧ ¬ h₀.Kept pinned ext y}
  have hback : ∀ y : Lost, ∃ z : Lost, h.Holds z.1 y.1 := by
    rintro ⟨y, hy, hky⟩
    obtain ⟨⟨n, o⟩, hc⟩ := contains_iff.1 hy
    have hroot : ¬ h₀.Root pinned ext y := fun hr => hky ⟨y, hr, .refl⟩
    have hp : pinned y = false := by
      by_contra hp
      exact hroot ⟨hlive₀ hy, .inl (by simpa using hp)⟩
    have he : ext y = 0 := by
      by_contra he
      exact hroot ⟨hlive₀ hy, .inr (.inl (Nat.pos_of_ne_zero he))⟩
    have hn : n ≠ 0 := by
      rintro rfl
      cases hs.waits.unheld y o hc hp
    have hcount : n = ext y + h.holders y := hs.tallied.count y _ hc
    obtain ⟨z, hzy⟩ := exists_holds (h := h) (y := y) (by omega)
    refine ⟨⟨z, hzy.contains, fun ⟨r, hr, hrz⟩ => hky ⟨r, hr, hrz.tail (hholds hzy)⟩⟩, hzy⟩
  -- They are finitely many, so some of them lie on a cycle.
  let R : Lost → Lost → Prop := Relation.TransGen fun z y => h.Holds z.1 y.1
  have hirrefl : Std.Irrefl R := ⟨fun y hyy => y.2.2 ⟨y.1, ⟨hlive₀ y.2.1, .inr (.inr ?_)⟩, .refl⟩⟩
  · have hwf : WellFounded R := Finite.wellFounded_of_trans_of_irrefl R
    obtain ⟨y, -, hmin⟩ := hwf.has_min Set.univ ⟨⟨x, hx, hnot⟩, trivial⟩
    obtain ⟨z, hzy⟩ := hback y
    exact hmin z trivial (.single hzy)
  · exact Relation.TransGen.lift Subtype.val (fun z w hzw => hholds hzw) y y hyy

end Sweeping

/-- The live objects of a heap have slots of their own. -/
theorem ncard_live_le (h : Heap) : {x | h.contains x = true}.ncard ≤ h.slots.size := by
  rw [← Finset.card_range h.slots.size, ← Set.ncard_coe_finset]
  refine Set.ncard_le_ncard_of_injOn (fun x => x.index.toNat) (fun x hx => ?_) fun x hx y hy hxy => ?_
  · obtain ⟨c, hc⟩ := contains_iff.1 hx
    rw [find?_eq_some_iff] at hc
    simpa using (Array.getElem?_eq_some_iff.1 hc).1
  · obtain ⟨c, hc⟩ := contains_iff.1 hx
    obtain ⟨d, hd⟩ := contains_iff.1 hy
    exact eq_of_index_eq hc hd (UInt32.toNat.inj hxy)

/-- As many rounds as there are live objects bring a sweep to its end, and each but the last frees
one of them. -/
theorem Sweeping.rounds {pinned : Handle → Bool} {ext : Handle → Nat} {h₀ : Heap} :
    ∀ {n : Nat} {h : Heap} {waiting : List Handle}, Sweeping pinned ext h₀ h waiting →
    {x | h.contains x = true}.ncard ≤ n →
    let r := sweepRounds pinned n waiting h
    Sweeping pinned ext h₀ r.2 [] ∧
      r.1.length + {x | r.2.contains x = true}.ncard = {x | h.contains x = true}.ncard
  | 0, h, waiting, hs, hn => by
    have hnone : ∀ x, h.contains x ≠ true := fun x hx => by
      have := (Set.ncard_eq_zero).1 (Nat.le_zero.1 hn)
      exact Set.notMem_empty x (this ▸ hx)
    refine ⟨⟨hs.tallied, hs.object, hs.kept, fun x o hx => ?_, fun x hx => by cases hx⟩, ?_⟩
    · exact (hnone x (contains_iff.2 ⟨_, hx⟩)).elim
    · exact Nat.zero_add _
  | n + 1, h, waiting, hs, hn => by
    intro r
    cases hnext : h.nextUnheld waiting with
    | none =>
      simp only [r, sweepRounds, hnext]
      exact ⟨⟨hs.tallied, hs.object, hs.kept, hs.waits.held hnext⟩, Nat.zero_add _⟩
    | some found =>
      obtain ⟨x, o, rest⟩ := found
      simp only [r, sweepRounds, hnext]
      obtain ⟨hs', hx, hiff⟩ := hs.round hnext
      have hset : {y | (releaseChildren pinned o.children rest (h.clear x.index)).2.contains y = true} =
          {y | h.contains y = true} \ {x} := Set.ext hiff
      have hcard := Set.ncard_sdiff_singleton_add_one (s := {y | h.contains y = true}) hx
      rw [← hset] at hcard
      obtain ⟨hend, hlen⟩ := hs'.rounds (n := n) (by omega)
      refine ⟨hend, ?_⟩
      rw [List.length_cons]
      omega

/-- A sweep frees the live objects that are not kept, answers as many, leaves what the others hold, and
counts are tallied behind it. -/
theorem sweep_frees_garbage (h : Heap) (ext : Handle → Nat) (pinned : Handle → Bool)
    (ht : h.Tallied ext) :
    let r := h.sweep pinned
    (∀ x, r.2.contains x = true ↔ h.contains x = true ∧ h.Kept pinned ext x) ∧
    r.1.length = {x | h.contains x = true ∧ ¬ h.Kept pinned ext x}.ncard ∧
    (∀ x, r.2.contains x = true → r.2.object? x = h.object? x) ∧
    r.2.Tallied ext := by
  intro r
  have hstart : Sweeping pinned ext h h (h.unheld pinned) := by
    refine ⟨ht, fun x o ho => ho, fun x hx => ?_, waits_unheld h pinned⟩
    obtain ⟨y, hy, hyx⟩ := hx
    rcases Relation.ReflTransGen.cases_tail hyx with rfl | ⟨z, -, hzx⟩
    · exact hy.live
    · exact ht.live z x hzx
  obtain ⟨hend, hlen⟩ := hstart.rounds h.ncard_live_le
  have hiff : ∀ x, r.2.contains x = true ↔ h.contains x = true ∧ h.Kept pinned ext x := fun x => by
    refine ⟨fun hx => ⟨?_, hend.kept_of_contains hx⟩, fun hx => hend.kept x hx.2⟩
    obtain ⟨o, ho⟩ := exists_object?_of_contains hx
    exact contains_of_object? (hend.object x o ho)
  refine ⟨hiff, ?_, fun x hx => hend.object_eq hx, ⟨hend.tallied.live, hend.tallied.count⟩⟩
  have hset : {x | h.contains x = true ∧ ¬ h.Kept pinned ext x} =
      {x | h.contains x = true} \ {x | r.2.contains x = true} := by
    ext x
    simp only [Set.mem_ofPred_eq, Set.mem_sdiff, hiff]
    tauto
  have hsub : {x | r.2.contains x = true} ⊆ {x | h.contains x = true} := fun x hx => ((hiff x).1 hx).1
  rw [hset, Set.ncard_sdiff hsub]
  change r.1.length + {x | r.2.contains x = true}.ncard = _ at hlen
  omega

/-- Counts can be tallied slot by slot, with handles for all slots. -/
theorem tallied_of_slots {h : Heap} {ext : Handle → Nat} (hs : h.slots.size ≤ 2 ^ 32)
    (hlive : ∀ y ∈ h.inner, h.contains y = true)
    (hcount : ∀ s ∈ h.slots.toList.zipIdx, ∀ c ∈ s.1.cell,
      c.count = ext ⟨UInt32.ofNat s.2, s.1.generation⟩ +
        h.inner.count ⟨UInt32.ofNat s.2, s.1.generation⟩) : h.Tallied ext := by
  refine ⟨fun x y ⟨o, ho, hy⟩ => ?_, fun x c hx => ?_⟩
  · obtain ⟨n, hn⟩ := object?_eq_some_iff.1 ho
    exact hlive y (mem_inner_of_find? hn hy)
  · rw [holders_eq_count_inner hs]
    rw [find?_eq_some_iff, ← Array.getElem?_toList] at hx
    have := hcount _ (List.mk_mem_zipIdx_iff_getElem?.2 hx) c rfl
    rwa [UInt32.ofNat_toNat] at this

/-- An array that nothing holds with its item, an array that holds itself, a string, and an array that
nothing holds with its item. -/
def islands : Heap where
  slots := #[⟨0, some ⟨0, .array #[.object ⟨1, 0⟩]⟩⟩, ⟨0, some ⟨1, .string "a"⟩⟩,
    ⟨0, some ⟨1, .array #[.object ⟨2, 0⟩]⟩⟩, ⟨0, some ⟨1, .string "b"⟩⟩,
    ⟨0, some ⟨0, .array #[.object ⟨5, 0⟩]⟩⟩, ⟨0, some ⟨1, .string "c"⟩⟩]
  live := 6

/-- If the lone string is held from outside and the last array is pinned, just the first array and its
item go. -/
theorem sweep_frees_garbage_islands :
    let ext : Handle → Nat := fun x => if x.index = 3 then 1 else 0
    let pinned : Handle → Bool := fun x => x.index = 4
    islands.Tallied ext ∧
    {x | islands.contains x = true ∧ ¬ islands.Kept pinned ext x}.ncard = 2 ∧
    ¬ islands.Kept pinned ext ⟨1, 0⟩ ∧ islands.Kept pinned ext ⟨2, 0⟩ ∧
    islands.Kept pinned ext ⟨5, 0⟩ ∧ (islands.sweep pinned).2.Tallied ext := by
  intro ext pinned
  have ht : islands.Tallied ext := tallied_of_slots (by decide) (by decide) (by decide)
  obtain ⟨hiff, hlen, -, ht'⟩ := sweep_frees_garbage islands ext pinned ht
  refine ⟨ht, hlen.symm.trans (by decide +kernel), fun hk => ?_, ?_, ?_, ht'⟩
  · exact absurd ((hiff ⟨1, 0⟩).2 ⟨by decide +kernel, hk⟩) (by decide +kernel)
  · exact ((hiff ⟨2, 0⟩).1 (by decide +kernel)).2
  · exact ((hiff ⟨5, 0⟩).1 (by decide +kernel)).2

end Heap

end Scriptlet
