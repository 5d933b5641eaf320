import Mathlib.Data.List.Count
import Scriptlet.Proofs.Heap.Sweeping

/-!
# Handles are never used twice

`Heap.History` carries operations on a heap out and records the handles that were issued and the slots
that were freed. With fewer than 2 ^ 32 slots, none of them freed 2 ^ 32 times, the generation of a slot
is the number of times that it was freed (`Arena.generation`). So a slot that is used again gives a
handle that was not issued before, and the handles to what it held before stay stale.

An operation that changes counts or contents leaves the outline of the heap alone (`Heap.Like`); what is
left are new objects (`Arena.allocate`) and the rounds of a sweep (`Arena.clear`, `Arena.sweepRounds`).

Main statement: `Heap.handles_safe`.
-/

namespace Scriptlet.Heap

/-- The heap that an operation leaves behind, also when it fails. -/
def Action.final {α : Type} (act : Action α) (h : Heap) : Heap :=
  match act h with
  | .ok _ h' => h'
  | .error _ h' => h'

/-- An operation on a heap. -/
inductive Op where
  | allocate (o : Object)
  | retain (v : Value)
  | release (v : Value)
  /-- Overwrites a place outside of the heap. -/
  | replace (place new : Value)
  | setElement (x : Handle) (index : Nat) (v : Value)
  /-- Overwrites an object as a whole. -/
  | exchange (x : Handle) (o : Object)
  | sweep (pinned : Handle → Bool)

/-- A heap with what led to it: the handles that were issued and the slots that were freed, the latest
first. -/
structure History where
  heap : Heap := .empty
  issued : List Handle := []
  freed : List UInt32 := []

namespace History

/-- Carries an operation out, and records it. -/
def note (r : History) : Op → History
  | .allocate o =>
    { r with heap := (r.heap.allocate o).2, issued := (r.heap.allocate o).1 :: r.issued }
  | .retain v => { r with heap := (Heap.retain v).final r.heap }
  | .release v => { r with heap := (Heap.release v).final r.heap }
  | .replace place new => { r with heap := (r.heap.replace place new).heap }
  | .setElement x index v => { r with heap := (Heap.setElement x index v).final r.heap }
  | .exchange x o => { r with heap := (Heap.exchange x o).final r.heap }
  | .sweep pinned =>
    { r with
      heap := (r.heap.sweep pinned).2
      freed := (r.heap.sweep pinned).1.reverse.map Freed.index ++ r.freed }

/-- The history of some operations on the empty heap. -/
def ofOps (ops : List Op) : History := ops.foldl note {}

end History

/-- The number of slots that hold an object. -/
def occupied (h : Heap) : Nat := h.slots.toList.countP fun s => s.cell.isSome

/-- The heap refuses a handle as stale, and stays as it is. -/
structure Rejects (h : Heap) (x : Handle) : Prop where
  get : Heap.get x h = .error .staleHandle h
  retain : Heap.retain (.object x) h = .error .staleHandle h
  release : Heap.release (.object x) h = .error .staleHandle h
  setElement : ∀ index v, Heap.setElement x index v h = .error .staleHandle h

theorem rejects_of_not_contains {h : Heap} {x : Handle} (hx : h.contains x = false) : h.Rejects x := by
  have ho : h.object? x = none := by
    cases ho : h.object? x with
    | none => rfl
    | some o =>
      rw [contains_of_object? ho] at hx
      cases hx
  refine ⟨?_, ?_, ?_, fun index v => ?_⟩
  · simp only [Heap.get, ho]
  · simp only [Heap.retain, hx]
    rfl
  · simp only [Heap.release, hx]
    rfl
  · simp only [Heap.setElement, ho]

/-! ## Outlines -/

/-- What a slot looks like without its contents. -/
def Slot.outline (s : Slot) : UInt32 × Bool := (s.generation, s.cell.isSome)

/-- Two heaps that differ in counts and contents only. -/
structure Like (h h' : Heap) : Prop where
  slots : h'.slots.map Slot.outline = h.slots.map Slot.outline
  free : h'.free = h.free
  live : h'.live = h.live
  allocations : h'.stats.allocations = h.stats.allocations
  swept : h'.stats.swept = h.stats.swept

theorem contains_iff_outline {h : Heap} {x : Handle} : h.contains x = true ↔
    (h.slots[x.index.toNat]?).map Slot.outline = some (x.generation, true) := by
  rw [contains_iff]
  simp only [find?_eq_some_iff, Option.map_eq_some_iff]
  constructor
  · rintro ⟨c, hc⟩
    exact ⟨_, hc, rfl⟩
  · rintro ⟨⟨g, cell⟩, hs, ho⟩
    cases cell with
    | none => cases ho
    | some c =>
      cases ho
      exact ⟨c, hs⟩

theorem empty_iff_outline {h : Heap} {k : Nat} {g : UInt32} :
    h.slots[k]? = some ⟨g, none⟩ ↔ (h.slots[k]?).map Slot.outline = some (g, false) := by
  rw [Option.map_eq_some_iff]
  constructor
  · exact fun hs => ⟨_, hs, rfl⟩
  · rintro ⟨⟨g', cell⟩, hs, ho⟩
    cases cell with
    | none =>
      cases ho
      exact hs
    | some c => cases ho

theorem occupied_eq_countP_outline (h : Heap) :
    h.occupied = (h.slots.map Slot.outline).toList.countP Prod.snd := by
  rw [Array.toList_map, List.countP_map]
  rfl

theorem occupied_eq_sum (h : Heap) :
    h.occupied = (h.slots.toList.map fun s => s.cell.isSome.toNat).sum := by
  unfold occupied
  induction h.slots.toList with
  | nil => rfl
  | cons s ss ih =>
    rw [List.countP_cons, List.map_cons, List.sum_cons, ih, Nat.add_comm]
    cases s.cell.isSome <;> rfl

namespace Like

variable {h h' h₁ h₂ h₃ : Heap}

theorem refl (h : Heap) : h.Like h := ⟨rfl, rfl, rfl, rfl, rfl⟩

theorem trans (h₁₂ : h₁.Like h₂) (h₂₃ : h₂.Like h₃) : h₁.Like h₃ :=
  ⟨h₂₃.slots.trans h₁₂.slots, h₂₃.free.trans h₁₂.free, h₂₃.live.trans h₁₂.live,
    h₂₃.allocations.trans h₁₂.allocations, h₂₃.swept.trans h₁₂.swept⟩

theorem getElem? (hl : h.Like h') (k : Nat) :
    (h'.slots[k]?).map Slot.outline = (h.slots[k]?).map Slot.outline := by
  rw [← Array.getElem?_map, hl.slots, Array.getElem?_map]

theorem size_eq (hl : h.Like h') : h'.slots.size = h.slots.size := by
  have := congrArg Array.size hl.slots
  rwa [Array.size_map, Array.size_map] at this

theorem contains_iff (hl : h.Like h') (x : Handle) : h'.contains x = true ↔ h.contains x = true := by
  rw [contains_iff_outline, contains_iff_outline, hl.getElem?]

theorem empty_iff (hl : h.Like h') (k : Nat) (g : UInt32) :
    h'.slots[k]? = some ⟨g, none⟩ ↔ h.slots[k]? = some ⟨g, none⟩ := by
  rw [empty_iff_outline, empty_iff_outline, hl.getElem?]

theorem occupied (hl : h.Like h') : h'.occupied = h.occupied := by
  rw [occupied_eq_countP_outline, occupied_eq_countP_outline, hl.slots]

theorem wellFormed (hl : h.Like h') (hw : h.WellFormed) : h'.WellFormed := by
  refine ⟨hl.free ▸ hw.nodup, fun i hi => ?_⟩
  obtain ⟨g, hg⟩ := hw.empty i (hl.free ▸ hi)
  exact ⟨g, (hl.empty_iff _ _).2 hg⟩

end Like

theorem like_modifyCell (h : Heap) (x : Handle) (f : Cell → Cell) : h.Like (h.modifyCell x f) := by
  refine ⟨?_, rfl, rfl, rfl, rfl⟩
  apply Array.ext_getElem?
  intro k
  rw [Array.getElem?_map, Array.getElem?_map]
  simp only [modifyCell, Array.getElem?_modify]
  split
  · cases h.slots[k]? <;> simp [Slot.outline]
  · rfl

/-- The operation changes counts and contents only, also when it fails. -/
def Alike {α : Type} (act : Action α) : Prop := ∀ h : Heap, h.Like (act.final h)

theorem Alike.bind {α β : Type} {act : Action α} {k : α → Action β} (ha : Alike act)
    (hk : ∀ a, Alike (k a)) : Alike (act >>= k) := by
  intro h
  have h₁ := ha h
  simp only [Action.final, Bind.bind, EStateM.bind] at h₁ ⊢
  cases hr : act h with
  | ok a h' =>
    rw [hr] at h₁
    exact h₁.trans (hk a h')
  | error f h' =>
    rw [hr] at h₁
    exact h₁

theorem alike_retain (v : Value) : Alike (retain v) := by
  intro h
  unfold Action.final retain
  cases v with
  | object x =>
    dsimp only
    by_cases hx : h.contains x = true
    · rw [if_pos hx]
      exact (like_modifyCell h x _).trans ⟨rfl, rfl, rfl, rfl, rfl⟩
    · rw [if_neg hx]
      exact .refl h
  | _ => exact .refl h

theorem alike_release (v : Value) : Alike (release v) := by
  intro h
  unfold Action.final release
  cases v with
  | object x =>
    dsimp only
    by_cases hx : h.contains x = true
    · rw [if_pos hx]
      exact (like_modifyCell h x _).trans ⟨rfl, rfl, rfl, rfl, rfl⟩
    · rw [if_neg hx]
      exact .refl h
  | _ => exact .refl h

theorem like_replace (h : Heap) (place new : Value) : h.Like (h.replace place new).heap := by
  have hboth := (alike_retain new).bind (fun _ => alike_release place) h
  simp only [Action.final, bind, EStateM.bind] at hboth
  unfold replace
  cases hr : retain new h with
  | error f h' =>
    rw [hr] at hboth
    exact hboth
  | ok a h' =>
    rw [hr] at hboth
    dsimp only at hboth ⊢
    cases hr' : release place h' <;> rw [hr'] at hboth <;> exact hboth

theorem alike_setElement (x : Handle) (index : Nat) (v : Value) : Alike (setElement x index v) := by
  intro h
  unfold Action.final Heap.setElement
  cases h.object? x with
  | none => exact .refl h
  | some o =>
    dsimp only
    cases o.elements? with
    | none => exact .refl h
    | some vs =>
      dsimp only
      cases vs[index]? with
      | none => exact .refl h
      | some old =>
        exact (like_modifyCell h x _).trans ((alike_retain v).bind (fun _ => alike_release old) _)

theorem alike_exchange (x : Handle) (o : Object) : Alike (exchange x o) := by
  intro h
  unfold Action.final exchange
  cases h.object? x with
  | none => exact .refl h
  | some old => exact like_modifyCell h x _

theorem like_releaseChildren (pinned : Handle → Bool) (xs waiting : List Handle) (h : Heap) :
    h.Like (releaseChildren pinned xs waiting h).2 := by
  induction xs generalizing waiting h with
  | nil => exact .refl h
  | cons x xs ih =>
    unfold releaseChildren
    cases h.find? x with
    | none => exact ih waiting h
    | some c =>
      refine Like.trans ?_ (ih _ _)
      exact (like_modifyCell h x _).trans ⟨rfl, rfl, rfl, rfl, rfl⟩

/-! ## New objects -/

section allocate

variable {h : Heap} (hw : h.WellFormed) (hs : h.slots.size < 2 ^ 32) {o : Object}
include hw hs

/-- Allocation fills the slot of the new handle, and leaves the others alone. -/
theorem getElem?_allocate (i : UInt32) : (h.allocate o).2.slots[i.toNat]? =
    if i = (h.allocate o).1.index then some ⟨(h.allocate o).1.generation, some ⟨0, o⟩⟩
    else h.slots[i.toNat]? := by
  obtain ⟨j, g, free, -, hg, hx, -, hslots⟩ | ⟨-, hx, hj, -, hslots⟩ := allocate_cases hw hs o
  · rw [hslots, hx, Array.getElem?_modify]
    by_cases hi : i = j
    · rw [if_pos hi, if_pos (by rw [hi]), hi, hg]
      rfl
    · rw [if_neg hi, if_neg fun he => hi (UInt32.toNat.inj he.symm)]
  · rw [hslots, hx, Array.getElem?_push]
    by_cases hi : i = UInt32.ofNat h.slots.size
    · rw [if_pos hi, if_pos (by rw [hi, hj])]
    · rw [if_neg hi, if_neg fun he => hi (UInt32.toNat.inj (he.trans hj.symm))]

theorem mem_free_allocate {i : UInt32} (hne : i ≠ (h.allocate o).1.index) (hi : i ∈ h.free) :
    i ∈ (h.allocate o).2.free := by
  obtain ⟨j, g, free, hf, -, hx, hfree, -⟩ | ⟨hf, -⟩ := allocate_cases hw hs o
  · rw [hf] at hi
    rw [hx] at hne
    rw [hfree]
    exact (List.mem_cons.1 hi).resolve_left hne
  · rw [hf] at hi
    cases hi

end allocate

/-- A new object takes an empty slot, whether a handle can name it or not. -/
theorem occupied_allocate {h : Heap} (hw : h.WellFormed) (o : Object) :
    (h.allocate o).2.occupied = h.occupied + 1 := by
  unfold allocate
  split
  · next i free hf =>
    obtain ⟨g, hg⟩ := hw.empty i (by simp [hf])
    rw [← Array.getElem?_toList] at hg
    rw [occupied_eq_sum, occupied_eq_sum, Array.toList_modify]
    exact sum_map_modify (fun s => s.cell.isSome.toNat) _ _ _ _ hg
  · rw [occupied_eq_sum, occupied_eq_sum, Array.toList_push, List.map_append, List.sum_append]
    rfl

theorem occupied_clear {h : Heap} {x : Handle} {c : Cell} (hx : h.find? x = some c) :
    (h.clear x.index).occupied + 1 = h.occupied := by
  rw [find?_eq_some_iff, ← Array.getElem?_toList] at hx
  rw [occupied_eq_sum, occupied_eq_sum, Heap.clear, Array.toList_modify]
  exact sum_map_modify (fun s => s.cell.isSome.toNat) _ _ _ _ hx

theorem live_allocate (h : Heap) (o : Object) : (h.allocate o).2.live = h.live + 1 := by
  unfold allocate
  split <;> rfl

/-! ## Slots, generations and handles -/

/-- A heap of which handles were issued and slots were freed. Its free list are the empty slots, it knows
its number of objects, the generation of a slot is the number of times that it was freed, and a handle
that was issued is live unless its slot was freed since. -/
structure Arena (h : Heap) (issued : List Handle) (freed : List UInt32) : Prop where
  wellFormed : h.WellFormed
  listed : ∀ (i : UInt32) (g : UInt32), h.slots[i.toNat]? = some ⟨g, none⟩ → i ∈ h.free
  live : h.live = h.occupied
  balance : h.live + freed.length = h.stats.allocations
  generation : ∀ (i : UInt32) (g : UInt32) (c : Option Cell), h.slots[i.toNat]? = some ⟨g, c⟩ →
    g = UInt32.ofNat (freed.count i)
  inside : ∀ i ∈ freed, i.toNat < h.slots.size
  current : ∀ x ∈ issued, x.generation.toNat < freed.count x.index ∨
    (x.generation.toNat = freed.count x.index ∧ h.contains x = true)
  known : ∀ x, h.contains x = true → x ∈ issued
  nodup : issued.Nodup

namespace Arena

variable {h h' : Heap} {issued : List Handle} {freed : List UInt32}

theorem like (ha : h.Arena issued freed) (hl : h.Like h') : h'.Arena issued freed where
  wellFormed := hl.wellFormed ha.wellFormed
  listed i g hi := hl.free ▸ ha.listed i g ((hl.empty_iff _ g).1 hi)
  live := by rw [hl.live, hl.occupied, ha.live]
  balance := by rw [hl.live, hl.allocations, ha.balance]
  generation i g c hi := by
    have hout := hl.getElem? i.toNat
    rw [hi, Option.map_some, eq_comm, Option.map_eq_some_iff] at hout
    obtain ⟨⟨g', c'⟩, hi', ho⟩ := hout
    rw [← ha.generation i g' c' hi']
    exact (congrArg Prod.fst ho).symm
  inside i hi := by
    rw [hl.size_eq]
    exact ha.inside i hi
  current x hx := (ha.current x hx).imp_right fun hc => ⟨hc.1, (hl.contains_iff x).2 hc.2⟩
  known x hx := ha.known x ((hl.contains_iff x).1 hx)
  nodup := ha.nodup

/-- A slot that is freed is one object less, and one generation further. -/
theorem clear (ha : h.Arena issued freed) {x : Handle} {c : Cell} (hx : h.find? x = some c) :
    (h.clear x.index).Arena issued (x.index :: freed) := by
  have hslot := find?_eq_some_iff.1 hx
  have hoccupied := occupied_clear hx
  have hget : ∀ i : UInt32, (h.clear x.index).slots[i.toNat]? =
      if i = x.index then some ⟨x.generation + 1, none⟩ else h.slots[i.toNat]? := fun i => by
    simp only [Heap.clear, Array.getElem?_modify]
    by_cases hi : i = x.index
    · rw [if_pos hi, if_pos (by rw [hi]), hi, hslot]
      rfl
    · rw [if_neg hi, if_neg fun he => hi (UInt32.toNat.inj he.symm)]
  have hcontains : ∀ y, (h.clear x.index).contains y = true ↔ y ≠ x ∧ h.contains y = true :=
    fun y => by
      rw [Heap.contains, Heap.contains, find?_clear hx]
      by_cases hy : y = x <;> simp [hy]
  refine ⟨ha.wellFormed.clear hx, fun i g hi => ?_, ?_, ?_, fun i g c' hi => ?_, fun i hi => ?_,
    fun y hy => ?_, fun y hy => ha.known y ((hcontains y).1 hy).2, ha.nodup⟩
  · rw [hget] at hi
    by_cases hix : i = x.index
    · rw [hix]
      exact List.mem_cons_self
    · rw [if_neg hix] at hi
      exact List.mem_cons_of_mem _ (ha.listed i g hi)
  · have := ha.live
    change h.live - 1 = _
    omega
  · have hlive := ha.live
    have hbalance := ha.balance
    change h.live - 1 + (freed.length + 1) = h.stats.allocations
    omega
  · rw [hget] at hi
    by_cases hix : i = x.index
    · rw [if_pos hix] at hi
      cases hi
      rw [hix, List.count_cons_self, UInt32.ofNat_add, ← ha.generation x.index _ _ hslot]
      rfl
    · rw [if_neg hix] at hi
      rw [List.count_cons_of_ne (Ne.symm hix)]
      exact ha.generation i g c' hi
  · rw [size_clear]
    rcases List.mem_cons.1 hi with rfl | hi
    · exact (Array.getElem?_eq_some_iff.1 hslot).1
    · exact ha.inside i hi
  · by_cases hyx : y.index = x.index
    · -- whatever was issued for the slot is of an earlier generation now
      rw [hyx, List.count_cons_self, ← hyx]
      rcases ha.current y hy with hlt | ⟨heq, -⟩
      · exact .inl (by omega)
      · exact .inl (by omega)
    · rw [List.count_cons_of_ne (Ne.symm hyx)]
      refine (ha.current y hy).imp_right fun hc => ⟨hc.1, (hcontains y).2 ⟨?_, hc.2⟩⟩
      exact fun he => hyx (by rw [he])

/-- The generation of the next object is the number of times that its slot was freed. -/
theorem generation_new (ha : h.Arena issued freed) (hs : h.slots.size < 2 ^ 32) (o : Object) :
    (h.allocate o).1.generation = UInt32.ofNat (freed.count (h.allocate o).1.index) := by
  obtain ⟨i, g, free, -, hg, hx, -⟩ | ⟨-, hx, hi, -⟩ := allocate_cases ha.wellFormed hs o
  · rw [hx]
    exact ha.generation i g none hg
  · rw [hx, List.count_eq_zero.2 fun hm => ?_]
    · rfl
    · have := ha.inside _ hm
      rw [hi] at this
      exact Nat.lt_irrefl _ this

/-- A slot of the free list, or a new one, gives a handle that was not issued before. -/
theorem allocate (ha : h.Arena issued freed) (hs : h.slots.size < 2 ^ 32)
    (hfreed : ∀ i, freed.count i < 2 ^ 32) (o : Object) :
    (h.allocate o).2.Arena ((h.allocate o).1 :: issued) freed := by
  have hw := ha.wellFormed
  have hcontains : ∀ y, (h.allocate o).2.contains y = true ↔
      y = (h.allocate o).1 ∨ h.contains y = true := fun y => by
    rw [Heap.contains, Heap.contains, find?_allocate_eq hw hs]
    by_cases hy : y = (h.allocate o).1 <;> simp [hy]
  have hcount : (h.allocate o).1.generation.toNat = freed.count (h.allocate o).1.index := by
    rw [ha.generation_new hs o, UInt32.toNat_ofNat', Nat.mod_eq_of_lt (hfreed _)]
  -- what was issued for this slot before is of an earlier generation, or would be live
  have hnew : (h.allocate o).1 ∉ issued := fun hm => by
    rcases ha.current _ hm with hlt | ⟨-, hc⟩
    · omega
    · rw [Heap.contains, find?_new hw hs o] at hc
      cases hc
  refine ⟨hw.allocate hs o, fun i g hi => ?_, ?_, ?_, fun i g c hi => ?_, fun i hi => ?_,
    fun y hy => ?_, fun y hy => ?_, List.nodup_cons.2 ⟨hnew, ha.nodup⟩⟩
  · rw [getElem?_allocate hw hs] at hi
    split at hi
    · cases hi
    · next hne => exact mem_free_allocate hw hs hne (ha.listed i g hi)
  · rw [live_allocate, occupied_allocate hw, ha.live]
  · rw [live_allocate, stats_allocate]
    have := ha.balance
    dsimp only
    omega
  · rw [getElem?_allocate hw hs] at hi
    split at hi
    · next heq =>
      cases hi
      rw [heq]
      exact ha.generation_new hs o
    · exact ha.generation i g c hi
  · exact Nat.lt_of_lt_of_le (ha.inside i hi) (size_le_allocate h o)
  · rcases List.mem_cons.1 hy with rfl | hy
    · exact .inr ⟨hcount, (hcontains _).2 (.inl rfl)⟩
    · exact (ha.current y hy).imp_right fun hc => ⟨hc.1, (hcontains y).2 (.inr hc.2)⟩
  · rcases (hcontains y).1 hy with rfl | hy
    · exact List.mem_cons_self
    · exact List.mem_cons_of_mem _ (ha.known y hy)

/-- The rounds of a sweep free slots one after the other. -/
theorem sweepRounds {h : Heap} {freed : List UInt32} (ha : h.Arena issued freed)
    (pinned : Handle → Bool) (n : Nat) (waiting : List Handle) :
    (Heap.sweepRounds pinned n waiting h).2.Arena issued
        ((Heap.sweepRounds pinned n waiting h).1.reverse.map Freed.index ++ freed) ∧
      (Heap.sweepRounds pinned n waiting h).2.stats.swept = h.stats.swept := by
  induction n generalizing waiting h freed with
  | zero => exact ⟨ha, rfl⟩
  | succ n ih =>
    unfold Heap.sweepRounds
    split
    · exact ⟨ha, rfl⟩
    · next x o rest hn =>
      obtain ⟨hx, -, -⟩ := Exact.nextUnheld hn
      have hlike := like_releaseChildren pinned o.children rest (h.clear x.index)
      obtain ⟨hrest, hswept⟩ := ih ((ha.clear hx).like hlike) _
      dsimp only
      rw [List.reverse_cons, List.map_append, List.append_assoc]
      exact ⟨hrest, hswept.trans hlike.swept⟩

end Arena

/-! ## Histories -/

namespace History

/-- There are handles for all slots, and generations for all objects that they held. -/
structure Bounded (r : History) : Prop where
  slots : r.heap.slots.size < 2 ^ 32
  freed : ∀ i, r.freed.count i < 2 ^ 32

/-- The history goes on: slots are not taken away, and nothing is forgotten. -/
structure Grows (r r' : History) : Prop where
  slots : r.heap.slots.size ≤ r'.heap.slots.size
  freed : ∀ i, r.freed.count i ≤ r'.freed.count i
  issued : ∀ x ∈ r.issued, x ∈ r'.issued

theorem Grows.refl (r : History) : r.Grows r := ⟨Nat.le_refl _, fun _ => Nat.le_refl _, fun _ hx => hx⟩

theorem Grows.trans {r₁ r₂ r₃ : History} (h₁₂ : r₁.Grows r₂) (h₂₃ : r₂.Grows r₃) : r₁.Grows r₃ :=
  ⟨Nat.le_trans h₁₂.slots h₂₃.slots, fun i => Nat.le_trans (h₁₂.freed i) (h₂₃.freed i),
    fun x hx => h₂₃.issued x (h₁₂.issued x hx)⟩

theorem Bounded.of_grows {r r' : History} (hb : r'.Bounded) (hg : r.Grows r') : r.Bounded :=
  ⟨Nat.lt_of_le_of_lt hg.slots hb.slots, fun i => Nat.lt_of_le_of_lt (hg.freed i) (hb.freed i)⟩

/-- The slots and handles of a history are in order, and all that was freed was counted. -/
structure Kept (r : History) : Prop where
  arena : r.heap.Arena r.issued r.freed
  swept : r.heap.stats.swept = r.freed.length

theorem grows_like {r : History} {h : Heap} (hl : r.heap.Like h) : r.Grows { r with heap := h } :=
  ⟨Nat.le_of_eq hl.size_eq.symm, fun _ => Nat.le_refl _, fun _ hx => hx⟩

theorem Kept.like {r : History} (hr : r.Kept) {h : Heap} (hl : r.heap.Like h) :
    Kept { r with heap := h } :=
  ⟨hr.arena.like hl, hl.swept.trans hr.swept⟩

theorem grows_note (r : History) (op : Op) : r.Grows (r.note op) := by
  cases op with
  | allocate o =>
    exact ⟨size_le_allocate r.heap o, fun _ => Nat.le_refl _, fun _ => List.mem_cons_of_mem _⟩
  | retain v => exact grows_like (alike_retain v r.heap)
  | release v => exact grows_like (alike_release v r.heap)
  | replace place new => exact grows_like (like_replace r.heap place new)
  | setElement x index v => exact grows_like (alike_setElement x index v r.heap)
  | exchange x o => exact grows_like (alike_exchange x o r.heap)
  | sweep pinned =>
    refine ⟨Nat.le_of_eq (size_sweep r.heap pinned).symm, fun i => ?_, fun _ hx => hx⟩
    change _ ≤ List.count i (_ ++ r.freed)
    rw [List.count_append]
    exact Nat.le_add_left _ _

/-- One operation keeps slots and handles in order. -/
theorem Kept.note {r : History} (hr : r.Kept) {op : Op} (hb : (r.note op).Bounded) :
    (r.note op).Kept := by
  have hb' := hb.of_grows (r.grows_note op)
  cases op with
  | allocate o =>
    refine ⟨hr.arena.allocate hb'.slots hb'.freed o, ?_⟩
    change (r.heap.allocate o).2.stats.swept = _
    rw [stats_allocate]
    exact hr.swept
  | retain v => exact hr.like (alike_retain v r.heap)
  | release v => exact hr.like (alike_release v r.heap)
  | replace place new => exact hr.like (like_replace r.heap place new)
  | setElement x index v => exact hr.like (alike_setElement x index v r.heap)
  | exchange x o => exact hr.like (alike_exchange x o r.heap)
  | sweep pinned =>
    obtain ⟨harena, hswept⟩ := hr.arena.sweepRounds pinned r.heap.slots.size (r.heap.unheld pinned)
    refine ⟨⟨⟨harena.wellFormed.nodup, harena.wellFormed.empty⟩, harena.listed, harena.live,
      harena.balance, harena.generation, harena.inside, harena.current, harena.known,
      harena.nodup⟩, ?_⟩
    change (Heap.sweepRounds ..).2.stats.swept + (Heap.sweepRounds ..).1.length =
      List.length (List.map _ (Heap.sweepRounds ..).1.reverse ++ r.freed)
    rw [hswept, hr.swept, List.length_append, List.length_map, List.length_reverse, Nat.add_comm]

theorem grows_foldl (ops : List Op) (r : History) : r.Grows (ops.foldl note r) := by
  induction ops generalizing r with
  | nil => exact .refl r
  | cons op ops ih => exact (r.grows_note op).trans (ih (r.note op))

theorem kept_foldl {ops : List Op} {r : History} (hr : r.Kept) (hb : (ops.foldl note r).Bounded) :
    (ops.foldl note r).Kept := by
  induction ops generalizing r with
  | nil => exact hr
  | cons op ops ih => exact ih (hr.note (hb.of_grows (grows_foldl ops (r.note op)))) hb

theorem kept_ofOps {ops : List Op} (hb : (ofOps ops).Bounded) : (ofOps ops).Kept := by
  have hnone : ∀ (k : Nat) (s : Slot), Heap.empty.slots[k]? ≠ some s := fun k s => by simp [Heap.empty]
  refine kept_foldl (r := {}) ⟨⟨⟨.nil, fun i hi => absurd hi List.not_mem_nil⟩,
    fun i g hi => absurd hi (hnone _ _), rfl, rfl, fun i g c hi => absurd hi (hnone _ _),
    fun i hi => absurd hi List.not_mem_nil, fun x hx => absurd hx List.not_mem_nil, fun x hx => ?_,
    .nil⟩, rfl⟩ hb
  obtain ⟨c, hc⟩ := contains_iff.1 hx
  exact absurd (find?_eq_some_iff.1 hc) (hnone _ _)

theorem grows_ofOps (before later : List Op) : (ofOps before).Grows (ofOps (before ++ later)) := by
  unfold ofOps
  rw [List.foldl_append]
  exact grows_foldl later _

/-- The heap answers for its objects, its empty slots and its handles. -/
structure Sound (r : History) : Prop where
  live : r.heap.live = r.heap.occupied
  balance : r.heap.live + r.heap.stats.swept = r.heap.stats.allocations
  free_nodup : r.heap.free.Nodup
  mem_free : ∀ k : Nat, k ∈ r.heap.free.map UInt32.toNat ↔ ∃ g, r.heap.slots[k]? = some ⟨g, none⟩
  issued_nodup : r.issued.Nodup

theorem Kept.sound {r : History} (hr : r.Kept) (hs : r.heap.slots.size < 2 ^ 32) : r.Sound where
  live := hr.arena.live
  balance := by rw [hr.swept, hr.arena.balance]
  free_nodup := hr.arena.wellFormed.nodup
  mem_free k := by
    rw [List.mem_map]
    constructor
    · rintro ⟨i, hi, rfl⟩
      exact hr.arena.wellFormed.empty i hi
    · rintro ⟨g, hg⟩
      have hk : (UInt32.ofNat k).toNat = k := by
        have := (Array.getElem?_eq_some_iff.1 hg).1
        rw [UInt32.toNat_ofNat', Nat.mod_eq_of_lt (by omega)]
      exact ⟨UInt32.ofNat k, hr.arena.listed _ g (by rw [hk, hg]), hk⟩
  issued_nodup := hr.arena.nodup

/-- A handle that was issued and is not live belongs to an earlier object of its slot. -/
theorem Kept.past {r : History} (hr : r.Kept) {x : Handle} (hx : x ∈ r.issued)
    (hc : r.heap.contains x = false) : x.generation.toNat < r.freed.count x.index := by
  rcases hr.arena.current x hx with hlt | ⟨-, hlive⟩
  · exact hlt
  · rw [hc] at hlive
    cases hlive

/-- A live handle has the latest generation of its slot. -/
theorem Kept.latest {r : History} (hr : r.Kept) (hb : r.Bounded) {x : Handle}
    (hx : r.heap.contains x = true) : x.generation.toNat = r.freed.count x.index := by
  obtain ⟨c, hc⟩ := contains_iff.1 hx
  rw [hr.arena.generation x.index _ _ (find?_eq_some_iff.1 hc), UInt32.toNat_ofNat',
    Nat.mod_eq_of_lt (hb.freed _)]

end History

open History

/-- Whatever is done to an empty heap, with fewer than 2 ^ 32 slots of which none is freed 2 ^ 32 times:
its number of objects is right, its free list are the empty slots, and all handles that it issues
differ. A handle whose object was freed is refused from then on, whatever its slot holds. -/
theorem handles_safe (ops : List Op) (hslots : (ofOps ops).heap.slots.size < 2 ^ 32)
    (hfreed : ∀ i, (ofOps ops).freed.count i < 2 ^ 32) :
    (ofOps ops).Sound ∧
      ∀ (before between later : List Op) (x : Handle), ops = before ++ between ++ later →
        (ofOps before).heap.contains x = true → (ofOps (before ++ between)).heap.contains x = false →
        (ofOps ops).heap.Rejects x := by
  have hb : (ofOps ops).Bounded := ⟨hslots, hfreed⟩
  refine ⟨(kept_ofOps hb).sound hslots, ?_⟩
  rintro before between later x rfl hlive hgone
  have hlater := grows_ofOps (before ++ between) later
  have hbetween := grows_ofOps before between
  have hb' := hb.of_grows hlater
  have hissued : x ∈ (ofOps before).issued := (kept_ofOps (hb'.of_grows hbetween)).arena.known x hlive
  have hpast := (kept_ofOps hb').past (hbetween.issued x hissued) hgone
  apply rejects_of_not_contains
  by_contra hc
  have hlatest := (kept_ofOps hb).latest hb (Bool.of_not_eq_false hc)
  have := hlater.freed x.index
  omega

/-- A string is freed while an array holds it, and another string takes its slot. -/
def reusing : List Op :=
  [.allocate (.string "a"), .allocate (.array #[.object ⟨0, 0⟩]), .retain (.object ⟨1, 0⟩),
    .sweep fun _ => false, .allocate (.string "b")]

theorem handles_safe_reusing :
    (ofOps reusing).issued = [⟨0, 1⟩, ⟨1, 0⟩, ⟨0, 0⟩] ∧ (ofOps reusing).Sound ∧
      (ofOps reusing).heap.contains ⟨0, 1⟩ = true ∧ (ofOps reusing).heap.Rejects ⟨0, 0⟩ := by
  have hfreed : ∀ i, (ofOps reusing).freed.count i < 2 ^ 32 := fun i =>
    Nat.lt_of_le_of_lt List.count_le_length (by decide +kernel)
  obtain ⟨hsound, hstale⟩ := handles_safe reusing (by decide +kernel) hfreed
  refine ⟨by decide +kernel, hsound, by decide +kernel, ?_⟩
  exact hstale (reusing.take 2) ((reusing.drop 2).take 2) (reusing.drop 4) ⟨0, 0⟩ rfl
    (by decide +kernel) (by decide +kernel)

end Scriptlet.Heap
