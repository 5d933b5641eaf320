import Scriptlet.Proofs.Heap.SweepLoop

/-!
# Heaps between two sweeps

`Heap.Onward k changed h h'`: without a sweep, `h` has become `h'`. At most `k` objects were added,
which are all that there is more now, slots stay with their generations, and the lists of the heap
(`Heap.list?`) have what they had, apart from the one of the handle `changed`. Operations that count
are such steps with nothing added, and a new object is one with one added.

A sweep that frees an object ends the generation of its slot, and no other step changes that, so the
object's handle stays stale until the next sweep (`Onward.not_contains_of_ended`).
-/

namespace Scriptlet.Heap

variable {h h' h₁ h₂ h₃ : Heap} {k l : Nat} {changed : Option Handle} {x y : Handle}

/-- The contents of an instance of a native structure. -/
def list? (h : Heap) (x : Handle) : Option (List Value) :=
  match h.object? x with
  | some (.nativeRecord _ storage) => some storage.toList
  | _ => none

theorem list?_eq_some_iff {l : List Value} :
    h.list? x = some l ↔ ∃ kind vs, h.object? x = some (.nativeRecord kind vs) ∧ vs.toList = l := by
  unfold list?
  split
  · next kind vs ho => simp [ho]
  · next hne =>
    simp only [reduceCtorEq, false_iff, not_exists, not_and]
    exact fun kind vs ho => absurd ho (hne kind vs)

theorem list?_congr (ho : h'.object? y = h.object? x) : h'.list? y = h.list? x := by
  unfold list?
  rw [ho]

theorem contains_of_list? {l : List Value} (hx : h.list? x = some l) : h.contains x = true := by
  obtain ⟨kind, vs, ho, -⟩ := list?_eq_some_iff.1 hx
  exact contains_of_object? ho

/-- From one heap to a later one without a sweep (module doc). -/
structure Onward (k : Nat) (changed : Option Handle) (h h' : Heap) : Prop where
  numbered : h.Numbered → h'.Numbered
  slots : h.slots.size ≤ h'.slots.size
  generation : ∀ (i : Nat) (g : UInt32), (h.slots[i]?).map Slot.generation = some g →
    (h'.slots[i]?).map Slot.generation = some g
  bound : h'.sinceSweep ≤ h.sinceSweep + k
  added : h'.live + h.sinceSweep = h.live + h'.sinceSweep
  lists : h.Numbered → h'.slots.size < 2 ^ 32 → ∀ x, changed ≠ some x → h'.list? x = h.list? x

namespace Onward

theorem refl (h : Heap) : Onward 0 none h h :=
  ⟨id, Nat.le_refl _, fun _ _ hg => hg, Nat.le_refl _, rfl, fun _ _ _ _ => rfl⟩

theorem trans (h₁₂ : Onward k changed h₁ h₂) (h₂₃ : Onward l changed h₂ h₃) :
    Onward (k + l) changed h₁ h₃ where
  numbered hn := h₂₃.numbered (h₁₂.numbered hn)
  slots := Nat.le_trans h₁₂.slots h₂₃.slots
  generation i g hg := h₂₃.generation i g (h₁₂.generation i g hg)
  bound := by
    have := h₁₂.bound
    have := h₂₃.bound
    omega
  added := by
    have := h₁₂.added
    have := h₂₃.added
    omega
  lists hn hs x hx := by
    rw [h₂₃.lists (h₁₂.numbered hn) hs x hx,
      h₁₂.lists hn (Nat.lt_of_le_of_lt h₂₃.slots hs) x hx]

theorem mono (ho : Onward k changed h h') (hk : k ≤ l) : Onward l changed h h' :=
  { ho with bound := Nat.le_trans ho.bound (Nat.add_le_add_left hk _) }

/-- What leaves all lists alone leaves all but one alone. -/
theorem spare (ho : Onward k none h h') : Onward k changed h h' :=
  { ho with lists := fun hn hs x _ => ho.lists hn hs x nofun }

/-- Changes of counts and contents: no object is added, and lists change where contents do. -/
theorem of_like (hl : h.Like h') (hsince : h'.sinceSweep = h.sinceSweep)
    (hlists : ∀ x, changed ≠ some x → h'.list? x = h.list? x) : Onward 0 changed h h' where
  numbered hn := hn.like hl
  slots := Nat.le_of_eq hl.size_eq.symm
  generation i g hg := by
    have hout := congrArg (Option.map Prod.fst) (hl.getElem? i)
    simp only [Option.map_map] at hout
    exact hout.trans hg
  bound := Nat.le_of_eq hsince
  added := by rw [hl.live, hsince]
  lists _ _ x hx := hlists x hx

/-- Another count of an object. -/
theorem recount (h : Heap) (x : Handle) {f : Cell → Cell} (hf : ∀ c, (f c).object = c.object)
    {stats : HeapStats} (hallocations : stats.allocations = h.stats.allocations)
    (hswept : stats.swept = h.stats.swept) :
    Onward 0 none h { h.modifyCell x f with stats } :=
  .of_like ((like_modifyCell h x f).trans ⟨rfl, rfl, rfl, hallocations, hswept⟩) rfl fun y _ =>
    list?_congr (object?_modifyCell h x y hf)

/-- A new object is one more, and a list of its own if it is one. -/
theorem allocate (h : Heap) (o : Object) :
    Onward 1 (some (h.allocate o).1) h (h.allocate o).2 where
  numbered hn := hn.allocate o
  slots := size_le_allocate h o
  generation i g hg := by
    unfold Heap.allocate
    split
    · rw [Array.getElem?_modify]
      split
      · rw [Option.map_map]
        exact hg
      · exact hg
    · obtain ⟨s, hs, -⟩ := Option.map_eq_some_iff.1 hg
      rw [Array.getElem?_push_lt (Array.getElem?_eq_some_iff.1 hs).1,
        ← Array.getElem?_eq_getElem]
      exact hg
  bound := by
    unfold Heap.allocate
    split <;> exact Nat.le_refl _
  added := by
    unfold Heap.allocate
    split <;> (dsimp only; omega)
  lists hn hs x hx := by
    have hs' := Nat.lt_of_le_of_lt (size_le_allocate h o) hs
    have hne : x ≠ (h.allocate o).1 := fun he => hx (congrArg some he.symm)
    simp only [list?, object?, find?_allocate_eq hn.wellFormed hs' o x, if_neg hne]

/-- A new object that is no list. -/
theorem allocate_other (h : Heap) {o : Object} (hother : ∀ kind vs, o ≠ .nativeRecord kind vs) :
    Onward 1 none h (h.allocate o).2 :=
  { Onward.allocate h o with
    lists := fun hn hs x _ => by
      by_cases hx : x = (h.allocate o).1
      · have hs' := Nat.lt_of_le_of_lt (size_le_allocate h o) hs
        have hnew : h.find? x = none := hx ▸ find?_new hn.wellFormed hs' o
        have hfind := find?_allocate_eq hn.wellFormed hs' o x
        rw [if_pos hx] at hfind
        simp only [list?, object?, hfind, hnew]
        cases o with
        | nativeRecord kind vs => exact absurd rfl (hother kind vs)
        | _ => rfl
      · exact (Onward.allocate h o).lists hn hs x fun he => hx (Option.some.inj he).symm }

/-- Other contents of an object, which is no list and does not become one. -/
theorem changeObject {o : Object} (ho : h.object? x = some o) {g : Object → Object}
    (hother : ∀ kind vs, o ≠ .nativeRecord kind vs) (hg : ∀ kind vs, g o ≠ .nativeRecord kind vs) :
    Onward 0 none h (h.changeObject x g) := by
  refine of_like (like_modifyCell h x _) rfl fun y _ => ?_
  unfold list?
  rw [object?_changeObject ho]
  by_cases hy : y = x
  · rw [if_pos hy, hy, ho]
    cases o with
    | nativeRecord kind vs => exact absurd rfl (hother kind vs)
    | _ =>
      dsimp only
      split
      · next kind vs heq => exact absurd (Option.some.inj heq) (hg kind vs)
      · rfl
  · rw [if_neg hy]

/-- Other contents of a list. -/
theorem changeList (hx : h.contains x = true) (g : Object → Object) :
    Onward 0 (some x) h (h.changeObject x g) := by
  obtain ⟨o, ho⟩ := exists_object?_of_contains hx
  refine of_like (like_modifyCell h x _) rfl fun y hy => ?_
  unfold list?
  rw [object?_changeObject ho, if_neg fun he => hy (congrArg some he.symm)]

end Onward

/-! ## Actions -/

section actions

variable {α β : Type}

/-- The action goes onward from every heap and leaves all lists alone, also when it fails. -/
def Adding (k : Nat) (act : Action α) : Prop := ∀ h : Heap, Onward k none h (act.final h)

theorem Adding.bind {act : Action α} {f : α → Action β} (ha : Adding k act)
    (hf : ∀ a, Adding l (f a)) : Adding (k + l) (act >>= f) := by
  intro h
  have h₁ := ha h
  simp only [Action.final, Bind.bind, EStateM.bind] at h₁ ⊢
  cases hr : act h with
  | ok a h' =>
    rw [hr] at h₁
    exact h₁.trans (hf a h')
  | error f h' =>
    rw [hr] at h₁
    exact h₁.mono (Nat.le_add_right _ _)

theorem adding_retain (v : Value) : Adding 0 (retain v) := by
  intro h
  unfold Action.final retain
  cases v with
  | object x =>
    dsimp only
    by_cases hx : h.contains x = true
    · rw [if_pos hx]
      exact .recount h x (f := fun c => { c with count := c.count + 1 }) (fun _ => rfl) rfl rfl
    · rw [if_neg hx]
      exact .refl h
  | _ => exact .refl h

theorem adding_release (v : Value) : Adding 0 (release v) := by
  intro h
  unfold Action.final release
  cases v with
  | object x =>
    dsimp only
    by_cases hx : h.contains x = true
    · rw [if_pos hx]
      exact .recount h x (f := fun c => { c with count := c.count - 1 }) (fun _ => rfl) rfl rfl
    · rw [if_neg hx]
      exact .refl h
  | _ => exact .refl h

theorem adding_retainAll : ∀ vs : List Value, Adding 0 (retainAll vs)
  | [] => fun h => .refl h
  | v :: vs => (adding_retain v).bind fun _ => adding_retainAll vs

theorem adding_releaseAll : ∀ vs : List Value, Adding 0 (releaseAll vs)
  | [] => fun h => .refl h
  | v :: vs => (adding_release v).bind fun _ => adding_releaseAll vs

/-- A store to an element of an object that is no list. -/
theorem Onward.setElement {o : Object} (ho : h.object? x = some o)
    (hother : ∀ kind vs, o ≠ .nativeRecord kind vs) (i : Nat) (v : Value) :
    Onward 0 none h ((Heap.setElement x i v).final h) := by
  unfold Action.final Heap.setElement
  rw [ho]
  dsimp only
  cases o.elements? with
  | none => exact .refl h
  | some vs =>
    dsimp only
    cases vs[i]? with
    | none => exact .refl h
    | some old =>
      have hchange : Onward 0 none h
          (h.changeObject x (Object.mapElements fun vs => vs.setIfInBounds i v)) := by
        refine .changeObject ho hother fun kind vs heq => ?_
        cases o with
        | nativeRecord kind vs => exact hother kind vs rfl
        | _ => cases heq
      exact hchange.trans ((adding_retain v).bind (fun _ => adding_release old) _)

end actions

/-! ## Sweeping -/

section sweep

variable {pinned : Handle → Bool}

/-- The rounds of a sweep leave empty slots as they are. -/
theorem outline_sweepRounds_of_empty {i : Nat} {g : UInt32} : ∀ (n : Nat) {waiting : List Handle}
    {h : Heap}, (h.slots[i]?).map Slot.outline = some (g, false) →
    ((sweepRounds pinned n waiting h).2.slots[i]?).map Slot.outline = some (g, false)
  | 0, _, _, hi => hi
  | n + 1, waiting, h, hi => by
    rw [sweepRounds]
    split
    · exact hi
    · next x o rest hnext =>
      refine outline_sweepRounds_of_empty n ?_
      have hx := find?_eq_some_iff.1 (Exact.nextUnheld hnext).1
      have hne : x.index.toNat ≠ i := by
        rintro rfl
        rw [hx] at hi
        cases hi
      rw [(like_round pinned x o rest).getElem?, Heap.clear, Array.getElem?_modify, if_neg hne]
      exact hi

/-- What the rounds of a sweep free is one generation further. -/
theorem outline_sweepRounds : ∀ (n : Nat) {waiting : List Handle} {h : Heap},
    h.contains x = true → (sweepRounds pinned n waiting h).2.contains x = true ∨
      ((sweepRounds pinned n waiting h).2.slots[x.index.toNat]?).map Slot.outline =
        some (x.generation + 1, false)
  | 0, _, _, hx => .inl hx
  | n + 1, waiting, h, hx => by
    rw [sweepRounds]
    split
    · exact .inl hx
    · next y o rest hnext =>
      have hy := (Exact.nextUnheld hnext).1
      have hlike := like_round (h := h) pinned y o rest
      by_cases hxy : x = y
      · refine .inr (outline_sweepRounds_of_empty n ?_)
        rw [hlike.getElem?, hxy, Heap.clear, Array.getElem?_modify, if_pos rfl,
          find?_eq_some_iff.1 hy]
        rfl
      · refine outline_sweepRounds n ?_
        rw [hlike.contains_iff, contains, find?_clear hy, if_neg hxy]
        exact hx

/-- What one sweep or several leave of a heap: objects as they were, and slots whose generation has
ended. -/
structure Culled (h h' : Heap) : Prop where
  object : ∀ x o, h'.object? x = some o → h.object? x = some o
  empty : ∀ (i : Nat) (g : UInt32), (h.slots[i]?).map Slot.outline = some (g, false) →
    (h'.slots[i]?).map Slot.outline = some (g, false)
  ended : ∀ x, h.contains x = true → h'.contains x = true ∨
    (h'.slots[x.index.toNat]?).map Slot.outline = some (x.generation + 1, false)

namespace Culled

theorem refl (h : Heap) : Culled h h := ⟨fun _ _ ho => ho, fun _ _ hi => hi, fun _ hx => .inl hx⟩

theorem trans (h₁₂ : Culled h₁ h₂) (h₂₃ : Culled h₂ h₃) : Culled h₁ h₃ where
  object x o ho := h₁₂.object x o (h₂₃.object x o ho)
  empty i g hi := h₂₃.empty i g (h₁₂.empty i g hi)
  ended x hx := by
    rcases h₁₂.ended x hx with hx | hended
    · exact h₂₃.ended x hx
    · exact .inr (h₂₃.empty _ _ hended)

theorem sweep (h : Heap) (pinned : Handle → Bool) : Culled h (h.sweep pinned).2 where
  object x o ho := by
    obtain ⟨n, hn⟩ := object?_eq_some_iff.1 ho
    obtain ⟨n', -, hn'⟩ := (waits_sweep h pinned).2 x _ hn
    exact object?_eq_some_iff.2 ⟨n', hn'⟩
  empty _ _ hi := outline_sweepRounds_of_empty h.slots.size hi
  ended _ hx := outline_sweepRounds h.slots.size hx

/-- A list is swept whole or not at all. -/
theorem list? (hc : Culled h h') {l : List Value} (hx : h'.list? x = some l) :
    h.list? x = some l := by
  obtain ⟨kind, vs, ho, hl⟩ := list?_eq_some_iff.1 hx
  exact list?_eq_some_iff.2 ⟨kind, vs, hc.object x _ ho, hl⟩

theorem list?_of_contains (hc : Culled h h') {l : List Value} (hx : h.list? x = some l)
    (hkept : h'.contains x = true) : h'.list? x = some l := by
  obtain ⟨o, ho⟩ := exists_object?_of_contains hkept
  rw [← hx]
  exact list?_congr (ho.trans (hc.object x o ho).symm)

end Culled

/-- What a sweep has freed is not found again before the next sweep, even if its slot is used
again. -/
theorem Onward.not_contains_of_ended (ho : Onward k changed h h')
    (hended : (h.slots[x.index.toNat]?).map Slot.outline = some (x.generation + 1, false)) :
    h'.contains x = false := by
  have hgeneration := ho.generation x.index.toNat (x.generation + 1) (by
    rw [Option.map_eq_some_iff] at hended ⊢
    obtain ⟨s, hs, hout⟩ := hended
    exact ⟨s, hs, congrArg Prod.fst hout⟩)
  rw [Bool.eq_false_iff]
  intro hc
  obtain ⟨c, hc⟩ := contains_iff.1 hc
  rw [find?_eq_some_iff.1 hc] at hgeneration
  have hnext : x.generation = x.generation + 1 := Option.some.inj hgeneration
  simp at hnext

end sweep

end Scriptlet.Heap
