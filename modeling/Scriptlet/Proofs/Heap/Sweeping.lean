import Scriptlet.Proofs.Heap.Counts

/-!
# Sweeping keeps counts exact

A round of a sweep frees one object that nothing holds: its children become owners (`Exact.clear`),
and are released at once (`Exact.releaseChildren`). So counts are exact after every round
(`Exact.sweepRounds`) and after the sweep (`Exact.sweep`). What is left is what was there before,
and pinned objects are left (`Heap.Swept`).
-/

namespace Scriptlet.Heap

/-- What a sweep may do to the objects of a heap: it frees some that are not pinned. -/
structure Swept (pinned : Handle → Bool) (h h' : Heap) : Prop where
  object : ∀ x o, h'.object? x = some o → h.object? x = some o
  pinned : ∀ x, pinned x = true → h.contains x = true → h'.contains x = true

namespace Swept

variable {pinned : Handle → Bool}

theorem refl (h : Heap) : Swept pinned h h := ⟨fun _ _ ho => ho, fun _ _ hx => hx⟩

theorem trans {h₁ h₂ h₃ : Heap} (h₁₂ : Swept pinned h₁ h₂) (h₂₃ : Swept pinned h₂ h₃) :
    Swept pinned h₁ h₃ :=
  ⟨fun x o ho => h₁₂.object x o (h₂₃.object x o ho),
    fun x hp hx => h₂₃.pinned x hp (h₁₂.pinned x hp hx)⟩

end Swept

/-! ## Slots stay -/

@[simp] theorem size_clear (h : Heap) (i : UInt32) : (h.clear i).slots.size = h.slots.size := by
  simp [clear]

theorem size_releaseChildren (pinned : Handle → Bool) : ∀ (xs waiting : List Handle) (h : Heap),
    (Heap.releaseChildren pinned xs waiting h).2.slots.size = h.slots.size
  | [], _, _ => rfl
  | x :: xs, waiting, h => by
    rw [Heap.releaseChildren]
    split
    · exact size_releaseChildren pinned xs waiting h
    · exact (size_releaseChildren pinned xs _ _).trans (size_modifyCell h x _)

theorem size_sweepRounds (pinned : Handle → Bool) : ∀ (n : Nat) (waiting : List Handle) (h : Heap),
    (Heap.sweepRounds pinned n waiting h).2.slots.size = h.slots.size
  | 0, _, _ => rfl
  | n + 1, waiting, h => by
    rw [Heap.sweepRounds]
    split
    · rfl
    · exact (size_sweepRounds pinned n _ _).trans
        ((size_releaseChildren pinned _ _ _).trans (size_clear h _))

theorem size_sweep (h : Heap) (pinned : Handle → Bool) :
    (h.sweep pinned).2.slots.size = h.slots.size :=
  size_sweepRounds pinned _ _ h

/-! ## Freeing one object -/

theorem find?_clear {h : Heap} {x : Handle} {c : Cell} (hx : h.find? x = some c) (y : Handle) :
    (h.clear x.index).find? y = if y = x then none else h.find? y := by
  have hcl : (h.clear x.index).find? y = if y.index = x.index then none else h.find? y := by
    unfold find? clear
    simp only [Array.getElem?_modify]
    by_cases hi : y.index = x.index
    · rw [if_pos hi, if_pos (by rw [hi])]
      cases h.slots[y.index.toNat]? <;> simp
    · rw [if_neg hi, if_neg fun hn => hi (UInt32.toNat.inj hn.symm)]
  rw [hcl]
  by_cases hyx : y = x
  · simp [hyx]
  · rw [if_neg hyx]
    by_cases hi : y.index = x.index
    · rw [if_pos hi]
      cases hy : h.find? y with
      | none => rfl
      | some d => exact absurd (eq_of_index_eq hy hx hi) hyx
    · rw [if_neg hi]

theorem count_inner_clear {h : Heap} {x : Handle} {c : Cell} (hx : h.find? x = some c)
    (y : Handle) :
    (h.clear x.index).inner.count y + c.object.children.count y = h.inner.count y := by
  rw [find?_eq_some_iff, ← Array.getElem?_toList] at hx
  rw [count_inner, count_inner, clear, Array.toList_modify]
  exact sum_map_modify (fun s => s.children.count y) _ _ _ _ hx

theorem total_clear {h : Heap} {x : Handle} {c : Cell} (hx : h.find? x = some c) :
    (h.clear x.index).total + c.count = h.total := by
  rw [find?_eq_some_iff, ← Array.getElem?_toList] at hx
  rw [total, total, clear, Array.toList_modify]
  exact sum_map_modify Slot.count _ _ _ _ hx

theorem WellFormed.clear {h : Heap} (hw : h.WellFormed) {x : Handle} {c : Cell}
    (hx : h.find? x = some c) : (h.clear x.index).WellFormed := by
  rw [find?_eq_some_iff] at hx
  refine ⟨List.nodup_cons.2 ⟨fun hm => ?_, hw.nodup⟩, fun i hi => ?_⟩
  · obtain ⟨g, hg⟩ := hw.empty _ hm
    rw [hx] at hg
    simp at hg
  · simp only [Heap.clear, Array.getElem?_modify]
    by_cases hxi : x.index.toNat = i.toNat
    · exact ⟨x.generation + 1, by rw [if_pos hxi, ← hxi, hx]; rfl⟩
    · rw [if_neg hxi]
      refine hw.empty i ((List.mem_cons.1 hi).resolve_left fun he => hxi (by rw [he]))

namespace Exact

variable {h : Heap} {owners : List Handle}

/-- Freeing an object that nothing holds makes owners of its children. -/
theorem clear (he : h.Exact owners) {x : Handle} {o : Object} (hx : h.find? x = some ⟨0, o⟩) :
    (h.clear x.index).Exact (o.children ++ owners) := by
  have hin := count_inner_clear hx
  have hcount : ∀ y, (o.children ++ owners ++ (h.clear x.index).inner).count y =
      (owners ++ h.inner).count y := fun y => by
    have := hin y
    simp only [List.count_append] at this ⊢
    omega
  have hzero : (owners ++ h.inner).count x = 0 := (he.count x _ hx).symm
  refine ⟨he.wellFormed.clear hx, fun y hy => ?_, fun y d hy => ?_, ?_⟩
  · rw [← List.count_pos_iff, hcount] at hy
    have hyx : y ≠ x := fun hyx => by rw [hyx, hzero] at hy; cases hy
    rw [contains, find?_clear hx, if_neg hyx]
    exact he.live y (List.count_pos_iff.1 hy)
  · rw [find?_clear hx] at hy
    split at hy
    · cases hy
    · rw [hcount]; exact he.count y d hy
  · have ht := total_clear hx
    have hb := he.balance
    unfold lost at hb ⊢
    simp only [Nat.add_zero] at ht
    rw [ht]
    exact hb

/-- One child of a freed object is released; it was counted, so its count is not zero. -/
theorem releaseChild {x : Handle} {xs : List Handle} (he : h.Exact (x :: xs)) :
    ∃ c h', h.find? x = some c ∧ Heap.release (.object x) h = .ok () h' ∧ h'.Exact xs ∧
      h' = { h.modifyCell x (fun c => { c with count := c.count - 1 }) with
        stats := { h.stats with releases := h.stats.releases + 1 } } := by
  have hx : h.contains x = true := he.contains_owner List.mem_cons_self
  obtain ⟨c, hc⟩ := contains_iff.1 hx
  obtain ⟨h', hr, he', -, -⟩ :=
    release (show h.Exact (Value.handles [.object x] ++ xs) from he)
  refine ⟨c, h', hc, hr, he', ?_⟩
  simp only [Heap.release, hx, if_true] at hr
  cases hr
  rfl

theorem releaseChildren (pinned : Handle → Bool) : ∀ {xs waiting : List Handle} {h : Heap}
    {owners : List Handle}, h.Exact (xs ++ owners) → (∀ x ∈ waiting, pinned x = false) →
    (Heap.releaseChildren pinned xs waiting h).2.Exact owners ∧
      (∀ x ∈ (Heap.releaseChildren pinned xs waiting h).1, pinned x = false) ∧
      Swept pinned h (Heap.releaseChildren pinned xs waiting h).2
  | [], waiting, h, owners, he, hw => ⟨he, hw, .refl h⟩
  | x :: xs, waiting, h, owners, he, hw => by
    obtain ⟨c, h', hc, hr, he', hh'⟩ := he.releaseChild
    have hs : Swept pinned h h' := by
      have hobj := object?_release hr
      refine ⟨fun y o ho => (hobj y).symm.trans ho, fun y _ hy => ?_⟩
      obtain ⟨o, ho⟩ := exists_object?_of_contains hy
      exact contains_of_object? ((hobj y).trans ho)
    simp only [Heap.releaseChildren, hc]
    have hw' : ∀ y ∈ (if c.count ≤ 1 && !pinned x then x :: waiting else waiting),
        pinned y = false := by
      intro y hy
      split at hy
      · next hp =>
        rcases List.mem_cons.1 hy with rfl | hy
        · simpa using (Bool.and_eq_true_iff.1 hp).2
        · exact hw y hy
      · exact hw y hy
    have ih := releaseChildren pinned he' hw'
    rw [hh'] at ih hs
    exact ⟨ih.1, ih.2.1, hs.trans ih.2.2⟩

theorem nextUnheld {waiting : List Handle} {x : Handle} {o : Object} {rest : List Handle}
    (hn : h.nextUnheld waiting = some (x, o, rest)) :
    h.find? x = some ⟨0, o⟩ ∧ x ∈ waiting ∧ ∀ y ∈ rest, y ∈ waiting := by
  induction waiting with
  | nil => simp [Heap.nextUnheld] at hn
  | cons y ys ih =>
    unfold Heap.nextUnheld at hn
    split at hn
    · next hy =>
      simp only [Option.some.injEq, Prod.mk.injEq] at hn
      obtain ⟨rfl, rfl, rfl⟩ := hn
      exact ⟨hy, List.mem_cons_self, fun z hz => List.mem_cons_of_mem _ hz⟩
    · obtain ⟨h₁, h₂, h₃⟩ := ih hn
      exact ⟨h₁, List.mem_cons_of_mem _ h₂, fun z hz => List.mem_cons_of_mem _ (h₃ z hz)⟩

theorem sweepRounds (pinned : Handle → Bool) : ∀ (n : Nat) {waiting : List Handle} {h : Heap}
    {owners : List Handle}, h.Exact owners → (∀ x ∈ waiting, pinned x = false) →
    (Heap.sweepRounds pinned n waiting h).2.Exact owners ∧
      Swept pinned h (Heap.sweepRounds pinned n waiting h).2
  | 0, _, h, _, he, _ => ⟨he, .refl h⟩
  | n + 1, waiting, h, owners, he, hw => by
    unfold Heap.sweepRounds
    split
    · exact ⟨he, .refl h⟩
    · next x o rest hn =>
      obtain ⟨hx, hmem, hrest⟩ := nextUnheld hn
      have hcl := he.clear hx
      have hs₁ : Swept pinned h (h.clear x.index) := by
        refine ⟨fun y o' ho => ?_, fun y hp hy => ?_⟩
        · rw [object?, find?_clear hx] at ho
          split at ho
          · cases ho
          · exact ho
        · have hyx : y ≠ x := fun hyx => by rw [hyx, hw x hmem] at hp; cases hp
          rw [contains, find?_clear hx, if_neg hyx]
          exact hy
      obtain ⟨he₂, hw₂, hs₂⟩ := releaseChildren pinned hcl fun y hy => hw y (hrest y hy)
      obtain ⟨he₃, hs₃⟩ := sweepRounds pinned n he₂ hw₂
      exact ⟨he₃, hs₁.trans (hs₂.trans hs₃)⟩

/-- A sweep keeps counts exact; it frees nothing that is pinned, and changes no object. -/
theorem sweep (he : h.Exact owners) (pinned : Handle → Bool) :
    (h.sweep pinned).2.Exact owners ∧ Swept pinned h (h.sweep pinned).2 := by
  have hw : ∀ x ∈ h.unheld pinned, pinned x = false := fun x hx => by
    simpa using (List.mem_filter.1 hx).2
  obtain ⟨he', hs⟩ := sweepRounds pinned h.slots.size he hw
  exact ⟨⟨he'.wellFormed.congr rfl rfl, he'.live, he'.count, he'.balance⟩,
    ⟨hs.object, hs.pinned⟩⟩

end Exact

end Scriptlet.Heap
