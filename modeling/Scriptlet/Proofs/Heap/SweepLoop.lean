import Scriptlet.Proofs.Heap.Backing
import Scriptlet.Proofs.Heap.Unheld

/-!
# The loop of a sweep

`Heap.turn` takes one handle from those that wait: its object is freed if nothing holds it, and the
handle is dropped otherwise. Each turn leaves fewer objects, or as many and fewer handles that wait
(`turn_decreases`), so the loop ends from any state, and a sweep is the loop from the objects that
nothing holds (`turns_sweep`).

None of this asks the counts of the heap to be right, or the children of its objects to be live. Of
the heap it is only known that it counts its objects (`Heap.Numbered`), which every operation keeps.

Main statement: `Heap.sweep_loop_complete`.
-/

namespace Scriptlet.Heap

/-- One turn of the loop of a sweep; the loop is over when nothing waits. -/
def turn (pinned : Handle → Bool) : List Handle × Heap → Option (List Handle × Heap)
  | ([], _) => none
  | (x :: rest, h) =>
    match h.find? x with
    | some ⟨0, o⟩ => some (releaseChildren pinned o.children rest (h.clear x.index))
    | _ => some (rest, h)

/-- Turns after each other. -/
def Turns (pinned : Handle → Bool) : List Handle × Heap → List Handle × Heap → Prop :=
  Relation.ReflTransGen fun s t => turn pinned s = some t

variable {h h' : Heap} {pinned : Handle → Bool} {x : Handle} {o : Object} {waiting rest : List Handle}

/-! ## One turn -/

/-- The heap after a round that has freed `x`. -/
theorem like_round (pinned : Handle → Bool) (x : Handle) (o : Object) (rest : List Handle) :
    (h.clear x.index).Like (releaseChildren pinned o.children rest (h.clear x.index)).2 :=
  like_releaseChildren pinned o.children rest (h.clear x.index)

theorem occupied_round (pinned : Handle → Bool) (rest : List Handle) (hx : h.find? x = some ⟨0, o⟩) :
    (releaseChildren pinned o.children rest (h.clear x.index)).2.occupied + 1 = h.occupied := by
  rw [(like_round pinned x o rest).occupied]
  exact occupied_clear hx

/-- A turn frees an object, or drops a handle. -/
theorem turn_decreases {s t : List Handle × Heap} (ht : turn pinned s = some t) :
    Prod.Lex (· < ·) (· < ·) (t.2.occupied, t.1.length) (s.2.occupied, s.1.length) := by
  obtain ⟨waiting, h⟩ := s
  cases waiting with
  | nil => cases ht
  | cons x rest =>
    simp only [turn] at ht
    split at ht
    · next o hx =>
      cases ht
      have := occupied_round pinned rest hx
      exact .left _ _ (by dsimp only; omega)
    · cases ht
      exact .right _ (Nat.lt_succ_self _)

/-- There are no endless sequences of turns, whatever waits. -/
theorem turns_wellFounded (pinned : Handle → Bool) :
    WellFounded fun t s => turn pinned s = some t := by
  have hlex : WellFounded (Prod.Lex (· < ·) (· < ·) : Nat × Nat → Nat × Nat → Prop) :=
    (Prod.lex Nat.lt_wfRel Nat.lt_wfRel).wf
  refine Subrelation.wf ?_ (InvImage.wf (fun s : List Handle × Heap => (s.2.occupied, s.1.length)) hlex)
  exact fun ht => turn_decreases ht

/-! ## From turns to rounds -/

theorem turn_of_held (hx : ∀ o, h.find? x = some ⟨0, o⟩ → False) :
    turn pinned (x :: rest, h) = some (rest, h) := by
  simp only [turn]

theorem turns_of_nextUnheld_none (hn : h.nextUnheld waiting = none) :
    Turns pinned (waiting, h) ([], h) := by
  induction waiting with
  | nil => exact .refl
  | cons x rest ih =>
    rw [nextUnheld] at hn
    split at hn
    · cases hn
    · next hx =>
      exact .head (turn_of_held hx) (ih hn)

/-- Handles whose objects are held are dropped, up to the next one that can be freed. -/
theorem turns_of_nextUnheld (hn : h.nextUnheld waiting = some (x, o, rest)) :
    Turns pinned (waiting, h) (releaseChildren pinned o.children rest (h.clear x.index)) := by
  induction waiting with
  | nil => cases hn
  | cons y ys ih =>
    rw [nextUnheld] at hn
    split at hn
    · next hy =>
      cases hn
      refine .single ?_
      simp only [turn, hy]
    · next hy =>
      exact .head (turn_of_held hy) (ih hn)

theorem nextUnheld_of_occupied_zero (hz : h.occupied = 0) (waiting : List Handle) :
    h.nextUnheld waiting = none := by
  cases hn : h.nextUnheld waiting with
  | none => rfl
  | some found =>
    obtain ⟨x, o, rest⟩ := found
    have := occupied_clear (Exact.nextUnheld hn).1
    omega

/-- As many rounds as there are objects are the whole loop. -/
theorem turns_sweepRounds {n : Nat} (hn : h.occupied ≤ n) :
    Turns pinned (waiting, h) ([], (sweepRounds pinned n waiting h).2) := by
  induction n generalizing waiting h with
  | zero => exact turns_of_nextUnheld_none (nextUnheld_of_occupied_zero (Nat.le_zero.1 hn) waiting)
  | succ n ih =>
    unfold sweepRounds
    split
    · next hnext => exact turns_of_nextUnheld_none hnext
    · next x o rest hnext =>
      have hround := occupied_round pinned rest (Exact.nextUnheld hnext).1
      exact (turns_of_nextUnheld hnext).trans (ih (by omega))

theorem occupied_le_size (h : Heap) : h.occupied ≤ h.slots.size := by
  rw [← Array.length_toList]
  exact List.countP_le_length

/-- A sweep is the loop from the objects that nothing holds, with its own count of what it freed. -/
theorem turns_sweep (h : Heap) (pinned : Handle → Bool) :
    ∃ k, Turns pinned (h.unheld pinned, h) ([], k) ∧
      (h.sweep pinned).2 = { k with
        sinceSweep := 0
        stats := { k.stats with swept := k.stats.swept + (h.sweep pinned).1.length } } :=
  ⟨_, turns_sweepRounds h.occupied_le_size, rfl⟩

/-! ## What is left -/

theorem contains_round (hx : h.find? x = some ⟨0, o⟩) (y : Handle) :
    (releaseChildren pinned o.children rest (h.clear x.index)).2.contains y = true ↔
      y ≠ x ∧ h.contains y = true := by
  rw [(like_round pinned x o rest).contains_iff, contains, contains, find?_clear hx]
  by_cases hy : y = x <;> simp [hy]

/-- Rounds free nothing that is pinned. -/
theorem contains_sweepRounds {n : Nat} (hw : Waits pinned h waiting) (hp : pinned x = true) :
    (sweepRounds pinned n waiting h).2.contains x = true ↔ h.contains x = true := by
  induction n generalizing waiting h with
  | zero => exact Iff.rfl
  | succ n ih =>
    unfold sweepRounds
    split
    · exact Iff.rfl
    · next y o rest hnext =>
      obtain ⟨hy, hpy, hw'⟩ := hw.nextUnheld hnext
      have hxy : x ≠ y := by
        rintro rfl
        rw [hp] at hpy
        cases hpy
      rw [ih (hw'.releaseChildren o.children).1, contains_round hy]
      simp [hxy]

/-- A sweep leaves what is pinned as it is. -/
theorem object?_sweep_of_pinned (h : Heap) (hp : pinned x = true) :
    (h.sweep pinned).2.object? x = h.object? x := by
  have hiff : (h.sweep pinned).2.contains x = true ↔ h.contains x = true :=
    contains_sweepRounds (waits_unheld h pinned) hp
  cases hc : (h.sweep pinned).2.object? x with
  | some o =>
    obtain ⟨n, hn⟩ := object?_eq_some_iff.1 hc
    obtain ⟨n', -, hn'⟩ := (waits_sweep h pinned).2 x _ hn
    exact (object?_eq_some_iff.2 ⟨n', hn'⟩).symm
  | none =>
    cases ho : h.object? x with
    | none => rfl
    | some o =>
      obtain ⟨o', ho'⟩ := exists_object?_of_contains (hiff.2 (contains_of_object? ho))
      rw [hc] at ho'
      cases ho'

/-- If all that nothing holds is pinned, a sweep does nothing but start to count allocations anew.
-/
theorem sweep_of_waits_nil (hw : Waits pinned h []) (hsince : h.sinceSweep = 0) :
    h.sweep pinned = ([], h) := by
  have hnone : ∀ ys : List Handle, (∀ y ∈ ys, pinned y = false) → h.nextUnheld ys = none := by
    intro ys hys
    cases hn : h.nextUnheld ys with
    | none => rfl
    | some found =>
      obtain ⟨y, o, rest⟩ := found
      obtain ⟨hy, hmem, -⟩ := Exact.nextUnheld hn
      cases hw.unheld y o hy (hys y hmem)
  have hrounds : ∀ n, sweepRounds pinned n (h.unheld pinned) h = ([], h) := by
    intro n
    cases n with
    | zero => rfl
    | succ n => simp only [sweepRounds, hnone _ (waits_unheld h pinned).unpinned]
  rw [sweep, hrounds, ← hsince]
  rfl

/-! ## The number of objects -/

/-- The heap counts its objects, and its free slots are empty. -/
structure Numbered (h : Heap) : Prop where
  wellFormed : h.WellFormed
  live : h.live = h.occupied

namespace Numbered

theorem like (hn : h.Numbered) (hl : h.Like h') : h'.Numbered :=
  ⟨hl.wellFormed hn.wellFormed, by rw [hl.live, hl.occupied, hn.live]⟩

theorem clear (hn : h.Numbered) {c : Cell} (hx : h.find? x = some c) :
    (h.clear x.index).Numbered ∧ (h.clear x.index).live + 1 = h.live := by
  have hoccupied := occupied_clear hx
  have hlive : (h.clear x.index).live = h.live - 1 := rfl
  have := hn.live
  exact ⟨⟨hn.wellFormed.clear hx, by omega⟩, by omega⟩

theorem allocate (hn : h.Numbered) (o : Object) : (h.allocate o).2.Numbered :=
  ⟨hn.wellFormed.allocated o, by rw [live_allocate, occupied_allocate hn.wellFormed, hn.live]⟩

/-- Each round frees one object. -/
theorem sweepRounds (pinned : Handle → Bool) (hn : h.Numbered) (n : Nat) (waiting : List Handle) :
    let r := Heap.sweepRounds pinned n waiting h
    r.2.Numbered ∧ r.1.length + r.2.live = h.live := by
  induction n generalizing waiting h with
  | zero => exact ⟨hn, Nat.zero_add _⟩
  | succ n ih =>
    unfold Heap.sweepRounds
    split
    · exact ⟨hn, Nat.zero_add _⟩
    · next x o rest hnext =>
      obtain ⟨hclear, hlive⟩ := hn.clear (Exact.nextUnheld hnext).1
      have hlike := like_round (h := h) pinned x o rest
      obtain ⟨hrest, hlen⟩ := ih (hclear.like hlike) (releaseChildren pinned o.children rest _).1
      refine ⟨hrest, ?_⟩
      rw [hlike.live] at hlen
      dsimp only [List.length_cons]
      omega

theorem sweep (hn : h.Numbered) (pinned : Handle → Bool) :
    (h.sweep pinned).2.Numbered ∧ (h.sweep pinned).1.length + (h.sweep pinned).2.live = h.live := by
  obtain ⟨hr, hlen⟩ := hn.sweepRounds pinned h.slots.size (h.unheld pinned)
  exact ⟨⟨hr.wellFormed.congr rfl rfl, hr.live⟩, hlen⟩

/-- One operation keeps the number of objects right. -/
theorem note {r : History} (hr : r.heap.Numbered) (op : Op) : (r.note op).heap.Numbered := by
  cases op with
  | allocate o => exact hr.allocate o
  | retain v => exact hr.like (alike_retain v r.heap)
  | release v => exact hr.like (alike_release v r.heap)
  | replace place new => exact hr.like (like_replace r.heap place new)
  | setElement x index v => exact hr.like (alike_setElement x index v r.heap)
  | exchange x o => exact hr.like (alike_exchange x o r.heap)
  | sweep pinned => exact (hr.sweep pinned).1

theorem foldl {r : History} (hr : r.heap.Numbered) (ops : List Op) :
    (ops.foldl History.note r).heap.Numbered := by
  induction ops generalizing r with
  | nil => exact hr
  | cons op ops ih => exact ih (hr.note op)

theorem ofOps (ops : List Op) : (History.ofOps ops).heap.Numbered := by
  refine foldl (r := {}) ⟨⟨.nil, ?_⟩, rfl⟩ ops
  intro i hi
  cases hi

end Numbered

/-- Whatever was done to a heap, right or wrong, and whatever is pinned: the loop of a sweep ends
and the sweep is what it ends with, what is pinned stays as it is, all that nothing holds afterwards
is pinned, the number of objects falls by the number of those that were freed, allocations are
counted anew, and another sweep does nothing. -/
theorem sweep_loop_complete (ops : List Op) (pinned : Handle → Bool) :
    let h := (History.ofOps ops).heap
    let r := h.sweep pinned
    (WellFounded fun t s => turn pinned s = some t) ∧
    (∃ k, Turns pinned (h.unheld pinned, h) ([], k) ∧
      r.2 = { k with
        sinceSweep := 0
        stats := { k.stats with swept := k.stats.swept + r.1.length } }) ∧
    (∀ x, pinned x = true → r.2.object? x = h.object? x) ∧
    (∀ x, r.2.count? x = some 0 → pinned x = true) ∧
    r.1.length + r.2.live = h.live ∧
    r.2.sinceSweep = 0 ∧
    r.2.sweep pinned = ([], r.2) := by
  intro h r
  have hwaits : Waits pinned r.2 [] := (waits_sweep h pinned).1
  refine ⟨turns_wellFounded pinned, turns_sweep h pinned, ?_, ?_, ?_, rfl, ?_⟩
  · intro x hp
    exact object?_sweep_of_pinned h hp
  · intro x hx
    rw [count?, Option.map_eq_some_iff] at hx
    obtain ⟨⟨n, o⟩, hx, rfl⟩ := hx
    by_contra hp
    cases hwaits.unheld x o hx (by simpa using hp)
  · exact ((Numbered.ofOps ops).sweep pinned).2
  · exact sweep_of_waits_nil hwaits rfl

end Scriptlet.Heap
