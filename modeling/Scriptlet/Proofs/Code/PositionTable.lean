import Scriptlet.Bytecode
import Scriptlet.Proofs.Code.Placement

/-!
# Tables of source positions

A table says of offsets from which source region the code from there on comes. What it says of an
offset is what its last position at or before that offset says (`closest?`), and in an ascending table
`Bytecode.spanAt?` finds that position by halving (`Bytecode.spanAt?_eq_closest?`).

`Fragment.table` is the table of a fragment that stands at some base. Appended fragments have the
tables of both (`Fragment.table_append`), and a mark ends a table with its region
(`Fragment.marked_table`), in the place of a position that was there for the same offset.
-/

namespace Scriptlet

/-- The offsets of positions do not decrease. -/
def Ascending (ps : List (Nat × Span)) : Prop := ps.Pairwise fun p q => p.1 ≤ q.1

/-- The region of the last position at or before an offset. -/
def closest? (ps : List (Nat × Span)) (offset : Nat) : Option Span :=
  (ps.filter fun p => p.1 ≤ offset).getLast?.map Prod.snd

section closest

variable {ps qs : List (Nat × Span)} {offset : Nat} {span : Span}

/-- Positions behind an offset do not count for it. -/
theorem closest?_append_of_lt (h : ∀ q ∈ qs, offset < q.1) :
    closest? (ps ++ qs) offset = closest? ps offset := by
  have hnone : qs.filter (fun p => p.1 ≤ offset) = [] := by
    apply List.filter_eq_nil_iff.2
    intro q hq
    simp [h q hq]
  unfold closest?
  rw [List.filter_append, hnone, List.append_nil]

/-- The later part of a table counts, if it says something. -/
theorem closest?_append_of_some (h : closest? qs offset = some span) :
    closest? (ps ++ qs) offset = some span := by
  obtain ⟨p, hp, rfl⟩ := Option.map_eq_some_iff.1 h
  unfold closest?
  rw [List.filter_append, List.getLast?_append, hp]
  rfl

theorem closest?_concat {start : Nat} (h : start ≤ offset) :
    closest? (ps ++ [(start, span)]) offset = some span := by
  apply closest?_append_of_some
  simp [closest?, h]

end closest

/-! ## Looking positions up -/

namespace Bytecode

variable {ps : Array (Nat × Span)} {offset base size : Nat}

theorem le_of_ascending (h : Ascending ps.toList) {i j : Nat} (hij : i ≤ j) {p q : Nat × Span}
    (hp : ps[i]? = some p) (hq : ps[j]? = some q) : p.1 ≤ q.1 := by
  rcases Nat.lt_or_eq_of_le hij with hlt | rfl
  · rw [← Array.getElem?_toList] at hp hq
    obtain ⟨hi, rfl⟩ := List.getElem?_eq_some_iff.1 hp
    obtain ⟨hj, rfl⟩ := List.getElem?_eq_some_iff.1 hq
    exact List.pairwise_iff_getElem.1 h i j hi hj hlt
  · rw [hp] at hq
    cases hq
    exact Nat.le_refl _

/-- The range in which a search goes on: all positions behind it are behind the offset, and the first
of the range is not, unless it is the first of all. -/
structure Narrowed (ps : Array (Nat × Span)) (offset base size : Nat) : Prop where
  pos : 0 < size
  fits : base + size ≤ ps.size
  behind : ∀ j p, base + size ≤ j → ps[j]? = some p → offset < p.1
  first : base = 0 ∨ ∃ p, ps[base]? = some p ∧ p.1 ≤ offset

/-- Halving keeps to the range in which the position is. -/
theorem Narrowed.halve (hps : Ascending ps.toList) (h : Narrowed ps offset base size) (hsize : 1 < size)
    {start : Nat} {span : Span} (hget : ps[base + size / 2]? = some (start, span)) :
    Narrowed ps offset (if start ≤ offset then base + size / 2 else base) (size - size / 2) := by
  have hfits := h.fits
  by_cases hs : start ≤ offset
  · rw [if_pos hs]
    refine ⟨by omega, by omega, fun j p hj => h.behind j p (by omega), ?_⟩
    exact .inr ⟨_, hget, hs⟩
  · rw [if_neg hs]
    refine ⟨by omega, by omega, fun j p hj hp => ?_, h.first⟩
    have := le_of_ascending hps (show base + size / 2 ≤ j by omega) hget hp
    omega

theorem Narrowed.search (hps : Ascending ps.toList) (h : Narrowed ps offset base size) :
    Narrowed ps offset (searchPosition ps offset base size) 1 := by
  fun_induction searchPosition ps offset base size with
  | case1 base size hsize =>
    have := h.pos
    obtain rfl : size = 1 := by omega
    exact h
  | case2 base size hsize half start span hget ih => exact ih (h.halve hps (by omega) hget)
  | case3 base size hsize half hget =>
    have hfits := h.fits
    have hle : ps.size ≤ base + half := Array.getElem?_eq_none_iff.1 hget
    omega

/-- In an ascending table the search finds the position that counts. -/
theorem spanAt?_eq_closest? {b : Bytecode} (h : Ascending b.positions.toList) (offset : Nat) :
    b.spanAt? offset = closest? b.positions.toList offset := by
  unfold spanAt?
  rcases Nat.eq_zero_or_pos b.positions.size with hzero | hpos
  · rw [Array.eq_empty_of_size_eq_zero hzero]
    rfl
  have hall : Narrowed b.positions offset 0 b.positions.size := by
    refine ⟨hpos, by omega, fun j p hj hp => ?_, .inl rfl⟩
    have := (Array.getElem?_eq_some_iff.1 hp).1
    omega
  have hfound := hall.search h
  generalize searchPosition b.positions offset 0 b.positions.size = r at hfound
  have hr : r < b.positions.toList.length := hfound.fits
  obtain ⟨⟨start, span⟩, hget⟩ : ∃ p, b.positions[r]? = some p := ⟨_, Array.getElem?_eq_getElem hr⟩
  have hx : b.positions.toList[r] = (start, span) := (Array.getElem?_eq_some_iff.1 hget).2
  -- The table consists of what is before the position, the position, and what does not count.
  have hsplit : b.positions.toList = b.positions.toList.take r ++ [(start, span)] ++
      b.positions.toList.drop (r + 1) := by
    rw [← hx, List.append_assoc, List.singleton_append, ← List.drop_eq_getElem_cons hr,
      List.take_append_drop]
  have hbehind : ∀ q ∈ b.positions.toList.drop (r + 1), offset < q.1 := by
    intro q hq
    obtain ⟨k, hk⟩ := List.mem_iff_getElem?.1 hq
    rw [List.getElem?_drop, Array.getElem?_toList] at hk
    exact hfound.behind _ q (by omega) hk
  rw [hget, hsplit, closest?_append_of_lt hbehind]
  dsimp only
  by_cases hs : start ≤ offset
  · rw [if_pos hs, closest?_concat hs]
  · rw [if_neg hs]
    have hzero : r = 0 := by
      refine hfound.first.resolve_right ?_
      rintro ⟨p, hp, hle⟩
      rw [hget] at hp
      cases hp
      exact hs hle
    rw [hzero, List.take_zero, List.nil_append]
    simp [closest?, hs]

end Bytecode

/-! ## Tables of fragments -/

/-- A table that is closed by a region for an offset. -/
def Marked (ps : List (Nat × Span)) (offset : Nat) (span : Span) (qs : List (Nat × Span)) : Prop :=
  ∃ l, qs = l ++ [(offset, span)] ∧ (ps = l ∨ ∃ s, ps = l ++ [(offset, s)])

namespace Fragment

/-- The positions of a fragment that stands at some base. -/
def table (f : Fragment) (base : Nat) : List (Nat × Span) :=
  f.positions.toList.map fun p => (base + p.1, p.2)

theorem table_append (f g : Fragment) (base : Nat) :
    (f ++ g).table base = f.table base ++ g.table (base + f.size) := by
  have hpos : (f ++ g).positions.toList =
      f.positions.toList ++ g.positions.toList.map fun p => (p.1 + f.size, p.2) := by
    change (f.positions ++ g.positions.map _).toList = _
    rw [Array.toList_append, Array.toList_map]
  unfold table
  rw [hpos, List.map_append, List.map_map]
  congr 1
  apply List.map_congr_left
  intro p _
  simp only [Function.comp_apply, Prod.mk.injEq, and_true]
  omega

theorem marked_table (f : Fragment) (base : Nat) (span : Span) :
    Marked (f.table base) (base + f.size) span ((f.mark span).table base) := by
  have hpush : ({ f with positions := f.positions.push (f.size, span) } : Fragment).table base =
      f.table base ++ [(base + f.size, span)] := by
    simp [table]
  unfold mark
  cases hlast : f.positions.back? with
  | none => exact ⟨f.table base, hpush, .inl rfl⟩
  | some p =>
    obtain ⟨last, s⟩ := p
    by_cases he : last = f.size
    · simp only [if_pos he]
      rw [← Array.getLast?_toList, List.getLast?_eq_some_iff] at hlast
      obtain ⟨before, hsplit⟩ := hlast
      refine ⟨before.map fun p => (base + p.1, p.2), ?_, .inr ⟨s, ?_⟩⟩
      · simp [table, hsplit]
      · simp [table, hsplit, he]
    · simp only [if_neg he]
      exact ⟨f.table base, hpush, .inl rfl⟩

theorem place_positions {f : Fragment} {base : Nat} {placed : PlacedCode}
    (h : f.place base = .ok placed) : placed.positions.toList = f.table base := by
  unfold place at h
  split at h
  · cases h
    simp [table, Nat.add_comm]
  · cases h

end Fragment

end Scriptlet
