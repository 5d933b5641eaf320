import Scriptlet.Proofs.Heap.Garbage

/-!
# Counts that suffice

`Heap.Backs h owners`: every handle is counted at least as often as it is held, by live objects and by
`owners` together. A stale handle counts for nothing, so all that is held is live.

Unlike exact counts (`Heap.Exact`) this asks nothing of the number of slots. An object behind the last
slot that a handle can name still counts on its children, and is never freed: counts are then too high,
but never too low. The operations move handles between `owners` and the objects as they do for exact
counts; what fails is not looked at, except that owners can be released (`Backs.release`).
-/

namespace Scriptlet.Heap

/-- The count of the object of a handle; a stale handle has none. -/
def credit (h : Heap) (x : Handle) : Nat := (h.count? x).getD 0

/-- Counts are high enough (module doc). -/
structure Backs (h : Heap) (owners : List Handle) : Prop where
  wellFormed : h.WellFormed
  le : ∀ x, owners.count x + h.holders x ≤ h.credit x

theorem credit_of_find? {h : Heap} {x : Handle} {c : Cell} (hx : h.find? x = some c) :
    h.credit x = c.count := by
  rw [credit, count?, hx]
  rfl

theorem contains_of_credit_pos {h : Heap} {x : Handle} (hx : 0 < h.credit x) : h.contains x = true := by
  rw [credit, count?] at hx
  cases hc : h.find? x with
  | none =>
    rw [hc] at hx
    cases hx
  | some c => exact contains_iff.2 ⟨c, hc⟩

section recount

variable {h h' : Heap} {x : Handle} {c : Cell} {f : Cell → Cell}
  (hslots : h'.slots = (h.modifyCell x f).slots) (hx : h.find? x = some c)
include hslots hx

theorem credit_recount (y : Handle) :
    h'.credit y = if y = x then (f c).count else h.credit y := by
  have hfind : h'.find? y = if y = x then some (f c) else h.find? y := by
    rw [← find?_modifyCell_of_find? hx, find?, hslots]
    rfl
  rw [credit, credit, count?, count?, hfind]
  split <;> rfl

theorem holders_recount (y : Handle) :
    h'.holders y + c.object.children.count y = h.holders y + (f c).object.children.count y :=
  holders_modify (f := fun s => { s with cell := s.cell.map f }) hslots (find?_eq_some_iff.1 hx) y

end recount

/-! ## New objects -/

section allocate

variable {h : Heap} (hw : h.WellFormed) (o : Object)
include hw

/-- What allocation does to the slots, whether a handle can name them or not. -/
theorem slots_allocate :
    (∃ i g, h.free = i :: (h.allocate o).2.free ∧ h.slots[i.toNat]? = some ⟨g, none⟩ ∧
      (h.allocate o).2.slots = h.slots.modify i.toNat fun s => { s with cell := some ⟨0, o⟩ }) ∨
    ((h.allocate o).2.free = [] ∧ (h.allocate o).2.slots = h.slots.push ⟨0, some ⟨0, o⟩⟩) := by
  unfold allocate
  split
  · next i free hf =>
    obtain ⟨g, hg⟩ := hw.empty i (by simp [hf])
    exact .inl ⟨i, g, hf, hg, rfl⟩
  · exact .inr ⟨rfl, rfl⟩

theorem WellFormed.allocated : (h.allocate o).2.WellFormed := by
  obtain ⟨i, g, hf, -, hslots⟩ | ⟨hfree, -⟩ := slots_allocate hw o
  · have hn := hw.nodup
    rw [hf, List.nodup_cons] at hn
    refine ⟨hn.2, fun j hj => ?_⟩
    obtain ⟨g', hg'⟩ := hw.empty j (by rw [hf]; exact List.mem_cons_of_mem _ hj)
    have hij : i.toNat ≠ j.toNat := fun hij => hn.1 (UInt32.toNat.inj hij ▸ hj)
    exact ⟨g', by rw [hslots, Array.getElem?_modify, if_neg hij, hg']⟩
  · exact ⟨by rw [hfree]; exact List.nodup_nil, fun j hj => by rw [hfree] at hj; cases hj⟩

/-- A new object is counted for nothing yet. -/
theorem credit_allocate (y : Handle) : (h.allocate o).2.credit y = h.credit y := by
  obtain ⟨i, g, -, hg, hslots⟩ | ⟨-, hslots⟩ := slots_allocate hw o
  · rw [credit, credit, count?, count?, find?, find?, hslots, Array.getElem?_modify]
    by_cases hi : i.toNat = y.index.toNat
    · rw [if_pos hi, ← hi, hg]
      by_cases hgy : g = y.generation <;> simp [hgy]
    · rw [if_neg hi]
  · rw [credit, credit, count?, count?, find?, find?, hslots, Array.getElem?_push]
    by_cases hi : y.index.toNat = h.slots.size
    · rw [if_pos hi, hi]
      by_cases hgy : 0 = y.generation <;> simp [hgy]
    · rw [if_neg hi]

/-- The holders of its children grow by a new object, if a handle can name it. -/
theorem holders_allocate_le (y : Handle) :
    (h.allocate o).2.holders y ≤ h.holders y + o.children.count y := by
  obtain ⟨i, g, -, hg, hslots⟩ | ⟨-, hslots⟩ := slots_allocate hw o
  · exact Nat.le_of_eq (holders_modify (x := ⟨i, g⟩) hslots hg y)
  · rw [holders_eq_sum, holders_eq_sum, named, named, hslots, Array.toList_push, List.take_append,
      List.map_append, List.sum_append]
    refine Nat.add_le_add_left ?_ _
    cases 2 ^ 32 - h.slots.toList.length with
    | zero => exact Nat.zero_le _
    | succ n => simp [Slot.children]

end allocate

/-- Counting a value and changing an object can be done in either order. -/
theorem exists_retain_of_changeObject {h h' : Heap} {x : Handle} {g : Object → Object} {v : Value}
    (hr : Heap.retain v (h.changeObject x g) = .ok () h') :
    ∃ h₀, Heap.retain v h = .ok () h₀ ∧ h' = h₀.changeObject x g := by
  cases hr₀ : Heap.retain v h with
  | ok _ h₀ =>
    rw [retain_changeObject h x g v hr₀] at hr
    cases hr
    exact ⟨h₀, rfl, rfl⟩
  | error f h₀ =>
    cases v with
    | object y =>
      have hc : (h.changeObject x g).contains y = h.contains y := contains_modifyCell h x y _
      simp only [Heap.retain, hc] at hr hr₀
      split at hr
      · next hy =>
        rw [if_pos hy] at hr₀
        cases hr₀
      · cases hr
    | _ => cases hr₀

namespace Backs

variable {h h' : Heap} {owners owners' : List Handle}

theorem perm (hb : h.Backs owners) (hp : owners.Perm owners') : h.Backs owners' :=
  ⟨hb.wellFormed, fun x => by
    rw [← hp.count_eq x]
    exact hb.le x⟩

theorem drop (xs : List Handle) (hb : h.Backs (xs ++ owners)) : h.Backs owners :=
  ⟨hb.wellFormed, fun x => by
    have := hb.le x
    rw [List.count_append] at this
    omega⟩

theorem contains_owner (hb : h.Backs owners) {x : Handle} (hx : x ∈ owners) : h.contains x = true := by
  have := List.count_pos_iff.2 hx
  have := hb.le x
  exact contains_of_credit_pos (by omega)

/-! ### Counting -/

/-- Counts stay high enough when one of them moves along with its owners. -/
theorem recount (hb : h.Backs owners) {x : Handle} {c : Cell} {f : Cell → Cell}
    (hx : h.find? x = some c) (hslots : h'.slots = (h.modifyCell x f).slots) (hfree : h'.free = h.free)
    (hobj : (f c).object = c.object) (hn : owners'.count x + c.count ≤ owners.count x + (f c).count)
    (hne : ∀ y, y ≠ x → owners'.count y = owners.count y) : h'.Backs owners' := by
  refine ⟨(hb.wellFormed.modifyCell x f).congr hslots hfree, fun y => ?_⟩
  have hle := hb.le y
  have hholders := holders_recount hslots hx y
  rw [hobj] at hholders
  rw [credit_recount hslots hx]
  split
  · next hyx =>
    subst hyx
    rw [credit_of_find? hx] at hle
    omega
  · next hyx =>
    rw [hne y hyx]
    omega

theorem retain (hb : h.Backs owners) {v : Value} (hr : Heap.retain v h = .ok () h') :
    h'.Backs (Value.handles [v] ++ owners) := by
  cases v with
  | object x =>
    simp only [Heap.retain] at hr
    split at hr
    · next hx =>
      obtain ⟨c, hc⟩ := contains_iff.1 hx
      cases hr
      refine hb.recount (f := fun c => { c with count := c.count + 1 }) hc rfl rfl rfl ?_ fun y hy => ?_
      · simp [Value.handles, Value.handle?]
        omega
      · simp [Value.handles, Value.handle?, Ne.symm hy]
    · cases hr
  | _ =>
    cases hr
    exact hb

/-- Releasing a value that is an owner takes it from the owners. -/
theorem release {v : Value} (hb : h.Backs (Value.handles [v] ++ owners)) :
    ∃ h', Heap.release v h = .ok () h' ∧ h'.Backs owners := by
  cases v with
  | object x =>
    have hx : h.contains x = true := hb.contains_owner (by simp [Value.handles, Value.handle?])
    obtain ⟨c, hc⟩ := contains_iff.1 hx
    refine ⟨_, by simp only [Heap.release, hx]; rfl, ?_⟩
    refine hb.recount (f := fun c => { c with count := c.count - 1 }) hc rfl rfl rfl ?_ fun y hy => ?_
    · have := hb.le x
      rw [credit_of_find? hc] at this
      simp [Value.handles, Value.handle?] at this ⊢
      omega
    · simp [Value.handles, Value.handle?, Ne.symm hy]
  | _ => exact ⟨h, rfl, hb⟩

theorem retainAll : ∀ {vs : List Value} {h : Heap} {owners : List Handle}, h.Backs owners →
    Heap.retainAll vs h = .ok () h' → h'.Backs (Value.handles vs ++ owners)
  | [], h, _, hb, hr => by
    cases hr
    exact hb
  | v :: vs, h, owners, hb, hr => by
    simp only [Heap.retainAll, bind, EStateM.bind] at hr
    split at hr
    · next h₁ hr₁ =>
      refine ((hb.retain hr₁).retainAll hr).perm ?_
      rw [Value.handles_cons v vs, ← List.append_assoc]
      exact List.perm_append_comm.append_right owners
    · cases hr

theorem releaseAll : ∀ {vs : List Value} {h : Heap}, h.Backs (Value.handles vs ++ owners) →
    ∃ h', Heap.releaseAll vs h = .ok () h' ∧ h'.Backs owners
  | [], h, hb => ⟨h, rfl, hb⟩
  | v :: vs, h, hb => by
    rw [Value.handles_cons, List.append_assoc] at hb
    obtain ⟨h₁, hr₁, hb₁⟩ := hb.release
    obtain ⟨h₂, hr₂, hb₂⟩ := hb₁.releaseAll
    exact ⟨h₂, by simp only [Heap.releaseAll, bind, EStateM.bind, hr₁, hr₂], hb₂⟩

/-! ### New objects and changes of objects -/

/-- An object that is exchanged for another hands its children to the owners, and takes its new
ones from them. -/
theorem changeObject (hb : h.Backs owners) {x : Handle} {o : Object} (g : Object → Object)
    (hx : h.object? x = some o) (hp : (o.children ++ owners).Perm ((g o).children ++ owners')) :
    (h.changeObject x g).Backs owners' := by
  obtain ⟨n, hn⟩ := object?_eq_some_iff.1 hx
  refine ⟨hb.wellFormed.modifyCell x _, fun y => ?_⟩
  have hle := hb.le y
  have hcount := hp.count_eq y
  have hholders : (h.changeObject x g).holders y + o.children.count y =
      h.holders y + (g o).children.count y := holders_recount rfl hn y
  have hcredit : (h.changeObject x g).credit y = h.credit y := by
    rw [Heap.changeObject, credit_recount rfl hn]
    split
    · next hyx => rw [hyx, credit_of_find? hn]
    · rfl
  rw [List.count_append, List.count_append] at hcount
  rw [hcredit]
  omega

/-- A new object takes its children from the owners. -/
theorem allocate {o : Object} (hb : h.Backs (o.children ++ owners)) : (h.allocate o).2.Backs owners := by
  refine ⟨hb.wellFormed.allocated o, fun y => ?_⟩
  have hle := hb.le y
  have hholders := holders_allocate_le hb.wellFormed o y
  rw [List.count_append] at hle
  rw [credit_allocate hb.wellFormed]
  omega

theorem setElement (hb : h.Backs owners) {x : Handle} {i : Nat} {v : Value}
    (hr : Heap.setElement x i v h = .ok () h') : h'.Backs owners := by
  unfold Heap.setElement at hr
  cases ho : h.object? x with
  | none => simp only [ho] at hr; cases hr
  | some o =>
    simp only [ho] at hr
    cases hvs : o.elements? with
    | none => simp only [hvs] at hr; cases hr
    | some vs =>
      simp only [hvs] at hr
      cases hold : vs[i]? with
      | none => simp only [hold] at hr; cases hr
      | some old =>
        simp only [hold, bind, EStateM.bind] at hr
        split at hr
        · next h₁ hr₁ =>
          obtain ⟨h₀, hr₀, rfl⟩ := exists_retain_of_changeObject hr₁
          have ho₀ : h₀.object? x = some o := (object?_retain hr₀ x).trans ho
          have hb₁ : (h₀.changeObject x (Object.mapElements fun vs => vs.setIfInBounds i v)).Backs
              (Value.handles [old] ++ owners) := (hb.retain hr₀).changeObject _ ho₀ (by
            simp only [← List.append_assoc]
            exact (Object.children_set hvs hold v).append_right owners)
          obtain ⟨h₂, hr₂, hb₂⟩ := hb₁.release
          rw [hr₂] at hr
          cases hr
          exact hb₂
        · cases hr

/-! ### Sweeping -/

/-- Freeing an object that nothing is counted for makes owners of its children. -/
theorem clear (hb : h.Backs owners) {x : Handle} {o : Object} (hx : h.find? x = some ⟨0, o⟩) :
    (h.clear x.index).Backs (o.children ++ owners) := by
  refine ⟨hb.wellFormed.clear hx, fun y => ?_⟩
  have hle := hb.le y
  have hholders : (h.clear x.index).holders y + o.children.count y = h.holders y + 0 :=
    holders_modify (f := fun s => ⟨s.generation + 1, none⟩) rfl (find?_eq_some_iff.1 hx) y
  have hcredit : (h.clear x.index).credit y = h.credit y := by
    rw [credit, count?, find?_clear hx]
    split
    · next hyx =>
      rw [hyx, credit_of_find? hx]
      rfl
    · rfl
  rw [hcredit, List.count_append]
  omega

theorem releaseChildren (pinned : Handle → Bool) : ∀ {xs waiting : List Handle} {h : Heap},
    h.Backs (xs ++ owners) → (Heap.releaseChildren pinned xs waiting h).2.Backs owners
  | [], waiting, h, hb => hb
  | x :: xs, waiting, h, hb => by
    unfold Heap.releaseChildren
    cases hc : h.find? x with
    | none => exact (hb.drop [x]).releaseChildren pinned
    | some c =>
      refine releaseChildren pinned ?_
      refine hb.recount (f := fun c => { c with count := c.count - 1 }) hc rfl rfl rfl ?_ fun y hy => ?_
      · have := hb.le x
        rw [credit_of_find? hc] at this
        simp at this ⊢
        omega
      · simp [Ne.symm hy]

theorem sweepRounds (pinned : Handle → Bool) : ∀ (n : Nat) (waiting : List Handle) {h : Heap},
    h.Backs owners → (Heap.sweepRounds pinned n waiting h).2.Backs owners
  | 0, _, _, hb => hb
  | n + 1, waiting, h, hb => by
    unfold Heap.sweepRounds
    split
    · exact hb
    · next x o rest hn =>
      obtain ⟨hx, -, -⟩ := Exact.nextUnheld hn
      exact ((hb.clear hx).releaseChildren pinned).sweepRounds pinned n _

theorem sweep (hb : h.Backs owners) (pinned : Handle → Bool) : (h.sweep pinned).2.Backs owners := by
  have hb' := hb.sweepRounds pinned h.slots.size (h.unheld pinned)
  exact ⟨hb'.wellFormed.congr rfl rfl, hb'.le⟩

end Backs

end Scriptlet.Heap
