import Scriptlet.Proofs.Heap.Slots

/-!
# Exact counts

`Heap.Exact h owners`: the free list of `h` is in order, every handle in `owners` or in a live
object refers to a live object, and the count of a live object is the number of its occurrences
in both together. `owners` lists the holders outside of the heap, one entry for each place.

Each operation of the heap moves handles between `owners` and the objects: `Exact.retain` adds an
owner, `Exact.release` takes one away, `Exact.allocate` turns owners into children of the new
object, `Exact.changeObject` exchanges children for owners. No release finds a count of zero, so
the sum of all counts stays the number of retains less the number of releases (`Heap.lost`).
-/

namespace Scriptlet.Heap

/-- The counts are exact (module doc). -/
structure Exact (h : Heap) (owners : List Handle) : Prop where
  wellFormed : h.WellFormed
  live : ∀ x ∈ owners ++ h.inner, h.contains x = true
  count : ∀ x c, h.find? x = some c → c.count = (owners ++ h.inner).count x
  balance : h.lost = 0

namespace Exact

variable {h : Heap} {owners owners' : List Handle}

theorem perm (he : h.Exact owners) (hp : owners.Perm owners') : h.Exact owners' where
  wellFormed := he.wellFormed
  live x hx := he.live x (by
    rw [List.mem_append] at hx ⊢
    exact hx.imp_left hp.mem_iff.2)
  count x c hx := by
    rw [he.count x c hx, List.count_append, List.count_append, hp.count_eq]
  balance := he.balance

theorem contains_owner (he : h.Exact owners) {x : Handle} (hx : x ∈ owners) :
    h.contains x = true :=
  he.live x (List.mem_append_left _ hx)

/-- What a live object counts on is live. -/
theorem contains_child (he : h.Exact owners) {x y : Handle} {o : Object}
    (hx : h.object? x = some o) (hy : y ∈ o.children) : h.contains y = true := by
  obtain ⟨n, hn⟩ := object?_eq_some_iff.1 hx
  exact he.live y (List.mem_append_right _ (mem_inner_of_find? hn hy))

/-! ### Counting -/

/-- Counts stay exact when the count of one object moves along with its owners. -/
theorem recount (he : h.Exact owners) {x : Handle} {c : Cell} (hx : h.find? x = some c) {h' : Heap}
    {f : Cell → Cell} (hslots : h'.slots = (h.modifyCell x f).slots) (hfree : h'.free = h.free)
    (hobj : (f c).object = c.object)
    (hn : (f c).count + owners.count x = c.count + owners'.count x)
    (hne : ∀ y, y ≠ x → owners'.count y = owners.count y)
    (hs : (h'.stats.releases : Int) - h'.stats.retains + (f c).count =
      h.stats.releases - h.stats.retains + c.count) : h'.Exact owners' := by
  have hfind : ∀ y, h'.find? y = if y = x then some (f c) else h.find? y := fun y => by
    rw [← find?_modifyCell_of_find? hx, find?, hslots]; rfl
  have hin : ∀ y, h'.inner.count y = h.inner.count y := fun y => by
    have := count_inner_modifyCell f hx y
    rw [inner, hslots, ← inner]
    rw [hobj] at this
    omega
  have ht : h'.total + c.count = h.total + (f c).count := by
    have := total_modifyCell f hx
    rw [total, hslots, ← total]
    exact this
  have hc := he.count x c hx
  rw [List.count_append] at hc
  refine ⟨(he.wellFormed.modifyCell x f).congr hslots hfree, fun y hy => ?_, fun y d hy => ?_, ?_⟩
  · by_cases hyx : y = x
    · exact contains_iff.2 ⟨f c, by rw [hfind, if_pos hyx]⟩
    · rw [contains, hfind, if_neg hyx, ← contains]
      refine he.live y ?_
      rw [← List.count_pos_iff, List.count_append] at hy ⊢
      rw [← hne y hyx, ← hin y]
      exact hy
  · rw [hfind] at hy
    rw [List.count_append, hin]
    by_cases hyx : y = x
    · rw [if_pos hyx] at hy
      cases hy
      subst hyx
      omega
    · rw [if_neg hyx] at hy
      rw [he.count y d hy, List.count_append, hne y hyx]
  · have hb := he.balance
    unfold lost at hb ⊢
    omega

/-- Counting a live value makes it an owner. -/
theorem retain (he : h.Exact owners) {v : Value} (hv : ∀ x ∈ Value.handles [v], h.contains x = true) :
    ∃ h', Heap.retain v h = .ok () h' ∧ h'.Exact (Value.handles [v] ++ owners) ∧ h.Keeps h' ∧
      h'.slots.size = h.slots.size := by
  cases v with
  | object x =>
    have hx : h.contains x = true := hv x (by simp [Value.handles, Value.handle?])
    obtain ⟨c, hc⟩ := contains_iff.1 hx
    refine ⟨_, by simp only [Heap.retain, hx]; rfl, ?_, ?_, ?_⟩
    · refine he.recount (f := fun c => { c with count := c.count + 1 }) hc rfl rfl rfl ?_ ?_ ?_
      · simp [Value.handles, Value.handle?]; omega
      · intro y hy
        simp [Value.handles, Value.handle?, Ne.symm hy]
      · simp; omega
    · exact fun y hy => (contains_modifyCell h x y _).trans hy
    · exact size_modifyCell h x _
  | _ => exact ⟨h, rfl, he, fun _ hy => hy, rfl⟩

/-- Releasing a value that is an owner takes it from the owners. -/
theorem release {v : Value} (he : h.Exact (Value.handles [v] ++ owners)) :
    ∃ h', Heap.release v h = .ok () h' ∧ h'.Exact owners ∧ h.Keeps h' ∧
      h'.slots.size = h.slots.size := by
  cases v with
  | object x =>
    have hx : h.contains x = true := he.contains_owner (by simp [Value.handles, Value.handle?])
    obtain ⟨c, hc⟩ := contains_iff.1 hx
    have hpos : 0 < c.count := by
      rw [he.count x c hc]
      exact List.count_pos_iff.2 (by simp [Value.handles, Value.handle?])
    refine ⟨_, by simp only [Heap.release, hx]; rfl, ?_, ?_, ?_⟩
    · refine he.recount (f := fun c => { c with count := c.count - 1 }) hc rfl rfl rfl ?_ ?_ ?_
      · simp [Value.handles, Value.handle?]; omega
      · intro y hy
        simp [Value.handles, Value.handle?, Ne.symm hy]
      · simp; omega
    · exact fun y hy => (contains_modifyCell h x y _).trans hy
    · exact size_modifyCell h x _
  | _ => exact ⟨h, rfl, he, fun _ hy => hy, rfl⟩

theorem retainAll : ∀ {vs : List Value} {h : Heap} {owners : List Handle}, h.Exact owners →
    (∀ x ∈ Value.handles vs, h.contains x = true) →
    ∃ h', Heap.retainAll vs h = .ok () h' ∧ h'.Exact (Value.handles vs ++ owners) ∧ h.Keeps h' ∧
      h'.slots.size = h.slots.size
  | [], h, _, he, _ => ⟨h, rfl, he, fun _ hy => hy, rfl⟩
  | v :: vs, h, owners, he, hv => by
    rw [Value.handles_cons] at hv
    obtain ⟨h₁, h₁run, he₁, hk₁, hs₁⟩ := he.retain fun x hx => hv x (List.mem_append_left _ hx)
    obtain ⟨h₂, h₂run, he₂, hk₂, hs₂⟩ := he₁.retainAll fun x (hx : x ∈ Value.handles vs) =>
      hk₁ x (hv x (List.mem_append_right _ hx))
    refine ⟨h₂, ?_, he₂.perm ?_, fun y hy => hk₂ y (hk₁ y hy), hs₂.trans hs₁⟩
    · simp only [Heap.retainAll, bind, EStateM.bind, h₁run, h₂run]
    · rw [Value.handles_cons v vs, ← List.append_assoc]
      exact List.perm_append_comm.append_right owners

theorem releaseAll : ∀ {vs : List Value} {h : Heap} {owners : List Handle},
    h.Exact (Value.handles vs ++ owners) →
    ∃ h', Heap.releaseAll vs h = .ok () h' ∧ h'.Exact owners ∧ h.Keeps h' ∧
      h'.slots.size = h.slots.size
  | [], h, _, he => ⟨h, rfl, he, fun _ hy => hy, rfl⟩
  | v :: vs, h, owners, he => by
    rw [Value.handles_cons, List.append_assoc] at he
    obtain ⟨h₁, h₁run, he₁, hk₁, hs₁⟩ := he.release
    obtain ⟨h₂, h₂run, he₂, hk₂, hs₂⟩ := he₁.releaseAll
    refine ⟨h₂, ?_, he₂, fun y hy => hk₂ y (hk₁ y hy), hs₂.trans hs₁⟩
    simp only [Heap.releaseAll, bind, EStateM.bind, h₁run, h₂run]

/-! ### New objects and changes of objects -/

/-- An object that is exchanged for another hands its children to the owners, and takes its new
ones from them. -/
theorem changeObject (he : h.Exact owners) {x : Handle} {o : Object} (g : Object → Object)
    (hx : h.object? x = some o) (hp : (o.children ++ owners).Perm ((g o).children ++ owners')) :
    (h.changeObject x g).Exact owners' := by
  obtain ⟨n, hn⟩ := object?_eq_some_iff.1 hx
  have hin := count_inner_modifyCell (fun c => { c with object := g c.object }) hn
  have hcount : ∀ y, (owners' ++ (h.changeObject x g).inner).count y =
      (owners ++ h.inner).count y := fun y => by
    have h₁ := hin y
    have h₂ := hp.count_eq y
    simp only [List.count_append] at h₂ ⊢
    rw [Heap.changeObject]
    simp only at h₁
    omega
  refine ⟨he.wellFormed.modifyCell x _, fun y hy => ?_, fun y d hy => ?_, ?_⟩
  · rw [Heap.changeObject, contains_modifyCell]
    refine he.live y ?_
    rw [← List.count_pos_iff] at hy ⊢
    rw [← hcount]
    exact hy
  · rw [hcount]
    rw [Heap.changeObject, find?_modifyCell_of_find? hn] at hy
    split at hy
    · next hyx =>
      cases hy
      subst hyx
      exact he.count y ⟨n, o⟩ hn
    · exact he.count y d hy
  · have ht := total_modifyCell (fun c => { c with object := g c.object }) hn
    have hb := he.balance
    unfold lost at hb ⊢
    simp only [Heap.changeObject, stats_modifyCell]
    simp only at ht
    omega

/-- A new object takes its children from the owners. Nothing holds it yet. -/
theorem allocate {o : Object} (he : h.Exact (o.children ++ owners)) (hs : h.slots.size < 2 ^ 32) :
    (h.allocate o).2.Exact owners ∧ h.Keeps (h.allocate o).2 ∧
      (h.allocate o).2.contains (h.allocate o).1 = true := by
  have hw := he.wellFormed
  have hfind := find?_allocate_eq hw hs o
  have hin := count_inner_allocate hw hs o
  have hkeeps : h.Keeps (h.allocate o).2 := fun y hy => by
    rw [contains, hfind]
    split
    · rfl
    · exact hy
  -- the new handle is held by nothing, since everything held was live before
  have hnew : (owners ++ (h.allocate o).2.inner).count (h.allocate o).1 = 0 := by
    rw [List.count_append, hin, ← List.count_append, ← List.count_append, List.count_eq_zero]
    intro hm
    have hlive := he.live (h.allocate o).1 (by
      simp only [List.mem_append] at hm ⊢
      tauto)
    obtain ⟨c, hc⟩ := contains_iff.1 hlive
    rw [find?_new hw hs o] at hc
    cases hc
  refine ⟨⟨hw.allocate hs o, fun y hy => hkeeps y (he.live y ?_), fun y d hy => ?_, ?_⟩, hkeeps, ?_⟩
  · rw [← List.count_pos_iff] at hy ⊢
    simp only [List.count_append, hin] at hy ⊢
    omega
  · rw [hfind] at hy
    split at hy
    · next hyx =>
      subst hyx
      cases hy
      rw [hnew]
    · rw [he.count y d hy]
      simp only [List.count_append, hin]
      omega
  · have hb := he.balance
    unfold lost at hb ⊢
    rw [total_allocate hw hs o, stats_allocate]
    exact hb
  · rw [contains, hfind, if_pos rfl]; rfl

/-- Storing an element of a live object keeps counts exact, and fails without a change. -/
theorem setElement (he : h.Exact owners) {x : Handle} {i : Nat} {v : Value}
    (hx : h.contains x = true) (hv : ∀ y ∈ Value.handles [v], h.contains y = true) :
    match Heap.setElement x i v h with
    | .ok _ h' => h'.Exact owners ∧ h.Keeps h' ∧ h'.slots.size = h.slots.size
    | .error f h' => f ≠ .staleHandle ∧ h' = h := by
  obtain ⟨o, ho⟩ := exists_object?_of_contains hx
  simp only [Heap.setElement, ho]
  cases hvs : o.elements? with
  | none => exact ⟨by simp, rfl⟩
  | some vs =>
    cases hold : vs[i]? with
    | none => simp [hold]
    | some old =>
      obtain ⟨h₁, hr₁, he₁, hk₁, hs₁⟩ := he.retain hv
      have ho₁ : h₁.object? x = some o := (object?_retain hr₁ x).trans ho
      have he₂ : (h₁.changeObject x (Object.mapElements fun vs => vs.setIfInBounds i v)).Exact
          (Value.handles [old] ++ owners) := he₁.changeObject _ ho₁ (by
        simp only [← List.append_assoc]
        exact (Object.children_set hvs hold v).append_right owners)
      obtain ⟨h₃, hr₃, he₃, hk₃, hs₃⟩ := he₂.release
      have hrun : (do Heap.retain v; Heap.release old : Action Unit)
          (h.changeObject x (Object.mapElements fun vs => vs.setIfInBounds i v)) = .ok () h₃ := by
        simp only [bind, EStateM.bind, retain_changeObject h x _ v hr₁, hr₃]
      rw [Heap.changeObject] at hrun
      simp only [hold, hrun]
      refine ⟨he₃, fun y hy => hk₃ y ?_, hs₃.trans ((size_modifyCell h₁ x _).trans hs₁)⟩
      rw [Heap.changeObject, contains_modifyCell]
      exact hk₁ y hy

end Exact

end Scriptlet.Heap
