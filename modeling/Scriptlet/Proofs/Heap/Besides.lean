import Mathlib.Algebra.BigOperators.Fin
import Mathlib.Algebra.BigOperators.Finprod
import Scriptlet.Proofs.Heap.Backing
import Scriptlet.Proofs.Heap.Renaming

/-!
# One object more, under other names

`Heap.Besides e x o h h'`: the objects of `h'` are those of `h` under the names `e`, and one more,
`x`, which is counted for nothing and for which its children are counted once more. If the counts of
`h` are tallied, so are those of `h'` (`Besides.tallied`), and a sweep of both that does not pin `x`
leaves the same objects with the same counts, up to names (`Besides.find?_sweep`).

The two heaps fill their slots in different orders, and so do their sweeps. Holders are therefore
counted over handles instead of slots (`holders_eq_finsum`), where names can be exchanged.
-/

namespace Scriptlet

namespace Heap

/-! ## Holders, counted over handles -/

/-- The number of times that the object of a handle holds another. -/
def share (h : Heap) (y x : Handle) : Nat := (h.object? x).elim 0 fun o => o.children.count y

theorem length_named_le (h : Heap) : h.named.length ≤ 2 ^ 32 := by
  rw [named, List.length_take]
  exact Nat.min_le_left _ _

/-- The handle of a slot, if it holds an object. -/
def handleAt (h : Heap) (i : Fin h.named.length) : Handle :=
  ⟨UInt32.ofNat i, h.named[i].generation⟩

theorem toNat_index_handleAt (h : Heap) (i : Fin h.named.length) :
    (h.handleAt i).index.toNat = i := by
  have := h.length_named_le
  rw [handleAt, UInt32.toNat_ofNat', Nat.mod_eq_of_lt (by omega)]

theorem handleAt_injective (h : Heap) : Function.Injective h.handleAt := by
  intro i j hij
  apply Fin.ext
  rw [← h.toNat_index_handleAt i, ← h.toNat_index_handleAt j, hij]

theorem share_handleAt (h : Heap) (y : Handle) (i : Fin h.named.length) :
    h.share y (h.handleAt i) = h.named[i].children.count y := by
  have hslot : h.slots[(h.handleAt i).index.toNat]? = some h.named[i] := by
    rw [← getElem?_named, toNat_index_handleAt]
    exact List.getElem?_eq_getElem i.2
  unfold share object? find? Slot.children
  rw [hslot]
  simp only [handleAt, if_true]
  cases h.named[i].cell <;> rfl

/-- Only a handle of a slot refers to an object. -/
theorem exists_handleAt {h : Heap} {y x : Handle} (hx : h.share y x ≠ 0) :
    ∃ i, h.handleAt i = x := by
  unfold share at hx
  cases ho : h.object? x with
  | none =>
    rw [ho] at hx
    exact absurd rfl hx
  | some o =>
    obtain ⟨n, hn⟩ := object?_eq_some_iff.1 ho
    rw [find?_eq_some_iff, ← getElem?_named, List.getElem?_eq_some_iff] at hn
    obtain ⟨hlt, hslot⟩ := hn
    refine ⟨⟨x.index.toNat, hlt⟩, ?_⟩
    simp only [handleAt, Fin.getElem_fin, hslot, UInt32.ofNat_toNat]

theorem holders_eq_finsum (h : Heap) (y : Handle) : h.holders y = ∑ᶠ x, h.share y x := by
  have hsupport : Function.support (h.share y) ⊆
      (Finset.univ.map ⟨h.handleAt, h.handleAt_injective⟩ : Finset Handle) := by
    intro x hx
    obtain ⟨i, hi⟩ := exists_handleAt hx
    simpa using ⟨i, hi⟩
  rw [finsum_eq_sum_of_support_subset _ hsupport, Finset.sum_map, holders_eq_sum,
    ← Fin.sum_univ_fun_getElem]
  exact Finset.sum_congr rfl fun i _ => (h.share_handleAt y i).symm

/-! ## One object more -/

/-- The second heap has the objects of the first and one more (module doc). -/
structure Besides (e : Equiv.Perm Handle) (x : Handle) (o : Object) (h h' : Heap) : Prop where
  object : h'.find? x = some ⟨0, o⟩
  absent : h.find? (e.symm x) = none
  others : ∀ z, e z ≠ x → h'.find? (e z) =
    (h.find? z).map fun c => ⟨c.count + o.children.count (e z), c.object.rename e⟩
  children : ∀ y ∈ o.children, h.contains (e.symm y) = true

namespace Besides

variable {e : Equiv.Perm Handle} {x : Handle} {o : Object} {h h' : Heap} {ext : Handle → Nat}

theorem ne_of_contains (hb : Besides e x o h h') {z : Handle} (hz : h.contains z = true) :
    e z ≠ x := by
  rintro rfl
  have := hb.absent
  rw [Equiv.symm_apply_apply] at this
  rw [contains, this] at hz
  cases hz

theorem object?_eq (hb : Besides e x o h h') {z : Handle} (hz : e z ≠ x) :
    h'.object? (e z) = (h.object? z).map (Object.rename e) := by
  rw [object?, object?, hb.others z hz, Option.map_map, Option.map_map]
  rfl

theorem contains_eq (hb : Besides e x o h h') {z : Handle} (hz : e z ≠ x) :
    h'.contains (e z) = h.contains z := by
  rw [contains, contains, hb.others z hz, Option.isSome_map]

theorem count_rename (e : Equiv.Perm Handle) (o : Object) (y : Handle) :
    (o.rename e).children.count (e y) = o.children.count y := by
  rw [Object.children_rename]
  exact List.count_map_of_injective _ _ e.injective y

/-- The objects hold what they held, and the new one holds its children. -/
theorem share_eq (hb : Besides e x o h h') (y z : Handle) :
    h'.share (e y) (e z) = h.share y z + if z = e.symm x then o.children.count (e y) else 0 := by
  unfold share
  by_cases hz : e z = x
  · have hz' : z = e.symm x := by rw [← hz, Equiv.symm_apply_apply]
    rw [hz, if_pos hz', hz', object?, object?, hb.object, hb.absent]
    simp
  · have hz' : z ≠ e.symm x := by
      rintro rfl
      exact hz (e.apply_symm_apply x)
    rw [hb.object?_eq hz, if_neg hz']
    cases h.object? z with
    | none => rfl
    | some p => exact count_rename e p y

theorem holders_eq (hb : Besides e x o h h') (y : Handle) :
    h'.holders (e y) = h.holders y + o.children.count (e y) := by
  have hfinite : ∀ f : Handle → Nat, (Function.support f).Finite := fun _ => Set.toFinite _
  rw [holders_eq_finsum, holders_eq_finsum, ← finsum_comp_equiv e]
  simp only [hb.share_eq]
  rw [finsum_add_distrib (hfinite _) (hfinite _)]
  congr 1
  rw [finsum_eq_single _ (e.symm x) fun z hz => if_neg hz, if_pos rfl]

theorem not_contains (hb : Besides e x o h h') : h.contains (e.symm x) = false := by
  rw [contains, hb.absent]
  rfl

/-- Nothing holds the new object. -/
theorem holders_self (hb : Besides e x o h h') (ht : h.Tallied ext) : h'.holders x = 0 := by
  have hold : h.holders (e.symm x) = 0 := by
    by_contra hpos
    obtain ⟨z, hz⟩ := exists_holds (Nat.pos_of_ne_zero hpos)
    have := ht.live z _ hz
    rw [hb.not_contains] at this
    cases this
  have hchild : o.children.count x = 0 := by
    refine List.count_eq_zero.2 fun hx => ?_
    have := hb.children x hx
    rw [hb.not_contains] at this
    cases this
  have := hb.holders_eq (e.symm x)
  rw [Equiv.apply_symm_apply] at this
  omega

theorem holds_iff (hb : Besides e x o h h') {z w : Handle} (hz : e z ≠ x) :
    h'.Holds (e z) (e w) ↔ h.Holds z w := by
  unfold Holds
  rw [hb.object?_eq hz]
  constructor
  · rintro ⟨p, hp, hw⟩
    obtain ⟨q, hq, rfl⟩ := Option.map_eq_some_iff.1 hp
    rw [Object.children_rename] at hw
    exact ⟨q, hq, (List.mem_map_of_injective e.injective).1 hw⟩
  · rintro ⟨q, hq, hw⟩
    refine ⟨q.rename e, by rw [hq]; rfl, ?_⟩
    rw [Object.children_rename]
    exact List.mem_map_of_mem hw

theorem tallied (hb : Besides e x o h h') (ht : h.Tallied ext) (hx : ext (e.symm x) = 0) :
    h'.Tallied fun y => ext (e.symm y) := by
  have hcontains : ∀ {w}, h.contains w = true → h'.contains (e w) = true := by
    intro w hw
    rw [hb.contains_eq (hb.ne_of_contains hw), hw]
  constructor
  · intro z y hzy
    obtain ⟨w, rfl⟩ := e.surjective y
    obtain ⟨v, rfl⟩ := e.surjective z
    apply hcontains
    by_cases hv : e v = x
    · rw [hv] at hzy
      obtain ⟨p, hp, hw⟩ := hzy
      rw [object?, hb.object] at hp
      cases hp
      simpa using hb.children _ hw
    · exact ht.live v w ((hb.holds_iff hv).1 hzy)
  · intro y c hy
    obtain ⟨z, rfl⟩ := e.surjective y
    by_cases hz : e z = x
    · rw [hz] at hy ⊢
      rw [hb.object] at hy
      cases hy
      rw [hx, hb.holders_self ht]
    · rw [hb.others z hz] at hy
      obtain ⟨d, hd, rfl⟩ := Option.map_eq_some_iff.1 hy
      have hcount := ht.count z d hd
      have hholders := hb.holders_eq z
      simp only [Equiv.symm_apply_apply]
      omega

/-! ## What is kept -/

end Besides

theorem Kept.contains {h : Heap} {ext : Handle → Nat} {pinned : Handle → Bool} {x : Handle}
    (hk : h.Kept pinned ext x) (ht : h.Tallied ext) : h.contains x = true := by
  obtain ⟨r, hr, hrx⟩ := hk
  rcases Relation.ReflTransGen.cases_tail hrx with rfl | ⟨z, -, hzx⟩
  · exact hr.live
  · exact ht.live z x hzx

namespace Besides

variable {e : Equiv.Perm Handle} {x : Handle} {o : Object} {h h' : Heap} {ext : Handle → Nat}

section kept

variable (hb : Besides e x o h h') (ht : h.Tallied ext)
include hb

theorem reach {z w : Handle} (hzw : Relation.ReflTransGen h.Holds z w) :
    Relation.ReflTransGen h'.Holds (e z) (e w) :=
  hzw.lift e fun _ _ hab => (hb.holds_iff (hb.ne_of_contains hab.contains)).2 hab

include ht

/-- What another object leads to, it led to without the new one. -/
theorem reach_back {z y : Handle} (hz : e z ≠ x) (hzy : Relation.ReflTransGen h'.Holds (e z) y) :
    y ≠ x ∧ Relation.ReflTransGen h.Holds z (e.symm y) := by
  induction hzy with
  | refl =>
    rw [Equiv.symm_apply_apply]
    exact ⟨hz, .refl⟩
  | @tail v y _ hvy ih =>
    obtain ⟨hv, hzv⟩ := ih
    have hy : y ≠ x := by
      rintro rfl
      have := hvy.holders_pos
      rw [hb.holders_self ht] at this
      cases this
    refine ⟨hy, hzv.tail ?_⟩
    rw [← e.apply_symm_apply v] at hv hvy
    rw [← e.apply_symm_apply y] at hvy
    exact (hb.holds_iff hv).1 hvy

theorem not_kept (hx : ext (e.symm x) = 0) {pinned : Handle → Bool} (hp : pinned x = false) :
    ¬ h'.Kept pinned (fun y => ext (e.symm y)) x := by
  intro hk
  rcases hk.holder with hpin | hext | ⟨z, -, hzx⟩
  · rw [hp] at hpin
    cases hpin
  · omega
  · have := hzx.holders_pos
    rw [hb.holders_self ht] at this
    cases this

/-- The new object makes no difference to what a sweep has to keep. -/
theorem kept_iff (hx : ext (e.symm x) = 0) {pinned : Handle → Bool} (hp : pinned x = false)
    (z : Handle) :
    h'.Kept pinned (fun y => ext (e.symm y)) (e z) ↔ h.Kept (pinned ∘ e) ext z := by
  by_cases hz : e z = x
  · have hz' : ¬ h.Kept (pinned ∘ e) ext z := by
      intro hk
      exact hb.ne_of_contains (hk.contains ht) hz
    rw [hz]
    exact iff_of_false (hb.not_kept ht hx hp) hz'
  constructor
  · rintro ⟨r, ⟨hlive, hstays⟩, hrz⟩
    obtain ⟨q, rfl⟩ := e.surjective r
    have hq : e q ≠ x := by
      intro hq
      rw [hq] at hstays
      rcases hstays with hpin | hext | hcycle
      · rw [hp] at hpin
        cases hpin
      · omega
      · obtain ⟨v, -, hvx⟩ := Relation.TransGen.tail'_iff.1 hcycle
        have := hvx.holders_pos
        rw [hb.holders_self ht] at this
        cases this
    have hback := (hb.reach_back ht hq hrz).2
    rw [Equiv.symm_apply_apply] at hback
    refine ⟨q, ⟨by rw [← hb.contains_eq hq, hlive], ?_⟩, hback⟩
    rcases hstays with hpin | hext | hcycle
    · exact .inl hpin
    · exact .inr (.inl (by simpa using hext))
    · obtain ⟨v, hqv, hvq⟩ := Relation.TransGen.tail'_iff.1 hcycle
      obtain ⟨hv, hqv'⟩ := hb.reach_back ht hq hqv
      rw [← e.apply_symm_apply v] at hv hvq
      exact .inr (.inr (Relation.TransGen.tail'_iff.2 ⟨_, hqv', (hb.holds_iff hv).1 hvq⟩))
  · rintro ⟨r, ⟨hlive, hstays⟩, hrz⟩
    refine ⟨e r, ⟨?_, ?_⟩, hb.reach hrz⟩
    · rw [hb.contains_eq (hb.ne_of_contains hlive), hlive]
    · rcases hstays with hpin | hext | hcycle
      · exact .inl hpin
      · exact .inr (.inl (by simpa using hext))
      · refine .inr (.inr (hcycle.lift e fun _ _ hab => ?_))
        exact (hb.holds_iff (hb.ne_of_contains hab.contains)).2 hab

end kept

end Besides

/-! ## Sweeping both -/

theorem object?_of_not_contains {h : Heap} {x : Handle} (hx : h.contains x = false) :
    h.object? x = none := by
  rw [contains, Option.isSome_eq_false_iff, Option.isNone_iff_eq_none] at hx
  rw [object?, hx]
  rfl

/-- What a sweep leaves is kept, is as it was, and is tallied. -/
theorem Tallied.sweep {h : Heap} {ext : Handle → Nat} (ht : h.Tallied ext) (pinned : Handle → Bool) :
    (h.sweep pinned).2.Tallied ext ∧
      (∀ x, (h.sweep pinned).2.contains x = true ↔ h.Kept pinned ext x) ∧
      ∀ x, (h.sweep pinned).2.contains x = true → (h.sweep pinned).2.object? x = h.object? x := by
  have hstart : Sweeping pinned ext h h (h.unheld pinned) :=
    ⟨ht, fun _ _ ho => ho, fun _ hk => hk.contains ht, waits_unheld h pinned⟩
  obtain ⟨hend, -⟩ := hstart.rounds h.ncard_live_le
  refine ⟨⟨hend.tallied.live, hend.tallied.count⟩, fun x => ?_, fun x hx => hend.object_eq hx⟩
  exact ⟨fun hx => hend.kept_of_contains hx, fun hx => hend.kept x hx⟩

namespace Besides

variable {e : Equiv.Perm Handle} {x : Handle} {o : Object} {h h' : Heap} {ext : Handle → Nat}
  {pinned : Handle → Bool}

/-- A sweep that does not pin the new object frees it. -/
theorem contains_sweep (hb : Besides e x o h h') (ht : h.Tallied ext) (hx : ext (e.symm x) = 0)
    (hp : pinned x = false) : (h'.sweep pinned).2.contains x = false := by
  rw [Bool.eq_false_iff, ne_eq, ((hb.tallied ht hx).sweep pinned).2.1]
  exact hb.not_kept ht hx hp

/-- Sweeps that do not pin the new object leave the same objects. -/
theorem object?_sweep (hb : Besides e x o h h') (ht : h.Tallied ext) (hx : ext (e.symm x) = 0)
    (hp : pinned x = false) (z : Handle) :
    (h'.sweep pinned).2.object? (e z) =
      ((h.sweep (pinned ∘ e)).2.object? z).map (Object.rename e) := by
  obtain ⟨-, hkept, hobject⟩ := ht.sweep (pinned ∘ e)
  obtain ⟨-, hkept', hobject'⟩ := (hb.tallied ht hx).sweep pinned
  have hiff := hb.kept_iff ht hx hp z
  by_cases hk : h.Kept (pinned ∘ e) ext z
  · rw [hobject z ((hkept z).2 hk), hobject' (e z) ((hkept' (e z)).2 (hiff.2 hk)),
      hb.object?_eq (hb.ne_of_contains (hk.contains ht))]
  · have hgone : (h.sweep (pinned ∘ e)).2.contains z = false := by
      rw [Bool.eq_false_iff, ne_eq, hkept]
      exact hk
    have hgone' : (h'.sweep pinned).2.contains (e z) = false := by
      rw [Bool.eq_false_iff, ne_eq, hkept', hiff]
      exact hk
    rw [object?_of_not_contains hgone, object?_of_not_contains hgone']
    rfl

theorem share_sweep (hb : Besides e x o h h') (ht : h.Tallied ext) (hx : ext (e.symm x) = 0)
    (hp : pinned x = false) (y z : Handle) :
    (h'.sweep pinned).2.share (e y) (e z) = (h.sweep (pinned ∘ e)).2.share y z := by
  unfold share
  rw [hb.object?_sweep ht hx hp]
  cases (h.sweep (pinned ∘ e)).2.object? z with
  | none => rfl
  | some p => exact count_rename e p y

/-- Sweeps that do not pin the new object leave the same objects with the same counts. -/
theorem find?_sweep (hb : Besides e x o h h') (ht : h.Tallied ext) (hx : ext (e.symm x) = 0)
    (hp : pinned x = false) (z : Handle) :
    (h'.sweep pinned).2.find? (e z) =
      ((h.sweep (pinned ∘ e)).2.find? z).map (Cell.rename e) := by
  have ht₁ := (ht.sweep (pinned ∘ e)).1
  have ht₂ := ((hb.tallied ht hx).sweep pinned).1
  have hobject := hb.object?_sweep ht hx hp z
  have hholders : (h'.sweep pinned).2.holders (e z) = (h.sweep (pinned ∘ e)).2.holders z := by
    rw [holders_eq_finsum, holders_eq_finsum, ← finsum_comp_equiv e]
    simp only [hb.share_sweep ht hx hp]
  rw [object?, object?] at hobject
  cases hc : (h.sweep (pinned ∘ e)).2.find? z with
  | none =>
    rw [hc] at hobject
    simpa using hobject
  | some c =>
    rw [hc] at hobject
    obtain ⟨d, hd, hdo⟩ := Option.map_eq_some_iff.1 hobject
    have hcount := ht₁.count z c hc
    have hcount' := ht₂.count (e z) d hd
    rw [Equiv.symm_apply_apply, hholders, ← hcount] at hcount'
    obtain ⟨count, object⟩ := d
    rw [hd]
    exact congrArg some (congrArg₂ Cell.mk hcount' hdo)

end Besides

/-! ## Counts that stay tallied -/

theorem contains_of_retain {h h' : Heap} {x : Handle} (hr : retain (.object x) h = .ok () h') :
    h'.contains x = true := by
  have hx : h.contains x = true := by
    simp only [retain] at hr
    split at hr
    · next hx => exact hx
    · cases hr
  obtain ⟨o, ho⟩ := exists_object?_of_contains hx
  exact contains_of_object? ((object?_retain hr x).trans ho)

theorem contains_changeObject (h : Heap) (x y : Handle) (g : Object → Object) :
    (h.changeObject x g).contains y = h.contains y :=
  contains_modifyCell h x y _

namespace Tallied

variable {h h' : Heap} {ext ext' : Handle → Nat}

/-- The count of one object moves along with its holders from outside. -/
theorem recount (ht : h.Tallied ext) {x : Handle} {c : Cell} {f : Cell → Cell}
    (hx : h.find? x = some c) (hslots : h'.slots = (h.modifyCell x f).slots)
    (hobj : (f c).object = c.object) (hn : (f c).count + ext x = c.count + ext' x)
    (hne : ∀ y, y ≠ x → ext' y = ext y) : h'.Tallied ext' := by
  have hfind : ∀ y, h'.find? y = if y = x then some (f c) else h.find? y := by
    intro y
    rw [← find?_modifyCell_of_find? hx, find?, hslots]
    rfl
  have hobject : ∀ y, h'.object? y = h.object? y := by
    intro y
    rw [object?, object?, hfind]
    split
    · next hyx => rw [hyx, hx, Option.map_some, Option.map_some, hobj]
    · rfl
  constructor
  · rintro z y ⟨o, ho, hy⟩
    rw [hobject] at ho
    obtain ⟨p, hp⟩ := exists_object?_of_contains (ht.live z y ⟨o, ho, hy⟩)
    exact contains_of_object? ((hobject y).trans hp)
  · intro y d hy
    have hholders := holders_recount hslots hx y
    rw [hobj] at hholders
    rw [hfind] at hy
    split at hy
    · next hyx =>
      cases hy
      have hcount := ht.count x c hx
      rw [hyx] at hholders ⊢
      omega
    · next hyx =>
      have hcount := ht.count y d hy
      have := hne y hyx
      omega

theorem retain (ht : h.Tallied ext) {v : Value} (hr : Heap.retain v h = .ok () h') :
    h'.Tallied fun y => ext y + (Value.handles [v]).count y := by
  cases v with
  | object x =>
    simp only [Heap.retain] at hr
    split at hr
    · next hx =>
      obtain ⟨c, hc⟩ := contains_iff.1 hx
      cases hr
      refine ht.recount (f := fun c => { c with count := c.count + 1 }) hc rfl rfl ?_ ?_
      · simp [Value.handles, Value.handle?]
        omega
      · intro y hy
        simp [Value.handles, Value.handle?, Ne.symm hy]
    · cases hr
  | _ =>
    cases hr
    exact ht

/-- A value that is released was counted for a holder from outside. -/
theorem released {v : Value} (ht : h.Tallied fun y => ext y + (Value.handles [v]).count y)
    (hr : Heap.release v h = .ok () h') : h'.Tallied ext := by
  cases v with
  | object x =>
    simp only [Heap.release] at hr
    split at hr
    · next hx =>
      obtain ⟨c, hc⟩ := contains_iff.1 hx
      have hcount := ht.count x c hc
      simp only [Value.handles, Value.handle?, List.filterMap_cons, List.filterMap_nil,
        List.count_singleton_self] at hcount
      cases hr
      refine ht.recount (f := fun c => { c with count := c.count - 1 }) hc rfl rfl ?_ ?_
      · simp [Value.handles, Value.handle?]
        omega
      · intro y hy
        simp [Value.handles, Value.handle?, Ne.symm hy]
    · cases hr
  | _ =>
    cases hr
    exact ht

/-- An object that is exchanged for another hands what it held to holders from outside, and takes
what it holds from them. -/
theorem changeObject (ht : h.Tallied ext) {x : Handle} {o : Object} (hx : h.object? x = some o)
    (g : Object → Object) (hlive : ∀ y ∈ (g o).children, h.contains y = true)
    (hn : ∀ y, ext' y + (g o).children.count y = ext y + o.children.count y) :
    (h.changeObject x g).Tallied ext' := by
  obtain ⟨n, hn'⟩ := object?_eq_some_iff.1 hx
  constructor
  · rintro z y ⟨p, hp, hy⟩
    rw [object?_changeObject hx] at hp
    rw [contains_changeObject]
    split at hp
    · cases hp
      exact hlive y hy
    · exact ht.live z y ⟨p, hp, hy⟩
  · intro y d hy
    have hholders : (h.changeObject x g).holders y + o.children.count y =
        h.holders y + (g o).children.count y := holders_recount rfl hn' y
    have hsame : ∃ d₀, h.find? y = some d₀ ∧ d.count = d₀.count := by
      rw [Heap.changeObject, find?_modifyCell_of_find? hn'] at hy
      split at hy
      · next hyx =>
        cases hy
        exact ⟨⟨n, o⟩, hyx ▸ hn', rfl⟩
      · exact ⟨d, hy, rfl⟩
    obtain ⟨d₀, hd₀, hcount⟩ := hsame
    have := ht.count y d₀ hd₀
    have := hn y
    omega

/-- A new object that holds nothing. -/
theorem allocate (ht : h.Tallied ext) (hw : h.WellFormed) (hs : h.slots.size < 2 ^ 32) {o : Object}
    (ho : o.children = []) (hext : ext (h.allocate o).1 = 0) : (h.allocate o).2.Tallied ext := by
  have hfind := find?_allocate_eq hw hs o
  have hsize := h.size_allocate_le o
  have hholders : ∀ y, (h.allocate o).2.holders y = h.holders y := by
    intro y
    rw [holders_eq_count_inner (by omega), holders_eq_count_inner (by omega),
      count_inner_allocate hw hs, ho, List.count_nil, Nat.add_zero]
  have hnew : h.holders (h.allocate o).1 = 0 := by
    by_contra hpos
    obtain ⟨z, hz⟩ := exists_holds (Nat.pos_of_ne_zero hpos)
    obtain ⟨c, hc⟩ := contains_iff.1 (ht.live z _ hz)
    rw [find?_new hw hs] at hc
    cases hc
  constructor
  · rintro z y ⟨p, hp, hy⟩
    rw [object?, hfind] at hp
    split at hp
    · cases hp
      rw [ho] at hy
      cases hy
    · rw [contains, hfind]
      split
      · rfl
      · exact ht.live z y ⟨p, hp, hy⟩
  · intro y c hy
    rw [hfind] at hy
    rw [hholders]
    split at hy
    · next hyx =>
      cases hy
      rw [hyx, hext, hnew]
    · exact ht.count y c hy

end Tallied

/-! ## Changing both -/

section same

variable {x : Handle} {o : Object} {h h' : Heap}

/-- One object more, the others being called as before. -/
theorem besides_refl (object : h'.find? x = some ⟨0, o⟩) (absent : h.find? x = none)
    (others : ∀ z, z ≠ x → h'.find? z =
      (h.find? z).map fun c => { c with count := c.count + o.children.count z })
    (children : ∀ y ∈ o.children, h.contains y = true) :
    Besides (Equiv.refl Handle) x o h h' := by
  refine ⟨object, absent, fun z hz => (others z hz).trans ?_, children⟩
  have hrename : ∀ p : Object, p.rename (Equiv.refl Handle) = p := fun p =>
    Object.rename_of_fixed fun _ _ => rfl
  simp only [hrename, Equiv.refl_apply]

namespace Besides

variable (hb : Besides (Equiv.refl Handle) x o h h')
include hb

theorem find?_refl {z : Handle} (hz : z ≠ x) : h'.find? z =
    (h.find? z).map fun c => { c with count := c.count + o.children.count z } := by
  have hrename : ∀ p : Object, p.rename (Equiv.refl Handle) = p := fun p =>
    Object.rename_of_fixed fun _ _ => rfl
  refine (hb.others z hz).trans ?_
  simp only [hrename, Equiv.refl_apply]

theorem object?_refl {z : Handle} (hz : z ≠ x) : h'.object? z = h.object? z := by
  rw [object?, object?, hb.find?_refl hz, Option.map_map]
  rfl

/-- The same object is changed in the same way. -/
theorem modify {y : Handle} {c : Cell} {f : Cell → Cell} {k k' : Heap} (hy : h.find? y = some c)
    (hf : f { c with count := c.count + o.children.count y } =
      { f c with count := (f c).count + o.children.count y })
    (hk : k.slots = (h.modifyCell y f).slots) (hk' : k'.slots = (h'.modifyCell y f).slots) :
    Besides (Equiv.refl Handle) x o k k' := by
  have hyx : y ≠ x := hb.ne_of_contains (contains_iff.2 ⟨c, hy⟩)
  have hy' : h'.find? y = some { c with count := c.count + o.children.count y } := by
    rw [hb.find?_refl hyx, hy]
    rfl
  have hfind : ∀ z, k.find? z = if z = y then some (f c) else h.find? z := by
    intro z
    rw [← find?_modifyCell_of_find? hy, find?, hk]
    rfl
  have hfind' : ∀ z, k'.find? z =
      if z = y then some { f c with count := (f c).count + o.children.count y } else h'.find? z := by
    intro z
    rw [← hf, ← find?_modifyCell_of_find? hy', find?, hk']
    rfl
  refine besides_refl ?_ ?_ ?_ ?_
  · rw [hfind', if_neg (Ne.symm hyx), hb.object]
  · rw [hfind, if_neg (Ne.symm hyx)]
    exact hb.absent
  · intro z hz
    rw [hfind, hfind']
    split
    · next hzy => rw [hzy]; rfl
    · exact hb.find?_refl hz
  · intro z hz
    have hlive : h.contains z = true := hb.children z hz
    rw [contains, hfind]
    split
    · rfl
    · exact hlive

/-- Counting a value goes through on both or on none. -/
theorem retain {v : Value} (hv : v ≠ .object x) :
    (∃ f k k', Heap.retain v h = .error f k ∧ Heap.retain v h' = .error f k') ∨
    ∃ k k', Heap.retain v h = .ok () k ∧ Heap.retain v h' = .ok () k' ∧
      Besides (Equiv.refl Handle) x o k k' := by
  cases v with
  | object y =>
    have hyx : y ≠ x := fun hyx => hv (congrArg Value.object hyx)
    have hcontains : h'.contains y = h.contains y := hb.contains_eq (z := y) hyx
    simp only [Heap.retain, hcontains]
    by_cases hy : h.contains y = true
    · obtain ⟨c, hc⟩ := contains_iff.1 hy
      simp only [hy, if_true]
      refine .inr ⟨_, _, rfl, rfl, hb.modify (f := fun c => { c with count := c.count + 1 }) hc ?_ rfl rfl⟩
      simp only [Cell.mk.injEq, and_true]
      omega
    · simp only [hy]
      exact .inl ⟨.staleHandle, h, h', rfl, rfl⟩
  | _ => exact .inr ⟨h, h', rfl, rfl, hb⟩

/-- So does releasing a value that is counted for something. -/
theorem release {v : Value} (hv : ∀ y, v = .object y → ∃ c, h.find? y = some c ∧ 0 < c.count) :
    ∃ k k', Heap.release v h = .ok () k ∧ Heap.release v h' = .ok () k' ∧
      Besides (Equiv.refl Handle) x o k k' := by
  cases v with
  | object y =>
    obtain ⟨c, hc, hpos⟩ := hv y rfl
    have hy : h.contains y = true := contains_iff.2 ⟨c, hc⟩
    have hcontains : h'.contains y = true := (hb.contains_eq (hb.ne_of_contains hy)).trans hy
    simp only [Heap.release, hy, hcontains, if_true]
    refine ⟨_, _, rfl, rfl, hb.modify (f := fun c => { c with count := c.count - 1 }) hc ?_ rfl rfl⟩
    simp only [Cell.mk.injEq, and_true]
    omega
  | _ => exact ⟨h, h', rfl, rfl, hb⟩

theorem changeObject {y : Handle} {p : Object} (hy : h.object? y = some p) (g : Object → Object) :
    Besides (Equiv.refl Handle) x o (h.changeObject y g) (h'.changeObject y g) := by
  obtain ⟨n, hn⟩ := object?_eq_some_iff.1 hy
  exact hb.modify hn rfl rfl rfl

/-- The next handle of the second heap is not in use in the first one either. -/
theorem find?_next (hw' : h'.WellFormed) (hs' : h'.slots.size < 2 ^ 32) (p : Object) :
    (h'.allocate p).1 ≠ x ∧ h.find? (h'.allocate p).1 = none := by
  have hnew := find?_new hw' hs' p
  have hne : (h'.allocate p).1 ≠ x := by
    intro hx
    rw [hx, hb.object] at hnew
    cases hnew
  rw [hb.find?_refl hne, Option.map_eq_none_iff] at hnew
  exact ⟨hne, hnew⟩

/-- New objects that are put on both exchange their names, and nothing else does. -/
theorem swap_of_contains (hw : h.WellFormed) (hw' : h'.WellFormed) (hs : h.slots.size < 2 ^ 32)
    (hs' : h'.slots.size < 2 ^ 32) (p : Object) {y : Handle} (hy : h.contains y = true) :
    y ≠ (h.allocate p).1 ∧ y ≠ (h'.allocate p).1 ∧
      Equiv.swap (h.allocate p).1 (h'.allocate p).1 y = y := by
  obtain ⟨c, hc⟩ := contains_iff.1 hy
  have hleft : y ≠ (h.allocate p).1 := by
    rintro rfl
    rw [find?_new hw hs] at hc
    cases hc
  have hright : y ≠ (h'.allocate p).1 := by
    rintro rfl
    rw [(hb.find?_next hw' hs' p).2] at hc
    cases hc
  exact ⟨hleft, hright, Equiv.swap_apply_of_ne_of_ne hleft hright⟩

theorem allocate {ext : Handle → Nat} (ht : h.Tallied ext) (hw : h.WellFormed) (hw' : h'.WellFormed)
    (hs : h.slots.size < 2 ^ 32) (hs' : h'.slots.size < 2 ^ 32) {p : Object} (hp : p.children = []) :
    Besides (Equiv.swap (h.allocate p).1 (h'.allocate p).1) x o (h.allocate p).2 (h'.allocate p).2 := by
  have hfind := find?_allocate_eq hw hs p
  have hfind' := find?_allocate_eq hw' hs' p
  have ha := find?_new hw hs p
  have hfixed := fun y => hb.swap_of_contains hw hw' hs hs' p (y := y)
  obtain ⟨hbx, hnone⟩ := hb.find?_next hw' hs' p
  rw [ne_comm] at hbx
  generalize (h.allocate p).1 = a at hfind ha hfixed ⊢
  generalize (h'.allocate p).1 = b at hfind' hbx hnone hfixed ⊢
  constructor
  · rw [hfind', if_neg hbx, hb.object]
  · rw [Equiv.symm_swap, hfind]
    by_cases hxa : x = a
    · have hba : b ≠ a := by
        rw [← hxa]
        exact Ne.symm hbx
      rw [hxa, Equiv.swap_apply_left, if_neg hba, hnone]
    · rw [Equiv.swap_apply_of_ne_of_ne hxa hbx, if_neg hxa]
      exact hb.absent
  · intro z hz
    rw [hfind, hfind']
    by_cases hza : z = a
    · -- the new objects, which nothing counts on
      have hcount : o.children.count b = 0 := by
        refine List.count_eq_zero.2 fun hmem => ?_
        exact (hfixed b (hb.children b hmem)).2.1 rfl
      have hrename : p.rename (Equiv.swap a b) = p := by
        apply Object.rename_of_fixed
        rw [hp]
        intro y hy
        cases hy
      rw [hza, Equiv.swap_apply_left, if_pos rfl, if_pos rfl]
      simp only [Option.map_some, hcount, hrename]
    by_cases hzb : z = b
    · -- the name of the second new object in the first heap, and the other way round
      rw [hzb, Equiv.swap_apply_right] at hz ⊢
      have hba : b ≠ a := hzb ▸ hza
      rw [if_neg hba, if_neg (Ne.symm hba), hnone, hb.find?_refl hz, ha]
      rfl
    · have he : Equiv.swap a b z = z := Equiv.swap_apply_of_ne_of_ne hza hzb
      rw [he] at hz ⊢
      rw [if_neg hza, if_neg hzb, hb.find?_refl hz]
      cases hc : h.find? z with
      | none => rfl
      | some c =>
        have hrename : c.object.rename (Equiv.swap a b) = c.object := by
          refine Object.rename_of_fixed fun y hy => ?_
          have hholds : h.Holds z y := ⟨c.object, by rw [object?, hc]; rfl, hy⟩
          exact (hfixed y (ht.live z y hholds)).2.2
        simp only [Option.map_some, hrename]
  · intro y hy
    have hlive : h.contains y = true := hb.children y hy
    obtain ⟨hya, -, he⟩ := hfixed y hlive
    rw [Equiv.symm_swap, he, contains, hfind, if_neg hya]
    exact hlive

end Besides

/-- A new object that holds one other, which is counted for it, is one object more. -/
theorem exists_besides {y : Handle} (hw : h.WellFormed) (hs : h.slots.size < 2 ^ 32)
    (hy : h.contains y = true) (ho : o.children = [y]) :
    ∃ k, retain (.object y) h = .ok () k ∧ k.slots.size = h.slots.size ∧ k.WellFormed ∧
      Besides (Equiv.refl Handle) (k.allocate o).1 o h (k.allocate o).2 := by
  obtain ⟨c, hc⟩ := contains_iff.1 hy
  let k : Heap := { h.modifyCell y fun c => { c with count := c.count + 1 } with
    stats := { h.stats with retains := h.stats.retains + 1 } }
  have hretain : retain (.object y) h = .ok () k := by
    simp only [retain, hy, if_true]
    rfl
  have hsize : k.slots.size = h.slots.size := size_modifyCell h y _
  have hwk : k.WellFormed := (hw.modifyCell y _).congr rfl rfl
  have hsk : k.slots.size < 2 ^ 32 := by rwa [hsize]
  have hfind : ∀ z, k.find? z = if z = y then some { c with count := c.count + 1 } else h.find? z :=
    fun z => find?_modifyCell_of_find? hc
  have hnew := find?_new hwk hsk o
  refine ⟨k, hretain, hsize, hwk, besides_refl ?_ ?_ (fun z hz => ?_) fun z hz => ?_⟩
  · rw [find?_allocate_eq hwk hsk, if_pos rfl]
  · rw [hfind] at hnew
    split at hnew
    · cases hnew
    · exact hnew
  · rw [find?_allocate_eq hwk hsk, if_neg hz, hfind, ho, List.count_singleton]
    split
    · next hzy => rw [hzy, hc, Option.map_some, beq_self_eq_true, if_pos rfl]
    · next hzy =>
      rw [if_neg (by simpa using Ne.symm hzy)]
      exact Option.map_id'.symm
  · rw [ho, List.mem_singleton] at hz
    rw [hz, hy]

end same

end Heap

end Scriptlet
