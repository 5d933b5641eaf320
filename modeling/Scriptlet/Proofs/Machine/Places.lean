import Scriptlet.Proofs.Machine.Ownership

/-!
# Places keep counts exact

Triples (`Exec.Triple`) for the actions that read and write variables, elements and fields, and for
those that make objects. Each is put together from the primitive actions in the order in which the
action takes them; where a store comes before its retain, the two are one step of the proof.
-/

namespace Scriptlet

open Machine (Counted)

variable {extra temps : List Handle} {m : Machine}

/-! ## What a place holds is live -/

namespace Machine.Counted

theorem contains_element (hc : m.Counted extra temps) {x : Handle} {o : Object} {vs : Array Value}
    {i : Nat} {v : Value} (ho : m.heap.object? x = some o) (hvs : o.elements? = some vs)
    (hv : vs[i]? = some v) : ∀ y ∈ Value.handles [v], m.heap.contains y = true := by
  intro y hy
  rw [Value.mem_handles, List.mem_singleton] at hy
  refine hc.exact.contains_child ho ?_
  rw [Object.children_of_elements? hvs, Value.mem_handles, hy]
  rw [← Array.getElem?_toList] at hv
  exact List.mem_of_getElem? hv

theorem exists_object? (hc : m.Counted extra temps) {v : Value} {x : Handle}
    (hv : ∀ y ∈ Value.handles [v], y ∈ temps) (hx : v.handle? = some x) :
    ∃ o, m.heap.object? x = some o := by
  refine Heap.exists_object?_of_contains (hc.contains_temp (hv x ?_))
  simp [Value.handles, hx]

end Machine.Counted

theorem Machine.elementAt_live (hc : m.Counted extra temps) (target index : Value)
    (ht : ∀ y ∈ Value.handles [target], y ∈ temps) :
    match m.elementAt target index with
    | .ok v => ∀ y ∈ Value.handles [v], m.heap.contains y = true
    | .error f => f ≠ .staleHandle := by
  unfold elementAt
  cases hx : target.handle? with
  | none => simp [indexMismatch]
  | some x =>
    obtain ⟨o, ho⟩ := hc.exists_object? ht hx
    simp only [ho]
    cases index.index? with
    | none => simp [indexMismatch]
    | some i =>
      cases o with
      | array items =>
        simp only [elementCount?, element?]
        by_cases hi : i < 0
        · simp [hi]
        · rw [if_neg hi]
          cases hv : items[i.toNat]? with
          | none => simp
          | some v => exact hc.contains_element ho rfl hv
      | string text =>
        simp only [elementCount?, element?]
        by_cases hi : i < 0
        · simp [hi]
        · rw [if_neg hi]
          cases text.toUTF8[i.toNat]? <;> simp [Value.handles, Value.handle?]
      | _ => simp [elementCount?, indexMismatch]

theorem Machine.elementPlace_live (hc : m.Counted extra temps) (target index : Value)
    (ht : ∀ y ∈ Value.handles [target], y ∈ temps) :
    match m.elementPlace target index with
    | .ok p => m.heap.contains p.1 = true
    | .error f => f ≠ .staleHandle := by
  unfold elementPlace
  cases hx : target.handle? with
  | none => simp [indexMismatch]
  | some x =>
    cases index.index? with
    | none => simp [indexMismatch]
    | some i =>
      obtain ⟨o, ho⟩ := hc.exists_object? ht hx
      simp only [ho]
      cases o with
      | array items =>
        by_cases hi : i < 0 ∨ (items.size : Int) ≤ i
        · simp [hi]
        · simp only [if_neg hi]
          exact Heap.contains_of_object? ho
      | _ => simp [indexMismatch]

theorem Machine.fieldPlace_live (hc : m.Counted extra temps) (target : Value)
    (ht : ∀ y ∈ Value.handles [target], y ∈ temps) (name : Symbol) :
    match m.fieldPlace target name with
    | .ok p => m.heap.contains p.1 = true
    | .error f => f ≠ .staleHandle := by
  unfold fieldPlace
  cases hx : target.handle? with
  | none => simp
  | some x =>
    obtain ⟨o, ho⟩ := hc.exists_object? ht hx
    simp only [ho]
    cases o with
    | record type fields =>
      dsimp only
      cases (m.bytecode.struct? type).bind fun s => s.fieldIndex? name with
      | some i => exact Heap.contains_of_object? ho
      | none => simp
    | _ => simp

theorem Machine.fieldValue_live (hc : m.Counted extra temps) (target : Value)
    (ht : ∀ y ∈ Value.handles [target], y ∈ temps) (name : Symbol) :
    match m.fieldValue target name with
    | .ok v => ∀ y ∈ Value.handles [v], m.heap.contains y = true
    | .error f => f ≠ .staleHandle := by
  have hp := fieldPlace_live hc target ht name
  unfold fieldValue
  cases hpl : m.fieldPlace target name with
  | error f => rw [hpl] at hp; exact hp
  | ok p =>
    dsimp only
    cases ho : m.heap.object? p.1 with
    | none => simp
    | some o =>
      rw [Option.bind_some]
      cases hvs : o.elements? with
      | none => simp
      | some vs =>
        dsimp only
        cases hv : vs[p.2]? with
        | none => simp
        | some v => exact hc.contains_element ho hvs hv

theorem handle?_default (a : Annotation) : a.default.handle? = none := by
  cases a <;> rfl

namespace Exec

/-! ## Locals -/

theorem triple_getLocal (slot : UInt8) :
    Triple (Counted [] temps) (getLocal slot) fun _ => Counted [] temps := by
  refine .get_bind fun m => ?_
  cases hv : m.frame.locals[slot.toNat]? with
  | none => exact .fault (by simp) fun m' h => h.1 ▸ h.2.drop_temps
  | some v =>
    refine (triple_push v).weaken fun m' h => ?_
    rw [h.1]
    exact h.2.add_temps fun x hx => h.2.contains_owner (Machine.mem_owners_of_local hv hx)

/-- The frame after a store to a local slot. -/
def storeLocal (slot : Nat) (v : Value) (f : Frame) : Frame :=
  { f with locals :=
      if slot < f.locals.size then f.locals.setIfInBounds slot v
      else (f.locals ++ Array.replicate (slot - f.locals.size) Value.null).push v }

theorem storeLocal_of_some {f : Frame} {slot : Nat} {old : Value} (h : f.locals[slot]? = some old)
    (v : Value) : storeLocal slot v f = { f with locals := f.locals.setIfInBounds slot v } := by
  rw [storeLocal, if_pos (Array.getElem?_eq_some_iff.1 h).1]

theorem storeLocal_of_none {f : Frame} {slot : Nat} (h : f.locals[slot]? = none) (v : Value) :
    storeLocal slot v f = { f with
      locals := (f.locals ++ Array.replicate (slot - f.locals.size) Value.null).push v } := by
  rw [storeLocal, if_neg (Nat.not_lt.2 (Array.getElem?_eq_none_iff.1 h))]

/-- A store to a slot makes the slots below it that do not exist yet, with null. -/
theorem getElem?_storeLocal (slot : Nat) (v : Value) (f : Frame) (j : Nat) :
    (storeLocal slot v f).locals[j]? =
      if j = slot then some v
      else if f.locals.size ≤ j ∧ j < slot then some .null
      else f.locals[j]? := by
  unfold storeLocal
  split
  · next hlt =>
    rw [Array.getElem?_setIfInBounds]
    by_cases hj : slot = j
    · rw [if_pos hj, if_pos hj.symm, if_pos hlt]
    · rw [if_neg hj, if_neg (Ne.symm hj), if_neg (by omega)]
  · next hge =>
    have hsize : (f.locals ++ Array.replicate (slot - f.locals.size) Value.null).size = slot := by
      rw [Array.size_append, Array.size_replicate]
      omega
    rw [Array.getElem?_push, hsize, Array.getElem?_append, Array.getElem?_replicate]
    split
    · rfl
    · split
      · next hj => rw [if_neg (by omega)]
      · next hj =>
        by_cases hslot : j < slot
        · rw [if_pos (by omega), if_pos (by omega)]
        · rw [if_neg (by omega), if_neg (by omega), Array.getElem?_eq_none (by omega)]

/-- A store to a slot that exists moves one count; a store to a new one only counts the value. -/
theorem setLocal_eq (slot : UInt8) (v : Value) : setLocal slot v = (do
    match (← get).frame.locals[slot.toNat]? with
    | some old =>
      onHeap (Heap.retain v)
      modify fun m => { m with frame := storeLocal slot.toNat v m.frame }
      onHeap (Heap.release old)
    | none =>
      modify fun m => { m with frame := storeLocal slot.toNat v m.frame }
      onHeap (Heap.retain v)) := by
  funext m
  rw [run_get_bind]
  cases hold : m.frame.locals[slot.toNat]? with
  | none => simp only [setLocal, hold, run_bind, run_modify, storeLocal_of_none hold]
  | some old =>
    have hsame : m.frame.locals.setIfInBounds slot.toNat old = m.frame.locals := by
      obtain ⟨h, rfl⟩ := Array.getElem?_eq_some_iff.1 hold
      refine Array.ext (by simp) fun i _ _ => ?_
      rw [Array.getElem_setIfInBounds]
      split
      · next hi => subst hi; rfl
      · rfl
    simp only [setLocal, hold, Heap.replace]
    cases hr : Heap.retain v m.heap with
    | error f h =>
      rw [run_bind_error (show onHeap (Heap.retain v) m = _ by rw [run_onHeap, hr])]
      simp only [hsame]
    | ok u h =>
      rw [run_bind_ok (run_onHeap_ok hr), run_bind_ok (run_modify _ _), run_onHeap]
      simp only [storeLocal_of_some hold]
      cases Heap.release old h <;> rfl

/-- A store takes the new value as an owner, and gives up the old one. -/
theorem owners_storeLocal (m : Machine) (slot : Nat) (v : Value) :
    (Value.handles [v] ++ m.owners).Perm
      (Value.handles m.frame.locals[slot]?.toList ++
        ({ m with frame := storeLocal slot v m.frame } : Machine).owners) := by
  have hp : (Value.handles (m.frame.locals.toList ++ [v])).Perm
      (Value.handles ((storeLocal slot v m.frame).locals.toList ++
        m.frame.locals[slot]?.toList)) := by
    cases hold : m.frame.locals[slot]? with
    | some old =>
      rw [storeLocal_of_some hold, Array.toList_setIfInBounds]
      rw [← Array.getElem?_toList] at hold
      exact Value.handles_perm (Object.perm_set v hold)
    | none =>
      rw [storeLocal_of_none hold]
      simp [Value.handles, List.filterMap_replicate, Value.handle?]
  rw [Value.handles_append, Value.handles_append] at hp
  rw [Machine.owners_eq, Machine.owners_eq, ← List.append_assoc, ← List.append_assoc]
  exact (List.perm_append_comm.trans (hp.trans List.perm_append_comm)).append_right _

theorem pinned_storeLocal (m : Machine) (slot : Nat) (v : Value) :
    ({ m with frame := storeLocal slot v m.frame } : Machine).pinned = m.pinned := by
  unfold storeLocal
  rfl

theorem triple_setLocal (slot : UInt8) (v : Value) :
    Triple (Counted [] (Value.handles [v] ++ temps)) (setLocal slot v) fun _ =>
      Counted [] temps := by
  have hsub : ∀ x ∈ temps, x ∈ Value.handles [v] ++ temps := fun x => List.mem_append_right _
  have hretain : Triple (Counted [] (Value.handles [v] ++ temps)) (onHeap (Heap.retain v))
      fun _ => Counted (Value.handles [v]) temps :=
    (triple_retain fun x => List.mem_append_left _).post fun _ m h => by
      rw [List.append_nil] at h
      exact h.temps_subset hsub
  rw [setLocal_eq]
  refine .get_bind fun m => ?_
  cases hold : m.frame.locals[slot.toNat]? with
  | some old =>
    refine .bind ((hretain.beside (I := fun m' => m'.frame = m.frame) fun _ _ h => h).weaken
      fun m' h => ⟨h.1 ▸ h.2, by rw [h.1]⟩) fun _ => ?_
    refine .bind (.modify (fun m => ⟨rfl, rfl, rfl, Nat.le_refl _⟩) fun m' h => ?_) fun _ =>
      (triple_release old).weaken fun m' h => h
    refine h.1.reown rfl ?_ fun x hx => ?_
    · have := owners_storeLocal m' slot.toNat v
      rw [h.2, hold] at this
      rw [h.2, List.append_nil]
      exact this
    · rw [pinned_storeLocal] at hx
      exact hx
  | none =>
    -- the slot is filled before its value is counted, so both are one step
    refine ⟨.bind (fun m => ⟨rfl, rfl, rfl, Nat.le_refl _⟩) fun _ => .onHeap (Heap.grows_retain v),
      fun m' h _ => ?_⟩
    obtain ⟨rfl, hc⟩ := h
    obtain ⟨h', hr, he, hk, -⟩ := hc.exact.retain fun x hx =>
      hc.contains_temp (List.mem_append_left _ hx)
    have hc' : Counted (Value.handles [v]) _ { m' with heap := h' } := hc.withHeap he hk
    have hown := owners_storeLocal { m' with heap := h' } slot.toNat v
    rw [show ({ m' with heap := h' } : Machine).frame = m'.frame from rfl, hold] at hown
    dsimp only
    rw [run_bind_ok (run_modify _ _), run_onHeap]
    dsimp only
    rw [hr]
    refine hc'.reown rfl hown fun x hx => ?_
    rw [show Machine.pinned _ = _ from pinned_storeLocal { m' with heap := h' } _ _] at hx
    rw [List.append_assoc]
    exact List.mem_append_right _ hx

theorem toList_of_back? {vs : Array Value} {v : Value} (hv : vs.back? = some v) :
    vs.toList = vs.pop.toList ++ [v] := by
  rw [Array.toList_pop]
  rw [← Array.getLast?_toList] at hv
  exact (List.dropLast_append_getLast? v hv).symm

/-- The last local slot is held no more once it is gone. -/
theorem owners_dropLocal {m : Machine} {v : Value} (hv : m.frame.locals.back? = some v) :
    m.owners.Perm (Value.handles [v] ++
      ({ m with frame := { m.frame with locals := m.frame.locals.pop } } : Machine).owners) := by
  rw [Machine.owners_eq, Machine.owners_eq, toList_of_back? hv, Value.handles_append]
  refine List.Perm.trans (List.perm_append_comm.append_right m.outerOwners) ?_
  rw [List.append_assoc]
  exact .refl _

theorem triple_dropLocal :
    Triple (Counted [] temps) dropLocal fun v => Counted (Value.handles [v]) temps := by
  constructor
  · intro m
    unfold final dropLocal
    cases m.frame.locals.back? with
    | none => exact .refl m
    | some v => exact ⟨rfl, rfl, rfl, Nat.le_refl _⟩
  · intro m hc _
    unfold dropLocal
    cases hv : m.frame.locals.back? with
    | none => exact ⟨by simp, hc.drop_temps⟩
    | some v => exact hc.reown rfl (owners_dropLocal hv) fun x hx => hx

theorem triple_shrinkLocals : ∀ n : Nat,
    Triple (Counted [] temps) (shrinkLocals n) fun _ => Counted [] temps
  | 0 => .pure fun _ h => h
  | n + 1 => .bind triple_dropLocal fun v =>
      .bind ((triple_release v).weaken fun m h => by rw [List.append_nil]; exact h) fun _ =>
        triple_shrinkLocals n

/-! ## Globals and constants -/

theorem triple_popString :
    Triple (Counted [] temps) popString fun _ => Counted [] temps := by
  refine .bind triple_pop fun v => .get_bind fun m => ?_
  have hs : ∀ x ∈ temps, x ∈ Value.handles [v] ++ temps := fun x => List.mem_append_right _
  cases m.heap.string? v with
  | some text => exact .pure fun m' h => h.1 ▸ h.2.temps_subset hs
  | none => exact .fault (by simp) fun m' h => h.1 ▸ h.2.drop_temps

theorem triple_getGlobal :
    Triple (Counted [] temps) getGlobal fun _ => Counted [] temps := by
  refine .bind triple_popString fun name => .get_bind fun m => ?_
  cases hv : m.globals.find? name with
  | none => exact .fault (by simp) fun m' h => h.1 ▸ h.2.drop_temps
  | some v =>
    refine (triple_push v).weaken fun m' h => ?_
    rw [h.1]
    exact h.2.add_temps fun x hx => h.2.contains_owner (Machine.mem_owners_of_global hv hx)

/-- Binding a name takes the new value, and gives up the old one. -/
theorem perm_insertEntry (name : String) (v : Value) : ∀ entries : List (String × Value),
    (v :: entries.map Prod.snd).Perm ((entries.lookup name).toList ++
      (Bindings.insertEntry name v entries).map Prod.snd)
  | [] => .refl _
  | (other, old) :: rest => by
    rw [Bindings.insertEntry, List.lookup_cons]
    split
    · next h => simpa [h] using List.Perm.swap old v (rest.map Prod.snd)
    · next h =>
      rw [h]
      refine ((List.Perm.swap old v _).trans ((perm_insertEntry name v rest).cons old)).trans ?_
      exact List.perm_middle.symm

theorem owners_insert (m : Machine) (name : String) (v : Value) :
    (Value.handles [v] ++ m.owners).Perm (Value.handles (m.globals.find? name).toList ++
      ({ m with globals := m.globals.insert name v } : Machine).owners) := by
  have hp := Value.handles_perm (perm_insertEntry name v m.globals.entries)
  rw [Value.handles_cons, Value.handles_append] at hp
  refine List.perm_iff_count.2 fun x => ?_
  have := hp.count_eq x
  simp only [Machine.owners, Machine.frames, List.count_append] at this ⊢
  simp only [Bindings.find?, Bindings.insert]
  omega

theorem triple_setGlobal (name : String) (v : Value) :
    Triple (Counted [] (Value.handles [v] ++ temps)) (setGlobal name v) fun _ =>
      Counted [] temps := by
  refine .bind (triple_retain fun x => List.mem_append_left _) fun _ => .get_bind fun m => ?_
  refine .bind (.modify (R := fun _ => Counted (Value.handles (m.globals.find? name).toList) temps)
    (fun m => ⟨rfl, rfl, rfl, Nat.le_refl _⟩) fun m' h => ?_) fun _ => ?_
  · obtain ⟨rfl, hc⟩ := h
    rw [List.append_nil] at hc
    refine hc.reown rfl (owners_insert m' name v) fun x hx => ?_
    rw [List.append_assoc]
    exact List.mem_append_right _ hx
  · cases m.globals.find? name with
    | some old => exact (triple_release old).weaken fun m h => by rw [List.append_nil]; exact h
    | none => exact .pure fun m h => h

/-- A string that becomes a constant is held once more. -/
theorem owners_constant (m : Machine) (s : Symbol) (x : Handle) :
    (x :: m.owners).Perm ({ m with constants := (s, x) :: m.constants } : Machine).owners := by
  refine List.perm_iff_count.2 fun y => ?_
  simp only [Machine.owners, Machine.frames, List.count_append, List.map_cons, List.count_cons]
  omega

theorem triple_constant (s : Symbol) :
    Triple (Counted [] temps) (constant s) fun x => Counted [] (x :: temps) := by
  refine .get_bind fun m => ?_
  cases hx : m.constants.lookup s with
  | some x =>
    refine .pure fun m' h => ?_
    obtain ⟨rfl, hc⟩ := h
    refine hc.add_temp (hc.contains_owner ?_)
    obtain ⟨l₁, l₂, hl, -⟩ := List.lookup_eq_some_iff.1 hx
    rw [Machine.owners, hl]
    simp
  | none =>
    refine .get_bind fun m₂ => .bind ((triple_allocate _).weaken fun m' h => h.1 ▸ h.2.1 ▸ h.2.2)
      fun x => .bind (triple_retain fun y hy => ?_) fun _ => ?_
    · rw [Value.mem_handles, List.mem_singleton] at hy
      cases hy
      exact List.mem_cons_self
    · refine .bind (.modify (fun m => ⟨rfl, rfl, rfl, Nat.le_refl _⟩) fun m' hc => ?_) fun _ =>
        .pure fun _ h => h
      exact hc.reown rfl (owners_constant m' s x) fun y hy => hy

/-! ## Elements and fields -/

theorem triple_look {α : Type} {f : Machine → Except Fault α} {P : Machine → Prop}
    {Q : α → Machine → Prop}
    (h : ∀ m, P m → match f m with
      | .ok a => Q a m
      | .error e => e ≠ .staleHandle ∧ m.Counted [] []) : Triple P (look f) Q := by
  constructor
  · intro m
    unfold final look
    cases f m <;> exact .refl m
  · intro m hm _
    have := h m hm
    unfold look
    revert this
    cases f m <;> exact id

theorem triple_getElement :
    Triple (Counted [] temps) getElement fun _ => Counted [] temps := by
  refine .bind triple_pop fun index => .bind triple_pop fun target => ?_
  refine .bind (triple_look fun m hc => ?_) fun v => triple_push v
  have := Machine.elementAt_live hc target index fun y => List.mem_append_left _
  revert this
  cases m.elementAt target index with
  | ok v =>
    intro hv
    exact (hc.add_temps hv).temps_subset fun x hx => by
      simp only [List.mem_append] at hx ⊢
      tauto
  | error f => exact fun hf => ⟨hf, hc.drop_temps⟩

theorem triple_heapSetElement (x : Handle) (i : Nat) (v : Value)
    (hv : ∀ y ∈ Value.handles [v], y ∈ temps) :
    Triple (fun m => Counted [] temps m ∧ m.heap.contains x = true)
      (onHeap (Heap.setElement x i v)) fun _ => Counted [] temps := by
  refine ⟨.onHeap (Heap.grows_setElement x i v), fun m hm _ => ?_⟩
  have := hm.1.exact.setElement (i := i) hm.2 fun y hy => hm.1.contains_temp (hv y hy)
  rw [run_onHeap]
  revert this
  cases Heap.setElement x i v m.heap with
  | ok _ h' => exact fun h => hm.1.withHeap h.1 h.2.1
  | error f h' =>
    rintro ⟨hf, rfl⟩
    exact ⟨hf, hm.1.drop_temps⟩

/-- A store to the place that a look at the machine gives. -/
theorem triple_storeAt {place : Machine → Except Fault (Handle × Nat)} {v : Value}
    (hv : ∀ y ∈ Value.handles [v], y ∈ temps)
    (hp : ∀ m, Counted [] temps m → match place m with
      | .ok p => m.heap.contains p.1 = true
      | .error f => f ≠ .staleHandle) :
    Triple (Counted [] temps)
      (do let (x, i) ← look place; onHeap (Heap.setElement x i v)) fun _ => Counted [] [] := by
  refine .bind (triple_look fun m hc => ?_) fun p =>
    (triple_heapSetElement p.1 p.2 v hv).post fun _ _ h => h.drop_temps
  have := hp m hc
  revert this
  cases place m with
  | ok p => exact fun hp => ⟨hc, hp⟩
  | error f => exact fun hf => ⟨hf, hc.drop_temps⟩

theorem triple_setElement :
    Triple (Counted [] []) setElement fun _ => Counted [] [] :=
  .bind triple_pop fun index => .bind triple_pop fun target => .bind triple_pop fun _ =>
    triple_storeAt (fun _ => List.mem_append_left _) fun _ hc =>
      Machine.elementPlace_live hc target index fun _ hy =>
        List.mem_append_right _ (List.mem_append_left _ hy)

theorem triple_setField (name : Symbol) :
    Triple (Counted [] []) (setField name) fun _ => Counted [] [] :=
  .bind triple_pop fun target => .bind triple_pop fun _ =>
    triple_storeAt (fun _ => List.mem_append_left _) fun _ hc =>
      Machine.fieldPlace_live hc target
        (fun _ hy => List.mem_append_right _ (List.mem_append_left _ hy)) name

/-- A reference to a method counts on its receiver. -/
theorem children_method (f : Native) (receiver : Value) :
    (Object.function (.native f) receiver.handle?).children = Value.handles [receiver] := by
  rw [Object.children, Value.handles, List.filterMap_cons]
  cases receiver.handle? <;> rfl

theorem triple_fieldValue (target : Value) (name : Symbol)
    (ht : ∀ y ∈ Value.handles [target], y ∈ temps) :
    Triple (Counted [] temps) (fieldValue target name) fun v =>
      Counted [] (Value.handles [v] ++ temps) := by
  refine .get_bind fun m => ?_
  cases m.nativeMethod? target (m.bytecode.text name) with
  | some method =>
    refine .bind ((triple_retain ht).weaken fun m' h => h.1 ▸ h.2) fun _ => ?_
    refine .bind ((triple_allocate _).weaken fun m' h => ?_) fun x => .pure fun m' h => h
    -- the receiver was counted for the new function reference
    rw [children_method]
    exact h
  | none =>
    refine triple_look fun m' h => ?_
    obtain ⟨rfl, hc⟩ := h
    have := Machine.fieldValue_live hc target ht name
    revert this
    cases m'.fieldValue target name with
    | ok v => exact fun hv => hc.add_temps hv
    | error f => exact fun hf => ⟨hf, hc.drop_temps⟩

theorem triple_getField (name : Symbol) :
    Triple (Counted [] []) (getField name) fun _ => Counted [] [] :=
  .bind triple_pop fun target =>
    .bind (triple_fieldValue target name fun _ => List.mem_append_left _) fun v =>
      (triple_push v).post fun _ _ h => h.drop_temps

/-! ## New objects -/

theorem triple_createArray (count : Nat) :
    Triple (Counted [] []) (createArray count) fun _ => Counted [] [] := by
  refine .bind (triple_popN count) fun items =>
    .bind (triple_retainAll fun x => List.mem_append_left _) fun _ => ?_
  exact (triple_pushNew (.array items.toArray)).post fun _ _ h => h.drop_temps

/-- Default values hold nothing, so an instance counts on its arguments. -/
theorem children_instance (type : UInt32) (given : List Value) (fields : List (Symbol × Annotation))
    (args : Nat) :
    (Object.record type (given ++ (fields.map fun f => f.2.default).drop args).toArray).children =
      Value.handles given := by
  have hd : Value.handles ((fields.map fun f => f.2.default).drop args) = [] := by
    refine List.filterMap_eq_nil_iff.2 fun v hv => ?_
    obtain ⟨f, -, rfl⟩ := List.mem_map.1 (List.mem_of_mem_drop hv)
    exact handle?_default f.2
  show Value.handles _ = _
  rw [Value.handles_append, hd, List.append_nil]

theorem triple_construct (type : UInt32) (args : Nat) :
    Triple (Counted [] []) (construct type args) fun _ => Counted [] [] := by
  refine .get_bind fun m => ?_
  cases m.bytecode.struct? type with
  | none => exact .fault (by simp) fun m' h => h.1 ▸ h.2
  | some entry =>
    dsimp only
    split
    · exact .fault (by simp) fun m' h => h.1 ▸ h.2
    · refine .bind ((triple_popN args).weaken fun m' h => h.1 ▸ h.2) fun given =>
        .bind (triple_retainAll fun x => List.mem_append_left _) fun _ => ?_
      refine (triple_pushNew (.record type (given ++ _).toArray)).weaken fun m' h => ?_
      rw [children_instance]
      exact h.drop_temps

end Exec

end Scriptlet
