import Mathlib.Data.Set.Function
import Scriptlet.Proofs.Heap.Renaming
import Scriptlet.Proofs.Ideal.LockStep

/-!
# Collection cannot be observed

Two machines that run one program and collect garbage at different times use their heaps
differently: a slot that one of them has freed and filled again is still in use in the other. What
they hold is the same but for the handles. `Machine.Mirrors` says so with a renaming of handles that
is a bijection between what the two can reach, and `Machine.collection_unobservable` is that it
holds after any number of steps: both machines stand for one ideal state, and a handle is renamed to
the handle that stands for the same reference.
-/

namespace Scriptlet

/-! ## Renaming -/

section rename

variable (e : Handle → Handle)

def Frame.rename (f : Frame) : Frame :=
  { operands := f.operands.map (Value.rename e), locals := f.locals.map (Value.rename e) }

def Caller.rename (c : Caller) : Caller := { c with frame := c.frame.rename e }

/-- Renames the handles of values that are bound to names. -/
def Bindings.rename (b : Bindings Value) : Bindings Value :=
  ⟨b.entries.map fun f => (f.1, f.2.rename e)⟩

end rename

/-! ## What a machine reaches -/

namespace Machine

/-- The handles on operand stacks, in local slots and in globals. -/
def roots (m : Machine) : List Handle :=
  m.pinned ++ (m.frames.flatMap (fun f => Value.handles f.locals.toList) ++
    Value.handles (m.globals.entries.map Prod.snd))

/-- The roots of a machine lead to a handle. -/
inductive Reaches (m : Machine) : Handle → Prop
  | root {x : Handle} (h : x ∈ m.roots) : m.Reaches x
  | child {x y : Handle} {o : Object} (h : m.Reaches x) (ho : m.heap.object? x = some o)
    (hy : y ∈ o.children) : m.Reaches y

/-- The second machine is the first one but for a renaming of handles, the free part of the heap and
what it has counted. -/
structure Mirrors (e : Handle → Handle) (m m' : Machine) : Prop where
  bijective : Set.BijOn e {x | m.Reaches x} {y | m'.Reaches y}
  frame : m'.frame = m.frame.rename e
  callers : m'.callers = m.callers.map (Caller.rename e)
  globals : m'.globals = m.globals.rename e
  objects : ∀ x, m.Reaches x →
    ∃ o, m.heap.object? x = some o ∧ m'.heap.object? (e x) = some (o.rename e)

theorem roots_eq_map {e : Handle → Handle} {m m' : Machine} (hframe : m'.frame = m.frame.rename e)
    (hcallers : m'.callers = m.callers.map (Caller.rename e))
    (hglobals : m'.globals = m.globals.rename e) : m'.roots = m.roots.map e := by
  have hframes : m'.frames = m.frames.map (Frame.rename e) := by
    simp only [frames, hframe, hcallers, List.map_cons, List.map_map]
    rfl
  have hpinned : m'.pinned = m.pinned.map e := by
    change m'.frames.flatMap (fun f => Value.handles f.operands) =
      (m.frames.flatMap fun f => Value.handles f.operands).map e
    rw [hframes, List.flatMap_map, List.map_flatMap]
    simp only [Frame.rename, Value.handles_map_rename]
  have hlocals : m'.frames.flatMap (fun f => Value.handles f.locals.toList) =
      (m.frames.flatMap fun f => Value.handles f.locals.toList).map e := by
    rw [hframes, List.flatMap_map, List.map_flatMap]
    simp only [Frame.rename, Array.toList_map, Value.handles_map_rename]
  have hvalues : m'.globals.entries.map Prod.snd =
      (m.globals.entries.map Prod.snd).map (Value.rename e) := by
    rw [hglobals]
    simp only [Bindings.rename, List.map_map]
    rfl
  rw [roots, roots, List.map_append, List.map_append, hpinned, hlocals, hvalues,
    Value.handles_map_rename]

section reaches

variable {e : Handle → Handle} {m m' : Machine} (hroots : m'.roots = m.roots.map e)
  (hobjects : ∀ x, m.Reaches x →
    ∃ o, m.heap.object? x = some o ∧ m'.heap.object? (e x) = some (o.rename e))
include hroots hobjects

theorem Reaches.rename {x : Handle} (h : m.Reaches x) : m'.Reaches (e x) := by
  induction h with
  | root h =>
    refine .root ?_
    rw [hroots]
    exact List.mem_map_of_mem h
  | @child x y o hreach ho hy ih =>
    obtain ⟨o₁, ho₁, ho'⟩ := hobjects x hreach
    cases ho.symm.trans ho₁
    refine .child ih ho' ?_
    rw [Object.children_rename]
    exact List.mem_map_of_mem hy

theorem exists_of_reaches {y : Handle} (h : m'.Reaches y) : ∃ x, m.Reaches x ∧ e x = y := by
  induction h with
  | root h =>
    rw [hroots] at h
    obtain ⟨x, hx, rfl⟩ := List.mem_map.1 h
    exact ⟨x, .root hx, rfl⟩
  | child _ ho hz ih =>
    obtain ⟨x, hreach, rfl⟩ := ih
    obtain ⟨o₁, ho₁, ho'⟩ := hobjects x hreach
    cases ho.symm.trans ho'
    rw [Object.children_rename] at hz
    obtain ⟨c, hc, rfl⟩ := List.mem_map.1 hz
    exact ⟨c, .child hreach ho₁ hc, rfl⟩

end reaches

end Machine

/-! ## Two machines that stand for one state -/

namespace Ideal

/-- A handle stands for a reference that has a handle in the other names too. -/
def Names.Shared (ρ ρ' : Names) (x : Handle) : Prop := ∃ r y, ρ r x ∧ ρ' r y

open Classical in
/-- The handle of the other names for the same reference. -/
noncomputable def Names.toward (ρ ρ' : Names) (x : Handle) : Handle :=
  if h : ∃ y r, ρ r x ∧ ρ' r y then h.choose else x

section shared

variable {ρ ρ' : Names} {e : Handle → Handle} (he : ∀ r x y, ρ r x → ρ' r y → e x = y)
include he

theorem ValRel.rename {v v' : Value} {w : Val} (h : ValRel ρ v w) (h' : ValRel ρ' v' w) :
    v' = v.rename e ∧ ∀ x ∈ Value.handles [v], ρ.Shared ρ' x := by
  cases h with
  | plain hv _ =>
    cases h' with
    | plain _ _ => cases v <;> simp_all [Value.rename, Value.handles, Value.handle?]
  | @ref x r hr =>
    cases h' with
    | @ref y _ hr' =>
      refine ⟨by rw [Value.rename, he r x y hr hr'], fun z hz => ?_⟩
      rw [Value.mem_handles, List.mem_singleton] at hz
      cases hz
      exact ⟨r, y, hr, hr'⟩

theorem forall₂_rename {vs vs' : List Value} {ws : List Val} (h : List.Forall₂ (ValRel ρ) vs ws)
    (h' : List.Forall₂ (ValRel ρ') vs' ws) :
    vs' = vs.map (Value.rename e) ∧ ∀ x ∈ Value.handles vs, ρ.Shared ρ' x := by
  induction h generalizing vs' with
  | nil => exact ⟨List.forall₂_nil_right_iff.1 h', fun x hx => by cases hx⟩
  | cons hv _ ih =>
    obtain ⟨v', rest, hv', hrest, rfl⟩ := List.forall₂_cons_right_iff.1 h'
    obtain ⟨rfl, hx⟩ := hv.rename he hv'
    obtain ⟨rfl, hxs⟩ := ih hrest
    refine ⟨rfl, fun x hmem => ?_⟩
    rw [Value.handles_cons, List.mem_append] at hmem
    exact hmem.elim (hx x) (hxs x)

theorem forall₂_rename_array {vs vs' : Array Value} {ws : List Val}
    (h : List.Forall₂ (ValRel ρ) vs.toList ws) (h' : List.Forall₂ (ValRel ρ') vs'.toList ws) :
    vs' = vs.map (Value.rename e) ∧ ∀ x ∈ Value.handles vs.toList, ρ.Shared ρ' x := by
  obtain ⟨hmap, hx⟩ := forall₂_rename he h h'
  exact ⟨Array.toList_inj.1 (by rw [hmap, Array.toList_map]), hx⟩

theorem ObjRel.rename {o o' : Object} {w : Obj} (h : ObjRel ρ o w) (h' : ObjRel ρ' o' w) :
    o' = o.rename e ∧ ∀ x ∈ o.children, ρ.Shared ρ' x := by
  cases h with
  | string text => cases h'; exact ⟨rfl, fun x hx => by cases hx⟩
  | array h =>
    cases h' with
    | array h' => exact (forall₂_rename_array he h h').imp_left (congrArg _)
  | record type h =>
    cases h' with
    | record _ h' => exact (forall₂_rename_array he h h').imp_left (congrArg _)
  | nativeRecord kind h =>
    cases h' with
    | nativeRecord _ h' => exact (forall₂_rename_array he h h').imp_left (congrArg _)
  | function hc => cases h'; exact ⟨rfl, fun x hx => by cases hx⟩
  | @bound callee hc x r hr =>
    cases h' with
    | @bound _ _ y _ hr' =>
      refine ⟨by simp only [Object.rename, Option.map_some, he r x y hr hr'], fun z hz => ?_⟩
      cases List.mem_singleton.1 hz
      exact ⟨r, y, hr, hr'⟩

theorem FrameRel.rename {f f' : Scriptlet.Frame} {g : Frame} (h : FrameRel ρ f g)
    (h' : FrameRel ρ' f' g) : f' = f.rename e ∧
      ∀ x ∈ Value.handles f.operands ++ Value.handles f.locals.toList, ρ.Shared ρ' x := by
  obtain ⟨operands', locals'⟩ := f'
  obtain ⟨rfl, hx⟩ := forall₂_rename he h.operands h'.operands
  obtain ⟨rfl, hy⟩ := forall₂_rename_array he h.locals h'.locals
  exact ⟨rfl, fun x hm => (List.mem_append.1 hm).elim (hx x) (hy x)⟩

theorem forall₂_callers_rename {cs cs' : List Scriptlet.Caller} {ds : List Caller}
    (h : List.Forall₂ (CallerRel ρ) cs ds) (h' : List.Forall₂ (CallerRel ρ') cs' ds) :
    cs' = cs.map (Caller.rename e) ∧ ∀ c ∈ cs, ∀ x ∈ Value.handles c.frame.operands ++
      Value.handles c.frame.locals.toList, ρ.Shared ρ' x := by
  induction h generalizing cs' with
  | nil => exact ⟨List.forall₂_nil_right_iff.1 h', fun c hc => by cases hc⟩
  | @cons c d _ _ hc _ ih =>
    obtain ⟨⟨frame', returnTo'⟩, rest, hc', hrest, rfl⟩ := List.forall₂_cons_right_iff.1 h'
    obtain ⟨rfl, hx⟩ := hc.frame.rename he hc'.frame
    obtain rfl : returnTo' = c.returnTo := hc'.returnTo.trans hc.returnTo.symm
    obtain ⟨rfl, hxs⟩ := ih hrest
    refine ⟨rfl, fun b hb => ?_⟩
    rcases List.mem_cons.1 hb with rfl | hb
    · exact hx
    · exact hxs b hb

theorem forall₂_globals_rename {es es' : List (String × Value)} {fs : List (String × Val)}
    (h : List.Forall₂ (EntryRel ρ) es fs) (h' : List.Forall₂ (EntryRel ρ') es' fs) :
    es' = es.map (fun f => (f.1, f.2.rename e)) ∧
      ∀ x ∈ Value.handles (es.map Prod.snd), ρ.Shared ρ' x := by
  induction h generalizing es' with
  | nil => exact ⟨List.forall₂_nil_right_iff.1 h', fun x hx => by cases hx⟩
  | @cons b d _ _ hb _ ih =>
    obtain ⟨⟨name', v'⟩, rest, hb', hrest, rfl⟩ := List.forall₂_cons_right_iff.1 h'
    obtain ⟨rfl, hx⟩ := hb.2.rename he hb'.2
    obtain rfl : name' = b.1 := hb'.1.trans hb.1.symm
    obtain ⟨rfl, hxs⟩ := ih hrest
    refine ⟨rfl, fun x hmem => ?_⟩
    rw [List.map_cons, Value.handles_cons, List.mem_append] at hmem
    exact hmem.elim (hx x) (hxs x)

end shared

section sim

variable {σ : Setting} {ρ ρ' : Names} {m m' : Machine} {s : State} (hs : Sim σ ρ m s)
  (hs' : Sim σ ρ' m' s)
include hs hs'

theorem Sim.toward_eq (r : Ref) (x y : Handle) (hx : ρ r x) (hy : ρ' r y) :
    ρ.toward ρ' x = y := by
  have hex : ∃ y r, ρ r x ∧ ρ' r y := ⟨y, r, hx, hy⟩
  obtain ⟨q, hq, hq'⟩ := hex.choose_spec
  obtain rfl := hs.right r q x hx hq
  rw [Names.toward, dif_pos hex]
  exact hs'.left r _ y hq' hy

theorem Sim.shared_of_root {x : Handle} (h : x ∈ m.roots) : ρ.Shared ρ' x := by
  have he := hs.toward_eq hs'
  have hframes : ∀ f ∈ m.frames, ∀ x ∈ Value.handles f.operands ++ Value.handles f.locals.toList,
      ρ.Shared ρ' x := by
    intro f hf
    rcases List.mem_cons.1 hf with rfl | hf
    · exact (hs.frame.rename he hs'.frame).2
    · obtain ⟨c, hc, rfl⟩ := List.mem_map.1 hf
      exact (forall₂_callers_rename he hs.callers hs'.callers).2 c hc
  rcases List.mem_append.1 h with h | h
  · obtain ⟨f, hf, h⟩ := List.mem_flatMap.1 h
    exact hframes f hf x (List.mem_append_left _ h)
  · rcases List.mem_append.1 h with h | h
    · obtain ⟨f, hf, h⟩ := List.mem_flatMap.1 h
      exact hframes f hf x (List.mem_append_right _ h)
    · exact (forall₂_globals_rename he hs.globals hs'.globals).2 x h

/-- The objects of one reference are one object, but for the names of its children. -/
theorem Sim.object_rename {r : Ref} {x y : Handle} (hr : ρ r x) (hr' : ρ' r y) :
    ∃ o, m.heap.object? x = some o ∧ m'.heap.object? y = some (o.rename (ρ.toward ρ')) ∧
      ∀ z ∈ o.children, ρ.Shared ρ' z := by
  obtain ⟨o, w, ho, hw, hrel⟩ := hs.objects r x hr
  obtain ⟨o', w', ho', hw', hrel'⟩ := hs'.objects r y hr'
  cases hw.symm.trans hw'
  obtain ⟨rfl, hchildren⟩ := hrel.rename (hs.toward_eq hs') hrel'
  exact ⟨o, ho, ho', hchildren⟩

theorem Sim.shared_of_reaches {x : Handle} (h : m.Reaches x) : ρ.Shared ρ' x := by
  induction h with
  | root h => exact hs.shared_of_root hs' h
  | child _ ho hy ih =>
    obtain ⟨r, z, hr, hr'⟩ := ih
    obtain ⟨o₁, ho₁, -, hchildren⟩ := hs.object_rename hs' hr hr'
    cases ho.symm.trans ho₁
    exact hchildren _ hy

/-- Machines that stand for one state mirror each other. -/
theorem Sim.mirrors : m.Mirrors (ρ.toward ρ') m' := by
  have he := hs.toward_eq hs'
  obtain ⟨hframe, -⟩ := hs.frame.rename he hs'.frame
  obtain ⟨hcallers, -⟩ := forall₂_callers_rename he hs.callers hs'.callers
  obtain ⟨hentries, -⟩ := forall₂_globals_rename he hs.globals hs'.globals
  have hglobals : m'.globals = m.globals.rename (ρ.toward ρ') := congrArg Bindings.mk hentries
  have hroots := Machine.roots_eq_map hframe hcallers hglobals
  have hobjects : ∀ x, m.Reaches x → ∃ o, m.heap.object? x = some o ∧
      m'.heap.object? (ρ.toward ρ' x) = some (o.rename (ρ.toward ρ')) := by
    intro x h
    obtain ⟨r, y, hr, hr'⟩ := hs.shared_of_reaches hs' h
    obtain ⟨o, ho, ho', -⟩ := hs.object_rename hs' hr hr'
    rw [he r x y hr hr']
    exact ⟨o, ho, ho'⟩
  refine ⟨⟨fun x h => Machine.Reaches.rename hroots hobjects h, fun x hx y hy hxy => ?_,
    fun y h => Machine.exists_of_reaches hroots hobjects h⟩, hframe, hcallers, hglobals, hobjects⟩
  -- Two handles that are renamed to one stand for one reference.
  obtain ⟨r, a, hr, hr'⟩ := hs.shared_of_reaches hs' hx
  obtain ⟨q, b, hq, hq'⟩ := hs.shared_of_reaches hs' hy
  rw [he r x a hr hr', he q y b hq hq'] at hxy
  subst hxy
  obtain rfl := hs'.right r q a hr' hq'
  exact hs.left r x y hr hq

theorem Sim.callsGc_iff : m.CallsGc ↔ m'.CallsGc := by
  rw [Machine.CallsGc, Machine.CallsGc, hs.nextNative?, hs'.nextNative?]

end sim

end Ideal

namespace Machine

/-- A machine with another threshold calls `gc` no earlier. -/
theorem not_callsGc_of_threshold (b : Bytecode) (cfg : Config) (t : Nat) : ∀ n : Nat,
    (∀ k < n, ¬ ((new b cfg).after k).CallsGc) →
    ((new b cfg).after n).heap.slots.size < 2 ^ 32 →
    ((new b { cfg with gcThreshold := t }).after n).heap.slots.size < 2 ^ 32 →
    ∀ k < n, ¬ ((new b { cfg with gcThreshold := t }).after k).CallsGc
  | 0, _, _, _ => fun k hk => by omega
  | n + 1, hgc, hsz, hsz' => by
    have hsz₀ := Nat.lt_of_le_of_lt ((new b cfg).after n).extends_next.slots hsz
    have hsz₁ := Nat.lt_of_le_of_lt
      ((new b { cfg with gcThreshold := t }).after n).extends_next.slots hsz'
    have hgc₀ : ∀ k < n, ¬ ((new b cfg).after k).CallsGc := fun k hk => hgc k (by omega)
    have ih := not_callsGc_of_threshold b cfg t n hgc₀ hsz₀ hsz₁
    obtain ⟨⟨ρ, hs⟩, -⟩ := Ideal.sim_after b cfg 0 n hgc₀ hsz₀
    obtain ⟨⟨ρ', hs'⟩, -⟩ := Ideal.sim_after b { cfg with gcThreshold := t } 0 n ih hsz₁
    intro k hk
    rcases Nat.lt_succ_iff_lt_or_eq.1 hk with hk | rfl
    · exact ih k hk
    · exact fun h => hgc k hk ((hs.callsGc_iff hs').2 h)

/-- When garbage is collected makes no difference: as long as a program does not call `gc`, machines
that collect at different times are at the same place with the same output after any number of steps,
have faulted alike, and mirror each other. -/
theorem collection_unobservable (b : Bytecode) (cfg : Config) (t n : Nat)
    (hgc : ∀ k < n, ¬ ((new b cfg).after k).CallsGc)
    (hsz : ((new b cfg).after n).heap.slots.size < 2 ^ 32)
    (hsz' : ((new b { cfg with gcThreshold := t }).after n).heap.slots.size < 2 ^ 32) :
    let m := (new b cfg).after n
    let m' := (new b { cfg with gcThreshold := t }).after n
    m'.pc = m.pc ∧ m'.status = m.status ∧ m'.depth = m.depth ∧ m'.output = m.output ∧
      (new b { cfg with gcThreshold := t }).faultWithin? n = (new b cfg).faultWithin? n ∧
      ∃ e, m.Mirrors e m' := by
  intro m m'
  have hgc' := not_callsGc_of_threshold b cfg t n hgc hsz hsz'
  obtain ⟨⟨ρ, hs⟩, hf⟩ := Ideal.sim_after b cfg 0 n hgc hsz
  obtain ⟨⟨ρ', hs'⟩, hf'⟩ := Ideal.sim_after b { cfg with gcThreshold := t } 0 n hgc' hsz'
  refine ⟨hs'.pc.trans hs.pc.symm, hs'.status.trans hs.status.symm, ?_,
    hs'.output.trans hs.output.symm, hf'.trans hf.symm, _, hs.mirrors hs'⟩
  exact hs'.callers.length_eq.trans hs.callers.length_eq.symm

/-- An array is dropped, and another one becomes a local: a machine that collects before every
instruction puts it where the first one was. -/
theorem collection_unobservable_reused :
    let b : Bytecode := { code := (Instruction.encodeAll
      [.createArray 0, .drop, .createArray 0, .setLocal 0]).toArray }
    let cfg : Config := {}
    let m := (new b cfg).after 4
    let m' := (new b { cfg with gcThreshold := 0 }).after 4
    (m.frame.locals = #[.object ⟨1, 0⟩] ∧ m'.frame.locals = #[.object ⟨0, 1⟩]) ∧
      m'.pc = m.pc ∧ m'.status = m.status ∧ m'.depth = m.depth ∧ m'.output = m.output ∧
      (new b { cfg with gcThreshold := 0 }).faultWithin? 4 = (new b cfg).faultWithin? 4 ∧
      ∃ e, m.Mirrors e m' := by
  intro b cfg m m'
  refine ⟨by decide +kernel, ?_⟩
  exact collection_unobservable b cfg 0 4 (by decide +kernel) (by decide +kernel)
    (by decide +kernel)

end Machine

end Scriptlet
