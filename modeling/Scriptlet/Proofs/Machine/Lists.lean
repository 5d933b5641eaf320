import Mathlib.Logic.Function.Basic
import Scriptlet.Proofs.Machine.Collections
import Scriptlet.Proofs.Machine.Garbage

/-!
# Lists are pure lists

A run keeps a pure list for each handle that it has made a list under (`Machine.lists`): the natives
that make and change a list change the pure list of their handle, and no other step changes any. The
lists of the heap have these contents (`Machine.RefinesLists`), whatever is swept in between.

One step makes of the lists that its last sweep has left what it makes of pure lists
(`Machine.list?_next`), and a sweep changes no list that it leaves.

Main statement: `Machine.lists_refined`.
-/

namespace Scriptlet

open Function (update)

/-! ## Pure lists -/

/-- What a native call makes of the lists under handles. A new list is under the handle that the call
results in. -/
def NativeCall.onLists (c : NativeCall) (result : Option Handle) :
    (Handle → Option (List Value)) → Handle → Option (List Value) :=
  match c.callee.routine, c.args with
  | .listNew, [] => result.elim id fun x lists => update lists x (some [])
  | .listPush, [.object x, v] => fun lists => update lists x ((lists x).map (· ++ [v]))
  | .listPop, [.object x] => fun lists => update lists x ((lists x).map List.dropLast)
  | _, _ => id

namespace Machine

/-- The handle that is the topmost operand. -/
def top? (m : Machine) : Option Handle := m.frame.operands.head?.bind Value.handle?

/-- What the next step makes of the lists under handles. -/
def onLists (m : Machine) (lists : Handle → Option (List Value)) : Handle → Option (List Value) :=
  match m.call? with
  | some c => c.onLists m.next.top? lists
  | none => lists

/-- The lists under handles after a number of steps. -/
def lists (m : Machine) : Nat → Handle → Option (List Value)
  | 0 => fun _ => none
  | n + 1 => (m.after n).onLists (m.lists n)

/-- The next step is a native call with a result. -/
def Yields (m : Machine) (c : NativeCall) (v : Value) : Prop :=
  step m = .ok .ready m.next ∧ m.next.frame.operands = v :: c.below

/-- The next step faults. -/
def Faults (m : Machine) (f : Fault) : Prop := ∃ r, m.nextFault? = some r ∧ r.fault = f

/-- A call of the natives of lists on a list with some contents does what it does on a pure list. -/
structure ServesList (m : Machine) (c : NativeCall) (x : Handle) (l : List Value) : Prop where
  push : c.callee.routine = .listPush → ∀ v, c.args = [.object x, v] →
    m.Yields c .null ∧ m.next.heap.list? x = some (l ++ [v])
  pop : c.callee.routine = .listPop → c.args = [.object x] →
    m.Yields c (l.getLast?.getD .null) ∧ m.next.heap.list? x = some l.dropLast
  get : c.callee.routine = .listGet → ∀ (index : Value) (i : Int), c.args = [.object x, index] →
    index.index? = some i →
      (0 ≤ i → ∀ v, l[i.toNat]? = some v → m.Yields c v) ∧
      (i < 0 ∨ l.length ≤ i → m.Faults (.indexOutOfBounds i l.length))
  len : c.callee.routine = .listLen ∨ c.callee.routine = .len → c.args = [.object x] →
    ∃ n : Int32, m.Yields c (.int n) ∧ (l.length < 2 ^ 31 → n.toInt = l.length)

/-- After a number of steps of a run, lists are pure lists (module doc). -/
structure RefinesLists (run : Machine) (n : Nat) : Prop where
  /-- Lists have the contents of the pure lists. -/
  contents : ∀ x l, (run.after n).heap.list? x = some l → run.lists n x = some l
  /-- A list stays one for another step as long as it is held. -/
  kept : ∀ x l, (run.after n).heap.list? x = some l → x ∈ (run.after (n + 1)).held →
    ∃ l', (run.after (n + 1)).heap.list? x = some l' ∧ run.lists (n + 1) x = some l'
  /-- The elements of lists are live. -/
  live : ∀ x l, (run.after n).heap.list? x = some l →
    ∀ y, .object y ∈ l → (run.after n).heap.contains y = true
  /-- A new list is empty. -/
  new : ∀ c, (run.after n).call? = some c → c.callee.routine = .listNew → c.args = [] →
    ∃ x, (run.after n).heap.contains x = false ∧ (run.after n).Yields c (.object x) ∧
      (run.after (n + 1)).heap.list? x = some []
  /-- Calls do what they do on pure lists. -/
  calls : ∀ c x l, (run.after n).call? = some c → (run.after n).heap.list? x = some l →
    (run.after n).ServesList c x l

end Machine

namespace NativeCall

variable {c : NativeCall} {result : Option Handle} {lists lists' : Handle → Option (List Value)}
  {x : Handle} {l : List Value}

/-- A call makes a list, changes one, or leaves all alone. -/
theorem onLists_cases (c : NativeCall) (result : Option Handle) :
    (∃ x : Handle, c.callee.routine = .listNew ∧ c.args = [] ∧
      c.onLists result = fun lists => update lists x (some [])) ∨
    (∃ (x : Handle) (f : _), (c.callee.routine = .listPush ∧ (∃ v, c.args = [.object x, v]) ∨
        c.callee.routine = .listPop ∧ c.args = [.object x]) ∧
      c.onLists result = fun lists => update lists x ((lists x).map f)) ∨
    c.onLists result = id := by
  unfold onLists
  split
  · next hr hargs =>
    cases result with
    | none => exact .inr (.inr rfl)
    | some x => exact .inl ⟨x, hr, hargs, rfl⟩
  · next x v hr hargs => exact .inr (.inl ⟨x, _, .inl ⟨hr, v, hargs⟩, rfl⟩)
  · next x hr hargs => exact .inr (.inl ⟨x, _, .inr ⟨hr, hargs⟩, rfl⟩)
  · exact .inr (.inr rfl)

/-- A call that makes no list and finds none leaves lists alone. -/
theorem onLists_of_none (hnew : c.callee.routine = .listNew → c.args ≠ [])
    (hpush : c.callee.routine = .listPush → ∀ x v, c.args = [.object x, v] → lists x = none)
    (hpop : c.callee.routine = .listPop → ∀ x, c.args = [.object x] → lists x = none) :
    c.onLists result lists = lists := by
  rcases c.onLists_cases result with ⟨x, hr, hargs, -⟩ | ⟨x, f, hargs, hc⟩ | hc
  · exact absurd hargs (hnew hr)
  · have hnone : lists x = none := by
      rcases hargs with ⟨hr, v, hargs⟩ | ⟨hr, hargs⟩
      · exact hpush hr x v hargs
      · exact hpop hr x hargs
    simp only [hc, hnone, Option.map_none]
    rw [Function.update_eq_self_iff, hnone]
  · rw [hc, id]

/-- What is known of lists is known of what a call makes of them. -/
theorem onLists_mono (h : ∀ x l, lists x = some l → lists' x = some l)
    (hx : c.onLists result lists x = some l) : c.onLists result lists' x = some l := by
  rcases c.onLists_cases result with ⟨y, -, -, hc⟩ | ⟨y, f, -, hc⟩ | hc
  · simp only [hc] at hx ⊢
    by_cases hxy : x = y
    · subst hxy
      rwa [Function.update_self] at hx ⊢
    · rw [Function.update_of_ne hxy] at hx ⊢
      exact h x l hx
  · simp only [hc] at hx ⊢
    by_cases hxy : x = y
    · subst hxy
      rw [Function.update_self, Option.map_eq_some_iff] at hx ⊢
      obtain ⟨l', hl', rfl⟩ := hx
      exact ⟨l', h x l' hl', rfl⟩
    · rw [Function.update_of_ne hxy] at hx ⊢
      exact h x l hx
  · rw [hc] at hx ⊢
    exact h x l hx

/-- A call leaves every list a list. -/
theorem exists_onLists (hx : lists x = some l) : ∃ l', c.onLists result lists x = some l' := by
  rcases c.onLists_cases result with ⟨y, -, -, hc⟩ | ⟨y, f, -, hc⟩ | hc
  · simp only [hc]
    by_cases hxy : x = y
    · exact ⟨[], by rw [hxy, Function.update_self]⟩
    · exact ⟨l, by rw [Function.update_of_ne hxy, hx]⟩
  · simp only [hc]
    by_cases hxy : x = y
    · exact ⟨f l, by rw [← hxy, Function.update_self, hx, Option.map_some]⟩
    · exact ⟨l, by rw [Function.update_of_ne hxy, hx]⟩
  · exact ⟨l, by rw [hc, id, hx]⟩

end NativeCall

/-! ## One call -/

namespace Heap

variable {h : Heap} {x y : Handle} {kind : Nat} {vs : Array Value}

theorem list?_of_object? (ho : h.object? x = some (.nativeRecord kind vs)) :
    h.list? x = some vs.toList :=
  list?_eq_some_iff.2 ⟨kind, vs, ho, rfl⟩

/-- A new list is empty, and the others stay. -/
theorem list?_allocate (hn : h.Numbered) (hs : (h.allocate (.nativeRecord kind #[])).2.slots.size < 2 ^ 32)
    (y : Handle) : (h.allocate (.nativeRecord kind #[])).2.list? y =
      update h.list? (h.allocate (.nativeRecord kind #[])).1 (some []) y := by
  have hs' := Nat.lt_of_le_of_lt (size_le_allocate h _) hs
  by_cases hy : y = (h.allocate (.nativeRecord kind #[])).1
  · have hfind := find?_allocate_eq hn.wellFormed hs' (.nativeRecord kind #[]) y
    rw [if_pos hy] at hfind
    have ho : (h.allocate (.nativeRecord kind #[])).2.object? y = some (.nativeRecord kind #[]) := by
      rw [object?, hfind]
      rfl
    rw [list?_of_object? ho, hy, Function.update_self]
  · rw [Function.update_of_ne hy]
    exact (Onward.allocate h _).lists hn hs y fun he => hy (Option.some.inj he).symm

/-- Other contents of a list that are then counted. -/
theorem list?_change {α : Type} {act : Action α} (ha : Adding 0 act) (hn : h.Numbered)
    (ho : h.object? x = some (.nativeRecord kind vs)) (f : Array Value → Array Value)
    (hs : (act.final (h.changeObject x (Object.mapElements f))).slots.size < 2 ^ 32) (y : Handle) :
    (act.final (h.changeObject x (Object.mapElements f))).list? y =
      update h.list? x (some (f vs).toList) y := by
  have hlike : h.Like (h.changeObject x (Object.mapElements f)) := like_modifyCell h x _
  rw [(ha _).lists (hn.like hlike) hs y nofun]
  by_cases hy : y = x
  · have ho' : (h.changeObject x (Object.mapElements f)).object? x =
        some (.nativeRecord kind (f vs)) := by
      rw [object?_changeObject ho, if_pos rfl]
      rfl
    rw [hy, Function.update_self, list?_of_object? ho']
  · rw [Function.update_of_ne hy]
    exact list?_congr (by rw [object?_changeObject ho, if_neg hy])

end Heap

namespace Exec

variable {m : Machine} {c : NativeCall}

theorem heap_onHeap_push (act : Heap.Action Unit) (v : Value) (m : Machine) :
    ((do onHeap act; push v : Exec Unit).final m).heap = act.final m.heap := by
  unfold final Heap.Action.final
  rw [run_bind, run_onHeap]
  cases act m.heap <;> rfl

/-- What a native call makes of lists, unless it collects garbage. -/
theorem list?_callNative (hops : m.frame.operands = c.args.reverse ++ c.below)
    (hgc : c.callee.routine = .gc → c.args ≠ []) (hlist : m.structures.index? "List" ≠ none)
    (hn : m.heap.Numbered)
    (hs : ((callNative c.callee c.args.length).final m).heap.slots.size < 2 ^ 32) (y : Handle) :
    ((callNative c.callee c.args.length).final m).heap.list? y =
      c.onLists ((callNative c.callee c.args.length).final m).top? m.heap.list? y := by
  have hon := onward_callNative hops hgc
  obtain ⟨⟨name, r⟩, args, below⟩ := c
  dsimp only at hops hgc hs hon ⊢
  obtain ⟨events, hheap, hresult⟩ := final_callNative (f := ⟨name, r⟩) hops
  have hops' : ({ m with events } : Machine).frame.operands = args.reverse ++ below := hops
  -- a call that faults early leaves lists alone, and pure lists alike
  have hstill : ∀ {e}, routine r args.length { m with events } =
      .error e (({ m with events } : Machine).withOperands below) →
      (r = .listNew → args ≠ []) →
      (r = .listPush → ∀ x v, args = [.object x, v] → m.heap.list? x = none) →
      (r = .listPop → ∀ x, args = [.object x] → m.heap.list? x = none) →
      ((callNative ⟨name, r⟩ args.length).final m).heap.list? y =
        NativeCall.onLists ⟨⟨name, r⟩, args, below⟩
          ((callNative ⟨name, r⟩ args.length).final m).top? m.heap.list? y := by
    intro e hrun hnew hpush hpop
    rw [hheap, final_error hrun]
    exact (congrFun (NativeCall.onLists_of_none hnew hpush hpop) y).symm
  cases r with
  | listNew =>
    rcases listNew_cases hops' with ⟨kind, rfl, -, hrun⟩ | ⟨hnone, e, hrun⟩
    · have hfinal := hresult _ hrun (Nat.succ_ne_self _)
      rw [hfinal] at hs ⊢
      exact Heap.list?_allocate hn hs y
    · exact hstill hrun (fun _ h => hlist (hnone h)) nofun nofun
  | listPush =>
    rcases listPush_cases hops' with ⟨x, kind, vs, v, rfl, ho, hrun⟩ | ⟨hnone, e, hrun⟩
    · have hrun' : routine .listPush [.object x, v].length { m with events } = _ := hrun
      rw [final_congr hrun', heap_onHeap] at hheap
      rw [hheap] at hs ⊢
      refine (Heap.list?_change (Heap.adding_retain v) hn ho _ hs y).trans ?_
      have hl : m.heap.list? x = some vs.toList := Heap.list?_of_object? ho
      simp only [NativeCall.onLists, hl, Option.map_some, Array.toList_push]
    · exact hstill hrun nofun (fun _ => hnone) nofun
  | listPop =>
    rcases listPop_cases hops' with ⟨x, kind, vs, rfl, ho, hrun⟩ | ⟨hnone, e, hrun⟩
    · have hrun' : routine .listPop [Value.object x].length { m with events } = _ := hrun
      rw [final_congr hrun', heap_onHeap_push] at hheap
      rw [hheap] at hs ⊢
      refine (Heap.list?_change (Heap.adding_release _) hn ho _ hs y).trans ?_
      have hl : m.heap.list? x = some vs.toList := Heap.list?_of_object? ho
      simp only [NativeCall.onLists, hl, Option.map_some, Array.toList_pop]
    · exact hstill hrun nofun nofun fun _ => hnone
  | _ => exact hon.lists hn hs y nofun

end Exec

/-! ## One step -/

namespace Machine

variable {m : Machine} {c : NativeCall} {x y : Handle} {l : List Value}

theorem onLists_of_call (hcall : m.call? = some c) :
    m.onLists = c.onLists m.next.top? := by
  unfold onLists
  rw [hcall]

theorem onLists_of_no_call (hcall : m.call? = none) : m.onLists = id := by
  unfold onLists
  rw [hcall]
  rfl

/-- Of the lists that its last sweep has left, a step makes what it makes of pure lists. -/
theorem list?_next (hn : m.heap.Numbered) (hlist : m.structures.index? "List" ≠ none)
    (hs : m.next.heap.slots.size < 2 ^ 32) (y : Handle) :
    m.next.heap.list? y = m.onLists (m.sweptHeap?.getD m.heap).list? y := by
  have hn' := numbered_getD_sweptHeap? hn
  -- without a call, and where the collector is called, no list is changed
  have hrest : m.changed? = none → m.next.heap.list? y = (m.sweptHeap?.getD m.heap).list? y :=
    fun hnone => m.onward_next.lists hn' hs y (by rw [hnone]; nofun)
  cases hcall : m.call? with
  | none =>
    rw [onLists_of_no_call hcall]
    exact hrest (by rw [changed?, hcall]; rfl)
  | some c =>
    rw [onLists_of_call hcall]
    by_cases hgc : c.callee.routine = .gc ∧ c.args = []
    · obtain ⟨⟨name, r⟩, args, below⟩ := c
      obtain ⟨rfl, rfl⟩ := hgc
      exact hrest (by rw [changed?, hcall]; rfl)
    · obtain ⟨hready, i, hd, -⟩ := exists_of_call hcall
      obtain ⟨m₀, hheap, hops, -, hstructures, hnext, hframe⟩ := next_of_call hcall
      have hswept : m.sweptByCall? = none := by
        rw [sweptByCall?, hcall]
        exact if_neg hgc
      rw [getD_sweptHeap? hswept hready (Instruction.lt_of_decode hd)] at hn' ⊢
      have htop : m.next.top? = ((Exec.callNative c.callee c.args.length).final m₀).top? := by
        rw [top?, hframe]
        rfl
      rw [hnext] at hs ⊢
      rw [← hheap] at hn' ⊢
      rw [← hstructures] at hlist
      rw [htop]
      exact Exec.list?_callNative hops (fun hf hargs => hgc ⟨hf, hargs⟩) hlist hn' hs y

theorem culled_collectIfDue (m : Machine) : Heap.Culled m.heap m.collectIfDue.heap := by
  unfold collectIfDue
  split
  · rw [heap_collectGarbage]
    exact .sweep m.heap _
  · exact .refl _

/-- A step goes on from what its sweeps have left. -/
theorem culled_sweptHeap? (m : Machine) : Heap.Culled m.heap (m.sweptHeap?.getD m.heap) := by
  cases hsw : m.sweptHeap? with
  | none => exact .refl _
  | some h =>
    rcases Option.or_eq_some_iff.1 hsw with hcall | ⟨-, hdue⟩
    · obtain ⟨c, -, hc⟩ := Option.bind_eq_some_iff.1 hcall
      split at hc
      · cases hc
        refine m.culled_collectIfDue.trans ?_
        rw [Option.getD_some, heap_collectGarbage]
        exact .sweep m.collectIfDue.heap _
      · cases hc
    · split at hdue
      · cases hdue
        exact m.culled_collectIfDue
      · cases hdue

/-- A list of the next machine has what the step makes of any account of the lists. -/
theorem contents_next {lists : Handle → Option (List Value)}
    (hlists : ∀ x l, m.heap.list? x = some l → lists x = some l) (hn : m.heap.Numbered)
    (hlist : m.structures.index? "List" ≠ none) (hs : m.next.heap.slots.size < 2 ^ 32)
    (hx : m.next.heap.list? x = some l) : m.onLists lists x = some l := by
  rw [list?_next hn hlist hs] at hx
  have hbase : ∀ x l, (m.sweptHeap?.getD m.heap).list? x = some l → lists x = some l :=
    fun x l h => hlists x l (m.culled_sweptHeap?.list? h)
  cases hcall : m.call? with
  | none =>
    rw [onLists_of_no_call hcall] at hx ⊢
    exact hbase x l hx
  | some c =>
    rw [onLists_of_call hcall] at hx ⊢
    exact NativeCall.onLists_mono hbase hx

/-- A list that is found behind a step is still a list. -/
theorem exists_list?_next (hn : m.heap.Numbered) (hlist : m.structures.index? "List" ≠ none)
    (hs : m.next.heap.slots.size < 2 ^ 32) (hx : m.heap.list? x = some l)
    (hlive : m.next.heap.contains x = true) : ∃ l', m.next.heap.list? x = some l' := by
  have hbase : (m.sweptHeap?.getD m.heap).list? x = some l := by
    rcases m.culled_sweptHeap?.ended x (Heap.contains_of_list? hx) with hkept | hended
    · exact m.culled_sweptHeap?.list?_of_contains hx hkept
    · rw [m.onward_next.not_contains_of_ended hended] at hlive
      cases hlive
  rw [list?_next hn hlist hs]
  cases hcall : m.call? with
  | none =>
    rw [onLists_of_no_call hcall]
    exact ⟨l, hbase⟩
  | some c =>
    rw [onLists_of_call hcall]
    exact NativeCall.exists_onLists hbase

/-- The elements of lists are live where counts are exact. -/
theorem Counted.contains_listed (hc : m.Counted [] []) (hx : m.heap.list? x = some l)
    (hy : .object y ∈ l) : m.heap.contains y = true := by
  obtain ⟨kind, vs, ho, rfl⟩ := Heap.list?_eq_some_iff.1 hx
  exact hc.exact.contains_child ho (List.mem_filterMap.2 ⟨_, hy, rfl⟩)

/-! ## What calls yield -/

/-- The arguments of the call of the next step are live behind a collection that may be due. -/
theorem Counted.contains_arg (hc : m.Counted [] []) (hcall : m.call? = some c)
    (hx : .object x ∈ c.args) : m.collectIfDue.heap.contains x = true := by
  obtain ⟨-, i, -, hcallIn⟩ := exists_of_call hcall
  have hc' := hc.collectIfDue
  have hmem : .object x ∈ c.args.reverse ++ c.below :=
    List.mem_append_left _ (List.mem_reverse.2 hx)
  rcases mem_of_callIn? hcallIn hmem with hops | ⟨y, o, ho, z, hz, heq⟩
  · refine hc'.operands x ?_
    rw [List.nil_append, Exec.pinned_eq, List.mem_append, Value.mem_handles]
    exact .inl hops
  · cases heq
    exact hc'.exact.contains_child ho hz

theorem yields_of_step {m' : Machine} {v : Value} (hs : step m = .ok m'.status m')
    (hready : m'.status = .ready) (hops : m'.frame.operands = v :: c.below) : m.Yields c v := by
  have hnext : m.next = m' := by
    unfold next
    rw [hs]
  rw [hready] at hs
  exact ⟨hnext ▸ hs, hnext ▸ hops⟩

/-- The step of a native call, by what the routine does. -/
theorem step_of_routine (hcall : m.call? = some c) : ∃ m₀ : Machine,
    m₀.heap = m.collectIfDue.heap ∧ m₀.frame.operands = c.args.reverse ++ c.below ∧
    m₀.structures = m.structures ∧ m₀.status = .ready ∧
    (∀ m', Exec.routine c.callee.routine c.args.length m₀ = .ok () m' → m'.status = .ready →
      ∀ result : Option Value, m'.frame.operands = result.toList ++ c.below →
        m.Yields c (result.getD .null)) ∧
    ∀ f m', Exec.routine c.callee.routine c.args.length m₀ = .error f m' → m.Faults f := by
  obtain ⟨hready, -⟩ := exists_of_call hcall
  obtain ⟨pc, events, hstep⟩ := step_of_call hcall
  obtain ⟨hok, herror⟩ := hstep _ rfl
  let m₁ : Machine := { m with
    heap := m.collectIfDue.heap
    pc
    frame := { m.frame with operands := c.args.reverse ++ c.below }
    events }
  have hops : m₁.frame.operands = c.args.reverse ++ c.below := rfl
  obtain ⟨events', hrun⟩ := Exec.run_callNative (f := c.callee) hops
  refine ⟨{ m₁ with events := events' }, rfl, rfl, rfl, hready, fun m' hm' hstatus result hresult => ?_,
    fun f m' hm' => ?_⟩
  · rw [hm'] at hrun
    have hs := hok _ hrun
    cases result with
    | none =>
      rw [if_pos (by rw [hresult]; rfl)] at hs
      exact yields_of_step hs hstatus (by rw [hresult]; rfl)
    | some v =>
      rw [if_neg (by rw [hresult]; exact Nat.succ_ne_self _)] at hs
      exact yields_of_step hs hstatus hresult
  · rw [hm'] at hrun
    refine ⟨⟨f, m.pc, m'.bytecode.spanAt? m.pc⟩, ?_, rfl⟩
    rw [nextFault?, herror f m' hrun]
    rfl

/-- Unless it calls the collector, a step goes on behind a collection that may be due. -/
theorem getD_sweptHeap?_of_call (hcall : m.call? = some c) (hgc : c.callee.routine ≠ .gc) :
    m.sweptHeap?.getD m.heap = m.collectIfDue.heap := by
  obtain ⟨hready, i, hd, -⟩ := exists_of_call hcall
  refine getD_sweptHeap? ?_ hready (Instruction.lt_of_decode hd)
  rw [sweptByCall?, hcall]
  exact if_neg fun h => hgc h.1

theorem list?_next_of_call (hn : m.heap.Numbered) (hlist : m.structures.index? "List" ≠ none)
    (hs : m.next.heap.slots.size < 2 ^ 32) (hcall : m.call? = some c) (hgc : c.callee.routine ≠ .gc)
    (y : Handle) : m.next.heap.list? y = c.onLists m.next.top? m.collectIfDue.heap.list? y := by
  rw [list?_next hn hlist hs, onLists_of_call hcall, getD_sweptHeap?_of_call hcall hgc]

/-- A list that is an argument of a call is there behind a collection that may be due. -/
theorem Counted.list?_arg (hc : m.Counted [] []) (hcall : m.call? = some c)
    (harg : .object x ∈ c.args) (hx : m.heap.list? x = some l) :
    m.collectIfDue.heap.list? x = some l :=
  m.culled_collectIfDue.list?_of_contains hx (hc.contains_arg hcall harg)

theorem yields_push (hc : m.Counted [] []) (hcall : m.call? = some c)
    (hr : c.callee.routine = .listPush) {v : Value} (hargs : c.args = [.object x, v])
    (hx : m.collectIfDue.heap.list? x = some l) : m.Yields c .null := by
  obtain ⟨m₀, hheap, hops, -, hready, hyields, -⟩ := step_of_routine hcall
  have hv : ∀ y, v = .object y →
      (m₀.heap.changeObject x (Object.mapElements fun vs => vs.push v)).contains y = true := by
    rintro y rfl
    refine (Heap.contains_modifyCell _ x y _).trans ?_
    rw [hheap]
    exact hc.contains_arg hcall (by rw [hargs]; exact List.mem_cons_of_mem _ List.mem_cons_self)
  obtain ⟨h', hretain, -⟩ := Heap.recounts_retain hv
  rcases Exec.listPush_cases hops with ⟨x', kind, vs, v', hargs', -, hrun⟩ | ⟨hnone, -⟩
  · rw [hargs] at hargs'
    cases hargs'
    rw [hr] at hyields
    exact hyields _ (hrun.trans (Exec.run_onHeap_ok hretain)) hready none rfl
  · have habsent := hnone x v hargs
    rw [hheap, hx] at habsent
    cases habsent

theorem yields_pop (hc : m.Counted [] []) (hcall : m.call? = some c)
    (hr : c.callee.routine = .listPop) (hargs : c.args = [.object x])
    (hx : m.collectIfDue.heap.list? x = some l) : m.Yields c (l.getLast?.getD .null) := by
  obtain ⟨m₀, hheap, hops, -, hready, hyields, -⟩ := step_of_routine hcall
  rcases Exec.listPop_cases hops with ⟨x', kind, vs, hargs', ho, hrun⟩ | ⟨hnone, -⟩
  · rw [hargs] at hargs'
    cases hargs'
    rw [hheap] at ho
    rw [Heap.list?_of_object? ho] at hx
    cases hx
    have hv : ∀ y, vs.back?.getD .null = .object y →
        (m₀.heap.changeObject x (Object.mapElements Array.pop)).contains y = true := by
      intro y hy
      refine (Heap.contains_modifyCell _ x y _).trans ?_
      rw [hheap]
      refine hc.collectIfDue.contains_listed (Heap.list?_of_object? ho) ?_
      cases hb : vs.back? with
      | none =>
        rw [hb] at hy
        cases hy
      | some w =>
        rw [hb] at hy
        cases hy
        rw [← Array.getLast?_toList] at hb
        exact List.mem_of_getLast? hb
    obtain ⟨h', hrelease, -⟩ := Heap.recounts_release hv
    rw [hr] at hyields
    have hrun' := hrun.trans (Exec.run_bind_ok (Exec.run_onHeap_ok hrelease) _)
    rw [Array.getLast?_toList]
    exact hyields _ hrun' hready (some _) rfl
  · have habsent := hnone x hargs
    rw [hheap, hx] at habsent
    cases habsent

theorem yields_get (hcall : m.call? = some c) (hr : c.callee.routine = .listGet) {index : Value}
    {i : Int} (hargs : c.args = [.object x, index]) (hi : index.index? = some i)
    (hx : m.collectIfDue.heap.list? x = some l) :
    (0 ≤ i → ∀ v, l[i.toNat]? = some v → m.Yields c v) ∧
      (i < 0 ∨ l.length ≤ i → m.Faults (.indexOutOfBounds i l.length)) := by
  obtain ⟨m₀, hheap, hops, -, hready, hyields, hfaults⟩ := step_of_routine hcall
  obtain ⟨kind, vs, ho, rfl⟩ := Heap.list?_eq_some_iff.1 hx
  rw [← hheap] at ho
  rw [hargs] at hops hyields hfaults
  rw [hr] at hyields hfaults
  have hrun : Exec.routine .listGet 2 m₀ = _ := Exec.run_listGet hops hi ho
  rw [Array.length_toList]
  constructor
  · intro hnonneg v hv
    rw [Array.getElem?_toList] at hv
    rw [if_neg (Int.not_lt.2 hnonneg), hv] at hrun
    exact hyields _ hrun hready (some v) rfl
  · intro hout
    by_cases hneg : i < 0
    · rw [if_pos hneg] at hrun
      exact hfaults _ _ hrun
    · have hnone : vs[i.toNat]? = none := Array.getElem?_eq_none (by omega)
      rw [if_neg hneg, hnone] at hrun
      exact hfaults _ _ hrun

theorem yields_len (hcall : m.call? = some c)
    (hr : c.callee.routine = .listLen ∨ c.callee.routine = .len) (hargs : c.args = [.object x])
    (hx : m.collectIfDue.heap.list? x = some l) : m.Yields c (.int (Int32.ofNat l.length)) := by
  obtain ⟨m₀, hheap, hops, -, hready, hyields, -⟩ := step_of_routine hcall
  obtain ⟨kind, vs, ho, rfl⟩ := Heap.list?_eq_some_iff.1 hx
  rw [← hheap] at ho
  rw [hargs] at hops hyields
  rw [Array.length_toList]
  exact hyields _ (Exec.run_listLen hr hops ho) hready (some _) rfl

/-- Calls on lists do what they do on pure lists. -/
theorem Counted.servesList (hc : m.Counted [] []) (hn : m.heap.Numbered)
    (hlist : m.structures.index? "List" ≠ none) (hs : m.next.heap.slots.size < 2 ^ 32)
    (hcall : m.call? = some c) (hx : m.heap.list? x = some l) : m.ServesList c x l where
  push hr v hargs := by
    have hx' := hc.list?_arg hcall (by rw [hargs]; exact List.mem_cons_self) hx
    refine ⟨yields_push hc hcall hr hargs hx', ?_⟩
    rw [list?_next_of_call hn hlist hs hcall (by rw [hr]; decide)]
    simp only [NativeCall.onLists, hr, hargs, hx', Option.map_some, Function.update_self]
  pop hr hargs := by
    have hx' := hc.list?_arg hcall (by rw [hargs]; exact List.mem_cons_self) hx
    refine ⟨yields_pop hc hcall hr hargs hx', ?_⟩
    rw [list?_next_of_call hn hlist hs hcall (by rw [hr]; decide)]
    simp only [NativeCall.onLists, hr, hargs, hx', Option.map_some, Function.update_self]
  get hr index i hargs hi :=
    yields_get hcall hr hargs hi (hc.list?_arg hcall (by rw [hargs]; exact List.mem_cons_self) hx)
  len hr hargs := by
    have hx' := hc.list?_arg hcall (by rw [hargs]; exact List.mem_cons_self) hx
    exact ⟨_, yields_len hcall hr hargs hx', fun hlt => Int32.toInt_ofNat_of_lt hlt⟩

/-- A new list gets a handle that was not in use. -/
theorem yields_new (hn : m.heap.Numbered) (hlist : m.structures.index? "List" ≠ none)
    (hs : m.next.heap.slots.size < 2 ^ 32) (hcall : m.call? = some c)
    (hr : c.callee.routine = .listNew) (hargs : c.args = []) :
    ∃ x, m.heap.contains x = false ∧ m.Yields c (.object x) ∧ m.next.heap.list? x = some [] := by
  obtain ⟨m₀, hheap, hops, hstructures, hready, hyields, -⟩ := step_of_routine hcall
  rcases Exec.listNew_cases hops with ⟨kind, -, -, hrun⟩ | ⟨hnone, -⟩
  · rw [hr] at hyields
    have hy := hyields _ hrun hready (some _) rfl
    rw [hheap] at hy
    have htop : m.next.top? = some (m.collectIfDue.heap.allocate (.nativeRecord kind #[])).1 := by
      rw [top?, hy.2]
      rfl
    have hempty : m.next.heap.list? (m.collectIfDue.heap.allocate (.nativeRecord kind #[])).1 =
        some [] := by
      rw [list?_next_of_call hn hlist hs hcall (by rw [hr]; decide)]
      simp only [NativeCall.onLists, hr, hargs, htop, Option.elim_some, Function.update_self]
    refine ⟨_, ?_, hy, hempty⟩
    -- a handle in use is still in use behind the sweep, or stale behind the step
    rw [Bool.eq_false_iff]
    intro hused
    rcases m.culled_collectIfDue.ended _ hused with hkept | hended
    · have hs' : m.collectIfDue.heap.slots.size < 2 ^ 32 := by
        rw [size_collectIfDue]
        exact Nat.lt_of_le_of_lt m.extends_next.slots hs
      rw [Heap.contains, Heap.find?_new (numbered_collectIfDue hn).wellFormed hs'] at hkept
      cases hkept
    · have hon := m.onward_next
      rw [getD_sweptHeap?_of_call hcall (by rw [hr]; decide)] at hon
      have hstale := hon.not_contains_of_ended hended
      rw [Heap.contains_of_list? hempty] at hstale
      cases hstale
  · rw [← hstructures] at hlist
    exact absurd (hnone hargs) hlist

/-! ## Any number of steps -/

theorem index?_list_after (b : Bytecode) (cfg : Config) (n : Nat) :
    ((new b cfg).after n).structures.index? "List" ≠ none := by
  rw [((new b cfg).extends_after n).structures]
  exact Option.some_ne_none 0

theorem contents_after (b : Bytecode) (cfg : Config) : ∀ (n : Nat),
    ((new b cfg).after n).heap.slots.size < 2 ^ 32 →
    ∀ x l, ((new b cfg).after n).heap.list? x = some l → (new b cfg).lists n x = some l
  | 0, _, _, _, hx => by cases hx
  | n + 1, hs, x, l, hx => by
    have hs' := Nat.lt_of_le_of_lt ((new b cfg).after n).extends_next.slots hs
    exact contents_next (contents_after b cfg n hs') (accounted_after b cfg n).numbered
      (index?_list_after b cfg n) hs hx

/-- After any number of steps of a machine that was just made, whatever they do and sweep in between,
as long as handles are not used twice: every list is the pure list that was made under its handle, it
stays one while it is held, its elements are live, and a call on it does what it does on the pure
list. -/
theorem lists_refined (b : Bytecode) (cfg : Config) (n : Nat)
    (hs : ((new b cfg).after (n + 1)).heap.slots.size < 2 ^ 32) :
    (new b cfg).RefinesLists n := by
  have hs' := Nat.lt_of_le_of_lt ((new b cfg).after n).extends_next.slots hs
  have hc := ((counted_new b cfg).after n hs').1
  have hn := (accounted_after b cfg n).numbered
  have hlist := index?_list_after b cfg n
  refine ⟨contents_after b cfg n hs', fun x l hx hheld => ?_, fun x l hx y hy => ?_,
    fun c hcall hr hargs => ?_, fun c x l hcall hx => ?_⟩
  · have hlive := (hc.next hs).1.countsExact.live x hheld
    obtain ⟨l', hl'⟩ := exists_list?_next hn hlist hs hx hlive
    exact ⟨l', hl', contents_after b cfg (n + 1) hs x l' hl'⟩
  · exact hc.contains_listed hx hy
  · exact yields_new hn hlist hs hcall hr hargs
  · exact hc.servesList hn hlist hs hcall hx

/-- A program that makes a list, puts it in itself, and takes it out again. -/
def selfContained : Bytecode where
  strings := { entries := #["List", "push", "pop"] }
  code := (Instruction.encodeAll [.pushString 0, .getGlobal, .call 0, .setLocal 0, .getLocal 0,
    .getLocal 0, .callMethod 1 1, .drop, .getLocal 0, .callMethod 2 0, .ret]).toArray

/-- The list that holds itself is taken out of itself, with a sweep before every instruction. -/
theorem lists_refined_selfContained :
    let x : Handle := ⟨1, 0⟩
    let c : NativeCall := ⟨⟨"pop", .listPop⟩, [.object x], []⟩
    ((new selfContained eager).after (9 + 1)).heap.slots.size < 2 ^ 32 ∧
    ((new selfContained eager).after 9).call? = some c ∧
    ((new selfContained eager).after 9).heap.list? x = some [.object x] ∧
    (new selfContained eager).lists 9 x = some [.object x] ∧
    ((new selfContained eager).after 9).Yields c (.object x) ∧
    ((new selfContained eager).after 9).next.heap.list? x = some [] := by
  intro x c
  have hs : ((new selfContained eager).after (9 + 1)).heap.slots.size < 2 ^ 32 := by decide +kernel
  have hcall : ((new selfContained eager).after 9).call? = some c := by decide +kernel
  have hx : ((new selfContained eager).after 9).heap.list? x = some [.object x] := by decide +kernel
  have hrefines := lists_refined selfContained eager 9 hs
  obtain ⟨hyields, hpopped⟩ := (hrefines.calls c x _ hcall hx).pop rfl rfl
  exact ⟨hs, hcall, hx, hrefines.contents x _ hx, hyields, hpopped⟩

end Machine

end Scriptlet
