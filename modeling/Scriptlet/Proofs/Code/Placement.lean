import Scriptlet.Compile.Basic
import Scriptlet.Proofs.Code.Codec

/-!
# Fragments in a code

`Fragment.Placed`: a fragment stands in a code at a base offset, its jumps pointing at addresses of
that code. Where a fragment stands, its parts do: what was appended (`Placed.append`), emitted
(`Placed.emit`, `Placed.emitJump`) or bound to a loop (`Placed.bindLoop`). `Fragment.place` gives
code in which the fragment stands (`placed_of_place`).
-/

namespace Scriptlet

namespace Fragment

/-- The operands that wait for their addresses lie in the fragment, one behind the other. -/
structure Tidy (f : Fragment) : Prop where
  inside : ∀ r ∈ f.relocations.toList, r.site + 4 ≤ f.size
  apart : f.relocations.toList.Pairwise fun r q => r.site + 4 ≤ q.site

theorem tidy_empty : Tidy empty where
  inside r hr := by cases hr
  apart := .nil

/-- A relocation with the loop around it bound to offsets. -/
def bound (start exit : Nat) (r : Relocation) : Relocation :=
  match r.target with
  | .offset _ => r
  | .loopExit => { r with target := .offset exit }
  | .loopStart => { r with target := .offset start }

theorem bindLoop_relocations (f : Fragment) (start exit : Nat) :
    (f.bindLoop start exit).relocations = f.relocations.map (bound start exit) := rfl

theorem bound_site (start exit : Nat) (r : Relocation) : (bound start exit r).site = r.site := by
  unfold bound
  split <;> rfl

theorem mark_code (f : Fragment) (span : Span) : (f.mark span).code = f.code := by
  unfold mark
  split
  · split <;> rfl
  · rfl

theorem mark_relocations (f : Fragment) (span : Span) :
    (f.mark span).relocations = f.relocations := by
  unfold mark
  split
  · split <;> rfl
  · rfl

@[simp] theorem size_mark (f : Fragment) (span : Span) : (f.mark span).size = f.size := by
  rw [size, mark_code, size]

@[simp] theorem size_emitAt (f : Fragment) (i : Instruction) (span : Span) :
    (f.emitAt i span).size = f.size + i.width := by
  rw [emitAt, size_emit, size_mark]

@[simp] theorem size_empty : empty.size = 0 := rfl

@[simp] theorem size_bindLoop (f : Fragment) (start exit : Nat) :
    (f.bindLoop start exit).size = f.size := rfl

attribute [simp] size_append size_emit size_emitJump

namespace Tidy

variable {f g : Fragment}

theorem mark (hf : f.Tidy) (span : Span) : (f.mark span).Tidy := by
  refine ⟨fun r hr => ?_, ?_⟩
  · rw [mark_relocations] at hr
    rw [size_mark]
    exact hf.inside r hr
  · rw [mark_relocations]
    exact hf.apart

theorem emit (hf : f.Tidy) (i : Instruction) : (f.emit i).Tidy := by
  refine ⟨fun r hr => ?_, hf.apart⟩
  have := hf.inside r hr
  rw [size_emit]
  omega

theorem emitAt (hf : f.Tidy) (i : Instruction) (span : Span) : (f.emitAt i span).Tidy :=
  (hf.mark span).emit i

theorem emitJump (hf : f.Tidy) (kind : JumpKind) (target : JumpTarget) :
    (f.emitJump kind target).Tidy := by
  constructor
  · intro r hr
    rw [size_emitJump, jumpWidth]
    simp only [Fragment.emitJump, Array.toList_push, List.mem_append, List.mem_singleton] at hr
    rcases hr with hr | rfl
    · have := hf.inside r hr
      omega
    · exact Nat.le_refl _
  · simp only [Fragment.emitJump, Array.toList_push]
    refine List.pairwise_append.2 ⟨hf.apart, List.pairwise_singleton _ _, fun r hr q hq => ?_⟩
    have := hf.inside r hr
    cases List.mem_singleton.1 hq
    exact Nat.le_succ_of_le this

theorem append (hf : f.Tidy) (hg : g.Tidy) : (f ++ g).Tidy := by
  have hrel : (f ++ g).relocations.toList = f.relocations.toList ++
      g.relocations.toList.map fun r => ⟨r.site + f.size, r.target.shift f.size⟩ := by
    change (f.relocations ++ g.relocations.map _).toList = _
    rw [Array.toList_append, Array.toList_map]
  constructor
  · intro r hr
    rw [size_append]
    rw [hrel, List.mem_append, List.mem_map] at hr
    rcases hr with hr | ⟨q, hq, rfl⟩
    · have := hf.inside r hr
      omega
    · have := hg.inside q hq
      change q.site + f.size + 4 ≤ _
      omega
  · rw [hrel]
    refine List.pairwise_append.2 ⟨hf.apart, ?_, fun r hr q hq => ?_⟩
    · refine List.pairwise_map.2 (hg.apart.imp fun h => ?_)
      change _ + f.size + 4 ≤ _ + f.size
      omega
    · obtain ⟨q, -, rfl⟩ := List.mem_map.1 hq
      have := hf.inside r hr
      change r.site + 4 ≤ q.site + f.size
      omega

theorem bindLoop (hf : f.Tidy) (start exit : Nat) : (f.bindLoop start exit).Tidy := by
  constructor
  · intro r hr
    rw [bindLoop_relocations, Array.toList_map, List.mem_map] at hr
    obtain ⟨q, hq, rfl⟩ := hr
    rw [bound_site]
    exact hf.inside q hq
  · rw [bindLoop_relocations, Array.toList_map]
    refine List.pairwise_map.2 (hf.apart.imp fun h => ?_)
    rw [bound_site, bound_site]
    exact h

end Tidy

/-- What instructions and marks make without any jump. -/
inductive Plain : Fragment → Prop
  | empty : Plain empty
  | mark {f : Fragment} (h : Plain f) (span : Span) : Plain (f.mark span)
  | emit {f : Fragment} (h : Plain f) (i : Instruction) : Plain (f.emit i)
  | append {f g : Fragment} (hf : Plain f) (hg : Plain g) : Plain (f ++ g)

theorem Plain.emitAt {f : Fragment} (h : f.Plain) (i : Instruction) (span : Span) :
    (f.emitAt i span).Plain :=
  (h.mark span).emit i

theorem Plain.tidy {f : Fragment} (h : f.Plain) : f.Tidy := by
  induction h with
  | empty => exact tidy_empty
  | mark _ span ih => exact ih.mark span
  | emit _ i ih => exact ih.emit i
  | append _ _ ihf ihg => exact ihf.append ihg

end Fragment

/-! ## Where a fragment stands -/

/-- The addresses that the jumps of the innermost loop go to. -/
structure LoopAddresses where
  exit : Nat
  start : Nat

/-- The address of a target in a fragment that starts at `base`. -/
def JumpTarget.address (base : Nat) (loop : LoopAddresses) : JumpTarget → Nat
  | offset n => base + n
  | loopExit => loop.exit
  | loopStart => loop.start

theorem JumpTarget.address_shift (base k : Nat) (loop : LoopAddresses) (t : JumpTarget) :
    (t.shift k).address base loop = t.address (base + k) loop := by
  cases t with
  | offset n =>
    change base + (n + k) = base + k + n
    omega
  | loopExit => rfl
  | loopStart => rfl

namespace Fragment

/-- A byte is not part of an operand that waits for its address. -/
def Fixed (f : Fragment) (k : Nat) : Prop :=
  ∀ r ∈ f.relocations.toList, ¬ (r.site ≤ k ∧ k < r.site + 4)

/-- A fragment stands in a code at `base`, the loop around it being at some addresses. -/
structure Placed (code : Array UInt8) (base : Nat) (loop : LoopAddresses) (f : Fragment) : Prop where
  fits : base + f.size ≤ code.size
  bytes : ∀ k < f.size, f.Fixed k → code[base + k]? = f.code[k]?
  words : ∀ r ∈ f.relocations.toList,
    wordAt? code (base + r.site) = some (UInt32.ofNat (r.target.address base loop))

namespace Placed

variable {code : Array UInt8} {base : Nat} {loop : LoopAddresses} {f g : Fragment}

theorem mark {span : Span} (h : (f.mark span).Placed code base loop) : f.Placed code base loop := by
  obtain ⟨hfits, hbytes, hwords⟩ := h
  rw [size_mark] at hfits hbytes
  rw [mark_relocations] at hwords
  simp only [Fixed, mark_relocations, mark_code] at hbytes
  exact ⟨hfits, hbytes, hwords⟩

/-- The bytes of a part that follows others, if none of them waits for an address. -/
theorem bytesAt (h : f.Placed code base loop) {start : Nat} {bs : List UInt8}
    (hsub : start + bs.length ≤ f.size) (hbs : ∀ k < bs.length, f.code[start + k]? = bs[k]?)
    (hfixed : ∀ k < bs.length, f.Fixed (start + k)) : BytesAt code (base + start) bs := by
  rw [bytesAt_iff]
  intro k hk
  rw [Nat.add_assoc, h.bytes (start + k) (by omega) (hfixed k hk), hbs k hk]

theorem emit {i : Instruction} (hf : f.Tidy) (h : (f.emit i).Placed code base loop) :
    f.Placed code base loop ∧ Instruction.decode code (base + f.size) = .instruction i := by
  have hsize : (f.emit i).size = f.size + i.encode.length := by rw [size_emit, i.length_encode]
  have hcode : ∀ k, (f.emit i).code[k]? =
      if k < f.size then f.code[k]? else i.encode[k - f.size]? := fun k =>
    getElem?_append_toArray f.code i.encode k
  refine ⟨⟨?_, fun k hk hfix => ?_, h.words⟩, ?_⟩
  · have := h.fits
    omega
  · rw [h.bytes k (by omega) hfix, hcode, if_pos hk]
  · refine Instruction.decode_of_bytesAt (h.bytesAt (by omega) (fun k _ => ?_) fun k _ r hr => ?_)
    · rw [hcode, if_neg (by omega), show f.size + k - f.size = k by omega]
    · have := hf.inside r hr
      omega

theorem emitAt {i : Instruction} {span : Span} (hf : f.Tidy)
    (h : (f.emitAt i span).Placed code base loop) :
    f.Placed code base loop ∧ Instruction.decode code (base + f.size) = .instruction i := by
  obtain ⟨hm, hi⟩ := emit (hf.mark span) h
  rw [size_mark] at hi
  exact ⟨hm.mark, hi⟩

theorem emitJump {kind : JumpKind} {target : JumpTarget} (hf : f.Tidy)
    (h : (f.emitJump kind target).Placed code base loop) :
    f.Placed code base loop ∧ Instruction.decode code (base + f.size) =
      .instruction (kind.jump (UInt32.ofNat (target.address base loop))) := by
  have hrel : (f.emitJump kind target).relocations.toList =
      f.relocations.toList ++ [⟨f.size + 1, target⟩] := by
    simp only [Fragment.emitJump, Array.toList_push]
  have hcode : ∀ k, (f.emitJump kind target).code[k]? = if k < f.size then f.code[k]?
      else [kind.opcode.toByte, 0, 0, 0, 0][k - f.size]? := fun k =>
    getElem?_append_toArray f.code _ k
  have hsize := size_emitJump f kind target
  rw [jumpWidth] at hsize
  have hfits := h.fits
  refine ⟨⟨by omega, fun k hk hfix => ?_, fun r hr => ?_⟩, ?_⟩
  · rw [h.bytes k (by omega) ?_, hcode, if_pos hk]
    intro r hr
    rw [hrel, List.mem_append, List.mem_singleton] at hr
    rcases hr with hr | rfl
    · exact hfix r hr
    · change ¬ (f.size + 1 ≤ k ∧ _)
      omega
  · refine h.words r ?_
    rw [hrel]
    exact List.mem_append_left _ hr
  · refine JumpKind.decode_jump ?_ (h.words ⟨f.size + 1, target⟩ ?_)
    · rw [h.bytes f.size (by omega) ?_, hcode, if_neg (by omega), Nat.sub_self]
      · rfl
      · intro r hr
        rw [hrel, List.mem_append, List.mem_singleton] at hr
        rcases hr with hr | rfl
        · have := hf.inside r hr
          omega
        · change ¬ (f.size + 1 ≤ f.size ∧ _)
          omega
    · rw [hrel]
      exact List.mem_append_right _ List.mem_cons_self

theorem append (hf : f.Tidy) (h : (f ++ g).Placed code base loop) :
    f.Placed code base loop ∧ g.Placed code (base + f.size) loop := by
  have hrel : (f ++ g).relocations.toList = f.relocations.toList ++
      g.relocations.toList.map fun r => ⟨r.site + f.size, r.target.shift f.size⟩ := by
    change (f.relocations ++ g.relocations.map _).toList = _
    rw [Array.toList_append, Array.toList_map]
  have hcode : ∀ k, (f ++ g).code[k]? = if k < f.size then f.code[k]? else g.code[k - f.size]? :=
    fun k => by
      change (f.code ++ g.code)[k]? = _
      rw [Array.getElem?_append]
      rfl
  have hsize := size_append f g
  have hfits := h.fits
  have hfixed : ∀ k, (f ++ g).Fixed k ↔ f.Fixed k ∧ ∀ r ∈ g.relocations.toList,
      ¬ (r.site + f.size ≤ k ∧ k < r.site + f.size + 4) := by
    intro k
    unfold Fixed
    rw [hrel]
    constructor
    · refine fun h => ⟨fun r hr => h r (List.mem_append_left _ hr), fun r hr => ?_⟩
      exact h _ (List.mem_append_right _ (List.mem_map_of_mem hr))
    · rintro ⟨hf, hg⟩ r hr
      rcases List.mem_append.1 hr with hr | hr
      · exact hf r hr
      · obtain ⟨q, hq, rfl⟩ := List.mem_map.1 hr
        exact hg q hq
  refine ⟨⟨by omega, fun k hk hfix => ?_, fun r hr => ?_⟩, by omega, fun k hk hfix => ?_, fun r hr => ?_⟩
  · rw [h.bytes k (by omega) ((hfixed k).2 ⟨hfix, fun r hr => by omega⟩), hcode, if_pos hk]
  · exact h.words r (by rw [hrel]; exact List.mem_append_left _ hr)
  · rw [Nat.add_assoc, h.bytes (f.size + k) (by omega) ((hfixed _).2 ⟨fun r hr => ?_, fun r hr => ?_⟩),
      hcode, if_neg (by omega), show f.size + k - f.size = k by omega]
    · have := hf.inside r hr
      omega
    · have := hfix r hr
      omega
  · have := h.words ⟨r.site + f.size, r.target.shift f.size⟩
      (by rw [hrel]; exact List.mem_append_right _ (List.mem_map_of_mem hr))
    rw [JumpTarget.address_shift] at this
    rw [Nat.add_assoc, Nat.add_comm f.size, this]

theorem bindLoop {start exit : Nat} (h : (f.bindLoop start exit).Placed code base loop) :
    f.Placed code base ⟨base + exit, base + start⟩ := by
  have hrel : (f.bindLoop start exit).relocations.toList =
      f.relocations.toList.map (bound start exit) := by
    rw [bindLoop_relocations, Array.toList_map]
  refine ⟨h.fits, fun k hk hfix => h.bytes k hk fun r hr => ?_, fun r hr => ?_⟩
  · rw [hrel] at hr
    obtain ⟨q, hq, rfl⟩ := List.mem_map.1 hr
    rw [bound_site]
    exact hfix q hq
  · have := h.words (bound start exit r) (by rw [hrel]; exact List.mem_map_of_mem hr)
    rw [bound_site] at this
    rw [this]
    unfold bound
    cases ht : r.target <;> simp only [ht] <;> rfl

/-- Code behind changes nothing. -/
theorem extend (h : f.Placed code base loop) (more : Array UInt8) :
    f.Placed (code ++ more) base loop := by
  have hget : ∀ (k : Nat) (b : UInt8), code[k]? = some b → (code ++ more)[k]? = some b :=
    fun k b hb => by
      rw [Array.getElem?_append_left (Array.getElem?_eq_some_iff.1 hb).1, hb]
  refine ⟨?_, fun k hk hfix => ?_, fun r hr => ?_⟩
  · rw [Array.size_append]
    have := h.fits
    omega
  · have := h.fits
    rw [Array.getElem?_append_left (by omega)]
    exact h.bytes k hk hfix
  · exact wordAt?_of_getElem? hget (h.words r hr)

end Placed

/-! ## Writing addresses -/

@[simp] theorem size_overwrite (code : Array UInt8) (offset : Nat) (bs : List UInt8) :
    (overwrite code offset bs).size = code.size := by
  induction bs generalizing code offset with
  | nil => rfl
  | cons b bs ih => rw [overwrite, ih, Array.size_setIfInBounds]

theorem getElem?_overwrite_of_not (code : Array UInt8) {offset k : Nat} {bs : List UInt8}
    (h : ¬ (offset ≤ k ∧ k < offset + bs.length)) :
    (overwrite code offset bs)[k]? = code[k]? := by
  induction bs generalizing code offset with
  | nil => rfl
  | cons b bs ih =>
    rw [List.length_cons] at h
    rw [overwrite, ih _ (by omega), Array.getElem?_setIfInBounds_ne (by omega)]

theorem bytesAt_overwrite (code : Array UInt8) {offset : Nat} {bs : List UInt8}
    (h : offset + bs.length ≤ code.size) : BytesAt (overwrite code offset bs) offset bs := by
  induction bs generalizing code offset with
  | nil => trivial
  | cons b bs ih =>
    rw [List.length_cons] at h
    rw [overwrite]
    refine ⟨?_, ih _ (by rw [Array.size_setIfInBounds]; omega)⟩
    rw [getElem?_overwrite_of_not _ (by omega), Array.getElem?_setIfInBounds_self_of_lt (by omega)]

/-- What addresses are written into code, and that nothing else is. -/
theorem patch_spec {base : Nat} {code code' : Array UInt8} {rs : List Relocation}
    (h : patch base code rs = .ok code') (hin : ∀ r ∈ rs, r.site + 4 ≤ code.size)
    (hap : rs.Pairwise fun r q => r.site + 4 ≤ q.site) :
    code'.size = code.size ∧
    (∀ k, (∀ r ∈ rs, ¬ (r.site ≤ k ∧ k < r.site + 4)) → code'[k]? = code[k]?) ∧
    ∀ r ∈ rs, ∀ loop, wordAt? code' r.site = some (UInt32.ofNat (r.target.address base loop)) := by
  induction rs generalizing code with
  | nil =>
    cases h
    exact ⟨rfl, fun _ _ => rfl, fun r hr => by cases hr⟩
  | cons r rs ih =>
    obtain ⟨site, target⟩ := r
    cases target with
    | loopExit => cases h
    | loopStart => cases h
    | offset n =>
      rw [patch] at h
      dsimp only at h
      have hlen : (wordBytes (UInt32.ofNat (base + n))).length = 4 := rfl
      obtain ⟨hr, hrs⟩ := List.pairwise_cons.1 hap
      obtain ⟨hsize, hother, hwords⟩ := ih h
        (fun q hq => by rw [size_overwrite]; exact hin q (List.mem_cons_of_mem _ hq)) hrs
      rw [size_overwrite] at hsize
      refine ⟨hsize, fun k hk => ?_, fun q hq loop => ?_⟩
      · rw [hother k fun q hq => hk q (List.mem_cons_of_mem _ hq),
          getElem?_overwrite_of_not _ (hlen ▸ hk _ List.mem_cons_self)]
      · rcases List.mem_cons.1 hq with rfl | hq
        · have hfits : site + 4 ≤ code.size := hin _ List.mem_cons_self
          have hbytes := bytesAt_overwrite code (hlen ▸ hfits)
          have hkept : BytesAt code' site (wordBytes (UInt32.ofNat (base + n))) := by
            refine bytesAt_iff.2 fun k hk => ?_
            rw [← bytesAt_iff.1 hbytes k hk]
            refine hother _ fun p hp => ?_
            have : site + 4 ≤ p.site := hr p hp
            omega
          exact wordAt?_of_bytesAt hkept
        · exact hwords q hq loop

/-- A fragment stands in the code that it is given at its place. -/
theorem placed_of_place {f : Fragment} (hf : f.Tidy) {out : Array UInt8} {p : PlacedCode}
    (h : f.place out.size = .ok p) (loop : LoopAddresses) :
    f.Placed (out ++ p.code) out.size loop ∧ p.code.size = f.size := by
  unfold place at h
  cases hp : patch out.size f.code f.relocations.toList with
  | error r =>
    rw [hp] at h
    cases h
  | ok code =>
    rw [hp] at h
    cases h
    obtain ⟨hsize, hother, hwords⟩ := patch_spec hp hf.inside hf.apart
    have hget : ∀ k, (out ++ code)[out.size + k]? = code[k]? := fun k => by
      rw [Array.getElem?_append_right (by omega), Nat.add_sub_cancel_left]
    refine ⟨⟨?_, fun k _ hfix => ?_, fun r hr => ?_⟩, hsize⟩
    · rw [Array.size_append, hsize]
      exact Nat.le_refl _
    · rw [hget, hother k hfix]
    · rw [← hwords r hr loop]
      simp only [wordAt?, Nat.add_assoc, hget]

end Fragment

end Scriptlet
