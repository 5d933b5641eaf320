import Scriptlet.Proofs.Code.Binding
import Scriptlet.Proofs.Code.RoundTrip

/-!
# Linking

Putting fragments together does not depend on the order in which that is done
(`Fragment.append_assoc`), and code that is put together and then placed is the code of its parts,
each placed where it stands (`Fragment.place_append`). Both hold for the jumps and for the positions
as well.

Fragments are put together by few operations (`Fragment.Built`), and these give every operand that
waits for its address four bytes of its own (`Fragment.Tidy`) behind the operation code of its jump
(`Fragment.Reserved`). So placing a fragment changes these bytes only, and every jump goes to the
offset of its target from where the fragment starts (`Fragment.Resolved`).

Main statement: `Fragment.linking_homomorphic`.
-/

namespace Scriptlet

theorem JumpTarget.shift_shift (j k : Nat) (t : JumpTarget) :
    (t.shift j).shift k = t.shift (j + k) := by
  cases t with
  | offset n => simp [shift, Nat.add_assoc]
  | loopExit => rfl
  | loopStart => rfl

/-- The same relocation after `base` bytes were put in front of the fragment. -/
def Relocation.shift (base : Nat) (r : Relocation) : Relocation :=
  ⟨r.site + base, r.target.shift base⟩

theorem Relocation.shift_shift (j k : Nat) (r : Relocation) :
    (r.shift j).shift k = r.shift (j + k) := by
  simp [shift, JumpTarget.shift_shift, Nat.add_assoc]

theorem JumpKind.encode_jump (kind : JumpKind) (t : UInt32) :
    (kind.jump t).encode = kind.opcode.toByte :: wordBytes t := by
  cases kind <;> rfl

namespace Fragment

variable {a b f g : Fragment}

theorem append_code (f g : Fragment) : (f ++ g).code = f.code ++ g.code := rfl

theorem append_relocations (f g : Fragment) :
    (f ++ g).relocations = f.relocations ++ g.relocations.map (Relocation.shift f.size) := rfl

theorem append_positions (f g : Fragment) :
    (f ++ g).positions = f.positions ++ g.positions.map fun p => (p.1 + f.size, p.2) := rfl

theorem mem_append_relocations {r : Relocation} : r ∈ (f ++ g).relocations.toList ↔
    r ∈ f.relocations.toList ∨ ∃ q ∈ g.relocations.toList, q.shift f.size = r := by
  simp [append_relocations]

/-! ## Putting fragments together -/

theorem append_assoc (f g k : Fragment) : (f ++ g) ++ k = f ++ (g ++ k) := by
  have hcode : ((f ++ g) ++ k).code = (f ++ (g ++ k)).code := by
    simp [append_code]
  have hrelocations : ((f ++ g) ++ k).relocations = (f ++ (g ++ k)).relocations := by
    simp [append_relocations, Function.comp_def, Relocation.shift_shift, Nat.add_comm g.size]
  have hpositions : ((f ++ g) ++ k).positions = (f ++ (g ++ k)).positions := by
    simp [append_positions, Function.comp_def, Nat.add_assoc, Nat.add_comm g.size]
  calc (f ++ g) ++ k
      = ⟨((f ++ g) ++ k).code, ((f ++ g) ++ k).relocations, ((f ++ g) ++ k).positions⟩ := rfl
    _ = ⟨(f ++ (g ++ k)).code, (f ++ (g ++ k)).relocations, (f ++ (g ++ k)).positions⟩ := by
      rw [hcode, hrelocations, hpositions]

/-! ## Placing them -/

theorem overwrite_append_left (code more : Array UInt8) {offset : Nat} {bs : List UInt8}
    (h : offset + bs.length ≤ code.size) :
    overwrite (code ++ more) offset bs = overwrite code offset bs ++ more := by
  induction bs generalizing code offset with
  | nil => rfl
  | cons b bs ih =>
    rw [List.length_cons] at h
    have hset : (code ++ more).setIfInBounds offset b = code.setIfInBounds offset b ++ more := by
      rw [Array.setIfInBounds_append, if_pos (by omega)]
    rw [overwrite, overwrite, hset]
    exact ih _ (by rw [Array.size_setIfInBounds]; omega)

theorem overwrite_append_right (code more : Array UInt8) (offset : Nat) (bs : List UInt8) :
    overwrite (code ++ more) (offset + code.size) bs = code ++ overwrite more offset bs := by
  induction bs generalizing more offset with
  | nil => rfl
  | cons b bs ih =>
    have hset : (code ++ more).setIfInBounds (offset + code.size) b =
        code ++ more.setIfInBounds offset b := by
      rw [Array.setIfInBounds_append, if_neg (by omega), Nat.add_sub_cancel]
    rw [overwrite, overwrite, hset, Nat.add_right_comm]
    exact ih _ _

theorem patch_append (base : Nat) (code : Array UInt8) (rs qs : List Relocation) :
    patch base code (rs ++ qs) = patch base code rs >>= fun code' => patch base code' qs := by
  induction rs generalizing code with
  | nil => rfl
  | cons r rs ih =>
    rw [List.cons_append, patch, patch]
    cases r.target with
    | offset n => exact ih _
    | loopExit => rfl
    | loopStart => rfl

/-- Addresses that are written into the first part of a code. -/
theorem patch_append_left {base : Nat} {code code' : Array UInt8} {rs : List Relocation}
    (h : patch base code rs = .ok code') (hin : ∀ r ∈ rs, r.site + 4 ≤ code.size)
    (more : Array UInt8) : patch base (code ++ more) rs = .ok (code' ++ more) := by
  induction rs generalizing code with
  | nil =>
    cases h
    rfl
  | cons r rs ih =>
    rw [patch] at h ⊢
    cases ht : r.target with
    | loopExit => simp only [ht] at h; cases h
    | loopStart => simp only [ht] at h; cases h
    | offset n =>
      simp only [ht] at h ⊢
      have hlen : (wordBytes (UInt32.ofNat (base + n))).length = 4 := rfl
      rw [overwrite_append_left _ _ (hlen ▸ hin r List.mem_cons_self)]
      refine ih h fun q hq => ?_
      rw [size_overwrite]
      exact hin q (List.mem_cons_of_mem _ hq)

/-- Addresses that are written into the second part of a code, whose place the first part shifts. -/
theorem patch_append_right {base : Nat} {more more' : Array UInt8} {qs : List Relocation}
    (code : Array UInt8) (h : patch (base + code.size) more qs = .ok more') :
    patch base (code ++ more) (qs.map (Relocation.shift code.size)) = .ok (code ++ more') := by
  induction qs generalizing more with
  | nil =>
    cases h
    rfl
  | cons q qs ih =>
    rw [List.map_cons, patch]
    rw [patch] at h
    cases ht : q.target with
    | loopExit => simp only [ht] at h; cases h
    | loopStart => simp only [ht] at h; cases h
    | offset n =>
      simp only [ht] at h
      simp only [Relocation.shift, ht, JumpTarget.shift]
      rw [overwrite_append_right, show base + (n + code.size) = base + code.size + n by omega]
      exact ih h

theorem place_eq_ok_iff {base : Nat} {p : PlacedCode} : f.place base = .ok p ↔
    patch base f.code f.relocations.toList = .ok p.code ∧
      p.positions = f.positions.map fun q => (q.1 + base, q.2) := by
  unfold place
  cases patch base f.code f.relocations.toList with
  | error r => simp
  | ok code =>
    obtain ⟨code', positions⟩ := p
    simp [eq_comm]

/-- Code that is put together and then placed is the code of its parts, each at its place. -/
theorem place_append {base : Nat} {p q : PlacedCode} (ha : a.Tidy) (hp : a.place base = .ok p)
    (hq : b.place (base + a.size) = .ok q) :
    (a ++ b).place base = .ok ⟨p.code ++ q.code, p.positions ++ q.positions⟩ := by
  obtain ⟨hpc, hpp⟩ := place_eq_ok_iff.1 hp
  obtain ⟨hqc, hqp⟩ := place_eq_ok_iff.1 hq
  have hsize : p.code.size = a.size := (patch_spec hpc ha.inside ha.apart).1
  refine place_eq_ok_iff.2 ⟨?_, ?_⟩
  · rw [append_relocations, Array.toList_append, Array.toList_map, patch_append, append_code,
      patch_append_left hpc ha.inside]
    rw [← hsize] at hqc ⊢
    exact patch_append_right _ hqc
  · rw [append_positions, hpp, hqp]
    simp [Function.comp_def, Nat.add_assoc, Nat.add_comm base]

/-! ## Fragments that are built -/

/-- What the operations on fragments make. -/
inductive Built : Fragment → Prop
  | empty : Built empty
  | emit {f : Fragment} (i : Instruction) (h : Built f) : Built (f.emit i)
  | emitAt {f : Fragment} (i : Instruction) (span : Span) (h : Built f) : Built (f.emitAt i span)
  | emitJump {f : Fragment} (kind : JumpKind) (target : JumpTarget) (h : Built f) :
    Built (f.emitJump kind target)
  | mark {f : Fragment} (span : Span) (h : Built f) : Built (f.mark span)
  | append {f g : Fragment} (hf : Built f) (hg : Built g) : Built (f ++ g)
  | bindLoop {f : Fragment} (start exit : Nat) (h : Built f) : Built (f.bindLoop start exit)

theorem Built.tidy (h : Built f) : f.Tidy := by
  induction h with
  | empty => exact tidy_empty
  | emit i _ ih => exact ih.emit i
  | emitAt i span _ ih => exact ih.emitAt i span
  | emitJump kind target _ ih => exact ih.emitJump kind target
  | mark span _ ih => exact ih.mark span
  | append _ _ ihf ihg => exact ihf.append ihg
  | bindLoop start exit _ ih => exact ih.bindLoop start exit

/-- The operation code of a jump stands at an offset, and its operand is still empty. -/
def Blank (code : Array UInt8) (offset : Nat) (kind : JumpKind) : Prop :=
  BytesAt code offset [kind.opcode.toByte, 0, 0, 0, 0]

/-- Every operand that waits for its address is the empty operand of a jump. -/
def Reserved (f : Fragment) : Prop :=
  ∀ r ∈ f.relocations.toList, ∃ offset kind, r.site = offset + 1 ∧ Blank f.code offset kind

theorem bytesAt_append_left {code : Array UInt8} {offset : Nat} {bs : List UInt8}
    (h : BytesAt code offset bs) (more : Array UInt8) : BytesAt (code ++ more) offset bs := by
  rw [bytesAt_iff] at h ⊢
  intro k hk
  have hb := (h k hk).trans (List.getElem?_eq_getElem hk)
  rw [Array.getElem?_append_left (Array.getElem?_eq_some_iff.1 hb).1, h k hk]

theorem bytesAt_append_right {more : Array UInt8} {offset : Nat} {bs : List UInt8}
    (code : Array UInt8) (h : BytesAt more offset bs) :
    BytesAt (code ++ more) (offset + code.size) bs := by
  rw [bytesAt_iff] at h ⊢
  intro k hk
  rw [Array.getElem?_append_right (by omega),
    show offset + code.size + k - code.size = offset + k by omega, h k hk]

theorem blank_append_jump (code : Array UInt8) (kind : JumpKind) :
    Blank (code ++ #[kind.opcode.toByte, 0, 0, 0, 0]) code.size kind := by
  have hnew : Blank #[kind.opcode.toByte, 0, 0, 0, 0] 0 kind := ⟨rfl, rfl, rfl, rfl, rfl, trivial⟩
  have h := bytesAt_append_right code hnew
  rw [Nat.zero_add] at h
  exact h

namespace Reserved

theorem mark (h : f.Reserved) (span : Span) : (f.mark span).Reserved := by
  unfold Reserved
  rw [mark_relocations, mark_code]
  exact h

theorem emit (h : f.Reserved) (i : Instruction) : (f.emit i).Reserved := by
  intro r hr
  obtain ⟨offset, kind, hsite, hblank⟩ := h r hr
  exact ⟨offset, kind, hsite, bytesAt_append_left hblank _⟩

theorem emitJump (h : f.Reserved) (kind : JumpKind) (target : JumpTarget) :
    (f.emitJump kind target).Reserved := by
  intro r hr
  simp only [Fragment.emitJump, Array.toList_push, List.mem_append, List.mem_singleton] at hr
  rcases hr with hr | rfl
  · obtain ⟨offset, k, hsite, hblank⟩ := h r hr
    exact ⟨offset, k, hsite, bytesAt_append_left hblank _⟩
  · exact ⟨f.size, kind, rfl, blank_append_jump f.code kind⟩

theorem append (hf : f.Reserved) (hg : g.Reserved) : (f ++ g).Reserved := by
  intro r hr
  rcases mem_append_relocations.1 hr with hr | ⟨q, hq, rfl⟩
  · obtain ⟨offset, kind, hsite, hblank⟩ := hf r hr
    exact ⟨offset, kind, hsite, bytesAt_append_left hblank _⟩
  · obtain ⟨offset, kind, hsite, hblank⟩ := hg q hq
    refine ⟨offset + f.size, kind, ?_, bytesAt_append_right f.code hblank⟩
    simp only [Relocation.shift, hsite]
    omega

theorem bindLoop (h : f.Reserved) (start exit : Nat) : (f.bindLoop start exit).Reserved := by
  intro r hr
  rw [bindLoop_relocations, Array.toList_map, List.mem_map] at hr
  obtain ⟨q, hq, rfl⟩ := hr
  rw [bound_site]
  exact h q hq

end Reserved

theorem Built.reserved (h : Built f) : f.Reserved := by
  induction h with
  | empty => exact fun r hr => by cases hr
  | emit i _ ih => exact ih.emit i
  | emitAt i span _ ih => exact (ih.mark span).emit i
  | emitJump kind target _ ih => exact ih.emitJump kind target
  | mark span _ ih => exact ih.mark span
  | append _ _ ihf ihg => exact ihf.append ihg
  | bindLoop start exit _ ih => exact ih.bindLoop start exit

/-! ## What placing changes -/

/-- Code is that of a fragment at `base`: the operands that waited for their addresses lie in the
fragment, each in bytes of its own, and have the addresses of their targets, which are `base` and
the offset of the target; all other bytes are as they were. -/
structure Resolved (f : Fragment) (base : Nat) (code : Array UInt8) : Prop where
  size : code.size = f.size
  inside : ∀ r ∈ f.relocations.toList, r.site + 4 ≤ f.size
  apart : f.relocations.toList.Pairwise fun r q => r.site + 4 ≤ q.site
  kept : ∀ k, f.Fixed k → code[k]? = f.code[k]?
  jumps : ∀ r ∈ f.relocations.toList, ∃ n offset kind, r.target = .offset n ∧
    r.site = offset + 1 ∧ Blank f.code offset kind ∧
    BytesAt code offset (kind.jump (UInt32.ofNat (base + n))).encode

/-- The operation code of a jump is no part of an operand: those are still empty. -/
theorem Reserved.fixed (h : f.Reserved) {offset : Nat} {kind : JumpKind}
    (hblank : Blank f.code offset kind) : f.Fixed offset := by
  intro r hr ⟨hle, hlt⟩
  obtain ⟨start, k, hsite, -, h₀, h₁, h₂, h₃, -⟩ := h r hr
  have hzero : f.code[offset]? = some 0 := by
    obtain rfl | rfl | rfl | rfl : offset = start + 1 ∨ offset = start + 1 + 1 ∨
        offset = start + 1 + 1 + 1 ∨ offset = start + 1 + 1 + 1 + 1 := by omega
    · exact h₀
    · exact h₁
    · exact h₂
    · exact h₃
  have hop : f.code[offset]? = some kind.opcode.toByte := hblank.1
  rw [hzero] at hop
  cases kind <;> cases hop

theorem resolved_of_place {base : Nat} {p : PlacedCode} (ht : f.Tidy) (hr : f.Reserved)
    (hb : f.Bound) (h : f.place base = .ok p) : f.Resolved base p.code := by
  obtain ⟨hpatch, -⟩ := place_eq_ok_iff.1 h
  obtain ⟨hsize, hkept, hwords⟩ := patch_spec hpatch ht.inside ht.apart
  refine ⟨hsize, ht.inside, ht.apart, hkept, fun r hmem => ?_⟩
  obtain ⟨n, htarget⟩ := hb r hmem
  obtain ⟨offset, kind, hsite, hblank⟩ := hr r hmem
  refine ⟨n, offset, kind, htarget, hsite, hblank, ?_⟩
  have hword := hwords r hmem ⟨0, 0⟩
  rw [htarget, hsite] at hword
  rw [kind.encode_jump]
  refine ⟨?_, bytesAt_of_wordAt? hword⟩
  rw [hkept offset (hr.fixed hblank)]
  exact hblank.1

/-- Putting fragments together is associative. Where no jump of two fragments waits for its loop,
both can be placed anywhere one behind the other, what is put together and then placed is what they
are placed to, and in it every jump goes to `base` and the offset of its target in the whole, modulo
2 ^ 32, and no other byte has changed. -/
theorem linking_homomorphic {a b : Fragment} (ha : Built a) (hb : Built b) (c : Fragment) :
    (a ++ b) ++ c = a ++ (b ++ c) ∧
    (a.Bound → b.Bound → ∀ base, ∃ p q, a.place base = .ok p ∧ b.place (base + a.size) = .ok q ∧
      (a ++ b).place base = .ok ⟨p.code ++ q.code, p.positions ++ q.positions⟩ ∧
      (a ++ b).Resolved base (p.code ++ q.code)) := by
  refine ⟨append_assoc a b c, fun hba hbb base => ?_⟩
  obtain ⟨p, hp⟩ := hba.place_ok base
  obtain ⟨q, hq⟩ := hbb.place_ok (base + a.size)
  have hwhole := place_append ha.tidy hp hq
  have hab := ha.append hb
  exact ⟨p, q, hp, hq, hwhole, resolved_of_place hab.tidy hab.reserved (hba.append hbb) hwhole⟩

/-- A loop that leaves itself, behind a jump over an instruction, at the end of the addresses. -/
theorem linking_homomorphic_looping :
    let a := ((empty.emitAt .pushTrue ⟨0, 4, 1, 1⟩).emitJump .ifFalse (.offset 7)).emit .drop
    let b := ((empty.emit .pushNull).emitJump .always .loopExit).bindLoop 0 6
    (a.Bound ∧ b.Bound) ∧ ∃ p q, a.place (2 ^ 32 - 10) = .ok p ∧ b.place (2 ^ 32 - 3) = .ok q ∧
      (a ++ b).place (2 ^ 32 - 10) = .ok ⟨p.code ++ q.code, p.positions ++ q.positions⟩ ∧
      (a ++ b).Resolved (2 ^ 32 - 10) (p.code ++ q.code) := by
  intro a b
  have ha : Built a := ((Built.empty.emitAt _ _).emitJump _ _).emit _
  have hb : Built b := ((Built.empty.emit _).emitJump _ _).bindLoop _ _
  have hba : a.Bound := (bound_empty.emitAt _ _).emitJump _ _ |>.emit _
  have hbb : b.Bound := bound_bindLoop _ _ _
  exact ⟨⟨hba, hbb⟩, (linking_homomorphic ha hb .empty).2 hba hbb _⟩

end Fragment

end Scriptlet
