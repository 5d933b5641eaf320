import Mathlib.Data.List.Forall2
import Mathlib.Tactic.Choose
import Scriptlet.Proofs.Code.Stretches

/-!
# How a compiled program is laid out

`Bytecode.bodies` cuts the code of a program at the offsets of its function table: the main program
first, then a body for every function. In compiled code each of these bodies consists of whole
instructions, the last of which ends the body, and which jump inside of it only (`Body.Laid`); and
`Bytecode.functionAt?` finds the function whose body an offset is in.

Main statement: `Program.well_laid`.
-/

namespace Scriptlet

/-! ## Bodies -/

/-- A range of code that belongs to a function, or else to the main program. -/
structure Body where
  owner : Option FunctionEntry
  start : Nat
  stop : Nat

namespace Bytecode

/-- The bodies of code up to `size`: the first one starts at an offset, the others are those of the
functions of a table. -/
def bodiesFrom (size : Nat) (owner : Option FunctionEntry) (start : Nat) :
    List FunctionEntry → List Body
  | [] => [⟨owner, start, size⟩]
  | f :: fs => ⟨owner, start, f.offset⟩ :: bodiesFrom size (some f) f.offset fs

/-- The bodies of a program: the main program, and its functions in the order of their table. -/
def bodies (b : Bytecode) : List Body := bodiesFrom b.size none 0 b.functions.toList

variable {size start offset : Nat} {owner : Option FunctionEntry} {fs : List FunctionEntry}

/-- Bodies that are not empty start one behind the other. -/
theorem ascending_bodiesFrom (h : ∀ x ∈ bodiesFrom size owner start fs, x.start < x.stop) :
    (start :: fs.map FunctionEntry.offset).Pairwise (· < ·) := by
  induction fs generalizing owner start with
  | nil => exact List.pairwise_singleton _ _
  | cons f fs ih =>
    have hrest := ih fun x hx => h x (List.mem_cons_of_mem _ hx)
    have hfirst : start < f.offset := h _ List.mem_cons_self
    refine List.pairwise_cons.2 ⟨fun n hn => ?_, hrest⟩
    rcases List.mem_cons.1 hn with rfl | hn
    · exact hfirst
    · exact Nat.lt_trans hfirst ((List.pairwise_cons.1 hrest).1 n hn)

theorem start_le_of_mem_bodiesFrom
    (h : (start :: fs.map FunctionEntry.offset).Pairwise (· < ·)) {x : Body}
    (hx : x ∈ bodiesFrom size owner start fs) : start ≤ x.start := by
  induction fs generalizing owner start with
  | nil =>
    cases List.mem_singleton.1 hx
    exact Nat.le_refl _
  | cons f fs ih =>
    obtain ⟨hlt, hrest⟩ := List.pairwise_cons.1 h
    rcases List.mem_cons.1 hx with rfl | hx
    · exact Nat.le_refl _
    · exact Nat.le_trans (Nat.le_of_lt (hlt _ List.mem_cons_self)) (ih hrest hx)

/-- Every offset is in a body. -/
theorem exists_mem_bodiesFrom (hlo : start ≤ offset) (hhi : offset < size) :
    ∃ x ∈ bodiesFrom size owner start fs, x.start ≤ offset ∧ offset < x.stop := by
  induction fs generalizing owner start with
  | nil => exact ⟨_, List.mem_cons_self, hlo, hhi⟩
  | cons f fs ih =>
    obtain h | h := Nat.lt_or_ge offset f.offset
    · exact ⟨_, List.mem_cons_self, hlo, h⟩
    · have hrest : ∃ x ∈ bodiesFrom size (some f) f.offset fs, x.start ≤ offset ∧ offset < x.stop :=
        ih h
      obtain ⟨x, hx, hin⟩ := hrest
      exact ⟨x, List.mem_cons_of_mem _ hx, hin⟩

theorem exists_mem_bodiesFrom_start (size : Nat) (owner : Option FunctionEntry) (start : Nat)
    (fs : List FunctionEntry) : ∃ x ∈ bodiesFrom size owner start fs, x.start = start := by
  cases fs with
  | nil => exact ⟨_, List.mem_cons_self, rfl⟩
  | cons f fs => exact ⟨_, List.mem_cons_self, rfl⟩

/-- Every function has a body. -/
theorem exists_mem_bodiesFrom_of_mem {f : FunctionEntry} (hf : f ∈ fs) :
    ∃ x ∈ bodiesFrom size owner start fs, x.start = f.offset := by
  induction fs generalizing owner start with
  | nil => cases hf
  | cons g fs ih =>
    have hrest : ∃ x ∈ bodiesFrom size (some g) g.offset fs, x.start = f.offset := by
      rcases List.mem_cons.1 hf with rfl | hf
      · exact exists_mem_bodiesFrom_start _ _ _ _
      · exact ih hf
    obtain ⟨x, hx, hstart⟩ := hrest
    exact ⟨x, List.mem_cons_of_mem _ hx, hstart⟩

/-! ## The function of an offset -/

/-- The function that starts later, if it starts at or before an offset. -/
def later (offset : Nat) (best : Option FunctionEntry) (f : FunctionEntry) : Option FunctionEntry :=
  if f.offset ≤ offset then
    match best with
    | some g => if g.offset ≤ f.offset then some f else some g
    | none => some f
  else best

theorem functionAt?_eq (b : Bytecode) (offset : Nat) :
    b.functionAt? offset = b.functions.toList.foldl (later offset) none := by
  rw [functionAt?, ← Array.foldl_toList]
  rfl

theorem foldl_later_of_lt (h : ∀ f ∈ fs, offset < f.offset) (best : Option FunctionEntry) :
    fs.foldl (later offset) best = best := by
  induction fs with
  | nil => rfl
  | cons f fs ih =>
    have hf := h f List.mem_cons_self
    have hstep : later offset best f = best := if_neg (by omega)
    rw [List.foldl_cons, hstep, ih fun g hg => h g (List.mem_cons_of_mem _ hg)]

/-- Of functions that ascend, the one whose body an offset is in starts last before it. -/
theorem foldl_later_eq (h : (start :: fs.map FunctionEntry.offset).Pairwise (· < ·))
    (howner : ∀ g ∈ owner, g.offset = start) {x : Body} (hx : x ∈ bodiesFrom size owner start fs)
    (hlo : x.start ≤ offset) (hhi : offset < x.stop) :
    fs.foldl (later offset) owner = x.owner := by
  induction fs generalizing owner start with
  | nil =>
    cases List.mem_singleton.1 hx
    rfl
  | cons f fs ih =>
    obtain ⟨hlt, hrest⟩ := List.pairwise_cons.1 h
    rcases List.mem_cons.1 hx with rfl | hx
    · -- the offset is in the first body, so all functions start behind it
      refine foldl_later_of_lt (fun g hg => ?_) _
      rcases List.mem_cons.1 hg with rfl | hg
      · exact hhi
      · exact Nat.lt_trans hhi
          ((List.pairwise_cons.1 hrest).1 _ (List.mem_map_of_mem hg))
    · -- it is in a later one, so the first function is the best one so far
      have hstart := start_le_of_mem_bodiesFrom hrest hx
      have hf : start < f.offset := hlt _ List.mem_cons_self
      have hstep : later offset owner f = some f := by
        unfold later
        rw [if_pos (by omega)]
        cases owner with
        | none => rfl
        | some g =>
          have := howner g rfl
          exact if_pos (by omega)
      rw [List.foldl_cons, hstep]
      exact ih hrest (fun g hg => by cases hg; rfl) hx

/-- If no body is empty, the function of an offset is the one whose body it is in. -/
theorem functionAt?_of_mem {b : Bytecode} (h : ∀ x ∈ b.bodies, x.start < x.stop) {x : Body}
    (hx : x ∈ b.bodies) (hlo : x.start ≤ offset) (hhi : offset < x.stop) :
    b.functionAt? offset = x.owner := by
  rw [functionAt?_eq]
  exact foldl_later_eq (ascending_bodiesFrom h) (fun g hg => by cases hg) hx hlo hhi

end Bytecode

/-! ## Bodies in code -/

/-- An instruction that ends a body: the main program halts, and functions give back control. -/
def Body.EndsIn (x : Body) (i : Instruction) : Prop :=
  match x.owner with
  | none => i = .halt
  | some _ => i = .ret ∨ i = .retValue

/-- A body consists of instructions of which the last one ends it, and which jump to each other
only; the functions and types that they name are there. -/
structure Body.Laid (b : Bytecode) (x : Body) (is : List (Nat × Instruction)) : Prop where
  reads : Reads b.code x.start x.stop is
  ends : ∃ q i, is.getLast? = some (q, i) ∧ x.EndsIn i
  sound : ∀ q i, (q, i) ∈ is → i.Sound b fun t => ∃ j, (t, j) ∈ is

theorem Body.Laid.start_lt_stop {b : Bytecode} {x : Body} {is : List (Nat × Instruction)}
    (h : x.Laid b is) : x.start < x.stop := by
  obtain ⟨q, i, hlast, -⟩ := h.ends
  obtain ⟨hlo, hhi, -⟩ := h.reads.of_mem (List.mem_of_getLast? hlast)
  have := i.width_pos
  omega

/-- A range of whole instructions, the last of which is of some kind. -/
def ClosedBy (code : Array UInt8) (lo hi : Nat) (E : Instruction → Prop) : Prop :=
  ∃ is q i, Reads code lo q is ∧ Instruction.decode code q = .instruction i ∧ q + i.width = hi ∧ E i

theorem ClosedBy.lt {code : Array UInt8} {lo hi : Nat} {E : Instruction → Prop}
    (h : ClosedBy code lo hi E) : lo < hi := by
  obtain ⟨is, q, i, hr, -, rfl, -⟩ := h
  have := i.width_pos
  have := hr.le
  omega

theorem ClosedBy.append {code : Array UInt8} {lo mid hi : Nat} {E : Instruction → Prop}
    {is : List (Nat × Instruction)} (hr : Reads code lo mid is) (h : ClosedBy code mid hi E) :
    ClosedBy code lo hi E := by
  obtain ⟨js, q, i, hr', h⟩ := h
  exact ⟨is ++ js, q, i, hr.append hr', h⟩

/-- A stretch without exits, together with its end. -/
theorem Body.exists_laid {b : Bytecode} {x : Body} (h : Stretch b x.start x.stop fun _ => False)
    (he : ClosedBy b.code x.start x.stop x.EndsIn) : ∃ is, x.Laid b is := by
  obtain ⟨is, hr, hs⟩ := h
  obtain ⟨js, q, i, hr', hd, hstop, hE⟩ := he
  have hall : is = js ++ [(q, i)] := hr.unique (hstop ▸ hr'.append (.single hd))
  refine ⟨is, hr, ⟨q, i, ?_, hE⟩, fun q i hq => (hs _ hq).mono fun t ht => ht.resolve_right id⟩
  rw [hall, List.getLast?_concat]

namespace Compile

variable {env : Env} {b : Bytecode} {sc : Scope} {f : Fragment} {base : Nat} {loop : LoopAddresses}

/-- Code outside of loops with an instruction behind it. -/
theorem emit_closed (hb : Linked env b) {ss : List Stmt} {last : Scope} {i : Instruction}
    {E : Instruction → Prop} (h : stmts env sc ss = .ok (f, last)) (hsc : sc.outerSlots? = none)
    (hp : (f.emit i).Placed b.code base ⟨0, 0⟩) (hi : i.Sound b fun _ => False) (hE : E i) :
    (Stretch b base (base + (f.emit i).size) fun _ => False) ∧
      ClosedBy b.code base (base + (f.emit i).size) E := by
  obtain ⟨hps, hd⟩ := hp.emit (stmts_tidy h)
  have hbody : Stretch b base (base + f.size) fun t => t = base + f.size ∨ False :=
    stmts_stretch hb h (Nat.zero_le _) (Nat.zero_le _) hps
      ⟨.inl rfl, fun hl => by rw [hsc] at hl; cases hl⟩
  have hwidth := i.width_pos
  rw [Fragment.size_emit, ← Nat.add_assoc]
  refine ⟨hbody.seq (.single hd hi) (.inl (by omega)), ?_⟩
  obtain ⟨is, hr, -⟩ := hbody
  exact ⟨is, _, i, hr, hd, rfl, hE⟩

theorem giveBack_closed (hb : Linked env b) {value : Option Expr} {span : Span} {next : Scope}
    (h : stmt env sc (.giveBack value span) = .ok (f, next)) (hp : f.Placed b.code base loop) :
    (Stretch b base (base + f.size) fun _ => False) ∧
      ClosedBy b.code base (base + f.size) fun i => i = .ret ∨ i = .retValue := by
  cases stmt_code h with
  | giveBack =>
    obtain ⟨-, hd⟩ := hp.emit (Fragment.tidy_empty.mark span)
    rw [Fragment.size_mark] at hd
    rw [Fragment.size_emit, Fragment.size_mark]
    exact ⟨.single hd trivial, [], base, .ret, .nil _, hd, rfl, .inl rfl⟩
  | giveBackValue he =>
    obtain ⟨hpe, hd⟩ := hp.emit ((Fragment.tidy_empty.mark span).append (expr_tidy he))
    have hvalue := marked_stretch (X := fun _ => False) hb he hpe
    refine ⟨hvalue.emit hd trivial, ?_⟩
    obtain ⟨is, hr, -⟩ := hvalue
    rw [Fragment.size_emit, ← Nat.add_assoc]
    exact ⟨is, _, .retValue, hr, hd, rfl, .inr rfl⟩

/-- Statements outside of loops that end with a return. -/
theorem stmts_closed (hb : Linked env b) {ss : List Stmt} {last : Scope}
    (h : stmts env sc ss = .ok (f, last)) (hr : endsWithReturn ss = true)
    (hsc : sc.outerSlots? = none) (hp : f.Placed b.code base ⟨0, 0⟩) :
    (Stretch b base (base + f.size) fun _ => False) ∧
      ClosedBy b.code base (base + f.size) fun i => i = .ret ∨ i = .retValue := by
  induction ss generalizing sc f base with
  | nil => cases hr
  | cons s ss ih =>
    obtain ⟨fs, next, fss, hst, hss, rfl⟩ := stmts_cons h
    obtain ⟨hps, hpss⟩ := hp.append (stmt_tidy hst)
    rw [Fragment.size_append, ← Nat.add_assoc]
    cases ss with
    | nil =>
      rw [stmts] at hss
      cases hss
      cases s with
      | giveBack => exact giveBack_closed hb hst hps
      | _ => cases hr
    | cons t ss =>
      rw [endsWithReturn_cons] at hr
      obtain ⟨hrest, hend⟩ := ih hss hr (by rw [stmt_outerSlots? hst, hsc]) hpss
      have hfirst := stmt_stretch (X := fun t => t = base + fs.size ∨ False) hb hst hps (Nat.zero_le _)
        (Nat.zero_le _) ⟨.inl rfl, fun hl => by rw [hsc] at hl; cases hl⟩
      refine ⟨hfirst.seq hrest (.inl hend.lt), ?_⟩
      obtain ⟨is, hr, -⟩ := hfirst
      exact hend.append hr

theorem main_laid (hb : Linked env b) {ss : List Stmt} (h : mainBody env ss = .ok f)
    (hp : f.Placed b.code 0 ⟨0, 0⟩) : ∃ is, Body.Laid b ⟨none, 0, f.size⟩ is := by
  unfold mainBody at h
  obtain ⟨⟨fm, last⟩, hm, h⟩ := of_bind_ok h
  cases h
  obtain ⟨hs, he⟩ := emit_closed (E := (· = .halt)) hb hm rfl hp trivial rfl
  rw [Nat.zero_add] at hs he
  exact Body.exists_laid hs he

theorem function_laid (hb : Linked env b) {d : Function} (h : functionBody env d = .ok f)
    (hp : f.Placed b.code base ⟨0, 0⟩) (e : FunctionEntry) :
    ∃ is, Body.Laid b ⟨some e, base, base + f.size⟩ is := by
  obtain ⟨sc, fb, last, hparams, hbody, rfl⟩ := functionBody_ok h
  obtain ⟨-, -, houter⟩ := declareParams_ok hparams Scope.sound_function
  have hclosed : (Stretch b base (base + (if endsWithReturn d.body then fb else fb.emit .ret).size)
      fun _ => False) ∧ ClosedBy b.code base
        (base + (if endsWithReturn d.body then fb else fb.emit .ret).size)
        fun i => i = .ret ∨ i = .retValue := by
    split at hp
    · next hr =>
      rw [if_pos hr]
      exact stmts_closed hb hbody hr houter hp
    · next hr =>
      rw [if_neg hr]
      exact emit_closed hb hbody houter hp trivial (.inl rfl)
  exact Body.exists_laid hclosed.1 hclosed.2

/-! ## Linked bodies -/

/-- The code of functions stands behind other code, one body after the other. -/
inductive Follows (env : Env) (final : Array UInt8) : Array UInt8 → List Function → Prop
  | nil : Follows env final final []
  | cons {code : Array UInt8} {d : Function} {ds : List Function} {f : Fragment} {placed : PlacedCode}
    (hf : functionBody env d = .ok f) (hp : f.place code.size = .ok placed)
    (rest : Follows env final (code ++ placed.code) ds) : Follows env final code (d :: ds)

theorem of_link {out next : PlacedCode} (h : link out f = .ok next) :
    ∃ placed, f.place out.code.size = .ok placed ∧ next.code = out.code ++ placed.code := by
  unfold link at h
  split at h
  · next placed hp =>
    cases h
    exact ⟨placed, hp, rfl⟩
  · cases h

theorem follows_of_linkFunctions {ds : List Function} {p q : Prototypes} {out out' : PlacedCode}
    (h : linkFunctions env p out ds = .ok (q, out')) : Follows env out'.code out.code ds := by
  induction ds generalizing p out with
  | nil =>
    rw [linkFunctions] at h
    cases h
    exact .nil
  | cons d ds ih =>
    rw [linkFunctions] at h
    obtain ⟨f, hf, h⟩ := of_bind_ok h
    obtain ⟨next, hnext, h⟩ := of_bind_ok h
    obtain ⟨placed, hp, hcode⟩ := of_link hnext
    exact .cons hf hp (hcode ▸ ih h)

theorem Follows.append {code final : Array UInt8} {ds : List Function}
    (h : Follows env final code ds) : ∃ more, final = code ++ more := by
  induction h with
  | nil => exact ⟨#[], by simp⟩
  | cons _ _ _ ih =>
    obtain ⟨more, rfl⟩ := ih
    exact ⟨_, Array.append_assoc⟩

/-- What a program puts into a body: its main statements, or a function. -/
def bodyCode (env : Env) (p : Program) : Option Function → Except Error Fragment
  | none => mainBody env p.main
  | some d => functionBody env d

/-- A body holds the code of the main statements or of a function, and belongs to it. -/
structure Holds (env : Env) (p : Program) (b : Bytecode) (d : Option Function) (x : Body) : Prop where
  code : ∃ f placed, bodyCode env p d = .ok f ∧ f.place x.start = .ok placed ∧
    b.code.extract x.start x.stop = placed.code
  owner : x.owner = d.map fun d => { functionEntry d with offset := x.start }

theorem Follows.extract {code final : Array UInt8} {placed : PlacedCode} {ds : List Function}
    (h : Follows env final (code ++ placed.code) ds) :
    final.extract code.size (code ++ placed.code).size = placed.code := by
  obtain ⟨more, rfl⟩ := h.append
  simp

/-- Behind a body that holds its code, every function has one that does. -/
theorem holds_bodiesFrom (hb : Linked env b) {p : Program} {ds : List Function} {k start : Nat}
    {owner : Option FunctionEntry} {o : Option Function} {code : Array UInt8}
    (hf : Follows env b.code code ds) (hat : BodiesAt env b.functions b.code k code.size ds)
    (hk : b.functions.size = k + ds.length)
    (hfirst : (∃ is, Body.Laid b ⟨owner, start, code.size⟩ is) ∧
      Holds env p b o ⟨owner, start, code.size⟩) :
    List.Forall₂ (fun d x => (∃ is, x.Laid b is) ∧ Holds env p b d x) (o :: ds.map some)
      (Bytecode.bodiesFrom b.size owner start (b.functions.toList.drop k)) := by
  induction hf generalizing k start owner o with
  | nil =>
    rw [List.drop_eq_nil_of_le (by rw [Array.length_toList, hk]; exact Nat.le_refl _)]
    exact .cons hfirst .nil
  | @cons code d ds f placed hfun hplace rest ih =>
    obtain ⟨f', hentry, hfun', hplaced, hat⟩ := hat
    cases hfun.symm.trans hfun'
    -- the next body is the code of the first function, which stands where this body stops
    have hsize : (code ++ placed.code).size = code.size + f.size := by
      rw [Array.size_append, (Fragment.placed_of_place (functionBody_tidy hfun) hplace ⟨0, 0⟩).2]
    rw [← hsize] at hat
    rw [← Array.getElem?_toList] at hentry
    obtain ⟨hlt, hget⟩ := List.getElem?_eq_some_iff.1 hentry
    rw [List.drop_eq_getElem_cons hlt, hget]
    have hlaid := function_laid hb hfun (hplaced ⟨0, 0⟩) { functionEntry d with offset := code.size }
    rw [← hsize] at hlaid
    refine .cons hfirst (ih hat (by rw [hk, List.length_cons]; omega) ⟨hlaid, ?_, rfl⟩)
    exact ⟨f, placed, hfun, hplace, rest.extract⟩

/-- What is linked when a program is compiled. -/
theorem follows_of_compile {p : Program} {pool : Pool} (h : p.compile pool = .ok b) :
    ∃ prototypes main placed, register p pool = .ok prototypes ∧
      mainBody ⟨pool, prototypes⟩ p.main = .ok main ∧ main.place 0 = .ok placed ∧
      Follows ⟨pool, prototypes⟩ b.code placed.code p.functions := by
  unfold Program.compile at h
  obtain ⟨withTypes, htypes, h⟩ := of_bind_ok h
  obtain ⟨prototypes, hfunctions, h⟩ := of_bind_ok h
  obtain ⟨main, hmain, h⟩ := of_bind_ok h
  obtain ⟨linked, hlinked, h⟩ := of_bind_ok h
  obtain ⟨⟨tables, out⟩, hout, h⟩ := of_bind_ok h
  cases h
  obtain ⟨placed, hplace, hcode⟩ := of_link hlinked
  have hf := follows_of_linkFunctions hout
  rw [hcode, Array.empty_append] at hf
  refine ⟨prototypes, main, placed, ?_, hmain, hplace, hf⟩
  unfold register
  rw [htypes]
  exact hfunctions

theorem Image.env_eq {p : Program} {pool : Pool} {prototypes : Prototypes} (hi : Image p pool b env)
    (h : register p pool = .ok prototypes) : env = ⟨pool, prototypes⟩ := by
  have hsame := hi.registered.symm.trans h
  have htexts := hi.texts
  obtain ⟨pool', prototypes'⟩ := env
  cases htexts
  cases hsame
  rfl

/-- Every body of a compiled program holds its code: the main program first, then the functions in
the order of their declaration. -/
theorem holds_bodies {p : Program} {pool : Pool} (h : p.compile pool = .ok b)
    (hsize : b.size < 2 ^ 32) : ∃ prototypes, register p pool = .ok prototypes ∧
      List.Forall₂ (fun d x => (∃ is, x.Laid b is) ∧ Holds ⟨pool, prototypes⟩ p b d x)
        (none :: p.functions.map some) b.bodies := by
  obtain ⟨prototypes, main, placed, hreg, hmain, hplace, hf⟩ := follows_of_compile h
  obtain ⟨env, hi⟩ := image_of_compile h
  have hb := linked_of_image hi hsize
  obtain rfl := hi.env_eq hreg
  obtain ⟨fm, last, hstmts, hp, hat⟩ := hi.code
  have hbody : mainBody ⟨pool, prototypes⟩ p.main = .ok (fm.emit .halt) := by
    unfold mainBody
    rw [hstmts]
    rfl
  cases hmain.symm.trans hbody
  have hempty : (fm.emit .halt).place (#[] : Array UInt8).size = .ok placed := hplace
  have hlen := (Fragment.placed_of_place ((stmts_tidy hstmts).emit _) hempty ⟨0, 0⟩).2
  have hlaid := main_laid hb hmain (hp ⟨0, 0⟩)
  rw [← hlen] at hat hlaid
  refine ⟨prototypes, hreg, holds_bodiesFrom hb hf hat ?_ ⟨hlaid, ⟨_, placed, hmain, hplace, ?_⟩, rfl⟩⟩
  · rw [hi.size, Nat.zero_add]
  · obtain ⟨more, hmore⟩ := hf.append
    rw [hmore]
    simp

end Compile

/-! ## Laid out code -/

/-- Code that is laid out well. -/
structure Bytecode.WellLaid (b : Bytecode) : Prop where
  /-- Decoding reads the whole code. -/
  whole : Reads b.code 0 b.size b.instructions
  /-- The code is that of the main program, followed by the bodies of the functions. -/
  parts : ∃ part : Body → List (Nat × Instruction), b.instructions = b.bodies.flatMap part ∧
    ∀ x ∈ b.bodies, x.Laid b (part x)
  ascending : (b.functions.toList.map FunctionEntry.offset).Pairwise (· < ·)
  boundaries : ∀ f ∈ b.functions.toList, ∃ i, (f.offset, i) ∈ b.instructions
  covered : ∀ offset < b.size, ∃ x ∈ b.bodies, x.start ≤ offset ∧ offset < x.stop
  found : ∀ x ∈ b.bodies, ∀ offset, x.start ≤ offset → offset < x.stop →
    b.functionAt? offset = x.owner

theorem reads_bodiesFrom {b : Bytecode} {size start : Nat} {owner : Option FunctionEntry}
    {fs : List FunctionEntry} {part : Body → List (Nat × Instruction)}
    (h : ∀ x ∈ Bytecode.bodiesFrom size owner start fs, x.Laid b (part x)) :
    Reads b.code start size ((Bytecode.bodiesFrom size owner start fs).flatMap part) := by
  induction fs generalizing owner start with
  | nil =>
    rw [Bytecode.bodiesFrom, List.flatMap_singleton]
    exact (h _ List.mem_cons_self).reads
  | cons f fs ih =>
    rw [Bytecode.bodiesFrom, List.flatMap_cons]
    exact (h _ List.mem_cons_self).reads.append (ih fun x hx => h x (List.mem_cons_of_mem _ hx))

theorem wellLaid_of_laid {b : Bytecode} (h : ∀ x ∈ b.bodies, ∃ is, x.Laid b is) : b.WellLaid := by
  choose! part hpart using h
  have hreads := reads_bodiesFrom hpart
  have hall : b.instructions = b.bodies.flatMap part := hreads.decodeFrom_eq rfl
  have hne : ∀ x ∈ b.bodies, x.start < x.stop := fun x hx => (hpart x hx).start_lt_stop
  refine ⟨?_, ⟨part, hall, hpart⟩, ?_, fun f hf => ?_, ?_, ?_⟩
  · rw [hall]
    exact hreads
  · exact (List.pairwise_cons.1 (Bytecode.ascending_bodiesFrom hne)).2
  · obtain ⟨x, hx, hstart⟩ := Bytecode.exists_mem_bodiesFrom_of_mem hf
    obtain ⟨i, hi⟩ := (hpart x hx).reads.exists_mem_start (hne x hx)
    refine ⟨i, ?_⟩
    rw [hall, ← hstart]
    exact List.mem_flatMap.2 ⟨x, hx, hi⟩
  · exact fun offset hlt => Bytecode.exists_mem_bodiesFrom (Nat.zero_le _) hlt
  · exact fun x hx offset hlo hhi => Bytecode.functionAt?_of_mem hne hx hlo hhi

open Compile in
/-- Compiled code is laid out well, and consists of the main statements and the functions of the
program, in the order of their declaration. -/
theorem Program.well_laid {p : Program} {pool : Pool} {b : Bytecode} (h : p.compile pool = .ok b)
    (hsize : b.size < 2 ^ 32) : b.WellLaid ∧ ∃ prototypes, register p pool = .ok prototypes ∧
      List.Forall₂ (Holds ⟨pool, prototypes⟩ p b) (none :: p.functions.map some) b.bodies := by
  obtain ⟨prototypes, hreg, hall⟩ := holds_bodies h hsize
  have hlaid := ((List.forall₂_and_left _ _).1 hall.flip).1
  exact ⟨wellLaid_of_laid hlaid, prototypes, hreg, hall.imp fun _ _ => And.right⟩

/-- `func f(x) { while x { break; } return x; }  f(true);` with the names `f` and `x` as symbols. -/
def Program.callingLoop : Program :=
  ⟨[.function ⟨0, [⟨1, .any, {}⟩], none,
      [.loop (.name 1 {}) [.exitLoop {}] {}, .giveBack (some (.name 1 {})) {}], {}⟩ {},
    .expression (.call (.name 0 {}) [.literal (.bool true) {}] {}) {}]⟩

/-- The function starts where the main program ends. -/
theorem Program.well_laid_callingLoop : ∃ b, callingLoop.compile {} = .ok b ∧ b.WellLaid ∧
    b.bodies.map (fun x => (x.start, x.stop)) = [(0, 8), (8, 28)] ∧
    b.functionAt? 7 = none ∧ (b.functionAt? 8).isSome := by
  have hrun : (callingLoop.compile {}).toOption.any (fun b => b.size < 2 ^ 32 ∧
      b.bodies.map (fun x => (x.start, x.stop)) = [(0, 8), (8, 28)] ∧
      b.functionAt? 7 = none ∧ (b.functionAt? 8).isSome) = true := by
    decide +kernel
  cases h : callingLoop.compile {} with
  | error e =>
    rw [h] at hrun
    cases hrun
  | ok b =>
    rw [h] at hrun
    obtain ⟨hsize, hrest⟩ := of_decide_eq_true hrun
    exact ⟨b, rfl, (Program.well_laid h hsize).1, hrest⟩

end Scriptlet
