import Scriptlet.Token.Scan

/-!
# Interning the texts of tokens

Interning keeps where tokens stand, and what they are depends on what they were alone. The pool ends
up with the distinct texts in the order of their first occurrence, and a symbol is the place of its
text among them.

Main statements: `Token.internAll_congr`, `Token.pool_internAll` and `Token.kinds_internAll`.
-/

namespace Scriptlet

namespace Token

variable {pool : Pool} {ts : List (Token String)}

/-- The kind with other texts. -/
def Kind.mapText {τ σ : Type} (f : τ → σ) : Kind τ → Kind σ
  | .literal (.int n) => .literal (.int n)
  | .literal (.uint n) => .literal (.uint n)
  | .literal (.float x) => .literal (.float x)
  | .literal (.char c) => .literal (.char c)
  | .literal (.text t) => .literal (.text (f t))
  | .literal (.bool b) => .literal (.bool b)
  | .literal .null => .literal .null
  | .name t => .name (f t)
  | .keyword word => .keyword word
  | .arrow => .arrow
  | .operator op => .operator op
  | .separator mark => .separator mark
  | .endOfFile => .endOfFile

/-- The text of a name or a string. -/
def Kind.text? {τ : Type} : Kind τ → Option τ
  | .literal (.text t) => some t
  | .name t => some t
  | _ => none

theorem intern_eq_endOfFile {kind : Kind String} :
    (kind.intern pool).1 = .endOfFile ↔ kind = .endOfFile := by
  unfold Kind.intern
  split <;> simp

/-! ## Lists of tokens -/

theorem internAll_append (pool : Pool) (ts later : List (Token String)) :
    internAll pool (ts ++ later) =
      ((internAll pool ts).1 ++ (internAll (internAll pool ts).2 later).1,
        (internAll (internAll pool ts).2 later).2) := by
  induction ts generalizing pool with
  | nil => rfl
  | cons t ts ih => simp [internAll, ih]

theorem spans_internAll (pool : Pool) (ts : List (Token String)) :
    (internAll pool ts).1.map (·.span) = ts.map (·.span) := by
  induction ts generalizing pool with
  | nil => rfl
  | cons t ts ih => simp [internAll, ih]

theorem ne_endOfFile_of_mem_internAll (pool : Pool) (h : ∀ t ∈ ts, t.kind ≠ .endOfFile) :
    ∀ t ∈ (internAll pool ts).1, t.kind ≠ .endOfFile := by
  induction ts generalizing pool with
  | nil => simp [internAll]
  | cons t ts ih =>
    intro s hs
    rcases List.mem_cons.1 hs with rfl | hs
    · exact fun he => h t (by simp) (intern_eq_endOfFile.1 he)
    · exact ih _ (fun t ht => h t (by simp [ht])) s hs

/-- Where tokens stand does not matter for their kinds and for the pool. -/
theorem internAll_congr (pool : Pool) {ts' : List (Token String)} (h : ts.map (·.kind) = ts'.map (·.kind)) :
    (internAll pool ts).1.map (·.kind) = (internAll pool ts').1.map (·.kind) ∧
      (internAll pool ts).2 = (internAll pool ts').2 := by
  induction ts generalizing pool ts' with
  | nil =>
    rw [List.map_nil, eq_comm, List.map_eq_nil_iff] at h
    rw [h]
    exact ⟨rfl, rfl⟩
  | cons t ts ih =>
    cases ts' with
    | nil => cases h
    | cons t' ts' =>
      simp only [List.map_cons, List.cons.injEq] at h
      obtain ⟨hkinds, hpool⟩ := ih (t.kind.intern pool).2 h.2
      rw [h.1] at hkinds hpool
      simp only [internAll, h.1, List.map_cons, hkinds, hpool, and_self]

/-! ## The pool -/

theorem find?_of_mem {text : String} (h : text ∈ pool.toList) :
    pool.find? text = some (UInt32.ofNat (pool.toList.idxOf text)) := by
  have hidx : pool.toList.idxOf? text = some (pool.toList.idxOf text) :=
    List.findIdx?_eq_some_iff_findIdx_eq.2 ⟨List.idxOf_lt_length_of_mem h, rfl⟩
  have hmap : pool.find? text = (pool.entries.idxOf? text).map UInt32.ofNat := by
    rw [Array.idxOf?_eq_map_finIdxOf?_val, Option.map_map]
    rfl
  have hlist : pool.entries.idxOf? text = pool.toList.idxOf? text :=
    (List.idxOf?_toArray text pool.toList).symm ▸ rfl
  rw [hmap, hlist, hidx]
  rfl

/-- A text that is in the pool leaves it as it is. -/
theorem intern_of_mem {text : String} (h : text ∈ pool.toList) :
    pool.intern text = (UInt32.ofNat (pool.toList.idxOf text), pool) := by
  rw [Pool.intern, find?_of_mem h]

/-- A text that is not in the pool comes last. -/
theorem intern_of_not_mem {text : String} (h : text ∉ pool.toList) :
    pool.intern text = (UInt32.ofNat pool.toList.length, ⟨pool.entries.push text⟩) := by
  have hfind : pool.entries.finIdxOf? text = none := by
    rw [Array.finIdxOf?_eq_none_iff, ← Array.mem_toList_iff]
    exact h
  rw [Pool.intern, Pool.find?, hfind]
  rfl

/-- The symbol of a text is its place in the pool that has it. -/
theorem symbol_intern (pool : Pool) (text : String) :
    (pool.intern text).1 = UInt32.ofNat ((pool.intern text).2.toList.idxOf text) ∧
      text ∈ (pool.intern text).2.toList := by
  by_cases h : text ∈ pool.toList
  · rw [intern_of_mem h]
    exact ⟨rfl, h⟩
  · have htexts : (Pool.mk (pool.entries.push text)).toList = pool.toList ++ [text] :=
      Array.toList_push
    rw [intern_of_not_mem h]
    simp only [htexts, List.idxOf_append, if_neg h, List.mem_append, List.mem_singleton, or_true,
      List.idxOf_cons_self, Nat.zero_add, and_self]

theorem intern_eq (pool : Pool) (kind : Kind String) :
    kind.intern pool = (kind.mapText fun t => (pool.intern t).1,
      match kind.text? with
      | some t => (pool.intern t).2
      | none => pool) := by
  unfold Kind.intern
  split <;> rfl

theorem mapText_congr {τ σ : Type} {f g : τ → σ} {kind : Kind τ}
    (h : ∀ t, kind.text? = some t → f t = g t) : kind.mapText f = kind.mapText g := by
  unfold Kind.mapText
  split
  · rfl
  · rfl
  · rfl
  · rfl
  · exact congrArg _ (congrArg _ (h _ rfl))
  · rfl
  · rfl
  · exact congrArg _ (h _ rfl)
  all_goals rfl

/-- The pool goes on with the distinct texts that it did not have, in the order of their first
occurrence. -/
theorem pool_internAll (pool : Pool) (ts : List (Token String)) :
    (internAll pool ts).2.toList =
      pool.toList ++ ((ts.filterMap (·.kind.text?)).removeAll pool.toList).eraseDups := by
  induction ts generalizing pool with
  | nil => simp [internAll]
  | cons t ts ih =>
    have hstep : (internAll pool (t :: ts)).2 = (internAll (t.kind.intern pool).2 ts).2 := rfl
    rw [hstep, ih, intern_eq, List.filterMap_cons]
    cases t.kind.text? with
    | none => rfl
    | some text =>
      dsimp only
      rw [List.cons_removeAll]
      by_cases h : text ∈ pool.toList
      · rw [intern_of_mem h, if_neg (by simp [h])]
      · have htexts : (Pool.mk (pool.entries.push text)).toList = pool.toList ++ [text] :=
          Array.toList_push
        rw [intern_of_not_mem h, if_pos (by simp [h]), List.eraseDups_cons, htexts, List.append_assoc,
          List.singleton_append]
        congr 3
        simp [List.removeAll, List.filter_filter, Bool.and_comm, ← Bool.beq_eq_decide_eq]

/-- Every name and every string ends up with the place of its text. -/
theorem kinds_internAll (pool : Pool) (ts : List (Token String)) :
    (internAll pool ts).1.map (·.kind) = ts.map fun t =>
      t.kind.mapText fun s => UInt32.ofNat ((internAll pool ts).2.toList.idxOf s) := by
  induction ts generalizing pool with
  | nil => rfl
  | cons t ts ih =>
    have hstep : (internAll pool (t :: ts)).2 = (internAll (t.kind.intern pool).2 ts).2 := rfl
    have hkinds : (internAll pool (t :: ts)).1.map (·.kind) =
        (t.kind.intern pool).1 :: (internAll (t.kind.intern pool).2 ts).1.map (·.kind) := rfl
    rw [hkinds, hstep, ih, List.map_cons, intern_eq]
    refine congrArg (· :: _) (mapText_congr fun text htext => ?_)
    rw [htext]
    obtain ⟨hsymbol, hmem⟩ := symbol_intern pool text
    -- Later texts come behind, so that the place does not change.
    rw [pool_internAll, List.idxOf_append, if_pos hmem]
    exact hsymbol

end Token

end Scriptlet
