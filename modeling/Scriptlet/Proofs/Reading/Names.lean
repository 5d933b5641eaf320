import Mathlib.Algebra.Ring.Nat
import Scriptlet.Proofs.Reading.Nesting
import Scriptlet.Proofs.Scanning.Rendering

/-!
# Names in a program are names of its source

A token with a name has a text that is a name (`Token.isName_of_lexeme`), and its symbol stands for
that text as long as the pool's places fit into symbols (`Token.scan_name`). The names of a tree are
those of tokens that it is read from (`Program.Written.name_token`), so the name that a program uses
anywhere is a name of its source: `Program.Occurs.isName`.
-/

namespace Scriptlet

/-! ## Names of tokens -/

namespace Token

variable {c : Char} {cs : List Char} {n m : Nat} {t : String}

theorem wordKind_eq_name {text : String} (h : wordKind text = .name t) :
    text = t ∧ t ∉ ["true", "false", "null"] ∧ ∀ word : Keyword, word.spelling ≠ t := by
  unfold wordKind at h
  split at h
  · cases h
  · cases h
  · cases h
  · next htrue hfalse hnull =>
    split at h
    · cases h
    · next hword =>
      cases h
      refine ⟨rfl, ?_, fun word heq => ?_⟩
      · simp only [List.mem_cons, List.not_mem_nil, or_false, not_or]
        exact ⟨htrue, hfalse, hnull⟩
      · have := List.find?_eq_none.1 hword word (by cases word <;> decide)
        simp [heq] at this

theorem integer?_ne_name {value : Nat} : integer? cs value n ≠ some (.ok (.name t, m)) := by
  unfold integer?
  split <;> split <;> try split
  all_goals simp

theorem float?_ne_name : float? cs ≠ some (.ok (.name t, m)) := by
  intro h
  obtain ⟨whole, fraction, tail, rfl, hends⟩ := exists_stem cs
  rw [float?_stem hends] at h
  by_cases hf : tail.head? = some 'f' <;> simp only [hf, if_true, if_false] at h <;> split at h
  · cases h
  · split at h <;> cases h
  · cases h
  · split at h <;> cases h

theorem hexadecimal?_ne_name : hexadecimal? cs ≠ some (.ok (.name t, m)) := by
  intro h
  unfold hexadecimal? at h
  split at h
  · dsimp only at h
    split at h
    · exact integer?_ne_name h
    · cases h
  · cases h

theorem number_ne_name : number c cs ≠ .ok (.name t, n) := by
  intro h
  unfold number at h
  dsimp only at h
  split at h
  · next reading hread =>
    obtain ⟨⟨kind, k⟩, rfl, heq⟩ := map_eq_ok h
    cases heq
    cases hfloat : float? (c :: cs) with
    | some r =>
      rw [hfloat] at hread
      cases hread
      exact float?_ne_name hfloat
    | none =>
      cases hhex : hexadecimal? (c :: cs) with
      | some r =>
        rw [hfloat, hhex] at hread
        cases hread
        exact hexadecimal?_ne_name hhex
      | none =>
        rw [hfloat, hhex] at hread
        exact integer?_ne_name hread
  · cases h

/-- Only a word is a name. -/
theorem isName_of_lexeme (h : lexeme c cs = .ok (.name t, n)) : IsName t := by
  unfold lexeme at h
  split at h
  · next hstart =>
    rw [word, Except.ok.injEq, Prod.mk.injEq] at h
    obtain ⟨htext, hliteral, hword⟩ := wordKind_eq_name h.1
    refine ⟨⟨c, cs.takeWhile isNameChar, ?_, hstart, fun d hd => List.mem_takeWhile_imp hd⟩, hliteral,
      hword⟩
    rw [← htext, String.toList_ofList]
  · split at h
    · exact absurd h number_ne_name
    · split at h
      · unfold character at h
        split at h <;> (try split at h) <;> (try split at h) <;> simp at h
      · split at h
        · unfold text at h
          cases hbody : textBody cs with
          | error cause =>
            rw [hbody] at h
            cases h
          | ok r =>
            rw [hbody] at h
            cases h
        · unfold symbol at h
          split at h
          · cases h
          · split at h
            · cases h
            · split at h <;> cases h

theorem isName_of_laid {pre : List Char} {ts : List (Token String)} (h : Laid pre cs ts) :
    ∀ s ∈ ts, ∀ t, s.kind = .name t → IsName t := by
  induction h with
  | nil => nofun
  | blank _ _ ih => exact ih
  | comment _ _ ih => exact ih
  | lastComment => nofun
  | token _ _ _ hread _ ih =>
    intro s hs t ht
    rcases List.mem_cons.1 hs with rfl | hs
    · cases ht
      exact isName_of_lexeme hread
    · exact ih s hs t ht

/-- The symbols of name tokens stand for names. -/
theorem scan_name {source : String} {tokens : List (Token Symbol)} {pool : Pool}
    (h : scan source = .ok (tokens, pool)) (hsize : pool.size ≤ 2 ^ 32) {token : Token Symbol}
    (htoken : token ∈ tokens) {symbol : Symbol} (hsymbol : token.kind = .name symbol) :
    IsName (pool.name symbol) := by
  obtain ⟨all, hscan, hall⟩ := map_eq_ok h
  obtain ⟨ts, hlaid, rfl⟩ := scanText_iff_laid.1 hscan
  -- The token comes from one whose text is a name.
  have hkinds := kinds_internAll .empty (ts ++ [endBehind source.toList])
  have hpool := pool_internAll .empty (ts ++ [endBehind source.toList])
  rw [← hall] at hkinds hpool
  have hmem : token.kind ∈ tokens.map (·.kind) := List.mem_map_of_mem htoken
  rw [hkinds] at hmem
  obtain ⟨s, hs, hkind⟩ := List.mem_map.1 hmem
  obtain ⟨t, ht, rfl⟩ : ∃ t, s.kind = .name t ∧ symbol = UInt32.ofNat (pool.toList.idxOf t) := by
    rw [hsymbol] at hkind
    unfold Kind.mapText at hkind
    split at hkind <;> try cases hkind
    next t ht => exact ⟨t, ht, rfl⟩
  have hname : IsName t := by
    rcases List.mem_append.1 hs with hs | hs
    · exact isName_of_laid hlaid s hs t ht
    · rw [List.mem_singleton.1 hs] at ht
      cases ht
  -- Its text is in the pool, and its symbol is the place there.
  have htext : t ∈ pool.toList := by
    have ht' : t ∈ (ts ++ [endBehind source.toList]).filterMap (·.kind.text?) :=
      List.mem_filterMap.2 ⟨s, hs, by rw [ht]; rfl⟩
    rw [hpool]
    refine List.mem_append_right _ (List.mem_eraseDups.2 (List.mem_filter.2 ⟨ht', ?_⟩))
    rfl
  have hlt : pool.toList.idxOf t < pool.toList.length := List.idxOf_lt_length_of_mem htext
  have hplace : (UInt32.ofNat (pool.toList.idxOf t)).toNat = pool.toList.idxOf t := by
    have hlen : pool.toList.length = pool.size := Array.length_toList
    rw [UInt32.toNat_ofNat']
    omega
  have hget : pool.get? (UInt32.ofNat (pool.toList.idxOf t)) = some t := by
    rw [Pool.get?, hplace, ← Array.getElem?_toList, ← Pool.toList, List.getElem?_eq_getElem hlt,
      List.getElem_idxOf]
  rw [Pool.name, hget]
  exact hname

end Token

namespace Program

/-! ## Names of trees -/

/-- The names that a tree has itself, apart from its parts. -/
def Tree.names : Tree → List Symbol
  | expr (.name n _) | expr (.field _ n _) | expr (.methodCall _ n _ _) | expr (.construct n _ _) => [n]
  | stmt (.declare n _ _) => [n]
  | stmt (.function decl _) => [decl.name]
  | stmt (.type decl _) => [decl.name]
  | binder b => [b.name]
  | _ => []

def Phrase.names : Phrase → List Symbol
  | .tree t => t.names
  | _ => []

theorem Tree.names_withSpan (e : Expr) (s : Span) :
    (Tree.expr (e.withSpan s)).names = (Tree.expr e).names := by
  cases e <;> rfl

/-- The names of a tree are those of tokens that it is written in. -/
theorem Written.name_token {ts : Tokens} {phrase : Phrase} (h : Written ts phrase) :
    ∀ n ∈ phrase.names, Token.Kind.name n ∈ ts.map (·.kind) := by
  induction h with
  | paren _ ih =>
    intro n hn
    rw [Phrase.names, Tree.names_withSpan] at hn
    have := ih n hn
    simp [this]
  | name | field | methodCall | construct | binder =>
    intro n hn
    rw [List.mem_singleton.1 hn]
    simp
  | declare _ hts | function _ _ _ hts | type _ hts =>
    intro n hn
    rw [List.mem_singleton.1 hn, hts]
    simp
  | _ => nofun

/-- What occurs in a program that is read from a source has names of the source. -/
theorem Occurs.isName {source : String} {tokens : Tokens} {pool : Pool} {p : Program}
    (hscan : Token.scan source = .ok (tokens, pool)) (hsize : pool.size ≤ 2 ^ 32)
    (hread : read tokens pool = .ok p) {t : Tree} (ht : Occurs p t) :
    ∀ n ∈ t.names, Token.IsName (pool.name n) := by
  intro n hn
  obtain ⟨body, last, rfl, hlast, hbody, -⟩ := scan_successive hscan
  obtain ⟨us, hus, hwritten⟩ := ht.written (read_written hlast hbody hread)
  obtain ⟨token, htoken, hkind⟩ := List.mem_map.1 (hwritten.name_token n hn)
  exact Token.scan_name hscan hsize (List.mem_append_left _ (hus.subset htoken)) hkind

end Program

end Scriptlet
