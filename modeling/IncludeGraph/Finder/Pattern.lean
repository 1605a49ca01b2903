import IncludeGraph.Finder.Parse
import Mathlib.Data.List.Sort

/-!
# `INCLUDE_PATTERN` as a regular expression

`INCLUDE_PATTERN` is `#\s*include\s+"([^"]+)"`. Its match at a position is
unique when it exists: no whitespace character is `i` or `"`, so `\s*` and `\s+`
take every blank before `include` and before the quote, and `[^"]+` takes every
character up to the next quote. `PatternMatch` writes that match as a
decomposition of the line, and `includeAt` computes exactly it; `searchInclude`
is then the leftmost match, which is what `re.search` returns.

So `parse_includes` returns, in increasing line order, the group of the leftmost
match on each line that has one, and nothing for the other lines.
-/

namespace IncludeGraph.Finder

open Py

/-- `INCLUDE_PATTERN` matches at the start of `s` with group 1 `lit`: `#`,
blanks, `include`, at least one blank, `"`, `lit`, `"`. -/
def PatternMatch (s lit : List Char) : Prop :=
  ∃ ws₁ ws₂ post, s = '#' :: (ws₁ ++ ("include".data ++ (ws₂ ++ '"' :: (lit ++ '"' :: post)))) ∧
    (∀ c ∈ ws₁, isSpace c) ∧ ws₂ ≠ [] ∧ (∀ c ∈ ws₂, isSpace c) ∧ lit ≠ [] ∧ '"' ∉ lit

/-- `INCLUDE_PATTERN.search(line)` finds `lit`: the first position with a match
has group 1 `lit`. -/
def LeftmostMatch (s lit : List Char) : Prop :=
  ∃ i, PatternMatch (s.drop i) lit ∧ ∀ j < i, ∀ lit', ¬PatternMatch (s.drop j) lit'

section Lists

variable {p : Char → Bool}

theorem head?_dropWhile {l : List Char} {c : Char} (h : (l.dropWhile p).head? = some c) :
    p c = false := by
  have := List.head?_dropWhile_not p l
  rw [h] at this
  exact this

/-- Splitting at the first character that fails `p`. -/
theorem dropWhile_of_head {ws rest : List Char} (hws : ∀ c ∈ ws, p c)
    (hrest : ∀ c, rest.head? = some c → p c = false) : (ws ++ rest).dropWhile p = rest := by
  rw [List.dropWhile_append_of_pos hws]
  cases rest with
  | nil => rfl
  | cons c cs => simp [List.dropWhile_cons, hrest c rfl]

theorem takeWhile_ne_quote {lit post : List Char} (h : '"' ∉ lit) :
    (lit ++ '"' :: post).takeWhile (· ≠ '"') = lit := by
  rw [List.takeWhile_append_of_pos fun c hc => by
    simp only [ne_eq, decide_eq_true_eq]; rintro rfl; exact h hc]
  simp

/-- A list is the run of its first characters that pass `p`, then the rest. -/
theorem exists_split (p : Char → Bool) (l : List Char) :
    ∃ ws rest, l = ws ++ rest ∧ (∀ c ∈ ws, p c) ∧ l.dropWhile p = rest ∧ l.takeWhile p = ws :=
  ⟨_, _, (List.takeWhile_append_dropWhile p l).symm, fun _ hc => List.mem_takeWhile_imp hc, rfl, rfl⟩

end Lists

theorem isSpace_i : isSpace 'i' = false := by decide

theorem isSpace_quote : isSpace '"' = false := by decide

/-- `includeAt` computes the match of `INCLUDE_PATTERN` at the start of a line. -/
theorem includeAt_eq_some_iff {s lit : List Char} : includeAt s = some lit ↔ PatternMatch s lit := by
  constructor
  · intro h
    unfold includeAt at h
    split at h
    · rename_i rest
      obtain ⟨ws₁, rest₁, rfl, hws₁, hd₁, -⟩ := exists_split isSpace rest
      simp only [hd₁] at h
      split_ifs at h with hpre
      obtain ⟨afterWord, rfl⟩ : ∃ t, rest₁ = "include".data ++ t :=
        ⟨_, (List.prefix_iff_eq_append.mp (List.isPrefixOf_iff_prefix.mp hpre)).symm⟩
      rw [show ("include".data ++ afterWord).drop 7 = afterWord from rfl] at h
      obtain ⟨ws₂, gap, rfl, hws₂, hd₂, -⟩ := exists_split isSpace afterWord
      rw [hd₂] at h
      split at h
      · rename_i body
        split_ifs at h with hlen
        cases h
        -- the body is the literal up to the first quote, that quote, and the rest
        obtain ⟨lit, tail, rfl, hlit, hd₃, ht₃⟩ := exists_split (· ≠ '"') body
        rw [ht₃] at hlen ⊢
        obtain ⟨q, post, rfl⟩ := List.exists_cons_of_ne_nil (show tail ≠ [] from fun e => by
          simp [e] at hlen)
        have hq : q = '"' := by
          simpa using head?_dropWhile (p := (· ≠ '"')) (by rw [hd₃]; rfl)
        subst hq
        refine ⟨ws₁, ws₂, post, rfl, hws₁, fun e => ?_, hws₂, hlen.2.1, fun hq => ?_⟩
        · simp [e] at hlen
        · simpa using hlit _ hq
      · cases h
    · cases h
  · rintro ⟨ws₁, ws₂, post, rfl, h₁, hne, h₂, hlit, hq⟩
    have hhash : (ws₁ ++ ("include".data ++ (ws₂ ++ '"' :: (lit ++ '"' :: post)))).dropWhile isSpace =
        "include".data ++ (ws₂ ++ '"' :: (lit ++ '"' :: post)) :=
      dropWhile_of_head h₁ fun c hc => by cases hc; exact isSpace_i
    have hgap : (ws₂ ++ '"' :: (lit ++ '"' :: post)).dropWhile isSpace = '"' :: (lit ++ '"' :: post) :=
      dropWhile_of_head h₂ fun c hc => by cases hc; exact isSpace_quote
    have hpre : "include".data.isPrefixOf ("include".data ++ (ws₂ ++ '"' :: (lit ++ '"' :: post))) :=
      List.isPrefixOf_iff_prefix.mpr (List.prefix_append _ _)
    obtain ⟨w, ws, rfl⟩ := List.exists_cons_of_ne_nil hne
    simp only [includeAt, hhash, hpre, if_true,
      show ("include".data ++ ((w :: ws) ++ '"' :: (lit ++ '"' :: post))).drop 7 =
        (w :: ws) ++ '"' :: (lit ++ '"' :: post) from rfl, hgap, takeWhile_ne_quote hq]
    rw [if_pos ⟨by simp; omega, hlit, by simp⟩]

/-- `searchInclude` returns the match at the first position that has one. -/
theorem searchInclude_eq_some_iff {lit : List Char} :
    ∀ {s : List Char}, searchInclude s = some lit ↔
      ∃ i, includeAt (s.drop i) = some lit ∧ ∀ j < i, includeAt (s.drop j) = none
  | [] => by
    simp only [searchInclude, List.drop_nil, reduceCtorEq, false_iff, not_exists, not_and]
    intro _ h; simp [includeAt] at h
  | c :: cs => by
    rw [searchInclude]
    cases h : includeAt (c :: cs) with
    | some l =>
      rw [Option.or_some, Option.some.injEq]
      constructor
      · rintro rfl; exact ⟨0, h, fun j hj => absurd hj (Nat.not_lt_zero j)⟩
      · rintro ⟨i, hi, hmin⟩
        cases i with
        | zero => rw [List.drop_zero, h] at hi; exact Option.some_inj.mp hi
        | succ i =>
          have h₀ := hmin 0 (Nat.succ_pos i)
          rw [List.drop_zero, h] at h₀
          cases h₀
    | none =>
      rw [Option.none_or, searchInclude_eq_some_iff]
      constructor
      · rintro ⟨i, hi, hmin⟩
        refine ⟨i + 1, hi, fun j hj => ?_⟩
        cases j with
        | zero => exact h
        | succ j => exact hmin j (by omega)
      · rintro ⟨i, hi, hmin⟩
        cases i with
        | zero => rw [List.drop_zero, h] at hi; cases hi
        | succ i => exact ⟨i, hi, fun j hj => hmin (j + 1) (by omega)⟩

theorem searchInclude_eq_some_iff_leftmost {s lit : List Char} :
    searchInclude s = some lit ↔ LeftmostMatch s lit := by
  rw [searchInclude_eq_some_iff]
  simp only [LeftmostMatch, ← includeAt_eq_some_iff, Option.eq_none_iff_forall_not_mem,
    Option.mem_def]

theorem mem_enumFrom_one {lines : List String} {n : Nat} {line : String} :
    (n, line) ∈ lines.enumFrom 1 ↔ 1 ≤ n ∧ lines[n - 1]? = some line := by
  rw [List.mem_iff_getElem?]
  simp only [List.getElem?_enumFrom, Option.map_eq_some', Prod.mk.injEq]
  constructor
  · rintro ⟨m, line', hl, rfl, rfl⟩
    simpa using hl
  · rintro ⟨hn, hl⟩
    exact ⟨n - 1, line, hl, by omega, rfl⟩

/-- `parse_includes` reads the lines in order, one pair at most per line. -/
theorem parseIncludes_lines_sorted (disk : Disk) (absPath : String) :
    ((parseIncludes disk absPath).map Prod.snd).Sorted (· < ·) := by
  unfold parseIncludes
  split
  · exact List.sorted_nil
  · rename_i lines _
    have hlt : (lines.enumFrom 1).Pairwise fun p q => p.1 < q.1 := by
      have := List.pairwise_lt_range' 1 lines.length
      rw [← List.enumFrom_map_fst] at this
      exact List.pairwise_map.mp this
    refine List.pairwise_map.mpr (hlt.filterMap _ fun p q hpq b hb b' hb' => ?_)
    simp only [Option.mem_def, Option.map_eq_some'] at hb hb'
    obtain ⟨_, _, rfl⟩ := hb
    obtain ⟨_, _, rfl⟩ := hb'
    exact hpq

/-- `parse_includes` returns, in strictly increasing line order, one pair for
each line of the file on which `INCLUDE_PATTERN.search` finds a match: the group
of the leftmost match with backslashes turned into slashes, and the line's
number counted from 1. A file that cannot be opened gives no pair. -/
theorem parseIncludes_leftmost_matches (disk : Disk) (absPath : String) :
    ((parseIncludes disk absPath).map Prod.snd).Sorted (· < ·) ∧
      ∀ lit n, (lit, n) ∈ parseIncludes disk absPath ↔
        ∃ lines line raw, disk absPath = some lines ∧ 1 ≤ n ∧ lines[n - 1]? = some line ∧
          LeftmostMatch line.data raw ∧ lit = replaceChar ⟨raw⟩ '\\' '/' := by
  refine ⟨parseIncludes_lines_sorted disk absPath, fun lit n => ?_⟩
  unfold parseIncludes
  split
  · rename_i hnone
    simp [hnone]
  · rename_i lines hlines
    rw [List.mem_filterMap]
    constructor
    · rintro ⟨⟨m, line⟩, hm, hsome⟩
      simp only at hsome
      obtain ⟨raw, hraw, hpair⟩ := Option.map_eq_some'.mp hsome
      obtain ⟨rfl, rfl⟩ := Prod.mk.inj hpair
      exact ⟨lines, line, raw, hlines, (mem_enumFrom_one.mp hm).1, (mem_enumFrom_one.mp hm).2,
        searchInclude_eq_some_iff_leftmost.mp hraw, rfl⟩
    · rintro ⟨lines', line, raw, hl, hn, hline, hraw, rfl⟩
      rw [hlines, Option.some_inj] at hl
      subst hl
      exact ⟨(n, line), mem_enumFrom_one.mpr ⟨hn, hline⟩,
        Option.map_eq_some'.mpr ⟨raw, searchInclude_eq_some_iff_leftmost.mpr hraw, rfl⟩⟩

end IncludeGraph.Finder
