import IncludeGraph.Finder.Discover

/-!
# The include resolver of the finder

`resolve_include` tries five rules in order and returns the first hit. Every
rule either tests membership of one string in the keys or takes the single
element of a filtered key list, so the answer is always a key and depends on
the key set only, not on its order.

Two rules do less than their comments say. Rule 1 builds the path with `Path`,
which never folds `..`, so a literal that climbs out of the includer's
directory is only found by the later rules. Rule 4 compares with
`str.endswith`, which does not stop at a `/`, so a key whose file name merely
ends with the literal's name counts as a match.
-/

namespace IncludeGraph.Finder

open Py

/-- `includer_dir`: `''` for a key at the root. -/
def includerDir (includerRel : String) : String :=
  let d := parentStr includerRel
  if d = "." then "" else d

/-- `while stripped.startswith('../'): stripped = stripped[3:]`. -/
def stripParents : List Char → List Char
  | '.' :: '.' :: '/' :: rest => stripParents rest
  | s => s

/-- Rule 4, for the suffixes `raw_parts[-n:]` from the whole list down to the
last part: `n >= 2` is `rest ≠ []`. -/
def trailingMatch (keys : List String) (includerRel : String) : List String → Option String
  | [] => none
  | p :: rest =>
    let found := keys.filter fun r => endswith r (join "/" (p :: rest))
    if found.length = 1 then found.head?
    else
      let includerTop := (PurePath.ofString includerRel).parts.headD ""
      let sameTree := found.filter fun m => (PurePath.ofString m).parts.head? = some includerTop
      if found.length > 1 ∧ rest ≠ [] ∧ sameTree.length = 1 then sameTree.head?
      else trailingMatch keys includerRel rest

/-- Rule 1's candidate, `str(Path(f'{includer_dir}/{raw}'))` with slashes. -/
def relCandidate (raw includerRel : String) : String :=
  let dir := includerDir includerRel
  let candidate := if dir ≠ "" then dir ++ "/" ++ raw else raw
  replaceChar (PurePath.ofString candidate).str '\\' '/'

/-- Rule 5: the only key with the literal's file name. -/
def uniqueBaseName (keys : List String) (raw : String) : Option String :=
  let found := keys.filter fun r => baseName r = baseName raw
  if found.length = 1 then found.head? else none

/-- `resolve_include(raw, includer_rel, files, root)`. `root` is never read, and
`Path(candidate)` cannot raise, so the `except` branch is left out. -/
def resolveInclude (raw includerRel : String) (files : FileMap) : Option String :=
  let normed := relCandidate raw includerRel
  let stripped : String := ⟨stripParents raw.data⟩
  if normed ∈ files.keys then some normed
  else if raw ∈ files.keys then some raw
  else if stripped ∈ files.keys then some stripped
  else (trailingMatch files.keys includerRel (PurePath.ofString raw).parts).or
    (uniqueBaseName files.keys raw)

theorem trailingMatch_mem {keys : List String} {includerRel r : String} :
    ∀ {ps : List String}, trailingMatch keys includerRel ps = some r → r ∈ keys
  | [], h => by cases h
  | p :: rest, h => by
    simp only [trailingMatch] at h
    split_ifs at h
    · exact (List.mem_filter.mp (List.mem_of_mem_head? h)).1
    · exact (List.mem_filter.mp (List.mem_filter.mp (List.mem_of_mem_head? h)).1).1
    · exact trailingMatch_mem h

/-- Every rule returns a key. -/
theorem resolveInclude_mem {raw includerRel r : String} {files : FileMap}
    (h : resolveInclude raw includerRel files = some r) : r ∈ files.keys := by
  simp only [resolveInclude] at h
  split_ifs at h with h1 h2 h3
  · exact Option.some.inj h ▸ h1
  · exact Option.some.inj h ▸ h2
  · exact Option.some.inj h ▸ h3
  · rcases Option.or_eq_some.mp h with h | ⟨-, h⟩
    · exact trailingMatch_mem h
    · simp only [uniqueBaseName] at h
      split_ifs at h
      exact (List.mem_filter.mp (List.mem_of_mem_head? h)).1

/-- The single element of a one-element list does not depend on the order. -/
private theorem head?_perm_of_length_one {l₁ l₂ : List String} (h : l₁.Perm l₂)
    (h1 : l₁.length = 1) : l₁.head? = l₂.head? := by
  obtain ⟨x, rfl⟩ := List.length_eq_one.mp h1
  rw [List.perm_singleton.mp h.symm]

theorem trailingMatch_perm {keys₁ keys₂ : List String} (h : keys₁.Perm keys₂)
    (includerRel : String) :
    ∀ ps, trailingMatch keys₁ includerRel ps = trailingMatch keys₂ includerRel ps
  | [] => rfl
  | p :: rest => by
    have hf := h.filter fun r => endswith r (join "/" (p :: rest))
    have hs := hf.filter fun m =>
      decide ((PurePath.ofString m).parts.head? = some ((PurePath.ofString includerRel).parts.headD ""))
    simp only [trailingMatch, hf.length_eq, hs.length_eq, trailingMatch_perm h includerRel rest]
    split_ifs with h1 h2
    · exact head?_perm_of_length_one hf (hf.length_eq ▸ h1)
    · exact head?_perm_of_length_one hs (hs.length_eq ▸ h2.2.2)
    · rfl

/-- `resolve_include` reads the key set only: any other order of the same keys
gives the same answer. -/
theorem resolveInclude_perm (raw includerRel : String) {files₁ files₂ : FileMap}
    (h : files₁.keys.Perm files₂.keys) :
    resolveInclude raw includerRel files₁ = resolveInclude raw includerRel files₂ := by
  have hb := h.filter fun r => decide (baseName r = baseName raw)
  have unique : uniqueBaseName files₁.keys raw = uniqueBaseName files₂.keys raw := by
    simp only [uniqueBaseName, hb.length_eq]
    split_ifs with h5
    · exact head?_perm_of_length_one hb (hb.length_eq ▸ h5)
    · rfl
  simp only [resolveInclude, h.mem_iff, trailingMatch_perm h, unique]

end IncludeGraph.Finder

namespace IncludeGraph.Finder

open Py

/-- Cancel each `x/..` pair, left to right; a leading `..` stays. -/
def cancelParents (segs : List String) : List String :=
  segs.foldl (fun acc c =>
    if c = ".." ∧ acc ≠ [] ∧ acc.getLast? ≠ some ".." then acc.dropLast else acc ++ [c]) []

/-- The file rule 1 is documented to find: the includer's directory joined with
the literal, `.` segments dropped and every `x/..` pair cancelled. -/
def relativeTarget (raw includerRel : String) : String :=
  join "/" (cancelParents
    ((PurePath.ofString (includerDir includerRel)).tail ++ (PurePath.ofString raw).tail))

/-- `X.h` at the root, `a/X.h`, and `a/sub/Foo.h`. -/
def climbingTree : FileMap :=
  discoverFiles
    [⟨["X.h"], true, 0, "/r/X.h", by decide, by decide⟩,
      ⟨["a", "X.h"], true, 0, "/r/a/X.h", by decide, by decide⟩,
      ⟨["a", "sub", "Foo.h"], true, 0, "/r/a/sub/Foo.h", by decide, by decide⟩]
    defaultExcludes

/-- `a/sub/Foo.h` includes `"../X.h"`, which denotes the key `a/X.h`; rule 1
misses it because `Path` keeps `..`, and rule 3 strips the `../` and finds the
root `X.h`. -/
theorem resolveInclude_climb_skips_relative :
    relativeTarget "../X.h" "a/sub/Foo.h" = "a/X.h" ∧ "a/X.h" ∈ climbingTree.keys ∧
      resolveInclude "../X.h" "a/sub/Foo.h" climbingTree = some "X.h" := by
  decide

/-- `main.cpp` and `MyWidget.h`. -/
def widgetTree : FileMap :=
  discoverFiles
    [⟨["main.cpp"], true, 0, "/r/main.cpp", by decide, by decide⟩,
      ⟨["MyWidget.h"], true, 0, "/r/MyWidget.h", by decide, by decide⟩]
    defaultExcludes

/-- `main.cpp` includes `"Widget.h"`, which is not discovered; rule 4 accepts
`MyWidget.h` because the string ends with `Widget.h`. -/
theorem resolveInclude_suffix_crosses_name :
    resolveInclude "Widget.h" "main.cpp" widgetTree = some "MyWidget.h" ∧
      baseName "MyWidget.h" ≠ baseName "Widget.h" := by
  decide

end IncludeGraph.Finder
