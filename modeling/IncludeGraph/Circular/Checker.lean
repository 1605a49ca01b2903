import IncludeGraph.Finder.Pattern
import IncludeGraph.Circular.Cycles
import Mathlib.Data.String.Basic

/-!
# Scanning, extraction and resolution in `check_circular.py`

`scan_project` keys `file_map` twice per globbed file: by its root-relative
path, and by its bare file name unless that name is already a key, so the
first file of each name owns the name. `extract_includes` reads a file line by
line under a one-flag comment heuristic: a stripped line that contains `/*` or
`*/` is skipped whole, and so is every line after a `/*` line up to the next
line with `*/`. `resolve_include_path` tries the bare file name first, then the
path relative to the including file, the path relative to the root, the literal
with leading `.` and `/` stripped, and last any file of that name.

`matchInclude` is the match of `#include\s+[<"]([^>"]+)[>"]` at the start of a
stripped line (`matchInclude_eq_some_iff`); the two delimiters are matched
independently, so `#include <a.h"` and `#include "a.h>` are read as includes of
`a.h`.

Graph nodes are the strings of the globbed and resolved paths. `Path.resolve`
is taken on an absolute project root without symbolic links, and `exists()` is
a parameter: what is on disk, files and directories alike.
-/

namespace IncludeGraph.Circular

open Py

/-- `str(project_root / rel_path)`: the path `glob` yields for a root-relative path. -/
def globbedPath (root rel : String) : String :=
  ((PurePath.ofString root).join rel).str

/-- `scan_project()`, over the root-relative paths of the globbed files in the
order the six patterns yield them. -/
def scanProject (root : String) (found : List String) : PyDict String String :=
  found.foldl (fun fileMap rel =>
    let filepath := globbedPath root rel
    let fileMap := fileMap.insert rel filepath
    if (PurePath.ofString filepath).name ∈ fileMap.keys then fileMap
    else fileMap.insert (PurePath.ofString filepath).name filepath) PyDict.empty

/-- `re.match(r'#include\s+[<"]([^>"]+)[>"]', stripped)`, returning group 1.
Backtracking cannot help either `+`: no whitespace is `<` or `"`, and the
literal's run stops only at `>`, `"` or the end. -/
def matchInclude (s : List Char) : Option (List Char) :=
  if "#include".data.isPrefixOf s then
    let afterWord := s.drop 8
    let afterGap := afterWord.dropWhile isSpace
    match afterGap with
    | c :: body =>
      let lit := body.takeWhile fun d => d ≠ '>' ∧ d ≠ '"'
      if afterGap.length < afterWord.length ∧ (c = '<' ∨ c = '"') ∧ lit ≠ [] ∧
          lit.length < body.length then some lit
      else none
    | [] => none
  else none

/-- The body of `for line in f` in `extract_includes`, on
`(in_comment_block, includes)`. -/
def scanLine (acc : Bool × List String) (line : String) : Bool × List String :=
  let stripped := strip line
  let inBlock := contains stripped "/*" || acc.1
  if contains stripped "*/" then (false, acc.2)
  else if inBlock then (inBlock, acc.2)
  else if startswith stripped "//" then (inBlock, acc.2)
  else (inBlock, acc.2 ++ ((matchInclude stripped.data).map String.mk).toList)

/-- `extract_includes(filepath)`: a file that cannot be opened gives `[]`. -/
def extractIncludes (disk : Finder.Disk) (filepath : String) : List String :=
  match disk filepath with
  | some lines => (lines.foldl scanLine (false, [])).2
  | none => []

example : matchInclude "#include  <QtCore/QString>".data = some "QtCore/QString".data := by decide
example : matchInclude "# include \"a.h\"".data = none := by decide

/-- `resolve_include_path(include_path, from_file)`. -/
def resolveIncludePath (root : String) (fileMap : PyDict String String)
    (pathExists : String → Bool) (includePath fromFile : String) : Option String :=
  let basename := (PurePath.ofString includePath).name
  match fileMap.find? basename with
  | some p => some p
  | none =>
    let relativeToFile := ((PurePath.ofString fromFile).parent.join includePath).resolve.str
    if pathExists relativeToFile then some relativeToFile
    else
      let relativeToRoot := ((PurePath.ofString root).join includePath).resolve.str
      if pathExists relativeToRoot then some relativeToRoot
      else
        match fileMap.find? (lstrip (lstrip includePath "../") "./") with
        | some p => some p
        | none => (fileMap.entries.find? fun e => (PurePath.ofString e.2).name = basename).map Prod.snd

/-- One iteration order of `set(self.file_map.values())`. -/
structure ValueOrder (fileMap : PyDict String String) where
  order : List String
  perm : order.Perm (fileMap.entries.map Prod.snd).dedup

/-- `self.include_graph[filepath].add(resolved)` on the `defaultdict(set)`. -/
def addEdge {α : Type} [LinearOrder α] (g : Graph α) (filepath resolved : α) : Graph α :=
  let targets := succ g filepath
  g.insert filepath (if resolved ∈ targets then targets else targets ++ [resolved])

/-- The body of `for include_path in includes`: add the edge when the include resolves. -/
def addInclude (root : String) (fileMap : PyDict String String) (pathExists : String → Bool)
    (filepath : String) (g : Graph String) (includePath : String) : Graph String :=
  match resolveIncludePath root fileMap pathExists includePath filepath with
  | some resolved => addEdge g filepath resolved
  | none => g

/-- `build_dependency_graph()`. -/
def buildDependencyGraph (root : String) (fileMap : PyDict String String)
    (pathExists : String → Bool) (disk : Finder.Disk) (ord : ValueOrder fileMap) : Graph String :=
  ord.order.foldl (fun g filepath =>
    (extractIncludes disk filepath).foldl (addInclude root fileMap pathExists filepath) g)
    PyDict.empty

end IncludeGraph.Circular

namespace IncludeGraph.Circular

open Py

section Directive

open Finder (exists_split dropWhile_of_head head?_dropWhile)

/-- `#include\s+[<"]([^>"]+)[>"]` matches at the start of `s` with group 1 `lit`. -/
def DirectiveMatch (s lit : List Char) : Prop :=
  ∃ ws opening closing post, s = "#include".data ++ (ws ++ opening :: (lit ++ closing :: post)) ∧
    ws ≠ [] ∧ (∀ c ∈ ws, isSpace c) ∧ (opening = '<' ∨ opening = '"') ∧ lit ≠ [] ∧
    (∀ c ∈ lit, c ≠ '>' ∧ c ≠ '"') ∧ (closing = '>' ∨ closing = '"')

theorem takeWhile_delimited {lit post : List Char} {closing : Char}
    (hlit : ∀ c ∈ lit, c ≠ '>' ∧ c ≠ '"') (hclose : closing = '>' ∨ closing = '"') :
    (lit ++ closing :: post).takeWhile (fun d => d ≠ '>' ∧ d ≠ '"') = lit := by
  rw [List.takeWhile_append_of_pos fun c hc => decide_eq_true (hlit c hc)]
  rcases hclose with rfl | rfl <;> simp

/-- `matchInclude` computes the match of the checker's include pattern at the
start of a stripped line. -/
theorem matchInclude_eq_some_iff {s lit : List Char} :
    matchInclude s = some lit ↔ DirectiveMatch s lit := by
  constructor
  · intro h
    unfold matchInclude at h
    split_ifs at h with hpre
    obtain ⟨afterWord, rfl⟩ : ∃ t, s = "#include".data ++ t :=
      ⟨_, (List.prefix_iff_eq_append.mp (List.isPrefixOf_iff_prefix.mp hpre)).symm⟩
    rw [show ("#include".data ++ afterWord).drop 8 = afterWord from rfl] at h
    obtain ⟨ws, gap, rfl, hws, hgap, -⟩ := exists_split isSpace afterWord
    simp only [hgap] at h
    split at h
    · rename_i opening body
      split_ifs at h with hcond
      cases h
      obtain ⟨lit, tail, rfl, hlit, hd, ht⟩ := exists_split (fun d => d ≠ '>' ∧ d ≠ '"') body
      rw [ht] at hcond ⊢
      obtain ⟨closing, post, rfl⟩ := List.exists_cons_of_ne_nil (show tail ≠ [] from fun e => by
        simp [e] at hcond)
      have hclose := head?_dropWhile (p := fun d => d ≠ '>' ∧ d ≠ '"') (by rw [hd]; rfl)
      refine ⟨ws, opening, closing, post, rfl, fun e => ?_, hws, hcond.2.1, hcond.2.2.1,
        fun c hc => of_decide_eq_true (hlit c hc), ?_⟩
      · simp [e] at hcond
      · simpa [or_iff_not_imp_left] using hclose
    · cases h
  · rintro ⟨ws, opening, closing, post, rfl, hne, hws, hopen, hlit, hnot, hclose⟩
    have hgap : (ws ++ opening :: (lit ++ closing :: post)).dropWhile isSpace =
        opening :: (lit ++ closing :: post) :=
      dropWhile_of_head hws fun c hc => by
        cases hc; rcases hopen with rfl | rfl <;> decide
    have hpre : "#include".data.isPrefixOf ("#include".data ++ (ws ++ opening :: (lit ++ closing :: post))) :=
      List.isPrefixOf_iff_prefix.mpr (List.prefix_append _ _)
    obtain ⟨w, ws, rfl⟩ := List.exists_cons_of_ne_nil hne
    simp only [matchInclude, hpre, if_true,
      show ("#include".data ++ ((w :: ws) ++ opening :: (lit ++ closing :: post))).drop 8 =
        (w :: ws) ++ opening :: (lit ++ closing :: post) from rfl, hgap,
      takeWhile_delimited hnot hclose]
    rw [if_pos ⟨by simp; omega, hopen, hlit, by simp⟩]

/-- Mismatched delimiters are read as an include. -/
example : matchInclude "#include <a.h\"".data = some "a.h".data := by decide

end Directive

/-- A line with a comment marker. -/
def hasMarker (s : String) : Bool := contains s "/*" || contains s "*/"

/-- Whether `in_comment_block` is set after `earlier`: the last of them with a
marker has `/*` and no `*/`. -/
def blockOpenAfter (earlier : List String) : Bool :=
  match ((earlier.map strip).reverse.find? hasMarker) with
  | some s => !contains s "*/"
  | none => false

/-- What one line yields when the block flag before it is `inBlock`: its
include, unless it has a marker, lies in a block or starts with `//`. -/
def lineInclude (inBlock : Bool) (line : String) : Option String :=
  let s := strip line
  if hasMarker s || inBlock || startswith s "//" then none
  else (matchInclude s.data).map String.mk

theorem blockOpenAfter_append (earlier : List String) (line : String) :
    blockOpenAfter (earlier ++ [line]) =
      if hasMarker (strip line) then !contains (strip line) "*/" else blockOpenAfter earlier := by
  unfold blockOpenAfter
  by_cases h : hasMarker (strip line) <;> simp [h, List.find?_cons]

theorem scanLine_eq (inBlock : Bool) (found : List String) (line : String) :
    scanLine (inBlock, found) line =
      (if hasMarker (strip line) then !contains (strip line) "*/" else inBlock,
        found ++ (lineInclude inBlock line).toList) := by
  unfold scanLine lineInclude hasMarker
  cases h₁ : contains (strip line) "*/" <;> cases h₂ : contains (strip line) "/*" <;>
    cases inBlock <;> cases h₃ : startswith (strip line) "//" <;> simp [h₁, h₂, h₃]

/-- The loop of `extract_includes` in closed form: its flag is `blockOpenAfter`
of the lines read, and line `i` yields what `lineInclude` says under the flag
left by the lines before it. -/
theorem foldl_scanLine (lines : List String) :
    lines.foldl scanLine (false, []) = (blockOpenAfter lines,
      (List.range lines.length).filterMap fun i =>
        lineInclude (blockOpenAfter (lines.take i)) (lines.getD i "")) := by
  induction lines using List.reverseRecOn with
  | nil => rfl
  | append_singleton l x ih =>
    have hprefix : ∀ i ∈ List.range l.length,
        lineInclude (blockOpenAfter ((l ++ [x]).take i)) ((l ++ [x]).getD i "") =
          lineInclude (blockOpenAfter (l.take i)) (l.getD i "") := fun i hi => by
      have hi := List.mem_range.mp hi
      rw [List.take_append_of_le_length hi.le, List.getD_eq_getElem?_getD, List.getD_eq_getElem?_getD,
        List.getElem?_append_left hi]
    have hlast : lineInclude (blockOpenAfter ((l ++ [x]).take l.length)) ((l ++ [x]).getD l.length "") =
        lineInclude (blockOpenAfter l) x := by
      simp [List.getD_eq_getElem?_getD, List.getElem?_concat_length]
    rw [List.foldl_append, ih, List.foldl_cons, List.foldl_nil, scanLine_eq, blockOpenAfter_append,
      List.length_append, List.length_singleton, List.range_succ, List.filterMap_append,
      List.filterMap_congr hprefix, List.filterMap_cons, List.filterMap_nil, hlast]
    cases lineInclude (blockOpenAfter l) x <;> rfl

/-- The loop in closed form: line `i` yields its include unless its stripped
text has `/*` or `*/`, starts with `//`, or lies in a block, that is, the last
line before it with a marker has `/*` and no `*/`. A file that cannot be opened
reads as a file without lines, so it gives no include. -/
theorem extractIncludes_line_heuristic (disk : Finder.Disk) (filepath : String) :
    let lines := (disk filepath).getD []
    extractIncludes disk filepath = (List.range lines.length).filterMap fun i =>
      lineInclude (blockOpenAfter (lines.take i)) (lines.getD i "") := by
  cases h : disk filepath with
  | none => simp [extractIncludes, h]
  | some lines => simp only [extractIncludes, h, foldl_scanLine, Option.getD_some]

/-- A block comment around one include, closed on a line that also has one. -/
def commentedText : List String :=
  ["/* old", "#include \"x.h\"", "*/ #include \"y.h\"", "  #include <z.h>"]

example : extractIncludes (fun _ => some commentedText) "/r/a.cpp" = ["z.h"] := by decide

/-- For comparison, the lexer the spec describes: the code text of a line when
a block comment is open before it or not, and whether one is open after it. -/
def lexLine : Bool → List Char → List Char × Bool
  | true, '*' :: '/' :: rest => lexLine false rest
  | true, _ :: rest => lexLine true rest
  | true, [] => ([], true)
  | false, '/' :: '*' :: rest => lexLine true rest
  | false, '/' :: '/' :: _ => ([], false)
  | false, c :: rest => let r := lexLine false rest; (c :: r.1, r.2)
  | false, [] => ([], false)

/-- One line under `lexLine`, on `(block open, includes)`. -/
def lexStep (acc : Bool × List String) (line : String) : Bool × List String :=
  let r := lexLine acc.1 line.data
  (r.2, acc.2 ++ ((matchInclude (strip ⟨r.1⟩).data).map String.mk).toList)

/-- The includes the spec describes: the directive matched on each line's code
text under `lexLine`. -/
def lexedIncludes (lines : List String) : List String :=
  (lines.foldl lexStep (false, [])).2

/-- An include followed by a comment on its own line is dropped. -/
theorem extractIncludes_drops_trailing_comment :
    extractIncludes (fun _ => some ["#include \"a.h\" /* note */"]) "/r/a.cpp" = [] ∧
      lexedIncludes ["#include \"a.h\" /* note */"] = ["a.h"] := by
  decide

/-- `a/Foo.h`, `b/Foo.h` and `b/Bar.h` under `/r`, globbed in that order. -/
def twinFileMap : PyDict String String :=
  scanProject "/r" ["a/Foo.h", "b/Foo.h", "b/Bar.h"]

/-- `b/Bar.h` includes `"Foo.h"`, which names its neighbour `/r/b/Foo.h`. The key
`Foo.h` belongs to the first file globbed with that name, and the resolver tries
it before the includer's directory, whatever is on disk. -/
theorem resolveIncludePath_prefers_basename_key (pathExists : String → Bool) :
    ((PurePath.ofString "/r/b/Bar.h").parent.join "Foo.h").resolve.str = "/r/b/Foo.h" ∧
      "/r/b/Foo.h" ∈ twinFileMap.entries.map Prod.snd ∧
      resolveIncludePath "/r" twinFileMap pathExists "Foo.h" "/r/b/Bar.h" = some "/r/a/Foo.h" :=
  ⟨by decide, by decide, rfl⟩

end IncludeGraph.Circular
