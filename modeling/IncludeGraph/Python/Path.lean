import IncludeGraph.Python.Str

/-!
# `pathlib` paths

A pure path is its anchor and its list of components, as CPython stores it
(`drive + root` and `_tail`). Parsing follows `PurePosixPath._parse_path`: one
or three and more leading slashes are the root `/`, exactly two are kept, and
empty and `.` components are dropped. `..` is never folded: `Path` is lexical,
only `resolve()` touches the file system.

Both tools turn paths back into strings with `.replace('\\', '/')`. On
relative paths with forward slashes and no drive, which are all the paths the
tools build, the Windows flavour parses and prints the same way up to that
replacement, so one flavour is modelled.

A relative path written from components `Path` keeps, joined by `/`, parses
back to those components (`ofString_join`): the tools' own string building and
`Path`'s parsing agree.
-/

namespace IncludeGraph.Py

/-- A parsed pure path: `root` is `""`, `"/"` or `"//"`. -/
structure PurePath where
  root : String
  tail : List String
deriving Repr, DecidableEq

namespace PurePath

/-- `posixpath.splitroot` on the characters of a path. -/
def splitRoot : List Char → String × List Char
  | '/' :: '/' :: '/' :: rest => ("/", '/' :: '/' :: rest)
  | '/' :: '/' :: rest => ("//", rest)
  | '/' :: rest => ("/", rest)
  | s => ("", s)

/-- `Path(s)`. -/
def ofString (s : String) : PurePath :=
  let (root, rel) := splitRoot s.data
  { root := root
    tail := ((rel.splitOn '/').filter fun x => x ≠ [] ∧ x ≠ ['.']).map String.mk }

/-- `str(p)`. -/
def str (p : PurePath) : String :=
  if p.root ≠ "" then p.root ++ join "/" p.tail
  else if p.tail = [] then "." else join "/" p.tail

/-- `p.parts`: the anchor first when there is one. -/
def parts (p : PurePath) : List String :=
  if p.root ≠ "" then p.root :: p.tail else p.tail

/-- `p.name`. -/
def name (p : PurePath) : String :=
  p.tail.getLastD ""

/-- `p.parent`: a path without components is its own parent. -/
def parent (p : PurePath) : PurePath :=
  { p with tail := p.tail.dropLast }

/-- The position of the suffix dot of a name, when `0 < i < len(name) - 1`. -/
def suffixDot (name : List Char) : Option Nat :=
  match rfind '.' name with
  | some i => if 0 < i ∧ i < name.length - 1 then some i else none
  | none => none

/-- `p.suffix`. -/
def suffix (p : PurePath) : String :=
  match suffixDot p.name.data with
  | some i => ⟨p.name.data.drop i⟩
  | none => ""

/-- `p.stem`. -/
def stem (p : PurePath) : String :=
  match suffixDot p.name.data with
  | some i => ⟨p.name.data.take i⟩
  | none => p.name

/-- `p / s` for a string `s`: an absolute `s` replaces `p`. -/
def join (p : PurePath) (s : String) : PurePath :=
  let q := ofString s
  if q.root ≠ "" then q else { p with tail := p.tail ++ q.tail }

/-- `p.resolve()` on an absolute path with no symbolic links: `..` cancels the
component before it, and `..` at the root stays at the root. -/
def resolve (p : PurePath) : PurePath :=
  { root := "/", tail := p.tail.foldl (fun acc c => if c = ".." then acc.dropLast else acc ++ [c]) [] }

/-- A component that `Path` keeps when it parses a string: not empty, not `.`,
without `/`. -/
def IsComponent (c : String) : Prop := c ≠ "" ∧ c ≠ "." ∧ '/' ∉ c.data

/-- A piece of `xs.splitOn x` is made of elements of `xs` other than `x`. -/
theorem mem_of_mem_splitOn {β : Type} [DecidableEq β] {x : β} :
    ∀ {xs l : List β}, l ∈ xs.splitOn x → ∀ y ∈ l, y ∈ xs ∧ y ≠ x
  | [], l, hl => by simp at hl; simp [hl]
  | z :: zs, l, hl => by
    have ih : ∀ {l}, l ∈ zs.splitOn x → ∀ y ∈ l, y ∈ z :: zs ∧ y ≠ x := fun hl y hy =>
      ⟨List.mem_cons_of_mem _ (mem_of_mem_splitOn hl y hy).1, (mem_of_mem_splitOn hl y hy).2⟩
    rw [List.splitOn, List.splitOnP_cons, ← List.splitOn] at hl
    split_ifs at hl with hz
    · rcases List.mem_cons.mp hl with rfl | hl
      · simp
      · exact ih hl
    · obtain ⟨h, t, ht⟩ : ∃ h t, zs.splitOn x = h :: t :=
        List.exists_cons_of_ne_nil (List.splitOnP_ne_nil _ zs)
      rw [ht, List.modifyHead_cons] at hl
      rcases List.mem_cons.mp hl with rfl | hl
      · rintro y (_ | ⟨_, hy⟩)
        · exact ⟨List.mem_cons_self _ _, by simpa using hz⟩
        · exact ih (ht ▸ List.mem_cons_self _ _) y hy
      · exact ih (ht ▸ List.mem_cons_of_mem _ hl)

theorem splitRoot_suffix (l : List Char) : (splitRoot l).2 <:+ l := by
  unfold splitRoot
  split
  all_goals first | exact List.suffix_refl _ | exact List.suffix_cons _ _ |
    exact List.suffix_append [_, _] _

/-- A string whose first piece between slashes is not empty has no root. -/
theorem splitRoot_of_head {l : List Char} (h : ∀ p ∈ (l.splitOn '/').head?, p ≠ []) :
    splitRoot l = ("", l) := by
  match l, h with
  | [], _ => rfl
  | c :: l, h =>
    by_cases hc : c = '/'
    · subst hc
      simp [List.splitOn, List.splitOnP_cons] at h
    · unfold splitRoot
      split <;> simp_all

/-- Every component of a parsed path is one `Path` keeps, made of the string's
characters. -/
theorem isComponent_of_mem_tail {s c : String} (h : c ∈ (ofString s).tail) :
    IsComponent c ∧ ∀ y ∈ c.data, y ∈ s.data := by
  simp only [ofString, List.mem_map, List.mem_filter, decide_eq_true_eq] at h
  obtain ⟨l, ⟨hl, hne, hdot⟩, rfl⟩ := h
  refine ⟨⟨fun e => hne (congrArg String.data e), fun e => hdot (congrArg String.data e),
    fun hy => (mem_of_mem_splitOn hl '/' hy).2 rfl⟩, fun y hy => ?_⟩
  exact (splitRoot_suffix s.data).subset (mem_of_mem_splitOn hl y hy).1

/-- A path written from components `Path` keeps parses back to them. -/
theorem ofString_join {cs : List String} (h : ∀ c ∈ cs, IsComponent c) :
    ofString (Py.join "/" cs) = ⟨"", cs⟩ := by
  cases cs with
  | nil => rfl
  | cons c cs =>
    have hsplit : (Py.join "/" (c :: cs)).data.splitOn '/' = (c :: cs).map String.data :=
      List.splitOn_intercalate _ '/' (by simpa using fun c hc => (h c hc).2.2) (by simp)
    have hroot : splitRoot (Py.join "/" (c :: cs)).data = ("", (Py.join "/" (c :: cs)).data) :=
      splitRoot_of_head (by
        rw [hsplit]
        simpa using fun e => (h c (List.mem_cons_self c cs)).1 (String.ext e))
    have hkeep : ∀ d ∈ c :: cs, d.data ≠ [] ∧ d.data ≠ ['.'] := fun d hd =>
      ⟨fun e => (h d hd).1 (String.ext e), fun e => (h d hd).2.1 (String.ext e)⟩
    simp only [ofString, hroot, hsplit, mk.injEq, true_and]
    rw [List.filter_eq_self.mpr (by simpa using hkeep), List.map_map]
    exact List.map_id' _ ▸ rfl

theorem name_no_slash (s : String) : '/' ∉ (ofString s).name.data := by
  unfold name
  rw [List.getLastD_eq_getLast?]
  cases h : (ofString s).tail.getLast? with
  | none => simp
  | some c => exact (isComponent_of_mem_tail (List.mem_of_getLast?_eq_some h)).1.2.2

theorem stem_no_slash (s : String) : '/' ∉ (ofString s).stem.data := by
  unfold stem
  split
  · exact fun h => name_no_slash s (List.mem_of_mem_take h)
  · exact name_no_slash s

end PurePath

/-- `str(Path(s).parent).replace('\\', '/')`: the directory part of a key. -/
def parentStr (s : String) : String :=
  replaceChar (PurePath.ofString s).parent.str '\\' '/'

/-- `Path(s).name`. -/
def baseName (s : String) : String :=
  (PurePath.ofString s).name

example : PurePath.ofString "a//./b/../c.h" = ⟨"", ["a", "b", "..", "c.h"]⟩ := by decide
example : (PurePath.ofString "lib/Widget.h").stem = "Widget" := by decide
example : parentStr "Widget.h" = "." := by decide

end IncludeGraph.Py
