import IncludeGraph.Python.Dict
import IncludeGraph.Python.Path

/-!
# The artifact map of `dead_file_finder.py`

The finder keeps one `FileNode` per discovered file in a dict keyed by the
file's root-relative path with forward slashes. Discovery fills the fixed
fields, the graph builder appends to `resolved_deps` and `included_by`, and the
reachability walk writes `reachable`, `depth` and `is_entry`.

`ALL_EXTENSIONS` is a Python set, iterated in an order fixed by the string hash
seed. The walk iterates it, so an `ExtOrder` is one such order: a list that is a
permutation of the extensions. Every theorem about the walk holds for all of
them.
-/

namespace IncludeGraph.Finder

open Py

/-- `SOURCE_EXTENSIONS`. -/
def sourceExtensions : List String := [".cpp", ".cxx", ".cc", ".c"]

/-- `HEADER_EXTENSIONS`. -/
def headerExtensions : List String := [".h", ".hpp", ".hxx", ".inl"]

/-- `ALL_EXTENSIONS`, as a list of its members. -/
def allExtensions : List String := sourceExtensions ++ headerExtensions

/-- `DEFAULT_EXCLUDES`. -/
def defaultExcludes : List String :=
  ["build", "Build", ".git", "third_party", "external", "deps", "node_modules",
    "__pycache__", ".vs", "Debug", "Release", "x64", "x86", "CMakeFiles",
    "cmake-build-debug", "cmake-build-release", ".moc", ".rcc", ".uic", "autogen",
    "GeneratedFiles"]

/-- `MAIN_CANDIDATES`, tried in this order. -/
def mainCandidates : List String := ["main.cpp", "Main.cpp", "main.cxx", "main.cc"]

/-- One iteration order of the set `ALL_EXTENSIONS`. -/
structure ExtOrder where
  exts : List String
  perm : exts.Perm allExtensions

/-- The order in which the members of `ALL_EXTENSIONS` are written in the source. -/
def ExtOrder.written : ExtOrder := ⟨allExtensions, List.Perm.refl _⟩

theorem ExtOrder.mem_exts (ord : ExtOrder) {ext : String} :
    ext ∈ ord.exts ↔ ext ∈ allExtensions :=
  ord.perm.mem_iff

/-- `FileNode`: discovery data, graph adjacency and reachability marks. -/
structure FileNode where
  absPath : String
  relPath : String
  extension : String
  sizeBytes : Nat := 0
  rawIncludes : List String := []
  resolvedDeps : List String := []
  includedBy : List String := []
  reachable : Bool := false
  depth : Int := -1
  isEntry : Bool := false
  isGrain : Bool := false
deriving Repr, DecidableEq

/-- The fields the graph builder never writes: the path it opens and the
reachability marks. -/
def FileNode.kept (n : FileNode) : String × Bool × Int × Bool :=
  (n.absPath, n.reachable, n.depth, n.isEntry)

/-- `BrokenInclude`: an include the resolver could not place. -/
structure BrokenInclude where
  includer : String
  rawInclude : String
  lineNumber : Nat
deriving Repr, DecidableEq

/-- The `files` dict shared by every phase. -/
abbrev FileMap := PyDict String FileNode

namespace FileMap

/-- `files[k].resolved_deps`, empty for an absent key. -/
def depsOf (files : FileMap) (k : String) : List String :=
  ((files.find? k).map FileNode.resolvedDeps).getD []

/-- `files[k].included_by`, empty for an absent key. -/
def includedByOf (files : FileMap) (k : String) : List String :=
  ((files.find? k).map FileNode.includedBy).getD []

/-- `k in files`. -/
def contains (files : FileMap) (k : String) : Bool := decide (k ∈ files.keys)

@[simp] theorem contains_iff (files : FileMap) (k : String) :
    files.contains k = true ↔ k ∈ files.keys := by
  simp [contains]

/-- Every node as discovery creates it: no adjacency and no reachability marks. -/
def Fresh (files : FileMap) : Prop :=
  ∀ k n, files.find? k = some n →
    n.resolvedDeps = [] ∧ n.includedBy = [] ∧ n.reachable = false ∧ n.depth = -1 ∧
      n.isEntry = false

theorem Fresh.adjacency_nil {files : FileMap} (h : files.Fresh) :
    ∀ k n, files.find? k = some n → n.resolvedDeps = [] ∧ n.includedBy = [] :=
  fun k n hn => ⟨(h k n hn).1, (h k n hn).2.1⟩

/-- Every adjacency entry names an artifact of the map. -/
def Closed (files : FileMap) : Prop :=
  ∀ a, (∀ d ∈ files.depsOf a, d ∈ files.keys) ∧ ∀ d ∈ files.includedByOf a, d ∈ files.keys

section Views

variable (files : FileMap) (k x : String)

theorem depsOf_modify (g : FileNode → FileNode) :
    depsOf (files.modify k g) x =
      if x = k then ((files.find? x).map fun n => (g n).resolvedDeps).getD [] else files.depsOf x := by
  unfold depsOf; rw [PyDict.find?_modify]; split_ifs <;> simp [Option.map_map, Function.comp_def]

theorem includedByOf_modify (g : FileNode → FileNode) :
    includedByOf (files.modify k g) x =
      if x = k then ((files.find? x).map fun n => (g n).includedBy).getD [] else
        files.includedByOf x := by
  unfold includedByOf; rw [PyDict.find?_modify]; split_ifs <;> simp [Option.map_map, Function.comp_def]

theorem depsOf_modify_of_deps {g : FileNode → FileNode} (hg : ∀ n, (g n).resolvedDeps = n.resolvedDeps) :
    depsOf (files.modify k g) x = files.depsOf x := by
  rw [depsOf_modify]; split_ifs with h
  · simp [depsOf, hg]
  · rfl

theorem includedByOf_modify_of_includedBy {g : FileNode → FileNode} (hg : ∀ n, (g n).includedBy = n.includedBy) :
    includedByOf (files.modify k g) x = files.includedByOf x := by
  rw [includedByOf_modify]; split_ifs with h
  · simp [includedByOf, hg]
  · rfl

theorem find?_modify_proj {β : Type} (proj : FileNode → β) {g : FileNode → FileNode}
    (hg : ∀ n, proj (g n) = proj n) :
    ((files.modify k g).find? x).map proj = (files.find? x).map proj := by
  rw [PyDict.find?_modify]; split_ifs <;> simp [Option.map_map, Function.comp_def, hg]

end Views

end FileMap

end IncludeGraph.Finder
