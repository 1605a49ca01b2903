import IncludeGraph.Finder.Parse
import IncludeGraph.Finder.Resolve

/-!
# Phase 3: the dependency graph

`build_dependency_graph` visits the artifacts in dict order. For each it reads
the includes, stores their literals, and resolves each one against the same
dict: a hit appends the target to the includer's `resolved_deps` and the
includer to the target's `included_by`; a miss appends a `BrokenInclude`.

The dict is mutated while it is iterated, but only node fields change, never
the keys, so every resolution sees the key set discovery produced. The main
result says what the two adjacency lists and the broken list are at the end.
-/

namespace IncludeGraph.Finder

open Py

/-- `node.resolved_deps.append(resolved)`. -/
def FileNode.addDep (resolved : String) (n : FileNode) : FileNode :=
  { n with resolvedDeps := n.resolvedDeps ++ [resolved] }

/-- `files[resolved].included_by.append(rel_path)`. -/
def FileNode.addIncluder (relPath : String) (n : FileNode) : FileNode :=
  { n with includedBy := n.includedBy ++ [relPath] }

/-- `node.raw_includes = [r for r, _ in raw_includes]`. -/
def FileNode.setRaw (raws : List String) (n : FileNode) : FileNode :=
  { n with rawIncludes := raws }

/-- The body of the inner loop: one include of `relPath`. `if resolved:` fails
for `None` and for the empty string. -/
def linkInclude (relPath : String) (acc : FileMap × List BrokenInclude) (inc : String × Nat) :
    FileMap × List BrokenInclude :=
  match resolveInclude inc.1 relPath acc.1 with
  | some resolved =>
    if resolved ≠ "" then
      (((acc.1.modify relPath (FileNode.addDep resolved)).modify resolved
        (FileNode.addIncluder relPath)), acc.2)
    else (acc.1, acc.2 ++ [⟨relPath, inc.1, inc.2⟩])
  | none => (acc.1, acc.2 ++ [⟨relPath, inc.1, inc.2⟩])

/-- The body of the outer loop: one artifact. -/
def scanArtifact (disk : Disk) (acc : FileMap × List BrokenInclude) (relPath : String) :
    FileMap × List BrokenInclude :=
  match acc.1.find? relPath with
  | none => acc
  | some node =>
    let incs := parseIncludes disk node.absPath
    incs.foldl (linkInclude relPath) (acc.1.modify relPath (FileNode.setRaw (incs.map Prod.fst)),
      acc.2)

/-- `build_dependency_graph(files, root)`: the updated dict and the broken list. -/
def buildDependencyGraph (disk : Disk) (files : FileMap) : FileMap × List BrokenInclude :=
  files.keys.foldl (scanArtifact disk) (files, [])

/-- `detect_aggregators`: artifacts with five or more resolved grain includes,
the advisory list of possibly missed entry points. -/
def detectAggregators (files : FileMap) : List String :=
  files.keys.filter fun k => 5 ≤ (files.depsOf k).countP fun d => contains d "_InstructionGrain"

end IncludeGraph.Finder

namespace IncludeGraph.Finder

open Py

/-- The includes of `a` as the builder reads them. -/
def includesOf (disk : Disk) (files : FileMap) (a : String) : List (String × Nat) :=
  match files.find? a with
  | some n => parseIncludes disk n.absPath
  | none => []

/-- The broken entry one include of `a` produces, if any. -/
def brokenEntry (files : FileMap) (a : String) (inc : String × Nat) : Option BrokenInclude :=
  if resolveInclude inc.1 a files = none then some ⟨a, inc.1, inc.2⟩ else none

/-- What both loops of the builder keep, measured against the discovered dict:
the keys, every absolute path, the mirror between the two adjacency lists, and
closure of both lists under the keys. -/
structure LinkInv (files acc : FileMap) : Prop where
  keys : acc.keys = files.keys
  kept : ∀ x, (acc.find? x).map FileNode.kept = (files.find? x).map FileNode.kept
  mirror : ∀ a b, (acc.depsOf a).count b = (acc.includedByOf b).count a
  closed : acc.Closed

section Link

variable {files : FileMap} {a : String}

theorem depsOf_addDep {acc : FileMap} {k : String} (hk : k ∈ acc.keys) (r x : String) :
    FileMap.depsOf (acc.modify k (FileNode.addDep r)) x =
      acc.depsOf x ++ if x = k then [r] else [] := by
  obtain ⟨n, hn⟩ := PyDict.find?_of_mem hk
  rw [FileMap.depsOf_modify]
  split_ifs with h
  · subst h; simp [FileMap.depsOf, hn, FileNode.addDep]
  · simp

theorem includedByOf_addIncluder {acc : FileMap} {k : String} (hk : k ∈ acc.keys) (r x : String) :
    FileMap.includedByOf (acc.modify k (FileNode.addIncluder r)) x =
      acc.includedByOf x ++ if x = k then [r] else [] := by
  obtain ⟨n, hn⟩ := PyDict.find?_of_mem hk
  rw [FileMap.includedByOf_modify]
  split_ifs with h
  · subst h; simp [FileMap.includedByOf, hn, FileNode.addIncluder]
  · simp

/-- Linking one resolved include keeps the invariant: the edge is appended to
both lists at once. -/
private theorem linkInv_link {acc : FileMap} (inv : LinkInv files acc) (ha : a ∈ files.keys)
    {r : String} (hr : r ∈ files.keys) :
    LinkInv files ((acc.modify a (FileNode.addDep r)).modify r (FileNode.addIncluder a)) ∧
      ∀ x, FileMap.depsOf ((acc.modify a (FileNode.addDep r)).modify r (FileNode.addIncluder a)) x =
        acc.depsOf x ++ if x = a then [r] else [] := by
  have ha' : a ∈ acc.keys := inv.keys ▸ ha
  have hr' : r ∈ acc.keys := inv.keys ▸ hr
  have deps : ∀ x, FileMap.depsOf ((acc.modify a (FileNode.addDep r)).modify r
      (FileNode.addIncluder a)) x = acc.depsOf x ++ if x = a then [r] else [] := fun x => by
    rw [FileMap.depsOf_modify_of_deps _ _ _ (g := FileNode.addIncluder a) fun _ => rfl,
      depsOf_addDep ha']
  have incl : ∀ y, FileMap.includedByOf ((acc.modify a (FileNode.addDep r)).modify r
      (FileNode.addIncluder a)) y = acc.includedByOf y ++ if y = r then [a] else [] := fun y => by
    rw [includedByOf_addIncluder (by simpa using hr'),
      FileMap.includedByOf_modify_of_includedBy _ _ _ (g := FileNode.addDep r) fun _ => rfl]
  refine ⟨⟨by simp [inv.keys], fun x => ?_, fun x y => ?_, fun x => ⟨fun d hd => ?_, fun d hd => ?_⟩⟩,
    deps⟩
  · rw [FileMap.find?_modify_proj _ _ _ FileNode.kept (g := FileNode.addIncluder a) fun _ => rfl,
      FileMap.find?_modify_proj _ _ _ FileNode.kept (g := FileNode.addDep r) fun _ => rfl, inv.kept]
  · rw [deps, incl, List.count_append, List.count_append, inv.mirror x y]
    by_cases hx : x = a <;> by_cases hy : y = r <;> simp [hx, hy]
  · rcases List.mem_append.mp (deps x ▸ hd) with hd | hd
    · simpa [inv.keys] using (inv.closed x).1 d hd
    · split_ifs at hd <;> simp_all
  · rcases List.mem_append.mp (incl x ▸ hd) with hd | hd
    · simpa [inv.keys] using (inv.closed x).2 d hd
    · split_ifs at hd <;> simp_all

variable (hne : ∀ k ∈ files.keys, k ≠ "")
include hne

theorem linkInclude_spec (ha : a ∈ files.keys) {acc : FileMap × List BrokenInclude}
    (inv : LinkInv files acc.1) (inc : String × Nat) :
    LinkInv files (linkInclude a acc inc).1 ∧
      (∀ x, (linkInclude a acc inc).1.depsOf x =
        acc.1.depsOf x ++ if x = a then (resolveInclude inc.1 a files).toList else []) ∧
      (linkInclude a acc inc).2 = acc.2 ++ (brokenEntry files a inc).toList := by
  have same : resolveInclude inc.1 a acc.1 = resolveInclude inc.1 a files :=
    resolveInclude_perm _ _ (List.Perm.of_eq inv.keys)
  cases hr : resolveInclude inc.1 a files with
  | none => simp [linkInclude, same, hr, brokenEntry, inv]
  | some r =>
    have hrk : r ∈ files.keys := resolveInclude_mem hr
    obtain ⟨inv', deps⟩ := linkInv_link inv ha hrk
    simp only [linkInclude, same, hr, ne_eq, hne r hrk, not_false_eq_true, if_true, brokenEntry,
      reduceCtorEq, if_false, Option.toList_none, List.append_nil]
    exact ⟨inv', fun x => by simpa using deps x, trivial⟩

theorem linkAll_spec (ha : a ∈ files.keys) :
    ∀ (incs : List (String × Nat)) (acc : FileMap × List BrokenInclude), LinkInv files acc.1 →
      LinkInv files (incs.foldl (linkInclude a) acc).1 ∧
        (∀ x, (incs.foldl (linkInclude a) acc).1.depsOf x = acc.1.depsOf x ++
          if x = a then incs.filterMap (fun inc => resolveInclude inc.1 a files) else []) ∧
        (incs.foldl (linkInclude a) acc).2 = acc.2 ++ incs.filterMap (brokenEntry files a)
  | [], acc, inv => ⟨inv, fun x => by simp, by simp⟩
  | inc :: incs, acc, inv => by
    obtain ⟨inv₁, deps₁, broken₁⟩ := linkInclude_spec hne ha inv inc
    obtain ⟨inv₂, deps₂, broken₂⟩ := linkAll_spec ha incs _ inv₁
    refine ⟨inv₂, fun x => ?_, ?_⟩
    · rw [List.foldl_cons, deps₂, deps₁, List.filterMap_cons]
      split_ifs <;> cases resolveInclude inc.1 a files <;> simp
    · rw [List.foldl_cons, broken₂, broken₁, List.filterMap_cons]
      cases brokenEntry files a inc <;> simp

theorem scanArtifact_spec (disk : Disk) (ha : a ∈ files.keys) {acc : FileMap × List BrokenInclude}
    (inv : LinkInv files acc.1) :
    LinkInv files (scanArtifact disk acc a).1 ∧
      (∀ x, (scanArtifact disk acc a).1.depsOf x = acc.1.depsOf x ++
        if x = a then (includesOf disk files a).filterMap (fun inc => resolveInclude inc.1 a files)
        else []) ∧
      (scanArtifact disk acc a).2 = acc.2 ++ (includesOf disk files a).filterMap (brokenEntry files a) := by
  obtain ⟨node, hnode⟩ := PyDict.find?_of_mem (inv.keys ▸ ha : a ∈ acc.1.keys)
  obtain ⟨n, hn, habs⟩ : ∃ n, files.find? a = some n ∧ n.absPath = node.absPath := by
    have := inv.kept a
    rw [hnode] at this
    cases h : files.find? a <;> simp_all [FileNode.kept]
  let raws := (parseIncludes disk node.absPath).map Prod.fst
  have keepDeps : ∀ x, FileMap.depsOf (acc.1.modify a (FileNode.setRaw raws)) x = acc.1.depsOf x :=
    fun x => FileMap.depsOf_modify_of_deps _ _ x (g := FileNode.setRaw raws) fun _ => rfl
  have keepIncl : ∀ x, FileMap.includedByOf (acc.1.modify a (FileNode.setRaw raws)) x =
      acc.1.includedByOf x :=
    fun x => FileMap.includedByOf_modify_of_includedBy _ _ x (g := FileNode.setRaw raws) fun _ => rfl
  have raw : LinkInv files (acc.1.modify a (FileNode.setRaw raws)) := by
    refine ⟨by simp [inv.keys], fun x => ?_, fun x y => ?_, fun x => ?_⟩
    · rw [FileMap.find?_modify_proj _ _ _ FileNode.kept (g := FileNode.setRaw raws) fun _ => rfl, inv.kept]
    · rw [keepDeps, keepIncl, inv.mirror]
    · rw [keepDeps, keepIncl, PyDict.keys_modify]
      exact inv.closed x
  obtain ⟨inv', deps, broken⟩ :=
    linkAll_spec hne ha (parseIncludes disk node.absPath)
      (acc.1.modify a (FileNode.setRaw raws), acc.2) raw
  simp only [scanArtifact, hnode, includesOf, hn, habs]
  exact ⟨inv', fun x => by rw [deps, keepDeps], broken⟩

theorem scanAll_spec (disk : Disk) :
    ∀ (ks : List String), ks.Nodup → (∀ k ∈ ks, k ∈ files.keys) →
      ∀ (acc : FileMap × List BrokenInclude), LinkInv files acc.1 →
        LinkInv files (ks.foldl (scanArtifact disk) acc).1 ∧
          (∀ x, (ks.foldl (scanArtifact disk) acc).1.depsOf x = acc.1.depsOf x ++
            if x ∈ ks then (includesOf disk files x).filterMap (fun inc => resolveInclude inc.1 x files)
            else []) ∧
          (ks.foldl (scanArtifact disk) acc).2 =
            acc.2 ++ ks.flatMap fun k => (includesOf disk files k).filterMap (brokenEntry files k)
  | [], _, _, acc, inv => ⟨inv, fun x => by simp, by simp⟩
  | k :: ks, hnd, hks, acc, inv => by
    obtain ⟨inv₁, deps₁, broken₁⟩ := scanArtifact_spec hne disk (hks k (List.mem_cons_self k ks)) inv
    obtain ⟨inv₂, deps₂, broken₂⟩ := scanAll_spec disk ks (List.nodup_cons.mp hnd).2
      (fun k' h => hks k' (List.mem_cons_of_mem k h)) _ inv₁
    refine ⟨inv₂, fun x => ?_, ?_⟩
    · rw [List.foldl_cons, deps₂, deps₁]
      by_cases hx : x = k
      · subst hx; simp [(List.nodup_cons.mp hnd).1]
      · simp [hx]
    · rw [List.foldl_cons, broken₂, broken₁]; simp

end Link

/-- The broken entries of one includer, taken out of the entries of all of them. -/
private theorem filter_includer_flatMap (g : String → List BrokenInclude)
    (hg : ∀ k, ∀ b ∈ g k, b.includer = k) (a : String) :
    ∀ {ks : List String}, ks.Nodup →
      (ks.flatMap g).filter (fun b => b.includer = a) = if a ∈ ks then g a else []
  | [], _ => rfl
  | k :: ks, hnd => by
    have rest := filter_includer_flatMap g hg a (List.nodup_cons.mp hnd).2
    rw [List.flatMap_cons, List.filter_append, rest]
    by_cases hk : k = a
    · subst hk
      have : (g k).filter (fun b => b.includer = k) = g k := List.filter_eq_self.mpr (by simpa using hg k)
      simp [this, (List.nodup_cons.mp hnd).1]
    · have : (g k).filter (fun b => b.includer = a) = [] :=
        List.filter_eq_nil_iff.mpr fun b hb => by simpa [hg k b hb] using hk
      simp [this, Ne.symm hk]

theorem length_filterMap_split (files : FileMap) (a : String) :
    ∀ l : List (String × Nat), l.length =
      (l.filterMap fun inc => resolveInclude inc.1 a files).length +
        (l.filterMap (brokenEntry files a)).length
  | [] => rfl
  | inc :: l => by
    have := length_filterMap_split files a l
    cases h : resolveInclude inc.1 a files <;>
      simp [List.filterMap_cons, h, brokenEntry, this] <;> omega

/-- The whole run of the builder from a dict with empty adjacency: the loop
invariant holds at the end, each artifact's dependencies are the hits of its
includes, and the broken list is the misses, artifact by artifact in dict order. -/
theorem buildDependencyGraph_eq (disk : Disk) (files : FileMap)
    (hempty : ∀ k n, files.find? k = some n → n.resolvedDeps = [] ∧ n.includedBy = [])
    (hne : ∀ k ∈ files.keys, k ≠ "") :
    LinkInv files (buildDependencyGraph disk files).1 ∧
      (∀ a, (buildDependencyGraph disk files).1.depsOf a =
        if a ∈ files.keys then
          (includesOf disk files a).filterMap (fun inc => resolveInclude inc.1 a files)
        else []) ∧
      (buildDependencyGraph disk files).2 =
        files.keys.flatMap fun k => (includesOf disk files k).filterMap (brokenEntry files k) := by
  have deps0 : ∀ a, files.depsOf a = [] := fun a => by
    unfold FileMap.depsOf
    cases h : files.find? a with
    | none => rfl
    | some n => simp [(hempty a n h).1]
  have incl0 : ∀ a, files.includedByOf a = [] := fun a => by
    unfold FileMap.includedByOf
    cases h : files.find? a with
    | none => rfl
    | some n => simp [(hempty a n h).2]
  have init : LinkInv files files :=
    ⟨rfl, fun _ => rfl, fun a b => by rw [deps0, incl0]; rfl, fun a => by simp [deps0, incl0]⟩
  obtain ⟨inv, deps, broken⟩ :=
    scanAll_spec hne disk files.keys files.nodup_keys (fun _ h => h) (files, []) init
  exact ⟨inv, fun a => by rw [buildDependencyGraph, deps, deps0, List.nil_append],
    by rw [buildDependencyGraph, broken, List.nil_append]⟩

section Artifact

variable (disk : Disk) {files : FileMap}
  (hempty : ∀ k n, files.find? k = some n → n.resolvedDeps = [] ∧ n.includedBy = [])
  (hne : ∀ k ∈ files.keys, k ≠ "")

include hempty hne in
/-- One artifact after the builder: its `resolved_deps` are the hits of its
includes in line order, its broken entries the misses, and together they
account for every include. -/
theorem buildDependencyGraph_artifact {a : String} {n : FileNode} (hn : files.find? a = some n) :
    (buildDependencyGraph disk files).1.depsOf a =
        (parseIncludes disk n.absPath).filterMap (fun inc => resolveInclude inc.1 a files) ∧
      (buildDependencyGraph disk files).2.filter (fun b => b.includer = a) =
        (parseIncludes disk n.absPath).filterMap (fun inc =>
          if resolveInclude inc.1 a files = none then some ⟨a, inc.1, inc.2⟩ else none) ∧
      (parseIncludes disk n.absPath).length =
        ((buildDependencyGraph disk files).1.depsOf a).length +
          ((buildDependencyGraph disk files).2.filter (fun b => b.includer = a)).length := by
  obtain ⟨-, deps, broken⟩ := buildDependencyGraph_eq disk files hempty hne
  have ha : a ∈ files.keys := PyDict.mem_keys_iff_find?.mpr (by simp [hn])
  have hinc : includesOf disk files a = parseIncludes disk n.absPath := by simp [includesOf, hn]
  have hdeps : (buildDependencyGraph disk files).1.depsOf a =
      (parseIncludes disk n.absPath).filterMap (fun inc => resolveInclude inc.1 a files) := by
    rw [deps, if_pos ha, hinc]
  have hbroken : (buildDependencyGraph disk files).2.filter (fun b => b.includer = a) =
      (parseIncludes disk n.absPath).filterMap (brokenEntry files a) := by
    rw [broken, filter_includer_flatMap _ (fun k b hb => ?_) a files.nodup_keys, if_pos ha, hinc]
    obtain ⟨inc, -, hinc⟩ := List.mem_filterMap.mp hb
    unfold brokenEntry at hinc
    split_ifs at hinc
    cases hinc; rfl
  exact ⟨hdeps, hbroken, by rw [hdeps, hbroken]; exact length_filterMap_split files a _⟩

end Artifact

/-- `build_dependency_graph` on a dict with empty adjacency and non-empty keys:
each artifact's `resolved_deps` lists the hits of its includes in line order,
its broken entries are the misses in line order, and together they account for
every include; both adjacency lists stay inside the keys and mirror each other
edge for edge. -/
theorem buildDependencyGraph_spec (disk : Disk) (files : FileMap)
    (hempty : ∀ k n, files.find? k = some n → n.resolvedDeps = [] ∧ n.includedBy = [])
    (hne : ∀ k ∈ files.keys, k ≠ "") :
    (buildDependencyGraph disk files).1.keys = files.keys ∧
      (∀ a n, files.find? a = some n →
        (buildDependencyGraph disk files).1.depsOf a =
            (parseIncludes disk n.absPath).filterMap (fun inc => resolveInclude inc.1 a files) ∧
          (buildDependencyGraph disk files).2.filter (fun b => b.includer = a) =
            (parseIncludes disk n.absPath).filterMap (fun inc =>
              if resolveInclude inc.1 a files = none then some ⟨a, inc.1, inc.2⟩ else none) ∧
          (parseIncludes disk n.absPath).length =
            ((buildDependencyGraph disk files).1.depsOf a).length +
              ((buildDependencyGraph disk files).2.filter (fun b => b.includer = a)).length) ∧
      (buildDependencyGraph disk files).1.Closed ∧
      ∀ a b, ((buildDependencyGraph disk files).1.depsOf a).count b =
        ((buildDependencyGraph disk files).1.includedByOf b).count a := by
  obtain ⟨inv, -, -⟩ := buildDependencyGraph_eq disk files hempty hne
  exact ⟨inv.keys, fun _ _ hn => buildDependencyGraph_artifact disk hempty hne hn, inv.closed,
    inv.mirror⟩

/-- The same description on every dict `discover_files` returns, whose nodes
start with empty adjacency and whose keys are non-empty, so no side condition
is left to the caller. -/
theorem buildDependencyGraph_discoverFiles (disk : Disk) (tree : List Entry) (excludes : List String) :
    let files := discoverFiles tree excludes
    (buildDependencyGraph disk files).1.keys = files.keys ∧
      (∀ a n, files.find? a = some n →
        (buildDependencyGraph disk files).1.depsOf a =
            (parseIncludes disk n.absPath).filterMap (fun inc => resolveInclude inc.1 a files) ∧
          (buildDependencyGraph disk files).2.filter (fun b => b.includer = a) =
            (parseIncludes disk n.absPath).filterMap (fun inc =>
              if resolveInclude inc.1 a files = none then some ⟨a, inc.1, inc.2⟩ else none) ∧
          (parseIncludes disk n.absPath).length =
            ((buildDependencyGraph disk files).1.depsOf a).length +
              ((buildDependencyGraph disk files).2.filter (fun b => b.includer = a)).length) ∧
      (buildDependencyGraph disk files).1.Closed ∧
      ∀ a b, ((buildDependencyGraph disk files).1.depsOf a).count b =
        ((buildDependencyGraph disk files).1.includedByOf b).count a := by
  have wf := discoverFiles_wf tree excludes
  obtain ⟨inv, -, -⟩ := buildDependencyGraph_eq disk _ wf.1.adjacency_nil wf.2
  exact ⟨inv.keys, fun _ _ hn => buildDependencyGraph_artifact disk wf.1.adjacency_nil wf.2 hn,
    inv.closed, inv.mirror⟩

end IncludeGraph.Finder

namespace IncludeGraph.Finder

/-- The tree of the spec's third and fourth scenarios. -/
def widgetProject : List Entry :=
  [⟨["main.cpp"], true, 10, "/r/main.cpp", by decide, by decide⟩,
    ⟨["lib", "Widget.h"], true, 10, "/r/lib/Widget.h", by decide, by decide⟩,
    ⟨["lib", "Widget.cpp"], true, 10, "/r/lib/Widget.cpp", by decide, by decide⟩]

/-- `main.cpp` includes `lib/Widget.h` and the missing `missing/Ghost.h`;
nothing includes `lib/Widget.cpp`. -/
def widgetDisk : Disk := fun p =>
  if p = "/r/main.cpp" then some ["#include \"lib/Widget.h\"\n", "#include \"missing/Ghost.h\"\n"]
  else some []

theorem buildDependencyGraph_spec_widget :
    let files := discoverFiles widgetProject defaultExcludes
    ((∀ k n, files.find? k = some n → n.resolvedDeps = [] ∧ n.includedBy = []) ∧
        ∀ k ∈ files.keys, k ≠ "") ∧
      (buildDependencyGraph widgetDisk files).1.keys = files.keys ∧
      (∀ a n, files.find? a = some n →
        (buildDependencyGraph widgetDisk files).1.depsOf a =
            (parseIncludes widgetDisk n.absPath).filterMap
              (fun inc => resolveInclude inc.1 a files) ∧
          (buildDependencyGraph widgetDisk files).2.filter (fun b => b.includer = a) =
            (parseIncludes widgetDisk n.absPath).filterMap (fun inc =>
              if resolveInclude inc.1 a files = none then some ⟨a, inc.1, inc.2⟩ else none) ∧
          (parseIncludes widgetDisk n.absPath).length =
            ((buildDependencyGraph widgetDisk files).1.depsOf a).length +
              ((buildDependencyGraph widgetDisk files).2.filter (fun b => b.includer = a)).length) ∧
      (buildDependencyGraph widgetDisk files).1.Closed ∧
      ∀ a b, ((buildDependencyGraph widgetDisk files).1.depsOf a).count b =
        ((buildDependencyGraph widgetDisk files).1.includedByOf b).count a := by
  intro files
  have wf := discoverFiles_wf widgetProject defaultExcludes
  have hempty : ∀ k n, files.find? k = some n → n.resolvedDeps = [] ∧ n.includedBy = [] :=
    fun k n h => ⟨(wf.1 k n h).1, (wf.1 k n h).2.1⟩
  exact ⟨⟨hempty, wf.2⟩, buildDependencyGraph_spec widgetDisk files hempty wf.2⟩

example : (buildDependencyGraph widgetDisk (discoverFiles widgetProject defaultExcludes)).2 =
    [⟨"main.cpp", "missing/Ghost.h", 2⟩] := by
  decide

end IncludeGraph.Finder
