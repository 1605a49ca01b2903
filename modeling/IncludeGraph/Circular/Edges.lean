import IncludeGraph.Circular.Checker

/-!
# The edges of the checker's graph

`build_dependency_graph` adds the edge `f → r` for every include of a file `f`
that resolves to `r`, into a `defaultdict(set)`. Each insertion keeps the graph
a graph of sets: every neighbour list is duplicate-free, and a node is a key
exactly when it has a neighbour. Lifted over both loops, the successors of a
node are the resolved includes of a discovered file, whatever order
`set(file_map.values())` is iterated in. This is the graph the cycle search
runs on.
-/

namespace IncludeGraph.Circular

open Py

section SetGraph

variable {α : Type} [LinearOrder α]

/-- The invariant of the `defaultdict(set)`: duplicate-free neighbour lists, and
a key exactly for each node with a neighbour. -/
structure SetGraph (g : Graph α) : Prop where
  nodup : ∀ v, (succ g v).Nodup
  keys : ∀ v, v ∈ g.keys ↔ succ g v ≠ []

theorem SetGraph.empty : SetGraph (PyDict.empty : Graph α) :=
  ⟨fun _ => List.nodup_nil, fun _ => by simp [PyDict.empty, PyDict.keys, succ, PyDict.find?]⟩

theorem succ_addEdge (g : Graph α) (f r v : α) :
    succ (addEdge g f r) v =
      if v = f then (if r ∈ succ g f then succ g f else succ g f ++ [r]) else succ g v := by
  simp only [addEdge, succ, PyDict.find?_insert]
  split_ifs <;> simp_all

theorem mem_succ_addEdge (g : Graph α) (f r v w : α) :
    w ∈ succ (addEdge g f r) v ↔ w ∈ succ g v ∨ (v = f ∧ w = r) := by
  rw [succ_addEdge]
  by_cases hv : v = f
  · subst hv
    by_cases hr : r ∈ succ g v
    · simp only [if_true, hr, true_and]
      exact ⟨Or.inl, fun h => h.elim id (· ▸ hr)⟩
    · simp [hr]
  · simp [hv]

/-- One `set.add` keeps the invariant. -/
theorem SetGraph.addEdge {g : Graph α} (h : SetGraph g) (f r : α) :
    SetGraph (addEdge g f r) := by
  refine ⟨fun v => ?_, fun v => ?_⟩
  · rw [succ_addEdge]
    split_ifs with _ hr
    · exact h.nodup f
    · exact (h.nodup f).append (List.nodup_singleton r) (List.disjoint_singleton.mpr hr)
    · exact h.nodup v
  · unfold Circular.addEdge
    rw [PyDict.mem_keys_insert, ← Circular.addEdge]
    by_cases hv : v = f
    · simp only [hv, true_or, true_iff]
      exact List.ne_nil_of_mem ((mem_succ_addEdge g f r f r).mpr (.inr ⟨rfl, rfl⟩))
    · rw [succ_addEdge, if_neg hv, h.keys]
      simp [hv]

end SetGraph

section Loops

variable (root : String) (fileMap : PyDict String String) (pathExists : String → Bool)

/-- The inner loop over one file's includes. -/
theorem foldl_addInclude (f : String) :
    ∀ (includes : List String) (g : Graph String), SetGraph g →
      SetGraph (includes.foldl (addInclude root fileMap pathExists f) g) ∧
        ∀ v w, w ∈ succ (includes.foldl (addInclude root fileMap pathExists f) g) v ↔
          w ∈ succ g v ∨
            (v = f ∧ ∃ inc ∈ includes, resolveIncludePath root fileMap pathExists inc f = some w)
  | [], g, h => ⟨h, by simp⟩
  | inc :: incs, g, h => by
    have step : SetGraph (addInclude root fileMap pathExists f g inc) ∧
        ∀ v w, w ∈ succ (addInclude root fileMap pathExists f g inc) v ↔
          w ∈ succ g v ∨ (v = f ∧ resolveIncludePath root fileMap pathExists inc f = some w) := by
      unfold addInclude
      cases resolveIncludePath root fileMap pathExists inc f with
      | none => exact ⟨h, by simp⟩
      | some r => exact ⟨h.addEdge f r, fun v w => by rw [mem_succ_addEdge]; simp [eq_comm]⟩
    obtain ⟨h₁, mem₁⟩ := foldl_addInclude f incs _ step.1
    refine ⟨h₁, fun v w => ?_⟩
    rw [List.foldl_cons, mem₁, step.2]
    simp only [List.mem_cons, exists_eq_or_imp, and_or_left, or_assoc]

/-- The outer loop over the files. -/
theorem foldl_addFiles (disk : Finder.Disk) :
    ∀ (files : List String) (g : Graph String), SetGraph g →
      SetGraph (files.foldl (fun g f =>
        (extractIncludes disk f).foldl (addInclude root fileMap pathExists f) g) g) ∧
      ∀ v w, w ∈ succ (files.foldl (fun g f =>
          (extractIncludes disk f).foldl (addInclude root fileMap pathExists f) g) g) v ↔
        w ∈ succ g v ∨ (v ∈ files ∧ ∃ inc ∈ extractIncludes disk v,
          resolveIncludePath root fileMap pathExists inc v = some w)
  | [], g, h => ⟨h, by simp⟩
  | f :: fs, g, h => by
    obtain ⟨h₁, mem₁⟩ := foldl_addInclude root fileMap pathExists f (extractIncludes disk f) g h
    obtain ⟨h₂, mem₂⟩ := foldl_addFiles disk fs _ h₁
    refine ⟨h₂, fun v w => ?_⟩
    rw [List.foldl_cons, mem₂, mem₁]
    by_cases hv : v = f
    · subst hv
      simp only [List.mem_cons, true_or, true_and]
      exact or_iff_left_of_imp fun h => .inr h.2
    · simp [hv]

end Loops

/-- The checker's graph is a graph of sets whose edges are the resolved
includes: `w` is a neighbour of `v` exactly when `v` is a discovered file with an
include that `resolve_include_path` resolves to `w`. -/
theorem buildDependencyGraph_edges (root : String) (fileMap : PyDict String String)
    (pathExists : String → Bool) (disk : Finder.Disk) (ord : ValueOrder fileMap) :
    SetGraph (buildDependencyGraph root fileMap pathExists disk ord) ∧
      ∀ v w, w ∈ succ (buildDependencyGraph root fileMap pathExists disk ord) v ↔
        v ∈ fileMap.entries.map Prod.snd ∧ ∃ inc ∈ extractIncludes disk v,
          resolveIncludePath root fileMap pathExists inc v = some w := by
  obtain ⟨h, mem⟩ := foldl_addFiles root fileMap pathExists disk ord.order _ SetGraph.empty
  refine ⟨h, fun v w => ?_⟩
  rw [buildDependencyGraph, mem, ord.perm.mem_iff, List.mem_dedup]
  simp [succ, PyDict.empty, PyDict.find?]

end IncludeGraph.Circular
