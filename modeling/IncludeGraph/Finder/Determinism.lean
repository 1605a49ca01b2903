import IncludeGraph.Finder.Reach

/-!
# Independence of discovery order, entry order and hash seed

`rglob` may enumerate a tree in any order, the entry list may come in any
order, and the string hash seed fixes the iteration order of `ALL_EXTENSIONS`.
None of these reaches the graph or the marks. The resolver reads only the key
set, so every artifact gets the same `resolved_deps`. `included_by` and the
broken list follow the outer loop's order, so they agree up to permutation.
The walk's marks are shortest path lengths of a graph that depends only on the
dependency lists and the keys, so the search order cannot change them.
-/

namespace IncludeGraph.Finder

open Py

/-- The edges read only the dependency lists and the key set. -/
theorem Edge.congr {g₁ g₂ : FileMap} (hdeps : ∀ a, g₁.depsOf a = g₂.depsOf a)
    (hkeys : g₁.keys.Perm g₂.keys) (a b : String) : Edge g₁ a b ↔ Edge g₂ a b := by
  simp only [Edge, hdeps, hkeys.mem_iff]

section Paths

variable {g₁ g₂ : FileMap} {entries₁ entries₂ : List String}
  (hdeps : ∀ a, g₁.depsOf a = g₂.depsOf a) (hkeys : g₁.keys.Perm g₂.keys)
  (hentries : entries₁.Perm entries₂)
include hdeps hkeys hentries

theorem ReachIn.transfer {v : String} {m : Nat} (h : ReachIn g₁ entries₁ v m) :
    ReachIn g₂ entries₂ v m := by
  induction h with
  | entry he hk => exact .entry (hentries.mem_iff.mp he) (hkeys.mem_iff.mp hk)
  | step _ hab ih => exact .step ih ((Edge.congr hdeps hkeys _ _).mp hab)

/-- Two graphs with the same edges and entry sets have the same paths. -/
theorem ReachIn.congr (v : String) (m : Nat) : ReachIn g₁ entries₁ v m ↔ ReachIn g₂ entries₂ v m :=
  ⟨ReachIn.transfer hdeps hkeys hentries,
    ReachIn.transfer (fun a => (hdeps a).symm) hkeys.symm hentries.symm⟩

end Paths

/-- The walk's specification pins `reachable` and `depth` down: two nodes that
meet it for the same path lengths carry the same two marks. -/
theorem marks_unique {R : Nat → Prop} {n₁ n₂ : FileNode}
    (h₁ : (n₁.reachable = true ↔ ∃ m, R m) ∧
      ((∃ m, R m) → ∃ d : Nat, n₁.depth = d ∧ R d ∧ ∀ m, R m → d ≤ m) ∧
      ((¬∃ m, R m) → n₁.depth = -1))
    (h₂ : (n₂.reachable = true ↔ ∃ m, R m) ∧
      ((∃ m, R m) → ∃ d : Nat, n₂.depth = d ∧ R d ∧ ∀ m, R m → d ≤ m) ∧
      ((¬∃ m, R m) → n₂.depth = -1)) :
    n₁.reachable = n₂.reachable ∧ n₁.depth = n₂.depth := by
  refine ⟨Bool.eq_iff_iff.mpr (h₁.1.trans h₂.1.symm), ?_⟩
  by_cases hR : ∃ m, R m
  · obtain ⟨d₁, e₁, r₁, min₁⟩ := h₁.2.1 hR
    obtain ⟨d₂, e₂, r₂, min₂⟩ := h₂.2.1 hR
    rw [e₁, e₂, Nat.le_antisymm (min₁ d₂ r₂) (min₂ d₁ r₁)]
  · rw [h₁.2.2 hR, h₂.2.2 hR]

/-- On a map whose nodes are not yet entries, `is_entry` ends up true exactly
on the entries. -/
theorem walkReachability_isEntry_fresh (ord : ExtOrder) {g : FileMap} (entries : List String)
    (hfresh : ∀ k n, g.find? k = some n → n.isEntry = false) {v : String} {n : FileNode}
    (h : (walkReachability ord g entries).1.find? v = some n) : n.isEntry = decide (v ∈ entries) := by
  have he := walkReachability_isEntry ord g entries v
  rw [h] at he
  cases hm : g.find? v with
  | none => simp [hm] at he
  | some m =>
    have hk : v ∈ g.keys := PyDict.mem_keys_iff_find?.mpr (by simp [hm])
    have := hfresh v m hm
    by_cases hv : v ∈ entries <;> simp_all

section Walk

variable {g₁ g₂ : FileMap} (ord₁ ord₂ : ExtOrder) {entries₁ entries₂ : List String}
  (hdeps : ∀ a, g₁.depsOf a = g₂.depsOf a) (hkeys : g₁.keys.Perm g₂.keys)
  (hentries : entries₁.Perm entries₂) (hclosed : ∀ a, ∀ x ∈ g₁.depsOf a, x ∈ g₁.keys)
  (hfresh₁ : ∀ k n, g₁.find? k = some n → n.reachable = false ∧ n.depth = -1)
  (hfresh₂ : ∀ k n, g₂.find? k = some n → n.reachable = false ∧ n.depth = -1)
  (hentry₁ : ∀ k n, g₁.find? k = some n → n.isEntry = false)
  (hentry₂ : ∀ k n, g₂.find? k = some n → n.isEntry = false)
include hdeps hkeys hentries hclosed hfresh₁ hfresh₂ hentry₁ hentry₂

/-- Two walks over graphs with the same edges, from permuted entry lists and
under any two orders of `ALL_EXTENSIONS`, leave the same marks on every key. -/
theorem walkReachability_marks_congr (v : String) :
    ((walkReachability ord₁ g₁ entries₁).1.find? v).map FileNode.marks =
      ((walkReachability ord₂ g₂ entries₂).1.find? v).map FileNode.marks := by
  have hclosed₂ : ∀ a, ∀ x ∈ g₂.depsOf a, x ∈ g₂.keys := fun a x hx =>
    hkeys.mem_iff.mp (hclosed a x ((hdeps a).symm ▸ hx))
  obtain ⟨keys₁, correct₁⟩ := walkReachability_correct ord₁ entries₁ hclosed hfresh₁
  obtain ⟨keys₂, correct₂⟩ := walkReachability_correct ord₂ entries₂ hclosed₂ hfresh₂
  have hmem : v ∈ (walkReachability ord₁ g₁ entries₁).1.keys ↔
      v ∈ (walkReachability ord₂ g₂ entries₂).1.keys := by
    rw [keys₁, keys₂, hkeys.mem_iff]
  cases h₁ : (walkReachability ord₁ g₁ entries₁).1.find? v with
  | none =>
    have h₂ : (walkReachability ord₂ g₂ entries₂).1.find? v = none := by
      rw [← Option.not_isSome_iff_eq_none, ← PyDict.mem_keys_iff_find?, ← hmem,
        PyDict.mem_keys_iff_find?, h₁]
      simp
    rw [h₂, Option.map_none']
  | some n₁ =>
    obtain ⟨n₂, h₂⟩ := PyDict.find?_of_mem (hmem.mp (PyDict.mem_keys_iff_find?.mpr (by simp [h₁])))
    have reach : ReachIn g₁ entries₁ v = ReachIn g₂ entries₂ v :=
      funext fun m => propext (ReachIn.congr hdeps hkeys hentries v m)
    have spec₁ := correct₁ v n₁ h₁
    rw [reach] at spec₁
    obtain ⟨hr, hd⟩ := marks_unique spec₁ (correct₂ v n₂ h₂)
    have he₁ := walkReachability_isEntry_fresh ord₁ entries₁ hentry₁ h₁
    have he₂ := walkReachability_isEntry_fresh ord₂ entries₂ hentry₂ h₂
    simp only [h₂, Option.map_some', FileNode.marks, hr, hd, he₁, he₂, hentries.mem_iff]

/-- ... and return the same count. -/
theorem walkReachability_count_congr :
    (walkReachability ord₁ g₁ entries₁).2 = (walkReachability ord₂ g₂ entries₂).2 := by
  have hclosed₂ : ∀ a, ∀ x ∈ g₂.depsOf a, x ∈ g₂.keys := fun a x hx =>
    hkeys.mem_iff.mp (hclosed a x ((hdeps a).symm ▸ hx))
  have hreach : ∀ k, (walkReachability ord₁ g₁ entries₁).1.reachableOf k =
      (walkReachability ord₂ g₂ entries₂).1.reachableOf k := fun k => by
    have := congrArg (fun o => (o.map Prod.fst).getD false)
      (walkReachability_marks_congr ord₁ ord₂ hdeps hkeys hentries hclosed hfresh₁ hfresh₂ hentry₁
        hentry₂ k)
    simpa [FileMap.reachableOf, Option.map_map, Function.comp_def, FileNode.marks] using this
  rw [walkReachability_count ord₁ entries₁ hclosed hfresh₁,
    walkReachability_count ord₂ entries₂ hclosed₂ hfresh₂,
    (walkReachability_correct ord₁ entries₁ hclosed hfresh₁).1,
    (walkReachability_correct ord₂ entries₂ hclosed₂ hfresh₂).1, funext hreach]
  exact (hkeys.filter _).length_eq

end Walk

section Build

variable {disk₁ disk₂ : Disk} {files₁ files₂ : FileMap} (hfresh₁ : files₁.Fresh)
  (hfresh₂ : files₂.Fresh) (hne : ∀ k ∈ files₁.keys, k ≠ "") (hkeys : files₁.keys.Perm files₂.keys)
  (hincs : ∀ a, includesOf disk₁ files₁ a = includesOf disk₂ files₂ a)
include hfresh₁ hfresh₂ hne hkeys hincs

/-- Two builds over the same keys and includes, enumerated in any two orders:
equal dependency lists, and `included_by` lists and broken lists that are
permutations of each other. -/
theorem buildDependencyGraph_congr :
    (∀ a, (buildDependencyGraph disk₁ files₁).1.depsOf a =
      (buildDependencyGraph disk₂ files₂).1.depsOf a) ∧
    (∀ b, ((buildDependencyGraph disk₁ files₁).1.includedByOf b).Perm
      ((buildDependencyGraph disk₂ files₂).1.includedByOf b)) ∧
    (buildDependencyGraph disk₁ files₁).2.Perm (buildDependencyGraph disk₂ files₂).2 := by
  have hne₂ : ∀ k ∈ files₂.keys, k ≠ "" := fun k hk => hne k (hkeys.mem_iff.mpr hk)
  obtain ⟨inv₁, deps₁, broken₁⟩ := buildDependencyGraph_eq disk₁ files₁ hfresh₁.adjacency_nil hne
  obtain ⟨inv₂, deps₂, broken₂⟩ := buildDependencyGraph_eq disk₂ files₂ hfresh₂.adjacency_nil hne₂
  have hdeps : ∀ a, (buildDependencyGraph disk₁ files₁).1.depsOf a =
      (buildDependencyGraph disk₂ files₂).1.depsOf a := fun a => by
    simp only [deps₁, deps₂, hkeys.mem_iff, hincs a, resolveInclude_perm _ _ hkeys]
  have hentry : ∀ k, brokenEntry files₁ k = brokenEntry files₂ k := fun k => funext fun inc => by
    simp only [brokenEntry, resolveInclude_perm _ _ hkeys]
  have hbroken : (fun k => (includesOf disk₁ files₁ k).filterMap (brokenEntry files₁ k)) =
      fun k => (includesOf disk₂ files₂ k).filterMap (brokenEntry files₂ k) := funext fun k => by
    rw [hincs k, hentry k]
  refine ⟨hdeps, fun b => List.perm_iff_count.mpr fun a => ?_, ?_⟩
  · rw [← inv₁.mirror, ← inv₂.mirror, hdeps]
  · rw [broken₁, broken₂, hbroken]
    exact hkeys.flatMap_right _

end Build

/-- `build_dependency_graph` then `walk_reachability`, run on two fresh maps
with the same keys and the same includes per key but inserted in different
orders, from two orderings of one entry list, and under any two iteration
orders of `ALL_EXTENSIONS`: the same `resolved_deps` per key, permuted
`included_by` lists and broken lists, the same `reachable`, `depth` and
`is_entry` per key, and the same count. -/
theorem walkReachability_independent_of_order (disk₁ disk₂ : Disk) (files₁ files₂ : FileMap)
    (ord₁ ord₂ : ExtOrder) (entries₁ entries₂ : List String) (hfresh₁ : files₁.Fresh)
    (hfresh₂ : files₂.Fresh) (hne : ∀ k ∈ files₁.keys, k ≠ "")
    (hkeys : files₁.keys.Perm files₂.keys)
    (hincs : ∀ a, includesOf disk₁ files₁ a = includesOf disk₂ files₂ a)
    (hentries : entries₁.Perm entries₂) :
    let graph₁ := buildDependencyGraph disk₁ files₁
    let graph₂ := buildDependencyGraph disk₂ files₂
    (∀ a, graph₁.1.depsOf a = graph₂.1.depsOf a) ∧
      (∀ b, (graph₁.1.includedByOf b).Perm (graph₂.1.includedByOf b)) ∧
      graph₁.2.Perm graph₂.2 ∧
      (∀ a, ((walkReachability ord₁ graph₁.1 entries₁).1.find? a).map FileNode.marks =
        ((walkReachability ord₂ graph₂.1 entries₂).1.find? a).map FileNode.marks) ∧
      (walkReachability ord₁ graph₁.1 entries₁).2 = (walkReachability ord₂ graph₂.1 entries₂).2 := by
  intro graph₁ graph₂
  have hne₂ : ∀ k ∈ files₂.keys, k ≠ "" := fun k hk => hne k (hkeys.mem_iff.mpr hk)
  obtain ⟨hdeps, hincl, hbroken⟩ := buildDependencyGraph_congr hfresh₁ hfresh₂ hne hkeys hincs
  obtain ⟨hkeys₁, hclosed, hmarks₁, hentry₁⟩ := buildDependencyGraph_walkable disk₁ files₁ hfresh₁ hne
  obtain ⟨hkeys₂, -, hmarks₂, hentry₂⟩ := buildDependencyGraph_walkable disk₂ files₂ hfresh₂ hne₂
  have hgkeys : graph₁.1.keys.Perm graph₂.1.keys := by rw [hkeys₁, hkeys₂]; exact hkeys
  exact ⟨hdeps, hincl, hbroken,
    walkReachability_marks_congr ord₁ ord₂ hdeps hgkeys hentries hclosed hmarks₁ hmarks₂ hentry₁
      hentry₂,
    walkReachability_count_congr ord₁ ord₂ hdeps hgkeys hentries hclosed hmarks₁ hmarks₂ hentry₁
      hentry₂⟩

theorem walkReachability_independent_of_order_widget :
    let files₁ := discoverFiles widgetProject defaultExcludes
    let files₂ := discoverFiles widgetProject.reverse defaultExcludes
    let ord₂ : ExtOrder := ⟨allExtensions.reverse, List.reverse_perm _⟩
    (files₁.Fresh ∧ files₂.Fresh ∧ (∀ k ∈ files₁.keys, k ≠ "") ∧ files₁.keys.Perm files₂.keys ∧
      (∀ a, includesOf widgetDisk files₁ a = includesOf widgetDisk files₂ a) ∧
      ["main.cpp", "lib/Widget.h"].Perm ["lib/Widget.h", "main.cpp"]) ∧
    let graph₁ := buildDependencyGraph widgetDisk files₁
    let graph₂ := buildDependencyGraph widgetDisk files₂
    (∀ a, graph₁.1.depsOf a = graph₂.1.depsOf a) ∧
      (∀ b, (graph₁.1.includedByOf b).Perm (graph₂.1.includedByOf b)) ∧
      graph₁.2.Perm graph₂.2 ∧
      (∀ a, ((walkReachability ExtOrder.written graph₁.1 ["main.cpp", "lib/Widget.h"]).1.find? a).map
          FileNode.marks =
        ((walkReachability ord₂ graph₂.1 ["lib/Widget.h", "main.cpp"]).1.find? a).map
          FileNode.marks) ∧
      (walkReachability ExtOrder.written graph₁.1 ["main.cpp", "lib/Widget.h"]).2 =
        (walkReachability ord₂ graph₂.1 ["lib/Widget.h", "main.cpp"]).2 := by
  intro files₁ files₂ ord₂
  have hperm : files₁.entries.Perm files₂.entries := by decide
  have wf₁ := discoverFiles_wf widgetProject defaultExcludes
  have wf₂ := discoverFiles_wf widgetProject.reverse defaultExcludes
  have hkeys : files₁.keys.Perm files₂.keys := hperm.map Prod.fst
  have hincs : ∀ a, includesOf widgetDisk files₁ a = includesOf widgetDisk files₂ a := fun a => by
    simp only [includesOf, PyDict.find?_eq_of_perm hperm a]
  have hentries : ["main.cpp", "lib/Widget.h"].Perm ["lib/Widget.h", "main.cpp"] :=
    List.Perm.swap _ _ _
  exact ⟨⟨wf₁.1, wf₂.1, wf₁.2, hkeys, hincs, hentries⟩,
    walkReachability_independent_of_order widgetDisk widgetDisk files₁ files₂ ExtOrder.written ord₂
      _ _ wf₁.1 wf₂.1 wf₁.2 hkeys hincs hentries⟩

end IncludeGraph.Finder
