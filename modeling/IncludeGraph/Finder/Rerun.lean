import IncludeGraph.Finder.Report
import IncludeGraph.Finder.Determinism

/-!
# Running `main` again

Two situations make a maintainer run `dead_file_finder.py` a second time. Under
each aggregator that the walk left unreachable, `main` prints the advice to pass
it as `--extra-entry`; and the reports of two runs over the same tree are
compared, while `rglob` may enumerate the tree in another order and the hash
seed may change the iteration order of `ALL_EXTENSIONS`.

The aggregator list reads only the keys and the adjacency lists, which the walk
never writes, so the advice does not change it; an aggregator passed as
`--extra-entry` is found as itself, becomes an entry at depth 0 and pulls in
every file it includes one level below. Every report reads a node only through
the columns of its CSV row, and those are fixed by the tree, the file contents
and the set of entry points; so the summary, the logged edge count, the removal
script, the hive moves and the CSV file are the same in both runs.
-/

namespace IncludeGraph.Finder

open Py

section Aggregators

/-- A key given as its own hint is the entry point `find_entry_point` returns. -/
theorem findEntryPoint_self {files : FileMap} {a : String} (hk : a ∈ files.keys) (hne : a ≠ "")
    (hslash : '\\' ∉ a.data) : findEntryPoint files (some a) = some a := by
  simp only [findEntryPoint, if_neg hne, replaceChar_of_not_mem hslash, if_pos hk, Option.or_some]

variable (ord : ExtOrder) (disk : Disk) (tree : List Entry) (excludes : List String)

/-- `detect_aggregators` on the marked dict sees the built graph, whatever the entry points. -/
theorem analyze_detectAggregators (entryPoints : List String) :
    detectAggregators (analyze ord disk (discoverFiles tree excludes) entryPoints).1 =
      detectAggregators (buildDependencyGraph disk (discoverFiles tree excludes)).1 := by
  obtain ⟨hclosed, hfresh, -⟩ := analyze_walkable disk tree excludes
  simp only [analyze, detectAggregators, (walkReachability_correct ord entryPoints hclosed hfresh).1,
    walkReachability_depsOf]

/-- The advice `main` prints under an unreachable aggregator works, for every
file `detect_aggregators` reports: passed as `--extra-entry`, the file is found
as itself and the aggregator list stays the same, and the new run reaches the
file at depth 0 and every file it includes at depth at most 1. -/
theorem detectAggregators_extra_entry_reaches (ord : ExtOrder) (disk : Disk) (tree : List Entry)
    (excludes : List String) (entry : Option String) (extraEntries : List String) :
    let files := discoverFiles tree excludes
    let marked := (analyze ord disk files (entryPointsOf files entry extraEntries)).1
    ∀ a ∈ detectAggregators marked,
      let after := (analyze ord disk files (entryPointsOf files entry (extraEntries ++ [a]))).1
      findEntryPoint files (some a) = some a ∧ detectAggregators after = detectAggregators marked ∧
        after.reachableOf a = true ∧ after.depthOf a = 0 ∧
        ∀ d ∈ after.depsOf a, after.reachableOf d = true ∧ after.depthOf d ≤ 1 := by
  intro files marked a ha after
  have wf := discoverFiles_wf tree excludes
  obtain ⟨hclosed, hfresh, -⟩ := analyze_walkable disk tree excludes
  have hgraph := (buildDependencyGraph_walkable disk files wf.1 wf.2).1
  have hmarked : a ∈ marked.keys := List.mem_of_mem_filter ha
  have hk : a ∈ (buildDependencyGraph disk files).1.keys :=
    (walkReachability_correct ord _ hclosed hfresh).1 ▸ hmarked
  have hfind : findEntryPoint files (some a) = some a :=
    findEntryPoint_self (hgraph ▸ hk) (wf.2 a (hgraph ▸ hk))
      (analyze_keys_no_backslash ord disk tree excludes _ a hmarked)
  -- the aggregator is now an entry point
  obtain ⟨hreach, hdepth⟩ := walkReachability_entry ord _ hclosed hfresh
    (by simp [entryPointsOf_append, hfind] : a ∈ entryPointsOf files entry (extraEntries ++ [a])) hk
  refine ⟨hfind, by rw [analyze_detectAggregators, analyze_detectAggregators], hreach, hdepth,
    fun d hdep => ?_⟩
  obtain ⟨hr, hle⟩ := walkReachability_edge ord _ hclosed hfresh
    (.inl (walkReachability_depsOf ord _ _ a ▸ hdep)) hreach
  exact ⟨hr, by simpa using hle.trans_eq (congrArg (· + 1) hdepth)⟩

end Aggregators

section Discovery

/-- Discovery appends every admitted entry when no two of them share a key. -/
theorem foldl_discover_entries (excludes : List String) : ∀ (tree : List Entry) (files : FileMap),
    (files.keys ++ (tree.filter fun e => e.admitted excludes).map Entry.relStr).Nodup →
      (tree.foldl (fun files e => if e.admitted excludes then files.insert e.relStr e.node else files)
        files).entries = files.entries ++ (tree.filter fun e => e.admitted excludes).map
          fun e => (e.relStr, e.node)
  | [], _, _ => by simp
  | e :: tree, files, hnd => by
    by_cases he : e.admitted excludes
    · simp only [List.filter_cons, he, ↓reduceIte, List.map_cons] at hnd ⊢
      have hnew : e.relStr ∉ files.keys := fun hk =>
        List.nodup_append.mp hnd |>.2.2 hk (List.mem_cons_self _ _)
      have hins : (files.insert e.relStr e.node).entries = files.entries ++ [(e.relStr, e.node)] := by
        simp [PyDict.insert, hnew]
      rw [List.foldl_cons, if_pos he, foldl_discover_entries excludes tree _ (by
        simpa [PyDict.keys, hins] using hnd), hins, List.append_assoc]
      rfl
    · simp only [List.filter_cons, he, Bool.false_eq_true, ↓reduceIte] at hnd ⊢
      rw [List.foldl_cons, if_neg he]
      exact foldl_discover_entries excludes tree files hnd

/-- Two enumerations of one tree whose files have distinct keys discover the same pairs. -/
theorem discoverFiles_perm {tree₁ tree₂ : List Entry} {excludes : List String}
    (htree : tree₁.Perm tree₂)
    (hdistinct : ((tree₁.filter fun e => e.admitted excludes).map Entry.relStr).Nodup) :
    (discoverFiles tree₁ excludes).entries.Perm (discoverFiles tree₂ excludes).entries := by
  have hperm := (htree.filter fun e => e.admitted excludes).map Entry.relStr
  have entries : ∀ tree : List Entry,
      ((tree.filter fun e => e.admitted excludes).map Entry.relStr).Nodup →
        (discoverFiles tree excludes).entries =
          (tree.filter fun e => e.admitted excludes).map fun e => (e.relStr, e.node) :=
    fun tree h => by
      simpa [PyDict.empty] using foldl_discover_entries excludes tree PyDict.empty (by simpa using h)
  rw [entries tree₁ hdistinct, entries tree₂ (hperm.nodup_iff.mp hdistinct)]
  exact (htree.filter _).map _

end Discovery

section Rows

/-- A CSV row reads the fields discovery wrote, the three marks and the lengths
of the two adjacency lists. -/
theorem map_csvRow_congr {o₁ o₂ : Option FileNode}
    (hd : o₁.map FileNode.discovered = o₂.map FileNode.discovered)
    (hm : o₁.map FileNode.marks = o₂.map FileNode.marks)
    (hdeps : (o₁.map FileNode.resolvedDeps).getD [] = (o₂.map FileNode.resolvedDeps).getD [])
    (hinc : ((o₁.map FileNode.includedBy).getD []).length =
      ((o₂.map FileNode.includedBy).getD []).length) :
    o₁.map csvRow = o₂.map csvRow := by
  cases o₁ <;> cases o₂ <;> simp_all [FileNode.discovered, FileNode.marks, csvRow]

variable (disk : Disk) {files₁ files₂ : FileMap} (ord₁ ord₂ : ExtOrder) {entries₁ entries₂ : List String}
  (hperm : files₁.entries.Perm files₂.entries) (hfresh₁ : files₁.Fresh) (hfresh₂ : files₂.Fresh)
  (hne : ∀ k ∈ files₁.keys, k ≠ "") (hentries : entries₁.Perm entries₂)
include hperm hfresh₁ hfresh₂ hne hentries

/-- Two runs over the same discovered pairs, in any two orders, from permuted
entry lists and under any two orders of `ALL_EXTENSIONS`: the same keys, the
same CSV row under every key, and permuted broken lists. -/
theorem analyze_rows_congr :
    (analyze ord₁ disk files₁ entries₁).1.keys.Perm (analyze ord₂ disk files₂ entries₂).1.keys ∧
      (∀ k, ((analyze ord₁ disk files₁ entries₁).1.find? k).map csvRow =
        ((analyze ord₂ disk files₂ entries₂).1.find? k).map csvRow) ∧
      (analyze ord₁ disk files₁ entries₁).2.1.Perm (analyze ord₂ disk files₂ entries₂).2.1 := by
  have hfind := PyDict.find?_eq_of_perm hperm
  have hkeys : files₁.keys.Perm files₂.keys := hperm.map Prod.fst
  have hne₂ : ∀ k ∈ files₂.keys, k ≠ "" := fun k hk => hne k (hkeys.mem_iff.mpr hk)
  have hincs : ∀ a, includesOf disk files₁ a = includesOf disk files₂ a := fun a => by
    simp only [includesOf, hfind a]
  obtain ⟨hdeps, hincl, hbroken⟩ := buildDependencyGraph_congr hfresh₁ hfresh₂ hne hkeys hincs
  obtain ⟨hk₁, hclosed, hm₁, he₁⟩ := buildDependencyGraph_walkable disk files₁ hfresh₁ hne
  obtain ⟨hk₂, hclosed₂, hm₂, he₂⟩ := buildDependencyGraph_walkable disk files₂ hfresh₂ hne₂
  have hgkeys : (buildDependencyGraph disk files₁).1.keys.Perm (buildDependencyGraph disk files₂).1.keys := by
    rw [hk₁, hk₂]; exact hkeys
  refine ⟨?_, fun k => ?_, hbroken⟩
  · rw [analyze, analyze, (walkReachability_correct ord₁ entries₁ hclosed hm₁).1,
      (walkReachability_correct ord₂ entries₂ hclosed₂ hm₂).1]
    exact hgkeys
  -- each column of the row comes from discovery, from the marks or from the builder
  have hmarks := walkReachability_marks_congr ord₁ ord₂ hdeps hgkeys hentries hclosed hm₁ hm₂ he₁ he₂ k
  have hdisc : ∀ (ord : ExtOrder) (files : FileMap) (entries : List String),
      ((analyze ord disk files entries).1.find? k).map FileNode.discovered =
        (files.find? k).map FileNode.discovered := fun ord files entries =>
    (walkReachability_find?_map FileNode.discovered (fun _ _ => rfl) (fun _ => rfl) ord _ entries k).trans
      (buildDependencyGraph_discovered disk files k)
  have hd := (hdisc ord₁ files₁ entries₁).trans ((hfind k).symm ▸ (hdisc ord₂ files₂ entries₂).symm)
  have hdep := (walkReachability_depsOf ord₁ _ entries₁ k).trans
    ((hdeps k).trans (walkReachability_depsOf ord₂ _ entries₂ k).symm)
  have hinc : ((analyze ord₁ disk files₁ entries₁).1.includedByOf k).length =
      ((analyze ord₂ disk files₂ entries₂).1.includedByOf k).length := by
    simp only [analyze, walkReachability_includedByOf]; exact (hincl k).length_eq
  exact map_csvRow_congr hd hmarks hdep hinc

end Rows

theorem mergeSort_eq_of_perm {l₁ l₂ : List String} (h : l₁.Perm l₂) :
    l₁.mergeSort (fun a b => decide (a ≤ b)) = l₂.mergeSort (fun a b => decide (a ≤ b)) :=
  List.eq_of_perm_of_sorted (((List.mergeSort_perm _ _).trans h).trans (List.mergeSort_perm _ _).symm)
    (List.sorted_mergeSort' _) (List.sorted_mergeSort' _)

/-- Two folds over lists that agree through `f`, of a body that reads only `f`, agree. -/
theorem foldl_eq_of_map_eq {α β γ : Type} (f : α → β) (F : γ → α → γ)
    (hF : ∀ acc a b, f a = f b → F acc a = F acc b) :
    ∀ {l₁ l₂ : List α} (init : γ), l₁.map f = l₂.map f → l₁.foldl F init = l₂.foldl F init
  | [], [], _, _ => rfl
  | a :: l₁, b :: l₂, init, h => by
    simp only [List.map_cons, List.cons.injEq] at h
    rw [List.foldl_cons, List.foldl_cons, hF init a b h.1]
    exact foldl_eq_of_map_eq f F hF _ h.2

section Reports

variable {m₁ m₂ : FileMap} (hkeys : m₁.keys.Perm m₂.keys)
  (hrow : ∀ k, (m₁.find? k).map csvRow = (m₂.find? k).map csvRow)
include hkeys hrow

theorem entries_csvRow_perm :
    (m₁.entries.map fun e => csvRow e.2).Perm (m₂.entries.map fun e => csvRow e.2) := by
  have rows : ∀ m : FileMap,
      (m.keys.filterMap fun k => (m.find? k).map csvRow) = m.entries.map fun e => csvRow e.2 :=
    fun m => by
      rw [PyDict.keys, List.filterMap_map]
      have hsome : ∀ e ∈ m.entries,
          ((fun k => (m.find? k).map csvRow) ∘ Prod.fst) e = (some ∘ fun e => csvRow e.2) e :=
        fun e he => by simp [PyDict.find?_eq_some_iff.mpr he]
      rw [List.filterMap_congr hsome, List.filterMap_eq_map]
  rw [← rows, ← rows, funext hrow]
  exact hkeys.filterMap _

theorem csvRows_congr : csvRows m₁ = csvRows m₂ := by
  simp only [csvRows, hrow, mergeSort_eq_of_perm hkeys]

theorem edgeCount_congr : edgeCount m₁ = edgeCount m₂ := by
  simpa [edgeCount, List.map_map, Function.comp_def, csvRow] using
    ((entries_csvRow_perm hkeys hrow).map CsvRow.includesCount).sum_eq

/-- The orphans, in `rel_path` order, are read off the rows. -/
theorem sortedOrphans_paths_congr :
    (sortedOrphans m₁).map FileNode.relPath = (sortedOrphans m₂).map FileNode.relPath := by
  have paths : ∀ m : FileMap, (sortedOrphans m).map FileNode.relPath =
      (((m.entries.map fun e => csvRow e.2).filter fun r => !r.reachable).map
        CsvRow.relativePath).mergeSort fun a b => decide (a ≤ b) := fun m => by
    rw [sortedOrphans, @List.map_mergeSort FileNode String (fun a b => decide (a.relPath ≤ b.relPath))
      (fun a b => decide (a ≤ b)) FileNode.relPath _ fun _ _ _ _ => rfl]
    simp [orphanNodes, List.filter_map, List.map_map, Function.comp_def, csvRow]
  rw [paths, paths]
  exact mergeSort_eq_of_perm (((entries_csvRow_perm hkeys hrow).filter _).map _)

theorem reportCounts_congr {broken₁ broken₂ : List BrokenInclude} (hbroken : broken₁.Perm broken₂) :
    reportCounts m₁ broken₁ = reportCounts m₂ broken₂ := by
  have count : ∀ p : CsvRow → Bool, (m₁.entries.map Prod.snd).countP (fun n => p (csvRow n)) =
      (m₂.entries.map Prod.snd).countP (fun n => p (csvRow n)) := fun p => by
    simpa only [List.countP_map, Function.comp_def] using (entries_csvRow_perm hkeys hrow).countP_eq p
  have hreach : ∀ k, m₁.reachableOf k = m₂.reachableOf k := fun k => by
    simpa [FileMap.reachableOf, Option.map_map, Function.comp_def, csvRow] using
      congrArg (fun o => (o.map CsvRow.reachable).getD false) (hrow k)
  simp only [reportCounts, orphanNodes, List.filter_filter, ← List.countP_eq_length_filter,
    ReportCounts.mk.injEq]
  refine ⟨by simpa [PyDict.size, PyDict.keys] using hkeys.length_eq,
    count fun r => decide (r.extension ∈ headerExtensions),
    count fun r => decide (r.extension ∈ sourceExtensions), count CsvRow.reachable,
    count fun r => !r.reachable, count fun r => decide (r.extension ∈ headerExtensions) && !r.reachable,
    count fun r => decide (r.extension ∈ sourceExtensions) && !r.reachable,
    count fun r => r.isGrain && !r.reachable, hbroken.length_eq, ?_⟩
  simp only [hreach]
  exact hbroken.countP_eq _

end Reports

section Moves

variable {m₁ m₂ : FileMap}
  (hpaths : (sortedOrphans m₁).map FileNode.relPath = (sortedOrphans m₂).map FileNode.relPath)
include hpaths

/-- `print_removal_script` reads the orphans' paths only. -/
theorem removalScript_congr : removalScript m₁ = removalScript m₂ := by
  have paths : ∀ m : FileMap, removalScript m = (((groupByDir (sortedOrphans m)).keys.mergeSort
      fun a b => decide (a ≤ b)).flatMap fun d => ((sortedOrphans m).map FileNode.relPath).filter
        fun p => parentStr p = d).map fun p => (parentStr p, replaceChar p '/' '\\') := fun m => by
    rw [removalScript_eq_regroup, List.map_flatMap, List.map_flatMap]
    simp only [List.filter_map, List.map_map, Function.comp_def]
  have dirs : ∀ (nodes : List FileNode) (d : String),
      d ∈ (groupByDir nodes).keys ↔ d ∈ (nodes.map FileNode.relPath).map parentStr := fun _ _ => by
    simp [mem_groupByDir_keys]
  have hdirs : (groupByDir (sortedOrphans m₁)).keys.Perm (groupByDir (sortedOrphans m₂)).keys :=
    (List.perm_ext_iff_of_nodup (PyDict.nodup_keys _) (PyDict.nodup_keys _)).mpr fun d => by
      rw [dirs, dirs, hpaths]
  rw [paths, paths, mergeSort_eq_of_perm hdirs, hpaths]

/-- `move_to_hive` reads the orphans' paths only, when whether a move succeeds
depends on the path alone. -/
theorem moveToHive_congr (dryRun : Bool) (moves : String → Bool) :
    moveToHive m₁ dryRun (fun n => moves n.relPath) = moveToHive m₂ dryRun (fun n => moves n.relPath) :=
  Prod.ext hpaths (foldl_eq_of_map_eq FileNode.relPath _
    (fun acc a b hab => by simp only [hiveStep, hab]) _ hpaths)

end Moves

/-- The reports of `main` do not depend on the order in which `rglob` enumerates
the tree, on the hash seed that orders `ALL_EXTENSIONS`, or on the order of the
entry points: two runs give the same summary of `print_report`, the same logged
edge count, the same removal script, the same moves to the hive and the same CSV
file. The entry lists are given, since `find_entry_point` may break a tie
between equally short keys differently in the two runs. -/
theorem reports_independent_of_enumeration (disk : Disk) (tree₁ tree₂ : List Entry)
    (excludes : List String) (ord₁ ord₂ : ExtOrder) (entries₁ entries₂ : List String)
    (dryRun : Bool) (moves : String → Bool) (htree : tree₁.Perm tree₂)
    (hdistinct : ((tree₁.filter fun e => e.admitted excludes).map Entry.relStr).Nodup)
    (hentries : entries₁.Perm entries₂) :
    let result₁ := analyze ord₁ disk (discoverFiles tree₁ excludes) entries₁
    let result₂ := analyze ord₂ disk (discoverFiles tree₂ excludes) entries₂
    reportCounts result₁.1 result₁.2.1 = reportCounts result₂.1 result₂.2.1 ∧
      edgeCount result₁.1 = edgeCount result₂.1 ∧
      removalScript result₁.1 = removalScript result₂.1 ∧
      moveToHive result₁.1 dryRun (fun n => moves n.relPath) =
        moveToHive result₂.1 dryRun (fun n => moves n.relPath) ∧
      csvRows result₁.1 = csvRows result₂.1 := by
  intro result₁ result₂
  have wf₁ := discoverFiles_wf tree₁ excludes
  have wf₂ := discoverFiles_wf tree₂ excludes
  obtain ⟨hkeys, hrow, hbroken⟩ := analyze_rows_congr disk ord₁ ord₂
    (discoverFiles_perm htree hdistinct) wf₁.1 wf₂.1 wf₁.2 hentries
  have hpaths := sortedOrphans_paths_congr hkeys hrow
  exact ⟨reportCounts_congr hkeys hrow hbroken, edgeCount_congr hkeys hrow, removalScript_congr hpaths,
    moveToHive_congr hpaths dryRun moves, csvRows_congr hkeys hrow⟩

theorem reports_independent_of_enumeration_widget :
    (widgetProject.Perm widgetProject.reverse ∧
      ((widgetProject.filter fun e => e.admitted defaultExcludes).map Entry.relStr).Nodup ∧
      ["main.cpp", "lib/Widget.h"].Perm ["lib/Widget.h", "main.cpp"]) ∧
    let result₁ := analyze ExtOrder.written widgetDisk (discoverFiles widgetProject defaultExcludes)
      ["main.cpp", "lib/Widget.h"]
    let result₂ := analyze ⟨allExtensions.reverse, List.reverse_perm _⟩ widgetDisk
      (discoverFiles widgetProject.reverse defaultExcludes) ["lib/Widget.h", "main.cpp"]
    reportCounts result₁.1 result₁.2.1 = reportCounts result₂.1 result₂.2.1 ∧
      edgeCount result₁.1 = edgeCount result₂.1 ∧
      removalScript result₁.1 = removalScript result₂.1 ∧
      moveToHive result₁.1 false (fun _ => true) = moveToHive result₂.1 false (fun _ => true) ∧
      csvRows result₁.1 = csvRows result₂.1 :=
  ⟨⟨(List.reverse_perm _).symm, by decide, List.Perm.swap _ _ _⟩,
    reports_independent_of_enumeration widgetDisk widgetProject widgetProject.reverse defaultExcludes
      ExtOrder.written ⟨allExtensions.reverse, List.reverse_perm _⟩ _ _ false (fun _ => true)
      (List.reverse_perm _).symm (by decide) (List.Perm.swap _ _ _)⟩

end IncludeGraph.Finder
