import IncludeGraph.Finder.Pipeline
import IncludeGraph.Finder.Pattern
import Mathlib.Algebra.BigOperators.Group.Finset
import Mathlib.Data.String.Basic
import Mathlib.Algebra.Order.Ring.Nat

/-!
# The reports of `dead_file_finder.py`

After the walk, `main` prints `print_report` (or `print_removal_script` under
`--suggest-remove`), may write the CSV of `write_csv_report`, and may hand the
orphans to `move_to_hive`. All of them read the marked dict only: the orphans
are the nodes with `reachable` false, sorted by `rel_path` and grouped by
directory in a `defaultdict(list)` whose keys are printed in sorted order.

Discovery stores each node under its own `rel_path`, with a lower-case
extension from `ALL_EXTENSIONS` and no backslash, and no later phase writes
these fields. So the reports agree with the keys: the removal script deletes
every orphan once, grouped by sorted directory; `move_to_hive` handles the same
files in `rel_path` order and accounts for each as moved or failed; the summary
counts add up; and the two count columns of the CSV both sum to the number of
resolved include edges that `main` logs.

The listings of `print_report` and `print_reachable_tree` are grouped and sorted
as printed: the orphans by sorted directory, the broken includes of reachable
files by sorted includer and line, and the reached files by depth, whose labels
run from `ENTRY` without a gap because every reached file below the entries has
a reached predecessor one level up.
-/

namespace IncludeGraph.Finder

open Py

section Nodes

/-- What discovery writes into each node it stores. -/
def NodeWf (k : String) (n : FileNode) : Prop :=
  n.relPath = k ∧ n.extension ∈ allExtensions ∧ '\\' ∉ n.relPath.data

theorem nodeWf_of_discovered {k : String} {n n' : FileNode}
    (h : n'.discovered = n.discovered) (hw : NodeWf k n) : NodeWf k n' := by
  simp only [FileNode.discovered, Prod.mk.injEq] at h
  simpa only [NodeWf, h.2.1, h.2.2.1] using hw

theorem relStr_no_backslash (e : Entry) : '\\' ∉ e.relStr.data := by
  simp only [Entry.relStr, replaceChar, List.mem_map, not_exists, not_and]
  intro c _
  split_ifs <;> simp_all

/-- Every node `discover_files` stores satisfies `NodeWf` for its key. -/
theorem discoverFiles_nodeWf (tree : List Entry) (excludes : List String) :
    ∀ k n, (discoverFiles tree excludes).find? k = some n → NodeWf k n := by
  unfold discoverFiles
  suffices ∀ files : FileMap, (∀ k n, files.find? k = some n → NodeWf k n) →
      ∀ k n, (tree.foldl (fun files e =>
        if e.admitted excludes then files.insert e.relStr e.node else files) files).find? k =
          some n → NodeWf k n from
    this PyDict.empty fun _ _ h => by cases h
  induction tree with
  | nil => exact fun _ h => h
  | cons e es ih =>
    intro files hfiles
    refine ih _ fun k n hn => ?_
    dsimp only at hn
    split_ifs at hn with hadm
    · rw [PyDict.find?_insert] at hn
      split_ifs at hn with hk
      · cases hn
        simp only [Entry.admitted, Bool.and_eq_true, decide_eq_true_eq] at hadm
        exact ⟨hk.symm, hadm.1.2, relStr_no_backslash e⟩
      · exact hfiles k n hn
    · exact hfiles k n hn

/-- The nodes of the marked dict still satisfy `NodeWf`. -/
theorem analyze_nodeWf (ord : ExtOrder) (disk : Disk) (tree : List Entry)
    (excludes entryPoints : List String) (k : String) (n : FileNode)
    (hn : (analyze ord disk (discoverFiles tree excludes) entryPoints).1.find? k = some n) :
    NodeWf k n := by
  have h := (walkReachability_find?_map FileNode.discovered (fun _ _ => rfl) (fun _ => rfl) ord
    (buildDependencyGraph disk (discoverFiles tree excludes)).1 entryPoints k).trans
    (buildDependencyGraph_discovered disk _ k)
  rw [show (walkReachability ord _ entryPoints).1 =
    (analyze ord disk (discoverFiles tree excludes) entryPoints).1 from rfl, hn] at h
  cases hd : (discoverFiles tree excludes).find? k with
  | none => rw [hd] at h; cases h
  | some n₀ =>
    rw [hd, Option.map_some', Option.map_some', Option.some_inj] at h
    exact nodeWf_of_discovered h (discoverFiles_nodeWf tree excludes k n₀ hd)

end Nodes

section Summary

/-- `[f for f in files.values() if not f.reachable]`. -/
def orphanNodes (files : FileMap) : List FileNode :=
  (files.entries.map Prod.snd).filter fun f => !f.reachable

/-- The numbers of the summary block of `print_report`. -/
structure ReportCounts where
  total : Nat
  headers : Nat
  sources : Nat
  reachable : Nat
  orphans : Nat
  orphanHeaders : Nat
  orphanSources : Nat
  orphanGrains : Nat
  broken : Nat
  reachableBroken : Nat
deriving Repr, DecidableEq

/-- The counts `print_report` computes before it prints; `files[b.includer]`
is read through `reachableOf`. -/
def reportCounts (files : FileMap) (broken : List BrokenInclude) : ReportCounts :=
  { total := files.size
    headers := (files.entries.map Prod.snd).countP fun f => f.extension ∈ headerExtensions
    sources := (files.entries.map Prod.snd).countP fun f => f.extension ∈ sourceExtensions
    reachable := (files.entries.map Prod.snd).countP fun f => f.reachable
    orphans := (orphanNodes files).length
    orphanHeaders := ((orphanNodes files).filter fun f => f.extension ∈ headerExtensions).length
    orphanSources := ((orphanNodes files).filter fun f => f.extension ∈ sourceExtensions).length
    orphanGrains := ((orphanNodes files).filter fun f => f.isGrain).length
    broken := broken.length
    reachableBroken := (broken.filter fun b => files.reachableOf b.includer).length }

/-- `HEADER_EXTENSIONS` and `SOURCE_EXTENSIONS` split `ALL_EXTENSIONS`. -/
theorem mem_headerExtensions_iff {ext : String} (h : ext ∈ allExtensions) :
    ext ∈ headerExtensions ↔ ext ∉ sourceExtensions := by
  have split : ∀ e ∈ allExtensions, (e ∈ headerExtensions ↔ e ∉ sourceExtensions) := by decide
  exact split ext h

theorem countP_header_add_source {l : List FileNode} (h : ∀ f ∈ l, f.extension ∈ allExtensions) :
    (l.countP fun f => f.extension ∈ headerExtensions) +
      (l.countP fun f => f.extension ∈ sourceExtensions) = l.length := by
  rw [List.length_eq_countP_add_countP (fun f => f.extension ∈ headerExtensions) l]
  congr 1
  refine List.countP_congr fun f hf => ?_
  simp only [decide_eq_true_eq, decide_not, Bool.not_eq_true', decide_eq_false_iff_not]
  exact ((not_congr (mem_headerExtensions_iff (h f hf))).trans not_not).symm

/-- `sum(1 for f in files.values() if f.reachable)` counts the keys marked reachable. -/
theorem countP_reachable (files : FileMap) :
    ((files.entries.map Prod.snd).countP fun f => f.reachable) =
      (files.keys.filter files.reachableOf).length := by
  rw [← List.countP_eq_length_filter, PyDict.keys, List.countP_map, List.countP_map]
  refine List.countP_congr fun e he => ?_
  simp [Function.comp_def, FileMap.reachableOf_of_find? (PyDict.find?_eq_some_iff.mpr he)]

/-- Every file is either reachable or an orphan. -/
theorem countP_reachable_add_orphans (files : FileMap) :
    ((files.entries.map Prod.snd).countP fun f => f.reachable) + (orphanNodes files).length =
      files.size := by
  have hsplit := List.length_eq_countP_add_countP (fun f : FileNode => f.reachable)
    (files.entries.map Prod.snd)
  simp only [List.length_map, Bool.decide_eq_true, decide_not] at hsplit
  simp only [PyDict.size, orphanNodes, ← List.countP_eq_length_filter]
  exact hsplit.symm

variable (ord : ExtOrder) (disk : Disk) (tree : List Entry) (excludes entryPoints : List String)

theorem analyze_extensions :
    ∀ f ∈ (analyze ord disk (discoverFiles tree excludes) entryPoints).1.entries.map Prod.snd,
      f.extension ∈ allExtensions := fun f hf => by
  obtain ⟨⟨k, n⟩, he, rfl⟩ := List.mem_map.mp hf
  exact (analyze_nodeWf ord disk tree excludes entryPoints k n
    (PyDict.find?_eq_some_iff.mpr he)).2.1

/-- The summary of `print_report` adds up on every project: headers and sources
make up the files on disk, as do the reachable and the orphaned files, and the
orphaned headers and sources make up the orphans; the reachable count is the
`reached` that `walk_reachability` returned and `main` logged; and every broken
include names a discovered includer, so `files[b.includer]` never fails. -/
theorem printReport_counts_add_up (ord : ExtOrder) (disk : Disk) (tree : List Entry)
    (excludes entryPoints : List String) :
    let result := analyze ord disk (discoverFiles tree excludes) entryPoints
    let counts := reportCounts result.1 result.2.1
    counts.headers + counts.sources = counts.total ∧
      counts.reachable + counts.orphans = counts.total ∧
      counts.orphanHeaders + counts.orphanSources = counts.orphans ∧
      counts.reachable = result.2.2 ∧
      ∀ b ∈ result.2.1, b.includer ∈ result.1.keys := by
  intro result counts
  have wf := discoverFiles_wf tree excludes
  obtain ⟨hclosed, hfresh, -⟩ := analyze_walkable disk tree excludes
  obtain ⟨-, -, broken⟩ := buildDependencyGraph_eq disk _ wf.1.adjacency_nil wf.2
  have hexts := analyze_extensions ord disk tree excludes entryPoints
  refine ⟨?_, ?_, ?_, ?_, fun b hb => ?_⟩
  · simp only [counts, reportCounts, PyDict.size]
    rw [countP_header_add_source hexts, List.length_map]
  · exact countP_reachable_add_orphans result.1
  · simp only [counts, reportCounts, ← List.countP_eq_length_filter]
    exact countP_header_add_source fun f hf => hexts f (List.mem_filter.mp hf).1
  · simp only [counts, reportCounts, countP_reachable]
    exact (walkReachability_count ord entryPoints hclosed hfresh).symm
  · rw [show result.2.1 = (buildDependencyGraph disk (discoverFiles tree excludes)).2 from rfl,
      broken] at hb
    obtain ⟨k, hk, hb⟩ := List.mem_flatMap.mp hb
    obtain ⟨inc, -, hinc⟩ := List.mem_filterMap.mp hb
    unfold brokenEntry at hinc
    split_ifs at hinc
    cases hinc
    exact (walkReachability_correct ord entryPoints hclosed hfresh).1.trans
      (buildDependencyGraph_walkable disk _ wf.1 wf.2).1 ▸ hk

end Summary

section Orphans

/-- `sorted([f for f in files.values() if not f.reachable], key=lambda f: f.rel_path)`,
a stable sort. -/
def sortedOrphans (files : FileMap) : List FileNode :=
  (orphanNodes files).mergeSort fun a b => decide (a.relPath ≤ b.relPath)

/-- `by_key[key(x)].append(x)` on a `defaultdict(list)`. -/
def appendBy {α : Type} (key : α → String) (byKey : PyDict String (List α)) (x : α) :
    PyDict String (List α) :=
  byKey.insert (key x) ((byKey.find? (key x)).getD [] ++ [x])

/-- `by_dir[d].append(node)`, `d` the directory of `rel_path`. -/
def appendByDir : PyDict String (List FileNode) → FileNode → PyDict String (List FileNode) :=
  appendBy fun node => parentStr node.relPath

/-- The `by_dir` dict of `print_report` and `print_removal_script`. -/
def groupByDir (nodes : List FileNode) : PyDict String (List FileNode) :=
  nodes.foldl appendByDir PyDict.empty

/-- The `del` lines of `print_removal_script`, directory by directory in
`sorted(by_dir)` order: each line's directory and `rel_path.replace('/', '\\')`. -/
def removalScript (files : FileMap) : List (String × String) :=
  let byDir := groupByDir (sortedOrphans files)
  (byDir.keys.mergeSort fun a b => decide (a ≤ b)).flatMap fun d =>
    ((byDir.find? d).getD []).map fun node => (d, replaceChar node.relPath '/' '\\')

/-- The body of the loop of `move_to_hive` on `(moved, errors)`: a dry run
counts the file as moved; otherwise `moved += 1` when `mkdir` and `shutil.move`
succeed, which `moveSucceeds node` stands for, and `errors += 1` when they raise. -/
def hiveStep (dryRun : Bool) (moveSucceeds : FileNode → Bool) (acc : Nat × Nat)
    (node : FileNode) : Nat × Nat :=
  if dryRun then (acc.1 + 1, acc.2)
  else if moveSucceeds node then (acc.1 + 1, acc.2) else (acc.1, acc.2 + 1)

/-- `move_to_hive(files, root, hive_dir, dry_run)`: the `rel_path`s it handles,
in order, then `moved` and `errors`. -/
def moveToHive (files : FileMap) (dryRun : Bool) (moveSucceeds : FileNode → Bool) :
    List String × Nat × Nat :=
  ((sortedOrphans files).map FileNode.relPath,
    (sortedOrphans files).foldl (hiveStep dryRun moveSucceeds) (0, 0))

/-- What the `defaultdict` holds after the loop: one key per key value met, in
order of first appearance, each with the elements of that key in order. -/
theorem foldl_appendBy {α : Type} (key : α → String) :
    ∀ (xs : List α) (byKey : PyDict String (List α)),
      (∀ d, d ∈ (xs.foldl (appendBy key) byKey).keys ↔ d ∈ byKey.keys ∨ ∃ x ∈ xs, key x = d) ∧
      ∀ d, ((xs.foldl (appendBy key) byKey).find? d).getD [] =
        (byKey.find? d).getD [] ++ xs.filter fun x => key x = d
  | [], _ => ⟨by simp, by simp⟩
  | x :: xs, byKey => by
    obtain ⟨keys, find⟩ := foldl_appendBy key xs (appendBy key byKey x)
    refine ⟨fun d => ?_, fun d => ?_⟩
    · rw [List.foldl_cons, keys, appendBy, PyDict.mem_keys_insert, @eq_comm _ d]
      simp only [List.mem_cons, or_and_right, exists_or, exists_eq_left, or_assoc, or_left_comm]
    · rw [List.foldl_cons, find, appendBy, PyDict.find?_insert]
      by_cases h : key x = d
      · subst h; simp
      · simp [h, Ne.symm h]

/-- A `defaultdict` filled from empty. -/
theorem foldl_appendBy_empty {α : Type} (key : α → String) (xs : List α) :
    (∀ d, d ∈ (xs.foldl (appendBy key) PyDict.empty).keys ↔ ∃ x ∈ xs, key x = d) ∧
      ∀ d, ((xs.foldl (appendBy key) PyDict.empty).find? d).getD [] = xs.filter fun x => key x = d := by
  simpa [PyDict.empty, PyDict.keys, PyDict.find?] using foldl_appendBy key xs PyDict.empty

theorem mem_groupByDir_keys {nodes : List FileNode} {d : String} :
    d ∈ (groupByDir nodes).keys ↔ ∃ node ∈ nodes, parentStr node.relPath = d :=
  (foldl_appendBy_empty _ nodes).1 d

/-- Each group of `by_dir` holds the nodes of its own directory, so the script is
the sorted orphans regrouped by sorted directory. -/
theorem removalScript_eq_regroup (files : FileMap) :
    removalScript files = (((groupByDir (sortedOrphans files)).keys.mergeSort
      fun a b => decide (a ≤ b)).flatMap fun d => (sortedOrphans files).filter
        fun node => parentStr node.relPath = d).map fun node =>
          (parentStr node.relPath, replaceChar node.relPath '/' '\\') := by
  rw [removalScript, List.map_flatMap]
  refine List.flatMap_congr fun d _ => ?_
  rw [show ((groupByDir (sortedOrphans files)).find? d).getD [] = _ from
    (foldl_appendBy_empty _ (sortedOrphans files)).2 d]
  exact List.map_congr_left fun node hn => by simp only [of_decide_eq_true (List.mem_filter.mp hn).2]

/-- Concatenating, over distinct keys that cover a list, the elements of each
key reorders the list. -/
theorem flatMap_filter_perm {α : Type} [DecidableEq α] (key : α → String) {ks : List String}
    (hnd : ks.Nodup) {xs : List α} (hcover : ∀ x ∈ xs, key x ∈ ks) :
    (ks.flatMap fun d => xs.filter fun x => key x = d).Perm xs := by
  refine List.perm_iff_count.mpr fun a => ?_
  have hterm : ∀ d, (xs.filter fun x => key x = d).count a = if key a = d then xs.count a else 0 :=
    fun d => by
      split_ifs with h
      · exact List.count_filter (by simpa using h)
      · exact List.count_eq_zero.mpr fun ha => h (by simpa using (List.mem_filter.mp ha).2)
  rw [List.count_flatMap, ← List.sum_toFinset _ hnd]
  simp only [Function.comp_def, hterm, Finset.sum_ite_eq, List.mem_toFinset]
  split_ifs with h
  · rfl
  · exact (List.count_eq_zero.mpr fun ha => h (hcover a ha)).symm

/-- A `defaultdict(list)` filled from empty and read back in sorted key order:
the keys strictly increase, each holds the elements of its key in order, and
together they hold every element once. -/
theorem sorted_groups {α : Type} [DecidableEq α] (key : α → String) (xs : List α) :
    let byKey := xs.foldl (appendBy key) PyDict.empty
    let keys := byKey.keys.mergeSort fun a b => decide (a ≤ b)
    keys.Sorted (· < ·) ∧ (∀ k, (byKey.find? k).getD [] = xs.filter fun x => key x = k) ∧
      (keys.flatMap fun k => xs.filter fun x => key x = k).Perm xs := by
  intro byKey keys
  obtain ⟨hkeys, hfind⟩ := foldl_appendBy_empty key xs
  have hnodup : keys.Nodup := (List.mergeSort_perm _ _).nodup_iff.mpr (PyDict.nodup_keys _)
  exact ⟨(List.sorted_mergeSort' _).lt_of_le hnodup, hfind, flatMap_filter_perm key hnodup
    fun x hx => (List.mergeSort_perm _ _).mem_iff.mpr ((hkeys _).mpr ⟨x, hx, rfl⟩)⟩

theorem replaceChar_injective {s t : String} (hs : '\\' ∉ s.data) (ht : '\\' ∉ t.data)
    (h : replaceChar s '/' '\\' = replaceChar t '/' '\\') : s = t := by
  -- `\\` back to `/` undoes the replacement on a string without `\\`
  have back : ∀ u : String, '\\' ∉ u.data →
      replaceChar (replaceChar u '/' '\\') '\\' '/' = u := fun u hu => by
    refine String.ext ?_
    simp only [replaceChar_data, List.map_map]
    refine (List.map_congr_left fun c hc => ?_).trans (List.map_id _)
    have hc' : c ≠ '\\' := fun h => hu (h ▸ hc)
    by_cases h₁ : c = '/'
    · subst h₁; rfl
    · simp [h₁, hc']
  rw [← back s hs, ← back t ht, h]

variable (ord : ExtOrder) (disk : Disk) (tree : List Entry) (excludes entryPoints : List String)

/-- The nodes with a given mark, read from the nodes or from the keys. -/
theorem analyze_filter_map {β : Type} (p : Bool → Bool) (f : String → β) :
    (((analyze ord disk (discoverFiles tree excludes) entryPoints).1.entries.map Prod.snd).filter
        fun n => p n.reachable).map (fun n => f n.relPath) =
      ((analyze ord disk (discoverFiles tree excludes) entryPoints).1.keys.filter fun k =>
        p ((analyze ord disk (discoverFiles tree excludes) entryPoints).1.reachableOf k)).map f := by
  have hwf := analyze_nodeWf ord disk tree excludes entryPoints
  simp only [PyDict.keys, List.filter_map, List.map_map, Function.comp_def]
  have hmem : ∀ e ∈ (analyze ord disk (discoverFiles tree excludes) entryPoints).1.entries,
      e.2.relPath = e.1 ∧ (analyze ord disk (discoverFiles tree excludes) entryPoints).1.reachableOf e.1 =
        e.2.reachable := fun e he =>
    ⟨(hwf e.1 e.2 (PyDict.find?_eq_some_iff.mpr he)).1,
      FileMap.reachableOf_of_find? (PyDict.find?_eq_some_iff.mpr he)⟩
  rw [List.filter_congr (q := fun e => p ((analyze ord disk (discoverFiles tree excludes)
    entryPoints).1.reachableOf e.1)) fun e he => by simp only [(hmem e he).2]]
  exact List.map_congr_left fun e he => by rw [(hmem e (List.mem_filter.mp he).1).1]

/-- The orphans, read from the nodes or from the keys. -/
theorem analyze_orphanNodes_map {β : Type} (f : String → β) :
    (orphanNodes (analyze ord disk (discoverFiles tree excludes) entryPoints).1).map
        (fun n => f n.relPath) =
      ((analyze ord disk (discoverFiles tree excludes) entryPoints).1.keys.filter fun k =>
        !(analyze ord disk (discoverFiles tree excludes) entryPoints).1.reachableOf k).map f :=
  analyze_filter_map ord disk tree excludes entryPoints (fun b => !b) f

theorem analyze_keys_no_backslash :
    ∀ k ∈ (analyze ord disk (discoverFiles tree excludes) entryPoints).1.keys, '\\' ∉ k.data :=
  fun k hk => by
    obtain ⟨n, hn⟩ := PyDict.find?_of_mem hk
    obtain ⟨hrel, -, hback⟩ := analyze_nodeWf ord disk tree excludes entryPoints k n hn
    exact hrel ▸ hback

/-- `print_removal_script` deletes every orphan and nothing else, each file on
one `del` line of its own, with pairwise distinct Windows paths; the lines come
directory by directory, the directories in sorted order. -/
theorem printRemovalScript_deletes_orphans (ord : ExtOrder) (disk : Disk) (tree : List Entry)
    (excludes entryPoints : List String) :
    let marked := (analyze ord disk (discoverFiles tree excludes) entryPoints).1
    (removalScript marked).Perm ((marked.keys.filter fun k => !marked.reachableOf k).map fun k =>
        (parentStr k, replaceChar k '/' '\\')) ∧
      ((removalScript marked).map Prod.snd).Nodup ∧
      ((removalScript marked).map Prod.fst).Sorted (· ≤ ·) := by
  intro marked
  have hscript := removalScript_eq_regroup marked
  obtain ⟨hdirs, -, hgroups⟩ := sorted_groups (fun n : FileNode => parentStr n.relPath)
    (sortedOrphans marked)
  have hperm : (removalScript marked).Perm ((orphanNodes marked).map fun node =>
      (parentStr node.relPath, replaceChar node.relPath '/' '\\')) := by
    rw [hscript]
    exact (hgroups.trans (List.mergeSort_perm _ _)).map _
  rw [analyze_orphanNodes_map ord disk tree excludes entryPoints
    (fun k => (parentStr k, replaceChar k '/' '\\'))] at hperm
  refine ⟨hperm, (hperm.map Prod.snd).nodup_iff.mpr ?_, ?_⟩
  · rw [List.map_map]
    refine (marked.nodup_keys.filter _).map_on fun a ha b hb hab => ?_
    have hk := analyze_keys_no_backslash ord disk tree excludes entryPoints
    exact replaceChar_injective (hk a (List.mem_filter.mp ha).1) (hk b (List.mem_filter.mp hb).1) hab
  · have hgroup : ∀ d, ∀ x ∈ ((sortedOrphans marked).filter fun node =>
        parentStr node.relPath = d).map fun node => parentStr node.relPath, x = d := fun d x hx => by
      obtain ⟨node, hn, rfl⟩ := List.mem_map.mp hx
      exact of_decide_eq_true (List.mem_filter.mp hn).2
    rw [hscript, List.map_map, List.map_flatMap]
    refine List.pairwise_flatMap.mpr ⟨fun d _ => List.pairwise_of_forall_mem_list
      fun a ha b hb => by rw [hgroup d a ha, hgroup d b hb], ?_⟩
    exact hdirs.imp fun {d₁ d₂} h x hx y hy => by
      rw [hgroup d₁ x hx, hgroup d₂ y hy]; exact h.le

theorem foldl_hiveStep (dryRun : Bool) (moveSucceeds : FileNode → Bool) :
    ∀ (nodes : List FileNode) (acc : Nat × Nat),
      (nodes.foldl (hiveStep dryRun moveSucceeds) acc).1 +
          (nodes.foldl (hiveStep dryRun moveSucceeds) acc).2 = acc.1 + acc.2 + nodes.length ∧
        (dryRun = true → (nodes.foldl (hiveStep dryRun moveSucceeds) acc).2 = acc.2)
  | [], _ => ⟨rfl, fun _ => rfl⟩
  | node :: nodes, acc => by
    obtain ⟨hsum, hdry⟩ := foldl_hiveStep dryRun moveSucceeds nodes (hiveStep dryRun moveSucceeds acc node)
    simp only [List.foldl_cons, List.length_cons]
    refine ⟨?_, fun h => ?_⟩
    · rw [hsum]; unfold hiveStep; split_ifs <;> simp only <;> omega
    · rw [hdry h, hiveStep, if_pos h]

/-- The orphans in the order `move_to_hive` and `print_report` take them: the
orphan keys, each once, in strictly increasing order. -/
theorem analyze_sortedOrphans_paths (ord : ExtOrder) (disk : Disk) (tree : List Entry)
    (excludes entryPoints : List String) :
    let marked := (analyze ord disk (discoverFiles tree excludes) entryPoints).1
    ((sortedOrphans marked).map FileNode.relPath).Sorted (· < ·) ∧
      ((sortedOrphans marked).map FileNode.relPath).Perm
        (marked.keys.filter fun k => !marked.reachableOf k) := by
  intro marked
  have hperm : ((sortedOrphans marked).map FileNode.relPath).Perm
      (marked.keys.filter fun k => !marked.reachableOf k) := by
    have := analyze_orphanNodes_map ord disk tree excludes entryPoints id
    rw [List.map_id] at this
    exact ((List.mergeSort_perm _ _).map FileNode.relPath).trans (this ▸ List.Perm.refl _)
  have hsorted : ((sortedOrphans marked).map FileNode.relPath).Sorted (· ≤ ·) :=
    List.pairwise_map.mpr ((@List.sorted_mergeSort _
      (fun a b : FileNode => decide (a.relPath ≤ b.relPath))
      (fun _ _ _ hab hbc => decide_eq_true (le_trans (of_decide_eq_true hab) (of_decide_eq_true hbc)))
      (fun a b => by simp [le_total]) _).imp of_decide_eq_true)
  exact ⟨hsorted.lt_of_le (hperm.nodup_iff.mpr (marked.nodup_keys.filter _)), hperm⟩

/-- `move_to_hive` handles every orphan once, in strictly increasing `rel_path`
order, and counts each one as moved or as an error: `moved`, `errors` and the
`reached` of the walk add up to the files on disk. A dry run reports no error,
so its `moved` is the number of orphans. -/
theorem moveToHive_handles_each_orphan (ord : ExtOrder) (disk : Disk) (tree : List Entry)
    (excludes entryPoints : List String) (dryRun : Bool) (moveSucceeds : FileNode → Bool) :
    let result := analyze ord disk (discoverFiles tree excludes) entryPoints
    let hive := moveToHive result.1 dryRun moveSucceeds
    hive.1.Sorted (· < ·) ∧
      hive.1.Perm (result.1.keys.filter fun k => !result.1.reachableOf k) ∧
      hive.2.1 + hive.2.2 + result.2.2 = result.1.size ∧
      (dryRun = true → hive.2.2 = 0) := by
  intro result hive
  obtain ⟨hclosed, hfresh, -⟩ := analyze_walkable disk tree excludes
  obtain ⟨hsorted, hperm⟩ := analyze_sortedOrphans_paths ord disk tree excludes entryPoints
  obtain ⟨hsum, hdry⟩ := foldl_hiveStep dryRun moveSucceeds (sortedOrphans result.1) (0, 0)
  refine ⟨hsorted, hperm, ?_, fun h => hdry h⟩
  have hcount : result.2.2 = (result.1.entries.map Prod.snd).countP fun f => f.reachable := by
    rw [countP_reachable]; exact walkReachability_count ord entryPoints hclosed hfresh
  have hmoved : hive.2.1 + hive.2.2 = (orphanNodes result.1).length :=
    hsum.trans (by simp only [Nat.zero_add]; exact (List.mergeSort_perm _ _).length_eq)
  have := countP_reachable_add_orphans result.1
  omega

/-- The block `ORPHANED FILES` of `print_report`: the directories of `by_dir` in
sorted order, each with its orphans. -/
def orphanListing (files : FileMap) : List (String × List FileNode) :=
  let byDir := groupByDir (sortedOrphans files)
  (byDir.keys.mergeSort fun a b => decide (a ≤ b)).map fun d => (d, (byDir.find? d).getD [])

/-- The block `ORPHANED FILES` of `print_report` lists every orphan once and
nothing else: the directories in strictly increasing order, under each
directory only its own files, in strictly increasing `rel_path` order. The tag
`incl. by N orphan(s)` is true to its word: every includer it counts is a file
of the project that is itself an orphan. -/
theorem printReport_lists_orphans_by_dir (ord : ExtOrder) (disk : Disk) (tree : List Entry)
    (excludes entryPoints : List String) :
    let marked := (analyze ord disk (discoverFiles tree excludes) entryPoints).1
    let listing := orphanListing marked
    (listing.map Prod.fst).Sorted (· < ·) ∧
      ((listing.flatMap Prod.snd).map FileNode.relPath).Perm
        (marked.keys.filter fun k => !marked.reachableOf k) ∧
      (∀ group ∈ listing, (∀ n ∈ group.2, parentStr n.relPath = group.1) ∧
        (group.2.map FileNode.relPath).Sorted (· < ·)) ∧
      ∀ n ∈ listing.flatMap Prod.snd, n.reachable = false ∧
        ∀ a ∈ n.includedBy, a ∈ marked.keys ∧ marked.reachableOf a = false := by
  intro marked listing
  obtain ⟨hsorted, hperm⟩ := analyze_sortedOrphans_paths ord disk tree excludes entryPoints
  have hincl := (analyze_adjacency_closed ord disk tree excludes entryPoints).2
  obtain ⟨hdirs, find, hgroups⟩ := sorted_groups (fun n : FileNode => parentStr n.relPath)
    (sortedOrphans marked)
  set dirs := (groupByDir (sortedOrphans marked)).keys.mergeSort fun a b => decide (a ≤ b)
  have hlisting : listing = dirs.map fun d =>
      (d, (sortedOrphans marked).filter fun n => parentStr n.relPath = d) :=
    List.map_congr_left fun d _ => by
      rw [show ((groupByDir (sortedOrphans marked)).find? d).getD [] = _ from find d]
  have hflat : (listing.flatMap Prod.snd).Perm (sortedOrphans marked) := by
    rw [hlisting, List.flatMap_map]
    exact hgroups
  refine ⟨?_, (hflat.map _).trans hperm, fun group hg => ?_, fun n hn => ?_⟩
  · rw [hlisting, List.map_map]
    exact (List.map_id dirs).symm ▸ hdirs
  · rw [hlisting] at hg
    obtain ⟨d, -, rfl⟩ := List.mem_map.mp hg
    refine ⟨fun n hn => of_decide_eq_true (List.mem_filter.mp hn).2, ?_⟩
    exact List.pairwise_map.mpr ((List.pairwise_map.mp hsorted).sublist (List.filter_sublist _))
  -- an orphan node sits under its own key, whose includers are orphans
  obtain ⟨⟨k, n'⟩, he, rfl⟩ := List.mem_map.mp
    (List.mem_filter.mp ((List.mergeSort_perm _ _).mem_iff.mp (hflat.mem_iff.mp hn))).1
  have hfind := PyDict.find?_eq_some_iff.mpr he
  have hreach : n'.reachable = false := by
    simpa using (List.mem_filter.mp ((List.mergeSort_perm _ _).mem_iff.mp (hflat.mem_iff.mp hn))).2
  refine ⟨hreach, fun a ha => ?_⟩
  have h := hincl k a (by simp [FileMap.includedByOf, hfind, ha])
  exact ⟨h.1, h.2 (by rw [FileMap.reachableOf_of_find? hfind, hreach])⟩

end Orphans

section Broken

/-- The `by_file` dict of `print_report`: the broken includes of reachable
includers, under their includer, in the order of the broken list. -/
def brokenByFile (files : FileMap) (broken : List BrokenInclude) :
    PyDict String (List BrokenInclude) :=
  (broken.filter fun b => files.reachableOf b.includer).foldl (appendBy BrokenInclude.includer)
    PyDict.empty

/-- The block `BROKEN #INCLUDES IN ACTIVE FILES` of `print_report`: the
includers in sorted order, each with its broken includes sorted by line number. -/
def activeBrokenListing (files : FileMap) (broken : List BrokenInclude) :
    List (String × List BrokenInclude) :=
  let byFile := brokenByFile files broken
  (byFile.keys.mergeSort fun a b => decide (a ≤ b)).map fun includer =>
    (includer, ((byFile.find? includer).getD []).mergeSort
      fun x y => decide (x.lineNumber ≤ y.lineNumber))

/-- The builder's broken list holds each includer's misses in increasing line order. -/
theorem buildDependencyGraph_broken_pairwise (disk : Disk) (files : FileMap) (hfresh : files.Fresh)
    (hne : ∀ k ∈ files.keys, k ≠ "") :
    (buildDependencyGraph disk files).2.Pairwise
      fun b c => b.includer = c.includer → b.lineNumber < c.lineNumber := by
  rw [(buildDependencyGraph_eq disk files hfresh.adjacency_nil hne).2.2]
  have hentry : ∀ k inc b, brokenEntry files k inc = some b →
      b = ⟨k, inc.1, inc.2⟩ := fun k inc b h => by
    unfold brokenEntry at h; split_ifs at h; exact (Option.some_inj.mp h).symm
  have hincluder : ∀ k, ∀ b ∈ (includesOf disk files k).filterMap (brokenEntry files k),
      b.includer = k := fun k b hb => by
    obtain ⟨inc, -, h⟩ := List.mem_filterMap.mp hb
    rw [hentry k inc b h]
  refine List.pairwise_flatMap.mpr ⟨fun k _ => ?_, files.nodup_keys.imp fun {a c} hac x hx y hy hxy =>
    absurd ((hincluder a x hx).symm.trans (hxy.trans (hincluder c y hy))) hac⟩
  -- one includer's misses keep the order of its lines
  have hsorted : ((includesOf disk files k).map Prod.snd).Sorted (· < ·) := by
    unfold includesOf
    split
    · exact parseIncludes_lines_sorted disk _
    · exact List.sorted_nil
  refine (List.pairwise_map.mp hsorted).filterMap _ fun p q hpq b hb c hc _ => ?_
  rw [hentry k p b hb, hentry k q c hc]
  exact hpq

/-- The block `BROKEN #INCLUDES IN ACTIVE FILES` of `print_report` lists the
broken includes of the reachable files and nothing else, each once: the
includers in strictly increasing order, under each includer its own broken
includes in strictly increasing line order. Every line shown is an include that
`parse_includes` read from the includer's file at that line and that
`resolve_include` could not place. -/
theorem printReport_lists_active_broken (ord : ExtOrder) (disk : Disk) (tree : List Entry)
    (excludes entryPoints : List String) :
    let files := discoverFiles tree excludes
    let result := analyze ord disk files entryPoints
    let listing := activeBrokenListing result.1 result.2.1
    (listing.map Prod.fst).Sorted (· < ·) ∧
      (listing.flatMap Prod.snd).Perm (result.2.1.filter fun b => result.1.reachableOf b.includer) ∧
      (∀ group ∈ listing, (∀ b ∈ group.2, b.includer = group.1) ∧
        (group.2.map BrokenInclude.lineNumber).Sorted (· < ·)) ∧
      ∀ b ∈ listing.flatMap Prod.snd, result.1.reachableOf b.includer = true ∧
        ∃ n, files.find? b.includer = some n ∧
          (b.rawInclude, b.lineNumber) ∈ parseIncludes disk n.absPath ∧
          resolveInclude b.rawInclude b.includer files = none := by
  intro files result listing
  have wf := discoverFiles_wf tree excludes
  have hbroken : result.2.1 = files.keys.flatMap fun k =>
      (includesOf disk files k).filterMap (brokenEntry files k) :=
    (buildDependencyGraph_eq disk files wf.1.adjacency_nil wf.2).2.2
  obtain ⟨hsorted, find, hflat⟩ := sorted_groups BrokenInclude.includer
    (result.2.1.filter fun b => result.1.reachableOf b.includer)
  have hpw : ∀ i, ((result.2.1.filter fun b => result.1.reachableOf b.includer).filter
      fun b => b.includer = i).Pairwise fun x y => x.lineNumber < y.lineNumber := fun i =>
    ((buildDependencyGraph_broken_pairwise disk files wf.1 wf.2).sublist
      ((List.filter_sublist _).trans (List.filter_sublist _))).imp_of_mem fun hx hy h =>
        h ((of_decide_eq_true (List.mem_filter.mp hx).2).trans
          (of_decide_eq_true (List.mem_filter.mp hy).2).symm)
  set includers := (brokenByFile result.1 result.2.1).keys.mergeSort fun a b => decide (a ≤ b)
  -- each group is its includer's share of the active list, already in line order
  have hlisting : listing = includers.map fun i =>
      (i, (result.2.1.filter fun b => result.1.reachableOf b.includer).filter
        fun b => b.includer = i) :=
    List.map_congr_left fun i _ => by
      rw [show ((brokenByFile result.1 result.2.1).find? i).getD [] = _ from find i,
        List.mergeSort_of_sorted ((hpw i).imp Nat.le_of_lt |>.imp decide_eq_true)]
  have hmem : ∀ b ∈ listing.flatMap Prod.snd,
      b ∈ result.2.1.filter fun b => result.1.reachableOf b.includer := fun b hb => by
    rw [hlisting, List.flatMap_map] at hb
    obtain ⟨i, -, hb⟩ := List.mem_flatMap.mp hb
    exact (List.mem_filter.mp hb).1
  refine ⟨?_, ?_, fun group hg => ?_, fun b hb => ?_⟩
  · rw [hlisting, List.map_map]
    exact (List.map_id includers).symm ▸ hsorted
  · rw [hlisting, List.flatMap_map]
    exact hflat
  · rw [hlisting] at hg
    obtain ⟨i, -, rfl⟩ := List.mem_map.mp hg
    exact ⟨fun b hb => of_decide_eq_true (List.mem_filter.mp hb).2, List.pairwise_map.mpr (hpw i)⟩
  · obtain ⟨hb, hreach⟩ := List.mem_filter.mp (hmem b hb)
    rw [hbroken] at hb
    obtain ⟨k, hk, hb⟩ := List.mem_flatMap.mp hb
    obtain ⟨inc, hinc, h⟩ := List.mem_filterMap.mp hb
    unfold brokenEntry at h
    split_ifs at h with hres
    cases h
    obtain ⟨n, hn⟩ := PyDict.find?_of_mem hk
    refine ⟨hreach, n, hn, ?_, hres⟩
    simpa [includesOf, hn] using hinc

end Broken

section Tree

/-- The key of `print_reachable_tree`'s sort, `(f.depth, f.rel_path)`, compared
as Python compares tuples. -/
def depthFirstLe (a b : FileNode) : Bool :=
  decide (a.depth < b.depth ∨ a.depth = b.depth ∧ a.relPath ≤ b.relPath)

/-- The files `print_reachable_tree` prints, in order. -/
def reachableTree (files : FileMap) : List FileNode :=
  ((files.entries.map Prod.snd).filter fun f => f.reachable).mergeSort depthFirstLe

theorem depthFirstLe_trans {a b c : FileNode} (hab : depthFirstLe a b) (hbc : depthFirstLe b c) :
    depthFirstLe a c := by
  simp only [depthFirstLe, decide_eq_true_eq] at hab hbc ⊢
  rcases hab with hab | ⟨hab, hab'⟩ <;> rcases hbc with hbc | ⟨hbc, hbc'⟩
  · exact .inl (hab.trans hbc)
  · exact .inl (hbc ▸ hab)
  · exact .inl (hab ▸ hbc)
  · exact .inr ⟨hab.trans hbc, hab'.trans hbc'⟩

theorem depthFirstLe_total (a b : FileNode) : depthFirstLe a b || depthFirstLe b a := by
  simp only [depthFirstLe, Bool.or_eq_true, decide_eq_true_eq]
  rcases lt_trichotomy a.depth b.depth with h | h | h
  · exact .inl (.inl h)
  · rcases le_total a.relPath b.relPath with h' | h'
    · exact .inl (.inr ⟨h, h'⟩)
    · exact .inr (.inr ⟨h.symm, h'⟩)
  · exact .inr (.inl h)

/-- `print_reachable_tree` prints every reached file once, by nondecreasing
depth; depth 0, labelled `ENTRY`, is exactly the entry points; and the depths
have no gap: below every depth printed, every smaller depth is printed too, so
the labels run `ENTRY`, `depth 1`, `depth 2`, ... up to the deepest file. -/
theorem printReachableTree_depths_without_gaps (ord : ExtOrder) (disk : Disk) (tree : List Entry)
    (excludes entryPoints : List String) :
    let marked := (analyze ord disk (discoverFiles tree excludes) entryPoints).1
    let listing := reachableTree marked
    (listing.map FileNode.relPath).Perm (marked.keys.filter marked.reachableOf) ∧
      (listing.map FileNode.depth).Sorted (· ≤ ·) ∧
      ∀ n ∈ listing, (n.depth = 0 ↔ n.isEntry = true) ∧ 0 ≤ n.depth ∧
        ∀ d : Nat, (d : Int) ≤ n.depth → ∃ m ∈ listing, m.depth = d := by
  intro marked listing
  obtain ⟨hclosed, hfresh, hentry⟩ := analyze_walkable disk tree excludes
  have hwf := analyze_nodeWf ord disk tree excludes entryPoints
  have hperm : listing.Perm ((marked.entries.map Prod.snd).filter fun f => f.reachable) :=
    List.mergeSort_perm _ _
  -- a reached key's node is printed, with the key's depth
  have hlisted : ∀ v, marked.reachableOf v = true → ∃ m ∈ listing, m.depth = marked.depthOf v := by
    intro v hv
    obtain ⟨m, hm⟩ := PyDict.find?_of_mem
      ((walkReachability_correct ord entryPoints hclosed hfresh).1 ▸
        ((walkReachability_reachableOf_iff ord entryPoints hclosed hfresh v).mp hv).elim
          fun _ h => h.mem_keys hclosed)
    refine ⟨m, hperm.mem_iff.mpr (List.mem_filter.mpr ⟨List.mem_map.mpr ⟨(v, m),
      PyDict.find?_eq_some_iff.mp hm, rfl⟩, ?_⟩), (FileMap.depthOf_of_find? hm).symm⟩
    rwa [← FileMap.reachableOf_of_find? hm]
  -- every smaller depth is the depth of some reached key
  have hdown : ∀ d : Nat, ∀ v, marked.reachableOf v = true → marked.depthOf v = d →
      ∀ d' ≤ d, ∃ u, marked.reachableOf u = true ∧ marked.depthOf u = d' := by
    intro d
    induction d with
    | zero => intro v hv hd d' hd'; exact ⟨v, hv, by rw [hd]; omega⟩
    | succ d ih =>
      intro v hv hd d' hd'
      rcases Nat.lt_or_ge d' (d + 1) with hlt | hge
      · obtain ⟨u, -, hu, hdu⟩ := walkReachability_layer ord entryPoints hclosed hfresh hv
          (by rw [show (walkReachability ord _ entryPoints).1.depthOf v = _ from hd]; omega)
        have hdu' : marked.depthOf u + 1 = marked.depthOf v := hdu
        exact ih u hu (by omega) d' (by omega)
      · exact ⟨v, hv, by rw [hd]; omega⟩
  refine ⟨?_, ?_, fun n hn => ?_⟩
  · have h := analyze_filter_map ord disk tree excludes entryPoints id id
    simp only [id, List.map_id] at h
    exact (hperm.map _).trans (List.Perm.of_eq h)
  · refine List.pairwise_map.mpr ((@List.sorted_mergeSort _ depthFirstLe
      (fun _ _ _ => depthFirstLe_trans) depthFirstLe_total _).imp fun {a b} h => ?_)
    simp only [depthFirstLe, decide_eq_true_eq] at h
    rcases h with h | ⟨h, -⟩
    · exact h.le
    · exact h.le
  · obtain ⟨hv, hreach⟩ := List.mem_filter.mp (hperm.mem_iff.mp hn)
    obtain ⟨⟨k, n'⟩, he, rfl⟩ := List.mem_map.mp hv
    have hfind := PyDict.find?_eq_some_iff.mpr he
    have hk : marked.reachableOf k = true := by rw [FileMap.reachableOf_of_find? hfind]; exact hreach
    obtain ⟨j, hj⟩ := (walkReachability_reachableOf_iff ord entryPoints hclosed hfresh k).mp hk
    obtain ⟨d, hd, -, -⟩ := walkReachability_depthOf ord entryPoints hclosed hfresh hj
    have hdepth : n'.depth = d := (FileMap.depthOf_of_find? hfind).symm.trans hd
    refine ⟨walkReachability_depth_eq_zero_iff ord entryPoints hclosed hfresh hentry hfind hreach,
      by rw [hdepth]; omega, fun d' hd' => ?_⟩
    obtain ⟨u, hu, hdu⟩ := hdown d k hk hd d' (by rw [hdepth] at hd'; omega)
    obtain ⟨m, hm, hmd⟩ := hlisted u hu
    exact ⟨m, hm, hmd.trans hdu⟩

end Tree

section Csv

/-- One row of `write_csv_report`. -/
structure CsvRow where
  relativePath : String
  extension : String
  sizeBytes : Nat
  reachable : Bool
  depth : Int
  isEntry : Bool
  isGrain : Bool
  includedByCount : Nat
  includesCount : Nat
deriving Repr, DecidableEq

/-- The row `write_csv_report` writes for a node; the quoting and the spelling
of the values are left out. -/
def csvRow (n : FileNode) : CsvRow :=
  ⟨n.relPath, n.extension, n.sizeBytes, n.reachable, n.depth, n.isEntry, n.isGrain,
    n.includedBy.length, n.resolvedDeps.length⟩

/-- `for rel_path in sorted(files): n = files[rel_path]`, one row each. -/
def csvRows (files : FileMap) : List CsvRow :=
  (files.keys.mergeSort fun a b => decide (a ≤ b)).filterMap fun k => (files.find? k).map csvRow

/-- `edges = sum(len(n.resolved_deps) for n in files.values())`, which `main` logs. -/
def edgeCount (files : FileMap) : Nat :=
  (files.entries.map fun e => e.2.resolvedDeps.length).sum

open Finset in
theorem length_eq_sum_count {l : List String} {s : Finset String} (h : ∀ x ∈ l, x ∈ s) :
    l.length = ∑ x ∈ s, l.count x := by
  rw [← Finset.sum_subset (fun x hx => h x (List.mem_toFinset.mp hx))
    fun x _ hx => List.count_eq_zero.mpr (mt List.mem_toFinset.mpr hx)]
  simp

open Finset in
/-- Double counting over two adjacency lists that mirror each other: as many
`included_by` entries as `resolved_deps` entries. -/
theorem sum_length_eq_of_mirror {s : Finset String} {deps incl : String → List String}
    (hd : ∀ a, ∀ x ∈ deps a, x ∈ s) (hi : ∀ b, ∀ x ∈ incl b, x ∈ s)
    (hmirror : ∀ a b, (deps a).count b = (incl b).count a) :
    ∑ b ∈ s, (incl b).length = ∑ a ∈ s, (deps a).length :=
  calc ∑ b ∈ s, (incl b).length = ∑ b ∈ s, ∑ a ∈ s, (incl b).count a :=
        Finset.sum_congr rfl fun b _ => length_eq_sum_count (hi b)
    _ = ∑ b ∈ s, ∑ a ∈ s, (deps a).count b := by simp only [hmirror]
    _ = ∑ a ∈ s, ∑ b ∈ s, (deps a).count b := Finset.sum_comm
    _ = ∑ a ∈ s, (deps a).length := Finset.sum_congr rfl fun a _ => (length_eq_sum_count (hd a)).symm

/-- A column of the CSV, summed, is the sum over the keys of the node's value. -/
theorem sum_csvRows (files : FileMap) (col : CsvRow → Nat) (f : FileNode → Nat)
    (hcol : ∀ n, col (csvRow n) = f n) :
    ((csvRows files).map col).sum = (files.keys.map fun k => ((files.find? k).map f).getD 0).sum := by
  rw [csvRows, List.map_filterMap]
  have hsome : ∀ k ∈ files.keys.mergeSort fun a b => decide (a ≤ b),
      ((files.find? k).map csvRow).map col = (some ∘ fun k => ((files.find? k).map f).getD 0) k :=
    fun k hk => by
      obtain ⟨n, hn⟩ := PyDict.find?_of_mem (List.mem_mergeSort.mp hk)
      simp [hn, hcol]
  rw [List.filterMap_congr hsome, List.filterMap_eq_map]
  exact ((List.mergeSort_perm _ _).map _).sum_eq

variable (ord : ExtOrder) (disk : Disk) (tree : List Entry) (excludes entryPoints : List String)

/-- `write_csv_report` writes one row per file, in sorted key order, each under
its own key; its `included_by_count` and `includes_count` columns both sum to
`edges`, the number of resolved include edges that `main` logs. -/
theorem writeCsvReport_counts_balance (ord : ExtOrder) (disk : Disk) (tree : List Entry)
    (excludes entryPoints : List String) :
    let marked := (analyze ord disk (discoverFiles tree excludes) entryPoints).1
    (csvRows marked).map CsvRow.relativePath = marked.keys.mergeSort (fun a b => decide (a ≤ b)) ∧
      ((csvRows marked).map CsvRow.includedByCount).sum = edgeCount marked ∧
      ((csvRows marked).map CsvRow.includesCount).sum = edgeCount marked := by
  intro marked
  obtain ⟨-, -, hgraph, hmirror⟩ := buildDependencyGraph_discoverFiles disk tree excludes
  obtain ⟨hclosed, hfresh, -⟩ := analyze_walkable disk tree excludes
  have hkeys := (walkReachability_correct ord entryPoints hclosed hfresh).1
  have deps := walkReachability_depsOf ord (buildDependencyGraph disk (discoverFiles tree excludes)).1
    entryPoints
  have incl := walkReachability_includedByOf ord
    (buildDependencyGraph disk (discoverFiles tree excludes)).1 entryPoints
  have hwf := analyze_nodeWf ord disk tree excludes entryPoints
  -- both columns as sums over the keys
  have hdeps : ((csvRows marked).map CsvRow.includesCount).sum =
      ∑ a ∈ marked.keys.toFinset, (marked.depsOf a).length := by
    rw [sum_csvRows marked _ (fun n => n.resolvedDeps.length) fun _ => rfl,
      ← List.sum_toFinset _ marked.nodup_keys]
    exact Finset.sum_congr rfl fun a _ => by simp only [FileMap.depsOf]; cases marked.find? a <;> rfl
  have hincl : ((csvRows marked).map CsvRow.includedByCount).sum =
      ∑ b ∈ marked.keys.toFinset, (marked.includedByOf b).length := by
    rw [sum_csvRows marked _ (fun n => n.includedBy.length) fun _ => rfl,
      ← List.sum_toFinset _ marked.nodup_keys]
    exact Finset.sum_congr rfl fun a _ => by
      simp only [FileMap.includedByOf]; cases marked.find? a <;> rfl
  have hedges : edgeCount marked = ((csvRows marked).map CsvRow.includesCount).sum := by
    rw [sum_csvRows marked _ (fun n => n.resolvedDeps.length) fun _ => rfl, edgeCount, PyDict.keys,
      List.map_map]
    exact congrArg List.sum (List.map_congr_left fun e he => by
      simp [PyDict.find?_eq_some_iff.mpr he])
  refine ⟨?_, ?_, hedges.symm⟩
  · rw [csvRows, List.map_filterMap]
    refine (List.filterMap_congr fun k hk => ?_).trans (List.filterMap_some _)
    obtain ⟨n, hn⟩ := PyDict.find?_of_mem (List.mem_mergeSort.mp hk)
    simp [hn, csvRow, (hwf k n hn).1]
  · rw [hedges, hincl, hdeps]
    refine sum_length_eq_of_mirror (fun a x hx => ?_) (fun b x hx => ?_) fun a b => ?_
    · exact List.mem_toFinset.mpr (hkeys ▸ hclosed a x (deps a ▸ hx))
    · exact List.mem_toFinset.mpr (hkeys ▸ (hgraph b).2 x (incl b ▸ hx))
    · exact (congrArg (List.count b) (deps a)).trans
        ((hmirror a b).trans (congrArg (List.count a) (incl b)).symm)

/-- The two counts `main` logs in phase 3 add up: `edges` resolved includes and
`len(broken)` unresolved ones make up every `#include` that `parse_includes`
read, over all discovered files. -/
theorem mainLog_edges_add_broken (ord : ExtOrder) (disk : Disk) (tree : List Entry)
    (excludes entryPoints : List String) :
    let files := discoverFiles tree excludes
    let result := analyze ord disk files entryPoints
    edgeCount result.1 + result.2.1.length =
      (files.entries.map fun e => (parseIncludes disk e.2.absPath).length).sum := by
  intro files result
  have wf := discoverFiles_wf tree excludes
  obtain ⟨-, deps, broken⟩ := buildDependencyGraph_eq disk files wf.1.adjacency_nil wf.2
  obtain ⟨hclosed, hfresh, -⟩ := analyze_walkable disk tree excludes
  have hkeys : result.1.keys = files.keys := (walkReachability_correct ord entryPoints hclosed hfresh).1.trans
    (buildDependencyGraph_walkable disk files wf.1 wf.2).1
  -- both sides as sums over the keys
  have hedges : edgeCount result.1 = (files.keys.map fun k => (result.1.depsOf k).length).sum := by
    rw [edgeCount, ← hkeys, PyDict.keys, List.map_map]
    exact congrArg List.sum (List.map_congr_left fun e he => by
      simp [FileMap.depsOf, PyDict.find?_eq_some_iff.mpr he])
  have hincs : (files.entries.map fun e => (parseIncludes disk e.2.absPath).length).sum =
      (files.keys.map fun k => (includesOf disk files k).length).sum := by
    rw [PyDict.keys, List.map_map]
    exact congrArg List.sum (List.map_congr_left fun e he => by
      simp [includesOf, PyDict.find?_eq_some_iff.mpr he])
  rw [hedges, hincs, show result.2.1 = _ from broken, List.length_flatMap, ← List.sum_map_add]
  refine congrArg List.sum (List.map_congr_left fun k hk => ?_)
  rw [Function.comp_apply, show result.1.depsOf k = _ from walkReachability_depsOf ord _ entryPoints k,
    deps k, if_pos hk]
  exact (length_filterMap_split files k _).symm

end Csv

end IncludeGraph.Finder
