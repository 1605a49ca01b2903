import IncludeGraph.Finder.Reach

/-!
# `main` of `dead_file_finder.py`: the phases in a row

`main` discovers the files, collects the entry points, builds the include graph
and walks it; every report then reads the marked dict alone. The builder and the
walk write only the adjacency lists and the marks, so the fields discovery wrote
reach the reports unchanged. On the marked dict a file is reachable exactly when
some path of include and sibling edges leads to it from an entry point, and its
depth is the length of a shortest such path; the walk's own correctness gives
both, and this module carries them through the phases.

From that description follow the facts the reports rely on, over every project
tree, file system contents, set iteration order and argument list: more entry
points only add reachable files and never deepen one; the depths are the layers
of a breadth-first search, with depth 0 exactly on the entry points, which
`print_reachable_tree` labels `ENTRY`; and the reachable files are closed under
includes, so `print_include_graph` never shows a dead dependency of a live file
and every includer that `print_report` counts for an orphan is an orphan.

The first two phases are pinned down too: discovery keeps, under each key, the
node of the last admitted entry with that relative path; and `find_entry_point`
returns `None` only when the hint finds no key and no key carries a name of
`MAIN_CANDIDATES`. Phase 2 is modelled with the lines it logs. Every call falls
back on those names, so an `--extra-entry` that names no file is logged as found,
as the main entry point again, and `main` prints its `WARNING: not found` only on
a tree without any such name.
-/

namespace IncludeGraph.Finder

open Py

/-- Phase 2 of `main`: `find_entry_point(files, args.entry)`, then
`find_entry_point(files, extra)` for each `--extra-entry`, keeping what is found. -/
def entryPointsOf (files : FileMap) (entry : Option String) (extraEntries : List String) :
    List String :=
  (findEntryPoint files entry).toList ++
    extraEntries.filterMap fun extra => findEntryPoint files (some extra)

/-- Phases 3 and 4 of `main`: `build_dependency_graph`, then `walk_reachability`;
the marked dict, the broken list and `reached`. -/
def analyze (ord : ExtOrder) (disk : Disk) (files : FileMap) (entryPoints : List String) :
    FileMap × List BrokenInclude × Nat :=
  ((walkReachability ord (buildDependencyGraph disk files).1 entryPoints).1,
    (buildDependencyGraph disk files).2,
    (walkReachability ord (buildDependencyGraph disk files).1 entryPoints).2)

/-- The fields discovery writes and the later phases only read. -/
def FileNode.discovered (n : FileNode) : String × String × String × Nat × Bool :=
  (n.absPath, n.relPath, n.extension, n.sizeBytes, n.isGrain)

section Frame

/-- A loop of the builder whose every turn keeps a projection of each node keeps
it over the whole run. -/
theorem foldl_find?_map {β γ : Type} {proj : FileNode → β}
    {f : FileMap × List BrokenInclude → γ → FileMap × List BrokenInclude}
    (hf : ∀ acc c x, ((f acc c).1.find? x).map proj = (acc.1.find? x).map proj) (x : String) :
    ∀ (cs : List γ) (acc : FileMap × List BrokenInclude),
      ((cs.foldl f acc).1.find? x).map proj = (acc.1.find? x).map proj
  | [], _ => rfl
  | c :: cs, acc => (foldl_find?_map hf x cs _).trans (hf acc c x)

theorem linkInclude_discovered (a : String) (acc : FileMap × List BrokenInclude)
    (inc : String × Nat) (x : String) :
    ((linkInclude a acc inc).1.find? x).map FileNode.discovered =
      (acc.1.find? x).map FileNode.discovered := by
  unfold linkInclude
  split
  · split_ifs
    · rw [FileMap.find?_modify_proj _ _ _ FileNode.discovered (g := FileNode.addIncluder a) fun _ => rfl,
        FileMap.find?_modify_proj _ _ _ FileNode.discovered (g := FileNode.addDep _) fun _ => rfl]
    · rfl
  · rfl

theorem scanArtifact_discovered (disk : Disk) (acc : FileMap × List BrokenInclude) (a x : String) :
    ((scanArtifact disk acc a).1.find? x).map FileNode.discovered =
      (acc.1.find? x).map FileNode.discovered := by
  unfold scanArtifact
  split
  · rfl
  · rw [foldl_find?_map (linkInclude_discovered a)]
    exact FileMap.find?_modify_proj _ _ _ FileNode.discovered (g := FileNode.setRaw _) fun _ => rfl

/-- `build_dependency_graph` writes only the adjacency lists and `raw_includes`. -/
theorem buildDependencyGraph_discovered (disk : Disk) (files : FileMap) (x : String) :
    (((buildDependencyGraph disk files).1.find? x).map FileNode.discovered) =
      (files.find? x).map FileNode.discovered :=
  foldl_find?_map (scanArtifact_discovered disk) x _ _

variable {β : Type} (proj : FileNode → β) (hm : ∀ d n, proj (FileNode.markReached d n) = proj n)

include hm in
theorem Walk.step_find?_map (exts : List String) (s : Walk) (v : String) :
    ((s.step exts).files.find? v).map proj = (s.files.find? v).map proj := by
  cases hq : s.queue with
  | nil => simp [Walk.step, hq]
  | cons p rest =>
    obtain ⟨-, -, -, -, find⟩ := Walk.step_spec exts (u := p.1) (d := p.2) (hq.trans rfl)
    rw [find]; split_ifs <;> simp [Option.map_map, Function.comp_def, hm]

include hm in
theorem Walk.run_find?_map (exts : List String) :
    ∀ (fuel : Nat) (s : Walk) (v : String),
      ((s.run exts fuel).files.find? v).map proj = (s.files.find? v).map proj
  | 0, _, _ => rfl
  | fuel + 1, s, v => by
    rw [Walk.run]; split_ifs
    · rfl
    · rw [Walk.run_find?_map exts fuel, Walk.step_find?_map proj hm]

include hm in
/-- The walk writes only the three marks. -/
theorem walkReachability_find?_map (he : ∀ n, proj (FileNode.markEntry n) = proj n)
    (ord : ExtOrder) (files : FileMap) (entries : List String) (v : String) :
    ((walkReachability ord files entries).1.find? v).map proj = (files.find? v).map proj := by
  obtain ⟨-, -, -, -, find⟩ := Walk.enterAll_spec entries ⟨files, [], ∅⟩
  simp only [walkReachability, Walk.run_find?_map proj hm, find]
  split_ifs <;> simp [Option.map_map, Function.comp_def, he]

end Frame

theorem walkReachability_depsOf (ord : ExtOrder) (files : FileMap) (entries : List String)
    (a : String) : (walkReachability ord files entries).1.depsOf a = files.depsOf a := by
  unfold FileMap.depsOf
  rw [walkReachability_find?_map FileNode.resolvedDeps (fun _ _ => rfl) (fun _ => rfl)]

theorem walkReachability_includedByOf (ord : ExtOrder) (files : FileMap) (entries : List String)
    (b : String) : (walkReachability ord files entries).1.includedByOf b = files.includedByOf b := by
  unfold FileMap.includedByOf
  rw [walkReachability_find?_map FileNode.includedBy (fun _ _ => rfl) (fun _ => rfl)]

section Marks

theorem ReachIn.mem_keys {g : FileMap} {entries : List String}
    (hclosed : ∀ a, ∀ x ∈ g.depsOf a, x ∈ g.keys) {v : String} {m : Nat}
    (h : ReachIn g entries v m) : v ∈ g.keys := by
  cases h with
  | entry _ hk => exact hk
  | step _ he => exact he.target_mem hclosed

theorem ReachIn.mono {g : FileMap} {entries₁ entries₂ : List String}
    (hsub : ∀ e ∈ entries₁, e ∈ entries₂) {v : String} {m : Nat} (h : ReachIn g entries₁ v m) :
    ReachIn g entries₂ v m := by
  induction h with
  | entry he hk => exact .entry (hsub _ he) hk
  | step _ he ih => exact ih.step he

variable (ord : ExtOrder) {g : FileMap} (entries : List String)
  (hclosed : ∀ a, ∀ x ∈ g.depsOf a, x ∈ g.keys)
  (hfresh : ∀ k n, g.find? k = some n → n.reachable = false ∧ n.depth = -1)
include hclosed hfresh

/-- The walk's result read through `reachableOf`, absent keys included. -/
theorem walkReachability_reachableOf_iff (v : String) :
    (walkReachability ord g entries).1.reachableOf v = true ↔ ∃ m, ReachIn g entries v m := by
  obtain ⟨keys, correct⟩ := walkReachability_correct ord entries hclosed hfresh
  cases h : (walkReachability ord g entries).1.find? v with
  | none =>
    have hv : v ∉ g.keys := fun hv => by
      rw [← keys, PyDict.mem_keys_iff_find?, h] at hv; cases hv
    simp only [FileMap.reachableOf, h, Option.map_none', Option.getD_none, Bool.false_eq_true,
      false_iff]
    exact fun ⟨m, hm⟩ => hv (hm.mem_keys hclosed)
  | some n => rw [FileMap.reachableOf_of_find? h]; exact (correct v n h).1

/-- The walk's result read through `depthOf`: a shortest path length. -/
theorem walkReachability_depthOf {v : String} {m : Nat} (h : ReachIn g entries v m) :
    ∃ d : Nat, (walkReachability ord g entries).1.depthOf v = d ∧ ReachIn g entries v d ∧
      ∀ m', ReachIn g entries v m' → d ≤ m' := by
  obtain ⟨keys, correct⟩ := walkReachability_correct ord entries hclosed hfresh
  obtain ⟨n, hn⟩ := PyDict.find?_of_mem (keys ▸ h.mem_keys hclosed :
    v ∈ (walkReachability ord g entries).1.keys)
  rw [FileMap.depthOf_of_find? hn]
  exact (correct v n hn).2.1 ⟨m, h⟩

/-- An entry point that is a key is reached at depth 0. -/
theorem walkReachability_entry {v : String} (hv : v ∈ entries) (hk : v ∈ g.keys) :
    (walkReachability ord g entries).1.reachableOf v = true ∧
      (walkReachability ord g entries).1.depthOf v = 0 := by
  have h0 : ReachIn g entries v 0 := .entry hv hk
  obtain ⟨d, hd, -, hmin⟩ := walkReachability_depthOf ord entries hclosed hfresh h0
  refine ⟨(walkReachability_reachableOf_iff ord entries hclosed hfresh v).mpr ⟨0, h0⟩, ?_⟩
  rw [hd, Nat.le_zero.mp (hmin 0 h0)]
  rfl

/-- Along an edge out of a reached file the target is reached, at most one level deeper. -/
theorem walkReachability_edge {u v : String} (he : Edge g u v)
    (hu : (walkReachability ord g entries).1.reachableOf u = true) :
    (walkReachability ord g entries).1.reachableOf v = true ∧
      (walkReachability ord g entries).1.depthOf v ≤
        (walkReachability ord g entries).1.depthOf u + 1 := by
  obtain ⟨m, hm⟩ := (walkReachability_reachableOf_iff ord entries hclosed hfresh u).mp hu
  obtain ⟨du, hdu, hru, -⟩ := walkReachability_depthOf ord entries hclosed hfresh hm
  obtain ⟨dv, hdv, -, hmin⟩ := walkReachability_depthOf ord entries hclosed hfresh (hru.step he)
  refine ⟨(walkReachability_reachableOf_iff ord entries hclosed hfresh v).mpr ⟨_, hru.step he⟩, ?_⟩
  have := hmin _ (hru.step he)
  rw [hdu, hdv]
  omega

/-- A reached file at a positive depth has a reached predecessor one level up. -/
theorem walkReachability_layer {v : String}
    (hv : (walkReachability ord g entries).1.reachableOf v = true)
    (hpos : 0 < (walkReachability ord g entries).1.depthOf v) :
    ∃ u, Edge g u v ∧ (walkReachability ord g entries).1.reachableOf u = true ∧
      (walkReachability ord g entries).1.depthOf u + 1 =
        (walkReachability ord g entries).1.depthOf v := by
  obtain ⟨m, hm⟩ := (walkReachability_reachableOf_iff ord entries hclosed hfresh v).mp hv
  obtain ⟨d, hd, hrd, -⟩ := walkReachability_depthOf ord entries hclosed hfresh hm
  rw [hd] at hpos ⊢
  cases hrd with
  | entry _ _ => exact absurd hpos (lt_irrefl 0)
  | @step u _ j hu he =>
    have hur := (walkReachability_reachableOf_iff ord entries hclosed hfresh u).mpr ⟨j, hu⟩
    obtain ⟨du, hdu, -, hmin⟩ := walkReachability_depthOf ord entries hclosed hfresh hu
    have hle := (walkReachability_edge ord entries hclosed hfresh he hur).2
    have := hmin j hu
    rw [hdu, hd] at hle
    exact ⟨u, he, hur, by rw [hdu]; omega⟩

/-- Among reached files, depth 0 is exactly `is_entry`. -/
theorem walkReachability_depth_eq_zero_iff
    (hentry : ∀ k n, g.find? k = some n → n.isEntry = false) {v : String} {n : FileNode}
    (hn : (walkReachability ord g entries).1.find? v = some n) (hr : n.reachable = true) :
    n.depth = 0 ↔ n.isEntry = true := by
  have hE := walkReachability_isEntry ord g entries v
  obtain ⟨m, hm⟩ := (walkReachability_reachableOf_iff ord entries hclosed hfresh v).mp
    (by rw [FileMap.reachableOf_of_find? hn]; exact hr)
  obtain ⟨n₀, hn₀⟩ := PyDict.find?_of_mem (hm.mem_keys hclosed)
  obtain ⟨d, hd, hrd, hmin⟩ := walkReachability_depthOf ord entries hclosed hfresh hm
  rw [FileMap.depthOf_of_find? hn] at hd
  rw [hn, hn₀] at hE
  simp only [Option.map_some'] at hE
  rw [hd]
  by_cases hc : v ∈ entries ∧ v ∈ g.keys
  · rw [if_pos hc, Option.some_inj] at hE
    have := hmin 0 (.entry hc.1 hc.2)
    simp only [hE, iff_true]
    omega
  · rw [if_neg hc, Option.some_inj, hentry v n₀ hn₀] at hE
    simp only [hE, Bool.false_eq_true, iff_false]
    intro h0
    obtain rfl : d = 0 := by exact_mod_cast h0
    exact hc (ReachIn.zero_iff.mp hrd)

end Marks

section Phases

/-- `discover_files` keeps, under each key, the node of the last admitted entry
with that relative path, and no other key. -/
theorem discoverFiles_find? (tree : List Entry) (excludes : List String) (k : String) :
    (discoverFiles tree excludes).find? k =
      (((tree.filter fun e => e.admitted excludes).reverse.find? fun e => e.relStr = k)).map
        Entry.node := by
  induction tree using List.reverseRecOn with
  | nil => simp [discoverFiles, PyDict.empty, PyDict.find?]
  | append_singleton tree e ih =>
    rw [discoverFiles, List.foldl_append, List.foldl_cons, List.foldl_nil, ← discoverFiles,
      List.filter_append]
    by_cases he : e.admitted excludes
    · rw [if_pos he, PyDict.find?_insert, List.filter_cons, if_pos he]
      by_cases hk : k = e.relStr
      · simp [hk]
      · simp [hk, Ne.symm hk, ih]
    · simp [he, ih]

/-- The hint part of `find_entry_point` finds nothing: the hint is empty, or
neither it nor its file name matches a key. -/
def HintMisses (files : FileMap) (hint : String) : Prop :=
  hint = "" ∨ (replaceChar hint '\\' '/' ∉ files.keys ∧
    ∀ k ∈ files.keys, baseName k ≠ baseName (replaceChar hint '\\' '/'))

instance (files : FileMap) (hint : String) : Decidable (HintMisses files hint) :=
  inferInstanceAs (Decidable (hint = "" ∨ (replaceChar hint '\\' '/' ∉ files.keys ∧
    ∀ k ∈ files.keys, baseName k ≠ baseName (replaceChar hint '\\' '/'))))

theorem namedLike_eq_nil {files : FileMap} {base : String} :
    namedLike files base = [] ↔ ∀ k ∈ files.keys, baseName k ≠ base := by
  simp [namedLike, List.filter_eq_nil_iff]

/-- `find_entry_point` returns `None` exactly when the hint finds no key and no
key carries a name of `MAIN_CANDIDATES`. -/
theorem findEntryPoint_eq_none_iff (files : FileMap) (hint : Option String) :
    findEntryPoint files hint = none ↔
      (∀ h, hint = some h → HintMisses files h) ∧ ∀ k ∈ files.keys, baseName k ∉ mainCandidates := by
  have hmain : (mainCandidates.findSome? fun c => pickShortest (namedLike files c)) = none ↔
      ∀ k ∈ files.keys, baseName k ∉ mainCandidates := by
    simp only [List.findSome?_eq_none_iff, pickShortest_eq_none, namedLike_eq_nil]
    exact ⟨fun h k hk hc => h _ hc k hk rfl, fun h c hc k hk e => h k hk (e ▸ hc)⟩
  simp only [findEntryPoint, Option.or_eq_none, hmain]
  refine and_congr_left fun _ => ?_
  cases hint with
  | none => simp
  | some h =>
    simp only [Option.some.injEq, forall_eq', HintMisses]
    split_ifs with h0 hk
    · simp [h0]
    · simp [h0, hk]
    · simp [h0, hk, pickShortest_eq_none, namedLike_eq_nil]

/-- A hint that finds no key gives what no hint gives: an `--extra-entry` that
names no file comes back as the main entry point, not as `None`. -/
theorem findEntryPoint_missing_extra (files : FileMap) (extra : String)
    (hmiss : HintMisses files extra) :
    findEntryPoint files (some extra) = findEntryPoint files none := by
  rcases hmiss with h0 | ⟨hk, hname⟩
  · simp [findEntryPoint, h0]
  · by_cases h0 : extra = ""
    · simp [findEntryPoint, h0]
    · simp [findEntryPoint, h0, hk, namedLike_eq_nil.mpr hname, pickShortest]

/-- A line phase 2 of `main` logs. -/
inductive EntryLog where
  | mainFound (key : String)
  | mainMissing
  | tried (entry : String)
  | useEntry
  | extraFound (key : String)
  | extraMissing (extra : String)
  | noEntryPoints
deriving DecidableEq, Repr

/-- The text `log` prints for a line. -/
def EntryLog.text : EntryLog → String
  | .mainFound key => "  main.cpp -> " ++ key
  | .mainMissing => "  WARNING: main.cpp not found!"
  | .tried entry => "  Tried: " ++ entry
  | .useEntry => "  Use --entry path/to/main.cpp"
  | .extraFound key => "  extra   -> " ++ key
  | .extraMissing extra => "  WARNING: not found: " ++ extra
  | .noEntryPoints => "\n  ERROR: No entry points. Cannot compute reachability."

/-- `main_entry = find_entry_point(files, args.entry)` and the `if` after it,
on `(entry_points, log)`; `if args.entry:` is false for `None` and `""`. -/
def mainEntryStep (files : FileMap) (entry : Option String) : List String × List EntryLog :=
  match findEntryPoint files entry with
  | some mainEntry => ([mainEntry], [.mainFound mainEntry])
  | none => ([], [.mainMissing] ++
      (match entry with
        | some e => if e ≠ "" then [.tried e] else []
        | none => []) ++ [.useEntry])

/-- The body of `for extra in args.extra_entry`, on `(entry_points, log)`. -/
def extraStep (files : FileMap) (acc : List String × List EntryLog) (extra : String) :
    List String × List EntryLog :=
  match findEntryPoint files (some extra) with
  | some found => (acc.1 ++ [found], acc.2 ++ [.extraFound found])
  | none => (acc.1, acc.2 ++ [.extraMissing extra])

/-- Phase 2 of `main`: the entry points and the lines logged. With no entry
point the last line is followed by `sys.exit(1)`. -/
def locateEntryPoints (files : FileMap) (entry : Option String) (extraEntries : List String) :
    List String × List EntryLog :=
  let r := extraEntries.foldl (extraStep files) (mainEntryStep files entry)
  if r.1 = [] then (r.1, r.2 ++ [.noEntryPoints]) else r

/-- The line the loop logs for one `--extra-entry`. -/
def extraLine (files : FileMap) (extra : String) : EntryLog :=
  (findEntryPoint files (some extra)).elim (.extraMissing extra) .extraFound

theorem extraLine_eq_iff {files : FileMap} {extra : String} {l : EntryLog} :
    extraLine files extra = l ↔ (findEntryPoint files (some extra) = none ∧ l = .extraMissing extra) ∨
      ∃ k, findEntryPoint files (some extra) = some k ∧ l = .extraFound k := by
  unfold extraLine
  cases findEntryPoint files (some extra) <;> simp [eq_comm]

theorem mem_mainEntryStep_iff {files : FileMap} {entry : Option String} {l : EntryLog} :
    l ∈ (mainEntryStep files entry).2 ↔
      (∃ k, findEntryPoint files entry = some k ∧ l = .mainFound k) ∨
        (findEntryPoint files entry = none ∧
          (l = .mainMissing ∨ (∃ e, entry = some e ∧ e ≠ "" ∧ l = .tried e) ∨ l = .useEntry)) := by
  unfold mainEntryStep
  cases findEntryPoint files entry with
  | some k => simp
  | none =>
    cases entry with
    | none => simp
    | some e => by_cases he : e = "" <;> simp [he]

theorem foldl_extraStep (files : FileMap) :
    ∀ (extraEntries : List String) (acc : List String × List EntryLog),
      extraEntries.foldl (extraStep files) acc =
        (acc.1 ++ extraEntries.filterMap fun extra => findEntryPoint files (some extra),
          acc.2 ++ extraEntries.map (extraLine files))
  | [], acc => by simp
  | extra :: extraEntries, acc => by
    rw [List.foldl_cons, foldl_extraStep files extraEntries]
    cases h : findEntryPoint files (some extra) <;> simp [extraStep, extraLine, h]

/-- Phase 2 in closed form: the entry points `entryPointsOf` collects, and the
log of the main entry point, one line per `--extra-entry`, and the error line
when nothing was found. -/
theorem locateEntryPoints_eq (files : FileMap) (entry : Option String) (extraEntries : List String) :
    locateEntryPoints files entry extraEntries =
      (entryPointsOf files entry extraEntries,
        (mainEntryStep files entry).2 ++ extraEntries.map (extraLine files) ++
          if entryPointsOf files entry extraEntries = [] then [.noEntryPoints] else []) := by
  have hfst : (mainEntryStep files entry).1 = (findEntryPoint files entry).toList := by
    unfold mainEntryStep; cases findEntryPoint files entry <;> rfl
  unfold locateEntryPoints
  rw [foldl_extraStep, hfst]
  unfold entryPointsOf
  split_ifs <;> simp_all

/-- Phase 2 of `main` prints `WARNING: not found` for an `--extra-entry` only on a
tree where no file carries a name of `MAIN_CANDIDATES`. Every call of
`find_entry_point` falls back on those names, so an extra entry that names no
file is logged as `extra   -> m`, with `m` the main entry point, and entered
again. It prints `WARNING: main.cpp not found!` exactly when `--entry` names no
file and no file has such a name, and the error line exactly when it found no
entry point; every entry point it found is a key. -/
theorem locateEntryPoints_log (files : FileMap) (entry : Option String) (extraEntries : List String) :
    let r := locateEntryPoints files entry extraEntries
    r.1 = entryPointsOf files entry extraEntries ∧ (∀ e ∈ r.1, e ∈ files.keys) ∧
      (EntryLog.mainMissing ∈ r.2 ↔ (∀ h, entry = some h → HintMisses files h) ∧
        ∀ k ∈ files.keys, baseName k ∉ mainCandidates) ∧
      (∀ extra, EntryLog.extraMissing extra ∈ r.2 ↔ extra ∈ extraEntries ∧ HintMisses files extra ∧
        ∀ k ∈ files.keys, baseName k ∉ mainCandidates) ∧
      (∀ extra ∈ extraEntries, HintMisses files extra → ∀ m, findEntryPoint files none = some m →
        EntryLog.extraFound m ∈ r.2 ∧ m ∈ r.1) ∧
      (EntryLog.noEntryPoints ∈ r.2 ↔ r.1 = []) := by
  intro r
  obtain ⟨hfst, hsnd⟩ := Prod.ext_iff.mp (locateEntryPoints_eq files entry extraEntries)
  have hkeys : ∀ e ∈ entryPointsOf files entry extraEntries, e ∈ files.keys := by
    simp only [entryPointsOf, List.mem_append, Option.mem_toList, List.mem_filterMap]
    rintro e (h | ⟨x, -, h⟩) <;> exact findEntryPoint_mem h
  refine ⟨hfst, hfst ▸ hkeys, ?_, fun extra => ?_, fun extra hx hmiss m hm => ?_, ?_⟩
  · rw [← findEntryPoint_eq_none_iff, hsnd]
    split_ifs <;> simp [mem_mainEntryStep_iff, extraLine_eq_iff]
  · have hnone := findEntryPoint_eq_none_iff files (some extra)
    simp only [Option.some.injEq, forall_eq'] at hnone
    rw [hsnd, ← hnone]
    split_ifs <;> simp [mem_mainEntryStep_iff, extraLine_eq_iff]
  · have hf : findEntryPoint files (some extra) = some m :=
      (findEntryPoint_missing_extra files extra hmiss).trans hm
    rw [hsnd, hfst]
    refine ⟨List.mem_append_left _ (List.mem_append_right _
      (List.mem_map.mpr ⟨extra, hx, extraLine_eq_iff.mpr (.inr ⟨m, hf, rfl⟩)⟩)), ?_⟩
    simp only [entryPointsOf, List.mem_append, List.mem_filterMap]
    exact .inr ⟨extra, hx, hf⟩
  · rw [hsnd, hfst]
    split_ifs with h <;> simp [h, mem_mainEntryStep_iff, extraLine_eq_iff]

/-- `--extra-entry Ghost.cpp` on a tree without that file: it is logged as found,
as `main.cpp` again. -/
example : (locateEntryPoints (discoverFiles widgetProject defaultExcludes) none ["Ghost.cpp"]).2.map
    EntryLog.text = ["  main.cpp -> main.cpp", "  extra   -> main.cpp"] := by
  decide

end Phases

section Main

/-- The graph `main` walks: keys, closure and fresh marks, from discovery. -/
theorem analyze_walkable (disk : Disk) (tree : List Entry) (excludes : List String) :
    let graph := (buildDependencyGraph disk (discoverFiles tree excludes)).1
    (∀ a, ∀ x ∈ graph.depsOf a, x ∈ graph.keys) ∧
      (∀ k n, graph.find? k = some n → n.reachable = false ∧ n.depth = -1) ∧
      ∀ k n, graph.find? k = some n → n.isEntry = false := by
  have wf := discoverFiles_wf tree excludes
  obtain ⟨-, hclosed, hfresh, hentry⟩ := buildDependencyGraph_walkable disk _ wf.1 wf.2
  exact ⟨hclosed, hfresh, hentry⟩

theorem entryPointsOf_append (files : FileMap) (entry : Option String)
    (extraEntries moreEntries : List String) :
    entryPointsOf files entry (extraEntries ++ moreEntries) =
      entryPointsOf files entry extraEntries ++
        moreEntries.filterMap fun extra => findEntryPoint files (some extra) := by
  simp [entryPointsOf, List.filterMap_append]

/-- Passing more `--extra-entry` arguments never turns a reachable file into an
orphan and never makes its depth greater, for every project, file system
contents and order of `ALL_EXTENSIONS`. -/
theorem extraEntries_only_add_reachable (ord : ExtOrder) (disk : Disk) (tree : List Entry)
    (excludes : List String) (entry : Option String) (extraEntries moreEntries : List String) :
    let files := discoverFiles tree excludes
    let before := (analyze ord disk files (entryPointsOf files entry extraEntries)).1
    let after := (analyze ord disk files (entryPointsOf files entry (extraEntries ++ moreEntries))).1
    ∀ k, before.reachableOf k = true →
      after.reachableOf k = true ∧ after.depthOf k ≤ before.depthOf k := by
  intro files before after k hk
  obtain ⟨hclosed, hfresh, -⟩ := analyze_walkable disk tree excludes
  have hsub : ∀ e ∈ entryPointsOf files entry extraEntries,
      e ∈ entryPointsOf files entry (extraEntries ++ moreEntries) := fun e he => by
    rw [entryPointsOf_append]; exact List.mem_append_left _ he
  obtain ⟨m, hm⟩ := (walkReachability_reachableOf_iff ord _ hclosed hfresh k).mp hk
  obtain ⟨d, hd, hrd, -⟩ := walkReachability_depthOf ord _ hclosed hfresh hm
  obtain ⟨d', hd', -, hmin⟩ := walkReachability_depthOf ord _ hclosed hfresh (hrd.mono hsub)
  refine ⟨(walkReachability_reachableOf_iff ord _ hclosed hfresh k).mpr ⟨d, hrd.mono hsub⟩, ?_⟩
  have := hmin d (hrd.mono hsub)
  show (walkReachability ord _ _).1.depthOf k ≤ (walkReachability ord _ _).1.depthOf k
  rw [hd, hd']
  omega

/-- `print_reachable_tree` lists the reached files by depth and labels depth 0
`ENTRY`. Depth 0 is exactly `is_entry`; the target of an include or sibling
edge out of a reached file is reached at most one level deeper; and every
reached file below the entries has a reached includer or sibling one level up.
So the listing is the layering of a breadth-first search from the entry points. -/
theorem printReachableTree_layers (ord : ExtOrder) (disk : Disk) (tree : List Entry)
    (excludes entryPoints : List String) :
    let graph := (buildDependencyGraph disk (discoverFiles tree excludes)).1
    let marked := (analyze ord disk (discoverFiles tree excludes) entryPoints).1
    (∀ k n, marked.find? k = some n → n.reachable = true → (n.depth = 0 ↔ n.isEntry = true)) ∧
      (∀ u v, Edge graph u v → marked.reachableOf u = true →
        marked.reachableOf v = true ∧ marked.depthOf v ≤ marked.depthOf u + 1) ∧
      ∀ v, marked.reachableOf v = true → 0 < marked.depthOf v →
        ∃ u, Edge graph u v ∧ marked.reachableOf u = true ∧
          marked.depthOf u + 1 = marked.depthOf v := by
  intro graph marked
  obtain ⟨hclosed, hfresh, hentry⟩ := analyze_walkable disk tree excludes
  exact ⟨fun _ _ hn hr => walkReachability_depth_eq_zero_iff ord entryPoints hclosed hfresh hentry hn hr,
    fun _ _ he hu => walkReachability_edge ord entryPoints hclosed hfresh he hu,
    fun _ hv hpos => walkReachability_layer ord entryPoints hclosed hfresh hv hpos⟩

/-- On the marked dict every dependency is a key, and a dependency of a reached
file is reached; every includer is a key, and an includer of an orphan is an
orphan. -/
theorem analyze_adjacency_closed (ord : ExtOrder) (disk : Disk) (tree : List Entry)
    (excludes entryPoints : List String) :
    let marked := (analyze ord disk (discoverFiles tree excludes) entryPoints).1
    (∀ a d, d ∈ marked.depsOf a → d ∈ marked.keys ∧
        (marked.reachableOf a = true → marked.reachableOf d = true)) ∧
      ∀ b a, a ∈ marked.includedByOf b → a ∈ marked.keys ∧
        (marked.reachableOf b = false → marked.reachableOf a = false) := by
  intro marked
  obtain ⟨-, -, hgraph, hmirror⟩ := buildDependencyGraph_discoverFiles disk tree excludes
  obtain ⟨hclosed, hfresh, -⟩ := analyze_walkable disk tree excludes
  have hkeys := (walkReachability_correct ord entryPoints hclosed hfresh).1
  have deps := walkReachability_depsOf ord (buildDependencyGraph disk (discoverFiles tree excludes)).1
    entryPoints
  have live : ∀ a d, d ∈ marked.depsOf a → marked.reachableOf a = true →
      marked.reachableOf d = true := fun a d hd ha =>
    (walkReachability_edge ord entryPoints hclosed hfresh (.inl (deps a ▸ hd)) ha).1
  refine ⟨fun a d hd => ⟨hkeys ▸ hclosed a d (deps a ▸ hd), live a d hd⟩, fun b a ha => ?_⟩
  have ha' := walkReachability_includedByOf ord _ entryPoints b ▸ ha
  have hb : b ∈ marked.depsOf a :=
    (deps a).symm ▸ List.count_pos_iff.mp ((hmirror a b).symm ▸ List.count_pos_iff.mpr ha')
  refine ⟨hkeys ▸ (hgraph b).2 a ha', fun hb' => ?_⟩
  cases h : marked.reachableOf a
  · rfl
  · rw [live a b hb h] at hb'; cases hb'

/-- `print_include_graph` reads `files[dep]` for each dependency, and
`print_report` tags an orphan with `incl. by N orphan(s)`, `N` the length of its
`included_by`. Every dependency is a key, and a dependency of a reached file is
reached, so the graph never shows a `[DEAD]` dependency under an `[OK]` file;
every includer is a key, and every includer of an orphan is an orphan, so the
tag counts includes from orphans only. -/
theorem printIncludeGraph_live_closed (ord : ExtOrder) (disk : Disk) (tree : List Entry)
    (excludes entryPoints : List String) :
    let marked := (analyze ord disk (discoverFiles tree excludes) entryPoints).1
    (∀ a d, d ∈ marked.depsOf a → d ∈ marked.keys ∧
        (marked.reachableOf a = true → marked.reachableOf d = true)) ∧
      ∀ b a, a ∈ marked.includedByOf b → a ∈ marked.keys ∧
        (marked.reachableOf b = false → marked.reachableOf a = false) :=
  analyze_adjacency_closed ord disk tree excludes entryPoints

end Main

end IncludeGraph.Finder
