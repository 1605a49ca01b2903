import IncludeGraph.Circular.Checker
import IncludeGraph.Circular.Report

/-!
# What `check_circular.py` reads: its file map

`scan_project` stores each globbed file under its root-relative path, and under
its bare file name unless that name is already a key. Keys are only ever added,
so on the finished map the file name of every stored path is a key; a key holds
the file at that path, or else the first file globbed with that name. Only
stored files are scanned for includes, so only they can lie on a cycle.

`resolve_include_path` tries that bare name first. Its last resort looks for a
stored path with the literal's file name, and such a path would have made the
name a key, so the first rule would already have returned. On every map
`scan_project` builds, the resolver is the same function without the last
resort: that loop is dead code.
-/

namespace IncludeGraph.Circular

open Py

/-- The file name of every stored path is a key. -/
def NamesAreKeys (fileMap : PyDict String String) : Prop :=
  ∀ e ∈ fileMap.entries, (PurePath.ofString e.2).name ∈ fileMap.keys

theorem mem_keys_insert_of_mem {d : PyDict String String} {k k' v : String} (h : k' ∈ d.keys) :
    k' ∈ (d.insert k v).keys :=
  PyDict.mem_keys_insert.mpr (.inr h)

/-- A pair of `d[k] = v` is the new pair or an old pair under another key. -/
theorem mem_entries_insert {d : PyDict String String} {k v : String} {e : String × String}
    (h : e ∈ (d.insert k v).entries) : e = (k, v) ∨ e ∈ d.entries := by
  obtain ⟨k', v'⟩ := e
  have hf := PyDict.find?_eq_some_iff.mpr h
  rw [PyDict.find?_insert] at hf
  split_ifs at hf with hk
  · exact .inl (by cases hf; rw [hk])
  · exact .inr (PyDict.find?_eq_some_iff.mp hf)

/-- A map whose pairs are old pairs or pairs holding `filepath`, whose keys
include the old ones and the file name of `filepath`, keeps `NamesAreKeys`. -/
theorem NamesAreKeys.of_grow {fileMap d : PyDict String String} (h : NamesAreKeys fileMap)
    {filepath : String} (hent : ∀ e ∈ d.entries, e ∈ fileMap.entries ∨ e.2 = filepath)
    (hkeys : ∀ k ∈ fileMap.keys, k ∈ d.keys) (hname : (PurePath.ofString filepath).name ∈ d.keys) :
    NamesAreKeys d :=
  fun e he => (hent e he).elim (fun h' => hkeys _ (h e h')) fun h' => h' ▸ hname

/-- One turn of the loop of `scan_project` keeps `NamesAreKeys`. -/
theorem NamesAreKeys.scanStep {fileMap : PyDict String String} (h : NamesAreKeys fileMap)
    (filepath rel : String) :
    NamesAreKeys (if (PurePath.ofString filepath).name ∈ (fileMap.insert rel filepath).keys then
      fileMap.insert rel filepath
    else (fileMap.insert rel filepath).insert (PurePath.ofString filepath).name filepath) := by
  have hent : ∀ e ∈ (fileMap.insert rel filepath).entries, e ∈ fileMap.entries ∨ e.2 = filepath :=
    fun e he => (mem_entries_insert he).elim (fun h' => .inr (h' ▸ rfl)) .inl
  split_ifs with hname
  · exact h.of_grow hent (fun _ hk => mem_keys_insert_of_mem hk) hname
  · refine h.of_grow (fun e he => (mem_entries_insert he).elim (fun h' => .inr (h' ▸ rfl))
      (hent e)) (fun _ hk => mem_keys_insert_of_mem (mem_keys_insert_of_mem hk))
      (PyDict.mem_keys_insert.mpr (.inl rfl))

theorem scanProject_namesAreKeys (root : String) (found : List String) :
    NamesAreKeys (scanProject root found) := by
  unfold scanProject
  suffices ∀ fileMap : PyDict String String, NamesAreKeys fileMap →
      NamesAreKeys (found.foldl (fun fileMap rel =>
        if (PurePath.ofString (globbedPath root rel)).name ∈
            (fileMap.insert rel (globbedPath root rel)).keys then
          fileMap.insert rel (globbedPath root rel)
        else (fileMap.insert rel (globbedPath root rel)).insert
          (PurePath.ofString (globbedPath root rel)).name (globbedPath root rel)) fileMap) from
    this PyDict.empty fun _ h => by cases h
  induction found with
  | nil => exact fun _ h => h
  | cons rel rels ih => exact fun fileMap h => ih _ (h.scanStep _ rel)

/-- One turn of `scan_project` at a key other than the file's own path: the
file's name is stored there only if it was not a key yet. -/
theorem scanStep_find?_ne {M : PyDict String String} {rel fp name k : String} (hk : k ≠ rel) :
    (if name ∈ (M.insert rel fp).keys then M.insert rel fp
      else (M.insert rel fp).insert name fp).find? k =
      if name = k ∧ M.find? k = none then some fp else M.find? k := by
  have hmem : name ∈ (M.insert rel fp).keys ↔ name = rel ∨ (M.find? name).isSome := by
    rw [PyDict.mem_keys_insert, PyDict.mem_keys_iff_find?]
  split_ifs with h₁ h₂ h₂ <;> simp only [PyDict.find?_insert, if_neg hk]
  · obtain ⟨rfl, hnone⟩ := h₂
    exact absurd (hmem.mp h₁) (by simp [hnone, hk])
  · rw [if_pos h₂.1.symm]
  · rw [if_neg]
    rintro rfl
    exact h₂ ⟨rfl, Option.not_isSome_iff_eq_none.mp fun h => h₁ (hmem.mpr (.inr h))⟩

/-- The file map `scan_project` builds: under a globbed relative path, the file
at that path; under any other key, the first globbed file with that name; no
other key. The relative path is written unconditionally, so a file at the root
takes the bare-name key from a file of the same name globbed before it. -/
theorem scanProject_find? (root : String) (found : List String) :
    ∀ k, (scanProject root found).find? k =
      if k ∈ found then some (globbedPath root k)
      else (found.find? fun rel => (PurePath.ofString (globbedPath root rel)).name = k).map
        (globbedPath root) := by
  induction found using List.reverseRecOn with
  | nil => intro k; simp [scanProject, PyDict.empty, PyDict.find?]
  | append_singleton found rel ih =>
    intro k
    simp only [scanProject, List.foldl_append, List.foldl_cons, List.foldl_nil] at ih ⊢
    generalize List.foldl _ PyDict.empty found = M at ih ⊢
    by_cases hk : k = rel
    · subst hk
      rw [if_pos (List.mem_append_right _ (List.mem_singleton_self k))]
      split_ifs <;> simp [PyDict.find?_insert]
    rw [scanStep_find?_ne hk, ih]
    by_cases hf : k ∈ found
    · simp [hf]
    · cases hfind : found.find? fun rel => (PurePath.ofString (globbedPath root rel)).name = k <;>
        simp [hf, hk, hfind]

example : (scanProject "/r" ["a/Foo.h", "Foo.h"]).find? "Foo.h" = some "/r/Foo.h" := by decide

/-- Every path the file map stores is a globbed file. -/
theorem scanProject_values (root : String) (found : List String) :
    ∀ p ∈ (scanProject root found).entries.map Prod.snd, ∃ rel ∈ found, p = globbedPath root rel := by
  induction found using List.reverseRecOn with
  | nil => simp [scanProject, PyDict.empty]
  | append_singleton found rel ih =>
    simp only [scanProject, List.foldl_append, List.foldl_cons, List.foldl_nil] at ih ⊢
    generalize List.foldl _ PyDict.empty found = M at ih ⊢
    intro p hp
    obtain ⟨e, he, rfl⟩ := List.mem_map.mp hp
    have new : ∃ r ∈ found ++ [rel], globbedPath root rel = globbedPath root r :=
      ⟨rel, List.mem_append_right _ (List.mem_singleton_self rel), rfl⟩
    have old : e ∈ M.entries → ∃ r ∈ found ++ [rel], e.2 = globbedPath root r := fun h => by
      obtain ⟨r, hr, hp⟩ := ih e.2 (List.mem_map_of_mem _ h)
      exact ⟨r, List.mem_append_left _ hr, hp⟩
    split_ifs at he
    · rcases mem_entries_insert he with rfl | h
      exacts [new, old h]
    · rcases mem_entries_insert he with rfl | h
      · exact new
      · rcases mem_entries_insert h with rfl | h
        exacts [new, old h]

/-- Every file on a cycle that `find_all_cycles` reports is a file `scan_project`
globbed. A path that `resolve_include_path` finds on disk without a glob pattern
matching it, such as an `.inl` header, is never scanned, has no include of its
own in the graph, and so closes no cycle: a cycle through such a file is never
reported. -/
theorem findAllCycles_through_scanned_files (root : String) (found : List String)
    (pathExists : String → Bool) (disk : Finder.Disk) (ord : ValueOrder (scanProject root found)) :
    ∀ c ∈ findAllCycles (buildDependencyGraph root (scanProject root found) pathExists disk ord),
      ∀ v ∈ c, ∃ rel ∈ found, v = globbedPath root rel := by
  intro c hc v hv
  obtain ⟨w, hvw, -⟩ := Relation.TransGen.head'_iff.mp ((isCycle_of_mem_findAllCycles hc).1.transGen hv)
  exact scanProject_values root found v
    (((buildDependencyGraph_edges root _ pathExists disk ord).2 v w).mp hvw).1

/-- `a.h` and `b.h` at the root include each other. -/
def pairDisk : Finder.Disk := fun p =>
  if p = "/r/a.h" then some ["#include \"b.h\""]
  else if p = "/r/b.h" then some ["#include \"a.h\""] else none

/-- The order in which `set(file_map.values())` yields the two files. -/
def pairOrder : ValueOrder (scanProject "/r" ["a.h", "b.h"]) := ⟨["/r/a.h", "/r/b.h"], by decide⟩

theorem findAllCycles_through_scanned_files_pair :
    ∃ c ∈ findAllCycles (buildDependencyGraph "/r" (scanProject "/r" ["a.h", "b.h"]) (fun _ => false)
        pairDisk pairOrder),
      "/r/a.h" ∈ c ∧ ∃ rel ∈ ["a.h", "b.h"], "/r/a.h" = globbedPath "/r" rel := by
  have edges := (buildDependencyGraph_edges "/r" (scanProject "/r" ["a.h", "b.h"]) (fun _ => false)
    pairDisk pairOrder).2
  have hab := (edges "/r/a.h" "/r/b.h").mpr ⟨by decide, "b.h", by decide, rfl⟩
  have hba := (edges "/r/b.h" "/r/a.h").mpr ⟨by decide, "a.h", by decide, rfl⟩
  obtain ⟨d, hd, hrot⟩ := exists_mem_findAllCycles (c := ["/r/a.h", "/r/b.h"])
    ⟨by decide, .cons hab (.cons hba .nil)⟩
  have hv : "/r/a.h" ∈ d := hrot.mem_iff.mpr (List.mem_cons_self _ _)
  exact ⟨d, hd, hv, findAllCycles_through_scanned_files "/r" ["a.h", "b.h"] (fun _ => false)
    pairDisk pairOrder d hd _ hv⟩

/-- `resolve_include_path` without its last resort, the loop over
`file_map.items()`: the function the maintainer can read it as. -/
def resolveIncludePathWithoutLastResort (root : String) (fileMap : PyDict String String)
    (pathExists : String → Bool) (includePath fromFile : String) : Option String :=
  let basename := (PurePath.ofString includePath).name
  match fileMap.find? basename with
  | some p => some p
  | none =>
    let relativeToFile := ((PurePath.ofString fromFile).parent.join includePath).resolve.str
    if pathExists relativeToFile then some relativeToFile
    else
      let relativeToRoot := ((PurePath.ofString root).join includePath).resolve.str
      if pathExists relativeToRoot then some relativeToRoot
      else fileMap.find? (lstrip (lstrip includePath "../") "./")

/-- On every file map `scan_project` builds, the last resort of
`resolve_include_path` never finds a file: a stored path with the literal's file
name would have made that name a key, and the first rule would have returned
it. So `resolve_include_path` is the resolver without that loop, for every
include, including file and file system contents. -/
theorem resolveIncludePath_last_resort_dead (root : String) (found : List String)
    (pathExists : String → Bool) (includePath fromFile : String) :
    resolveIncludePath root (scanProject root found) pathExists includePath fromFile =
      resolveIncludePathWithoutLastResort root (scanProject root found) pathExists includePath
        fromFile := by
  have hnames := scanProject_namesAreKeys root found
  unfold resolveIncludePath resolveIncludePathWithoutLastResort
  dsimp only
  cases hname : (scanProject root found).find? (PurePath.ofString includePath).name with
  | some p => rfl
  | none =>
    dsimp only
    split_ifs
    · rfl
    · rfl
    · cases (scanProject root found).find? (lstrip (lstrip includePath "../") "./") with
      | some p => rfl
      | none =>
        -- a stored path named like the literal would have made the name a key
        rw [Option.map_eq_none', List.find?_eq_none]
        intro e he hsame
        have hkey := hnames e he
        rw [of_decide_eq_true hsame, PyDict.mem_keys_iff_find?, hname] at hkey
        cases hkey

end IncludeGraph.Circular
