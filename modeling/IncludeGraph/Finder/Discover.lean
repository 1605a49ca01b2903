import IncludeGraph.Finder.Node

/-!
# Phases 1 and 2: discovery and the entry point

`discover_files` walks `root.rglob('*')`. The walk is a list of entries in the
order the file system yields them, and nothing sorts it, so theorems about the
later phases hold for every order. `find_entry_point` takes the first of the
hint, its basename and the conventional `main.cpp` names that matches, and
breaks ties between several matching keys with `min(..., key=len)`, which keeps
the first shortest key in dict order.
-/

namespace IncludeGraph.Finder

open Py

/-- One path yielded by `root.rglob('*')`: its components below `root`, whether
it is a regular file, its size, and the absolute path `resolve()` returns. -/
structure Entry where
  rel : List String
  isFile : Bool
  size : Nat
  absPath : String
  rel_ne : rel ≠ []
  part_ne : ∀ p ∈ rel, p ≠ ""

/-- `should_exclude`: some component of the relative path is an excluded name. -/
def shouldExclude (rel : List String) (excludes : List String) : Bool :=
  rel.any fun part => part ∈ excludes

/-- `str(rel).replace('\\', '/')`, the key of an entry. -/
def Entry.relStr (e : Entry) : String :=
  replaceChar (join "/" e.rel) '\\' '/'

/-- `filepath.name`. -/
def Entry.name (e : Entry) : String := e.rel.getLastD ""

/-- `filepath.suffix.lower()`. -/
def Entry.extension (e : Entry) : String :=
  lower (PurePath.mk "" [e.name]).suffix

/-- The node `discover_files` stores for an admitted entry. -/
def Entry.node (e : Entry) : FileNode :=
  { absPath := e.absPath, relPath := e.relStr, extension := e.extension, sizeBytes := e.size,
    isGrain := contains e.name "_InstructionGrain" }

/-- The three filters of `discover_files`. -/
def Entry.admitted (e : Entry) (excludes : List String) : Bool :=
  e.isFile && e.extension ∈ allExtensions && !shouldExclude e.rel excludes

/-- `discover_files(root, excludes)`. -/
def discoverFiles (walk : List Entry) (excludes : List String) : FileMap :=
  walk.foldl (fun files e => if e.admitted excludes then files.insert e.relStr e.node else files)
    PyDict.empty

/-- `Path(r).name == base` over the keys, in dict order. -/
def namedLike (files : FileMap) (base : String) : List String :=
  files.keys.filter fun r => baseName r = base

/-- The two returns after a name search: the unique match, or `min(matches, key=len)`. -/
def pickShortest (found : List String) : Option String :=
  if found.length = 1 then found.head?
  else if found ≠ [] then minBy String.length found else none

/-- `find_entry_point(files, hint)`; `if hint:` rejects `None` and `""`. -/
def findEntryPoint (files : FileMap) (hint : Option String) : Option String :=
  let fromHint : Option String :=
    match hint with
    | some h =>
      if h = "" then none
      else
        let hintNorm := replaceChar h '\\' '/'
        if hintNorm ∈ files.keys then some hintNorm
        else pickShortest (namedLike files (baseName hintNorm))
    | none => none
  fromHint.or (mainCandidates.findSome? fun c => pickShortest (namedLike files c))

end IncludeGraph.Finder

namespace IncludeGraph.Finder

open Py

theorem Entry.relStr_ne (e : Entry) : e.relStr ≠ "" := by
  obtain ⟨p, ps, hrel⟩ := List.exists_cons_of_ne_nil e.rel_ne
  have hj := join_cons_ne "/" ps (e.part_ne p (hrel ▸ List.mem_cons_self p ps))
  rw [← hrel] at hj
  intro h
  have := congrArg (fun s : String => s.data.length) h
  simp only [Entry.relStr, replaceChar_data, List.length_map] at this
  exact hj (String.ext (List.eq_nil_of_length_eq_zero this))

/-- What discovery guarantees for the later phases: keys are non-empty, and
every node is fresh. -/
theorem discoverFiles_wf (walk : List Entry) (excludes : List String) :
    (discoverFiles walk excludes).Fresh ∧ ∀ k ∈ (discoverFiles walk excludes).keys, k ≠ "" := by
  unfold discoverFiles
  suffices ∀ files : FileMap, files.Fresh ∧ (∀ k ∈ files.keys, k ≠ "") →
      let r := walk.foldl
        (fun files e => if e.admitted excludes then files.insert e.relStr e.node else files) files
      r.Fresh ∧ ∀ k ∈ r.keys, k ≠ "" from
    this PyDict.empty ⟨fun _ _ h => (by cases h), fun _ h => (by cases h)⟩
  induction walk with
  | nil => exact fun _ h => h
  | cons e es ih =>
    intro files ⟨fresh, ne⟩
    refine ih _ ?_
    dsimp only
    split_ifs
    · refine ⟨fun k n hn => ?_, fun k hk => ?_⟩
      · rw [PyDict.find?_insert] at hn
        split_ifs at hn
        · cases hn; exact ⟨rfl, rfl, rfl, rfl, rfl⟩
        · exact fresh k n hn
      · rcases PyDict.mem_keys_insert.mp hk with rfl | hk
        · exact e.relStr_ne
        · exact ne k hk
    · exact ⟨fresh, ne⟩

theorem pickShortest_eq_none {found : List String} : pickShortest found = none ↔ found = [] := by
  unfold pickShortest
  split_ifs with h1 h2
  · obtain ⟨x, rfl⟩ := List.length_eq_one.mp h1
    simp
  · refine iff_of_false (fun hn => ?_) h2
    simpa [hn] using minBy_isSome String.length h2
  · simpa using h2

theorem pickShortest_spec {found : List String} {r : String} (h : pickShortest found = some r) :
    r ∈ found ∧ ∀ x ∈ found, r.length ≤ x.length := by
  unfold pickShortest at h
  split_ifs at h with h1 h2
  · obtain ⟨x, rfl⟩ := List.length_eq_one.mp h1
    cases h
    simp
  · exact minBy_spec String.length h

theorem mem_namedLike {files : FileMap} {base r : String} :
    r ∈ namedLike files base ↔ r ∈ files.keys ∧ baseName r = base := by
  simp [namedLike]

theorem findEntryPoint_mem {files : FileMap} {hint : Option String} {r : String}
    (h : findEntryPoint files hint = some r) : r ∈ files.keys := by
  have pick : ∀ base, pickShortest (namedLike files base) = some r → r ∈ files.keys :=
    fun _ hp => (mem_namedLike.mp (pickShortest_spec hp).1).1
  simp only [findEntryPoint, Option.or_eq_some] at h
  rcases h with h | ⟨-, h⟩
  · split at h
    · split_ifs at h with h1 h2
      · cases h; exact h2
      · exact pick _ h
    · cases h
  · obtain ⟨c, -, hc⟩ := List.exists_of_findSome?_eq_some h
    exact pick c hc

/-- Two answers that agree up to a tie between equally short keys of one name. -/
private def SameChoice (o₁ o₂ : Option String) : Prop :=
  o₁.isSome = o₂.isSome ∧ ∀ r₁ r₂, o₁ = some r₁ → o₂ = some r₂ →
    baseName r₁ = baseName r₂ ∧ r₁.length = r₂.length

private theorem sameChoice_refl (o : Option String) : SameChoice o o :=
  ⟨rfl, fun _ _ h₁ h₂ => by rw [h₁] at h₂; cases h₂; exact ⟨rfl, rfl⟩⟩

private theorem sameChoice_or {a₁ a₂ b₁ b₂ : Option String} (ha : SameChoice a₁ a₂)
    (hb : SameChoice b₁ b₂) : SameChoice (a₁.or b₁) (a₂.or b₂) := by
  rcases a₁ with _ | x₁ <;> rcases a₂ with _ | x₂
  · exact hb
  · exact absurd ha.1 (by simp)
  · exact absurd ha.1 (by simp)
  · exact ha

private theorem sameChoice_findSome? {α : Type} {g₁ g₂ : α → Option String} :
    ∀ {cs : List α}, (∀ c ∈ cs, SameChoice (g₁ c) (g₂ c)) →
      SameChoice (cs.findSome? g₁) (cs.findSome? g₂)
  | [], _ => sameChoice_refl none
  | c :: cs, h => by
    have hc := h c (List.mem_cons_self c cs)
    have hcs := sameChoice_findSome? fun c' hc' => h c' (List.mem_cons_of_mem c hc')
    have unfold : ∀ g : α → Option String, (c :: cs).findSome? g = (g c).or (cs.findSome? g) :=
      fun g => by rw [List.findSome?_cons]; cases g c <;> rfl
    rw [unfold, unfold]
    exact sameChoice_or hc hcs

/-- A name search over two dicts with the same keys: the same shortest length,
and only the tie-break among equally short keys can differ. -/
private theorem pickShortest_namedLike {files₁ files₂ : FileMap}
    (h : files₁.keys.Perm files₂.keys) (base : String) :
    SameChoice (pickShortest (namedLike files₁ base)) (pickShortest (namedLike files₂ base)) := by
  have hp : (namedLike files₁ base).Perm (namedLike files₂ base) := h.filter _
  refine ⟨?_, fun r₁ r₂ h₁ h₂ => ?_⟩
  · rw [Bool.eq_iff_iff, Option.isSome_iff_ne_none, Option.isSome_iff_ne_none,
      Ne, Ne, pickShortest_eq_none, pickShortest_eq_none, ← List.length_eq_zero,
      ← List.length_eq_zero, hp.length_eq]
  · obtain ⟨m₁, le₁⟩ := pickShortest_spec h₁
    obtain ⟨m₂, le₂⟩ := pickShortest_spec h₂
    refine ⟨(mem_namedLike.mp m₁).2.trans (mem_namedLike.mp m₂).2.symm, ?_⟩
    exact le_antisymm (le₁ r₂ (hp.mem_iff.mpr m₂)) (le₂ r₁ (hp.mem_iff.mp m₁))

/-- `find_entry_point` on two dicts with the same keys in different orders: both
find a key or neither does, and the two keys have the same name and length, so
they differ only when several equally short keys share that name. -/
theorem findEntryPoint_perm_same_name_length (files₁ files₂ : FileMap) (hint : Option String)
    (h : files₁.keys.Perm files₂.keys) :
    (findEntryPoint files₁ hint).isSome = (findEntryPoint files₂ hint).isSome ∧
      ∀ r₁ r₂, findEntryPoint files₁ hint = some r₁ → findEntryPoint files₂ hint = some r₂ →
        r₁ ∈ files₁.keys ∧ r₂ ∈ files₁.keys ∧ baseName r₁ = baseName r₂ ∧
          r₁.length = r₂.length := by
  have same : SameChoice (findEntryPoint files₁ hint) (findEntryPoint files₂ hint) := by
    refine sameChoice_or ?_ (sameChoice_findSome? fun c _ => pickShortest_namedLike h c)
    rcases hint with _ | hint
    · exact sameChoice_refl none
    · dsimp only
      split_ifs with h0 h1 h2 h2
      · exact sameChoice_refl _
      · exact sameChoice_refl _
      · exact absurd (h.mem_iff.mp h1) h2
      · exact absurd (h.mem_iff.mpr h2) h1
      · exact pickShortest_namedLike h _
  refine ⟨same.1, fun r₁ r₂ h₁ h₂ => ⟨findEntryPoint_mem h₁, ?_, same.2 r₁ r₂ h₁ h₂⟩⟩
  exact h.mem_iff.mpr (findEntryPoint_mem h₂)

/-- `a/main.cpp`, as `rglob` yields it. -/
def mainA : Entry := ⟨["a", "main.cpp"], true, 0, "/r/a/main.cpp", by decide, by decide⟩

/-- `b/main.cpp`, as `rglob` yields it. -/
def mainB : Entry := ⟨["b", "main.cpp"], true, 0, "/r/b/main.cpp", by decide, by decide⟩

theorem findEntryPoint_perm_same_name_length_mains :
    let files₁ := discoverFiles [mainA, mainB] defaultExcludes
    let files₂ := discoverFiles [mainB, mainA] defaultExcludes
    files₁.keys.Perm files₂.keys ∧
      ((findEntryPoint files₁ none).isSome = (findEntryPoint files₂ none).isSome ∧
        ∀ r₁ r₂, findEntryPoint files₁ none = some r₁ → findEntryPoint files₂ none = some r₂ →
          r₁ ∈ files₁.keys ∧ r₂ ∈ files₁.keys ∧ baseName r₁ = baseName r₂ ∧
            r₁.length = r₂.length) :=
  have h : (discoverFiles [mainA, mainB] defaultExcludes).keys.Perm
      (discoverFiles [mainB, mainA] defaultExcludes).keys := by decide
  ⟨h, findEntryPoint_perm_same_name_length _ _ none h⟩

/-- Two enumeration orders of one tree with two `main.cpp` files at the same
depth: the same keys, and a different entry point. -/
theorem findEntryPoint_depends_on_order :
    (discoverFiles [mainA, mainB] defaultExcludes).keys.Perm
        (discoverFiles [mainB, mainA] defaultExcludes).keys ∧
      findEntryPoint (discoverFiles [mainA, mainB] defaultExcludes) none = some "a/main.cpp" ∧
      findEntryPoint (discoverFiles [mainB, mainA] defaultExcludes) none = some "b/main.cpp" := by
  decide

end IncludeGraph.Finder
