import IncludeGraph.Finder.Build
import Mathlib.Data.Finset.Card

/-!
# Phase 4: the reachability walk

`walk_reachability` is a breadth-first search over a FIFO deque of
`(key, depth)` pairs and a visited set. The entry loop marks every entry that
is a key; each turn of the `while` loop pops the front pair and runs two
marking loops, over the popped node's `resolved_deps` and over its siblings:
the names `dir/stem + ext` for `ext` in `ALL_EXTENSIONS`, in the set's
iteration order. A candidate is marked, added to `visited` and enqueued only if
it is not yet visited, so the two loops are one loop `visitEach` with different
candidate lists and admission tests.

The `while` loop is run with fuel `len(files) + len(entry_points)`. Every turn
pops one pair, and every enqueued pair after the entry loop is a key seen for
the first time, so that fuel always empties the deque on a map whose
`resolved_deps` are keys; `Walk.run_queue_nil` proves it.
-/

namespace IncludeGraph.Finder

open Py

/-- The three writes of an inner loop: `reachable = True` and `depth`. -/
def FileNode.markReached (d : Int) (n : FileNode) : FileNode :=
  { n with reachable := true, depth := d }

/-- The writes of the entry loop. -/
def FileNode.markEntry (n : FileNode) : FileNode :=
  { n with isEntry := true, reachable := true, depth := 0 }

/-- The three fields the walk writes. -/
def FileNode.marks (n : FileNode) : Bool × Int × Bool := (n.reachable, n.depth, n.isEntry)

/-- `f'{dir_prefix}/{stem}{ext}`, or `f'{stem}{ext}'` at the root. -/
def siblingName (current ext : String) : String :=
  let dirPrefix := parentStr current
  let stem := (PurePath.ofString current).stem
  if dirPrefix ≠ "" ∧ dirPrefix ≠ "." then dirPrefix ++ "/" ++ stem ++ ext else stem ++ ext

theorem allExtensions_wf : ∀ ext ∈ allExtensions, 2 ≤ ext.length ∧ '/' ∉ ext.data := by
  decide

/-- The sibling the walk looks up for `ext` is `Path(current).parent / (stem + ext)`:
the path in the directory of `current` named by its stem and `ext`. -/
theorem ofString_siblingName {a ext : String} (hroot : (PurePath.ofString a).root = "")
    (hslash : '\\' ∉ a.data) (hext : ext ∈ allExtensions) :
    PurePath.ofString (siblingName a ext) =
      (PurePath.ofString a).parent.join ((PurePath.ofString a).stem ++ ext) := by
  have hdl : ∀ c ∈ (PurePath.ofString a).tail.dropLast, PurePath.IsComponent c ∧ '\\' ∉ c.data :=
    fun c hc => have h := PurePath.isComponent_of_mem_tail (List.dropLast_subset _ hc)
      ⟨h.1, fun hb => hslash (h.2 _ hb)⟩
  obtain ⟨hlen, hextSlash⟩ := allExtensions_wf ext hext
  have hs : PurePath.IsComponent ((PurePath.ofString a).stem ++ ext) := by
    have hlong : 2 ≤ ((PurePath.ofString a).stem ++ ext).length := by
      rw [String.length_append]; omega
    refine ⟨fun e => absurd (e ▸ hlong) (by decide), fun e => absurd (e ▸ hlong) (by decide), ?_⟩
    rw [String.data_append]
    exact fun h => (List.mem_append.mp h).elim (PurePath.stem_no_slash a) hextSlash
  have hname : PurePath.ofString ((PurePath.ofString a).stem ++ ext) =
      ⟨"", [(PurePath.ofString a).stem ++ ext]⟩ := by
    simpa [join_singleton] using
      @PurePath.ofString_join [(PurePath.ofString a).stem ++ ext] (by simpa using hs)
  have hjoin : (PurePath.ofString a).parent.join ((PurePath.ofString a).stem ++ ext) =
      ⟨"", (PurePath.ofString a).tail.dropLast ++ [(PurePath.ofString a).stem ++ ext]⟩ := by
    simp [PurePath.join, hname, PurePath.parent, hroot]
  rw [hjoin, siblingName]
  by_cases hdl0 : (PurePath.ofString a).tail.dropLast = []
  · -- at the root the directory prefix is `.`, and the sibling is the bare name
    have hdot : parentStr a = "." := by
      simp only [parentStr, PurePath.str, PurePath.parent, hroot, hdl0]
      rfl
    simp [hdot, hname, hdl0]
  · have hdir : parentStr a = join "/" (PurePath.ofString a).tail.dropLast := by
      simp only [parentStr, PurePath.str, PurePath.parent, hroot, hdl0]
      exact replaceChar_of_not_mem (not_mem_join (by decide) fun c hc => (hdl c hc).2)
    have hround := PurePath.ofString_join fun c hc => (hdl c hc).1
    have hne : join "/" (PurePath.ofString a).tail.dropLast ≠ "" ∧
        join "/" (PurePath.ofString a).tail.dropLast ≠ "." := by
      constructor <;> intro e <;> rw [e] at hround <;> exact hdl0 (congrArg PurePath.tail hround).symm
    rw [hdir, if_pos hne, String.append_assoc, ← join_append_singleton _ _ hdl0,
      PurePath.ofString_join fun c hc => ?_]
    rcases List.mem_append.mp hc with hc | hc
    · exact (hdl c hc).1
    · exact List.mem_singleton.mp hc ▸ hs

/-- The loop state: the dict being marked, the deque, and `visited`. -/
structure Walk where
  files : FileMap
  queue : List (String × Int)
  visited : Finset String

namespace Walk

/-- `visited.add(k)`, the two writes, and `queue.append((k, d))`. -/
def mark (s : Walk) (k : String) (d : Int) : Walk :=
  { files := s.files.modify k (FileNode.markReached d)
    queue := s.queue ++ [(k, d)]
    visited := insert k s.visited }

/-- One turn of the entry loop: only an entry that is a key is marked. A
repeated entry is enqueued again. -/
def enter (s : Walk) (entry : String) : Walk :=
  if entry ∈ s.files.keys then
    { files := s.files.modify entry FileNode.markEntry
      queue := s.queue ++ [(entry, 0)]
      visited := insert entry s.visited }
  else s

/-- A marking loop: every candidate that `accept` passes and that is not yet
visited is marked at `depth`. -/
def visitEach (depth : Int) (accept : String → Bool) : List String → Walk → Walk
  | [], s => s
  | x :: xs, s => visitEach depth accept xs (if accept x ∧ x ∉ s.visited then s.mark x depth else s)

/-- One turn of the `while` loop: pop, follow the dependencies, pair siblings.
`sibling in files` reads the keys, which no turn changes. -/
def step (exts : List String) (s : Walk) : Walk :=
  match s.queue with
  | [] => s
  | (current, depth) :: rest =>
    let followed := visitEach (depth + 1) (fun _ => true) (s.files.depsOf current)
      { s with queue := rest }
    visitEach (depth + 1) (fun sib => sib ≠ current ∧ sib ∈ s.files.keys)
      (exts.map (siblingName current)) followed

/-- `while queue:` with fuel. -/
def run (exts : List String) : Nat → Walk → Walk
  | 0, s => s
  | fuel + 1, s => if s.queue = [] then s else run exts fuel (s.step exts)

end Walk

/-- `walk_reachability(files, entry_points)`: the marked dict and `len(visited)`.
The `verbose` trace only prints and is left out. -/
def walkReachability (ord : ExtOrder) (files : FileMap) (entryPoints : List String) :
    FileMap × Nat :=
  let entered := entryPoints.foldl Walk.enter ⟨files, [], ∅⟩
  let done := entered.run ord.exts (files.size + entryPoints.length)
  (done.files, done.visited.card)

example : (walkReachability ExtOrder.written
    (buildDependencyGraph widgetDisk (discoverFiles widgetProject defaultExcludes)).1
    ["main.cpp"]).2 = 3 := by
  decide

end IncludeGraph.Finder

namespace IncludeGraph.Finder

open Py

namespace Walk

section Frame

variable (s : Walk) (k : String) (d : Int)

@[simp] theorem mark_keys : (s.mark k d).files.keys = s.files.keys := PyDict.keys_modify ..

@[simp] theorem mark_depsOf (x : String) : FileMap.depsOf (s.mark k d).files x = s.files.depsOf x :=
  FileMap.depsOf_modify_of_deps _ _ x (g := FileNode.markReached d) fun _ => rfl

@[simp] theorem mark_queue : (s.mark k d).queue = s.queue ++ [(k, d)] := rfl

@[simp] theorem mark_visited : (s.mark k d).visited = insert k s.visited := rfl

theorem mark_find? (v : String) :
    (s.mark k d).files.find? v =
      if v = k then (s.files.find? v).map (FileNode.markReached d) else s.files.find? v :=
  PyDict.find?_modify ..

end Frame

/-- What one marking loop does, in closed form: the visited set grows by the
admitted candidates, the deque by the new ones in order, and exactly the new
ones are marked. -/
theorem visitEach_spec (depth : Int) (accept : String → Bool) :
    ∀ (xs : List String) (s : Walk),
      (visitEach depth accept xs s).files.keys = s.files.keys ∧
      (∀ x, (visitEach depth accept xs s).files.depsOf x = s.files.depsOf x) ∧
      (∀ v, v ∈ (visitEach depth accept xs s).visited ↔ v ∈ s.visited ∨ (v ∈ xs ∧ accept v)) ∧
      (∃ new : List String, (visitEach depth accept xs s).queue = s.queue ++ new.map (·, depth) ∧
        new.Nodup ∧ ∀ v, v ∈ new ↔ v ∉ s.visited ∧ v ∈ xs ∧ accept v) ∧
      ∀ v, (visitEach depth accept xs s).files.find? v =
        if v ∉ s.visited ∧ v ∈ xs ∧ accept v then
          (s.files.find? v).map (FileNode.markReached depth)
        else s.files.find? v
  | [], s => ⟨rfl, fun _ => rfl, by simp [visitEach], ⟨[], by simp [visitEach]⟩, by simp [visitEach]⟩
  | x :: xs, s => by
    by_cases hx : accept x ∧ x ∉ s.visited
    · obtain ⟨keys, deps, vis, ⟨new, hq, hnd, hnew⟩, find⟩ := visitEach_spec depth accept xs (s.mark x depth)
      have hx' : x ∉ new := fun h => ((hnew x).mp h).1 (Finset.mem_insert_self x _)
      rw [visitEach, if_pos hx]
      refine ⟨by simp [keys], fun y => by simp [deps], fun v => ?_, ⟨x :: new, ?_, ?_, fun v => ?_⟩,
        fun v => ?_⟩
      · rw [vis]; by_cases hv : v = x <;> simp [hv, hx.1]
      · simp [hq]
      · exact List.nodup_cons.mpr ⟨hx', hnd⟩
      · rw [List.mem_cons, hnew]; by_cases hv : v = x <;> simp [hv, hx.1, hx.2]
      · rw [find, mark_find?]; by_cases hv : v = x <;> simp [hv, hx.1, hx.2]
    · obtain ⟨keys, deps, vis, ⟨new, hq, hnd, hnew⟩, find⟩ := visitEach_spec depth accept xs s
      rw [visitEach, if_neg hx]
      have hadm : ∀ v, v ∉ s.visited → accept v → v ≠ x := fun v hv ha e => hx ⟨e ▸ ha, e ▸ hv⟩
      refine ⟨keys, deps, fun v => ?_, ⟨new, hq, hnd, fun v => ?_⟩, fun v => ?_⟩
      · rw [vis]; by_cases hv : v ∈ s.visited <;> by_cases ha : accept v = true <;>
          simp [hv, ha, hadm v]
      · rw [hnew]; by_cases hv : v ∈ s.visited <;> by_cases ha : accept v = true <;>
          simp [hv, ha, hadm v]
      · rw [find]; by_cases hv : v ∈ s.visited <;> by_cases ha : accept v = true <;>
          simp [hv, ha, hadm v]

/-- What one turn of the `while` loop does, in closed form. The popped node's
successors are its dependencies and the sibling names that are other keys;
exactly the successors not yet visited are marked one level deeper and
enqueued behind the rest of the deque. -/
theorem step_spec (exts : List String) {s : Walk} {u : String} {d : Int}
    {rest : List (String × Int)} (hq : s.queue = (u, d) :: rest) :
    (s.step exts).files.keys = s.files.keys ∧
      (∀ x, (s.step exts).files.depsOf x = s.files.depsOf x) ∧
      (∀ v, v ∈ (s.step exts).visited ↔ v ∈ s.visited ∨
        (v ∈ s.files.depsOf u ∨ (v ∈ exts.map (siblingName u) ∧ v ≠ u ∧ v ∈ s.files.keys))) ∧
      (∃ new : List String, (s.step exts).queue = rest ++ new.map (·, d + 1) ∧ new.Nodup ∧
        ∀ v, v ∈ new ↔ v ∉ s.visited ∧
          (v ∈ s.files.depsOf u ∨ (v ∈ exts.map (siblingName u) ∧ v ≠ u ∧ v ∈ s.files.keys))) ∧
      ∀ v, (s.step exts).files.find? v =
        if v ∉ s.visited ∧
            (v ∈ s.files.depsOf u ∨ (v ∈ exts.map (siblingName u) ∧ v ≠ u ∧ v ∈ s.files.keys)) then
          (s.files.find? v).map (FileNode.markReached (d + 1))
        else s.files.find? v := by
  obtain ⟨keys₁, deps₁, vis₁, ⟨new₁, hq₁, hnd₁, hnew₁⟩, find₁⟩ :=
    visitEach_spec (d + 1) (fun _ => true) (s.files.depsOf u) { s with queue := rest }
  obtain ⟨keys₂, deps₂, vis₂, ⟨new₂, hq₂, hnd₂, hnew₂⟩, find₂⟩ :=
    visitEach_spec (d + 1) (fun sib => sib ≠ u ∧ sib ∈ s.files.keys) (exts.map (siblingName u))
      (visitEach (d + 1) (fun _ => true) (s.files.depsOf u) { s with queue := rest })
  simp only [step, hq]
  simp only [decide_eq_true_eq, and_true] at vis₁ hnew₁ find₁ vis₂ hnew₂ find₂
  refine ⟨by rw [keys₂, keys₁], fun x => by rw [deps₂, deps₁], fun v => ?_,
    ⟨new₁ ++ new₂, by rw [hq₂, hq₁, List.map_append, List.append_assoc], ?_, fun v => ?_⟩,
    fun v => ?_⟩
  · rw [vis₂, vis₁, or_assoc]
  · refine List.nodup_append.mpr ⟨hnd₁, hnd₂, fun v h₁ h₂ => ?_⟩
    exact ((hnew₂ v).mp h₂).1 ((vis₁ v).mpr (Or.inr ((hnew₁ v).mp h₁).2))
  · rw [List.mem_append, hnew₁, hnew₂, vis₁]
    by_cases hv : v ∈ s.visited <;> by_cases hd : v ∈ s.files.depsOf u <;> simp [hv, hd]
  · simp only [find₂, vis₁, find₁]
    by_cases h₁ : v ∈ s.visited <;> by_cases h₂ : v ∈ s.files.depsOf u <;> simp [h₁, h₂]

/-- Keys not yet visited plus pairs waiting in the deque. -/
def potential (s : Walk) : Nat :=
  (s.files.keys.toFinset \ s.visited).card + s.queue.length

/-- On a map whose dependencies are keys, one turn lowers the potential by
exactly one: it pops one pair and enqueues only keys it visits for the first
time. -/
theorem step_potential (exts : List String) {s : Walk}
    (hclosed : ∀ a, ∀ x ∈ s.files.depsOf a, x ∈ s.files.keys) (hq : s.queue ≠ []) :
    (s.step exts).potential + 1 = s.potential := by
  obtain ⟨⟨u, d⟩, rest, hq⟩ := List.exists_cons_of_ne_nil hq
  obtain ⟨keys, -, vis, ⟨new, hq', hnd, hnew⟩, -⟩ := step_spec exts hq
  have hsub : new.toFinset ⊆ s.files.keys.toFinset \ s.visited := fun v hv => by
    obtain ⟨hv, hn⟩ := (hnew v).mp (List.mem_toFinset.mp hv)
    refine Finset.mem_sdiff.mpr ⟨List.mem_toFinset.mpr ?_, hv⟩
    rcases hn with hn | ⟨-, -, hn⟩
    · exact hclosed u v hn
    · exact hn
  have hvis : (s.step exts).visited = s.visited ∪ new.toFinset := by
    ext v; rw [vis, Finset.mem_union, List.mem_toFinset, hnew]
    by_cases hv : v ∈ s.visited <;> simp [hv]
  have hcard := Finset.card_le_card hsub
  rw [List.toFinset_card_of_nodup hnd] at hcard
  have hdiff : s.files.keys.toFinset \ (s.visited ∪ new.toFinset) =
      (s.files.keys.toFinset \ s.visited) \ new.toFinset := by
    rw [sdiff_sdiff_left, Finset.sup_eq_union]
  simp only [potential, keys, hvis, hq', hq, hdiff, Finset.card_sdiff hsub,
    List.toFinset_card_of_nodup hnd, List.length_append, List.length_map, List.length_cons]
  omega

/-- Enough fuel empties the deque. -/
theorem run_queue_nil (exts : List String) :
    ∀ (fuel : Nat) (s : Walk), (∀ a, ∀ x ∈ s.files.depsOf a, x ∈ s.files.keys) →
      s.potential ≤ fuel → (s.run exts fuel).queue = []
  | 0, s, _, hp => by
    simp only [potential] at hp
    exact List.eq_nil_of_length_eq_zero (show s.queue.length = 0 by omega)
  | fuel + 1, s, hclosed, hp => by
    rw [run]
    split_ifs with hq
    · exact hq
    · obtain ⟨u, d, rest, hq'⟩ : ∃ u d rest, s.queue = (u, d) :: rest := by
        obtain ⟨⟨u, d⟩, rest, h⟩ := List.exists_cons_of_ne_nil hq
        exact ⟨u, d, rest, h⟩
      obtain ⟨keys, deps, -⟩ := step_spec exts hq'
      have := step_potential exts hclosed hq
      exact run_queue_nil exts fuel _ (fun a x hx => by rw [keys]; rw [deps] at hx; exact hclosed a x hx)
        (by omega)

/-- The keys one turn of the `while` loop enqueues: what its two marking loops
append behind the rest of the deque. -/
def appended (exts : List String) (s : Walk) : List String :=
  ((s.step exts).queue.drop (s.queue.length - 1)).map Prod.fst

/-- The keys the two marking loops enqueue along `fuel` turns of the `while` loop. -/
def enqueuedAlong (exts : List String) : Nat → Walk → List String
  | 0, _ => []
  | fuel + 1, s =>
    if s.queue = [] then [] else appended exts s ++ enqueuedAlong exts fuel (s.step exts)

/-- A turn enqueues distinct keys, each a dependency or a sibling key of the
popped node, and each visited by the turn for the first time. -/
theorem appended_spec (exts : List String) {s : Walk} {u : String} {d : Int}
    {rest : List (String × Int)} (hq : s.queue = (u, d) :: rest) :
    (appended exts s).Nodup ∧ ∀ v ∈ appended exts s, v ∉ s.visited ∧
      v ∈ (s.step exts).visited ∧ (v ∈ s.files.depsOf u ∨ v ∈ s.files.keys) := by
  obtain ⟨-, -, vis, ⟨new, hq', hnd, hnew⟩, -⟩ := step_spec exts hq
  have happ : appended exts s = new := by
    simp [appended, hq', hq, Function.comp_def]
  rw [happ]
  refine ⟨hnd, fun v hv => ?_⟩
  obtain ⟨hv₁, hv₂⟩ := (hnew v).mp hv
  exact ⟨hv₁, (vis v).mpr (.inr hv₂), hv₂.imp_right fun h => h.2.2⟩

/-- Along a run on a dict whose dependencies are keys, the marking loops enqueue
distinct keys, none of them visited when the run starts. -/
theorem enqueuedAlong_spec (exts : List String) :
    ∀ (fuel : Nat) (s : Walk), (∀ a, ∀ x ∈ s.files.depsOf a, x ∈ s.files.keys) →
      (enqueuedAlong exts fuel s).Nodup ∧
        ∀ v ∈ enqueuedAlong exts fuel s, v ∉ s.visited ∧ v ∈ s.files.keys
  | 0, _, _ => ⟨List.nodup_nil, fun _ h => absurd h (List.not_mem_nil _)⟩
  | fuel + 1, s, hclosed => by
    rw [enqueuedAlong]
    split_ifs with hq
    · exact ⟨List.nodup_nil, fun _ h => absurd h (List.not_mem_nil _)⟩
    · obtain ⟨⟨u, d⟩, rest, hq⟩ := List.exists_cons_of_ne_nil hq
      obtain ⟨keys, deps, vis, -⟩ := step_spec exts hq
      obtain ⟨hnd, happ⟩ := appended_spec exts hq
      obtain ⟨hnd', hlater⟩ := enqueuedAlong_spec exts fuel (s.step exts)
        (fun a x hx => by rw [keys]; rw [deps] at hx; exact hclosed a x hx)
      refine ⟨List.nodup_append.mpr ⟨hnd, hnd', fun v h₁ h₂ => (hlater v h₂).1 (happ v h₁).2.1⟩,
        fun v hv => ?_⟩
      rcases List.mem_append.mp hv with h | h
      · obtain ⟨h₁, -, h₃⟩ := happ v h
        exact ⟨h₁, h₃.elim (hclosed u v) id⟩
      · obtain ⟨h₁, h₂⟩ := hlater v h
        exact ⟨fun hv => h₁ ((vis v).mpr (.inl hv)), keys ▸ h₂⟩

@[simp] theorem FileNode.markEntry_markEntry (n : FileNode) :
    FileNode.markEntry (FileNode.markEntry n) = FileNode.markEntry n := rfl

/-- The entry loop in closed form: every entry that is a key is visited,
marked as an entry at depth 0, and enqueued once per occurrence. -/
theorem enterAll_spec :
    ∀ (entries : List String) (s : Walk),
      (entries.foldl enter s).files.keys = s.files.keys ∧
      (∀ x, (entries.foldl enter s).files.depsOf x = s.files.depsOf x) ∧
      (∀ v, v ∈ (entries.foldl enter s).visited ↔
        v ∈ s.visited ∨ (v ∈ entries ∧ v ∈ s.files.keys)) ∧
      (entries.foldl enter s).queue = s.queue ++ (entries.filter (· ∈ s.files.keys)).map (·, 0) ∧
      ∀ v, (entries.foldl enter s).files.find? v =
        if v ∈ entries ∧ v ∈ s.files.keys then (s.files.find? v).map FileNode.markEntry
        else s.files.find? v
  | [], s => ⟨rfl, fun _ => rfl, by simp, by simp, by simp⟩
  | e :: es, s => by
    by_cases he : e ∈ s.files.keys
    · obtain ⟨keys, deps, vis, hq, find⟩ := enterAll_spec es (s.enter e)
      have hkeys : (s.enter e).files.keys = s.files.keys := by simp [enter, he]
      have hdeps : ∀ x, (s.enter e).files.depsOf x = s.files.depsOf x := fun x => by
        simp only [enter, he, if_true]
        exact FileMap.depsOf_modify_of_deps _ _ x (g := FileNode.markEntry) fun _ => rfl
      rw [hkeys] at vis hq find
      refine ⟨by rw [List.foldl_cons, keys, hkeys], fun x => by rw [List.foldl_cons, deps, hdeps],
        fun v => ?_, ?_, fun v => ?_⟩
      · rw [List.foldl_cons, vis]; simp only [enter, he, if_true, Finset.mem_insert]
        by_cases hv : v = e <;> simp [hv, he]
      · rw [List.foldl_cons, hq]; simp [enter, he]
      · rw [List.foldl_cons, find]; simp only [enter, he, if_true, PyDict.find?_modify]
        by_cases hv : v = e <;> by_cases hm : v ∈ es <;>
          simp [hv, hm, he, Option.map_map, Function.comp_def]
    · obtain ⟨keys, deps, vis, hq, find⟩ := enterAll_spec es s
      have hs : s.enter e = s := by simp [enter, he]
      have hne : ∀ v, v ∈ s.files.keys → v ≠ e := fun v hv h => he (h ▸ hv)
      refine ⟨by rw [List.foldl_cons, hs, keys], fun x => by rw [List.foldl_cons, hs, deps],
        fun v => ?_, ?_, fun v => ?_⟩
      · rw [List.foldl_cons, hs, vis]
        by_cases hv : v ∈ s.files.keys <;> simp [hv, hne v]
      · rw [List.foldl_cons, hs, hq]; simp [he]
      · rw [List.foldl_cons, hs, find]
        by_cases hv : v ∈ s.files.keys <;> simp [hv, hne v]

/-- After the entry loop the potential is at most `len(files) + len(entry_points)`:
the keys not yet visited, and one deque pair per occurrence of an entry. -/
theorem enterAll_potential (files : FileMap) (entries : List String) :
    (entries.foldl enter ⟨files, [], ∅⟩).potential ≤ files.size + entries.length := by
  obtain ⟨keys, -, -, hq, -⟩ := enterAll_spec entries ⟨files, [], ∅⟩
  have h₁ : ((entries.foldl enter ⟨files, [], ∅⟩).files.keys.toFinset \
      (entries.foldl enter ⟨files, [], ∅⟩).visited).card ≤ files.size := by
    rw [keys]
    exact (Finset.card_le_card Finset.sdiff_subset).trans
      ((List.toFinset_card_le _).trans (List.length_map _ _).le)
  have h₂ := List.length_filter_le (fun x => decide (x ∈ files.keys)) entries
  simp only [List.nil_append] at hq
  simp only [potential, hq, List.length_map]
  omega

/-- No turn of the `while` loop writes `is_entry`. -/
theorem step_isEntry (exts : List String) (s : Walk) (v : String) :
    ((s.step exts).files.find? v).map FileNode.isEntry = (s.files.find? v).map FileNode.isEntry := by
  cases hq : s.queue with
  | nil => simp [step, hq]
  | cons p rest =>
    obtain ⟨u, d⟩ := p
    obtain ⟨-, -, -, -, find⟩ := step_spec exts hq
    rw [find]; split_ifs <;> simp [Option.map_map, Function.comp_def, FileNode.markReached]

theorem run_isEntry (exts : List String) :
    ∀ (fuel : Nat) (s : Walk) (v : String),
      ((s.run exts fuel).files.find? v).map FileNode.isEntry = (s.files.find? v).map FileNode.isEntry
  | 0, _, _ => rfl
  | fuel + 1, s, v => by
    rw [run]; split_ifs
    · rfl
    · rw [run_isEntry exts fuel, step_isEntry]

end Walk

/-- `is_entry` is set by the entry loop alone, on the entries that are keys. -/
theorem walkReachability_isEntry (ord : ExtOrder) (files : FileMap) (entries : List String)
    (v : String) :
    ((walkReachability ord files entries).1.find? v).map FileNode.isEntry =
      if v ∈ entries ∧ v ∈ files.keys then (files.find? v).map fun _ => true
      else (files.find? v).map FileNode.isEntry := by
  obtain ⟨-, -, -, -, find⟩ := Walk.enterAll_spec entries ⟨files, [], ∅⟩
  simp only [walkReachability, Walk.run_isEntry, find]
  split_ifs <;> simp [Option.map_map, Function.comp_def, FileNode.markEntry]

/-- On a dict whose dependencies are keys, which is what `build_dependency_graph`
hands over, the dependency and sibling loops enqueue each artifact at most once
along the whole walk, and never an entry point: they enqueue only what is not
yet visited and visit it in the same step. So the `while` loop empties the
deque within `len(files) + len(entry_points)` turns, on every graph, cyclic or
not, and for every entry list, repeated entries included. -/
theorem walkReachability_enqueues_once (ord : ExtOrder) (files : FileMap) (entries : List String)
    (hclosed : ∀ a, ∀ x ∈ files.depsOf a, x ∈ files.keys) :
    (Walk.enqueuedAlong ord.exts (files.size + entries.length)
        (entries.foldl Walk.enter ⟨files, [], ∅⟩)).Nodup ∧
      (∀ v ∈ Walk.enqueuedAlong ord.exts (files.size + entries.length)
        (entries.foldl Walk.enter ⟨files, [], ∅⟩), v ∉ entries) ∧
      ((entries.foldl Walk.enter ⟨files, [], ∅⟩).run ord.exts
        (files.size + entries.length)).queue = [] := by
  obtain ⟨keys, deps, vis, -⟩ := Walk.enterAll_spec entries ⟨files, [], ∅⟩
  have hclosed' : ∀ a, ∀ x ∈ (entries.foldl Walk.enter ⟨files, [], ∅⟩).files.depsOf a,
      x ∈ (entries.foldl Walk.enter ⟨files, [], ∅⟩).files.keys := fun a x hx => by
    rw [keys]; rw [deps] at hx; exact hclosed a x hx
  obtain ⟨hnd, hmem⟩ := Walk.enqueuedAlong_spec ord.exts (files.size + entries.length) _ hclosed'
  refine ⟨hnd, fun v hv he => ?_,
    Walk.run_queue_nil ord.exts _ _ hclosed' (Walk.enterAll_potential files entries)⟩
  obtain ⟨h₁, h₂⟩ := hmem v hv
  exact h₁ ((vis v).mpr (.inr ⟨he, keys ▸ h₂⟩))

theorem walkReachability_enqueues_once_widget :
    let graph := (buildDependencyGraph widgetDisk (discoverFiles widgetProject defaultExcludes)).1
    (∀ a, ∀ x ∈ graph.depsOf a, x ∈ graph.keys) ∧
      (Walk.enqueuedAlong ExtOrder.written.exts (graph.size + ["main.cpp", "main.cpp"].length)
          (["main.cpp", "main.cpp"].foldl Walk.enter ⟨graph, [], ∅⟩)).Nodup ∧
        (∀ v ∈ Walk.enqueuedAlong ExtOrder.written.exts
          (graph.size + ["main.cpp", "main.cpp"].length)
          (["main.cpp", "main.cpp"].foldl Walk.enter ⟨graph, [], ∅⟩), v ∉ ["main.cpp", "main.cpp"]) ∧
        ((["main.cpp", "main.cpp"].foldl Walk.enter ⟨graph, [], ∅⟩).run ExtOrder.written.exts
          (graph.size + ["main.cpp", "main.cpp"].length)).queue = [] := by
  intro graph
  have wf := discoverFiles_wf widgetProject defaultExcludes
  have hclosed : ∀ a, ∀ x ∈ graph.depsOf a, x ∈ graph.keys := fun a =>
    ((buildDependencyGraph_eq widgetDisk _ wf.1.adjacency_nil wf.2).1.closed a).1
  exact ⟨hclosed, walkReachability_enqueues_once ExtOrder.written graph _ hclosed⟩

end IncludeGraph.Finder
