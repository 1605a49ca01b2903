import IncludeGraph.Finder.Walk
import Mathlib.Data.List.Sort

/-!
# Correctness of the reachability walk

The walk is a multi-source breadth-first search, and its depths are shortest
path lengths. The graph it searches has the resolved includes as edges and, from
every node, the sibling edges to the other keys named `dir/stem + ext`.

The invariant `Inv k` is the usual one for a FIFO search at level `k`: the
deque holds depths `k` then `k + 1`; every visited node carries its shortest
distance; a visited node whose pair has left the deque has all its successors
visited; and every node within distance `k` is visited. One turn keeps
`Inv k` when the front pair is at depth `k`, and a deque with no pair at depth
`k` moves the invariant to `k + 1`. When the deque is empty the visited set is
closed under edges, so it is exactly the set of reachable keys.
-/

namespace IncludeGraph.Finder

open Py

/-- An edge the walk follows from `a`: a resolved include of `a`, or another
key named `siblingName a ext` for an extension of `ALL_EXTENSIONS`. -/
def Edge (files : FileMap) (a b : String) : Prop :=
  b ∈ files.depsOf a ∨ (b ≠ a ∧ b ∈ files.keys ∧ ∃ ext ∈ allExtensions, b = siblingName a ext)

instance (files : FileMap) (a b : String) : Decidable (Edge files a b) :=
  inferInstanceAs (Decidable (b ∈ files.depsOf a ∨
    (b ≠ a ∧ b ∈ files.keys ∧ ∃ ext ∈ allExtensions, b = siblingName a ext)))

/-- `ReachIn files entries v n`: some path of `n` edges leads from an entry that
is a key to `v`. -/
inductive ReachIn (files : FileMap) (entries : List String) : String → Nat → Prop
  | entry {e : String} : e ∈ entries → e ∈ files.keys → ReachIn files entries e 0
  | step {a b : String} {n : Nat} :
    ReachIn files entries a n → Edge files a b → ReachIn files entries b (n + 1)

namespace FileMap

/-- `files[k].depth`, `-1` for an absent key. -/
def depthOf (files : FileMap) (k : String) : Int := ((files.find? k).map FileNode.depth).getD (-1)

/-- `files[k].reachable`, `False` for an absent key. -/
def reachableOf (files : FileMap) (k : String) : Bool :=
  ((files.find? k).map FileNode.reachable).getD false

end FileMap

theorem ReachIn.zero_iff {files : FileMap} {entries : List String} {v : String} :
    ReachIn files entries v 0 ↔ v ∈ entries ∧ v ∈ files.keys :=
  ⟨fun h => by cases h; exact ⟨‹_›, ‹_›⟩, fun h => .entry h.1 h.2⟩

/-- The successors one turn examines are the edges of the graph, in whatever
order `ALL_EXTENSIONS` is iterated. -/
theorem next_iff_edge (ord : ExtOrder) (files : FileMap) (u v : String) :
    (v ∈ files.depsOf u ∨ (v ∈ ord.exts.map (siblingName u) ∧ v ≠ u ∧ v ∈ files.keys)) ↔
      Edge files u v := by
  simp only [Edge, List.mem_map, ord.mem_exts]
  constructor
  · rintro (h | ⟨⟨ext, he, rfl⟩, hne, hk⟩)
    · exact .inl h
    · exact .inr ⟨hne, hk, ext, he, rfl⟩
  · rintro (h | ⟨hne, hk, ext, he, rfl⟩)
    · exact .inl h
    · exact .inr ⟨⟨ext, he, rfl⟩, hne, hk⟩

/-- The invariant of the search at level `k`, against the dict `g` it started
from and the entry list. -/
structure Inv (g : FileMap) (entries : List String) (k : Nat) (s : Walk) : Prop where
  keys : s.files.keys = g.keys
  deps : ∀ x, s.files.depsOf x = g.depsOf x
  visited_keys : ∀ v ∈ s.visited, v ∈ g.keys
  queued : ∀ p ∈ s.queue, p.1 ∈ s.visited ∧ s.files.depthOf p.1 = p.2
  shortest : ∀ v ∈ s.visited, ∃ n : Nat, s.files.depthOf v = n ∧ s.files.reachableOf v = true ∧
    ReachIn g entries v n ∧ ∀ m, ReachIn g entries v m → n ≤ m
  untouched : ∀ v ∉ s.visited, s.files.find? v = g.find? v
  levels : ∀ p ∈ s.queue, p.2 = k ∨ p.2 = k + 1
  sorted : (s.queue.map Prod.snd).Sorted (· ≤ ·)
  closed : ∀ v ∈ s.visited, (∃ d, (v, d) ∈ s.queue) ∨ ∀ w, Edge g v w → w ∈ s.visited
  frontier : ∀ w m, ReachIn g entries w m → m ≤ k → w ∈ s.visited

namespace FileMap

theorem depthOf_of_find? {files : FileMap} {k : String} {n : FileNode}
    (h : files.find? k = some n) : files.depthOf k = n.depth := by
  simp [depthOf, h]

theorem reachableOf_of_find? {files : FileMap} {k : String} {n : FileNode}
    (h : files.find? k = some n) : files.reachableOf k = n.reachable := by
  simp [reachableOf, h]

end FileMap

section Search

variable {g : FileMap} {entries : List String} {k : Nat}

/-- Every edge of a graph whose dependencies are keys ends at a key. -/
theorem Edge.target_mem (hclosed : ∀ a, ∀ x ∈ g.depsOf a, x ∈ g.keys) {a b : String}
    (h : Edge g a b) : b ∈ g.keys := by
  rcases h with h | ⟨-, h, -⟩
  · exact hclosed a b h
  · exact h

private theorem sorted_const {α : Type} (c : Int) (l : List α) :
    (l.map fun _ => c).Sorted (· ≤ ·) :=
  List.pairwise_map.mpr (List.pairwise_of_forall fun _ _ => le_refl c)

/-- The invariant holds after the entry loop, at level 0. -/
theorem Inv.init (g : FileMap) (entries : List String) :
    Inv g entries 0 (entries.foldl Walk.enter ⟨g, [], ∅⟩) := by
  obtain ⟨keys, deps, vis, hq, find⟩ := Walk.enterAll_spec entries ⟨g, [], ∅⟩
  simp only [Finset.not_mem_empty, false_or, List.nil_append] at vis hq find keys deps
  have marked : ∀ v, v ∈ entries ∧ v ∈ g.keys →
      FileMap.depthOf (entries.foldl Walk.enter ⟨g, [], ∅⟩).files v = 0 ∧
        FileMap.reachableOf (entries.foldl Walk.enter ⟨g, [], ∅⟩).files v = true := fun v hv => by
    obtain ⟨n, hn⟩ := PyDict.find?_of_mem hv.2
    have := find v
    rw [if_pos hv, hn] at this
    rw [FileMap.depthOf_of_find? this, FileMap.reachableOf_of_find? this]
    exact ⟨rfl, rfl⟩
  refine ⟨keys, deps, fun v hv => ((vis v).mp hv).2, fun p hp => ?_, fun v hv => ?_,
    fun v hv => ?_, fun p hp => ?_, ?_, fun v hv => .inl ⟨0, ?_⟩, fun w m hw hm => ?_⟩
  · rw [hq] at hp
    obtain ⟨v, hv, rfl⟩ := List.mem_map.mp hp
    have hv' := List.mem_filter.mp hv
    exact ⟨(vis v).mpr ⟨hv'.1, by simpa using hv'.2⟩, (marked v ⟨hv'.1, by simpa using hv'.2⟩).1⟩
  · have hv' := (vis v).mp hv
    exact ⟨0, (marked v hv').1, (marked v hv').2, .entry hv'.1 hv'.2, fun _ _ => Nat.zero_le _⟩
  · rw [find, if_neg fun h => hv ((vis v).mpr h)]
  · rw [hq] at hp
    obtain ⟨v, -, rfl⟩ := List.mem_map.mp hp
    exact .inl rfl
  · rw [hq, List.map_map]; exact sorted_const 0 _
  · have hv' := (vis v).mp hv
    rw [hq]; exact List.mem_map.mpr ⟨v, List.mem_filter.mpr ⟨hv'.1, by simpa using hv'.2⟩, rfl⟩
  · obtain rfl : m = 0 := Nat.le_zero.mp hm
    exact (vis w).mpr (ReachIn.zero_iff.mp hw)

variable (ord : ExtOrder) (hclosed : ∀ a, ∀ x ∈ g.depsOf a, x ∈ g.keys)
include hclosed

/-- One turn from a front pair at the current level keeps the invariant: the
nodes it marks are at distance `k + 1`, since nothing unvisited is closer. -/
theorem Inv.step {s : Walk} (inv : Inv g entries k s) {u : String}
    {rest : List (String × Int)} (hq : s.queue = (u, (k : Int)) :: rest) :
    Inv g entries k (s.step ord.exts) := by
  obtain ⟨keys, deps, vis, ⟨new, hq', -, hnew⟩, find⟩ := Walk.step_spec ord.exts hq
  simp only [inv.deps, inv.keys, next_iff_edge ord g u] at vis hnew find
  have hu : ReachIn g entries u k := by
    obtain ⟨hu, hd⟩ := inv.queued (u, k) (by simp [hq])
    obtain ⟨n, hn, -, hr, -⟩ := inv.shortest u hu
    rw [hn] at hd
    have : n = k := by simp only at hd; omega
    exact this ▸ hr
  have hold : ∀ v ∈ s.visited, (s.step ord.exts).files.find? v = s.files.find? v :=
    fun v hv => by rw [find, if_neg fun h => h.1 hv]
  have hmark : ∀ v, v ∉ s.visited → Edge g u v →
      (s.step ord.exts).files.depthOf v = (k : Int) + 1 ∧
        (s.step ord.exts).files.reachableOf v = true := fun v hv he => by
    obtain ⟨n, hn⟩ := PyDict.find?_of_mem (inv.keys ▸ he.target_mem hclosed : v ∈ s.files.keys)
    have := find v
    rw [if_pos ⟨hv, he⟩, hn] at this
    rw [FileMap.depthOf_of_find? this, FileMap.reachableOf_of_find? this]
    exact ⟨rfl, rfl⟩
  have depth_old : ∀ v ∈ s.visited, (s.step ord.exts).files.depthOf v = s.files.depthOf v ∧
      (s.step ord.exts).files.reachableOf v = s.files.reachableOf v :=
    fun v hv => by simp only [FileMap.depthOf, FileMap.reachableOf, hold v hv, and_self]
  have rest_sub : ∀ p ∈ rest, p ∈ s.queue := fun p hp => by rw [hq]; exact List.mem_cons_of_mem _ hp
  refine ⟨keys.trans inv.keys, fun x => (deps x).trans (inv.deps x), fun v hv => ?_,
    fun p hp => ?_, fun v hv => ?_, fun v hv => ?_, fun p hp => ?_, ?_, fun v hv => ?_,
    fun w m hw hm => (vis w).mpr (.inl (inv.frontier w m hw hm))⟩
  · rcases (vis v).mp hv with hv | he
    · exact inv.visited_keys v hv
    · exact he.target_mem hclosed
  · rw [hq', List.mem_append] at hp
    rcases hp with hp | hp
    · obtain ⟨hv, hd⟩ := inv.queued p (rest_sub p hp)
      exact ⟨(vis _).mpr (.inl hv), (depth_old _ hv).1.trans hd⟩
    · obtain ⟨v, hv, rfl⟩ := List.mem_map.mp hp
      obtain ⟨hv, he⟩ := (hnew v).mp hv
      exact ⟨(vis v).mpr (.inr he), (hmark v hv he).1⟩
  · by_cases hv' : v ∈ s.visited
    · obtain ⟨n, hn, hr, hp, hmin⟩ := inv.shortest v hv'
      exact ⟨n, (depth_old v hv').1.trans hn, (depth_old v hv').2.trans hr, hp, hmin⟩
    · have he := ((vis v).mp hv).resolve_left hv'
      refine ⟨k + 1, by rw [(hmark v hv' he).1]; push_cast; rfl, (hmark v hv' he).2, hu.step he,
        fun m hm => ?_⟩
      by_contra hlt
      exact hv' (inv.frontier v m hm (by omega))
  · have hv' := not_or.mp (mt (vis v).mpr hv)
    rw [find, if_neg fun h => hv'.2 h.2]
    exact inv.untouched v hv'.1
  · rw [hq', List.mem_append] at hp
    rcases hp with hp | hp
    · exact inv.levels p (rest_sub p hp)
    · obtain ⟨v, -, rfl⟩ := List.mem_map.mp hp
      exact .inr rfl
  · have hs := inv.sorted
    rw [hq, List.map_cons, List.sorted_cons] at hs
    rw [hq', List.map_append, List.map_map]
    refine List.pairwise_append.mpr ⟨hs.2, sorted_const _ _, fun a ha b hb => ?_⟩
    obtain ⟨p, hp, rfl⟩ := List.mem_map.mp ha
    obtain ⟨v, -, rfl⟩ := List.mem_map.mp hb
    rcases inv.levels p (rest_sub p hp) with h | h <;> simp [h]
  · by_cases hvu : v = u
    · subst hvu
      exact .inr fun w he => (vis w).mpr (.inr he)
    by_cases hv' : v ∈ s.visited
    · rcases inv.closed v hv' with ⟨d, hd⟩ | hall
      · rw [hq, List.mem_cons] at hd
        rcases hd with hd | hd
        · exact absurd (Prod.mk.inj hd).1 hvu
        · exact .inl ⟨d, by rw [hq']; exact List.mem_append_left _ hd⟩
      · exact .inr fun w he => (vis w).mpr (.inl (hall w he))
    · have he := ((vis v).mp hv).resolve_left hv'
      refine .inl ⟨k + 1, ?_⟩
      rw [hq']
      exact List.mem_append_right _ (List.mem_map.mpr ⟨v, (hnew v).mpr ⟨hv', he⟩, rfl⟩)

omit hclosed in
/-- With no pair left at the current level, the invariant moves one level
deeper: a node at distance `k + 1` has a predecessor at distance `k` whose
successors were all visited when its pair left the deque. -/
theorem Inv.advance {s : Walk} (inv : Inv g entries k s)
    (hk : ∀ p ∈ s.queue, p.2 = (k : Int) + 1) : Inv g entries (k + 1) s := by
  refine { inv with levels := fun p hp => .inl (by rw [hk p hp]; push_cast; rfl),
                    frontier := fun w m hw hm => ?_ }
  rcases Nat.lt_or_ge m (k + 1) with hlt | hge
  · exact inv.frontier w m hw (by omega)
  cases hw with
  | entry he hk' => exact inv.frontier w 0 (.entry he hk') (Nat.zero_le k)
  | @step a _ n ha he =>
    have hav := inv.frontier a n ha (by omega)
    rcases inv.closed a hav with ⟨d, hd⟩ | hall
    · obtain ⟨n', hn', -, -, hmin⟩ := inv.shortest a hav
      have hd' := (inv.queued _ hd).2
      rw [hn', hk _ hd] at hd'
      have := hmin n ha
      omega
    · exact hall w he

/-- A turn keeps the invariant at some level. -/
theorem Inv.step_exists {s : Walk} (inv : Inv g entries k s) (hq : s.queue ≠ []) :
    ∃ k', Inv g entries k' (s.step ord.exts) := by
  obtain ⟨⟨u, d⟩, rest, hq⟩ := List.exists_cons_of_ne_nil hq
  rcases inv.levels (u, d) (by simp [hq]) with hd | hd
  · subst hd
    exact ⟨k, inv.step ord hclosed hq⟩
  · have hall : ∀ p ∈ s.queue, p.2 = (k : Int) + 1 := fun p hp => by
      have hs := inv.sorted
      rw [hq, List.map_cons, List.sorted_cons] at hs
      rw [hq, List.mem_cons] at hp
      rcases hp with rfl | hp
      · exact hd
      · have := hs.1 p.2 (List.mem_map_of_mem _ hp)
        rcases inv.levels p (by rw [hq]; exact List.mem_cons_of_mem _ hp) with h | h <;>
          simp only at hd <;> omega
    have hq' : s.queue = (u, ((k + 1 : Nat) : Int)) :: rest := by
      rw [hq]; simp only at hd; rw [hd]; push_cast; rfl
    exact ⟨k + 1, (inv.advance hall).step ord hclosed hq'⟩

/-- The invariant holds, at some level, along the whole run. -/
theorem Inv.run : ∀ (fuel : Nat) {s : Walk} {k : Nat}, Inv g entries k s →
    ∃ k', Inv g entries k' (s.run ord.exts fuel)
  | 0, _, k, inv => ⟨k, inv⟩
  | fuel + 1, s, k, inv => by
    rw [Walk.run]
    split_ifs with hq
    · exact ⟨k, inv⟩
    · obtain ⟨k', inv'⟩ := inv.step_exists ord hclosed hq
      exact Inv.run fuel inv'

omit hclosed in
/-- With the deque empty, the visited set is exactly the set of nodes some path
reaches: it holds the entries and is closed under edges. -/
theorem Inv.mem_visited_iff {s : Walk} (inv : Inv g entries k s) (hq : s.queue = [])
    (v : String) : v ∈ s.visited ↔ ∃ m, ReachIn g entries v m := by
  have closure : ∀ w m, ReachIn g entries w m → w ∈ s.visited := by
    intro w m hm
    induction hm with
    | entry he hk => exact inv.frontier _ 0 (.entry he hk) (Nat.zero_le k)
    | step _ he ih =>
      rcases inv.closed _ ih with ⟨d, hd⟩ | hall
      · rw [hq] at hd; cases hd
      · exact hall _ he
  refine ⟨fun hv => ?_, fun ⟨m, hm⟩ => closure v m hm⟩
  obtain ⟨n, -, -, hr, -⟩ := inv.shortest v hv
  exact ⟨n, hr⟩

end Search

section Result

variable (ord : ExtOrder) {g : FileMap} (entries : List String)
  (hclosed : ∀ a, ∀ x ∈ g.depsOf a, x ∈ g.keys)
include hclosed

/-- The walk ends with an empty deque and the invariant at some level. -/
theorem walk_final :
    ∃ k, Inv g entries k ((entries.foldl Walk.enter ⟨g, [], ∅⟩).run ord.exts
      (g.size + entries.length)) ∧
      ((entries.foldl Walk.enter ⟨g, [], ∅⟩).run ord.exts (g.size + entries.length)).queue = [] := by
  have inv₀ := Inv.init g entries
  obtain ⟨k, inv⟩ := inv₀.run ord hclosed (g.size + entries.length)
  refine ⟨k, inv, Walk.run_queue_nil ord.exts _ _ (fun a x hx => ?_) (Walk.enterAll_potential g entries)⟩
  rw [inv₀.deps] at hx; rw [inv₀.keys]; exact hclosed a x hx

variable (hfresh : ∀ k n, g.find? k = some n → n.reachable = false ∧ n.depth = -1)
include hfresh

/-- On a map whose dependencies are keys and whose marks are fresh, the walk
marks exactly the reachable keys, each with its shortest distance, and leaves
`-1` on the others. -/
theorem walkReachability_correct :
    (walkReachability ord g entries).1.keys = g.keys ∧
      ∀ v n, (walkReachability ord g entries).1.find? v = some n →
        (n.reachable = true ↔ ∃ m, ReachIn g entries v m) ∧
        ((∃ m, ReachIn g entries v m) → ∃ d : Nat, n.depth = d ∧ ReachIn g entries v d ∧
          ∀ m, ReachIn g entries v m → d ≤ m) ∧
        ((¬∃ m, ReachIn g entries v m) → n.depth = -1) := by
  obtain ⟨k, inv, hq⟩ := walk_final ord entries hclosed
  set s := (entries.foldl Walk.enter ⟨g, [], ∅⟩).run ord.exts (g.size + entries.length)
  rw [show walkReachability ord g entries = (s.files, s.visited.card) from rfl]
  refine ⟨inv.keys, fun v n hn => ?_⟩
  have mem := inv.mem_visited_iff hq v
  by_cases hv : v ∈ s.visited
  · obtain ⟨d, hd, hr, hp, hmin⟩ := inv.shortest v hv
    rw [FileMap.depthOf_of_find? hn] at hd
    rw [FileMap.reachableOf_of_find? hn] at hr
    exact ⟨⟨fun _ => mem.mp hv, fun _ => hr⟩, fun _ => ⟨d, hd, hp, hmin⟩,
      fun h => absurd (mem.mp hv) h⟩
  · have hg := inv.untouched v hv
    rw [hn] at hg
    obtain ⟨hr, hd⟩ := hfresh v n hg.symm
    exact ⟨⟨fun h => absurd (hr.symm.trans h) Bool.false_ne_true, fun h => absurd (mem.mpr h) hv⟩,
      fun h => absurd (mem.mpr h) hv, fun _ => hd⟩

/-- `len(visited)` is the number of keys the walk marks reachable. -/
theorem walkReachability_count :
    (walkReachability ord g entries).2 =
      ((walkReachability ord g entries).1.keys.filter fun k =>
        (walkReachability ord g entries).1.reachableOf k).length := by
  obtain ⟨k, inv, -⟩ := walk_final ord entries hclosed
  set s := (entries.foldl Walk.enter ⟨g, [], ∅⟩).run ord.exts (g.size + entries.length)
  rw [show walkReachability ord g entries = (s.files, s.visited.card) from rfl]
  have hr : ∀ v ∈ g.keys, s.files.reachableOf v = decide (v ∈ s.visited) := fun v hk => by
    by_cases hv : v ∈ s.visited
    · rw [(inv.shortest v hv).choose_spec.2.1, decide_eq_true hv]
    · obtain ⟨n, hn⟩ := PyDict.find?_of_mem hk
      rw [FileMap.reachableOf_of_find? (by rw [inv.untouched v hv, hn]), (hfresh v n hn).1,
        decide_eq_false hv]
  have hV : (g.keys.filter fun k => decide (k ∈ s.visited)).toFinset = s.visited := by
    ext v
    simp only [List.mem_toFinset, List.mem_filter, decide_eq_true_eq]
    exact ⟨fun h => h.2, fun h => ⟨inv.visited_keys v h, h⟩⟩
  calc s.visited.card = (g.keys.filter fun k => decide (k ∈ s.visited)).toFinset.card := by
        rw [hV]
    _ = (g.keys.filter fun k => decide (k ∈ s.visited)).length :=
        List.toFinset_card_of_nodup (g.nodup_keys.filter _)
    _ = (s.files.keys.filter fun k => s.files.reachableOf k).length := by
        rw [inv.keys, List.filter_congr fun v hv => (hr v hv).symm]

end Result

end IncludeGraph.Finder

namespace IncludeGraph.Finder

open Py

/-- The dict the builder hands to the walk: the discovered keys, dependencies
that are keys, and still the marks discovery wrote. -/
theorem buildDependencyGraph_walkable (disk : Disk) (files : FileMap) (hfresh : files.Fresh)
    (hne : ∀ k ∈ files.keys, k ≠ "") :
    (buildDependencyGraph disk files).1.keys = files.keys ∧
      (∀ a, ∀ x ∈ (buildDependencyGraph disk files).1.depsOf a,
        x ∈ (buildDependencyGraph disk files).1.keys) ∧
      (∀ k n, (buildDependencyGraph disk files).1.find? k = some n →
        n.reachable = false ∧ n.depth = -1) ∧
      ∀ k n, (buildDependencyGraph disk files).1.find? k = some n → n.isEntry = false := by
  obtain ⟨inv, -, -⟩ := buildDependencyGraph_eq disk files hfresh.adjacency_nil hne
  have marks : ∀ k n, (buildDependencyGraph disk files).1.find? k = some n →
      n.reachable = false ∧ n.depth = -1 ∧ n.isEntry = false := fun k n hn => by
    have hk := inv.kept k
    rw [hn] at hk
    cases h : files.find? k with
    | none => rw [h] at hk; cases hk
    | some n₀ =>
      rw [h] at hk
      simp only [Option.map_some', Option.some.injEq, FileNode.kept, Prod.mk.injEq] at hk
      have fresh := (hfresh k n₀ h).2.2
      exact ⟨hk.2.1.trans fresh.1, hk.2.2.1.trans fresh.2.1, hk.2.2.2.trans fresh.2.2⟩
  exact ⟨inv.keys, fun a => (inv.closed a).1, fun k n h => ⟨(marks k n h).1, (marks k n h).2.1⟩,
    fun k n h => (marks k n h).2.2⟩

/-- `walk_reachability` after `build_dependency_graph` on a freshly discovered
dict: a key is marked reachable exactly when a path of include and sibling
edges leads to it from an entry that is a key; its depth is the length of a
shortest such path, `-1` when there is none; and the count returned is the
number of keys marked reachable. This holds for every order of
`ALL_EXTENSIONS` and every entry list, repeated or absent entries included. -/
theorem walkReachability_shortest_paths (ord : ExtOrder) (disk : Disk) (files : FileMap)
    (entries : List String) (hfresh : files.Fresh) (hne : ∀ k ∈ files.keys, k ≠ "") :
    let graph := (buildDependencyGraph disk files).1
    let marked := (walkReachability ord graph entries).1
    marked.keys = files.keys ∧
      (∀ k n, marked.find? k = some n →
        (n.reachable = true ↔ ∃ m, ReachIn graph entries k m) ∧
        ((∃ m, ReachIn graph entries k m) → ∃ d : Nat, n.depth = d ∧
          ReachIn graph entries k d ∧ ∀ m, ReachIn graph entries k m → d ≤ m) ∧
        ((¬∃ m, ReachIn graph entries k m) → n.depth = -1)) ∧
      (walkReachability ord graph entries).2 =
        (marked.keys.filter fun k => marked.reachableOf k).length := by
  intro graph marked
  obtain ⟨hkeys, hclosed, fresh, -⟩ := buildDependencyGraph_walkable disk files hfresh hne
  obtain ⟨keys, correct⟩ := walkReachability_correct ord entries hclosed fresh
  exact ⟨keys.trans hkeys, correct, walkReachability_count ord entries hclosed fresh⟩

theorem walkReachability_shortest_paths_widget :
    let files := discoverFiles widgetProject defaultExcludes
    (files.Fresh ∧ ∀ k ∈ files.keys, k ≠ "") ∧
      let graph := (buildDependencyGraph widgetDisk files).1
      let marked := (walkReachability ExtOrder.written graph ["main.cpp"]).1
      marked.keys = files.keys ∧
        (∀ k n, marked.find? k = some n →
          (n.reachable = true ↔ ∃ m, ReachIn graph ["main.cpp"] k m) ∧
          ((∃ m, ReachIn graph ["main.cpp"] k m) → ∃ d : Nat, n.depth = d ∧
            ReachIn graph ["main.cpp"] k d ∧ ∀ m, ReachIn graph ["main.cpp"] k m → d ≤ m) ∧
          ((¬∃ m, ReachIn graph ["main.cpp"] k m) → n.depth = -1)) ∧
        (walkReachability ExtOrder.written graph ["main.cpp"]).2 =
          (marked.keys.filter fun k => marked.reachableOf k).length := by
  intro files
  have wf := discoverFiles_wf widgetProject defaultExcludes
  exact ⟨wf, walkReachability_shortest_paths ExtOrder.written widgetDisk files ["main.cpp"] wf.1 wf.2⟩

/-- The spec's third scenario: `lib/Widget.cpp`, which nothing includes, is
reached at depth 2 through its header. -/
example : ((walkReachability ExtOrder.written
    (buildDependencyGraph widgetDisk (discoverFiles widgetProject defaultExcludes)).1
    ["main.cpp"]).1.find? "lib/Widget.cpp").map FileNode.depth = some 2 := by
  decide

/-- `Widget.h` and `Widget.CPP`, which discovery admits as a source file. -/
def mixedCaseProject : List Entry :=
  [⟨["Widget.h"], true, 10, "/r/Widget.h", by decide, by decide⟩,
    ⟨["Widget.CPP"], true, 10, "/r/Widget.CPP", by decide, by decide⟩]

/-- Reaching `Widget.h` does not reach its implementation `Widget.CPP`: the
sibling names are built with the lower-case extensions of `ALL_EXTENSIONS`,
while discovery lowers the suffix before comparing. -/
theorem walkReachability_misses_upper_case_sibling :
    (discoverFiles mixedCaseProject defaultExcludes).keys = ["Widget.h", "Widget.CPP"] ∧
      ((discoverFiles mixedCaseProject defaultExcludes).find? "Widget.CPP").map
        FileNode.extension = some ".cpp" ∧
      ((walkReachability ExtOrder.written (buildDependencyGraph (fun _ => some [])
        (discoverFiles mixedCaseProject defaultExcludes)).1 ["Widget.h"]).1.find? "Widget.h").map
        FileNode.reachable = some true ∧
      ((walkReachability ExtOrder.written (buildDependencyGraph (fun _ => some [])
        (discoverFiles mixedCaseProject defaultExcludes)).1 ["Widget.h"]).1.find? "Widget.CPP").map
        FileNode.reachable = some false := by
  decide

end IncludeGraph.Finder
