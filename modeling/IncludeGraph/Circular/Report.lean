import IncludeGraph.Circular.Elementary
import IncludeGraph.Circular.Edges
import Mathlib.Logic.Relation
import Mathlib.Data.List.Cycle
import Mathlib.Data.Set.Card

/-!
# What `check_circular.py` reports

After `find_all_cycles`, `main` exits with status 1 when a cycle was found,
`print_cycles` counts the cycles and explains each step of each by the include
that causes it, `check_specific_file` lists the cycles through one file, written
from that file, and `generate_dot_graph` draws the nodes and edges of the cycles
red, each node labelled by its file name.

Each report is stated here against the include relation itself: a file lies on
a cycle when it includes itself through a chain of one or more includes, and an
include `u → v` lies on a cycle when `v` includes `u` back through a chain. The
bridge is that a chain can be cut down to one without repeats, which closes an
elementary cycle, and `find_all_cycles` finds every elementary cycle, once up
to rotation.
-/

namespace IncludeGraph.Circular

open Py

section Paths

variable {α : Type} [LinearOrder α] {g : Graph α}

/-- `b in include_graph[a]`: `a` includes `b`. -/
def Includes (g : Graph α) (a b : α) : Prop := b ∈ succ g a

/-- An include chain can be cut down to one that visits no file twice. -/
theorem exists_nodup_chain {a b : α} (h : Relation.ReflTransGen (Includes g) a b) :
    ∃ l, (a :: l).Nodup ∧ List.Chain (Includes g) a l ∧ (a :: l).getLast? = some b := by
  induction h using Relation.ReflTransGen.head_induction_on with
  | refl => exact ⟨[], List.nodup_singleton _, .nil, rfl⟩
  | @head a c hac _ ih =>
    obtain ⟨l, hnd, hch, hlast⟩ := ih
    by_cases ha : a ∈ c :: l
    · -- the chain meets `a` again: keep it from there
      have hi := List.indexOf_lt_length.mpr ha
      have hdrop : (c :: l).drop ((c :: l).indexOf a) =
          a :: (c :: l).drop ((c :: l).indexOf a + 1) := by
        rw [List.drop_eq_getElem_cons hi, List.getElem_indexOf hi]
      have hch' := (show List.Chain' (Includes g) (c :: l) from hch).drop ((c :: l).indexOf a)
      have hlast' := List.getLast?_drop (n := (c :: l).indexOf a) (l := c :: l)
      rw [hdrop, if_neg (not_le.mpr hi), hlast] at hlast'
      rw [hdrop] at hch'
      exact ⟨_, by rw [← hdrop]; exact hnd.sublist (List.drop_sublist _ _), hch', hlast'⟩
    · exact ⟨c :: l, List.nodup_cons.mpr ⟨ha, hnd⟩, .cons hac hch, by
        rw [List.getLast?_cons_cons, hlast]⟩

/-- An include `u → v` with a chain from `v` back to `u` closes an elementary
cycle through both. -/
theorem exists_cycle_of_includes {u v : α} (huv : Includes g u v)
    (hvu : Relation.ReflTransGen (Includes g) v u) : ∃ l, IsCycle g (v :: l) ∧ u ∈ v :: l := by
  obtain ⟨l, hnd, hch, hlast⟩ := exists_nodup_chain hvu
  have hclosed : List.Chain' (Includes g) ((v :: l) ++ [v]) :=
    List.Chain'.append hch (List.chain'_singleton v) fun x hx y hy => by
      rw [hlast, Option.mem_some_iff] at hx
      rw [List.head?_cons, Option.mem_some_iff] at hy
      exact hx ▸ hy ▸ huv
  refine ⟨l, ⟨hnd, hclosed⟩, ?_⟩
  rw [List.getLast?_eq_getLast _ (List.cons_ne_nil v l), Option.some_inj] at hlast
  exact hlast ▸ List.getLast_mem _

theorem IsCycle.nodup {c : List α} (h : IsCycle g c) : c.Nodup := by
  cases c with
  | nil => cases h
  | cons _ _ => exact h.1

/-- Every node of a cycle is reached from every other along it. -/
theorem IsCycle.reach {c : List α} (h : IsCycle g c) {a b : α} (ha : a ∈ c) (hb : b ∈ c) :
    Relation.ReflTransGen (Includes g) a b := by
  have hr := h.rotate (c.indexOf a)
  have hb' : b ∈ c.rotate (c.indexOf a) := List.mem_rotate.mpr hb
  rw [rotate_indexOf ha] at hr hb'
  rcases List.mem_cons.mp hb' with rfl | hb'
  · exact .refl
  · exact List.Chain.induction (Relation.ReflTransGen (Includes g) a) _ hr.2
      (fun _ _ hxy hx => hx.tail hxy) .refl b (List.mem_append_left _ hb')

theorem IsCycle.transGen_head {x : α} {xs : List α} (h : IsCycle g (x :: xs)) :
    Relation.TransGen (Includes g) x x := by
  cases xs with
  | nil => exact .single (List.chain_singleton.mp h.2)
  | cons y ys =>
    have hxy : Includes g x y := (List.chain_cons.mp h.2).1
    exact .head' hxy (h.reach (List.mem_cons_of_mem _ (List.mem_cons_self y ys))
      (List.mem_cons_self x _))

/-- Every node of a cycle includes itself through the cycle. -/
theorem IsCycle.transGen {c : List α} (h : IsCycle g c) {x : α} (hx : x ∈ c) :
    Relation.TransGen (Includes g) x x := by
  have hr := h.rotate (c.indexOf x)
  rw [rotate_indexOf hx] at hr
  exact hr.transGen_head

omit [LinearOrder α] in
theorem chain'_getD {R : α → α → Prop} {d : α} :
    ∀ {l : List α}, List.Chain' R l → ∀ {i : Nat}, i + 1 < l.length →
      R (l.getD i d) (l.getD (i + 1) d)
  | _ :: _ :: _, h, 0, _ => (List.chain_cons.mp h).1
  | _ :: b :: rest, h, i + 1, hi =>
    chain'_getD (l := b :: rest) (List.chain_cons.mp h).2 (by simp at hi ⊢; omega)

/-- Each node of a cycle includes the next, the last one the first. -/
theorem IsCycle.includes_next {c : List α} (h : IsCycle g c) (d : α) {i : Nat}
    (hi : i < c.length) : Includes g (c.getD i d) (c.getD ((i + 1) % c.length) d) := by
  match c, h with
  | x :: xs, ⟨_, hch⟩ =>
    have step := chain'_getD (R := Includes g) (d := d) (l := x :: xs ++ [x]) hch (i := i)
      (by simp at hi ⊢; omega)
    have e₁ : (x :: xs ++ [x]).getD i d = (x :: xs).getD i d := by
      rw [List.getD_eq_getElem?_getD, List.getD_eq_getElem?_getD, List.getElem?_append_left hi]
    have e₂ : (x :: xs ++ [x]).getD (i + 1) d = (x :: xs).getD ((i + 1) % (x :: xs).length) d := by
      rcases Nat.lt_or_ge (i + 1) (x :: xs).length with hlt | hge
      · rw [Nat.mod_eq_of_lt hlt, List.getD_eq_getElem?_getD, List.getD_eq_getElem?_getD,
          List.getElem?_append_left hlt]
      · have heq : i + 1 = (x :: xs).length := by omega
        rw [heq, Nat.mod_self]
        simp [List.getD_eq_getElem?_getD]
    rwa [e₁, e₂] at step

omit [LinearOrder α] in
/-- Two rotations of a list of distinct elements that start alike are equal. -/
theorem rotate_eq_of_head?_eq {l : List α} (hnd : l.Nodup) {i j : Nat}
    (h : (l.rotate i).head? = (l.rotate j).head?) : l.rotate i = l.rotate j := by
  cases l with
  | nil => simp
  | cons a as =>
    have hl : 0 < (a :: as).length := Nat.succ_pos _
    rw [← List.rotate_mod _ i, ← List.rotate_mod _ j] at h ⊢
    rw [List.head?_rotate (Nat.mod_lt _ hl), List.head?_rotate (Nat.mod_lt _ hl),
      List.getElem?_eq_getElem (Nat.mod_lt _ hl), List.getElem?_eq_getElem (Nat.mod_lt _ hl),
      Option.some_inj, hnd.getElem_inj_iff] at h
    rw [h]

end Paths

section Found

variable {α : Type} [LinearOrder α] {g : Graph α}

theorem isCycle_of_mem_findAllCycles {d : List α} (hd : d ∈ findAllCycles g) :
    IsCycle g d ∧ StartsAtMin d := by
  obtain ⟨node, -, c, hc, -, rfl⟩ := ((findAllCycles_mem g).2 d).mp hd
  obtain ⟨x, xs, rfl, hcyc⟩ := cyclesFrom_sound _ (CallInv.root node) c hc
  obtain ⟨n, hn, hmin⟩ := normalize_closed x xs
  exact hn ▸ ⟨hcyc.rotate n, hmin⟩

theorem exists_mem_findAllCycles {c : List α} (hc : IsCycle g c) :
    ∃ d ∈ findAllCycles g, d ~r c := by
  match c, hc with
  | x :: xs, hc =>
    obtain ⟨n, hn, -⟩ := normalize_closed x xs
    refine ⟨_, ((findAllCycles_mem g).2 _).mpr ⟨x, hc.mem_keys (List.mem_cons_self x xs), _,
      closed_mem_findCyclesFromNode hc, by simp, rfl⟩, ?_⟩
    rw [hn]
    exact List.IsRotated.forall (x :: xs) n

/-- A node lies on a found cycle exactly when it includes itself through a chain. -/
theorem mem_found_iff_transGen (x : α) :
    (∃ d ∈ findAllCycles g, x ∈ d) ↔ Relation.TransGen (Includes g) x x := by
  refine ⟨fun ⟨d, hd, hx⟩ => (isCycle_of_mem_findAllCycles hd).1.transGen hx, fun h => ?_⟩
  obtain ⟨y, hxy, hyx⟩ := Relation.TransGen.head'_iff.mp h
  obtain ⟨l, hc, hx⟩ := exists_cycle_of_includes hxy hyx
  obtain ⟨d, hd, hrot⟩ := exists_mem_findAllCycles hc
  exact ⟨d, hd, hrot.mem_iff.mpr hx⟩

/-- An include lies on a found cycle exactly when its target includes its source
back through a chain. -/
theorem found_edge_iff_reach {u v : α} (huv : Includes g u v) :
    (∃ d ∈ findAllCycles g, u ∈ d ∧ v ∈ d) ↔ Relation.ReflTransGen (Includes g) v u := by
  refine ⟨fun ⟨d, hd, hu, hv⟩ => (isCycle_of_mem_findAllCycles hd).1.reach hv hu, fun h => ?_⟩
  obtain ⟨l, hc, hu⟩ := exists_cycle_of_includes huv h
  obtain ⟨d, hd, hrot⟩ := exists_mem_findAllCycles hc
  exact ⟨d, hd, hrot.mem_iff.mpr hu, hrot.mem_iff.mpr (List.mem_cons_self v l)⟩

/-- Two found cycles that are rotations of each other are equal: both start at
their least node. -/
theorem found_eq_of_isRotated {d₁ d₂ : List α} (h₁ : d₁ ∈ findAllCycles g)
    (h₂ : d₂ ∈ findAllCycles g) (h : d₁ ~r d₂) : d₁ = d₂ := by
  obtain ⟨k, hk⟩ := h
  have := rotate_eq_of_startsAtMin (isCycle_of_mem_findAllCycles h₁).1.nodup (i := k) (j := 0)
    (hk ▸ (isCycle_of_mem_findAllCycles h₂).2) (by rw [List.rotate_zero]; exact
      (isCycle_of_mem_findAllCycles h₁).2)
  rwa [hk, List.rotate_zero, eq_comm] at this

/-- `find_all_cycles` reports each elementary cycle of the include graph once:
the list has no repeats, and its length, the count `print_cycles` prints in
`Found N circular dependencies`, is the number of elementary cycles up to
rotation. -/
theorem findAllCycles_counts_each_cycle_once (g : Graph α) :
    (findAllCycles g).Nodup ∧
      ((fun c : List α => (c : Cycle α)) '' {c | IsCycle g c}).Finite ∧
      (findAllCycles g).length = ((fun c : List α => (c : Cycle α)) '' {c | IsCycle g c}).ncard := by
  have hclasses : (fun c : List α => (c : Cycle α)) '' {c | IsCycle g c} =
      ↑((findAllCycles g).map fun c : List α => (c : Cycle α)).toFinset := by
    ext C
    simp only [Set.mem_image, Set.mem_setOf_eq, List.coe_toFinset, List.mem_map]
    constructor
    · rintro ⟨c, hc, rfl⟩
      obtain ⟨d, hd, hrot⟩ := exists_mem_findAllCycles hc
      exact ⟨d, hd, Cycle.coe_eq_coe.mpr hrot⟩
    · rintro ⟨d, hd, rfl⟩
      exact ⟨d, (isCycle_of_mem_findAllCycles hd).1, rfl⟩
  have hnodup : ((findAllCycles g).map fun c : List α => (c : Cycle α)).Nodup :=
    (findAllCycles_mem g).1.map_on fun d₁ h₁ d₂ h₂ he =>
      found_eq_of_isRotated h₁ h₂ (Cycle.coe_eq_coe.mp he)
  refine ⟨(findAllCycles_mem g).1, hclasses ▸ Finset.finite_toSet _, ?_⟩
  rw [hclasses, Set.ncard_coe_Finset, List.toFinset_card_of_nodup hnodup, List.length_map]

end Found

section Dot

variable {α : Type} [LinearOrder α] (g : Graph α) (name : α → String)

/-- `cycle_nodes` in `generate_dot_graph`: the set of the nodes of the found
cycles, listed in one iteration order. -/
def cycleNodes : List α := (findAllCycles g).flatten.dedup

/-- The labels of the node statements `generate_dot_graph` writes, `name` of
each node of `cycle_nodes`; the code writes `node.name`. -/
def dotNodeLabels : List String := (cycleNodes g).map name

/-- The edge statements `generate_dot_graph` writes, in `include_graph.items()`
order: the labels of the source and the target, red when one found cycle holds
both ends. -/
def dotEdges : List (String × String × Bool) :=
  g.entries.flatMap fun entry => entry.2.map fun target =>
    (name entry.1, name target, (findAllCycles g).any fun cycle => entry.1 ∈ cycle ∧ target ∈ cycle)

variable {g name}

/-- A label is written red exactly when a node with that label includes itself
through a chain. -/
theorem mem_dotNodeLabels {label : String} :
    label ∈ dotNodeLabels g name ↔ ∃ x, name x = label ∧ Relation.TransGen (Includes g) x x := by
  simp only [dotNodeLabels, cycleNodes, List.mem_map, List.mem_dedup, List.mem_flatten,
    ← mem_found_iff_transGen]
  exact ⟨fun ⟨x, hx, hl⟩ => ⟨x, hl, hx⟩, fun ⟨x, hl, hx⟩ => ⟨x, hx, hl⟩⟩

/-- An edge statement is written for each include, between the labels of its
ends, red exactly when its target includes its source back through a chain. -/
theorem mem_dotEdges {source target : String} {red : Bool} :
    (source, target, red) ∈ dotEdges g name ↔ ∃ u v, Includes g u v ∧ name u = source ∧
      name v = target ∧ (red = true ↔ Relation.ReflTransGen (Includes g) v u) := by
  have hany : ∀ {u v}, Includes g u v →
      (((findAllCycles g).any fun cycle => decide (u ∈ cycle ∧ v ∈ cycle)) = true ↔
        Relation.ReflTransGen (Includes g) v u) := fun huv => by
    rw [List.any_eq_true, ← found_edge_iff_reach huv]
    simp only [decide_eq_true_eq]
  simp only [dotEdges, List.mem_flatMap, List.mem_map, Prod.mk.injEq]
  constructor
  · rintro ⟨⟨k, ts⟩, he, t, ht, rfl, rfl, rfl⟩
    have hkt : Includes g k t := by
      rw [Includes, succ, PyDict.find?_eq_some_iff.mpr he]; exact ht
    exact ⟨k, t, hkt, rfl, rfl, hany hkt⟩
  · rintro ⟨u, v, huv, rfl, rfl, hred⟩
    have hv := huv
    rw [Includes, succ] at hv
    cases h : g.find? u with
    | none => rw [h] at hv; cases hv
    | some ts =>
      rw [h] at hv
      exact ⟨(u, ts), PyDict.find?_eq_some_iff.mp h, v, hv, rfl, rfl,
        Bool.eq_iff_iff.mpr ((hany huv).trans hred.symm)⟩

end Dot

/-- The text `generate_dot_graph` writes to `dependencies.dot`, each node
labelled by its file name. -/
def generateDotGraph (g : Graph String) : String :=
  "digraph includes \x7b\n" ++ "  rankdir=LR;\n" ++ "  node [shape=box];\n\n" ++
    String.join ((dotNodeLabels g baseName).map fun label =>
      "  \"" ++ label ++ "\" [color=red,style=filled,fillcolor=lightpink];\n") ++ "\n" ++
    String.join ((dotEdges g baseName).map fun edge =>
      "  \"" ++ edge.1 ++ "\" -> \"" ++ edge.2.1 ++ "\" [color=" ++
        (if edge.2.2 then "red" else "black") ++ "];\n") ++ "\x7d\n"

/-- `generate_dot_graph` labels each node by its file name. A label is written
red exactly when some file of that name includes itself through a chain, and an
edge statement between two labels is written exactly for the includes between
files of those names, red exactly when the include lies on a cycle: its target
includes its source back through a chain. Files that share a name share a
label, so a file on no cycle is drawn red when a namesake lies on one. -/
theorem generateDotGraph_marks_cycles (g : Graph String) :
    (∀ label, label ∈ dotNodeLabels g baseName ↔
      ∃ x, baseName x = label ∧ Relation.TransGen (Includes g) x x) ∧
      ∀ source target red, (source, target, red) ∈ dotEdges g baseName ↔
        ∃ u v, Includes g u v ∧ baseName u = source ∧ baseName v = target ∧
          (red = true ↔ Relation.ReflTransGen (Includes g) v u) :=
  ⟨fun _ => mem_dotNodeLabels, fun _ _ _ => mem_dotEdges⟩

section Specific

variable {α : Type} [LinearOrder α] (g : Graph α)

/-- The cycles `check_specific_file` prints for `target_file`: each found cycle
through it, rotated by `cycle[start_idx:] + cycle[:start_idx]` to start there. -/
def cyclesThrough (target : α) : List (List α) :=
  ((findAllCycles g).filter fun cycle => target ∈ cycle).map fun cycle =>
    cycle.drop (cycle.indexOf target) ++ cycle.take (cycle.indexOf target)

variable {g}

theorem rotated_eq {target : α} {d : List α} (ht : target ∈ d) :
    d.drop (d.indexOf target) ++ d.take (d.indexOf target) = d.rotate (d.indexOf target) ∧
      (d.rotate (d.indexOf target)).head? = some target := by
  rw [List.rotate_eq_drop_append_take List.indexOf_le_length, ← List.rotate_eq_drop_append_take
    List.indexOf_le_length, rotate_indexOf ht]
  exact ⟨rfl, rfl⟩

theorem mem_cyclesThrough_iff {target : α} {c : List α} :
    c ∈ cyclesThrough g target ↔ IsCycle g c ∧ c.head? = some target := by
  simp only [cyclesThrough, List.mem_map, List.mem_filter, decide_eq_true_eq]
  constructor
  · rintro ⟨d, ⟨hd, ht⟩, rfl⟩
    rw [(rotated_eq ht).1]
    exact ⟨(isCycle_of_mem_findAllCycles hd).1.rotate _, (rotated_eq ht).2⟩
  · rintro ⟨hc, hh⟩
    obtain ⟨d, hd, k, rfl⟩ := exists_mem_findAllCycles hc
    have ht : target ∈ d := List.mem_rotate.mp (List.mem_of_mem_head? hh)
    refine ⟨d, ⟨hd, ht⟩, ?_⟩
    rw [(rotated_eq ht).1]
    exact rotate_eq_of_head?_eq (isCycle_of_mem_findAllCycles hd).1.nodup
      ((rotated_eq ht).2.trans hh.symm)

theorem cyclesThrough_nodup (target : α) : (cyclesThrough g target).Nodup := by
  refine ((findAllCycles_mem g).1.filter _).map_on fun d₁ h₁ d₂ h₂ he => ?_
  simp only [List.mem_filter, decide_eq_true_eq] at h₁ h₂
  rw [(rotated_eq h₁.2).1, (rotated_eq h₂.2).1] at he
  refine found_eq_of_isRotated h₁.1 h₂.1
    ((List.IsRotated.forall d₁ (d₁.indexOf target)).symm.trans ?_)
  rw [he]; exact List.IsRotated.forall d₂ _

end Specific

section Pipeline

variable (root : String) (fileMap : PyDict String String) (pathExists : String → Bool)
  (disk : Finder.Disk)

/-- A discovered file `v` has an include that `resolve_include_path` resolves to `w`. -/
def ResolvedInclude (v w : String) : Prop :=
  v ∈ fileMap.entries.map Prod.snd ∧
    ∃ inc ∈ extractIncludes disk v, resolveIncludePath root fileMap pathExists inc v = some w

/-- The include `print_cycles` shows for the step `current → next`: the first
include of `current` that `resolve_include_path` resolves to `next`. -/
def causingInclude (current next : String) : Option String :=
  (extractIncludes disk current).find? fun inc =>
    resolveIncludePath root fileMap pathExists inc current = some next

/-- What `print_cycles` and `check_specific_file` print for one cycle: for each
`i`, `cycle[i]`, `cycle[(i + 1) % len(cycle)]` and the include between them. -/
def explainCycle (cycle : List String) : List (String × String × Option String) :=
  (List.range cycle.length).map fun i =>
    (cycle.getD i "", cycle.getD ((i + 1) % cycle.length) "",
      causingInclude root fileMap pathExists disk (cycle.getD i "")
        (cycle.getD ((i + 1) % cycle.length) ""))

/-- `check_specific_file(filename)`: the first `file_map` value, in dict order,
whose string contains `filename`, and the cycles through it. -/
def checkSpecificFile (g : Graph String) (filename : String) :
    Option (String × List (List String)) :=
  (fileMap.entries.find? fun entry => contains entry.2 filename).map fun entry =>
    (entry.2, cyclesThrough g entry.2)

/-- `check_specific_file` reports "not found" exactly when no discovered path
contains `filename`; otherwise it picks a discovered path that contains it and
lists, once each, exactly the elementary cycles of the graph through that path,
each written from it. -/
theorem checkSpecificFile_lists_cycles_through (g : Graph String) (filename : String) :
    (checkSpecificFile fileMap g filename = none ↔
      ∀ entry ∈ fileMap.entries, contains entry.2 filename = false) ∧
      ∀ target cycles, checkSpecificFile fileMap g filename = some (target, cycles) →
        target ∈ fileMap.entries.map Prod.snd ∧ contains target filename = true ∧
          cycles.Nodup ∧ ∀ c, c ∈ cycles ↔ IsCycle g c ∧ c.head? = some target := by
  refine ⟨?_, fun target cycles h => ?_⟩
  · simp [checkSpecificFile, List.find?_eq_none]
  · obtain ⟨entry, he, hpair⟩ := Option.map_eq_some'.mp h
    cases hpair
    have hcontains := List.find?_some he
    exact ⟨List.mem_map_of_mem _ (List.mem_of_find?_eq_some he), hcontains,
      cyclesThrough_nodup _, fun _ => mem_cyclesThrough_iff⟩

theorem includes_buildDependencyGraph (ord : ValueOrder fileMap) :
    Includes (buildDependencyGraph root fileMap pathExists disk ord) =
      ResolvedInclude root fileMap pathExists disk :=
  funext₂ fun v w => propext ((buildDependencyGraph_edges root fileMap pathExists disk ord).2 v w)

variable {root fileMap pathExists disk} in
theorem explainCycle_of_isCycle {ord : ValueOrder fileMap} {cycle : List String}
    (h : IsCycle (buildDependencyGraph root fileMap pathExists disk ord) cycle) :
    ∀ step ∈ explainCycle root fileMap pathExists disk cycle, ∃ inc, step.2.2 = some inc ∧
      inc ∈ extractIncludes disk step.1 ∧
      resolveIncludePath root fileMap pathExists inc step.1 = some step.2.1 := by
  intro step hs
  obtain ⟨i, hi, rfl⟩ := List.mem_map.mp hs
  have hedge := h.includes_next "" (List.mem_range.mp hi)
  rw [includes_buildDependencyGraph] at hedge
  obtain ⟨-, inc, hinc, hres⟩ := hedge
  cases hf : causingInclude root fileMap pathExists disk (cycle.getD i "")
      (cycle.getD ((i + 1) % cycle.length) "") with
  | none => exact absurd (decide_eq_true hres) (by simpa using List.find?_eq_none.mp hf inc hinc)
  | some found =>
    rw [causingInclude] at hf
    have hres' := List.find?_some hf
    exact ⟨found, rfl, List.mem_of_find?_eq_some hf, of_decide_eq_true hres'⟩

/-- `print_cycles` and `check_specific_file` always find the include they show:
for every step of every cycle they print, the first include of the file that
resolves to the next file exists, so the search over its includes never comes
up empty. -/
theorem printCycles_explains_every_step (ord : ValueOrder fileMap) :
    (∀ cycle ∈ findAllCycles (buildDependencyGraph root fileMap pathExists disk ord),
      ∀ step ∈ explainCycle root fileMap pathExists disk cycle, ∃ inc, step.2.2 = some inc ∧
        inc ∈ extractIncludes disk step.1 ∧
        resolveIncludePath root fileMap pathExists inc step.1 = some step.2.1) ∧
      ∀ target, ∀ cycle ∈ cyclesThrough (buildDependencyGraph root fileMap pathExists disk ord) target,
        ∀ step ∈ explainCycle root fileMap pathExists disk cycle, ∃ inc, step.2.2 = some inc ∧
          inc ∈ extractIncludes disk step.1 ∧
          resolveIncludePath root fileMap pathExists inc step.1 = some step.2.1 :=
  ⟨fun _ hd => explainCycle_of_isCycle (isCycle_of_mem_findAllCycles hd).1,
    fun _ _ hc => explainCycle_of_isCycle (mem_cyclesThrough_iff.mp hc).1⟩

end Pipeline

end IncludeGraph.Circular
