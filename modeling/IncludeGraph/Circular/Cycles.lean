import IncludeGraph.Python.Dict
import IncludeGraph.Python.Str
import Mathlib.Data.List.Rotate
import Mathlib.Data.List.Chain
import Mathlib.Data.Finset.Basic

/-!
# Cycle enumeration of `check_circular.py`

`find_cycles_from_node` is a depth-first search that hands a copy of `visited`
and `path` to every recursive call, so each call sees exactly the nodes of its
own path: the search enumerates the simple paths from its root, and each edge
back into the path closes one elementary cycle. `find_all_cycles` runs it from
every key of `include_graph` and keeps one representative per cycle, the
rotation that starts at the least node.

The graph maps each node to its neighbour set. Neither the dict nor the sets
iterate in an order the code controls, so a neighbour set is a list here and
every result holds for every order. Nodes are compared by `str`; here by a
linear order on the node type.

The recursion runs on fuel `len(include_graph) + 1`. A call that recurses adds
its node to `visited`, and only a key has neighbours, so no branch makes more
than `len(include_graph)` such calls before one that returns.
-/

namespace IncludeGraph.Circular

open Py

/-- `include_graph`: each node's neighbour set, in iteration order. -/
abbrev Graph (α : Type) := PyDict α (List α)

variable {α : Type} [LinearOrder α]

/-- `include_graph.get(v, [])`. -/
def succ (g : Graph α) (v : α) : List α := (g.find? v).getD []

/-- `find_cycles_from_node(start, visited, path)` with `fuel` calls left. -/
def cyclesFrom (g : Graph α) : Nat → α → Finset α → List α → List (List α)
  | 0, _, _, _ => []
  | fuel + 1, start, visited, path =>
    if start ∈ visited then
      -- `path.index(start)`; the `except ValueError` branch is `start ∉ path`
      if start ∈ path then [path.drop (path.indexOf start) ++ [start]] else []
    else
      (succ g start).flatMap fun neighbor =>
        cyclesFrom g fuel neighbor (insert start visited) (path ++ [start])

/-- `find_cycles_from_node`. -/
def findCyclesFromNode (g : Graph α) (start : α) (visited : Finset α) (path : List α) :
    List (List α) :=
  cyclesFrom g (g.size + 1) start visited path

/-- The normalisation of a found cycle, which repeats its first node at the end:
`cycle[min_idx:-1] + cycle[:min_idx]`, where `min_idx` is the first index of
`min(cycle, key=str)`. -/
def normalize (cycle : List α) : List α :=
  match minBy id cycle with
  | some m => cycle.dropLast.drop (cycle.indexOf m) ++ cycle.take (cycle.indexOf m)
  | none => []

/-- One turn of the inner loop of `find_all_cycles`, on `(all_cycles, checked_cycles)`. -/
def addCycle (acc : List (List α) × Finset (List α)) (cycle : List α) :
    List (List α) × Finset (List α) :=
  if cycle = [] then acc
  else if normalize cycle ∈ acc.2 then acc
  else (acc.1 ++ [normalize cycle], insert (normalize cycle) acc.2)

/-- `find_all_cycles()`. -/
def findAllCycles (g : Graph α) : List (List α) :=
  (g.keys.foldl (fun acc node => (findCyclesFromNode g node ∅ []).foldl addCycle acc) ([], ∅)).1

/-- `1 ⇄ 2`, `2 → 3` and a self-include of `3`: the search from each key finds
`1 → 2 → 1` twice, once from either end, and both normalise to `[1, 2]`. -/
example : findAllCycles (⟨[(1, [2]), (2, [1, 3]), (3, [3])], by decide⟩ : Graph Nat) =
    [[1, 2], [3]] := by
  decide

section Equations

variable (g : Graph α) {start : α} {visited : Finset α} {path : List α} {fuel : Nat}

theorem cyclesFrom_visited (h : start ∈ visited) :
    cyclesFrom g (fuel + 1) start visited path =
      if start ∈ path then [path.drop (path.indexOf start) ++ [start]] else [] := by
  simp [cyclesFrom, h]

theorem cyclesFrom_fresh (h : start ∉ visited) :
    cyclesFrom g (fuel + 1) start visited path =
      (succ g start).flatMap fun neighbor =>
        cyclesFrom g fuel neighbor (insert start visited) (path ++ [start]) := by
  simp [cyclesFrom, h]

/-- Only a key has neighbours. -/
theorem mem_keys_of_mem_succ {v w : α} (h : w ∈ succ g v) : v ∈ g.keys := by
  rw [PyDict.mem_keys_iff_find?]
  cases hv : g.find? v with
  | none => simp [succ, hv] at h
  | some _ => rfl

end Equations

end IncludeGraph.Circular
