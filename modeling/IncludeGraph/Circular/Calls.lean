import IncludeGraph.Circular.Elementary
import Mathlib.Data.Finset.Card

/-!
# The calls of the cycle search

`find_all_cycles` calls `find_cycles_from_node(node, set(), [])` for every key,
and a call whose `start` is not yet visited calls itself once per neighbour,
with copies of `visited` and `path` that both gained `start`. `CallMade` is that
call tree. Along it `path` is a simple path of the graph that ends with an edge
to `start`, and `visited` is its node set, so the `except ValueError` branch
never runs: a call that finds `start` visited returns one elementary cycle.

A call that recurses adds a node of the graph to `visited`, so the number of
nodes outside `visited` falls along every branch of the call tree.
`searchFrom` is the search without fuel, by recursion on that number, and the
fuel the model gives `find_cycles_from_node` never runs out before it.
-/

namespace IncludeGraph.Circular

open Py

variable {α : Type} [LinearOrder α] (g : Graph α)

/-- The calls of `find_cycles_from_node` made from `find_all_cycles`. -/
inductive CallMade : α → Finset α → List α → Prop
  | root {node : α} : node ∈ g.keys → CallMade node ∅ []
  | recurse {start neighbor : α} {visited : Finset α} {path : List α} :
      CallMade start visited path → start ∉ visited → neighbor ∈ succ g start →
      CallMade neighbor (insert start visited) (path ++ [start])

/-- Every call made keeps the invariant: `visited` is the node set of `path`,
which has no repeats, follows edges of the graph, and ends with an edge to
`start`. So a call that finds `start` visited finds it on `path`, and returns
one elementary cycle, closed by its first node: the `except` branch, which
returns no cycle, is never taken. -/
theorem callMade_keeps_invariant {start : α} {visited : Finset α} {path : List α}
    (h : CallMade g start visited path) :
    CallInv g start visited path ∧
      (start ∈ visited → start ∈ path ∧ ∃ x xs, IsCycle g (x :: xs) ∧
        ∀ fuel, cyclesFrom g (fuel + 1) start visited path = [x :: xs ++ [x]]) := by
  have inv : CallInv g start visited path := by
    induction h with
    | root _ => exact CallInv.root _
    | recurse _ hs hn ih => exact ih.descend hs hn
  refine ⟨inv, fun hs => ?_⟩
  obtain ⟨hp, x, xs, he, hcyc⟩ := inv.closes hs
  exact ⟨hp, x, xs, hcyc, fun fuel => by rw [cyclesFrom_visited g hs, if_pos hp, he]⟩

/-- Two headers, numbered `1` and `2`, that include each other. -/
def mutualInclude : Graph Nat := ⟨[(1, [2]), (2, [1])], by decide⟩

/-- The search from `1` comes back to `1` through `2`. -/
theorem callMade_keeps_invariant_mutual :
    CallMade mutualInclude 1 (insert 2 (insert 1 ∅)) [1, 2] ∧
      CallInv mutualInclude 1 (insert 2 (insert 1 ∅)) [1, 2] ∧
      (1 ∈ insert 2 (insert 1 (∅ : Finset Nat)) → 1 ∈ [1, 2] ∧
        ∃ x xs, IsCycle mutualInclude (x :: xs) ∧
          ∀ fuel, cyclesFrom mutualInclude (fuel + 1) 1 (insert 2 (insert 1 ∅)) [1, 2] =
            [x :: xs ++ [x]]) :=
  have first : CallMade mutualInclude 2 (insert 1 ∅) ([] ++ [1]) :=
    .recurse (.root (by decide)) (by decide) (by decide)
  have second : CallMade mutualInclude 1 (insert 2 (insert 1 ∅)) [1, 2] :=
    .recurse first (by decide) (by decide)
  ⟨second, callMade_keeps_invariant mutualInclude second⟩

/-- The nodes of the graph: its keys and every neighbour. -/
def nodes : Finset α := (g.keys ++ g.entries.flatMap Prod.snd).toFinset

/-- How many nodes of the graph a call's `visited` misses. -/
def unvisited (visited : Finset α) : Nat := (nodes g \ visited).card

variable {g}

theorem card_sdiff_insert_lt {s visited : Finset α} {start : α} (hs : start ∈ s)
    (hv : start ∉ visited) : (s \ insert start visited).card < (s \ visited).card := by
  rw [Finset.sdiff_insert]
  exact Finset.card_erase_lt_of_mem (Finset.mem_sdiff.mpr ⟨hs, hv⟩)

theorem keys_subset_nodes {k : α} (hk : k ∈ g.keys) : k ∈ nodes g :=
  List.mem_toFinset.mpr (List.mem_append_left _ hk)

/-- A call that recurses leaves its callees one node fewer to visit. -/
theorem unvisited_insert_lt {start neighbor : α} {visited : Finset α} (hs : start ∉ visited)
    (hn : neighbor ∈ succ g start) : unvisited g (insert start visited) < unvisited g visited :=
  card_sdiff_insert_lt (keys_subset_nodes (mem_keys_of_mem_succ g hn)) hs

variable (g)

/-- `find_cycles_from_node` without fuel, by recursion on the nodes not yet visited. -/
def searchFrom (start : α) (visited : Finset α) (path : List α) : List (List α) :=
  if start ∈ visited then
    if start ∈ path then [path.drop (path.indexOf start) ++ [start]] else []
  else
    (succ g start).attach.flatMap fun neighbor =>
      searchFrom neighbor.1 (insert start visited) (path ++ [start])
termination_by unvisited g visited
decreasing_by exact unvisited_insert_lt ‹start ∉ visited› neighbor.2

section Equations

variable {start : α} {visited : Finset α} {path : List α}

theorem searchFrom_visited (h : start ∈ visited) :
    searchFrom g start visited path =
      if start ∈ path then [path.drop (path.indexOf start) ++ [start]] else [] := by
  rw [searchFrom, if_pos h]

theorem searchFrom_fresh (h : start ∉ visited) :
    searchFrom g start visited path =
      (succ g start).flatMap fun neighbor =>
        searchFrom g neighbor (insert start visited) (path ++ [start]) := by
  rw [searchFrom, if_neg h, List.flatMap_def, List.flatMap_def,
    List.attach_map_val (succ g start) fun neighbor =>
      searchFrom g neighbor (insert start visited) (path ++ [start])]

end Equations

/-- Fuel beyond the number of keys outside `visited` is enough: only a key
recurses, and each recursion visits a new one. -/
theorem cyclesFrom_eq_searchFrom {s : Finset α} (hs : ∀ k ∈ g.keys, k ∈ s) :
    ∀ (fuel : Nat) (start : α) (visited : Finset α) (path : List α),
      (s \ visited).card < fuel → cyclesFrom g fuel start visited path = searchFrom g start visited path
  | 0, _, _, _, h => absurd h (Nat.not_lt_zero _)
  | fuel + 1, start, visited, path, h => by
    by_cases hv : start ∈ visited
    · rw [cyclesFrom_visited g hv, searchFrom_visited g hv]
    · rw [cyclesFrom_fresh g hv, searchFrom_fresh g hv]
      refine List.flatMap_congr fun neighbor hn => cyclesFrom_eq_searchFrom hs fuel neighbor _ _ ?_
      have := card_sdiff_insert_lt (hs _ (mem_keys_of_mem_succ g hn)) hv
      omega

/-- `find_cycles_from_node` terminates on every graph, from every `start`,
`visited` and `path`: a call recurses only when `start` is not visited, and then
each callee has one node fewer outside `visited`; the model's fuel
`len(include_graph) + 1` never runs out, and it computes the recursion without
fuel. -/
theorem findCyclesFromNode_terminates (start : α) (visited : Finset α) (path : List α) :
    (∀ neighbor ∈ succ g start, start ∉ visited →
      unvisited g (insert start visited) < unvisited g visited) ∧
      findCyclesFromNode g start visited path = searchFrom g start visited path := by
  refine ⟨fun _ hn hs => unvisited_insert_lt hs hn, ?_⟩
  have hle : (g.keys.toFinset \ visited).card ≤ g.size :=
    (Finset.card_le_card Finset.sdiff_subset).trans
      ((List.toFinset_card_le g.keys).trans (List.length_map _ _).le)
  exact cyclesFrom_eq_searchFrom g (fun k hk => List.mem_toFinset.mpr hk) _ _ _ _ (by omega)

end IncludeGraph.Circular
