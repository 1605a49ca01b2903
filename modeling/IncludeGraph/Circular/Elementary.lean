import IncludeGraph.Circular.Cycles
import Mathlib.Data.String.Basic

/-!
# The cycle search reports each elementary cycle once

An elementary cycle is a list of distinct nodes, each with an edge to the next
and the last with an edge back to the first; its rotations are the same cycle.
Every call of the search receives, as `visited`, the node set of a simple path
that ends with an edge to `start`, so each list it returns closes an elementary
cycle. From the first node of any elementary cycle the search follows the
cycle's edges and closes it. Normalising rotates a closed cycle to its least
node, so the dedup in `find_all_cycles` leaves exactly one list per cycle.
-/

namespace IncludeGraph.Circular

open Py

variable {α : Type} [LinearOrder α] {g : Graph α}

/-- An elementary cycle: distinct nodes, each with an edge to the next and the
last with one back to the first. A self-include is a cycle of one node. -/
def IsCycle (g : Graph α) : List α → Prop
  | [] => False
  | x :: xs => (x :: xs).Nodup ∧ List.Chain (fun a b => b ∈ succ g a) x (xs ++ [x])

/-- The list starts at its least node. -/
def StartsAtMin : List α → Prop
  | [] => False
  | x :: xs => ∀ y ∈ xs, x ≤ y

@[simp] theorem startsAtMin_cons (x : α) (xs : List α) :
    StartsAtMin (x :: xs) ↔ ∀ y ∈ xs, x ≤ y := Iff.rfl

/-- Rotating a list to one of its members brings that member to the front. -/
theorem rotate_indexOf {v : α} {c : List α} (h : v ∈ c) :
    c.rotate (c.indexOf v) = v :: (c.drop (c.indexOf v + 1) ++ c.take (c.indexOf v)) := by
  have hi := List.indexOf_lt_length.mpr h
  rw [List.rotate_eq_drop_append_take hi.le, List.drop_eq_getElem_cons hi, List.getElem_indexOf hi,
    List.cons_append]

theorem IsCycle.rotate_one {c : List α} (h : IsCycle g c) : IsCycle g (c.rotate 1) := by
  match c, h with
  | [_], h => rwa [List.rotate_singleton]
  | x :: y :: ys, ⟨hnd, hch⟩ =>
    have hnd' := (List.nodup_rotate (n := 1)).mpr hnd
    rw [List.rotate_cons_succ, List.rotate_zero, List.cons_append] at hnd' ⊢
    rw [List.cons_append, List.chain_cons] at hch
    refine ⟨hnd', ?_⟩
    rw [List.append_assoc, List.singleton_append]
    exact List.chain_split.mpr ⟨hch.2, List.chain_singleton.mpr hch.1⟩

/-- A rotation of a cycle is the same cycle. -/
theorem IsCycle.rotate {c : List α} (h : IsCycle g c) : ∀ n, IsCycle g (c.rotate n)
  | 0 => by rwa [List.rotate_zero]
  | n + 1 => by rw [← List.rotate_rotate]; exact (h.rotate n).rotate_one

/-- Every node of a cycle has an edge, so it is a key of the graph. -/
theorem IsCycle.mem_keys {c : List α} (h : IsCycle g c) {v : α} (hv : v ∈ c) : v ∈ g.keys := by
  have hr := h.rotate (c.indexOf v)
  rw [rotate_indexOf hv] at hr
  cases hrest : c.drop (c.indexOf v + 1) ++ c.take (c.indexOf v) with
  | nil =>
    rw [hrest] at hr
    exact mem_keys_of_mem_succ g (List.chain_singleton.mp hr.2)
  | cons w _ =>
    rw [hrest] at hr
    exact mem_keys_of_mem_succ g (List.chain_cons.mp hr.2).1

/-- Normalising a closed cycle `x :: xs ++ [x]` rotates `x :: xs` to its least node. -/
theorem normalize_closed (x : α) (xs : List α) :
    ∃ n, normalize (x :: xs ++ [x]) = (x :: xs).rotate n ∧ StartsAtMin ((x :: xs).rotate n) := by
  obtain ⟨m, hm⟩ := Option.isSome_iff_exists.mp (minBy_isSome id (by simp : x :: xs ++ [x] ≠ []))
  obtain ⟨hmem, hmin⟩ := minBy_spec id hm
  have hm' : m ∈ x :: xs := (List.mem_append.mp hmem).elim id fun h =>
    (List.mem_singleton.mp h) ▸ List.mem_cons_self x xs
  have hi := List.indexOf_lt_length.mpr hm'
  refine ⟨(x :: xs).indexOf m, ?_, ?_⟩
  · simp only [normalize, hm, List.indexOf_append_of_mem hm', List.dropLast_concat,
      List.take_append_of_le_length hi.le]
    exact (List.rotate_eq_drop_append_take hi.le).symm
  · rw [rotate_indexOf hm', startsAtMin_cons]
    intro y hy
    have hy' : y ∈ x :: xs := (List.mem_append.mp hy).elim List.mem_of_mem_drop List.mem_of_mem_take
    exact hmin y (List.mem_append_left _ hy')

/-- The same for a list closed by its first node, written `x + x[:1]`. -/
theorem normalize_append_take_one {x : List α} (hx : x ≠ []) :
    ∃ n, normalize (x ++ x.take 1) = x.rotate n ∧ StartsAtMin (x.rotate n) := by
  obtain ⟨a, as, rfl⟩ := List.exists_cons_of_ne_nil hx
  simpa using normalize_closed a as

theorem StartsAtMin.head_le {l : List α} (h : StartsAtMin l) (hl : 0 < l.length) {y : α}
    (hy : y ∈ l) : l[0] ≤ y := by
  cases l with
  | nil => cases h
  | cons x xs => exact (List.mem_cons.mp hy).elim (fun e => e ▸ le_rfl) (h y)

/-- A list of distinct nodes has one rotation that starts at its least node. -/
theorem rotate_eq_of_startsAtMin {l : List α} (hnd : l.Nodup) {i j : Nat}
    (hi : StartsAtMin (l.rotate i)) (hj : StartsAtMin (l.rotate j)) : l.rotate i = l.rotate j := by
  have hl : 0 < l.length := List.length_pos.mpr fun e => by simp [e, StartsAtMin] at hi
  have hi' : 0 < (l.rotate i).length := by rwa [List.length_rotate]
  have hj' : 0 < (l.rotate j).length := by rwa [List.length_rotate]
  have heads : (l.rotate i)[0] = (l.rotate j)[0] :=
    le_antisymm (hi.head_le hi' (List.mem_rotate.mpr (List.mem_rotate.mp (List.getElem_mem hj'))))
      (hj.head_le hj' (List.mem_rotate.mpr (List.mem_rotate.mp (List.getElem_mem hi'))))
  rw [List.getElem_rotate, List.getElem_rotate, hnd.getElem_inj_iff, Nat.zero_add, Nat.zero_add]
    at heads
  rw [← List.rotate_mod l i, heads, List.rotate_mod]

/-- Normalisation does not depend on where the search entered a cycle: every
rotation of a list of distinct nodes, closed by its first node, normalises to
the same list, the rotation that starts at the least node. -/
theorem normalize_rotation_invariant (x y : List α) (hx : x ≠ []) (hnd : x.Nodup) (hy : y ~r x) :
    normalize (y ++ y.take 1) = normalize (x ++ x.take 1) ∧
      ∃ n, normalize (x ++ x.take 1) = x.rotate n ∧ StartsAtMin (x.rotate n) := by
  obtain ⟨k, rfl⟩ := hy.symm
  obtain ⟨n, hn, hmin⟩ := normalize_append_take_one hx
  obtain ⟨m, hm, hmin'⟩ := normalize_append_take_one (x := x.rotate k) (by simpa using hx)
  rw [List.rotate_rotate] at hm hmin'
  exact ⟨by rw [hm, hn, rotate_eq_of_startsAtMin hnd hmin' hmin], n, hn, hmin⟩

theorem normalize_rotation_invariant_paths :
    (["/r/b.h", "/r/a.h", "/r/c.h"] ≠ [] ∧ ["/r/b.h", "/r/a.h", "/r/c.h"].Nodup ∧
        ["/r/c.h", "/r/b.h", "/r/a.h"] ~r ["/r/b.h", "/r/a.h", "/r/c.h"]) ∧
      normalize (["/r/c.h", "/r/b.h", "/r/a.h"] ++ ["/r/c.h", "/r/b.h", "/r/a.h"].take 1) =
          normalize (["/r/b.h", "/r/a.h", "/r/c.h"] ++ ["/r/b.h", "/r/a.h", "/r/c.h"].take 1) ∧
        ∃ n, normalize (["/r/b.h", "/r/a.h", "/r/c.h"] ++ ["/r/b.h", "/r/a.h", "/r/c.h"].take 1) =
            ["/r/b.h", "/r/a.h", "/r/c.h"].rotate n ∧
          StartsAtMin (["/r/b.h", "/r/a.h", "/r/c.h"].rotate n) :=
  ⟨⟨by decide, by decide, ⟨1, rfl⟩⟩,
    normalize_rotation_invariant _ _ (by decide) (by decide) ⟨1, rfl⟩⟩

/-- The cycle `3 → 2 → 1 → 3`, entered at `3`, is written from `1`. -/
example : normalize [3, 2, 1, 3] = [1, 3, 2] := by
  decide

/-- What each call of the search receives: `visited` is the node set of `path`,
a simple path that ends with an edge to `start`. -/
structure CallInv (g : Graph α) (start : α) (visited : Finset α) (path : List α) : Prop where
  visited_eq : visited = path.toFinset
  nodup : path.Nodup
  chain : (path ++ [start]).Chain' fun a b => b ∈ succ g a

theorem CallInv.root (start : α) : CallInv g start ∅ [] :=
  ⟨by simp, List.nodup_nil, List.chain'_singleton _⟩

/-- The arguments of a recursive call keep the invariant. -/
theorem CallInv.descend {start neighbor : α} {visited : Finset α} {path : List α}
    (inv : CallInv g start visited path) (hs : start ∉ visited) (hn : neighbor ∈ succ g start) :
    CallInv g neighbor (insert start visited) (path ++ [start]) := by
  have hp : start ∉ path := by rwa [inv.visited_eq, List.mem_toFinset] at hs
  refine ⟨?_, List.nodup_append.mpr ⟨inv.nodup, List.nodup_singleton _,
    List.disjoint_singleton.mpr hp⟩, List.chain'_append.mpr ⟨inv.chain, List.chain'_singleton _, ?_⟩⟩
  · rw [inv.visited_eq]; ext v; simp [or_comm]
  · simpa using hn

/-- A call that finds `start` visited finds it on its path, and the path from
there, closed by `start`, is an elementary cycle. -/
theorem CallInv.closes {start : α} {visited : Finset α} {path : List α}
    (inv : CallInv g start visited path) (hs : start ∈ visited) :
    start ∈ path ∧ ∃ x xs, path.drop (path.indexOf start) ++ [start] = x :: xs ++ [x] ∧
      IsCycle g (x :: xs) := by
  have hp : start ∈ path := by rwa [inv.visited_eq, List.mem_toFinset] at hs
  have hi := List.indexOf_lt_length.mpr hp
  have hdrop : path.drop (path.indexOf start) = start :: path.drop (path.indexOf start + 1) := by
    rw [List.drop_eq_getElem_cons hi, List.getElem_indexOf hi]
  refine ⟨hp, start, path.drop (path.indexOf start + 1), by rw [hdrop], ?_, ?_⟩
  · rw [← hdrop]; exact inv.nodup.sublist (List.drop_sublist _ _)
  · have := inv.chain.drop (path.indexOf start)
    rwa [List.drop_append_of_le_length hi.le, hdrop, List.cons_append] at this

/-- Every list a call returns is an elementary cycle closed by its first node. -/
theorem cyclesFrom_sound : ∀ (fuel : Nat) {start : α} {visited : Finset α} {path : List α},
    CallInv g start visited path → ∀ c ∈ cyclesFrom g fuel start visited path,
      ∃ x xs, c = x :: xs ++ [x] ∧ IsCycle g (x :: xs)
  | 0, _, _, _, _, c, hc => by cases hc
  | fuel + 1, start, visited, path, inv, c, hc => by
    by_cases hs : start ∈ visited
    · obtain ⟨hp, hcyc⟩ := inv.closes hs
      rw [cyclesFrom_visited g hs, if_pos hp, List.mem_singleton] at hc
      exact hc ▸ hcyc
    · rw [cyclesFrom_fresh g hs, List.mem_flatMap] at hc
      obtain ⟨neighbor, hn, hc⟩ := hc
      exact cyclesFrom_sound fuel (inv.descend hs hn) c hc

/-- The search follows every simple continuation `q` of its path whose last edge
leads back into the path, and returns the cycle that edge closes. -/
theorem mem_cyclesFrom {t : α} : ∀ (q : List α) (fuel : Nat) (start : α) (visited : Finset α)
    (path : List α), q.length + 2 ≤ fuel → visited = path.toFinset → (path ++ start :: q).Nodup →
    List.Chain (fun a b => b ∈ succ g a) start (q ++ [t]) → t ∈ path ++ start :: q →
    (path ++ start :: q).drop ((path ++ start :: q).indexOf t) ++ [t] ∈
      cyclesFrom g fuel start visited path
  | [], 0, _, _, _, hf, _, _, _, _ | [], 1, _, _, _, hf, _, _, _, _ => by simp at hf
  | _ :: _, 0, _, _, _, hf, _, _, _, _ => by simp at hf
  | [], fuel + 2, start, visited, path, _, hv, hnd, hch, ht => by
    have hs : start ∉ visited := by
      rw [hv, List.mem_toFinset]; exact fun h => (List.nodup_append.mp hnd).2.2 h (List.mem_singleton_self _)
    rw [cyclesFrom_fresh g hs, List.mem_flatMap]
    refine ⟨t, List.chain_singleton.mp hch, ?_⟩
    rw [cyclesFrom_visited g (by rw [hv]; simpa [or_comm] using ht), if_pos ht]
    exact List.mem_singleton_self _
  | q₁ :: q, fuel + 1, start, visited, path, hf, hv, hnd, hch, ht => by
    have hs : start ∉ visited := by
      rw [hv, List.mem_toFinset]; exact fun h => (List.nodup_append.mp hnd).2.2 h (List.mem_cons_self _ _)
    rw [List.cons_append, List.chain_cons] at hch
    have e : path ++ [start] ++ q₁ :: q = path ++ start :: q₁ :: q := by simp
    have := mem_cyclesFrom q fuel q₁ (insert start visited) (path ++ [start]) (by simp at hf; omega)
      (by rw [hv]; ext v; simp [or_comm]) (e ▸ hnd) hch.2 (e ▸ ht)
    rw [cyclesFrom_fresh g hs, List.mem_flatMap]
    exact ⟨q₁, hch.1, e ▸ this⟩

/-- From the first node of an elementary cycle, the search returns the cycle closed. -/
theorem closed_mem_findCyclesFromNode {x : α} {xs : List α} (h : IsCycle g (x :: xs)) :
    x :: xs ++ [x] ∈ findCyclesFromNode g x ∅ [] := by
  have hlen : (x :: xs).length ≤ g.keys.length :=
    (h.1.subperm fun _ hv => h.mem_keys hv).length_le
  have hsize : g.keys.length = g.size := List.length_map _ _
  have hfuel : xs.length + 2 ≤ g.size + 1 := by
    rw [List.length_cons] at hlen; omega
  have := mem_cyclesFrom (g := g) (t := x) xs (g.size + 1) x ∅ [] hfuel (by simp)
    (by simpa using h.1) h.2 (by simp)
  simpa using this

/-- What `find_all_cycles` keeps in `all_cycles` and `checked_cycles`. -/
structure Dedup (acc : List (List α) × Finset (List α)) : Prop where
  nodup : acc.1.Nodup
  checked : ∀ d, d ∈ acc.2 ↔ d ∈ acc.1

theorem addCycle_spec {acc : List (List α) × Finset (List α)} (h : Dedup acc) (c : List α) :
    Dedup (addCycle acc c) ∧
      ∀ d, d ∈ (addCycle acc c).1 ↔ d ∈ acc.1 ∨ (c ≠ [] ∧ normalize c = d) := by
  unfold addCycle
  split_ifs with h0 h1
  · simp [h, h0]
  · rw [h.checked] at h1
    exact ⟨h, fun d => ⟨Or.inl, fun hd => hd.elim id fun ⟨_, e⟩ => e ▸ h1⟩⟩
  · rw [h.checked] at h1
    refine ⟨⟨List.nodup_append.mpr ⟨h.nodup, List.nodup_singleton _,
      List.disjoint_singleton.mpr h1⟩, fun d => ?_⟩, fun d => ?_⟩
    · simp [h.checked, or_comm]
    · simp [h0, eq_comm]

theorem foldl_addCycle : ∀ (cycles : List (List α)) (acc : List (List α) × Finset (List α)),
    Dedup acc → Dedup (cycles.foldl addCycle acc) ∧
      ∀ d, d ∈ (cycles.foldl addCycle acc).1 ↔ d ∈ acc.1 ∨ ∃ c ∈ cycles, c ≠ [] ∧ normalize c = d
  | [], _, h => ⟨h, by simp⟩
  | c :: cs, acc, h => by
    obtain ⟨h₁, mem₁⟩ := addCycle_spec h c
    obtain ⟨h₂, mem₂⟩ := foldl_addCycle cs _ h₁
    refine ⟨h₂, fun d => ?_⟩
    rw [List.foldl_cons, mem₂, mem₁]
    simp only [List.mem_cons, exists_eq_or_imp, or_assoc]

/-- The result of `find_all_cycles`: no repeats, and exactly the normalisations
of the non-empty lists the search returns from some key. -/
theorem findAllCycles_mem (g : Graph α) :
    (findAllCycles g).Nodup ∧ ∀ d, d ∈ findAllCycles g ↔
      ∃ node ∈ g.keys, ∃ c ∈ findCyclesFromNode g node ∅ [], c ≠ [] ∧ normalize c = d := by
  have e : findAllCycles g =
      ((g.keys.map fun node => findCyclesFromNode g node ∅ []).flatten.foldl addCycle ([], ∅)).1 := by
    rw [List.foldl_flatten, List.foldl_map]; rfl
  obtain ⟨h, mem⟩ := foldl_addCycle (g.keys.map fun node => findCyclesFromNode g node ∅ []).flatten
    ([], ∅) ⟨List.nodup_nil, by simp⟩
  refine ⟨e ▸ h.nodup, fun d => ?_⟩
  rw [e, mem]
  simp only [List.not_mem_nil, false_or, List.mem_flatten, List.mem_map]
  constructor
  · rintro ⟨c, ⟨_, ⟨node, hn, rfl⟩, hc⟩, hne, rfl⟩
    exact ⟨node, hn, c, hc, hne, rfl⟩
  · rintro ⟨node, hn, c, hc, hne, rfl⟩
    exact ⟨c, ⟨_, ⟨node, hn, rfl⟩, hc⟩, hne, rfl⟩

/-- `find_all_cycles` lists, without repeats, exactly the elementary cycles of
the graph up to rotation, each written from its least node. It does so for
every iteration order of the dict and of the neighbour sets. -/
theorem findAllCycles_elementary_cycles (g : Graph α) :
    (findAllCycles g).Nodup ∧
      (∀ d ∈ findAllCycles g, IsCycle g d ∧ StartsAtMin d) ∧
      ∀ c, IsCycle g c → ∃ d ∈ findAllCycles g, d ~r c ∧ StartsAtMin d := by
  obtain ⟨hnd, mem⟩ := findAllCycles_mem g
  refine ⟨hnd, fun d hd => ?_, fun c hc => ?_⟩
  · obtain ⟨node, -, c, hc, -, rfl⟩ := (mem d).mp hd
    obtain ⟨x, xs, rfl, hcyc⟩ := cyclesFrom_sound _ (CallInv.root node) c hc
    obtain ⟨n, hn, hmin⟩ := normalize_closed x xs
    exact hn ▸ ⟨hcyc.rotate n, hmin⟩
  · match c, hc with
    | x :: xs, hc =>
      obtain ⟨n, hn, hmin⟩ := normalize_closed x xs
      refine ⟨_, (mem _).mpr ⟨x, hc.mem_keys (List.mem_cons_self x xs), _,
        closed_mem_findCyclesFromNode hc, by simp, rfl⟩, ?_⟩
      rw [hn]
      exact ⟨List.IsRotated.forall (x :: xs) n, hmin⟩

end IncludeGraph.Circular
