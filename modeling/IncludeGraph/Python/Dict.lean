import Mathlib.Data.List.Perm.Basic
import Mathlib.Data.List.Nodup

/-!
# Insertion-ordered dictionaries

A Python `dict` iterates its keys in insertion order, and assigning to a key
that is already present keeps its position. `PyDict` is an association list
whose keys carry their own `Nodup` proof, so no operation can produce a dict
with a repeated key.

`modify` is the in-place update `d[k].field = v` on a present key. On an absent
key Python raises `KeyError`; every caller below writes only keys that are
present, which the invariants of the callers prove, and `modify` leaves the
dict unchanged there.
-/

namespace IncludeGraph.Py

/-- A `dict` with its keys in iteration order. -/
structure PyDict (κ ν : Type) where
  entries : List (κ × ν)
  nodup : (entries.map Prod.fst).Nodup

namespace PyDict

variable {κ ν : Type}

/-- The empty dict `{}`. -/
def empty : PyDict κ ν := ⟨[], List.nodup_nil⟩

/-- Iteration order: `list(d)`. -/
def keys (d : PyDict κ ν) : List κ := d.entries.map Prod.fst

/-- `len(d)`. -/
def size (d : PyDict κ ν) : Nat := d.entries.length

theorem nodup_keys (d : PyDict κ ν) : d.keys.Nodup := d.nodup

private theorem map_fst_map_snd (f : κ → ν → ν) (l : List (κ × ν)) :
    (l.map fun e => (e.1, f e.1 e.2)).map Prod.fst = l.map Prod.fst := by
  simp only [List.map_map]; rfl

/-- Apply `f` to every value, keeping keys and order. -/
def mapVal (d : PyDict κ ν) (f : κ → ν → ν) : PyDict κ ν :=
  ⟨d.entries.map fun e => (e.1, f e.1 e.2), by rw [map_fst_map_snd]; exact d.nodup⟩

@[ext] theorem ext {d d' : PyDict κ ν} (h : d.entries = d'.entries) : d = d' := by
  cases d; cases d'; cases h; rfl

@[simp] theorem keys_mapVal (d : PyDict κ ν) (f : κ → ν → ν) :
    (d.mapVal f).keys = d.keys := map_fst_map_snd f d.entries

variable [DecidableEq κ]

/-- `d.get(k)`. -/
def find? (d : PyDict κ ν) (k : κ) : Option ν := d.entries.lookup k

/-- The in-place update of the value stored at `k`. -/
def modify (d : PyDict κ ν) (k : κ) (f : ν → ν) : PyDict κ ν :=
  d.mapVal fun k' v => if k' = k then f v else v

/-- `d[k] = v`: replace in place, or append a new key. -/
def insert (d : PyDict κ ν) (k : κ) (v : ν) : PyDict κ ν :=
  if h : k ∈ d.keys then d.modify k fun _ => v
  else ⟨d.entries ++ [(k, v)], by
    rw [List.map_append, List.nodup_append]
    exact ⟨d.nodup, List.nodup_singleton _, List.disjoint_singleton.mpr h⟩⟩

@[simp] theorem keys_modify (d : PyDict κ ν) (k : κ) (f : ν → ν) :
    (d.modify k f).keys = d.keys := keys_mapVal _ _

theorem mem_keys_iff_find? {d : PyDict κ ν} {k : κ} : k ∈ d.keys ↔ (d.find? k).isSome := by
  simp only [keys, find?]
  induction d.entries with
  | nil => simp
  | cons e es ih =>
    obtain ⟨a, b⟩ := e
    by_cases h : k = a
    · subst h; simp [List.lookup_cons]
    · have hb : (k == a) = false := by simpa using h
      simp only [List.map_cons, List.mem_cons, h, false_or, List.lookup_cons, hb, ih]

theorem find?_of_mem {d : PyDict κ ν} {k : κ} (h : k ∈ d.keys) : ∃ v, d.find? k = some v :=
  Option.isSome_iff_exists.mp (mem_keys_iff_find?.mp h)

private theorem lookup_map (f : κ → ν → ν) (l : List (κ × ν)) (k : κ) :
    (l.map fun e => (e.1, f e.1 e.2)).lookup k = (l.lookup k).map (f k) := by
  induction l with
  | nil => rfl
  | cons e es ih =>
    obtain ⟨a, b⟩ := e
    by_cases h : k = a
    · subst h; simp [List.lookup_cons]
    · have hb : (k == a) = false := by simpa using h
      simp only [List.map_cons, List.lookup_cons, hb, ih]

@[simp] theorem find?_mapVal (d : PyDict κ ν) (f : κ → ν → ν) (k : κ) :
    (d.mapVal f).find? k = (d.find? k).map (f k) := lookup_map f d.entries k

theorem find?_modify (d : PyDict κ ν) (k k' : κ) (f : ν → ν) :
    (d.modify k f).find? k' = if k' = k then (d.find? k').map f else d.find? k' := by
  by_cases h : k' = k <;> simp [modify, h]

@[simp] theorem find?_modify_self (d : PyDict κ ν) (k : κ) (f : ν → ν) :
    (d.modify k f).find? k = (d.find? k).map f := by
  simp [find?_modify]

theorem find?_modify_ne (d : PyDict κ ν) {k k' : κ} (f : ν → ν) (h : k' ≠ k) :
    (d.modify k f).find? k' = d.find? k' := by
  simp [find?_modify, h]

private theorem lookup_append_singleton (l : List (κ × ν)) (k k' : κ) (v : ν)
    (h : k ∉ l.map Prod.fst) :
    (l ++ [(k, v)]).lookup k' = if k' = k then some v else l.lookup k' := by
  induction l with
  | nil =>
    by_cases e : k' = k
    · subst e; simp [List.lookup_cons]
    · have hb : (k' == k) = false := by simpa using e
      simp [List.lookup_cons, e, hb]
  | cons e es ih =>
    obtain ⟨a, b⟩ := e
    simp only [List.map_cons, List.mem_cons, not_or] at h
    by_cases ha : k' = a
    · subst ha; simp [List.lookup_cons, Ne.symm h.1]
    · have hb : (k' == a) = false := by simpa using ha
      rw [List.cons_append]
      simp only [List.lookup_cons, hb, ih h.2]

theorem find?_insert (d : PyDict κ ν) (k k' : κ) (v : ν) :
    (d.insert k v).find? k' = if k' = k then some v else d.find? k' := by
  unfold insert
  split_ifs with h e e
  · subst e
    simpa using (Option.isSome_iff_exists.mp (mem_keys_iff_find?.mp h))
  · exact find?_modify_ne d _ e
  · subst e; simpa using lookup_append_singleton d.entries k' k' v h
  · simpa [e] using lookup_append_singleton d.entries k k' v h

theorem mem_keys_insert {d : PyDict κ ν} {k k' : κ} {v : ν} :
    k' ∈ (d.insert k v).keys ↔ k' = k ∨ k' ∈ d.keys := by
  rw [mem_keys_iff_find?, mem_keys_iff_find?, find?_insert]
  by_cases e : k' = k <;> simp [e]

/-- With distinct keys, `d.get(k)` is the value stored with `k`. -/
theorem find?_eq_some_iff {d : PyDict κ ν} {k : κ} {v : ν} :
    d.find? k = some v ↔ (k, v) ∈ d.entries := by
  obtain ⟨l, hnd⟩ := d
  simp only [find?]
  induction l with
  | nil => simp [List.lookup_cons]
  | cons e es ih =>
    obtain ⟨a, b⟩ := e
    simp only [List.map_cons, List.nodup_cons] at hnd
    by_cases h : k = a
    · subst h
      have hv : (k, v) ∉ es := fun hm => hnd.1 (List.mem_map.mpr ⟨_, hm, rfl⟩)
      simp [List.lookup_cons, hv, eq_comm]
    · have hb : (k == a) = false := by simpa using h
      simp only [List.lookup_cons, hb, ih hnd.2, List.mem_cons, Prod.mk.injEq, h, false_and, false_or]

/-- Two dicts holding the same pairs in different orders answer every lookup alike. -/
theorem find?_eq_of_perm {d₁ d₂ : PyDict κ ν} (h : d₁.entries.Perm d₂.entries) (k : κ) :
    d₁.find? k = d₂.find? k :=
  Option.ext fun _ => (find?_eq_some_iff.trans h.mem_iff).trans find?_eq_some_iff.symm

end PyDict

end IncludeGraph.Py

