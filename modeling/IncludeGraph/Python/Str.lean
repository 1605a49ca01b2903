import Mathlib.Data.List.Infix
import Mathlib.Data.List.MinMax

/-!
# The `str` operations the two tools use

Python strings are sequences of code points, so every operation below works on
`String.data` by structural recursion, and small instances can be evaluated by
`decide`. Only the operations the modelled functions call are here: `strip`,
`lstrip`, `lower`, single-character `replace`, `startswith`, `endswith`,
`in` on substrings, `rfind`, and `min` with a `key`.

`lower` is modelled on ASCII letters. Every extension the tools compare against
is ASCII, and no code point outside ASCII lowers to one of their letters, so
membership tests of a lowered suffix are the same as Python's.
-/

namespace IncludeGraph.Py

/-- `str.isspace()` on one code point; `\s` in a `str` pattern matches the same set. -/
def isSpace (c : Char) : Bool :=
  let n := c.toNat
  (0x09 ≤ n && n ≤ 0x0D) || (0x1C ≤ n && n ≤ 0x20) || n == 0x85 || n == 0xA0 ||
    n == 0x1680 || (0x2000 ≤ n && n ≤ 0x200A) || n == 0x2028 || n == 0x2029 ||
    n == 0x202F || n == 0x205F || n == 0x3000

/-- `s.strip()`. -/
def strip (s : String) : String :=
  ⟨((s.data.dropWhile isSpace).reverse.dropWhile isSpace).reverse⟩

/-- `s.lstrip(chars)`: drop leading code points that occur in `chars`. -/
def lstrip (s chars : String) : String :=
  ⟨s.data.dropWhile (· ∈ chars.data)⟩

/-- `s.lower()` on ASCII letters. -/
def lower (s : String) : String :=
  ⟨s.data.map Char.toLower⟩

/-- `s.replace(old, new)` for one-character `old` and `new`. -/
def replaceChar (s : String) (old new : Char) : String :=
  ⟨s.data.map fun c => if c = old then new else c⟩

/-- `s.startswith(p)`. -/
def startswith (s p : String) : Bool :=
  p.data.isPrefixOf s.data

/-- `s.endswith(p)`. -/
def endswith (s p : String) : Bool :=
  p.data.isSuffixOf s.data

/-- `sub in s`. -/
def contains (s sub : String) : Bool :=
  decide (sub.data <:+: s.data)

/-- `sep.join(xs)`. -/
def join (sep : String) (xs : List String) : String :=
  ⟨sep.data.intercalate (xs.map String.data)⟩

theorem join_cons_ne (sep : String) {x : String} (xs : List String) (h : x ≠ "") :
    join sep (x :: xs) ≠ "" := by
  have hx : x.data ≠ [] := fun hx => h (String.ext hx)
  intro e
  have hd : (join sep (x :: xs)).data = [] := by rw [e]
  cases xs <;> simp [join, List.intercalate, hx] at hd

/-- `s.rfind(c)` for one character, `none` for Python's `-1`. -/
def rfind (c : Char) : List Char → Option Nat
  | [] => none
  | x :: xs =>
    match rfind c xs with
    | some i => some (i + 1)
    | none => if x = c then some 0 else none

/-- `min(xs, key=key)`: the first element whose key no later element beats.
Python raises on an empty iterable; the callers below never pass one. -/
def minBy {α β : Type} [LT β] [DecidableRel (α := β) (· < ·)] (key : α → β) :
    List α → Option α
  | [] => none
  | x :: xs => some (xs.foldl (fun best y => if key y < key best then y else best) x)

section MinBy

variable {α β : Type} [LinearOrder β] (key : α → β)

private theorem foldl_minBy (b : α) (ys : List α) :
    let r := ys.foldl (fun best y => if key y < key best then y else best) b
    (r = b ∨ r ∈ ys) ∧ key r ≤ key b ∧ ∀ z ∈ ys, key r ≤ key z := by
  induction ys generalizing b with
  | nil => simp
  | cons y ys ih =>
    simp only [List.foldl_cons, List.mem_cons, forall_eq_or_imp]
    by_cases h : key y < key b
    · obtain ⟨hmem, hb, hys⟩ := ih y
      rw [if_pos h]
      exact ⟨.inr hmem, hb.trans h.le, hb, hys⟩
    · obtain ⟨hmem, hb, hys⟩ := ih b
      rw [if_neg h]
      exact ⟨hmem.imp_right .inr, hb, hb.trans (not_lt.mp h), hys⟩

/-- The element `min(l, key=key)` returns is in `l` and no element has a smaller key. -/
theorem minBy_spec {l : List α} {r : α} (h : minBy key l = some r) :
    r ∈ l ∧ ∀ x ∈ l, key r ≤ key x := by
  cases l with
  | nil => cases h
  | cons x xs =>
    obtain ⟨hmem, hx, hxs⟩ := foldl_minBy key x xs
    simp only [minBy, Option.some.injEq] at h
    subst h
    exact ⟨by simpa using hmem, by simpa using And.intro hx hxs⟩

theorem minBy_isSome {l : List α} (h : l ≠ []) : (minBy key l).isSome := by
  cases l with
  | nil => exact absurd rfl h
  | cons x xs => rfl

end MinBy

@[simp] theorem replaceChar_data (s : String) (old new : Char) :
    (replaceChar s old new).data = s.data.map fun c => if c = old then new else c := rfl

theorem replaceChar_of_not_mem {s : String} {c d : Char} (h : c ∉ s.data) :
    replaceChar s c d = s :=
  String.ext ((List.map_congr_left fun x hx => if_neg fun (e : x = c) => h (e ▸ hx)).trans
    (List.map_id _))

theorem join_singleton (sep x : String) : join sep [x] = x := by
  simp [join, List.intercalate]

theorem join_cons_cons (sep x y : String) (ys : List String) :
    join sep (x :: y :: ys) = x ++ sep ++ join sep (y :: ys) := by
  apply String.ext
  simp [join, List.intercalate, List.intersperse_cons_cons]

theorem join_append_singleton (sep : String) {xs : List String} (x : String) (hxs : xs ≠ []) :
    join sep (xs ++ [x]) = join sep xs ++ sep ++ x := by
  induction xs with
  | nil => exact absurd rfl hxs
  | cons y ys ih =>
    cases ys with
    | nil => rw [List.singleton_append, join_cons_cons, join_singleton, join_singleton]
    | cons z zs =>
      rw [List.cons_append, List.cons_append, join_cons_cons, ← List.cons_append,
        ih (List.cons_ne_nil z zs), join_cons_cons]
      simp only [String.append_assoc]

/-- `sep.join(xs)` holds a character only if `sep` or some `x` does. -/
theorem not_mem_join {sep : String} {c : Char} (hsep : c ∉ sep.data) :
    ∀ {xs : List String}, (∀ x ∈ xs, c ∉ x.data) → c ∉ (join sep xs).data
  | [], _ => by simp [join, List.intercalate]
  | [x], h => by simpa [join, List.intercalate] using h
  | x :: y :: ys, h => by
    rw [join_cons_cons]
    simp only [String.data_append, List.mem_append, not_or]
    exact ⟨⟨h x (List.mem_cons_self _ _), hsep⟩,
      not_mem_join hsep fun z hz => h z (List.mem_cons_of_mem _ hz)⟩

end IncludeGraph.Py
