import IncludeGraph.Finder.Node

/-!
# Include extraction of the finder

`parse_includes` runs `INCLUDE_PATTERN.search` on every physical line and keeps
the first match of each. The pattern `#\s*include\s+"([^"]+)"` has one way to
match at a given position, since no whitespace character can start `include`
or be a quote; so `search` is the first position where that one match exists.
Comments are not skipped. A file that cannot be opened gives no includes.
-/

namespace IncludeGraph.Finder

open Py

/-- The file system as the finder reads it: the lines of the file at an
absolute path, or `none` when `open` fails. -/
abbrev Disk := String → Option (List String)

/-- `INCLUDE_PATTERN.match` at the start of `s`, returning group 1. -/
def includeAt : List Char → Option (List Char)
  | '#' :: rest =>
    let afterHash := rest.dropWhile isSpace
    if "include".data.isPrefixOf afterHash then
      let afterWord := afterHash.drop 7
      let afterGap := afterWord.dropWhile isSpace
      match afterGap with
      | '"' :: body =>
        let lit := body.takeWhile (· ≠ '"')
        if afterGap.length < afterWord.length ∧ lit ≠ [] ∧ lit.length < body.length then some lit
        else none
      | _ => none
    else none
  | _ => none

/-- `INCLUDE_PATTERN.search(line)`: the match at the first position that has one. -/
def searchInclude : List Char → Option (List Char)
  | [] => none
  | c :: cs => (includeAt (c :: cs)).or (searchInclude cs)

/-- `parse_includes(filepath)`: `(literal, line number)` pairs, backslashes turned
into slashes, line numbers from 1. -/
def parseIncludes (disk : Disk) (absPath : String) : List (String × Nat) :=
  match disk absPath with
  | none => []
  | some lines =>
    (lines.enumFrom 1).filterMap fun (n, line) =>
      (searchInclude line.data).map fun lit => (replaceChar ⟨lit⟩ '\\' '/', n)

example : searchInclude "  # include  \"a\\b.h\" // x".data = some "a\\b.h".data := by decide
example : searchInclude "// #include \"x.h\"".data = some "x.h".data := by decide
example : searchInclude "#include <x.h>".data = none := by decide

end IncludeGraph.Finder
