/-! # Paths

Paths are taken apart at slashes. Normal form drops empty and `.` components and lets `..`
cancel the component before it; nothing lies above the root. Exactly two leading slashes stay
two, any other number of them counts as one.
-/

namespace HistoryGuard.Path

def leadingSlashes : List Char → Nat
  | '/' :: '/' :: '/' :: _ => 1
  | '/' :: '/' :: _ => 2
  | '/' :: _ => 1
  | _ => 0

/-- Adds a component to the components above it, the nearest one first. -/
def descend (rooted : Bool) (above : List (List Char)) (part : List Char) : List (List Char) :=
  if part = [] || part = ['.'] then above
  else if part = ['.', '.'] then
    match above with
    | [] => if rooted then [] else [part]
    | nearest :: rest => if nearest = part then part :: above else rest
  else part :: above

def components (s : List Char) : List (List Char) :=
  ((s.splitOn '/').foldl (descend (leadingSlashes s != 0)) []).reverse

/-- The empty path and a path without components are the current directory. -/
def normalise (path : String) : String :=
  let s := path.toList
  let text := List.replicate (leadingSlashes s) '/' ++ ['/'].intercalate (components s)
  if text = [] then "." else String.ofList text

def under (workDir path : String) : String :=
  if path.toList.head? = some '/' then path
  else if workDir.toList.getLast?.all (· = '/') then workDir ++ path
  else workDir ++ "/" ++ path

def absolute (workDir path : String) : String := normalise (under workDir path)

/-- Replaces a leading tilde and account name by the account's home directory, without the
slashes at its end. The empty name stands for the user. An unknown account leaves the path as
it is. -/
def expandHome (home? : String → Option String) (path : String) : String :=
  match path.toList with
  | '~' :: rest =>
    match home? (String.ofList (rest.takeWhile (· != '/'))) with
    | none => path
    | some home =>
      let dir := (home.toList.reverse.dropWhile (· = '/')).reverse
      let text := dir ++ rest.dropWhile (· != '/')
      if text = [] then "/" else String.ofList text
  | _ => path

example : normalise "/a//b/../c/." = "/a/c" := by decide
example : normalise "//x/../.." = "//" ∧ normalise "" = "." ∧ normalise "../.." = "../.." := by
  decide

end HistoryGuard.Path
