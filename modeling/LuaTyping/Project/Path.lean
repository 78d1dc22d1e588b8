/-!
# Paths inside a project

The paths of the files of a project use `/` between their parts and do not start with `./`.

* `normalizePath`: a path in this form.
* `slashParts`: what stands between the slashes of a path.
-/

namespace LuaTyping

/-- The characters with `/` for `\`. -/
def withSlashes (cs : List Char) : List Char := cs.map fun c => if c = '\\' then '/' else c

/-- The characters behind all the `./` in front. -/
def dropHere : List Char → List Char
  | '.' :: '/' :: cs => dropHere cs
  | cs => cs

/-- A path with `/` for `\` and without `./` in front. -/
def normalizePath (path : String) : String := String.ofList (dropHere (withSlashes path.toList))

/-- The parts of a path between slashes. -/
def slashParts (path : List Char) : List (List Char) :=
  path.foldr (fun c parts =>
    if c = '/' then [] :: parts
    else match parts with
      | p :: ps => (c :: p) :: ps
      | [] => [[c]]) [[]]

end LuaTyping
