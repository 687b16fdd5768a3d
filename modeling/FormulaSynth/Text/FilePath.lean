/-!
# Paths of files

The few operations on paths that the program needs: the name of the last
component, and a path with another extension. Components are separated by
slashes.
-/

namespace FormulaSynth

namespace FilePath

/-- The part of a name before its extension. A dot at the beginning of a name
begins no extension, and neither does one in the name of the parent directory. -/
def stem (name : List Char) : List Char :=
  if name = ['.', '.'] then name
  else
    match name.reverse.dropWhile (· ≠ '.') with
    | [] | ['.'] => name
    | _ :: before => before.reverse

/-- **A path with the extension of its last component replaced**, or added if there
is none. A path without a component stays as it is. -/
def withExtension (path extension : String) : String :=
  let path := (path.toList.reverse.dropWhile (· = '/')).reverse
  let name := (path.reverse.takeWhile (· ≠ '/')).reverse
  let parent := path.take (path.length - name.length)
  if name.isEmpty || name = ['.', '.'] then String.ofList path
  else String.ofList (parent ++ stem name) ++ "." ++ extension

/-- A path continued by another component. -/
def join (path component : String) : String :=
  if path.endsWith "/" then path ++ component else path ++ "/" ++ component

end FilePath

end FormulaSynth
