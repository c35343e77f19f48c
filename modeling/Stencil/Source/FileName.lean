namespace Stencil

def pathParts (path : List Char) : List (List Char) :=
  (path.splitOnP (· == '/')).filter fun part => part != [] && part != ['.']

def fileStem (name : List Char) : List Char :=
  let beforeLastDot := ((name.reverse.dropWhile (· != '.')).drop 1).reverse
  if beforeLastDot.isEmpty then name else beforeLastDot

def moduleName (path : String) : String :=
  match (pathParts path.toList).getLast? with
  | none => path
  | some part => if part = ['.', '.'] then path else String.ofList (fileStem part)

end Stencil
