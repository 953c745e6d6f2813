import ModularC.Files.Tree

/-!
Packages: a directory is a module whose members are its `.c` files for the target system, read
in order of their names.
-/

namespace ModularC

/-- Whether a file belongs to a package built for `os`. -/
def isMember (fileName os : String) : Bool :=
  match fileName.toList.reverse with
  | 'c' :: '.' :: rest =>
    match rest.reverse.splitOn '.' with
    | [name] => !name.isEmpty
    | [name, tag] => !name.isEmpty && String.ofList tag == os
    | _ => false
  | _ => false

/-- The paths of a package's members, in order of their names. -/
def Tree.members (t : Tree) (place : List String) (os : String) : List String :=
  let names := (t.fileNames place).filter (isMember · os)
  (names.toArray.insertionSort (· < ·)).toList.map fun n => Tree.render (place ++ [n])

end ModularC
