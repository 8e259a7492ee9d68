/-! # Paths

A path is a text; slashes divide it into names.  Empty names and single dots stand for the
directory reached so far, two dots for the directory above it.

* `Path.names` — the names of a path in order;
* `Path.withExtension` — a path with another extension.
-/

namespace BlockMachine.Path

/-- The parts of a text between slashes. -/
def names (path : String) : List String :=
  (path.splitToList (· == '/'))

/-- Whether a path starts at the root. -/
def isAbsolute (path : String) : Bool :=
  path.toList.head? == some '/'

/-- A path, given from its end, without the slashes and single dots at its end. -/
def trimEnd : List Char → List Char
  | '/' :: rest => trimEnd rest
  | '.' :: '/' :: rest => trimEnd rest
  | rest => rest

/-- The file name that a path ends in, both given from the end.  Dots alone are no file name when
they stand for a directory. -/
def fileName? (path : List Char) : Option (List Char) :=
  let name := (trimEnd path).takeWhile (· != '/')
  if name = [] ∨ name = ['.'] ∨ name = ['.', '.'] then none else some name

/-- A file name, given from its end, without its extension: what stands in front of the last dot,
unless that is nothing. -/
def stem (name : List Char) : List Char :=
  match name.dropWhile (· != '.') with
  | [] | [_] => name
  | _ :: rest => rest

/-- The number of characters in the extension of a file name, which is what stands behind its
stem and a dot. -/
def extensionLength (name : List Char) : Nat :=
  name.length - (stem name).length - 1

/-- A path, given from its end, with an extension in place of whatever follows the stem of its file
name.  A path that ends in no file name is left alone. -/
def extend (path : List Char) (extension : String) : List Char :=
  match fileName? path with
  | none => path
  | some name =>
    extension.toList.reverse ++ '.' :: stem name ++ (trimEnd path).drop name.length

/-- The path with the extension of its file name replaced, or added if there is none.  As many
characters as the old extension has are taken from the end of the path first.  So `..x` is cut to
`..`, which ends in no file name and gets no extension. -/
def withExtension (path extension : String) : String :=
  let path := path.toList.reverse
  let old := ((fileName? path).map extensionLength).getD 0
  String.ofList (extend (path.drop old) extension).reverse

end BlockMachine.Path
