/-! # Input and output faults

Why reading or writing failed, with the wording of the operating system.
-/

namespace BlockMachine

inductive IoFault
  /-- no file or directory has the name -/
  | notFound
  /-- a file stands where the path needs a directory -/
  | notDirectory
  /-- a directory stands where a file is wanted -/
  | isDirectory
  /-- the path, or a name in it, is longer than the system allows -/
  | nameTooLong
  /-- the path holds a NUL character -/
  | nulInName
  /-- a buffer of fixed size has no room left -/
  | bufferFull
  /-- the bytes are not UTF-8 text -/
  | invalidText
  deriving DecidableEq, Repr

def IoFault.message : IoFault → String
  | notFound => "No such file or directory (os error 2)"
  | notDirectory => "Not a directory (os error 20)"
  | isDirectory => "Is a directory (os error 21)"
  | nameTooLong => "File name too long (os error 36)"
  | nulInName => "file name contained an unexpected NUL byte"
  | bufferFull => "failed to write whole buffer"
  | invalidText => "stream did not contain valid UTF-8"

end BlockMachine
