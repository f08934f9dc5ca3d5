import Ember.Command

/-!
# The program

It reads the file that the arguments name and the files of the units used, and then runs the
command on them.
-/
set_option autoImplicit false

namespace Ember

abbrev Shelf := List (String × Except FileProblem String)

def readPath (path : String) : IO (Except FileProblem String) := do
  try
    return .ok (← IO.FS.readFile path)
  catch e =>
    return .error (match e with
      | .noFileOrDirectory .. => .notFound
      | .inappropriateType _ 20 _ => .notFolder
      | .inappropriateType .. => .isFolder
      | .invalidArgument _ 36 _ => .nameTooLong
      | e => .other (toString e))

/-- Reads a file and the files of the units that it uses. -/
partial def gather (folder : String) (shelf : Shelf) (path : String) : IO Shelf := do
  if (shelf.lookup path).isSome then return shelf
  let found ← readPath path
  let shelf := (path, found) :: shelf
  match found with
  | .error _ => return shelf
  | .ok text =>
    (Command.uses text).foldlM (fun shelf name => gather folder shelf
      (Path.join folder (name ++ ".ember"))) shelf

def Shelf.files (shelf : Shelf) : Files where
  read path := (shelf.lookup path).getD (.error .notFound)
  bound := Files.boundOf (shelf.filterMap (·.2.toOption))

end Ember

open Ember in
def main (args : List String) : IO UInt32 := do
  let shelf ← match Command.arguments {} none (args.drop 1) with
    | .ok (_, some path) => gather ((Path.parent? path).getD ".") [] path
    | _ => pure []
  let r := Command.run shelf.files args
  (← IO.getStdout).putStr r.out
  (← IO.getStderr).putStr r.err
  return UInt32.ofNat r.code
