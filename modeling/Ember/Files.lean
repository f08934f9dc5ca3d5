import Ember.Session

/-!
# Files, and units in them

A unit is in the file of its name in the folder of the main file.
-/
set_option autoImplicit false

namespace Ember

namespace Path

def pieces (path : String) : List String := path.splitOn "/"

/-- Pieces from the last one on, without those at the end that lead nowhere. The first piece
stays. -/
def trimmed : List String → List String
  | [] => []
  | [p] => [p]
  | p :: q :: rest => if p = "" ∨ p = "." then trimmed (q :: rest) else p :: q :: rest

/-- The folder of a file; the root and the empty path are in none. -/
def parent? (path : String) : Option String :=
  match trimmed (pieces path).reverse with
  | [] | [""] => none
  | [_] => some ""
  | _ :: rest =>
    let folder := trimmed rest
    some (if folder = [""] then "/" else String.intercalate "/" folder.reverse)

def join (folder path : String) : String :=
  if folder.isEmpty || path.startsWith "/" then path
  else if folder.endsWith "/" then folder ++ path
  else folder ++ "/" ++ path

end Path

/-- Why a file cannot be read. A path ends at a NUL, so none can have one inside. -/
inductive FileProblem where
  | notFound | isFolder | notFolder | nameTooLong | nulInPath
  | other (reason : String)
  deriving DecidableEq, Inhabited

def FileProblem.message : FileProblem → String
  | .notFound => "No such file or directory (os error 2)"
  | .isFolder => "Is a directory (os error 21)"
  | .notFolder => "Not a directory (os error 20)"
  | .nameTooLong => "File name too long (os error 36)"
  | .nulInPath => "file name contained an unexpected NUL byte"
  | .other reason => reason

/-- Files to be read by their paths. No more than `bound` units are in them. -/
structure Files where
  read : String → Except FileProblem String
  bound : Nat

namespace Files

def load (files : Files) (folder name : String) : Except Problem String :=
  let path := Path.join folder (name ++ ".ember")
  match files.read path with
  | .ok text => .ok text
  | .error .notFound => .error (.noModule name)
  | .error p => .error (.unreadableModule name path p.message)

def library (files : Files) (folder : String) : Library where
  load := files.load folder
  bound := files.bound

/-- Every unit is named in some text, and takes a character there. -/
def boundOf (texts : List String) : Nat := texts.foldr (fun t n => t.length + n) 0

end Files

def longestName : Nat := 255

def longestPath : Nat := 4095

structure Folder where
  files : List (List String × String)
  folders : List (List String)

namespace Folder

def ofPaths (files : List (String × String)) (folders : List String) : Folder :=
  let names (path : String) : List String := (Path.pieces path).filter fun p => p != "" && p != "."
  ⟨files.map fun (path, text) => (names path, text), folders.map names⟩

def hasFolder (f : Folder) (path : List String) : Bool :=
  path.isEmpty || f.folders.any path.isPrefixOf ||
    f.files.any fun (p, _) => path.isPrefixOf p && p != path

def file? (f : Folder) (path : List String) : Option String := f.files.lookup path

/-- A place that a path leads to. Around the folder there are only folders, and nothing else in them
is known. -/
inductive Place where
  | inside (path : List String)
  | around

/-- Where steps from a folder lead. All but the last have to go through folders. -/
def walk (f : Folder) : Place → List String → Except FileProblem Place
  | place, [] => .ok place
  | place, p :: ps =>
    if p = "" ∨ p = "." then walk f place ps
    else if p = ".." then
      match place with
      | .around | .inside [] => walk f .around ps
      | .inside path => walk f (.inside path.dropLast) ps
    else if p.utf8ByteSize > longestName then .error .nameTooLong
    else
      match place with
      | .around => .error .notFound
      | .inside path =>
        let next := path ++ [p]
        if ps.isEmpty || f.hasFolder next then walk f (.inside next) ps
        else if (f.file? next).isSome then .error .notFolder
        else .error .notFound

/-- A path from the root on starts around the folder, any other one in it. -/
def read (f : Folder) (path : String) : Except FileProblem String :=
  if path.toList.contains '\x00' then .error .nulInPath
  else if path.isEmpty then .error .notFound
  else if path.utf8ByteSize > longestPath then .error .nameTooLong
  else do
    match ← f.walk (if path.startsWith "/" then .around else .inside []) (Path.pieces path) with
    | .around => throw .isFolder
    | .inside place =>
      match f.file? place with
      | some text => pure text
      | none => throw (if f.hasFolder place then .isFolder else .notFound)

def toFiles (f : Folder) : Files where
  read := f.read
  bound := Files.boundOf (f.files.map (·.2))

end Folder
end Ember
