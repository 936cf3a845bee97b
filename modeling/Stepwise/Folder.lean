import Stepwise.Debug.Files

/-! Named texts as the files of a working folder, and the standard input beside them. A path is
walked name by name, and what stands before a slash is a folder. Of what lies outside the working
folder, only the usual folders and a few files are known. -/

namespace Stepwise

abbrev FileSystem := String → Except String String

inductive PathFault
  | missing
  | isFolder
  | noFolder
  | tooLong
  | zeroByte
  | noText
deriving DecidableEq, Repr

namespace PathFault

def reason : PathFault → String
  | missing => "No such file or directory (os error 2)"
  | isFolder => "Is a directory (os error 21)"
  | noFolder => "Not a directory (os error 20)"
  | tooLong => "File name too long (os error 36)"
  | zeroByte => "file name contained an unexpected NUL byte"
  | noText => "stream did not contain valid UTF-8"

end PathFault

/-- A place, by the names that lead to it from the working folder or from the root. -/
inductive Location
  | inside (names : List String)
  | outside (names : List String)
deriving DecidableEq, Repr

namespace Location

def child : Location → String → Location
  | inside names, name => inside (names ++ [name])
  | outside names, name => outside (names ++ [name])

/-- The folder around. The working folder lies in the one for temporary files, and around the
root is the root. -/
def parent : Location → Location
  | inside [] => outside ["tmp"]
  | inside names => inside names.dropLast
  | outside names => outside names.dropLast

end Location

inductive Place
  | folder
  | file (text : String)
  | bytes
  | standardInput
  | vacant
deriving DecidableEq, Repr

structure Folder where
  files : Files
  input : String

namespace Folder

def outerFolders : List (List String) :=
  [[], ["bin"], ["boot"], ["dev"], ["dev", "fd"], ["dev", "pts"], ["dev", "shm"], ["etc"], ["home"],
    ["lib"], ["media"], ["mnt"], ["opt"], ["proc"], ["proc", "self"], ["proc", "self", "fd"],
    ["root"], ["run"], ["sbin"], ["srv"], ["sys"], ["tmp"], ["usr"], ["usr", "bin"],
    ["usr", "include"], ["usr", "lib"], ["usr", "local"], ["usr", "local", "bin"], ["usr", "sbin"],
    ["usr", "share"], ["usr", "src"], ["var"], ["var", "cache"], ["var", "lib"], ["var", "log"],
    ["var", "tmp"]]

def outerPrograms : List (List String) :=
  ["bash", "cat", "cp", "date", "echo", "env", "false", "ls", "mkdir", "mv", "pwd", "rm", "sh",
    "sleep", "true", "uname"].flatMap (fun name => [["bin", name], ["usr", "bin", name]]) ++
    [["proc", "self", "exe"]]

def inputNames : List (List String) :=
  [["dev", "stdin"], ["dev", "fd", "0"], ["proc", "self", "fd", "0"]]

def outerPlace (names : List String) : Place :=
  if outerFolders.contains names then .folder
  else if names = ["dev", "null"] then .file ""
  else if inputNames.contains names then .standardInput
  else if outerPrograms.contains names then .bytes
  else .vacant

def nameOf (names : List String) : String :=
  String.intercalate "/" names

def reaches (f : Folder) (names : List String) : Bool :=
  names.isEmpty || f.files.keys.any fun name => names.isPrefixOf (Files.parts name)

def place (f : Folder) : Location → Place
  | .outside names => outerPlace names
  | .inside names =>
    match f.files.get? (nameOf names) with
    | some text => .file text
    | none => if f.reaches names then .folder else .vacant

def maxName : Nat := 255

def maxPath : Nat := 4095

def step (f : Folder) (l : Location) (name : String) : Except PathFault Location :=
  match f.place l with
  | .folder =>
    if name = "" || name = "." then .ok l
    else if name = ".." then .ok l.parent
    else if maxName < name.utf8ByteSize then .error .tooLong
    else .ok (l.child name)
  | .vacant => .error .missing
  | _ => .error .noFolder

def namesOf (path : String) : Except PathFault (Location × List String) :=
  if path.contains '\x00' then .error .zeroByte
  else if path.isEmpty then .error .missing
  else if maxPath < path.utf8ByteSize then .error .tooLong
  else .ok (if path.startsWith "/" then .outside [] else .inside [], path.splitOn "/")

def locate (f : Folder) (path : String) : Except PathFault Location := do
  let (l, names) ← namesOf path
  names.foldlM f.step l

def readFrom (f : Folder) (path : String) : Except PathFault (String × Folder) := do
  match f.place (← f.locate path) with
  | .file text => return (text, f)
  | .standardInput => return (f.input, { f with input := "" })
  | .folder => throw .isFolder
  | .bytes => throw .noText
  | .vacant => throw .missing

/-- Makes sure that there is a file to append to. A path with a slash at its end leads to none. -/
def openFile (f : Folder) (path : String) : Except PathFault Folder := do
  let (l, names) ← namesOf path
  let names := (names.reverse.dropWhile String.isEmpty).reverse
  let l ← names.dropLast.foldlM f.step l
  let l ← f.step l (names.getLast?.getD "")
  if path.endsWith "/" then throw .isFolder
  match f.place l, l with
  | .folder, _ => throw .isFolder
  | .vacant, .inside names => return { f with files := f.files.insert (nameOf names) "" }
  | _, _ => return f

def read (path : String) : StateM Folder (Except String String) := fun f =>
  match f.readFrom path with
  | .ok (text, f) => (.ok text, f)
  | .error e => (.error e.reason, f)

def append (path : String) : StateM Folder (Option String) := fun f =>
  match f.openFile path with
  | .ok f => (none, f)
  | .error e => (some e.reason, f)

def fileSystem (f : Folder) : FileSystem := fun path =>
  ((read path).run f).1

end Folder

end Stepwise
