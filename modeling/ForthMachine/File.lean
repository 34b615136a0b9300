import ForthMachine.Device
import ForthMachine.Text.Octets

namespace ForthMachine

inductive File where
  | unopened (reason : String)
  /-- The bytes of the file, and whether reading got to its end. -/
  | opened (bytes : List UInt8) (ending : Ending)
  deriving DecidableEq, Repr

namespace File

def unopenedMessage (name : Octets) (reason : String) : String :=
  "open " ++ name.display ++ ": " ++ reason

def notFound : String := "no such file or directory"

def notFolder : String := "not a directory"

def isFolder : String := "is a directory"

def tooLong : String := "file name too long"

def invalidName : String := "invalid argument"

def refusal? (name : Octets) : Option String :=
  if name.contains 0 then some invalidName
  else if name.isEmpty then some notFound
  else if 4096 ≤ name.length then some tooLong
  else none

/-- A folder can be opened like a file, but nothing can be read from it. -/
def ofFolder (name : Octets) : File :=
  .opened [] (.failure ("read " ++ name.display ++ ": " ++ isFolder))

end File

abbrev Path := List Octets

structure Folder where
  files : List (Path × List UInt8)
  folders : List Path := []
  deriving Repr

namespace Folder

def separator : UInt8 := 0x2F

def steps (path : Octets) : List Octets := path.splitOn separator

def stays (step : Octets) : Bool := step.isEmpty || step = .ofString "."

def ofList (files : List (Octets × List UInt8)) : Folder where
  files := files.map fun (name, bytes) => (((steps name).filter (!stays ·)).reverse, bytes)

def system : Folder where
  files := [([.ofString "null", .ofString "dev"], [])]
  folders :=
    ["bin", "etc", "home", "lib", "media", "mnt", "opt", "proc", "run", "sbin", "srv", "sys", "tmp",
      "usr", "var"].map fun name => [Octets.ofString name]

def file? (f : Folder) (path : Path) : Option (List UInt8) := f.files.lookup path

def hasFolder (f : Folder) (path : Path) : Bool :=
  path.isEmpty || f.folders.contains path
    || f.files.any fun (q, _) => path.length < q.length && path.isSuffixOf q

/-- The place to which double dots lead, `top` from the folder itself. A folder outside is no
place of which more is known. -/
def parent (top : Option Path) : Option Path → Option Path
  | some (_ :: up) => some up
  | some [] => top
  | none => none

/-- Follows a path from a place in the folder or outside. Only the end of a path may reach a file.
Empty steps and single dots stay, double dots go up. -/
def walk (f : Folder) (top here : Option Path) : List Octets → Except String (Option Path)
  | [] => .ok here
  | step :: rest =>
    if !here.all f.hasFolder then .error File.notFolder
    else if stays step then f.walk top here rest
    else if step = .ofString ".." then f.walk top (parent top here) rest
    else if 255 < step.length then .error File.tooLong
    else match here.map (step :: ·) with
      | none => .error File.notFound
      | some path =>
        if f.hasFolder path || (f.file? path).isSome then f.walk top (some path) rest
        else .error File.notFound

/-- Opens and reads the file of a name. The name is a path from the folder, or from that of the system
if it starts with a separator. -/
def read (f : Folder) (name : Octets) : File :=
  match File.refusal? name with
  | some reason => .unopened reason
  | none =>
    let (f, top) := if name.head? = some separator then (system, some []) else (f, none)
    match f.walk top (some []) (steps name) with
    | .error reason => .unopened reason
    | .ok place =>
      match place.bind f.file? with
      | some bytes => .opened bytes .endOfInput
      | none => .ofFolder name

end Folder

end ForthMachine
