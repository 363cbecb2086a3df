import ApeScript.Path
import ApeScript.Text.Lower

/-!
# File trees

The files that the commands work on, as a value: a working directory and the contents of files by
their full names. A directory is there when it is listed, when a file or another directory is below
it, or when the working directory is. Operations answer with the error a file system would give.
-/

namespace ApeScript

inductive SystemError where
  | notFound | notDirectory | isDirectory | exists | nameTooLong | invalid
  deriving DecidableEq, Repr

def SystemError.message : SystemError → Bytes
  | notFound => utf8 "no such file or directory"
  | notDirectory => utf8 "not a directory"
  | isDirectory => utf8 "is a directory"
  | .exists => utf8 "file exists"
  | nameTooLong => utf8 "file name too long"
  | invalid => utf8 "invalid argument"

structure PathError where
  operation : Bytes
  path : Bytes
  cause : SystemError
  deriving DecidableEq, Repr

def PathError.message (e : PathError) : Bytes :=
  e.operation ++ utf8 " " ++ e.path ++ utf8 ": " ++ e.cause.message

structure FileTree where
  /-- The names that lead from the root to the working directory. -/
  cwd : List Bytes
  /-- Contents by the names that lead from the root to the file. -/
  files : List (List Bytes × Bytes)
  /-- Directories that are there whether or not they hold files. -/
  directories : List (List Bytes) := []
  deriving DecidableEq, Repr

namespace FileTree

variable (t : FileTree)

def contents? (place : List Bytes) : Option Bytes := (t.files.find? (·.1 = place)).map (·.2)

def isDirectory (place : List Bytes) : Bool :=
  place.isPrefixOf t.cwd || t.directories.any place.isPrefixOf ||
    t.files.any fun (file, _) => place.isPrefixOf file && place ≠ file

def isFile (place : List Bytes) : Bool := (t.contents? place).isSome

def maxNameLength : Nat := 255

def maxPathLength : Nat := 4095

/-- Follows the parts of a path; each must start from a directory that is there. -/
def follow : (here : List Bytes) → List Bytes → Except SystemError (List Bytes)
  | here, [] => .ok here
  | here, part :: rest =>
    if t.isFile here then .error .notDirectory
    else if !t.isDirectory here then .error .notFound
    else if part.isEmpty || part = Path.dot then follow here rest
    else if part = Path.dotDot then follow here.dropLast rest
    else if maxNameLength < part.length then .error .nameTooLong
    else follow (here ++ [part]) rest

def resolve (path : Bytes) : Except SystemError (List Bytes) :=
  if path.isEmpty then .error .notFound
  else if path.any (· = 0) then .error .invalid
  else if maxPathLength < path.length then .error .nameTooLong
  else t.follow (if Path.isRooted path then [] else t.cwd) (Bytes.split Path.slash path)

def read (path : Bytes) : Except PathError Bytes :=
  match t.resolve path with
  | .error e => .error ⟨utf8 "open", path, e⟩
  | .ok place =>
    match t.contents? place with
    | some data => .ok data
    | none =>
      if t.isDirectory place then .error ⟨utf8 "read", path, .isDirectory⟩
      else .error ⟨utf8 "open", path, .notFound⟩

def stat (path : Bytes) : Except PathError (Option (List Bytes)) :=
  match t.resolve path with
  | .error e => .error ⟨utf8 "stat", path, e⟩
  | .ok place =>
    if t.isFile place then .ok none
    else if t.isDirectory place then .ok (some place)
    else .error ⟨utf8 "stat", path, .notFound⟩

def locate (path : Bytes) : List Bytes :=
  let start := if Path.isRooted path then [] else t.cwd
  (Path.names path).foldl
    (fun here name => if name = Path.dotDot then here.dropLast else here ++ [name]) start

def put (place : List Bytes) (data : Bytes) : FileTree :=
  if t.isFile place then
    { t with files := t.files.map fun file => if file.1 = place then (place, data) else file }
  else { t with files := t.files ++ [(place, data)] }

/-- The beginnings of a directory path, the shortest first; all but the whole path end with a
slash. -/
def beginnings (directory : Bytes) : List Bytes :=
  let names := Path.names directory
  (List.range names.length).map fun n =>
    Path.ofNames (Path.isRooted directory) (names.take (n + 1)) ++
      if n + 1 < names.length then [Path.slash] else []

def nameFault? (path : Bytes) : Option SystemError :=
  if path.any (· = 0) then some .invalid
  else if maxPathLength < path.length || maxNameLength < (Path.base path).length then
    some .nameTooLong
  else none

/-- Why a directory cannot be made where there is none. A path with a slash at its end is refused
for the entry that is there, any other for not being a directory. -/
def directoryFault? (path : Bytes) : Option SystemError :=
  if t.isFile (t.locate path) then
    some (if path.getLast? = some Path.slash then .exists else .notDirectory)
  else nameFault? path

/-- Makes those of the directories that are not there, in order, up to one that cannot be made. -/
def makeDirectories (t : FileTree) : List Bytes → FileTree × Except PathError Unit
  | [] => (t, .ok ())
  | path :: rest =>
    let place := t.locate path
    if t.isDirectory place then makeDirectories t rest
    else
      match t.directoryFault? path with
      | some cause => (t, .error ⟨utf8 "mkdir", path, cause⟩)
      | none => makeDirectories { t with directories := t.directories ++ [place] } rest

inductive WriteError where
  | directory (e : PathError)
  | rename (path : Bytes) (cause : SystemError)
  deriving DecidableEq, Repr

def WriteError.message : WriteError → Bytes
  | directory e => utf8 "create output directory: " ++ e.message
  | rename path cause => utf8 "rename into " ++ path ++ utf8 ": " ++ cause.message

/-- Writes a whole file; the directories above it are made as needed and stay when the file cannot
be written. -/
def write (path data : Bytes) : FileTree × Except WriteError Unit :=
  match t.makeDirectories (beginnings (Path.parent path)) with
  | (t, .error e) => (t, .error (.directory e))
  | (t, .ok ()) =>
    let place := t.locate path
    if t.isDirectory place then (t, .error (.rename path .exists))
    else
      match nameFault? path with
      | some cause => (t, .error (.rename path cause))
      | none => (t.put place data, .ok ())

def cwdPath : Bytes := Path.ofNames true t.cwd

/-! ### Walking -/

/-- Order by the first name that differs; a directory's entries stand in byte order. -/
def placeLe : List Bytes → List Bytes → Bool
  | [], _ => true
  | _ :: _, [] => false
  | a :: s, b :: t => if a = b then placeLe s t else Bytes.le a b

structure Entry where
  /-- The full path. -/
  path : Bytes
  /-- The path from the directory that was walked. -/
  relative : Bytes
  /-- The extension in lower case. -/
  extension : Bytes
  deriving DecidableEq, Repr

inductive WalkError where
  | stat (e : PathError)
  | notDirectory (path : Bytes)
  deriving DecidableEq, Repr

def WalkError.message : WalkError → Bytes
  | stat e => utf8 "stat root: " ++ e.message
  | notDirectory path => utf8 "root is not a directory: " ++ path

/-- The files below a directory that have one of the extensions, in the order of a walk. -/
def walk (extensions : List Bytes) (root : Bytes) : Except WalkError (List Entry) :=
  let root := Path.absolute t.cwdPath root
  match t.stat root with
  | .error e => .error (.stat e)
  | .ok none => .error (.notDirectory root)
  | .ok (some place) =>
    let below := (t.files.map (·.1)).filter fun file => place.isPrefixOf file
    .ok (((below.mergeSort placeLe).map fun file =>
      let relative := Path.ofNames false (file.drop place.length)
      let path := Path.join root relative
      ({ path, relative, extension := Text.lower (Path.extension path) } : Entry)).filter
        fun entry => extensions.contains entry.extension)

/-- Where the result for an entry goes below an output directory: the same relative place with
another extension. -/
def outputPath (directory relative ext : Bytes) : Bytes :=
  Path.join directory (Path.withExtension relative ext)

end FileTree

end ApeScript
