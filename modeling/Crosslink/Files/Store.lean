import Crosslink.Error
import Crosslink.Files.Path

/-! A store of files in directories, which is known under a path of its own.

Every directory on the way to a file is there. What lies outside of the store
cannot be read. Names and paths have a greatest size: a longer name is refused
where it would be looked up, a longer path before anything is looked up.
-/

set_option autoImplicit false

namespace Crosslink

structure FileStore where
  /-- The path of the top directory. -/
  mount : Path
  /-- Files with their bytes, by the names that lead down to them. -/
  files : List (List FileName × ByteArray) := []
  /-- Directories that are there even if they are empty. -/
  directories : List (List FileName) := []

namespace FileStore

/-- The greatest size of a name, in bytes. -/
def maxNameSize : Nat := 255

/-- The greatest size of a path, in bytes. -/
def maxPathSize : Nat := 4095

inductive Entry where
  | file (bytes : ByteArray)
  | directory

/-- Write a file, in place of an older one. -/
def write (store : FileStore) (place : List FileName) (bytes : ByteArray) : FileStore :=
  { store with files := store.files.filter (·.1 ≠ place) ++ [(place, bytes)] }

def isDirectoryAt (store : FileStore) (place : List FileName) : Bool :=
  place = [] || store.directories.any place.isPrefixOf ||
    store.files.any fun file => place.isPrefixOf file.1 && file.1 ≠ place

def entry? (store : FileStore) (place : List FileName) : Option Entry :=
  match store.files.find? (·.1 = place) with
  | some file => some (.file file.2)
  | none => if store.isDirectoryAt place then some .directory else none

/-- A name that does not lead down. -/
def isStay (name : FileName) : Bool := name = [] || name = [Path.dot]

/-- Two dots lead up. -/
def isUp (name : FileName) : Bool := name = [Path.dot, Path.dot]

/-- What comes of names that lead on from a directory above the store, where
nothing but directories is known. -/
def faultAbove : List FileName → ReadFault
  | [] => .isDirectory
  | name :: rest =>
    if isStay name || isUp name then faultAbove rest
    else if name.length > maxNameSize then .nameTooLong
    else .missing

/-- The place to which names lead from a directory. -/
def walk (store : FileStore) (place : List FileName) :
    List FileName → Except ReadFault (List FileName)
  | [] => .ok place
  | name :: rest =>
    match store.entry? place with
    | none => .error .missing
    | some (.file _) => .error .notDirectory
    | some .directory =>
      if isStay name then store.walk place rest
      else if isUp name then
        if place = [] then .error (faultAbove rest) else store.walk place.dropLast rest
      else if name.length > maxNameSize then .error .nameTooLong
      else store.walk (place ++ [name]) rest

/-- The names in a path, with the empty ones. -/
def namesIn (path : Path) : List FileName := path.bytes.splitOn Path.slash

/-- The place of a path from the top, on whose way every directory is there. -/
def placeOf (path : Path) : List FileName :=
  (namesIn path).foldl (fun place name =>
    if isStay name then place
    else if isUp name then place.dropLast
    else place ++ [name]) []

/-- The place of a path in the store. -/
def locate (store : FileStore) (path : Path) : Except ReadFault (List FileName) :=
  if 0 ∈ path.bytes then .error (.other "file name contained an unexpected NUL byte")
  else if path.bytes.length > maxPathSize then .error .nameTooLong
  else match Path.strip? (namesIn store.mount) (namesIn path) with
    | some names => store.walk [] names
    | none => .error (faultAbove (namesIn path))

def isDirectory (store : FileStore) (path : Path) : Bool :=
  match store.locate path with
  | .ok place => store.isDirectoryAt place
  | .error _ => false

def read (store : FileStore) (path : Path) : Except ReadFault String :=
  match store.locate path with
  | .error fault => .error fault
  | .ok place =>
    match store.entry? place with
    | none => .error .missing
    | some .directory => .error .isDirectory
    | some (.file bytes) =>
      match String.fromUTF8? bytes with
      | some text => .ok text
      | none => .error .notUtf8

/-- The directories on the way to the files below a place and to the empty
directories below it, by the names that lead down to them. -/
def directoriesBelow (store : FileStore) (place : List FileName) : List (List FileName) :=
  (store.files.filterMap fun file => (Path.strip? place file.1).map List.dropLast) ++
    store.directories.filterMap (Path.strip? place)

/-- The paths of all files below a path, or of the file that it leads to, as the
system's walk of directories gives them. The files of a directory come in the order
of their names, and what a directory in it holds comes in its place. Each directory
is read by its whole path. -/
def filesBelow (store : FileStore) (path : Path) : Except ReadFault (List Path) :=
  match store.locate path with
  | .error fault => .error fault
  | .ok place =>
    match store.entry? place with
    | none => .error .missing
    | some (.file _) => .ok [path]
    | some .directory =>
      let below (names : List FileName) := names.foldl (fun path name => path.join ⟨name⟩) path
      if (store.directoriesBelow place).any fun names => (below names).bytes.length > maxPathSize
      then .error .nameTooLong
      else
        let found := store.files.filterMap fun file => Path.strip? place file.1
        let ordered := found.mergeSort fun first second => (compare first second).isLE
        .ok (ordered.map below)

end FileStore

end Crosslink
