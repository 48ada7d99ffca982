import Crosslink.Files.Store
import Crosslink.ResourceSet

/-! Loading resources from the files of a store. -/

set_option autoImplicit false

namespace Crosslink.FileStore

/-- A loader for files below a root. A URI is a path from the root. -/
def loader (store : FileStore) (root : Path) : Loader := fun uri =>
  match store.read (root.pathOf uri) with
  | .ok text => .ok text
  | .error .missing => .error (.resourceNotFound uri)
  | .error fault => .error (.unreadable fault)

def loadFile (store : FileStore) (path : Path) (uri : ResourceUri) (set : ResourceSet) :
    ResourceSet × Except Error LoadReport :=
  match store.read path with
  | .error fault => (set, .error (.unreadable fault))
  | .ok text => set.load uri text

structure DirectoryReport where
  /-- The resources loaded, with or without faults in their texts. -/
  loaded : List ResourceUri := []
  /-- The files for which there is no language. -/
  skipped : List Path := []
  failed : List (Path × Error) := []

def DirectoryReport.isOk (report : DirectoryReport) : Bool := report.failed.isEmpty

/-- Load a file that has a language, under its path from the directory. -/
def loadOne (store : FileStore) (directory path : Path) (set : ResourceSet)
    (report : DirectoryReport) : ResourceSet × DirectoryReport :=
  match Path.relativeUri? directory path with
  | none => (set, report)
  | some uri =>
    if set.languages.supports uri then
      match store.loadFile path uri set with
      | (set, .ok _) => (set, { report with loaded := report.loaded ++ [uri] })
      | (set, .error error) => (set, { report with failed := report.failed ++ [(path, error)] })
    else (set, { report with skipped := report.skipped ++ [path] })

/-- Load one file after the other. One that fails does not keep the others from being loaded. -/
def loadFiles (store : FileStore) (directory : Path) :
    List Path → ResourceSet → DirectoryReport → ResourceSet × DirectoryReport
  | [], set, report => (set, report)
  | path :: rest, set, report =>
    let (set, report) := store.loadOne directory path set report
    store.loadFiles directory rest set report

/-- Load all files below a directory, in the order of their paths. -/
def loadDirectory (store : FileStore) (directory : Path) (set : ResourceSet) :
    ResourceSet × Except Error DirectoryReport :=
  if store.isDirectory directory then
    match store.filesBelow directory with
    | .error fault => (set, .error (.unreadable fault))
    | .ok paths =>
      let (set, report) := store.loadFiles directory paths set {}
      (set, .ok report)
  else (set, .error (.resourceNotFound ⟨directory.text⟩))

end Crosslink.FileStore
