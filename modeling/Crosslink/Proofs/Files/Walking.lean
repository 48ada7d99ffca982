import Crosslink.Files.Workspace
import Crosslink.Proofs.Files.Paths
import Crosslink.Proofs.Resource.Views
import Crosslink.Proofs.ResourceSet.Loading
import Crosslink.Types.Language

/-! Files that are found below a directory and asked for by their addresses.

The address of a file shows the names that lead down to it, and its path behind that of the
directory spells them. So both ways lead to one file if the names are texts, whatever the
directory is called. What a walk leaves in a set is the text of the last file of each address.
-/

set_option autoImplicit false

namespace Crosslink

/-- What a content has of its text, whatever has become of its references. -/
def Content.textPart (content : Content) : Tree × Option LineIndex × List Diagnostic :=
  (content.tree.shape, content.lines, content.textDiagnostics)

theorem Content.textPart_demote (content : Content) (resource : ResourceUri) :
    ((content.demote? resource).getD content).textPart = content.textPart := by
  rw [demote?_eq]
  refine keeps_reopenAll textPart (fun content slot target => ?_) (fun _ _ => rfl) _
  unfold textPart
  rw [show (content.reopen slot target).tree.shape = content.tree.shape from
    reopening.shape content (slot, target)]
  rfl

/-- What is read into a resource leaves the texts of all others. -/
theorem ResourceSet.textPart_load {set : ResourceSet} {uri other : ResourceUri} (apart : other ≠ uri)
    (text : String) : ((set.load uri text).1.content? other).map Content.textPart =
      (set.content? other).map Content.textPart := by
  cases loaded : set.isLoaded uri with
  | false => rw [(fills_load loaded text).others other apart]
  | true =>
    rw [content?_load_of_loaded loaded apart, Option.map_map]
    congr 1
    funext content
    exact content.textPart_demote uri

namespace FileStore

variable {store : FileStore} {root path : Path} {name : FileName} {place names : List FileName}
  {paths : List Path} {uri : ResourceUri} {set after : ResourceSet} {report result : DirectoryReport}
  {language : Language} {text : String}

/-! ### Paths that are found -/

/-- All names on the way to a file and its own are names that can stand inside of a path. -/
def WellNamed (store : FileStore) : Prop :=
  ∀ file ∈ store.files, ∀ name ∈ file.1, Path.IsInner name

theorem slash_not_mem_namesIn (member : name ∈ namesIn path) : Path.slash ∉ name :=
  Text.not_mem_of_mem_splitOn member

theorem isInner_of_mem_placeOf (member : name ∈ placeOf path) : Path.IsInner name := by
  refine List.foldlRecOn (motive := fun place => ∀ name ∈ place, Path.IsInner name)
    (namesIn path) _ (by simp) (fun place inner first written => ?_) name member
  split
  · exact inner
  · next leads =>
    split
    · exact fun name among => inner name ((List.dropLast_sublist place).mem among)
    · intro name among
      rcases List.mem_append.mp among with earlier | here
      · exact inner name earlier
      · rw [List.mem_singleton.mp here]
        unfold isStay at leads
        simp only [Bool.or_eq_true, decide_eq_true_eq, not_or] at leads
        exact ⟨leads.1, leads.2, slash_not_mem_namesIn written⟩

theorem WellNamed.write (named : store.WellNamed) (path : Path) (bytes : ByteArray) :
    (store.write (placeOf path) bytes).WellNamed := by
  intro file member
  rcases List.mem_append.mp member with old | new
  · exact named file (List.mem_of_mem_filter old)
  · rw [List.mem_singleton.mp new]
    exact fun _ => isInner_of_mem_placeOf

/-- A file below a directory has the path that its names spell from there. -/
theorem spelled_of_found (named : store.WellNamed) (found : store.filesBelow root = .ok paths)
    (member : path ∈ paths) : path = root ∨ ∃ names, names ≠ [] ∧
      (∀ name ∈ names, Path.IsInner name) ∧ path = root.join (.ofNames names) := by
  unfold filesBelow at found
  split at found
  · cases found
  · next place located =>
    split at found
    · cases found
    · cases found
      exact .inl (List.mem_singleton.mp member)
    · dsimp only at found
      split at found
      · cases found
      · cases found
        obtain ⟨names, among, rfl⟩ := List.mem_map.mp member
        obtain ⟨file, held, below⟩ := List.mem_filterMap.mp (List.mem_mergeSort.mp among)
        cases names with
        | nil => exact .inl rfl
        | cons first rest =>
          have inner : ∀ name ∈ first :: rest, Path.IsInner name := by
            intro name listed
            refine named file held name ?_
            rw [Path.strip?_eq_some.mp below]
            exact List.mem_append_right place listed
          have some_there := List.cons_ne_nil first rest
          exact .inr ⟨_, some_there, inner, Path.foldl_join inner some_there root⟩

/-- The address of a file that is found leads to its very path just if the names are texts. -/
theorem pathOf_iff_of_found (named : store.WellNamed) (found : store.filesBelow root = .ok paths)
    (member : path ∈ paths) (told : Path.relativeUri? root path = some uri) :
    root.pathOf uri = path ↔ Path.IsTextBelow root path := by
  rw [← Path.components_pathOf_iff told]
  refine ⟨fun same => by rw [same], fun same => ?_⟩
  obtain ⟨names, some_there, whole, rfl⟩ := Path.relativeUri?_eq_some.mp told
  have valid := (Path.components_pathOf_iff told).mp same names (Path.below?_eq_some.mpr whole)
  rcases spelled_of_found named found member with rfl | ⟨others, others_there, inner, rfl⟩
  · exact absurd (List.self_eq_append_right.mp whole) some_there
  · rw [Path.components_join_names inner others_there] at whole
    rw [List.append_cancel_left whole, Path.pathOf, Path.ofText_names valid]

/-! ### Walks -/

/-- What a file gives to a resource. -/
def offered? (store : FileStore) (root : Path) (set : ResourceSet) (uri : ResourceUri)
    (path : Path) : Option Content :=
  if Path.relativeUri? root path = some uri ∧ set.languages.supports uri then
    (store.read path).toOption.bind (set.reading? uri)
  else none

theorem offered?_of_languages (languages : after.languages = set.languages)
    (own : ∀ uri, after.language? uri = set.language? uri) :
    store.offered? root after = store.offered? root set := by
  funext uri path
  unfold offered?
  rw [languages, ResourceSet.reading?_of_languages own]

theorem offered?_of_read (told : Path.relativeUri? root path = some uri)
    (spoken : set.languages.supports uri = true) (read : store.read path = .ok text) :
    store.offered? root set uri path = set.reading? uri text := by
  unfold offered?
  rw [if_pos ⟨told, spoken⟩, read]
  rfl

theorem offered?_of_apart (apart : Path.relativeUri? root path ≠ some uri) :
    store.offered? root set uri path = none :=
  if_neg fun both => apart both.1

theorem isSome_reading? : (set.reading? uri text).isSome = (set.language? uri).isSome := by
  unfold ResourceSet.reading?
  rw [Option.isSome_map]

section Step

variable (store root path set report)

/-- Either a text is read into the resource of the file, or the file gives nothing to any. -/
theorem loadOne_cases :
    (∃ own text, Path.relativeUri? root path = some own ∧ set.languages.supports own = true ∧
      store.read path = .ok text ∧
      (store.loadOne root path set report).1 = (set.load own text).1 ∧
      (store.loadOne root path set report).2.loaded =
        report.loaded ++ if (set.language? own).isSome then [own] else []) ∨
    ((∀ uri, store.offered? root set uri path = none) ∧
      (store.loadOne root path set report).1 = set ∧
      (store.loadOne root path set report).2.loaded = report.loaded) := by
  unfold loadOne
  cases told : Path.relativeUri? root path with
  | none => exact .inr ⟨fun uri => by simp [offered?, told], rfl, rfl⟩
  | some own =>
    dsimp only
    by_cases spoken : set.languages.supports own = true
    · rw [if_pos spoken]
      unfold loadFile
      cases read : store.read path with
      | error fault =>
        refine .inr ⟨fun uri => ?_, rfl, rfl⟩
        unfold offered?
        split
        · rw [read]
          rfl
        · rfl
      | ok text =>
        have answered : (set.load own text).2.isOk = (set.language? own).isSome :=
          ResourceSet.isOk_load text
        refine .inl ⟨own, text, rfl, spoken, rfl, ?_⟩
        dsimp only
        cases loaded : set.load own text with
        | mk next result =>
          rw [loaded] at answered
          rw [← answered]
          cases result with
          | error fault => exact ⟨rfl, (List.append_nil _).symm⟩
          | ok told => exact ⟨rfl, rfl⟩
    · rw [if_neg spoken]
      refine .inr ⟨fun uri => if_neg fun ⟨same, known⟩ => ?_, rfl, rfl⟩
      cases told.symm.trans same
      exact spoken known

theorem offered?_loadOne :
    store.offered? root (store.loadOne root path set report).1 = store.offered? root set := by
  obtain ⟨own, text, -, -, -, stored, -⟩ | ⟨-, stored, -⟩ :=
    loadOne_cases store root path set report
  · rw [stored]
    exact offered?_of_languages (ResourceSet.furnished_load ..).languages
      (ResourceSet.language?_load own text)
  · rw [stored]

variable (uri)

theorem textPart_loadOne :
    ((store.loadOne root path set report).1.content? uri).map Content.textPart =
      ((store.offered? root set uri path).or (set.content? uri)).map Content.textPart := by
  obtain ⟨own, text, told, spoken, read, stored, -⟩ | ⟨nothing, stored, -⟩ :=
    loadOne_cases store root path set report
  · rw [stored]
    by_cases here : uri = own
    · subst here
      rw [offered?_of_read told spoken read, ResourceSet.content?_load_self]
    · rw [ResourceSet.textPart_load here,
        offered?_of_apart fun same => here (Option.some.inj (same.symm.trans told)), Option.none_or]
  · rw [stored, nothing, Option.none_or]

theorem mem_loaded_loadOne : uri ∈ (store.loadOne root path set report).2.loaded ↔
    uri ∈ report.loaded ∨ (store.offered? root set uri path).isSome = true := by
  obtain ⟨own, text, told, spoken, read, -, listed⟩ | ⟨nothing, -, listed⟩ :=
    loadOne_cases store root path set report
  · rw [listed, List.mem_append]
    refine or_congr_right ?_
    by_cases here : uri = own
    · subst here
      rw [offered?_of_read told spoken read, isSome_reading?]
      split <;> simp [*]
    · rw [offered?_of_apart fun same => here (Option.some.inj (same.symm.trans told))]
      split <;> simp [here]
  · simp [listed, nothing]

end Step

theorem loadFiles_cons (path : Path) (rest : List Path) (set : ResourceSet)
    (report : DirectoryReport) : store.loadFiles root (path :: rest) set report =
      store.loadFiles root rest (store.loadOne root path set report).1
        (store.loadOne root path set report).2 := rfl

/-- The set holds what the last of the files gives that give something to a resource, and else what
it held. -/
theorem textPart_loadFiles
    (walked : store.loadFiles root paths set report = (after, result)) (uri : ResourceUri) :
    (after.content? uri).map Content.textPart =
      ((paths.reverse.findSome? (store.offered? root set uri)).or (set.content? uri)).map
        Content.textPart := by
  induction paths generalizing set report with
  | nil =>
    cases walked
    rfl
  | cons path rest ih =>
    rw [loadFiles_cons] at walked
    rw [ih walked, offered?_loadOne, List.reverse_cons, List.findSome?_append,
      List.findSome?_singleton, Option.or_assoc]
    cases rest.reverse.findSome? (store.offered? root set uri) with
    | none => exact textPart_loadOne store root path uri set report
    | some content => rfl

theorem mem_loaded_loadFiles
    (walked : store.loadFiles root paths set report = (after, result)) (uri : ResourceUri) :
    uri ∈ result.loaded ↔ uri ∈ report.loaded ∨
      (paths.reverse.findSome? (store.offered? root set uri)).isSome = true := by
  induction paths generalizing set report with
  | nil =>
    cases walked
    simp
  | cons path rest ih =>
    rw [loadFiles_cons] at walked
    rw [ih walked, mem_loaded_loadOne, offered?_loadOne, List.reverse_cons, List.findSome?_append,
      List.findSome?_singleton, Option.isSome_or, Bool.or_eq_true, or_assoc]
    exact or_congr_right or_comm

theorem walked_of_loadDirectory (walked : store.loadDirectory root set = (after, .ok report)) :
    ∃ paths, store.filesBelow root = .ok paths ∧
      store.loadFiles root paths set {} = (after, report) := by
  unfold loadDirectory at walked
  split at walked
  · split at walked
    · cases walked
    · next paths found =>
      refine ⟨paths, found, ?_⟩
      cases visited : store.loadFiles root paths set {} with
      | mk last result =>
        rw [visited] at walked
        cases walked
        rfl
  · cases walked

theorem loader_of_read (read : store.read (root.pathOf uri) = .ok text) :
    store.loader root uri = .ok text := by
  unfold loader
  rw [read]

theorem ensureLoaded_of_loader {loader : Loader} (closed : set.isLoaded uri = false)
    (asks : set.loader = some loader) (answer : loader uri = .ok text) :
    (set.ensureLoaded uri).1 = ({ set with requests := set.requests ++ [uri] }.load uri text).1 := by
  unfold ResourceSet.ensureLoaded ResourceSet.request
  rw [if_neg (by simp [closed]), asks]
  dsimp only
  rw [answer]

/-- What a resource has been given by the last of the files that have its address and can be read. -/
theorem given_of_offered {content : Content}
    (given : paths.reverse.findSome? (store.offered? root set uri) = some content) :
    ∃ before path later text, paths = before ++ path :: later ∧
      Path.relativeUri? root path = some uri ∧ store.read path = .ok text ∧
      set.reading? uri text = some content ∧
      ∀ other ∈ later, Path.relativeUri? root other = some uri → (store.read other).isOk = false := by
  obtain ⟨front, path, back, turned, here, none_later⟩ := List.findSome?_eq_some_iff.mp given
  have whole : paths = back.reverse ++ path :: front.reverse := by
    rw [← List.reverse_reverse paths, turned]
    simp
  unfold offered? at here
  split at here
  · next both =>
    cases read : store.read path with
    | error fault =>
      rw [read] at here
      cases here
    | ok text =>
      rw [read] at here
      have known : (set.reading? uri text).isSome = true := Option.isSome_of_eq_some here
      rw [isSome_reading?] at known
      refine ⟨_, path, _, text, whole, both.1, read, here, fun other among told => ?_⟩
      have nothing := none_later other (List.mem_reverse.mp among)
      cases later : store.read other with
      | error fault => rfl
      | ok text' =>
        rw [offered?_of_read told both.2 later, ← Option.not_isSome_iff_eq_none,
          isSome_reading?] at nothing
        exact absurd known nothing
  · cases here

/-- The path that the address of a path below a root leads to from there has the same components,
however the root is written, just if the names below the root are texts. So no two paths with such
names and with different components have one address. What a walk has loaded has the text of the
last file with its address that could be read. It is read from this file again when it is asked for
by its address, if that leads to the file, which for a file that is found is so just if the names
are texts. No other resource has got another text. -/
theorem walk_and_loader_agree (root : Path) :
    (∀ path uri, Path.relativeUri? root path = some uri →
      ((root.pathOf uri).components = path.components ↔ Path.IsTextBelow root path)) ∧
    (∀ first second uri, Path.IsTextBelow root first → Path.IsTextBelow root second →
      Path.relativeUri? root first = some uri → Path.relativeUri? root second = some uri →
      first.components = second.components) ∧
    ∀ (store : FileStore) (set after : ResourceSet) (report : DirectoryReport), store.WellNamed →
      store.loadDirectory root set = (after, .ok report) →
      ∃ paths, store.filesBelow root = .ok paths ∧
        (∀ path ∈ paths, ∀ uri, Path.relativeUri? root path = some uri →
          (root.pathOf uri = path ↔ Path.IsTextBelow root path)) ∧
        (∀ uri ∈ report.loaded, ∃ before path later text origin content,
          paths = before ++ path :: later ∧ Path.relativeUri? root path = some uri ∧
          store.read path = .ok text ∧
          (∀ other ∈ later, Path.relativeUri? root other = some uri →
            (store.read other).isOk = false) ∧
          set.reading? uri text = some origin ∧ after.content? uri = some content ∧
          content.textPart = origin.textPart ∧
          (Path.IsTextBelow root path → store.loader root uri = .ok text ∧
            ∀ other : ResourceSet, other.loader = some (store.loader root) →
              other.isLoaded uri = false → (other.ensureLoaded uri).1 =
                ({ other with requests := other.requests ++ [uri] }.load uri text).1)) ∧
        ∀ uri, uri ∉ report.loaded →
          (after.content? uri).map Content.textPart = (set.content? uri).map Content.textPart := by
  refine ⟨fun path uri => Path.components_pathOf_iff, fun first second uri one two told told' => ?apart,
    fun store set after report named walked => ?walk⟩
  case apart =>
    exact ((Path.components_pathOf_iff told).mpr one).symm.trans
      ((Path.components_pathOf_iff told').mpr two)
  case walk =>
    obtain ⟨paths, found, visited⟩ := walked_of_loadDirectory walked
    have spelled := fun path member uri => @pathOf_iff_of_found store root path paths uri named found member
    refine ⟨paths, found, spelled, fun uri loaded => ?_, fun uri unloaded => ?_⟩
    · have held := textPart_loadFiles visited uri
      rcases (mem_loaded_loadFiles visited uri).mp loaded with earlier | given
      · cases earlier
      · obtain ⟨origin, given⟩ := Option.isSome_iff_exists.mp given
        obtain ⟨before, path, later, text, whole, told, read, reading, silent⟩ := given_of_offered given
        rw [given, Option.some_or, Option.map_some] at held
        obtain ⟨content, own, same⟩ := Option.map_eq_some_iff.mp held
        refine ⟨before, path, later, text, origin, content, whole, told, read, silent, reading, own,
          same, fun valid => ?_⟩
        have member : path ∈ paths := whole ▸ List.mem_append_right before List.mem_cons_self
        obtain rfl := (spelled path member uri told).mpr valid
        have answer := loader_of_read read
        exact ⟨answer, fun other asks closed => ensureLoaded_of_loader closed asks answer⟩
    · rw [mem_loaded_loadFiles visited, not_or, Bool.not_eq_true, Option.isSome_eq_false_iff,
        Option.isNone_iff_eq_none] at unloaded
      rw [textPart_loadFiles visited, unloaded.2, Option.none_or]

def shelf : FileStore :=
  ({ mount := .ofText "/ws" } : FileStore).write (placeOf (.ofText "sub//a.types")) "type A".toUTF8

theorem wellNamed_shelf : shelf.WellNamed := by
  have empty : ({ mount := .ofText "/ws" } : FileStore).WellNamed := nofun
  exact empty.write _ _

/-- From an empty root, a path from the top is its own address but for a slash. From a root that is
written with a dot and a closing slash, the file is loaded, and found again. -/
theorem walk_and_loader_agree_shelf :
    (Path.relativeUri? (.ofText "") (.ofText "/a//./b/") = some ⟨"//a/b"⟩ ∧
      Path.relativeUri? (.ofText "") (.ofText "/a/b") = some ⟨"//a/b"⟩ ∧
      ((Path.ofText "").pathOf ⟨"//a/b"⟩).components = (Path.ofText "/a//./b/").components ∧
      (Path.ofText "/a//./b/").components = (Path.ofText "/a/b").components) ∧
    ∃ after report content,
      shelf.loadDirectory (.ofText "/ws/./") { languages := ({} : Languages).register Types.language } =
        (after, .ok report) ∧
      report.loaded = [⟨"sub/a.types"⟩] ∧ after.content? ⟨"sub/a.types"⟩ = some content ∧
      content.textPart =
        (Content.ofParsed (Types.language.parse "type A") (some (.ofText "type A"))).textPart ∧
      shelf.loader (.ofText "/ws/./") ⟨"sub/a.types"⟩ = .ok "type A" := by
  have first : Path.relativeUri? (.ofText "") (.ofText "/a//./b/") = some ⟨"//a/b"⟩ := by
    decide +kernel
  have second : Path.relativeUri? (.ofText "") (.ofText "/a/b") = some ⟨"//a/b"⟩ := by decide +kernel
  have one : Path.IsTextBelow (.ofText "") (.ofText "/a//./b/") := by decide +kernel
  have two : Path.IsTextBelow (.ofText "") (.ofText "/a/b") := by decide +kernel
  refine ⟨⟨first, second, ((walk_and_loader_agree (.ofText "")).1 _ _ first).mpr one,
    (walk_and_loader_agree (.ofText "")).2.1 _ _ _ one two first second⟩, ?_⟩
  cases walked : shelf.loadDirectory (.ofText "/ws/./")
      { languages := ({} : Languages).register Types.language } with
  | mk after answer =>
    have names : (shelf.loadDirectory (.ofText "/ws/./")
        { languages := ({} : Languages).register Types.language }).2.toOption.map (·.loaded) =
          some [⟨"sub/a.types"⟩] := by
      decide +kernel
    have files : (shelf.filesBelow (.ofText "/ws/./")).toOption =
        some [.ofText "/ws/./sub/a.types"] := by
      decide +kernel
    have own : (shelf.read (.ofText "/ws/./sub/a.types")).toOption = some "type A" := by
      decide +kernel
    have valid : Path.IsTextBelow (.ofText "/ws/./") (.ofText "/ws/./sub/a.types") := by
      decide +kernel
    rw [walked] at names
    cases answer with
    | error fault => cases names
    | ok report =>
      have loaded : report.loaded = [⟨"sub/a.types"⟩] := Option.some.inj names
      obtain ⟨paths, found, -, again, -⟩ := (walk_and_loader_agree (.ofText "/ws/./")).2.2 shelf _
        after report wellNamed_shelf walked
      obtain ⟨before, path, later, text, origin, content, whole, -, read, -, reading, held, same,
        answer⟩ := again ⟨"sub/a.types"⟩ (by simp [loaded])
      rw [found] at files
      have member : path ∈ paths := whole ▸ List.mem_append_right before List.mem_cons_self
      rw [Option.some.inj files, List.mem_singleton] at member
      subst member
      rw [read] at own
      cases own
      have read_into : origin =
          .ofParsed (Types.language.parse "type A") (some (.ofText "type A")) := by
        refine (Option.some.inj reading).symm.trans ?_
        rfl
      rw [read_into] at same
      exact ⟨after, report, content, rfl, loaded, held, same, (answer valid).1⟩

def brokenName : FileName := 255 :: Text.bytes ".types"

def brokenShelf : FileStore :=
  { mount := .ofText "/ws", files := [([brokenName], "type A".toUTF8)] }

/-- A file whose name is not a text and the one whose name is shown of it have one address, which
leads to the second. If it is not there, the first is loaded under this address, but cannot be read
under it. -/
theorem walk_and_loader_part :
    Path.relativeUri? (.ofText "/ws") ((Path.ofText "/ws").join ⟨brokenName⟩) =
      some ⟨"\uFFFD.types"⟩ ∧
    Path.relativeUri? (.ofText "/ws") (.ofText "/ws/\uFFFD.types") = some ⟨"\uFFFD.types"⟩ ∧
    (Path.ofText "/ws").pathOf ⟨"\uFFFD.types"⟩ = .ofText "/ws/\uFFFD.types" ∧
    ((Path.ofText "/ws").join ⟨brokenName⟩).components ≠
      (Path.ofText "/ws/\uFFFD.types").components ∧
    (brokenShelf.loadDirectory (.ofText "/ws")
      { languages := ({} : Languages).register Types.language }).2.toOption.map (·.loaded) =
        some [⟨"\uFFFD.types"⟩] ∧
    brokenShelf.loader (.ofText "/ws") ⟨"\uFFFD.types"⟩ =
      .error (.resourceNotFound ⟨"\uFFFD.types"⟩) := by
  have address : Path.relativeUri? (.ofText "/ws") ((Path.ofText "/ws").join ⟨brokenName⟩) =
      some ⟨"\uFFFD.types"⟩ := by
    decide +kernel
  have shown : Path.relativeUri? (.ofText "/ws") (.ofText "/ws/\uFFFD.types") =
      some ⟨"\uFFFD.types"⟩ := by
    decide +kernel
  have walked : (brokenShelf.loadDirectory (.ofText "/ws")
      { languages := ({} : Languages).register Types.language }).2.toOption.map (·.loaded) =
        some [⟨"\uFFFD.types"⟩] := by
    decide +kernel
  exact ⟨address, shown, by decide +kernel, by decide +kernel, walked, by rfl⟩

end FileStore

end Crosslink
