import Crosslink.Proofs.Types.Layout
import Crosslink.Proofs.Types.Tokens

/-! Entering elements.

None of the checks of a tree stands in the way of an element, and all nodes of it come
behind those that are there already.
-/

set_option autoImplicit false

namespace Crosslink.Types

variable {draft next : Draft} {tree : Tree} {place : NodeId × FeatureId} {id : Nat} {node : Node}
  {classifier : Classifier} {siblings : List NodeId} {elements : List Element}

def elementsFeature : Feature := (Feature.containment "elements" "Element").many

theorem ofClassifier_package : Node.ofClassifier packageClass =
    { classifier := packageClass, slots := [.attr [], .containment []] } := rfl

theorem ofClassifier_type : Node.ofClassifier typeClass =
    { classifier := typeClass, slots := [.attr [], .reference [], .reference []] } := rfl

theorem featureNamed?_model :
    modelClass.featureNamed? "elements" = some (0, elementsFeature) := by decide

theorem featureNamed?_package :
    packageClass.featureNamed? "elements" = some (1, elementsFeature) := by decide

theorem featureNamed?_package_name :
    packageClass.featureNamed? "name" = some (0, .attr "name") := by decide

theorem featureNamed?_type_name :
    typeClass.featureNamed? "name" = some (0, .attr "name") := by decide

theorem featureNamed?_extends :
    typeClass.featureNamed? "extends" = some (1, (Feature.reference "extends" "Type").cross) := by
  decide

theorem featureNamed?_implements : typeClass.featureNamed? "implements" =
    some (2, (Feature.reference "implements" "Type").many.cross) := by decide

theorem fits_package : packageClass.fits elementsFeature = true := by decide

theorem fits_type : typeClass.fits elementsFeature = true := by decide

/-! ### One change -/

theorem exists_setName (found : draft.tree.node? id = some node)
    (named : node.classifier.featureNamed? "name" = some (0, .attr "name"))
    (vacant : node.slots[0]? = some (.attr [])) (name : Option String) :
    ∃ next, draft.setName id name = .ok next ∧
      Alters draft id (node.setSlot 0 (.attr (name.toList.map .string))) [] next := by
  cases name with
  | none =>
    refine ⟨draft, rfl, ?_⟩
    rw [Option.toList_none, List.map_nil, Tree.setSlot_self vacant]
    exact .refl found
  | some name =>
    have feature : draft.tree.featureOfKind id "name" .attr = _ :=
      Tree.featureOfKind_eq found named rfl
    have altered := Alters.of_modify found (·.setSlot 0 (.attr [.string name])) []
    rw [List.append_nil] at altered
    refine ⟨_, ?_, altered⟩
    rw [Draft.setName, Tree.setAttribute, Tree.setSingle, feature]
    rfl

theorem exists_addName {feature : String} {position : FeatureId} {declared : Feature}
    {values : List Reference} (found : draft.tree.node? id = some node)
    (named : node.classifier.featureNamed? feature = some (position, declared))
    (kind : declared.kind = .reference) (held : node.slots[position]? = some (.reference values))
    (room : declared.isMany = false → values = []) (name : QualifiedName) :
    ∃ next, draft.addName id feature name = .ok next ∧
      Alters draft id (node.setSlot position (.reference (values ++ [openTo name])))
        [⟨⟨id, position, if declared.isMany then some values.length else none⟩, .name name⟩]
        next := by
  have asked := Tree.featureOfKind_eq found named kind
  have stored : draft.tree.referencesAt id position = values := by
    simp [Tree.referencesAt, Tree.slot?, found, held, Slot.references]
  have free : ¬ (declared.isMany = false ∧ values ≠ []) :=
    not_and.mpr fun one full => full (room one)
  refine ⟨_, ?_, Alters.of_modify found (·.setSlot position _) _⟩
  simp only [Draft.addName, Tree.addProxy, Tree.addReference, asked, stored, Bool.not_eq_true',
    free, if_false]
  rfl

/-- Names go behind each other into a feature with many values. -/
theorem exists_addNames {feature : String} {position : FeatureId} {declared : Feature}
    {values : List Reference} (found : draft.tree.node? id = some node)
    (named : node.classifier.featureNamed? feature = some (position, declared))
    (kind : declared.kind = .reference) (held : node.slots[position]? = some (.reference values))
    (many : declared.isMany = true) (names : List QualifiedName) :
    ∃ next, names.foldlM (fun draft name => draft.addName id feature name) draft = .ok next ∧
      Alters draft id (node.setSlot position (.reference (values ++ names.map openTo)))
        ((names.zipIdx values.length).map fun (name, index) =>
          ⟨⟨id, position, some index⟩, .name name⟩) next := by
  induction names generalizing draft node values with
  | nil =>
    refine ⟨draft, rfl, ?_⟩
    rw [List.map_nil, List.append_nil, Tree.setSlot_self held]
    exact .refl found
  | cons name rest ih =>
    obtain ⟨middle, added, first⟩ := exists_addName found named kind held (by simp [many]) name
    obtain ⟨bound, _⟩ := List.getElem?_eq_some_iff.mp held
    have stored : (node.setSlot position (.reference (values ++ [openTo name]))).slots[position]? =
        some (.reference (values ++ [openTo name])) := by simp [Node.setSlot, bound]
    obtain ⟨next, done, others⟩ := ih first.self named stored
    refine ⟨next, by rw [List.foldlM_cons, added]; exact done, ?_⟩
    have both := first.trans others
    rw [many, if_pos rfl, Tree.setSlot_setSlot, List.length_append, List.append_assoc] at both
    exact both

/-- A name goes into a feature with one value, if there is a name. -/
theorem exists_addNames_of_single {feature : String} {position : FeatureId} {declared : Feature}
    (found : draft.tree.node? id = some node)
    (named : node.classifier.featureNamed? feature = some (position, declared))
    (kind : declared.kind = .reference) (held : node.slots[position]? = some (.reference []))
    (one : declared.isMany = false) (name : Option QualifiedName) :
    ∃ next, name.toList.foldlM (fun draft name => draft.addName id feature name) draft = .ok next ∧
      Alters draft id (node.setSlot position (.reference (name.toList.map openTo)))
        (name.toList.map fun name => ⟨⟨id, position, none⟩, .name name⟩) next := by
  cases name with
  | none =>
    refine ⟨draft, rfl, ?_⟩
    rw [Option.toList_none, List.map_nil, Tree.setSlot_self held]
    exact .refl found
  | some name =>
    obtain ⟨next, added, altered⟩ := exists_addName found named kind held (fun _ => rfl) name
    rw [one] at altered
    exact ⟨next, by rw [Option.toList_some, List.foldlM_cons, added]; rfl, altered⟩

/-! ### Adding a node -/

structure Adds (draft : Draft) (place : NodeId × FeatureId) (classifier : Classifier) (node : Node)
    (siblings : List NodeId) (next : Draft) : Prop where
  size : next.tree.size = draft.tree.size + 1
  root : next.tree.root = draft.tree.root
  node? : ∀ other, next.tree.node? other =
    if other = draft.tree.size then
      some { Node.ofClassifier classifier with container := some place }
    else if other = place.1 then
      some (node.setSlot place.2 (.containment (siblings ++ [draft.tree.size])))
    else draft.tree.node? other
  pending : next.pending = draft.pending

structure Lists (tree : Tree) (place : NodeId × FeatureId) (node : Node) (siblings : List NodeId) :
    Prop where
  found : tree.node? place.1 = some node
  named : node.classifier.featureNamed? "elements" = some (place.2, elementsFeature)
  held : node.slots[place.2]? = some (.containment siblings)

theorem Lists.lt_size (lists : Lists tree place node siblings) : place.1 < tree.size :=
  Tree.lt_size_of_contains (Tree.contains_iff.mpr ⟨node, lists.found⟩)

-- Nothing is below a node that has just been created, so that it cannot be above its container.
theorem isAncestor_create (consistent : tree.Consistent) (classifier : Classifier) (id : NodeId) :
    (tree.create classifier).1.isAncestor tree.size id = false := by
  rw [← Bool.not_eq_true, (consistent.created classifier).forest.isAncestor_iff]
  intro above
  obtain ⟨below, ⟨position, held⟩, _⟩ := Relation.TransGen.head'_iff.mp above
  rw [Tree.container?_create] at held
  exact Nat.lt_irrefl _ (Tree.lt_size_of_contains (consistent.forest.inside ⟨position, held⟩))

theorem exists_add (sound : draft.Sound) (lists : Lists draft.tree place node siblings)
    (fits : classifier.fits elementsFeature = true) :
    ∃ next, draft.add place.1 classifier = .ok (next, draft.tree.size) ∧
      Adds draft place classifier node siblings next := by
  have older : place.1 ≠ draft.tree.size := Nat.ne_of_lt lists.lt_size
  have found : (draft.tree.create classifier).1.node? place.1 = some node := by
    rw [Tree.node?_create, if_neg older, lists.found]
  have children : (draft.tree.create classifier).1.childrenAt place.1 place.2 = siblings := by
    rw [Tree.childrenAt_create]
    simp [Tree.childrenAt, Tree.slot?, lists.found, lists.held, Slot.children]
  have fresh : (draft.tree.create classifier).1.node? draft.tree.size =
      some (Node.ofClassifier classifier) := by
    rw [Tree.node?_create, if_pos rfl]
  have ordinary : (draft.tree.create classifier).1.root ≠ some draft.tree.size := by
    intro rooted
    exact Nat.lt_irrefl _ (Tree.lt_size_of_contains (sound.consistent.root rooted).1)
  have attached :
      (draft.tree.create classifier).1.attach place.1 "elements" none draft.tree.size = _ :=
    Tree.attach_eq (Tree.featureOfKind_eq found lists.named rfl)
      (by rw [Tree.classifier?, fresh]; rfl) ordinary (Ne.symm older)
      (isAncestor_create sound.consistent classifier place.1)
      (by rw [Tree.container?, fresh]; rfl) fits (fun one => by cases one) (by simp)
  rw [children, Option.getD_none, List.insertIdx_length_self] at attached
  have added : draft.add place.1 classifier = .ok (⟨(draft.tree.create classifier).1.relink place.1
      place.2 (siblings ++ [draft.tree.size]) draft.tree.size (some place), draft.pending⟩,
      draft.tree.size) := by
    show Except.map _ ((draft.tree.create classifier).1.attach place.1 "elements" none
      draft.tree.size) = _
    rw [attached]
    rfl
  refine ⟨_, added, { size := ?size, root := rfl, node? := ?node?, pending := rfl }⟩
  case size =>
    rw [Tree.size_relink]
    exact Array.size_push _
  case node? =>
    intro other
    unfold Tree.relink Tree.setSlot
    rw [Tree.node?_modify, Tree.node?_modify]
    by_cases new : other = draft.tree.size
    · subst new
      rw [if_pos rfl, if_neg older, fresh, if_pos rfl]
      rfl
    · rw [if_neg (Ne.symm new), if_neg new]
      by_cases here : other = place.1
      · subst here
        rw [if_pos rfl, if_pos rfl, found]
        rfl
      · rw [if_neg (Ne.symm here), if_neg here, Tree.node?_create, if_neg new]

/-! ### Elements -/

/-- A draft after elements were entered behind the siblings at a place. -/
structure Enters (draft : Draft) (place : NodeId × FeatureId) (node : Node) (siblings : List NodeId)
    (elements : List Element) (next : Draft) : Prop where
  size : next.tree.size = draft.tree.size + sizeAll elements
  root : next.tree.root = draft.tree.root
  others : ∀ other, other < draft.tree.size → other ≠ place.1 →
    next.tree.node? other = draft.tree.node? other
  above : next.tree.node? place.1 =
    some (node.setSlot place.2 (.containment (siblings ++ idsFrom draft.tree.size elements)))
  stand : StandAll next.tree place draft.tree.size elements
  pending : next.pending = draft.pending ++ waitsAll draft.tree.size elements

theorem Enters.nothing (lists : Lists draft.tree place node siblings) :
    Enters draft place node siblings [] draft where
  size := rfl
  root := rfl
  others _ _ _ := rfl
  above := by rw [idsFrom, List.append_nil, Tree.setSlot_self lists.held, lists.found]
  stand := trivial
  pending := (List.append_nil _).symm

/-- The place lists the new nodes as well. -/
theorem Enters.lists (entered : Enters draft place node siblings elements next)
    (lists : Lists draft.tree place node siblings) :
    Lists next.tree place
      (node.setSlot place.2 (.containment (siblings ++ idsFrom draft.tree.size elements)))
      (siblings ++ idsFrom draft.tree.size elements) where
  found := entered.above
  named := lists.named
  held := by
    obtain ⟨bound, _⟩ := List.getElem?_eq_some_iff.mp lists.held
    simp [Node.setSlot, bound]

theorem Enters.cons {middle : Draft} {element : Element} {rest : List Element}
    (lists : Lists draft.tree place node siblings)
    (first : Enters draft place node siblings [element] middle)
    (second : Enters middle place
      (node.setSlot place.2 (.containment (siblings ++ idsFrom draft.tree.size [element])))
      (siblings ++ idsFrom draft.tree.size [element]) rest next) :
    Enters draft place node siblings (element :: rest) next := by
  have size : middle.tree.size = draft.tree.size + element.size := first.size
  have inside := lists.lt_size
  refine { size := ?size, root := second.root.trans first.root, others := ?others, above := ?above
           stand := ⟨?head, ?tail⟩, pending := ?pending }
  case size =>
    rw [second.size, size, sizeAll, Nat.add_assoc]
  case others =>
    intro other older apart
    rw [second.others other (by omega) apart, first.others other older apart]
  case above =>
    rw [second.above, Tree.setSlot_setSlot, size, List.append_assoc]
    rfl
  case head =>
    -- what is entered behind an element lies behind its nodes, and their container before them
    exact first.stand.1.of_same fun other low high =>
      second.others other (by omega) (Nat.ne_of_gt (Nat.lt_of_lt_of_le inside low))
  case tail =>
    have stand := second.stand
    rwa [size] at stand
  case pending =>
    rw [second.pending, first.pending, size, List.append_assoc]
    simp [waitsAll]

theorem Adds.enters {added : Draft} {element : Element}
    (lists : Lists draft.tree place node siblings)
    (adds : Adds draft place classifier node siblings added)
    (size : next.tree.size = draft.tree.size + element.size)
    (root : next.tree.root = added.tree.root)
    (older : ∀ other, other < draft.tree.size → next.tree.node? other = added.tree.node? other)
    (stands : Stands next.tree place draft.tree.size element)
    (pending : next.pending = added.pending ++ element.waits draft.tree.size) :
    Enters draft place node siblings [element] next where
  size := size
  root := root.trans adds.root
  others other before apart := by
    rw [older other before, adds.node?, if_neg (Nat.ne_of_lt before), if_neg apart]
  above := by
    have before := lists.lt_size
    rw [older _ before, adds.node?, if_neg (Nat.ne_of_lt before), if_pos rfl]
    rfl
  stand := ⟨stands, trivial⟩
  pending := by
    rw [pending, adds.pending]
    simp [waitsAll]

theorem exists_enter_type (sound : draft.Sound) (lists : Lists draft.tree place node siblings)
    (name : Option String) (extended : Option QualifiedName) (implemented : List QualifiedName)
    (range : TextRange) :
    ∃ next, enter draft place.1 (.type name extended implemented range) = .ok next ∧
      Enters draft place node siblings [.type name extended implemented range] next := by
  obtain ⟨added, add_done, adds⟩ := exists_add sound lists fits_type
  have fresh := adds.node? draft.tree.size
  rw [if_pos rfl, ofClassifier_type] at fresh
  obtain ⟨named, name_done, first⟩ := exists_setName fresh featureNamed?_type_name rfl name
  obtain ⟨extending, extend_done, second⟩ :=
    exists_addNames_of_single first.self featureNamed?_extends rfl rfl rfl extended
  obtain ⟨implementing, implement_done, third⟩ :=
    exists_addNames second.self featureNamed?_implements rfl rfl rfl implemented
  have altered := ((first.trans second).trans third).trans (Alters.setRange third.self range)
  refine ⟨implementing.setRange draft.tree.size range, ?done, ?enters⟩
  case done =>
    rw [enter, add_done]
    simp only [name_done, extend_done, implement_done, bind, Except.bind]
    rfl
  case enters =>
    refine adds.enters lists (altered.size.trans adds.size) altered.root ?older altered.self
      ?pending
    case older =>
      intro other before
      rw [altered.node?, if_neg (Nat.ne_of_lt before)]
    case pending =>
      rw [altered.pending]
      simp [Element.waits]

-- The elements of a package are entered below its node, which then changes as every container does.
theorem exists_enter_package (sound : draft.Sound) (lists : Lists draft.tree place node siblings)
    (name : Option String) (range : TextRange)
    (body : ∀ {draft : Draft} {place : NodeId × FeatureId} {node : Node} {siblings : List NodeId},
      draft.Sound → Lists draft.tree place node siblings →
      ∃ next, enterAll draft place.1 elements = .ok next ∧
        Enters draft place node siblings elements next) :
    ∃ next, enter draft place.1 (.package name elements range) = .ok next ∧
      Enters draft place node siblings [.package name elements range] next := by
  obtain ⟨added, add_done, adds⟩ := exists_add sound lists fits_package
  have fresh := adds.node? draft.tree.size
  rw [if_pos rfl, ofClassifier_package] at fresh
  obtain ⟨named, name_done, altered⟩ := exists_setName fresh featureNamed?_package_name rfl name
  have grown : named.tree.size = draft.tree.size + 1 := altered.size.trans adds.size
  have inner : Lists named.tree (draft.tree.size, 1) _ [] :=
    ⟨altered.self, featureNamed?_package, rfl⟩
  obtain ⟨entered, enter_done, enters⟩ :=
    body ((sound.add (by simp [classes]) add_done).setName name_done) inner
  have ranged := Alters.setRange enters.above range
  refine ⟨entered.setRange draft.tree.size range, ?done, ?enters⟩
  case done =>
    rw [enter, add_done]
    simp only [name_done, enter_done, bind, Except.bind]
    rfl
  case enters =>
    refine adds.enters lists ?size ?root ?older ⟨?own, ?below⟩ ?pending
    case size =>
      rw [ranged.size, enters.size, grown, Element.size]
      omega
    case root => rw [ranged.root, enters.root, altered.root]
    case older =>
      intro other before
      have apart : other ≠ draft.tree.size := Nat.ne_of_lt before
      rw [ranged.node?, if_neg apart, enters.others other (by omega) apart, altered.node?,
        if_neg apart]
    case own =>
      rw [ranged.self, grown]
      rfl
    case below =>
      have stand := enters.stand
      rw [grown] at stand
      refine stand.of_same fun other low _ => ?_
      rw [ranged.node?, if_neg (Nat.ne_of_gt low)]
    case pending =>
      rw [ranged.pending, enters.pending, altered.pending, grown]
      simp [Element.waits]

-- The recursion is that of `enter` and `enterAll`.
mutual

theorem exists_enter {draft : Draft} {place : NodeId × FeatureId} {node : Node}
    {siblings : List NodeId} (element : Element) (sound : draft.Sound)
    (lists : Lists draft.tree place node siblings) :
    ∃ next, enter draft place.1 element = .ok next ∧
      Enters draft place node siblings [element] next := by
  cases element with
  | package name elements range =>
    exact exists_enter_package sound lists name range (exists_enterAll elements)
  | type name extended implemented range =>
    exact exists_enter_type sound lists name extended implemented range

theorem exists_enterAll {draft : Draft} {place : NodeId × FeatureId} {node : Node}
    {siblings : List NodeId} (elements : List Element) (sound : draft.Sound)
    (lists : Lists draft.tree place node siblings) :
    ∃ next, enterAll draft place.1 elements = .ok next ∧
      Enters draft place node siblings elements next := by
  cases elements with
  | nil => exact ⟨draft, rfl, .nothing lists⟩
  | cons element rest =>
    obtain ⟨middle, first_done, first⟩ := exists_enter element sound lists
    obtain ⟨next, second_done, second⟩ :=
      exists_enterAll rest (sound_of_enter element sound first_done) (first.lists lists)
    refine ⟨next, ?_, first.cons lists second⟩
    rw [enterAll, first_done]
    exact second_done

end

/-! ### Texts -/

def start (size : Nat) : Draft :=
  (⟨{ (Tree.empty.create modelClass).1 with root := some 0 }, []⟩ : Draft).setRange 0 ⟨0, size⟩

def modelNode (size : Nat) (elements : List Element) : Node :=
  { classifier := modelClass, range := some ⟨0, size⟩
    slots := [.containment (idsFrom 1 elements)] }

/-- A tree that consists of the elements of a text of so many bytes. -/
structure Lays (tree : Tree) (bytes : Nat) (elements : List Element) : Prop where
  root : tree.root = some 0
  size : tree.size = sizeAll elements + 1
  model : tree.node? 0 = some (modelNode bytes elements)
  stand : StandAll tree (0, 0) 1 elements

theorem lists_start (size : Nat) : Lists (start size).tree (0, 0) (modelNode size []) [] where
  found := rfl
  named := featureNamed?_model
  held := rfl

/-- No elements are refused. -/
theorem exists_build (size : Nat) (elements : List Element) :
    ∃ draft, build size elements = .ok draft ∧ Lays draft.tree size elements ∧
      draft.pending = waitsAll 1 elements := by
  obtain ⟨draft, done, entered⟩ :=
    exists_enterAll elements ((sound_start rfl).setRange ⟨0, size⟩) (lists_start size)
  refine ⟨draft, done, ⟨entered.root, ?_, entered.above, entered.stand⟩, entered.pending⟩
  rw [entered.size, Nat.add_comm]
  rfl

variable (text : String)

/-- What is read in a text is laid out in its tree, and its diagnostics are the faults met. -/
theorem parse_eq : ∃ tree, Lays tree text.utf8ByteSize (readModel (visible text)).value ∧
    parse text =
      { tree, pending := waitsAll 1 (readModel (visible text)).value
        diagnostics :=
          (readModel (visible text)).faults.map (·.diagnostic text.utf8ByteSize) } := by
  obtain ⟨draft, built, lays, waits⟩ :=
    exists_build text.utf8ByteSize (readModel (visible text)).value
  refine ⟨draft.tree, lays, ?_⟩
  unfold parse
  dsimp only
  rw [visible] at built waits ⊢
  rw [built, ← waits]

theorem lays_parse :
    Lays (parse text).tree text.utf8ByteSize (readModel (visible text)).value := by
  obtain ⟨tree, lays, parsed⟩ := parse_eq text
  rw [parsed]
  exact lays

theorem pending_parse : (parse text).pending = waitsAll 1 (readModel (visible text)).value := by
  obtain ⟨tree, _, parsed⟩ := parse_eq text
  rw [parsed]

theorem diagnostics_parse : (parse text).diagnostics =
    (readModel (visible text)).faults.map (·.diagnostic text.utf8ByteSize) := by
  obtain ⟨tree, _, parsed⟩ := parse_eq text
  rw [parsed]

end Crosslink.Types
