import Crosslink.Files.Path
import Crosslink.Proofs.Linking.Reachable
import Crosslink.Proofs.Tree.Spellings

/-! The texts of addresses.

A text is cut at its first hash. So an address is read from its text exactly if
the name of its resource has no hash, and nothing is read from it otherwise.
-/

set_option autoImplicit false

namespace Crosslink

namespace Fragment

variable {path : Fragment} {steps : List Step} {before after : List Char}

theorem at_of_reads {written : List (List Char)} (reads : Reads written steps)
    (slashless : ∀ text ∈ written, '/' ∉ text)
    (cut : written.flatMap (fun text => '/' :: text) = before ++ '/' :: after) :
    after.head? = some '@' := by
  induction reads generalizing before with
  | nil => simp at cut
  | @cons text step written steps read _ ih =>
    rw [List.forall_mem_cons] at slashless
    rw [List.flatMap_cons, List.cons_append] at cut
    cases before with
    | nil =>
      obtain ⟨_, _, form, _⟩ := Step.written_of_read read
      rw [List.nil_append, List.cons.injEq, form] at cut
      rw [← cut.2]
      rfl
    | cons c before =>
      rcases List.append_eq_append_iff.mp (List.cons.inj cut).2 with ⟨gap, _, rest⟩ | ⟨gap, own, rest⟩
      · exact ih slashless.2 rest
      · -- the slash is not in the step itself
        cases gap with
        | nil => exact @ih [] slashless.2 rest.symm
        | cons slash gap =>
          obtain rfl := (List.cons.inj rest).1
          exact absurd (own ▸ List.mem_append_right before List.mem_cons_self) slashless.1

/-- In a path that can be followed, a step stands behind every slash but the first. -/
theorem at_of_slash (decoded : path.steps = .ok steps) (inside : before ≠ [])
    (cut : path.text.toList = before ++ '/' :: after) : after.head? = some '@' := by
  obtain ⟨text, reads⟩ := written_of_steps decoded
  cases before with
  | nil => exact absurd rfl inside
  | cons c before =>
    rw [text, List.cons_append, List.cons.injEq] at cut
    exact at_of_reads reads slash_not_mem_writtenSteps cut.2

/-- A path that stands behind something else cannot be followed from there. -/
theorem not_parse_append (decoded : path.steps = .ok steps) (inside : before ≠ []) :
    ∃ error, Fragment.parse (String.ofList (before ++ path.text.toList)) = .error error := by
  obtain ⟨text, _⟩ := written_of_steps decoded
  unfold parse
  cases again : (Fragment.mk (String.ofList (before ++ path.text.toList))).steps with
  | error fault => exact ⟨_, rfl⟩
  | ok others =>
    have first := at_of_slash again inside (by rw [String.toList_ofList, text])
    cases written : path.writtenSteps <;> simp [written] at first

end Fragment

namespace Uri

variable {uri : Uri} {steps : List Step}

theorem parse_of_cut {text : String} {before after : List Char} (clear : '#' ∉ before)
    (cut : text.toList = before ++ '#' :: after) :
    Uri.parse text = if before = [] then .error ⟨text, .missingResource⟩
      else (Fragment.parse (String.ofList after)).map fun fragment =>
        ⟨⟨String.ofList before⟩, fragment⟩ := by
  rw [Uri.parse, cut, Text.splitFirst_append '#' after clear]

theorem toList_text (uri : Uri) :
    uri.text.toList = uri.resource.text.toList ++ '#' :: uri.fragment.text.toList := by
  simp [text]

theorem parse_text (present : uri.resource.text ≠ "") (clear : '#' ∉ uri.resource.text.toList)
    (decoded : uri.fragment.steps = .ok steps) : Uri.parse uri.text = .ok uri := by
  have named : uri.resource.text.toList ≠ [] := by simpa using present
  rw [parse_of_cut clear uri.toList_text, if_neg named, String.ofList_toList, String.ofList_toList,
    Fragment.parse_of_steps decoded]
  rfl

-- Behind the first hash come the end of the name, another hash, and only then the path.
theorem not_parse_text (hash : '#' ∈ uri.resource.text.toList)
    (decoded : uri.fragment.steps = .ok steps) : ∃ error, Uri.parse uri.text = .error error := by
  obtain ⟨⟨before, after⟩, cut⟩ := Option.ne_none_iff_exists'.mp
    (mt Text.splitFirst_eq_none.mp (not_not.mpr hash))
  obtain ⟨name, first⟩ := Text.append_of_splitFirst cut
  have whole : uri.text.toList = before ++ '#' :: (after ++ ['#'] ++ uri.fragment.text.toList) := by
    simp [toList_text, name]
  obtain ⟨error, refused⟩ := Fragment.not_parse_append decoded
    (List.append_ne_nil_of_right_ne_nil after (List.cons_ne_nil '#' []))
  rw [parse_of_cut first whole, refused]
  split
  · exact ⟨_, rfl⟩
  · exact ⟨_, rfl⟩

/-- An address whose path can be followed is read from its text exactly if the name of its resource
has no hash. -/
theorem parse_text_iff (present : uri.resource.text ≠ "") (decoded : uri.fragment.steps = .ok steps) :
    Uri.parse uri.text = .ok uri ↔ '#' ∉ uri.resource.text.toList := by
  refine ⟨fun read hash => ?_, fun clear => parse_text present clear decoded⟩
  obtain ⟨error, refused⟩ := not_parse_text hash decoded
  cases read.symm.trans refused

end Uri

namespace Tree.Consistent

/-- The address of a node that can be reached is read from its text exactly if the name of the
resource has no hash, and nothing is read otherwise. The features on the way to the node are named
without separators, and the positions of the tree are machine words. -/
theorem parse_text_uriOf_iff {tree : Tree} {id : NodeId} {resource : Resource}
    (consistent : tree.Consistent) (fits : tree.size ≤ Text.indexBound)
    (holds : resource.tree? = some tree) (present : resource.uri.text ≠ "")
    (reached : tree.Reaches id)
    (named : ∀ steps, tree.Leads steps id → ∀ step ∈ steps, IsPathName step.feature) :
    ∃ uri, resource.uriOf? id = some uri ∧
      (Uri.parse uri.text = .ok uri ↔ '#' ∉ resource.uri.text.toList) ∧
      ('#' ∈ resource.uri.text.toList → ∃ error, Uri.parse uri.text = .error error) := by
  obtain ⟨path, found⟩ := Option.isSome_iff_exists.mp
    (consistent.isSome_fragment?_iff_reaches.mpr reached)
  obtain ⟨steps, leads, rfl⟩ := consistent.fragment?_eq_some.mp found
  have decoded := Fragment.steps_ofSteps (named steps leads) fun step member index numbered =>
    Nat.lt_of_lt_of_le (consistent.index_of_leads leads step member index numbered) fits
  refine ⟨⟨resource.uri, .ofSteps steps⟩, by simp [Resource.uriOf?, holds, found], ?_⟩
  exact ⟨Uri.parse_text_iff present decoded, fun hash => Uri.not_parse_text hash decoded⟩

end Tree.Consistent

namespace ResourceSet

/-! ### A file of one type -/

def oneFile (uri : ResourceUri) : ResourceSet :=
  (({ languages := ({} : Languages).register Types.language } : ResourceSet).load uri "type A").1

def spacedUri : ResourceUri := ⟨"my models/v1.0/a.types"⟩

def hashedUri : ResourceUri := ⟨"a#b.types"⟩

def onlyType (uri : ResourceUri) : Uri := ⟨uri, .ofSteps [⟨"elements", some 0⟩]⟩

/-- The address is read from its text, which has a space, slashes and dots in the name of the file. -/
theorem parse_text_onlyType :
    (∃ resource tree, (oneFile spacedUri).get? spacedUri = some resource ∧
      resource.tree? = some tree ∧ tree.Consistent ∧ tree.size ≤ Text.indexBound ∧
      tree.Reaches 1 ∧ tree.PathNamed ∧ resource.uriOf? 1 = some (onlyType spacedUri)) ∧
    Uri.parse "my models/v1.0/a.types#//@elements.0" = .ok (onlyType spacedUri) := by
  have seen : ((oneFile spacedUri).get? spacedUri).map (fun resource => (resource.uri,
      resource.uriOf? 1, resource.tree?.map fun tree => (tree.size, tree.fragment? 1,
        tree.nodes.toList.map (·.classifier)))) =
    some (spacedUri, some (onlyType spacedUri),
      some (2, some (onlyType spacedUri).fragment, [Types.modelClass, Types.typeClass])) := by
    cbv
  obtain ⟨resource, found, fields⟩ := Option.map_eq_some_iff.mp seen
  simp only [Prod.mk.injEq, Option.map_eq_some_iff] at fields
  obtain ⟨name, address, tree, holds, size, written, classifiers⟩ := fields
  have reachable : (oneFile spacedUri).Reachable := .load .types spacedUri "type A"
  obtain ⟨content, held, rfl⟩ := Option.map_eq_some_iff.mp holds
  have consistent := (reachable.grown.get? found).content content held |>.consistent
  have fits : content.tree.size ≤ Text.indexBound := by
    rw [size]
    decide
  have reached := consistent.isSome_fragment?_iff_reaches.mp (Option.isSome_of_eq_some written)
  have named : content.tree.PathNamed := by
    apply Types.Typed.pathNamed
    apply Types.typed_of_classifiers
    rw [classifiers]
    simp [Types.classes]
  obtain ⟨uri, same, reads, _⟩ := consistent.parse_text_uriOf_iff fits holds
    (by rw [name]; decide) reached fun steps leads => Tree.names_of_leads named leads
  obtain rfl := Option.some.inj (same.symm.trans address)
  refine ⟨⟨resource, content.tree, found, holds, consistent, fits, reached, named, address⟩, ?_⟩
  exact reads.mpr (by rw [name]; decide)

/-- A file with a hash in its name is a member under that name, and its type has an address, from
whose text nothing is read. -/
theorem not_parse_text_hashed :
    Path.relativeUri? (.ofText "/models") (.ofText "/models/a#b.types") = some hashedUri ∧
      ((oneFile hashedUri).get? hashedUri).bind (·.uriOf? 1) = some (onlyType hashedUri) ∧
      Uri.parse (onlyType hashedUri).text = .error ⟨"b.types#//@elements.0", .missingRoot⟩ := by
  refine ⟨by cbv, by cbv, by cbv⟩

end ResourceSet

end Crosslink
