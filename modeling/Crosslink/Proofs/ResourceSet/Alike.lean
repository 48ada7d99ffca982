import Crosslink.Proofs.ResourceSet.Members
import Crosslink.Proofs.Tree.References

/-! Sets whose members hold trees of one shape.

Where an address leads depends on shapes alone, so it leads to the same node,
of the same classifier, for as long as only references change their values.
-/

set_option autoImplicit false

namespace Crosslink

theorem Site.fits_of_shape {site next : Site} {feature : Feature}
    (same : next.tree.shape = site.tree.shape) (node : next.id = site.id) :
    next.fits feature = site.fits feature := by
  have alike : next.classifier? = site.classifier? := by
    unfold Site.classifier?
    rw [node, Tree.classifier?_of_shape same]
  unfold Site.fits Site.isA
  rw [alike]

namespace ResourceSet

variable {set next last : ResourceSet}

/-- The members hold trees of the same shapes. -/
def Alike (set next : ResourceSet) : Prop :=
  ∀ uri, (next.content? uri).map (·.tree.shape) = (set.content? uri).map (·.tree.shape)

theorem Alike.refl (set : ResourceSet) : set.Alike set := fun _ => rfl

theorem Alike.trans (first : set.Alike next) (second : next.Alike last) : set.Alike last :=
  fun uri => (second uri).trans (first uri)

theorem Alike.symm (alike : set.Alike next) : next.Alike set := fun uri => (alike uri).symm

theorem content_of_shape {uri : ResourceUri} {content : Content}
    (same : (next.content? uri).map (·.tree.shape) = (set.content? uri).map (·.tree.shape))
    (held : set.content? uri = some content) :
    ∃ after, next.content? uri = some after ∧ after.tree.shape = content.tree.shape := by
  rw [held, Option.map_some] at same
  obtain ⟨after, found, shapes⟩ := Option.map_eq_some_iff.mp same
  exact ⟨after, found, shapes⟩

theorem Alike.of_content {uri : ResourceUri} {content : Content} (alike : set.Alike next)
    (held : set.content? uri = some content) :
    ∃ after, next.content? uri = some after ∧ after.tree.shape = content.tree.shape :=
  content_of_shape (alike uri) held

theorem alike_modify_update {uri : ResourceUri} {change? : Content → Option Content}
    (keeps : ∀ content after, set.content? uri = some content → change? content = some after →
      after.tree.shape = content.tree.shape) :
    set.Alike (set.modify uri (·.update change?)) := by
  intro other
  rw [content?_modify_update]
  split
  · next here =>
    cases held : set.content? other with
    | none => rfl
    | some content =>
      cases changed : change? content with
      | none => simp [changed]
      | some after => simp [changed, keeps content after (here ▸ held) changed]
  · rfl

/-- An address leads to a node of the tree that its resource holds. -/
theorem node?_eq (uri : Uri) : set.node? uri = (set.content? uri.resource).bind fun content =>
    (content.tree.resolve? uri.fragment).bind (Site.at? uri.resource content.tree) := by
  unfold node? content?
  cases found : set.get? uri.resource with
  | none => rfl
  | some resource =>
    have named := uri_of_get? found
    rw [Option.bind_some, Option.bind_some, Resource.resolve?, if_pos (by simp [Uri.isIn, named]),
      Resource.tree?]
    cases held : resource.content with
    | none => rfl
    | some content =>
      rw [Option.map_some, Option.bind_some, Option.bind_some]
      congr 1
      funext id
      simp [Resource.site?, Resource.tree?, held, named]

theorem node?_eq_some_iff {uri : Uri} {site : Site} : set.node? uri = some site ↔
    ∃ content, set.content? uri.resource = some content ∧ site.resource = uri.resource ∧
      site.tree = content.tree ∧ content.tree.resolve? uri.fragment = some site.id ∧
      content.tree.contains site.id = true := by
  simp only [node?_eq, Option.bind_eq_some_iff, Site.at?]
  refine exists_congr fun content => and_congr_right fun _ => ?_
  constructor
  · rintro ⟨id, leads, found⟩
    split at found
    · next inside =>
      cases found
      exact ⟨rfl, rfl, leads, inside⟩
    · cases found
  · obtain ⟨resource, tree, id⟩ := site
    rintro ⟨rfl, rfl, leads, inside⟩
    exact ⟨id, leads, by rw [if_pos inside]⟩

/-- Where an address leads depends on the shape of the tree of its resource. -/
theorem node?_of_shape {uri : Uri} {site : Site}
    (same : (next.content? uri.resource).map (·.tree.shape) =
      (set.content? uri.resource).map (·.tree.shape)) (found : set.node? uri = some site) :
    ∃ after, next.node? uri = some after ∧ after.resource = site.resource ∧ after.id = site.id ∧
      after.tree.shape = site.tree.shape := by
  obtain ⟨content, held, home, grown, leads, inside⟩ := node?_eq_some_iff.mp found
  obtain ⟨after, held', same⟩ := content_of_shape same held
  rw [← Tree.resolve?_of_shape same] at leads
  rw [← Tree.contains_of_shape same] at inside
  exact ⟨⟨uri.resource, after.tree, site.id⟩, node?_eq_some_iff.mpr ⟨after, held', rfl, rfl, leads, inside⟩,
    home.symm, rfl, by rw [grown, same]⟩

end ResourceSet

end Crosslink
