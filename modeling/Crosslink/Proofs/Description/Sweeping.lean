import Crosslink.Description.Basic
import Crosslink.Proofs.Tree.Preorder

/-! Sweeps of a tree that keep the sites that wait in a list.

A sweep ends because what it puts in the place of a site lies deeper. It asks about the sites
that a bounded descent asks about, in the same order, since the sites that wait behind one are
not looked at before all below it is done.
-/

set_option autoImplicit false

namespace Crosslink.Description

variable {α κ : Type} {hand : Site → κ → κ} {ask : Site → κ → Yield α} {site : Site} {given : κ}
  {waiting : List (Site × κ)} {listed : List α} {strategy : Strategy} {resource : Resource}
  {tree : Tree} {root : NodeId}

/-- Ask about the first of the sites that wait, and let the sites below wait in its place unless the
answer is to stop, until none is left. What is handed down to a site is changed there. -/
inductive Sweeps (hand : Site → κ → κ) (ask : Site → κ → Yield α) :
    List (Site × κ) → List α → Prop where
  | done : Sweeps hand ask [] []
  | next {site : Site} {given : κ} {waiting : List (Site × κ)} {listed : List α}
      (rest : Sweeps hand ask
        ((if (ask site (hand site given)).descend then site.children.map (·, hand site given) else [])
          ++ waiting) listed) :
      Sweeps hand ask ((site, given) :: waiting) ((ask site (hand site given)).entries ++ listed)

theorem Sweeps.unique {first second : List α} (sweeps : Sweeps hand ask waiting first)
    (again : Sweeps hand ask waiting second) : first = second := by
  induction sweeps generalizing second with
  | done =>
    cases again
    rfl
  | next _ ih =>
    cases again with
    | next rest => rw [ih rest]

/-- A descent that asks at each level as a sweep does. -/
def Descends (hand : Site → κ → κ) (ask : Site → κ → Yield α)
    (within : Nat → κ → Site → List α) : Prop :=
  ∀ bound given site, within (bound + 1) given site =
    (ask site (hand site given)).entries ++
      if (ask site (hand site given)).descend then
        site.children.flatMap (within bound (hand site given)) else []

-- One level is spent with each step down, and the depth grows by one.
theorem Descends.sweeps {within : Nat → κ → Site → List α} (descends : Descends hand ask within)
    {bound : Nat} (consistent : site.tree.Consistent) (inside : site.tree.contains site.id = true)
    (enough : site.tree.size ≤ bound + site.tree.depth site.id)
    (rest : Sweeps hand ask waiting listed) :
    Sweeps hand ask ((site, given) :: waiting) (within bound given site ++ listed) := by
  induction bound generalizing site given waiting listed with
  | zero =>
    have shallow := consistent.forest.depth_lt_size inside
    omega
  | succ bound ih =>
    have below : ∀ children ⊆ site.tree.contents site.id, Sweeps hand ask
        ((children.map site.move).map (·, hand site given) ++ waiting)
        ((children.map site.move).flatMap (within bound (hand site given)) ++ listed) := by
      intro children among
      induction children with
      | nil => exact rest
      | cons child children siblings =>
        obtain ⟨member, among⟩ := List.cons_subset.mp among
        have direct := consistent.mem_contents_iff.mp member
        have deeper := consistent.forest.depth_of_holds direct
        have within_tree := Tree.contains_of_reflTransGen inside (.single direct)
        rw [List.map_cons, List.map_cons, List.cons_append, List.flatMap_cons, List.append_assoc]
        refine ih consistent within_tree ?_ (siblings among)
        show site.tree.size ≤ bound + site.tree.depth child
        omega
    rw [descends bound, List.append_assoc]
    refine .next ?_
    split
    · exact below _ (List.Subset.refl _)
    · exact rest

theorem Descends.sweeps_iff {within : Nat → κ → Site → List α}
    (descends : Descends hand ask within) (consistent : site.tree.Consistent)
    (inside : site.tree.contains site.id = true) :
    Sweeps hand ask [(site, given)] listed ↔ within site.tree.size given site = listed := by
  have sweeps : Sweeps hand ask [(site, given)] (within site.tree.size given site ++ []) :=
    descends.sweeps consistent inside (Nat.le_add_right _ _) .done
  rw [List.append_nil] at sweeps
  exact ⟨sweeps.unique, fun same => same ▸ sweeps⟩

/-- The place that a site hands down: its own address if it counts. -/
def Strategy.placeBelow (strategy : Strategy) (site : Site) (outer : Option Uri) : Option Uri :=
  if strategy.isExported site then site.uri? else outer

theorem root?_eq (holds : resource.tree? = some tree) (consistent : tree.Consistent) :
    resource.root? = tree.root.map (Site.mk resource.uri tree) := by
  unfold Resource.root?
  rw [holds, Option.bind_some]
  cases rooted : tree.root with
  | none => rfl
  | some root => exact if_pos (consistent.root rooted).1

/-- What a description lists is what two sweeps list, from the root on. -/
theorem sweeps_compute_iff (holds : resource.tree? = some tree) (consistent : tree.Consistent)
    (rooted : tree.root = some root) (strategy : Strategy) :
    (∀ exports, Sweeps (fun _ _ => ()) (fun site _ => strategy.exports site)
      [(⟨resource.uri, tree, root⟩, ())] exports ↔ (compute strategy resource).exports = exports) ∧
    ∀ links, Sweeps strategy.placeBelow strategy.links [(⟨resource.uri, tree, root⟩, none)] links ↔
      (compute strategy resource).links = links := by
  have inside := (consistent.root rooted).1
  have exporting : Descends (fun _ _ => ()) (fun site (_ : Unit) => strategy.exports site)
      (fun bound _ => exportsWithin strategy bound) := fun _ _ _ => rfl
  have linking : Descends strategy.placeBelow strategy.links (linksWithin strategy) :=
    fun _ _ _ => rfl
  unfold compute
  rw [root?_eq holds consistent, rooted]
  exact ⟨fun exports => exporting.sweeps_iff consistent inside,
    fun links => linking.sweeps_iff consistent inside⟩

end Crosslink.Description
