import Crosslink.Proofs.Linking.Reaching
import Crosslink.Types.Language
import Mathlib

/-! Which bound references linking may bind again.

What waits for a place that is bound already is visited like all that waits. The
value is safe from every scope exactly if no such visit can find another node.
-/

set_option autoImplicit false

namespace Crosslink

def ResourceSet.referenceAt? (set : ResourceSet) (home : ResourceUri) (slot : SlotKey) :
    Option Reference :=
  (set.content? home).bind (·.tree.referenceAt? slot)

namespace Linking

variable {scope : Scope} {stop : Progress → Bool} {set : ResourceSet} {home : ResourceUri}
  {pending : Pending} {slot : SlotKey} {target other : Uri} {content : Content}

/-- Something waits for a place that can be bound to an address. -/
def MayBind (set : ResourceSet) (home : ResourceUri) (slot : SlotKey) (target : Uri) : Prop :=
  ∃ pending ∈ waiting set home, pending.slot.place = slot.place ∧
    (∀ known, pending.proxy = .uri known → known = target) ∧
    ∃ site feature, context? set home pending = some (site, feature) ∧
      conforms set feature target = true

structure Safe (start : ResourceSet) (home : ResourceUri) (slot : SlotKey) (target : Uri)
    (set : ResourceSet) : Prop where
  bare : set.loader = none
  alike : start.Alike set
  held : ∃ content, set.content? home = some content ∧
    content.tree.referenceAt? slot = some (.bound target) ∧
    content.pending ⊆ waiting start home

theorem safe_of_resolve {start : ResourceSet} {place : ResourceUri}
    (only : ∀ other, MayBind start home slot other → other = target)
    (listed : place = home → pending ∈ waiting start home) (safe : Safe start home slot target set) :
    Safe start home slot target (resolve scope set place pending).set := by
  have twins := @twins_resolve_of_idle scope set place pending (idle_of_bare safe.bare)
  obtain ⟨content, held, bound, waited⟩ := safe.held
  refine ⟨twins.loader.trans safe.bare, safe.alike.trans twins.alike, ?_⟩
  have kept := @kept_by_resolve scope set home place pending slot target content held bound ?_
  · obtain ⟨after, held', bound', fewer⟩ := kept
    exact ⟨after, held', bound', fun pending member => waited (fewer member)⟩
  · intro atHome same site feature found uris candidate here asked member fits
    obtain ⟨site', here'⟩ := context?_of_alike safe.alike.symm here
    have alike' := ((twins_supplied (idle_of_bare safe.bare)).trans (twins_candidates here asked)).alike
    refine only candidate ⟨pending, listed atHome, same, fun known waits => ?_, site', feature, here', ?_⟩
    · rw [waits, candidates_uri, Prod.mk.injEq] at asked
      rw [← asked.2, List.mem_singleton] at member
      exact member.symm
    · rwa [← conforms_of_alike (safe.alike.trans alike')]

theorem safe_of_link (bare : set.loader = none)
    (bound : set.referenceAt? home slot = some (.bound target))
    (only : ∀ other, MayBind set home slot other → other = target) (scope : Scope)
    (stop : Progress → Bool) (turns : Nat) :
    Safe set home slot target (linkWithin scope stop turns set) := by
  obtain ⟨content, held, value⟩ := Option.bind_eq_some_iff.mp bound
  have safe : Safe set home slot target set :=
    ⟨bare, .refl set, content, held, value, (waiting_eq held).symm ▸ fun _ member => member⟩
  refine @linkWithin_induction scope set (Safe set home slot target)
    (fun place _ entries => ∀ pending ∈ entries, place = home → pending ∈ waiting set home)
    stop ?_ ?_ turns safe
  · rintro after place ⟨_, _, content, held, _, waited⟩ pending member rfl
    exact waited (waiting_eq held ▸ member)
  · intro after place pending rest safe listed
    exact ⟨safe_of_resolve only (listed pending List.mem_cons_self) safe,
      fun later member => listed later (List.mem_cons_of_mem _ member)⟩

def constantScope (target : Uri) : Scope := fun _ _ _ _ => [target]

-- With a scope that knows nothing else, the candidate is the only one, whatever the proxy is.
theorem bound_by_visit (bare : set.loader = none) (held : set.content? home = some content)
    (present : (content.tree.referenceAt? slot).isSome = true)
    (same : pending.slot.place = slot.place)
    (known : ∀ known, pending.proxy = .uri known → known = target)
    {site : Site} {feature : Feature} (here : context? set home pending = some (site, feature))
    (fits : conforms set feature target = true) :
    (resolve (constantScope target) set home pending).set.referenceAt? home slot =
      some (.bound target) := by
  obtain ⟨found, asked⟩ : ∃ found, candidates (constantScope target) set home site feature
      pending.proxy = (found, [target]) := by
    cases waits : pending.proxy with
    | uri address =>
      rw [candidates_uri, known address waits]
      exact ⟨_, rfl⟩
    | name name => exact ⟨_, rfl⟩
  have alike := ((twins_supplied (idle_of_bare bare)).trans (twins_candidates here asked)).alike
  obtain ⟨names, kept⟩ := content?_candidates asked held
  have alone : [target].filter (conforms found.set feature) = [target] := by
    rw [List.filter_singleton, conforms_of_alike alike, fits]
    rfl
  have after : (resolve (constantScope target) set home pending).set =
      bindAt found.set home pending target none := by
    unfold resolve
    rw [here]
    dsimp only
    rw [asked]
    dsimp only
    rw [alone]
    rfl
  rw [after, ResourceSet.referenceAt?, content?_bindAt, if_pos rfl, kept, Option.map_some,
    Option.bind_some, referenceAt?_bind, if_pos same.symm, ← Tree.referenceAt?_of_place same.symm]
  obtain ⟨value, found⟩ := Option.isSome_iff_exists.mp present
  exact congrArg (Option.map _) found

/-- Without a loader, each reference that waits is the last one that some run resolves. -/
theorem exists_run_ending (scope : Scope) (bare : set.loader = none)
    (held : set.content? home = some content) (member : pending ∈ waiting set home) :
    ∃ reached stop, set.Alike reached ∧ reached.loader = none ∧
      (link scope stop set).1 = (resolve scope reached home pending).set := by
  have queued : home ∈ set.uris := by
    obtain ⟨resource, found, _⟩ := Option.bind_eq_some_iff.mp held
    rw [← ResourceSet.uri_of_get? found]
    exact List.mem_map_of_mem (ResourceSet.mem_of_get? found)
  have enough : (Run.start set).queue.length ≤ visitBound set := by
    have members : (Run.start set).queue.length = set.size := List.length_map _
    unfold visitBound
    omega
  obtain ⟨later, left, arrives, rest⟩ :=
    @exists_arrives scope home (.start set) (visitBound set) bare queued enough
  have kept := arrives.content.trans held
  obtain ⟨queue, turn⟩ := arrives.queue
  rw [waiting_eq held] at member
  obtain ⟨before, after, cut⟩ := List.append_of_mem member
  -- the run is to stop once all up to the reference have been visited
  let limit := later.progress.visited + (before.length + 1)
  let stop : Progress → Bool := fun progress => decide (limit ≤ progress.visited)
  let arrived : Run := { later with queue }
  let reached := visits scope home arrived before
  have free : ∀ progress : Progress, progress.visited < limit → stop progress = false :=
    fun progress early => decide_eq_false (Nat.not_le.mpr early)
  have bare' : later.set.loader = none := arrives.twins.loader.trans bare
  have on_the_way := @continues_visits scope home arrived before fun _ _ => idle_of_bare bare'
  have counted := @visited_visits scope home arrived (before ++ [pending])
  have last : visits scope home arrived (before ++ [pending]) =
      reached.visit scope home pending := by
    simp [visits, reached]
  have stopped : stop (reached.visit scope home pending).progress = true := by
    rw [List.length_append, List.length_singleton, last] at counted
    exact decide_eq_true (Nat.le_of_eq counted.symm)
  have turned : (Run.visitAll scope stop home arrived (waiting later.set home)).1 =
      reached.visit scope home pending := by
    rw [waiting_eq kept, cut, List.append_cons, visitAll_append, last]
    · exact visitAll_stopped stopped after
    · rwa [List.length_append]
  refine ⟨reached.set, stop, arrives.twins.alike.trans on_the_way.twins.alike,
    on_the_way.twins.loader.trans bare', ?_⟩
  have early : ∀ progress : Progress, progress.visited < later.progress.visited →
      stop progress = false := fun progress early => free progress (by omega)
  unfold link
  dsimp only
  rw [rest stop early, runWithin_of_turn turn left turned stopped, set_visit]

/-- A place that may be bound to an address is bound to it by some run. -/
theorem exists_run_binding (bare : set.loader = none)
    (bound : set.referenceAt? home slot = some (.bound target)) (may : MayBind set home slot other) :
    ∃ scope stop, (link scope stop set).1.referenceAt? home slot = some (.bound other) := by
  obtain ⟨content, held, value⟩ := Option.bind_eq_some_iff.mp bound
  obtain ⟨pending, member, same, known, site, feature, here, fits⟩ := may
  obtain ⟨reached, stop, grown, bare', ended⟩ :=
    exists_run_ending (constantScope other) bare held member
  obtain ⟨content', held', shape⟩ := grown.of_content held
  obtain ⟨site', here'⟩ := context?_of_alike grown here
  refine ⟨constantScope other, stop, ?_⟩
  rw [ended]
  refine bound_by_visit bare' held' ?_ same known here' ?_
  · rw [Tree.isSome_referenceAt?_of_shape shape, value]
    rfl
  · rw [conforms_of_alike grown, fits]

/-- A bound reference is kept by every run if nothing waits for its place. Without a loader, it
is kept by every run exactly if nothing that waits for its place may be bound to another node. It
does not matter how many turns the run takes. -/
theorem link_keeps_bound (bound : set.referenceAt? home slot = some (.bound target)) :
    ((∀ pending ∈ waiting set home, pending.slot.place ≠ slot.place) → ∀ scope stop turns,
      (linkWithin scope stop turns set).referenceAt? home slot = some (.bound target)) ∧
    (set.loader = none →
      ((∀ scope stop, (link scope stop set).1.referenceAt? home slot = some (.bound target)) ↔
        ∀ other, MayBind set home slot other → other = target) ∧
      ((∀ scope stop turns,
          (linkWithin scope stop turns set).referenceAt? home slot = some (.bound target)) ↔
        ∀ other, MayBind set home slot other → other = target)) := by
  have moved : (∀ scope stop, (link scope stop set).1.referenceAt? home slot = some (.bound target)) →
      ∀ other, MayBind set home slot other → set.loader = none → other = target := by
    intro kept other may bare
    obtain ⟨scope, stop, led⟩ := exists_run_binding bare bound may
    cases led.symm.trans (kept scope stop)
    rfl
  have stays : set.loader = none → (∀ other, MayBind set home slot other → other = target) →
      ∀ scope stop turns,
        (linkWithin scope stop turns set).referenceAt? home slot = some (.bound target) := by
    intro bare only scope stop turns
    obtain ⟨after, held', value', _⟩ := (safe_of_link bare bound only scope stop turns).held
    rw [ResourceSet.referenceAt?, held']
    exact value'
  refine ⟨fun free scope stop turns => ?_, fun bare => ⟨⟨fun kept other may => moved kept other may bare,
    fun only scope stop => stays bare only scope stop _⟩,
    fun kept other may => moved (fun scope stop => kept scope stop _) other may bare, stays bare⟩⟩
  obtain ⟨content, held, value⟩ := Option.bind_eq_some_iff.mp bound
  rw [waiting_eq held] at free
  obtain ⟨after, held', value', _⟩ := @settled_of_link scope set home slot target stop turns
    ⟨content, held, value, free⟩
  rw [ResourceSet.referenceAt?, held']
  exact value'

/-! ### A sample -/

def sampleUri : ResourceUri := ⟨"a.types"⟩

def sampleElement (index : Nat) : Uri := ⟨sampleUri, .ofSteps [⟨"elements", some index⟩]⟩

def sample : ResourceSet :=
  (({ languages := ({} : Languages).register Types.language } : ResourceSet).load sampleUri
    "type A extends B type B type C").1

def sampleSlot : SlotKey := ⟨1, 1, none⟩

def sampleLinked : ResourceSet := (link (globalScope .simple) (fun _ => false) sample).1

def sampleOverwritten : ResourceSet :=
  (sample.edit sampleUri fun tree =>
    (tree.run [.setReference 1 "extends" (.bound (sampleElement 2))], ())).1

/-- What has been linked stays, also under a scope that knows another type only. -/
theorem link_keeps_sampleLinked :
    (link (constantScope (sampleElement 2)) (fun _ => false) sampleLinked).1.referenceAt? sampleUri
      sampleSlot = some (.bound (sampleElement 1)) := by
  have seen : (sampleLinked.referenceAt? sampleUri sampleSlot, waiting sampleLinked sampleUri) =
      (some (.bound (sampleElement 1)), []) := by
    cbv
  obtain ⟨bound, none_waits⟩ := Prod.mk.inj seen
  rw [fst_link]
  apply (link_keeps_bound bound).1
  rw [none_waits]
  rintro _ ⟨⟩

/-- What was set by hand is gone after linking: the old name is linked in its place. -/
theorem link_replaces_sampleOverwritten :
    sampleOverwritten.referenceAt? sampleUri sampleSlot = some (.bound (sampleElement 2)) ∧
      (link (globalScope .simple) (fun _ => false) sampleOverwritten).1.referenceAt? sampleUri
        sampleSlot = some (.bound (sampleElement 1)) := by
  have seen : (sampleOverwritten.referenceAt? sampleUri sampleSlot,
      (link (globalScope .simple) (fun _ => false) sampleOverwritten).1.referenceAt? sampleUri
        sampleSlot) =
      (some (.bound (sampleElement 2)), some (.bound (sampleElement 1))) := by
    cbv
  exact Prod.mk.inj seen

end Linking

end Crosslink
