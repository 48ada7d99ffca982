import Crosslink.Proofs.Linking.Ordering
import Crosslink.Proofs.Linking.Serving
import Crosslink.Proofs.Resource.Diagnosing
import Crosslink.Proofs.ResourceSet.Holding

/-! Diagnostics over all that happens to a set.

A run looks at what waits, and writes anew what it has to say about it. A slot for
which nothing waits is not looked at again, so that its diagnostic is as old as
the binding. When a run has finished, all diagnostics are current exactly if
those of such slots have stayed current since, and edits alone can see to that.
-/

set_option autoImplicit false

namespace Crosslink

open Linking

namespace Linking

variable {scope : Scope} {set : ResourceSet} {home uri : ResourceUri} {pending : Pending}
  {rest : List Pending} {content : Content} {kind : ResourceUri → Content → Prop} {slot : SlotKey}

def Visitable (set : ResourceSet) (home : ResourceUri) (entries : List Pending) : Prop :=
  ∀ pending ∈ entries, ∃ content, set.content? home = some content ∧ content.tree.Lists pending.slot

/-- A kind of contents in which all has its place, and which comes of reading, of opening
references, and of visits. -/
structure Persistent (kind : ResourceUri → Content → Prop) : Prop where
  anchored : ∀ {uri content}, kind uri content → content.Anchored
  lasting : ∀ {uri content}, content.Anchored → content.Lasting uri → kind uri content
  opens : ∀ {home content} uri, kind home content → kind home ((content.demote? uri).getD content)
  visits : ∀ {scope set home content pending}, set.content? home = some content →
    content.tree.Lists pending.slot → kind home content →
      kind home (content.settle pending (verdict scope set home pending))

theorem persistent_anchored : Persistent fun _ content => content.Anchored where
  anchored fine := fine
  lasting fine _ := fine
  opens uri fine := fine.demoted uri
  visits _ visited fine := fine.settle visited _

structure Fine (uri : ResourceUri) (content : Content) : Prop where
  anchored : content.Anchored
  lasting : content.Lasting uri

theorem persistent_fine : Persistent Fine where
  anchored fine := fine.anchored
  lasting anchored lasting := ⟨anchored, lasting⟩
  opens uri fine := ⟨fine.anchored.demoted uri, fine.lasting.demoted fine.anchored uri⟩
  visits held visited fine :=
    ⟨fine.anchored.settle visited _, fine.lasting.visited fine.anchored held visited⟩

theorem Persistent.reads (persistent : Persistent kind) {language : Language}
    (reads : language.Reads Content.Anchored) : language.Reads (kind uri) :=
  fun text => persistent.lasting (reads text) (Content.lasting_of_clean rfl)

/-! ### One visit -/

theorem Persistent.visit (persistent : Persistent kind) (holding : set.Holding kind)
    (held : set.content? home = some content) (visited : content.tree.Lists pending.slot) :
    (resolve scope set home pending).set.Holding kind := by
  refine holding_resolve holding persistent.opens fun before held' fine => ?_
  cases (content?_supplied held).symm.trans held'
  exact persistent.visits held visited fine

theorem Visitable.resolve (persistent : Persistent kind) (holding : set.Holding kind)
    (visitable : Visitable set home (pending :: rest)) :
    Visitable (Linking.resolve scope set home pending).set home rest := by
  intro later member
  obtain ⟨content, held, listed⟩ := visitable later (List.mem_cons_of_mem _ member)
  have consistent := (persistent.anchored (holding.content? held)).consistent
  exact ⟨_, content?_resolve_self held,
    (Tree.lists_of_shape Content.shape_settle consistent).mpr listed⟩

theorem visitable_waiting (persistent : Persistent kind) (holding : set.Holding kind) :
    Visitable set home (waiting set home) := by
  intro pending member
  cases held : set.content? home with
  | none =>
    rw [waiting_of_closed held] at member
    cases member
  | some content =>
    rw [waiting_eq held] at member
    exact ⟨content, rfl, (persistent.anchored (holding.content? held)).waits member⟩

/-- Linking keeps the kind, wherever it stops. -/
theorem holding_link (persistent : Persistent kind) (holding : set.Holding kind)
    (stop : Progress → Bool) : (link scope stop set).1.Holding kind := by
  refine @linkWithin_induction scope set (·.Holding kind)
    (fun home set entries => Visitable set home entries) stop (visitable_waiting persistent) ?_
    (visitBound set) holding
  intro set home pending rest holding visitable
  obtain ⟨content, held, listed⟩ := visitable pending List.mem_cons_self
  exact ⟨persistent.visit holding held listed, visitable.resolve persistent holding⟩

/-! ### What a run does not look at -/

def Keeps (uri : ResourceUri) (content : Content) (slot : SlotKey) (set : ResourceSet) : Prop :=
  ∃ after, set.content? uri = some after ∧ after.tree.shape = content.tree.shape ∧
    after.view slot = content.view slot

/-- A run leaves the slots that rest as they are. -/
theorem keeps_link (persistent : Persistent kind) (holding : set.Holding kind)
    (held : set.content? uri = some content) (rests : content.Rests slot) (stop : Progress → Bool) :
    Keeps uri content slot (link scope stop set).1 := by
  have anchored := persistent.anchored (holding.content? held)
  obtain ⟨⟨diagnostic, noted⟩, idle⟩ := rests
  have listed := anchored.notes noted
  refine (@linkWithin_induction scope set (fun set => set.Holding kind ∧ Keeps uri content slot set)
    (fun home set entries => Visitable set home entries ∧
      (home = uri → ∀ pending ∈ entries, slot ≠ pending.slot)) stop ?turn ?step (visitBound set)
    ⟨holding, content, held, rfl, rfl⟩).2
  case turn =>
    rintro set home ⟨holding, after, held, _, same⟩
    refine ⟨visitable_waiting persistent holding, ?_⟩
    rintro rfl pending member rfl
    rw [waiting_eq held] at member
    exact idle ((Content.awaits_of_view same).mp (Content.awaits_of_mem member))
  case step =>
    rintro set home pending rest ⟨holding, after, held, shape, same⟩ ⟨visitable, apart⟩
    obtain ⟨before, held', visited⟩ := visitable pending List.mem_cons_self
    refine ⟨⟨persistent.visit holding held' visited, ?_⟩,
      visitable.resolve persistent holding,
      fun here later member => apart here later (List.mem_cons_of_mem _ member)⟩
    by_cases here : uri = home
    · subst here
      cases held.symm.trans held'
      have there : after.tree.Lists slot := (Tree.lists_of_shape shape anchored.consistent).mpr listed
      have consistent := (persistent.anchored (holding.content? held)).consistent
      have unseen := Content.view_settle_of_ne there visited consistent
        (apart rfl pending List.mem_cons_self) (verdict scope set uri pending)
      exact ⟨_, content?_resolve_self held, Content.shape_settle.trans shape, unseen.trans same⟩
    · exact ⟨after, content?_resolve_of_loaded here held, shape, same⟩

/-! ### What a finished run has looked at -/

theorem clean_of_supply? (had : set.supply? uri = some content) : content.linkDiagnostics = {} := by
  obtain ⟨loader, _, answered⟩ := Option.bind_eq_some_iff.mp had
  obtain ⟨text, _, read⟩ := Option.bind_eq_some_iff.mp answered
  obtain ⟨language, _, rfl⟩ := Option.map_eq_some_iff.mp read
  rfl

/-- What holds in the turn of a resource: a diagnostic is current, or its slot is still to come. -/
structure Overdue (kind : ResourceUri → Content → Prop) (queue : List ResourceUri)
    (home : ResourceUri) (set : ResourceSet) (rest : List Pending) : Prop where
  holding : set.Holding kind
  visitable : Visitable set home rest
  notes : ∀ {uri content slot diagnostic}, set.content? uri = some content →
    (slot, diagnostic) ∈ content.linkDiagnostics.entries →
      content.Current uri slot diagnostic ∨ uri ∈ queue ∧ content.Awaits slot ∨
        uri = home ∧ ∃ pending ∈ rest, pending.slot = slot

variable {queue : List ResourceUri}

theorem Overdue.visit (persistent : Persistent kind)
    (overdue : Overdue kind queue home set (pending :: rest)) :
    Overdue kind queue home (resolve scope set home pending).set rest := by
  obtain ⟨own, held, visited⟩ := overdue.visitable pending List.mem_cons_self
  refine ⟨persistent.visit overdue.holding held visited,
    overdue.visitable.resolve persistent overdue.holding, ?_⟩
  intro uri after slot diagnostic found noted
  by_cases here : uri = home
  · subst here
    cases (content?_resolve_self held).symm.trans found
    have anchored := persistent.anchored (overdue.holding.content? held)
    by_cases asked : slot = pending.slot
    · subst asked
      exact .inl (Content.current_of_visit anchored held visited noted)
    · have earlier := (Content.noted_settle_of_ne asked).mp noted
      have unseen := Content.view_settle_of_ne (anchored.notes earlier) visited anchored.consistent
        asked (verdict scope set uri pending)
      rcases overdue.notes held earlier with current | ⟨queued, waits⟩ | ⟨_, other, member, same⟩
      · exact .inl (current.of_view Content.shape_settle unseen)
      · exact .inr (.inl ⟨queued, (Content.awaits_of_view unseen).mpr waits⟩)
      · refine .inr (.inr ⟨rfl, other, (List.mem_cons.mp member).resolve_left ?_, same⟩)
        rintro rfl
        exact asked same.symm
  · cases loaded : set.content? uri with
    | none =>
      rw [clean_of_supply? (loaded_of_new here loaded found).2] at noted
      cases noted
    | some before =>
      cases (content?_resolve_of_loaded here loaded).symm.trans found
      rcases overdue.notes loaded noted with current | queued | ⟨same, _⟩
      · exact .inl current
      · exact .inr (.inl queued)
      · exact absurd same here

theorem queue_subset_visits (entries : List Pending) (run : Run) :
    run.queue ⊆ (visits scope home run entries).queue := by
  induction entries generalizing run with
  | nil => exact fun _ member => member
  | cons pending rest ih => exact fun _ member => ih _ (mem_queue_visit.mpr (.inl member))

structure Due (kind : ResourceUri → Content → Prop) (run : Run) : Prop where
  holding : run.set.Holding kind
  notes : ∀ {uri content slot diagnostic}, run.set.content? uri = some content →
    (slot, diagnostic) ∈ content.linkDiagnostics.entries →
      content.Current uri slot diagnostic ∨ uri ∈ run.queue ∧ content.Awaits slot

theorem Due.turn (persistent : Persistent kind) {run : Run} (due : Due kind run)
    (waits : run.queue = home :: queue) :
    Due kind (visits scope home { run with queue } (waiting run.set home)) := by
  have begun : Overdue kind queue home run.set (waiting run.set home) := by
    refine ⟨due.holding, visitable_waiting persistent due.holding, ?_⟩
    intro uri content slot diagnostic held noted
    rcases due.notes held noted with current | ⟨queued, awaits⟩
    · exact .inl current
    · rw [waits, List.mem_cons] at queued
      rcases queued with rfl | later
      · obtain ⟨proxy, waiting⟩ := awaits
        exact .inr (.inr ⟨rfl, _, (waiting_eq held).symm ▸ waiting, rfl⟩)
      · exact .inr (.inl ⟨later, awaits⟩)
  have ended := @visits_induction scope home (Overdue kind queue home)
    (fun overdue => overdue.visit persistent) { run with queue } (waiting run.set home) []
    (by rwa [List.append_nil])
  refine ⟨ended.holding, fun held noted => ?_⟩
  rcases ended.notes held noted with current | ⟨queued, awaits⟩ | ⟨_, _, member, _⟩
  · exact .inl current
  · exact .inr ⟨queue_subset_visits _ _ queued, awaits⟩
  · cases member

end Linking

namespace ResourceSet

variable {set : ResourceSet}

def IsDiagnosed (set : ResourceSet) : Prop :=
  ∀ {uri content slot diagnostic}, set.content? uri = some content →
    (slot, diagnostic) ∈ content.linkDiagnostics.entries → content.Current uri slot diagnostic

/-- Diagnostics at slots that rest are current. -/
def Lasting (set : ResourceSet) : Prop :=
  ∀ uri content, set.content? uri = some content → content.Lasting uri

end ResourceSet

namespace Linking

variable {scope : Scope} {set : ResourceSet} {kind : ResourceUri → Content → Prop}
  {stop : Progress → Bool}

theorem diagnosed_of_finished (holding : set.Holding Fine)
    (finished : (link scope stop set).2.ending = .finished) : (link scope stop set).1.IsDiagnosed := by
  cases ran : Run.runWithin scope stop (visitBound set) (.start set) with
  | mk last ending =>
    obtain ⟨after, _, ended⟩ := link_of_run ran
    obtain rfl := ended.symm.trans finished
    have begun : Due Fine (.start set) := by
      refine ⟨holding, fun {uri content slot diagnostic} held noted => ?_⟩
      obtain ⟨resource, found, _⟩ := Option.bind_eq_some_iff.mp held
      have queued : uri ∈ set.uris := by
        rw [← ResourceSet.uri_of_get? found]
        exact List.mem_map_of_mem (ResourceSet.mem_of_get? found)
      by_cases waits : content.Awaits slot
      · exact .inr ⟨queued, waits⟩
      · exact .inl ((holding.content? held).lasting slot diagnostic noted waits)
    obtain ⟨due, empty⟩ := runWithin_finished (fun due waits => due.turn persistent_fine waits)
      begun ran
    rw [after]
    intro uri content slot diagnostic held noted
    refine (due.notes held noted).resolve_right fun ⟨queued, _⟩ => ?_
    rw [empty] at queued
    cases queued

/-- When a run has finished, the diagnostics of all references are current exactly if before it
those at slots that rest were. -/
theorem diagnosed_link_iff (holding : set.Holding fun _ content => content.Anchored)
    (finished : (link scope stop set).2.ending = .finished) :
    (link scope stop set).1.IsDiagnosed ↔ set.Lasting := by
  constructor
  · intro diagnosed uri content held slot diagnostic noted idle
    obtain ⟨after, held', shape, same⟩ := keeps_link persistent_anchored holding held
      ⟨⟨diagnostic, noted⟩, idle⟩ stop
    have kept : (after.view slot).wrong diagnostic := by
      rw [same]
      exact noted
    exact (diagnosed held' kept).of_view shape.symm same.symm
  · intro lasting
    refine diagnosed_of_finished ⟨holding.once, fun resource member => ?_, fun uri language known =>
      persistent_fine.reads (holding.reads uri language known)⟩ finished
    have own := holding.members resource member
    refine ⟨fun content filled => ⟨own.content content filled, lasting _ content ?_⟩, fun language spoken =>
      persistent_fine.reads (own.reads language spoken)⟩
    exact (ResourceSet.content?_of_mem holding.once member).trans filled

end Linking

end Crosslink
