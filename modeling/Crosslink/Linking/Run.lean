import Crosslink.Linking.Resolution

/-! Linking: binding the open references of all resources of a set.

Resources are visited in the order of the set and their references in the order
of the document. A resource that is loaded on the way waits for its turn at the
end, also when its turn had come before. Whether to go on is asked before each
reference, and what was not visited stays open.
-/

set_option autoImplicit false

namespace Crosslink.Linking

structure Progress where
  visited : Nat := 0
  lookups : Nat := 0
  bound : Nat := 0
  deriving DecidableEq, Repr

inductive Ending where
  | finished
  | cancelled
  /-- More resources had to be visited than the bound admits. -/
  | exhausted
  deriving DecidableEq, Repr

structure Run where
  set : ResourceSet
  /-- The resources that wait for their turn, each once. -/
  queue : List ResourceUri
  progress : Progress := {}

namespace Run

/-- All members wait in the order of the set. -/
def start (set : ResourceSet) : Run := { set, queue := set.uris }

/-- Let a resource wait, unless it waits already. -/
def enqueue (run : Run) (uri : ResourceUri) : Run :=
  if uri ∈ run.queue then run else { run with queue := run.queue ++ [uri] }

def visit (run : Run) (scope : Scope) (home : ResourceUri) (pending : Pending) : Run :=
  let resolution := resolve scope run.set home pending
  let after : Run :=
    { run with
      set := resolution.set
      progress :=
        { visited := run.progress.visited + 1
          lookups := run.progress.lookups + resolution.isLookup.toNat
          bound := run.progress.bound + resolution.isBound.toNat } }
  match resolution.loaded with
  | some uri => after.enqueue uri
  | none => after

/-- Visit references until all are visited or the run is to stop; the answer
says whether it stopped. -/
def visitAll (scope : Scope) (stop : Progress → Bool) (home : ResourceUri) :
    Run → List Pending → Run × Bool
  | run, [] => (run, false)
  | run, pending :: rest =>
    if stop run.progress then (run, true)
    else visitAll scope stop home (run.visit scope home pending) rest

/-- Visit at most `bound` resources. -/
def runWithin (scope : Scope) (stop : Progress → Bool) : Nat → Run → Run × Ending
  | 0, run => (run, if run.queue.isEmpty then .finished else .exhausted)
  | bound + 1, run =>
    match run.queue with
    | [] => (run, .finished)
    | home :: queue =>
      let pending := ((run.set.get? home).map Resource.pending).getD []
      match visitAll scope stop home { run with queue } pending with
      | (run, true) => (run, .cancelled)
      | (run, false) => runWithin scope stop bound run

end Run

/-- A reference that waits with a known address. -/
def waitsForAddress (pending : Pending) : Bool :=
  match pending.proxy with
  | .uri _ => true
  | .name _ => false

/-- How many resources have to be visited at most when texts hold names only:
each once, and once more for each address that may have to be loaded. -/
def visitBound (set : ResourceSet) : Nat :=
  set.size + (set.resources.flatMap fun resource => resource.pending.filter waitsForAddress).length

structure Outcome where
  bound : Nat
  unresolved : Nat
  lookups : Nat
  ending : Ending
  deriving DecidableEq, Repr

/-- Bind what can be bound until there is a reason to stop. -/
def link (scope : Scope) (stop : Progress → Bool) (set : ResourceSet) : ResourceSet × Outcome :=
  let (run, ending) := Run.runWithin scope stop (visitBound set) (.start set)
  (run.set,
    { bound := run.progress.bound
      unresolved := (run.set.resources.flatMap (·.pending)).length
      lookups := run.progress.lookups
      ending })

end Crosslink.Linking
