import Crosslink.Description.Delta
import Crosslink.ResourceSet

/-! Descriptions that are kept for as long as their resource does not change. -/

set_option autoImplicit false

namespace Crosslink.Description

structure Cache where
  strategy : Strategy
  entries : OrderedMap ResourceUri Description := {}

namespace Cache

def get? (cache : Cache) (uri : ResourceUri) : Option Description := cache.entries.get? uri

def size (cache : Cache) : Nat := cache.entries.size

/-- The kept description, if it describes the present state of the resource. -/
def current? (cache : Cache) (resource : Resource) : Option Description :=
  (cache.get? resource.uri).filter (·.stamp = resource.stamp)

/-- The description of the present state, which is computed if need be. -/
def describe (cache : Cache) (resource : Resource) : Cache × Description :=
  match cache.current? resource with
  | some description => (cache, description)
  | none =>
    let description := compute cache.strategy resource
    ({ cache with entries := cache.entries.insert resource.uri description }, description)

def describeAll (cache : Cache) : List Resource → Cache × List Description
  | [] => (cache, [])
  | resource :: rest =>
    let (cache, description) := cache.describe resource
    let (cache, more) := cache.describeAll rest
    (cache, description :: more)

def invalidate (cache : Cache) (uri : ResourceUri) : Cache :=
  { cache with entries := cache.entries.erase uri }

def clear (cache : Cache) : Cache := { cache with entries := {} }

/-- How the resource changed since its description was last kept. -/
def delta (cache : Cache) (resource : Resource) : Cache × Delta :=
  let (after, description) := cache.describe resource
  (after, ⟨resource.uri, cache.get? resource.uri, some description⟩)

def removal (cache : Cache) (uri : ResourceUri) : Cache × Delta :=
  (cache.invalidate uri, ⟨uri, cache.get? uri, none⟩)

end Cache

end Crosslink.Description
