import Crosslink.Metamodel.Feature
import Crosslink.QualifiedName
import Crosslink.Uri

/-! The values of features: scalars, and references that may still be open. -/

set_option autoImplicit false

namespace Crosslink

/-- The position of a node in its tree, counted in the order of creation. -/
abbrev NodeId := Nat

inductive Value where
  | string (text : String)
  | int (number : Int)
  | bool (truth : Bool)
  deriving DecidableEq, Repr

namespace Value

def text : Value → String
  | string text => text
  | int number => toString number
  | bool true => "true"
  | bool false => "false"

def asString? : Value → Option String
  | string text => some text
  | _ => none

def asInt? : Value → Option Int
  | int number => some number
  | _ => none

def asBool? : Value → Option Bool
  | bool truth => some truth
  | _ => none

end Value

/-- What stands for the target of a reference that is not bound. -/
inductive Proxy where
  /-- A written name, to be looked up in a scope. -/
  | name (written : QualifiedName)
  /-- A known address, to be dereferenced in a set of resources. -/
  | uri (target : Uri)
  deriving DecidableEq, Repr

def Proxy.text : Proxy → String
  | name written => written.text
  | uri target => target.text

inductive Reference where
  | bound (target : Uri)
  | unresolved (proxy : Proxy)
  deriving DecidableEq, Repr

namespace Reference

def isBound : Reference → Bool
  | bound _ => true
  | unresolved _ => false

def target? : Reference → Option Uri
  | bound target => some target
  | unresolved _ => none

def proxy? : Reference → Option Proxy
  | bound _ => none
  | unresolved proxy => some proxy

end Reference

/-- Where one reference value sits. A feature with one value has no index. -/
structure SlotKey where
  source : NodeId
  feature : FeatureId
  index : Option Nat
  deriving DecidableEq, Repr

/-- A reference value that waits to be bound. -/
structure Pending extends SlotKey where
  proxy : Proxy
  deriving DecidableEq, Repr

namespace Pending

abbrev slot (pending : Pending) : SlotKey := pending.toSlotKey

end Pending

end Crosslink
