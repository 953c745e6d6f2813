import ModularC.Standard.Names

/-!
The words that name a type while a module is parsed.
-/

namespace ModularC

/-- Registered type names, as a set and oldest first, and whether the standard library's type
names count too. Only membership in `names` is ever read: adding a name puts it in, and removing
a name takes every copy of it out. -/
structure TypeNames where
  names : List String
  order : List String
  standard : Bool
deriving DecidableEq, Repr, Inhabited

namespace TypeNames

/-- No names at all. -/
def empty : TypeNames := ⟨[], [], false⟩

/-- No registered names, but the standard type names are known. They can still be registered. -/
def withStandard : TypeNames := ⟨[], [], true⟩

/-- Whether `name` names a type. -/
def contains (s : TypeNames) (name : String) : Bool :=
  s.names.contains name || (s.standard && Standard.typeNames.contains name)

/-- Registers `name`; `false` when the set holds it already, and then nothing changes. -/
def register (s : TypeNames) (name : String) : Bool × TypeNames :=
  if s.names.contains name then (false, s)
  else (true, { s with names := name :: s.names, order := s.order ++ [name] })

/-- Registers names known before parsing, skipping repeats. -/
def supply (s : TypeNames) (names : List String) : TypeNames :=
  names.foldl (fun s name => (s.register name).2) s

/-- How many names are registered. -/
def size (s : TypeNames) : Nat := s.order.length

def isEmpty (s : TypeNames) : Bool := s.order.isEmpty

/-- The mark a rollback returns to. -/
def checkpoint (s : TypeNames) : Nat := s.size

/-- Drops the names registered after the checkpoint `k`: cuts the order there and takes each
name after it out of the set. -/
def rollback (s : TypeNames) (k : Nat) : TypeNames :=
  { s with
    names := (s.order.drop k).foldl (fun names name => names.filter (· != name)) s.names
    order := s.order.take k }

end TypeNames

end ModularC
