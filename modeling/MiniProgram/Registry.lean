import MiniProgram.Compiler.Basic

/-!
# Registries of compilers

A registry holds compilers under names. A registration has a priority and may be restricted to
projects below a directory. Of those that apply, the one with the highest priority is chosen, and
among equals the one that was registered first.
-/

namespace MiniProgram

/-- A compiler that is registered under a name. -/
structure Registration (m : Type → Type) where
  name : String
  priority : Nat
  scope : Option Path
  implementation : Implementation m

/-- The registrations in the order in which they were made. -/
abbrev Registry (m : Type → Type) := List (Registration m)

namespace Registry

variable {m : Type → Type}

/-- The registry with one more registration. -/
def register (registry : Registry m) (registration : Registration m) : Registry m :=
  registry ++ [registration]

/-- A registration that applies to a name and a project. -/
def applies (registration : Registration m) (name : String) (root : Path) : Bool :=
  registration.name == name && registration.scope.all root.startsWith

/-- `preferred best next` is the registration of higher priority, or else the earlier one. -/
def preferred (best : Option (Registration m)) (next : Registration m) :
    Option (Registration m) :=
  match best with
  | none => some next
  | some old => if old.priority < next.priority then some next else some old

/-- The registration that is chosen for a name and a project. -/
def choose (registry : Registry m) (name : String) (root : Path) : Option (Registration m) :=
  (registry.filter fun registration => applies registration name root).foldl preferred none

/-- Finds the compiler of a name among the registrations. -/
def resolve [Monad m] (registry : Registry m) : Resolver m := fun name root =>
  match registry.choose name root with
  | none => throw (.packageNotFound name root)
  | some registration => return registration.implementation

end Registry

end MiniProgram
