import AuditedRules.Registry

/-!
# Shared registries

A registry is used through handles. Several handles may share one registry: what is done through one
of them shows through the others.
-/

namespace AuditedRules

/-- Registries, and the handles on them. -/
structure SharedRegistries where
  /-- The registries. -/
  registries : List Registry
  /-- For each handle, the place of its registry among them. -/
  handles : List Nat

namespace SharedRegistries

/-- No registries and no handles. -/
def none : SharedRegistries := ⟨[], []⟩

/-- Adds a registry with a handle of its own. -/
def add (shared : SharedRegistries) (registry : Registry) : SharedRegistries :=
  ⟨shared.registries ++ [registry], shared.handles ++ [shared.registries.length]⟩

/-- Adds a further handle on the registry of a handle. -/
def share (shared : SharedRegistries) (handle : Nat) : SharedRegistries :=
  match shared.handles[handle]? with
  | some place => { shared with handles := shared.handles ++ [place] }
  | .none => shared

/-- The registry of a handle. -/
def get? (shared : SharedRegistries) (handle : Nat) : Option Registry := do
  shared.registries[← shared.handles[handle]?]?

/-- Changes the registry of a handle. -/
def modify (shared : SharedRegistries) (handle : Nat) (change : Registry → Registry) :
    SharedRegistries :=
  match shared.handles[handle]? with
  | some place => { shared with registries := shared.registries.modify place change }
  | .none => shared

/-- The registries of all handles, in the order of the handles. -/
def views (shared : SharedRegistries) : List Registry :=
  shared.handles.filterMap fun place => shared.registries[place]?

end SharedRegistries

end AuditedRules
