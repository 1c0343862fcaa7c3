import ChunkFilters.Filter.Id

/-!
# Plugins

A plugin announces something that belongs to a filter, under the identifier of that filter, and
creates it when asked to.
-/

namespace ChunkFilters

structure Plugin (α : Type) where
  filterId : FilterId
  create : Unit → α

namespace Plugin

variable {α : Type}

/-- Whether the plugin belongs to the filter with the given identifier. -/
def isFor (plugin : Plugin α) (id : FilterId) : Bool := plugin.filterId == id

/-- Only the identifier is shown; what the plugin creates is left open. -/
instance : ToString (Plugin α) :=
  ⟨fun plugin => s!"Plugin \x7b filter_id: FilterId({plugin.filterId}), .. \x7d"⟩

end Plugin

end ChunkFilters
