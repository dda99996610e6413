import NetBridge.Table

/-! # Trees of named fields

Pads, layouts, pins and their parameters all have the form of a tree: a leaf
carries a value, a group has named fields in order. -/
namespace NetBridge

inductive FieldTree (α : Type) where
  | leaf (value : α)
  | group (fields : List (String × FieldTree α))

namespace FieldTree

variable {α β : Type}

instance [Inhabited α] : Inhabited (FieldTree α) := ⟨.leaf default⟩

def leaf? : FieldTree α → Option α
  | leaf value => some value
  | group _ => none

def field? : FieldTree α → String → Option (FieldTree α)
  | leaf _, _ => none
  | group fields, name => Table.get? fields name

/-- Follows a path of field names. -/
def at? : FieldTree α → List String → Option (FieldTree α)
  | t, [] => some t
  | t, name :: path => (t.field? name).bind (at? · path)

mutual

def map (f : α → β) : FieldTree α → FieldTree β
  | leaf value => leaf (f value)
  | group fields => group (mapFields f fields)

def mapFields (f : α → β) : List (String × FieldTree α) → List (String × FieldTree β)
  | [] => []
  | (name, t) :: rest => (name, map f t) :: mapFields f rest

end

mutual

/-- The values at the leaves, depth first. -/
def leaves : FieldTree α → List α
  | leaf value => [value]
  | group fields => fieldLeaves fields

def fieldLeaves : List (String × FieldTree α) → List α
  | [] => []
  | (_, t) :: rest => leaves t ++ fieldLeaves rest

end

theorem keys_mapFields (f : α → β) (fields : List (String × FieldTree α)) :
    Table.keys (mapFields f fields) = Table.keys fields := by
  induction fields with
  | nil => rfl
  | cons field rest ih => exact congrArg (field.1 :: ·) ih

mutual

theorem map_congr {f g : α → β} : ∀ {t : FieldTree α}, (∀ a ∈ t.leaves, f a = g a) →
    t.map f = t.map g
  | leaf a, h => congrArg leaf (h a List.mem_cons_self)
  | group _, h => congrArg group (mapFields_congr h)

theorem mapFields_congr {f g : α → β} : ∀ {fields : List (String × FieldTree α)},
    (∀ a ∈ fieldLeaves fields, f a = g a) → mapFields f fields = mapFields g fields
  | [], _ => rfl
  | (name, t) :: rest, h => by
    have first : t.map f = t.map g := map_congr fun a ha => h a (List.mem_append_left _ ha)
    have others : mapFields f rest = mapFields g rest :=
      mapFields_congr fun a ha => h a (List.mem_append_right _ ha)
    rw [mapFields, mapFields, first, others]

end

end FieldTree

end NetBridge
