import NetBridge.Pad.Mode

/-! # Specs along field paths

A spec that suits a pad says the same about a leaf whether it is handed down from group to
group or followed along the field path of the leaf. -/
namespace NetBridge

variable {α β : Type}

/-- A name with a field path behind it, an underscore before each field. -/
def pathName (name : String) (path : List String) : String :=
  path.foldl (fun name field => s!"{name}_{field}") name

namespace FieldTree

mutual

/-- The values at the leaves with their field paths, depth first. -/
def paths : FieldTree α → List (List String × α)
  | leaf value => [([], value)]
  | group fields => fieldPaths fields

def fieldPaths : List (String × FieldTree α) → List (List String × α)
  | [] => []
  | (name, t) :: rest => t.paths.map (fun p => (name :: p.1, p.2)) ++ fieldPaths rest

end

end FieldTree

namespace Spec

/-- What a spec says about a field path. A value is for everything below it, and a field
that is not named is left out. -/
def valueAt : Option (Spec α) → List String → Option α
  | none, _ => none
  | some (.leaf value), _ => some value
  | some (.group _), [] => none
  | some (.group fields), name :: path => valueAt (Table.get? fields name) path

/-- A spec for each field is met by a group that has these fields, at every depth. -/
inductive WellShaped : Option (Spec α) → FieldTree β → Prop
  | absent {t : FieldTree β} : WellShaped none t
  | uniform {value : α} {t : FieldTree β} : WellShaped (some (.leaf value)) t
  | perField {specs : List (String × Spec α)} {fields : List (String × FieldTree β)} :
    (∀ name ∈ Table.keys specs, name ∈ Table.keys fields) →
    (∀ p ∈ fields, WellShaped (Table.get? specs p.1) p.2) →
    WellShaped (some (.group specs)) (.group fields)

theorem valueAt_cons (spec : Option (Spec α)) (name : String) (path : List String) :
    valueAt spec (name :: path) = valueAt (forField spec name) path := by
  cases spec with
  | none => rw [forField, valueAt, valueAt]
  | some spec =>
    cases spec with
    | leaf value => rw [forField, valueAt, valueAt]
    | group fields => rw [forField, valueAt]

namespace WellShaped

variable {spec : Option (Spec α)} {fields : List (String × FieldTree β)}

theorem forField (h : WellShaped spec (.group fields)) {p : String × FieldTree β}
    (hp : p ∈ fields) : WellShaped (forField spec p.1) p.2 := by
  cases h with
  | absent => exact .absent
  | uniform => exact .uniform
  | perField known below => exact below p hp

theorem no_stray (h : WellShaped spec (.group fields)) :
    strayField? spec (Table.keys fields) = none := by
  cases h with
  | absent => rfl
  | uniform => rfl
  | perField known below =>
    exact List.find?_eq_none.mpr fun name hname => by simpa using known name hname

/-- What reaches a leaf is what is found at the end of its path. -/
theorem at_leaf {a : β} (h : WellShaped spec (.leaf a)) : (valueAt spec []).map .leaf = spec := by
  cases h with
  | absent => rfl
  | uniform => rfl

end WellShaped

end Spec

end NetBridge
