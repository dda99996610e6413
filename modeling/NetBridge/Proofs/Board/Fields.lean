import NetBridge.Proofs.Board.Validation
import NetBridge.Proofs.Pad.Path
import NetBridge.Proofs.Toml.Distinct

/-! # Fields that occur once

A table of a document has no key twice, so that in a board that is read from one no group has a
field twice, and different leaves of a layout have different field paths. -/
namespace NetBridge

open Toml (Entries Value)

/-- The group has no field twice. -/
def ResourceNode.FieldsOnce : ResourceNode → Prop
  | mk _ _ fields => (Table.keys fields).Nodup

namespace FieldTree

variable {α : Type}

/-- The field paths of the leaves. -/
def leafPaths (t : FieldTree α) : List (List String) := t.paths.map Prod.fst

def fieldLeafPaths (fields : List (String × FieldTree α)) : List (List String) :=
  (fieldPaths fields).map Prod.fst

theorem fieldLeafPaths_cons (name : String) (t : FieldTree α)
    (rest : List (String × FieldTree α)) :
    fieldLeafPaths ((name, t) :: rest) = t.leafPaths.map (name :: ·) ++ fieldLeafPaths rest := by
  rw [fieldLeafPaths, fieldPaths, List.map_append, List.map_map, leafPaths, List.map_map]
  rfl

/-- A path through a group starts with one of its fields. -/
theorem head_of_mem_fieldLeafPaths {fields : List (String × FieldTree α)} {path : List String}
    (h : path ∈ fieldLeafPaths fields) :
    ∃ name rest, path = name :: rest ∧ name ∈ Table.keys fields := by
  induction fields with
  | nil => cases h
  | cons field others ih =>
    obtain ⟨name, t⟩ := field
    rw [fieldLeafPaths_cons] at h
    rcases List.mem_append.mp h with h | h
    · obtain ⟨rest, -, rfl⟩ := List.mem_map.mp h
      exact ⟨name, rest, rfl, List.mem_cons_self⟩
    · obtain ⟨name', rest, rfl, known⟩ := ih h
      exact ⟨name', rest, rfl, List.mem_cons_of_mem _ known⟩

end FieldTree

namespace ResourceNode

theorem fieldNodes_eq : ∀ fields : List (String × ResourceNode),
    fieldNodes fields = fields.flatMap fun p => p.2.nodes
  | [] => rfl
  | (_, node) :: rest => congrArg (node.nodes ++ ·) (fieldNodes_eq rest)

theorem MirrorsEach.keys_eq {fields : List (String × ResourceNode)}
    {layouts : List (String × Layout)} (h : MirrorsEach fields layouts) : Table.keys layouts = Table.keys fields := by
  induction fields generalizing layouts with
  | nil => cases h; rfl
  | cons p rest ih =>
    cases h with
    | cons _ others => exact congrArg (_ :: ·) (ih others)

mutual

theorem Mirrors.leafPaths_nodup : ∀ {node : ResourceNode} {layout : Layout}, node.Mirrors layout →
    (∀ n ∈ node.nodes, n.FieldsOnce) → layout.leafPaths.Nodup
  | mk (some _) _ [], _, .pad, _ => List.nodup_singleton _
  | mk none _ fields, .group layouts, .group each, once => by
    obtain ⟨here, below⟩ := List.forall_mem_cons.mp once
    exact MirrorsEach.fieldLeafPaths_nodup each here below

theorem MirrorsEach.fieldLeafPaths_nodup : ∀ {fields : List (String × ResourceNode)}
    {layouts : List (String × Layout)}, MirrorsEach fields layouts → (Table.keys fields).Nodup →
    (∀ n ∈ fieldNodes fields, n.FieldsOnce) →
    (FieldTree.fieldLeafPaths layouts).Nodup
  | [], [], .nil, _, _ => List.nodup_nil
  | (name, node) :: fields, (_, layout) :: layouts, .cons first others, here, below => by
    obtain ⟨absent, distinct⟩ := List.nodup_cons.mp here
    obtain ⟨inside, rest⟩ := List.forall_mem_append.mp below
    have here := first.leafPaths_nodup inside
    rw [FieldTree.fieldLeafPaths_cons]
    refine List.nodup_append.mpr ⟨here.map (List.cons_injective),
      MirrorsEach.fieldLeafPaths_nodup others distinct rest, ?_⟩
    rintro path hpath _ hother rfl
    obtain ⟨tail, -, rfl⟩ := List.mem_map.mp hpath
    obtain ⟨name', _, same, known⟩ := FieldTree.head_of_mem_fieldLeafPaths hother
    obtain ⟨rfl, -⟩ := List.cons.inj same
    rw [others.keys_eq] at known
    exact absent known

end

end ResourceNode

section Reading

variable {α β γ : Type} {f : α → Option β}

/-- What is read item by item comes from the items, -/
theorem exists_of_mapM : ∀ {xs : List α} {ys : List β}, xs.mapM f = some ys →
    ∀ y ∈ ys, ∃ x ∈ xs, f x = some y
  | [], _, h => by
    cases h
    simp
  | x :: xs, _, h => by
    rw [List.mapM_cons] at h
    obtain ⟨y, first, h⟩ := Option.bind_eq_some_iff.mp h
    obtain ⟨ys, others, h⟩ := Option.bind_eq_some_iff.mp h
    cases h
    refine List.forall_mem_cons.mpr ⟨⟨x, List.mem_cons_self, first⟩, fun y hy => ?_⟩
    obtain ⟨x', hx', read⟩ := exists_of_mapM others y hy
    exact ⟨x', List.mem_cons_of_mem _ hx', read⟩

/-- and in their order. -/
theorem map_of_mapM {g : α → γ} {g' : β → γ} (same : ∀ x y, f x = some y → g' y = g x) :
    ∀ {xs : List α} {ys : List β}, xs.mapM f = some ys → ys.map g' = xs.map g
  | [], _, h => by
    cases h
    rfl
  | x :: xs, _, h => by
    rw [List.mapM_cons] at h
    obtain ⟨y, first, h⟩ := Option.bind_eq_some_iff.mp h
    obtain ⟨ys, others, h⟩ := Option.bind_eq_some_iff.mp h
    cases h
    exact congrArg₂ List.cons (same x y first) (map_of_mapM same others)

end Reading

namespace Board

theorem fields?_distinct {names : List String} {v : Value} (h : v.Distinct)
    {found : List (Option Value)} (run : fields? names v = some found) :
    ∀ field ∈ found, ∀ w, field = some w → w.Distinct := by
  have positions {items : List Value} (each : ∀ v ∈ items, v.Distinct) :
      ∀ field ∈ (List.range names.length).map (items[·]?), ∀ w, field = some w → w.Distinct := by
    rintro field hfield w rfl
    obtain ⟨i, -, place⟩ := List.mem_map.mp hfield
    exact each w (List.mem_of_getElem? place)
  rw [fields?.eq_def] at run
  split at run
  · cases run
    rintro field hfield w rfl
    obtain ⟨name, -, place⟩ := List.mem_map.mp hfield
    exact h.entries.get? place
  · cases run
    exact positions h.arrayItems
  · cases run
    exact positions h.elementItems
  · cases run
    rintro field hfield w rfl
    obtain ⟨_, -, place⟩ := List.mem_map.mp hfield
    cases place
  · cases run

/-- A node is read with the fields of its table, under the names that they have there. -/
theorem node?_fieldsOnce (height : Nat) : ∀ {width inverted fields : Option Value}
    {node : ResourceNode}, (∀ v, fields = some v → v.Distinct) →
    node? height width inverted fields = some node → ∀ n ∈ node.nodes, n.FieldsOnce := by
  induction height with
  | zero =>
    intro width inverted fields node h run
    rw [node?] at run
    obtain ⟨width, -, run⟩ := Option.bind_eq_some_iff.mp run
    obtain ⟨inverted, -, run⟩ := Option.bind_eq_some_iff.mp run
    split at run
    · cases run
      exact List.forall_mem_singleton.mpr List.nodup_nil
    · cases run
    · cases run
  | succ height ih =>
    intro width inverted fields node h run
    rw [node?] at run
    obtain ⟨width, -, run⟩ := Option.bind_eq_some_iff.mp run
    obtain ⟨inverted, -, run⟩ := Option.bind_eq_some_iff.mp run
    split at run
    · cases run
      exact List.forall_mem_singleton.mpr List.nodup_nil
    · rename_i origin entries _ _
      obtain ⟨subs, read, run⟩ := Option.bind_eq_some_iff.mp run
      cases run
      have distinct := (h _ rfl).entries
      have named : Table.keys subs = Table.keys entries := by
        refine map_of_mapM (fun p q run => ?_) read
        obtain ⟨found, -, run⟩ := Option.bind_eq_some_iff.mp run
        split at run
        · obtain ⟨sub, -, run⟩ := Option.bind_eq_some_iff.mp run
          cases run
          rfl
        · cases run
      refine List.forall_mem_cons.mpr ⟨?_, fun n hn => ?_⟩
      · change (Table.keys subs).Nodup
        rw [named]
        exact distinct.nodup
      · rw [ResourceNode.fieldNodes_eq] at hn
        obtain ⟨q, hq, hn⟩ := List.mem_flatMap.mp hn
        obtain ⟨p, hp, run⟩ := exists_of_mapM read q hq
        obtain ⟨found, located, run⟩ := Option.bind_eq_some_iff.mp run
        have inside := fields?_distinct (distinct.values p hp) located
        split at run
        · obtain ⟨sub, made, run⟩ := Option.bind_eq_some_iff.mp run
          cases run
          exact ih (inside _ (by simp)) made n hn
        · cases run
    · cases run

theorem readResource?_fieldsOnce {v : Value} (h : v.Distinct) {r : Resource}
    (run : readResource? v = some r) : ∀ n ∈ r.node.nodes, n.FieldsOnce := by
  obtain ⟨found, located, run⟩ := Option.bind_eq_some_iff.mp run
  have inside := fields?_distinct h located
  split at run
  · obtain ⟨_, -, run⟩ := Option.bind_eq_some_iff.mp run
    obtain ⟨_, -, run⟩ := Option.bind_eq_some_iff.mp run
    obtain ⟨_, -, run⟩ := Option.bind_eq_some_iff.mp run
    obtain ⟨node, made, run⟩ := Option.bind_eq_some_iff.mp run
    cases run
    exact node?_fieldsOnce _ (inside _ (by simp)) made
  · cases run

theorem readResources?_fieldsOnce {field : Option Value} (h : ∀ v, field = some v → v.Distinct)
    {resources : List Resource} (run : readResources? field = some resources) :
    ∀ r ∈ resources, ∀ n ∈ r.node.nodes, n.FieldsOnce := by
  have each {items : List Value} (distinct : ∀ v ∈ items, v.Distinct)
      (read : items.mapM readResource? = some resources) :
      ∀ r ∈ resources, ∀ n ∈ r.node.nodes, n.FieldsOnce := fun r hr => by
    obtain ⟨v, hv, made⟩ := exists_of_mapM read r hr
    exact readResource?_fieldsOnce (distinct v hv) made
  rw [readResources?.eq_def] at run
  split at run
  · cases run
    simp
  · exact each (h _ rfl).arrayItems run
  · exact each (h _ rfl).elementItems run
  · cases run

theorem ofEntries?_fieldsOnce {entries : Entries} (h : entries.Distinct) {b : Board}
    (run : ofEntries? entries = some b) : ∀ r ∈ b.resources, ∀ n ∈ r.node.nodes, n.FieldsOnce := by
  obtain ⟨_, -, run⟩ := Option.bind_eq_some_iff.mp run
  obtain ⟨_, -, run⟩ := Option.bind_eq_some_iff.mp run
  split at run
  · obtain ⟨_, -, run⟩ := Option.bind_eq_some_iff.mp run
    obtain ⟨_, -, run⟩ := Option.bind_eq_some_iff.mp run
    obtain ⟨_, -, run⟩ := Option.bind_eq_some_iff.mp run
    obtain ⟨_, -, run⟩ := Option.bind_eq_some_iff.mp run
    obtain ⟨resources, read, run⟩ := Option.bind_eq_some_iff.mp run
    cases run
    exact readResources?_fieldsOnce (fun v found => h.get? found) read
  · cases run

/-- No group of a board that was read has a field twice. -/
theorem ofText_fieldsOnce {text : String} {b : Board} (loaded : ofText text = .ok b) :
    ∀ r ∈ b.resources, ∀ n ∈ r.node.nodes, n.FieldsOnce := by
  obtain ⟨read, -⟩ := (ofText_eq_ok_iff b text).mp loaded
  obtain ⟨entries, parsed, made⟩ := Option.bind_eq_some_iff.mp read
  exact ofEntries?_fieldsOnce (Toml.parse?_distinct parsed) made

/-- The field paths of the leaves of a resource, if there is such a resource with a layout. -/
def leafPaths (b : Board) (key : String × Option Nat) : List (List String) :=
  match b.resource? key.1 key.2 with
  | none => []
  | some r =>
    match r.layout with
    | .error _ => []
    | .ok layout => layout.leafPaths

theorem leafPaths_nodup {text : String} {b : Board} (loaded : ofText text = .ok b)
    (key : String × Option Nat) : (b.leafPaths key).Nodup := by
  rw [leafPaths]
  cases found : b.resource? key.1 key.2 with
  | none => exact List.nodup_nil
  | some r =>
    dsimp only
    have known := (resource?_eq_some found).1
    obtain ⟨-, usable⟩ := (ofText_eq_ok_iff b text).mp loaded
    obtain ⟨layout, valid, mirrors⟩ := (usable.resources r known).layout
    rw [valid]
    exact mirrors.leafPaths_nodup (ofText_fieldsOnce loaded r known)

end Board

end NetBridge
