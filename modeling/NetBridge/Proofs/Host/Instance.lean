import Mathlib.Data.List.Nodup
import NetBridge.Host.Netlist
import NetBridge.Proofs.Shape
import NetBridge.Proofs.Table

/-! # Ports of an instance

An instance is a table sorted by label. Binding a new label adds one entry, and the
ports of a direction are the entries whose labels start with its letter. -/
namespace NetBridge.Host.Instance

theorem get?_insert (t : Table String SignalId) (label key : String) (id : SignalId) :
    Table.get? (insert t label id) key = if label = key then some id else Table.get? t key := by
  induction t with
  | nil => simp [insert, Table.get?]
  | cons p rest ih =>
    obtain ⟨l, i⟩ := p
    by_cases heq : label = l
    · subst heq
      by_cases hkey : label = key <;> simp [insert, Table.get?, hkey]
    · by_cases hlt : label < l
      · have step : insert ((l, i) :: rest) label id = (label, id) :: (l, i) :: rest := by
          simp [insert, heq, hlt]
        rw [step]
        by_cases hkey : label = key <;> simp [Table.get?, hkey]
      · by_cases hkey : l = key
        · subst hkey
          simp [insert, Table.get?, heq, hlt]
        · simp [insert, Table.get?, heq, hlt, hkey, ih]

theorem keys_insert_perm {t : Table String SignalId} {label : String} (id : SignalId)
    (new : label ∉ t.keys) : (Table.keys (insert t label id)).Perm (label :: t.keys) := by
  induction t with
  | nil => exact List.Perm.refl _
  | cons p rest ih =>
    obtain ⟨l, i⟩ := p
    have hne : label ≠ l := fun heq => new (heq ▸ List.mem_cons_self)
    by_cases hlt : label < l
    · simp [insert, hne, hlt, Table.keys]
    · have hrest := ih fun hmem => new (List.mem_cons_of_mem l hmem)
      have step : insert ((l, i) :: rest) label id = (l, i) :: insert rest label id := by
        simp [insert, hne, hlt]
      rw [step]
      exact (hrest.cons l).trans (List.Perm.swap label l _)

theorem port?_bind (inst : Instance) (label key : String) (id : SignalId) :
    (inst.bind label id).port? key = if label = key then some id else inst.port? key :=
  get?_insert inst.ports label key id

/-- The name in a label of this direction. -/
def nameWith (d : PortDirection) (label : String) : Option String :=
  match PortDirection.parseLabel label with
  | some (e, name) => if e = d then some name else none
  | none => none

theorem eq_label_of_nameWith {d : PortDirection} {label name : String}
    (h : name ∈ nameWith d label) : label = d.label name := by
  cases hp : PortDirection.parseLabel label with
  | none => simp [nameWith, hp] at h
  | some q =>
    obtain ⟨e, n⟩ := q
    obtain ⟨rfl, rfl⟩ : e = d ∧ n = name := by simpa [nameWith, hp] using h
    exact PortDirection.eq_label_of_parseLabel hp

theorem mem_portsWith {inst : Instance} (nodup : inst.ports.keys.Nodup) {d : PortDirection}
    {name : String} {id : SignalId} :
    (name, id) ∈ inst.portsWith d ↔ inst.port? (d.label name) = some id := by
  rw [port?, Table.get?_eq_some_iff nodup, portsWith, List.mem_filterMap]
  constructor
  · rintro ⟨⟨label, i⟩, hmem, h⟩
    cases hp : PortDirection.parseLabel label with
    | none => simp [hp] at h
    | some q =>
      obtain ⟨e, n⟩ := q
      by_cases hd : e = d
      · subst hd
        obtain ⟨rfl, rfl⟩ : n = name ∧ i = id := by simpa [hp] using h
        rwa [← PortDirection.eq_label_of_parseLabel hp]
      · simp [hp, hd] at h
  · intro hmem
    exact ⟨(d.label name, id), hmem, by simp [PortDirection.parseLabel_label]⟩

theorem portsWith_nodup {inst : Instance} (nodup : inst.ports.keys.Nodup) (d : PortDirection) :
    ((inst.portsWith d).map Prod.fst).Nodup := by
  have keys : inst.portsWith d = inst.ports.filterMap fun p =>
      (nameWith d p.1).map (·, p.2) := by
    refine List.filterMap_congr fun p _ => ?_
    cases hp : PortDirection.parseLabel p.1 with
    | none => simp [nameWith, hp]
    | some q =>
      by_cases hd : q.1 = d <;> simp [nameWith, hp, hd]
  have names : (inst.portsWith d).map Prod.fst = inst.ports.keys.filterMap (nameWith d) := by
    rw [keys, List.map_filterMap, Table.keys, List.filterMap_map]
    refine List.filterMap_congr fun p _ => ?_
    cases hn : nameWith d p.1 <;> simp [hn]
  rw [names]
  refine List.Nodup.filterMap ?_ nodup
  intro a b name ha hb
  rw [eq_label_of_nameWith ha, eq_label_of_nameWith hb]

end NetBridge.Host.Instance
