import NetBridge.Proofs.Table
import NetBridge.Toml.Reader

/-! # Keys that occur once

Whatever a document says, no table that is read from it has a key twice. A key is only added to a
table that does not have it, and everything else that happens to a table keeps its keys, takes one
away, or changes what stands under one. -/
namespace NetBridge

theorem Table.erase_sublist {κ α : Type} [DecidableEq κ] (t : Table κ α) (key : κ) :
    (erase t key).Sublist t := by
  induction t with
  | nil => exact .slnil
  | cons p rest ih =>
    rw [erase]
    split
    · exact List.sublist_cons_self p rest
    · exact ih.cons_cons p

namespace Toml

/-- No table within the value has a key twice. -/
inductive Value.Distinct : Value → Prop
  | flat {v : Value} : v.height = 0 → Distinct v
  | array {items : List Value} : (∀ v ∈ items, Distinct v) → Distinct (.array items)
  | elements {items : List Value} : (∀ v ∈ items, Distinct v) → Distinct (.elements items)
  | table {origin : Origin} {entries : Entries} : (Table.keys entries).Nodup →
    (∀ p ∈ entries, Distinct p.2) → Distinct (.table origin entries)

/-- The same of the entries of a table. -/
structure Entries.Distinct (entries : Entries) : Prop where
  nodup : (Table.keys entries).Nodup
  values : ∀ p ∈ entries, p.2.Distinct

namespace Value.Distinct

theorem entries {origin : Origin} {entries : Entries} (h : Distinct (.table origin entries)) :
    Entries.Distinct entries := by
  cases h with
  | flat h => cases h
  | table nodup values => exact ⟨nodup, values⟩

theorem elementItems {items : List Value} (h : Distinct (.elements items)) :
    ∀ v ∈ items, v.Distinct := by
  cases h with
  | flat h => cases h
  | elements each => exact each

theorem arrayItems {items : List Value} (h : Distinct (.array items)) :
    ∀ v ∈ items, v.Distinct := by
  cases h with
  | flat h => cases h
  | array each => exact each

end Value.Distinct

namespace Entries.Distinct

variable {entries : Entries}

theorem nil : Entries.Distinct [] := ⟨List.nodup_nil, by simp⟩

theorem table (h : Entries.Distinct entries) (origin : Origin) :
    (Value.table origin entries).Distinct :=
  .table h.nodup h.values

theorem get? (h : Entries.Distinct entries) {name : String} {v : Value}
    (found : Table.get? entries name = some v) : v.Distinct :=
  h.values _ (Table.mem_of_get? found)

theorem add (h : Entries.Distinct entries) {name : String} {v : Value}
    (new : Table.get? entries name = none) (value : v.Distinct) :
    Entries.Distinct (entries ++ [(name, v)]) where
  nodup := by
    rw [Table.keys_append]
    refine List.nodup_append.mpr ⟨h.nodup, List.nodup_singleton _, ?_⟩
    rintro a ha b hb rfl
    obtain rfl := List.mem_singleton.mp hb
    exact Table.get?_eq_none_iff.mp new ha
  values := List.forall_mem_append.mpr ⟨h.values, List.forall_mem_singleton.mpr value⟩

theorem set (h : Entries.Distinct entries) (name : String) {v : Value} (value : v.Distinct) :
    Entries.Distinct (Table.set entries name v) where
  nodup := Table.nodup_keys_set h.nodup name v
  values p hp := (Table.mem_set hp).elim (h.values p) fun same => same ▸ value

theorem erase (h : Entries.Distinct entries) (name : String) :
    Entries.Distinct (Table.erase entries name) := by
  have shorter := Table.erase_sublist entries name
  exact ⟨(shorter.map Prod.fst).nodup h.nodup, fun p hp => h.values p (shorter.subset hp)⟩

end Entries.Distinct

/-- The change keeps keys apart, and what it reports is good. -/
def Keeps {α : Type} (good : α → Prop) (change : Origin → Entries → Option (α × Entries)) : Prop :=
  ∀ ⦃origin entries a after⦄, Entries.Distinct entries → change origin entries = some (a, after) →
    good a ∧ Entries.Distinct after

/-- A change at the end of a path changes the tables along the path only by what is below. -/
theorem Keeps.descend {α : Type} (good : α → Prop)
    {change : Origin → Entries → Option (α × Entries)} (h : Keeps good change) (dotted : Bool) :
    ∀ path : List String, Keeps good (descend? dotted change path)
  | [] => fun _ _ _ _ distinct run => h distinct run
  | name :: path => by
    intro origin entries a after distinct run
    rw [descend?] at run
    have below := h.descend good dotted path
    split at run
    · rename_i new
      obtain ⟨⟨a', sub⟩, reached, done⟩ := Option.bind_eq_some_iff.mp run
      obtain ⟨rfl, rfl⟩ := Prod.mk.inj (Option.some.inj done)
      obtain ⟨fine, kept⟩ := below .nil reached
      exact ⟨fine, distinct.add new (kept.table _)⟩
    · rename_i origin' sub found
      split at run
      · cases run
      · obtain ⟨⟨a', sub'⟩, reached, done⟩ := Option.bind_eq_some_iff.mp run
        obtain ⟨rfl, rfl⟩ := Prod.mk.inj (Option.some.inj done)
        obtain ⟨fine, kept⟩ := below (distinct.get? found).entries reached
        exact ⟨fine, distinct.set name (kept.table _)⟩
    · rename_i items found
      have each := (distinct.get? found).elementItems
      split at run
      · rename_i origin' sub last
        obtain ⟨⟨a', sub'⟩, reached, done⟩ := Option.bind_eq_some_iff.mp run
        obtain ⟨rfl, rfl⟩ := Prod.mk.inj (Option.some.inj done)
        obtain ⟨fine, kept⟩ := below (each _ (List.mem_of_getLast? last)).entries reached
        refine ⟨fine, distinct.set name (.elements (List.forall_mem_append.mpr
          ⟨fun v hv => each v (List.dropLast_subset _ hv),
            List.forall_mem_singleton.mpr (kept.table _)⟩))⟩
      · cases run
    · cases run

/-- It does not matter what the change reports, as long as it keeps keys apart. -/
theorem descend?_distinct {α : Type} {change : Origin → Entries → Option (α × Entries)}
    (kept : ∀ ⦃origin entries a after⦄, Entries.Distinct entries →
      change origin entries = some (a, after) → Entries.Distinct after)
    {dotted : Bool} {path : List String} {origin : Origin} {entries after : Entries} {a : α}
    (h : entries.Distinct) (run : descend? dotted change path origin entries = some (a, after)) :
    after.Distinct :=
  (Keeps.descend (fun _ => True) (fun _ _ _ _ distinct made => ⟨trivial, kept distinct made⟩)
    dotted path h run).2

theorem assign?_distinct {origin : Origin} {entries after : Entries} {path : List String}
    {name : String} {v : Value} (distinct : entries.Distinct) (value : v.Distinct)
    (run : assign? origin entries path name v = some after) : after.Distinct := by
  obtain ⟨⟨_, after'⟩, reached, done⟩ := Option.bind_eq_some_iff.mp run
  obtain rfl := Option.some.inj done
  refine descend?_distinct ?_ distinct reached
  intro origin entries _ after distinct change
  split at change
  · cases change
  · rename_i free
    obtain ⟨-, absent⟩ := not_or.mp fun h => free (Bool.or_eq_true_iff.mpr h)
    obtain ⟨-, rfl⟩ := Prod.mk.inj (Option.some.inj change)
    refine distinct.add ?_ value
    exact Table.get?_eq_none_iff.mpr fun mem => absent (Table.contains_iff.mpr mem)

/-- The value that a line brings. -/
def Line.Distinct : Line → Prop
  | .entry _ _ v => v.Distinct
  | _ => True

structure Draft.Distinct (d : Draft) : Prop where
  tree : d.tree.Distinct
  entries : d.entries.Distinct

namespace Draft

theorem close?_distinct {d : Draft} {tree : Entries} (h : d.Distinct)
    (run : d.close? = some tree) : tree.Distinct := by
  rw [close?] at run
  have opened := h.entries.table .header
  split at run
  · exact Option.some.inj run ▸ h.entries
  · obtain ⟨⟨_, after⟩, reached, done⟩ := Option.bind_eq_some_iff.mp run
    obtain rfl := Option.some.inj done
    refine descend?_distinct ?_ h.tree reached
    intro _ entries _ after distinct change
    split at change
    · cases change
    · rename_i absent
      obtain ⟨-, rfl⟩ := Prod.mk.inj (Option.some.inj change)
      refine distinct.add ?_ opened
      exact Table.get?_eq_none_iff.mpr fun mem => absent (Table.contains_iff.mpr mem)
  · obtain ⟨⟨_, after⟩, reached, done⟩ := Option.bind_eq_some_iff.mp run
    obtain rfl := Option.some.inj done
    refine descend?_distinct ?_ h.tree reached
    intro _ entries _ after distinct change
    split at change
    · rename_i items found
      obtain ⟨-, rfl⟩ := Prod.mk.inj (Option.some.inj change)
      exact distinct.set _ (.elements (List.forall_mem_append.mpr
        ⟨(distinct.get? found).elementItems, List.forall_mem_singleton.mpr opened⟩))
    · cases change

theorem openTable?_distinct {tree : Entries} {path : List String} {name : String} {d : Draft}
    (h : tree.Distinct) (run : openTable? tree path name = some d) : d.Distinct := by
  obtain ⟨⟨entries, after⟩, reached, done⟩ := Option.bind_eq_some_iff.mp run
  obtain rfl := Option.some.inj done
  -- What is taken out of the tree, to be written on, is a table of the tree or a new one.
  suffices reads : Keeps Entries.Distinct _ by
    obtain ⟨inside, kept⟩ := reads.descend Entries.Distinct false path h reached
    exact ⟨kept, inside⟩
  intro _ entries _ after distinct change
  dsimp only at change
  split at change
  · obtain ⟨rfl, rfl⟩ := Prod.mk.inj (Option.some.inj change)
    exact ⟨.nil, distinct⟩
  · rename_i sub found
    obtain ⟨rfl, rfl⟩ := Prod.mk.inj (Option.some.inj change)
    exact ⟨(distinct.get? found).entries, distinct.erase name⟩
  · cases change

theorem openElement?_distinct {tree : Entries} {path : List String} {name : String} {d : Draft}
    (h : tree.Distinct) (run : openElement? tree path name = some d) : d.Distinct := by
  obtain ⟨⟨_, after⟩, reached, done⟩ := Option.bind_eq_some_iff.mp run
  obtain rfl := Option.some.inj done
  refine ⟨descend?_distinct ?_ h reached, .nil⟩
  intro _ entries _ after distinct change
  split at change
  · rename_i new
    obtain ⟨-, rfl⟩ := Prod.mk.inj (Option.some.inj change)
    exact distinct.add new (.elements (by simp))
  · obtain ⟨-, rfl⟩ := Prod.mk.inj (Option.some.inj change)
    exact distinct
  · cases change

theorem add?_distinct {d d' : Draft} {line : Line} (h : d.Distinct) (value : line.Distinct)
    (run : d.add? line = some d') : d'.Distinct := by
  cases line with
  | table path name =>
    obtain ⟨tree, closed, opened⟩ := Option.bind_eq_some_iff.mp run
    exact openTable?_distinct (close?_distinct h closed) opened
  | element path name =>
    obtain ⟨tree, closed, opened⟩ := Option.bind_eq_some_iff.mp run
    exact openElement?_distinct (close?_distinct h closed) opened
  | entry path name v =>
    obtain ⟨entries, assigned, done⟩ := Option.bind_eq_some_iff.mp run
    obtain rfl := Option.some.inj done
    exact ⟨h.tree, assign?_distinct h.entries value assigned⟩

end Draft

theorem treeOf?_distinct {lines : List Line} {entries : Entries}
    (values : ∀ line ∈ lines, line.Distinct) (run : treeOf? lines = some entries) :
    entries.Distinct := by
  obtain ⟨d, drafted, closed⟩ := Option.bind_eq_some_iff.mp run
  have from_draft : ∀ start : Draft, start.Distinct → lines.foldlM Draft.add? start = some d →
      d.Distinct := by
    clear run drafted
    induction lines with
    | nil =>
      intro start h done
      exact Option.some.inj done ▸ h
    | cons line rest ih =>
      obtain ⟨value, others⟩ := List.forall_mem_cons.mp values
      intro start h run
      obtain ⟨next, added, run⟩ := Option.bind_eq_some_iff.mp run
      exact ih others next (Draft.add?_distinct h value added) run
  exact Draft.close?_distinct (from_draft {} ⟨.nil, .nil⟩ drafted) closed

/-- What a reader returns has no key twice. -/
def Reads (item? : List Char → Option (Value × List Char)) : Prop :=
  ∀ ⦃cs v rest⦄, item? cs = some (v, rest) → v.Distinct

theorem items?_distinct {item? : List Char → Option (Value × List Char)} (item : Reads item?) :
    ∀ (fuel : Nat) {cs rest : List Char} {items : List Value},
      items? item? fuel cs = some (items, rest) → ∀ v ∈ items, v.Distinct
  | 0, _, _, _, run => nomatch run
  | fuel + 1, cs, rest, items, run => by
    rw [items?] at run
    split at run
    · obtain ⟨rfl, -⟩ := Prod.mk.inj (Option.some.inj run)
      simp
    · obtain ⟨⟨v, after⟩, first, run⟩ := Option.bind_eq_some_iff.mp run
      have here := item first
      dsimp only at run
      split at run
      · obtain ⟨⟨others, _⟩, more, run⟩ := Option.bind_eq_some_iff.mp run
        obtain ⟨rfl, -⟩ := Prod.mk.inj (Option.some.inj run)
        exact List.forall_mem_cons.mpr ⟨here, items?_distinct item fuel more⟩
      · obtain ⟨rfl, -⟩ := Prod.mk.inj (Option.some.inj run)
        exact List.forall_mem_singleton.mpr here
      · cases run

theorem entries?_distinct {item? : List Char → Option (Value × List Char)} (item : Reads item?) :
    ∀ (fuel : Nat) {entries after : Entries} {cs rest : List Char}, entries.Distinct →
      entries? item? fuel entries cs = some (after, rest) → after.Distinct
  | 0, _, _, _, _, _, run => nomatch run
  | fuel + 1, entries, after, cs, rest, distinct, run => by
    obtain ⟨⟨path, name, cs₁⟩, -, run⟩ := Option.bind_eq_some_iff.mp run
    obtain ⟨cs₂, -, run⟩ := Option.bind_eq_some_iff.mp run
    obtain ⟨⟨v, cs₃⟩, read, run⟩ := Option.bind_eq_some_iff.mp run
    obtain ⟨assigned, entered, run⟩ := Option.bind_eq_some_iff.mp run
    have kept := assign?_distinct distinct (item read) entered
    split at run
    · exact entries?_distinct item fuel kept run
    · obtain ⟨rfl, -⟩ := Prod.mk.inj (Option.some.inj run)
      exact kept
    · cases run

theorem integerOf?_flat {negative : Bool} {n : Nat} {v : Value}
    (run : integerOf? negative n = some v) : v.height = 0 := by
  rw [integerOf?] at run
  split at run <;> split at run <;> cases run <;> rfl

theorem based?_flat {base : Nat} {cs rest : List Char} {v : Value}
    (run : based? base cs = some (v, rest)) : v.height = 0 := by
  obtain ⟨⟨ds, _⟩, -, run⟩ := Option.bind_eq_some_iff.mp run
  obtain ⟨_, made, run⟩ := Option.bind_eq_some_iff.mp run
  obtain ⟨rfl, -⟩ := Prod.mk.inj (Option.some.inj run)
  exact integerOf?_flat made

theorem integer?_flat {cs rest : List Char} {v : Value} (run : integer? cs = some (v, rest)) :
    v.height = 0 := by
  rw [integer?.eq_def] at run
  split at run
  · exact based?_flat run
  · exact based?_flat run
  · exact based?_flat run
  · obtain ⟨⟨ds, _⟩, -, run⟩ := Option.bind_eq_some_iff.mp run
    obtain ⟨_, made, run⟩ := Option.bind_eq_some_iff.mp run
    obtain ⟨rfl, -⟩ := Prod.mk.inj (Option.some.inj run)
    exact integerOf?_flat made

theorem float?_flat {cs rest : List Char} {v : Value} (run : float? cs = some (v, rest)) :
    v.height = 0 := by
  rw [float?] at run
  generalize sign cs = signed at run
  obtain ⟨_, -, run⟩ := Option.bind_eq_some_iff.mp run
  dsimp only at run
  split at run
  · cases run
  · split at run
    · cases run
    · cases run
      rfl

theorem datetime?_flat {cs rest : List Char} {v : Value} (run : datetime? cs = some (v, rest)) :
    v.height = 0 := by
  rw [datetime?] at run
  split at run
  · cases run
    rfl
  · obtain ⟨_, -, made⟩ := Option.map_eq_some_iff.mp run
    cases made
    rfl

theorem specialFloat?_flat {cs rest : List Char} {v : Value}
    (run : specialFloat? cs = some (v, rest)) : v.height = 0 := by
  rw [specialFloat?] at run
  split at run <;> cases run <;> rfl

theorem number?_distinct : Reads number? := by
  intro cs v rest run
  refine .flat ?_
  simp only [number?, Option.orElse_eq_orElse, Option.orElse_eq_or, Option.or_eq_some_iff] at run
  rcases run with run | ⟨-, run | ⟨-, run | ⟨-, run⟩⟩⟩
  · exact datetime?_flat run
  · exact float?_flat run
  · exact specialFloat?_flat run
  · exact integer?_flat run

theorem value?_distinct (nesting : Nat) : Reads (value? nesting) := by
  induction nesting using Nat.strongRecOn with
  | ind nesting inner =>
    intro cs v rest run
    rw [value?.eq_def] at run
    split at run
    · obtain ⟨_, -, made⟩ := Option.map_eq_some_iff.mp run
      cases made
      exact .flat rfl
    · obtain ⟨_, -, made⟩ := Option.map_eq_some_iff.mp run
      cases made
      exact .flat rfl
    · cases run
      exact .flat rfl
    · cases run
      exact .flat rfl
    · split at run
      · cases run
      · obtain ⟨⟨items, _⟩, read, made⟩ := Option.map_eq_some_iff.mp run
        cases made
        exact .array (items?_distinct (inner _ (Nat.lt_succ_self _)) _ read)
    · split at run
      · cases run
      · split at run
        · cases run
          exact .table List.nodup_nil (by simp)
        · obtain ⟨⟨entries, _⟩, read, made⟩ := Option.map_eq_some_iff.mp run
          cases made
          exact (entries?_distinct (inner _ (Nat.lt_succ_self _)) _ .nil read).table .inline
    · exact number?_distinct run

theorem line?_distinct {cs rest : List Char} {line : Line} (run : line? cs = some (line, rest)) :
    line.Distinct := by
  rw [line?.eq_def] at run
  split at run
  · obtain ⟨_, -, run⟩ := Option.bind_eq_some_iff.mp run
    obtain ⟨_, -, run⟩ := Option.bind_eq_some_iff.mp run
    obtain ⟨_, -, run⟩ := Option.bind_eq_some_iff.mp run
    obtain ⟨_, -, run⟩ := Option.bind_eq_some_iff.mp run
    obtain ⟨rfl, -⟩ := Prod.mk.inj (Option.some.inj run)
    trivial
  · obtain ⟨_, -, run⟩ := Option.bind_eq_some_iff.mp run
    obtain ⟨_, -, run⟩ := Option.bind_eq_some_iff.mp run
    obtain ⟨_, -, run⟩ := Option.bind_eq_some_iff.mp run
    obtain ⟨rfl, -⟩ := Prod.mk.inj (Option.some.inj run)
    trivial
  · obtain ⟨⟨path, name, cs₁⟩, -, run⟩ := Option.bind_eq_some_iff.mp run
    obtain ⟨cs₂, -, run⟩ := Option.bind_eq_some_iff.mp run
    obtain ⟨⟨v, cs₃⟩, read, run⟩ := Option.bind_eq_some_iff.mp run
    obtain ⟨_, -, run⟩ := Option.bind_eq_some_iff.mp run
    obtain ⟨rfl, -⟩ := Prod.mk.inj (Option.some.inj run)
    exact value?_distinct _ read

theorem lines?_distinct : ∀ (fuel : Nat) {cs : List Char} {lines : List Line},
    lines? fuel cs = some lines → ∀ line ∈ lines, line.Distinct
  | 0, _, _, run => nomatch run
  | fuel + 1, cs, lines, run => by
    rw [lines?] at run
    split at run
    · cases run
      simp
    · split at run
      · exact lines?_distinct fuel run
      · obtain ⟨⟨line, rest⟩, read, run⟩ := Option.bind_eq_some_iff.mp run
        obtain ⟨others, more, run⟩ := Option.bind_eq_some_iff.mp run
        obtain rfl := Option.some.inj run
        exact List.forall_mem_cons.mpr ⟨line?_distinct read, lines?_distinct fuel more⟩

/-- No table of a document has a key twice. -/
theorem parse?_distinct {s : String} {entries : Entries} (run : parse? s = some entries) :
    entries.Distinct := by
  obtain ⟨lines, read, made⟩ := Option.bind_eq_some_iff.mp run
  exact treeOf?_distinct (lines?_distinct _ read) made

end Toml

end NetBridge
