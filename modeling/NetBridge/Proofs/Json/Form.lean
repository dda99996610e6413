import NetBridge.Json.Form
import NetBridge.Proofs.Json.Text
import NetBridge.Proofs.Table

/-! # Forms that read back

A form reads back if it reads what it writes, at every depth that leaves room for the
containers of it, and if what it writes has a text of its own. Forms that are made of such
forms read back too. -/
namespace NetBridge

namespace Json

mutual

/-- How many containers stand inside one another. -/
def nesting : Json → Nat
  | array items => itemNesting items + 1
  | object entries => entryNesting entries + 1
  | _ => 0

def itemNesting : List Json → Nat
  | [] => 0
  | j :: rest => max (nesting j) (itemNesting rest)

def entryNesting : List (String × Json) → Nat
  | [] => 0
  | (_, j) :: rest => max (nesting j) (entryNesting rest)

end

/-- An array needs one container more than each of its items. -/
theorem nesting_array_le {items : List Json} {n : Nat} :
    nesting (array items) ≤ n ↔ ∃ depth, n = depth + 1 ∧ ∀ j ∈ items, j.nesting ≤ depth := by
  have inner (depth : Nat) : itemNesting items ≤ depth ↔ ∀ j ∈ items, j.nesting ≤ depth := by
    induction items with
    | nil => simp [itemNesting]
    | cons j rest ih => simp [itemNesting, ih]
  cases n with
  | zero => simp [nesting]
  | succ n => simp [nesting, inner]

theorem nesting_object_le {entries : List (String × Json)} {n : Nat} :
    nesting (object entries) ≤ n ↔ ∃ depth, n = depth + 1 ∧ ∀ p ∈ entries, p.2.nesting ≤ depth := by
  have inner (depth : Nat) : entryNesting entries ≤ depth ↔ ∀ p ∈ entries, p.2.nesting ≤ depth := by
    induction entries with
    | nil => simp [entryNesting]
    | cons p rest ih => simp [entryNesting, ih]
  cases n with
  | zero => simp [nesting]
  | succ n => simp [nesting, inner]

theorem nesting_variant_le {name : String} {entries : List (String × Json)} {n : Nat} :
    nesting (object [(name, object entries)]) ≤ n ↔
      ∃ depth, n = depth + 2 ∧ ∀ p ∈ entries, p.2.nesting ≤ depth := by
  rw [nesting_object_le]
  constructor
  · rintro ⟨depth, rfl, inner⟩
    obtain ⟨depth, rfl, fields⟩ := nesting_object_le.mp (inner _ List.mem_cons_self)
    exact ⟨depth, rfl, fields⟩
  · rintro ⟨depth, rfl, fields⟩
    exact ⟨depth + 1, rfl, by simpa using nesting_object_le.mpr ⟨depth, rfl, fields⟩⟩

end Json

namespace Form

variable {α β : Type}

/-- What is written of a valid value has a text, and reads as the value where there is room
for its containers. -/
structure ReadsBack (form : Form α) (valid : α → Prop) : Prop where
  plain {a : α} : valid a → (form.write a).Plain
  read {a : α} {depth : Nat} : valid a → (form.write a).nesting ≤ depth →
    form.read depth (form.write a) = some a

/-- Through the text, there is room for as many containers as the reader enters. -/
theorem ReadsBack.parse?_print {form : Form α} {valid : α → Prop} (h : form.ReadsBack valid) {a : α}
    (ok : valid a) (room : (form.write a).nesting ≤ maxDepth) :
    form.parse? (form.print a) = some a := by
  rw [parse?, print, Json.read?_print (h.plain ok)]
  exact h.read ok room

theorem ReadsBack.need {form : Form α} {valid : α → Prop} (h : form.ReadsBack valid) {a : α}
    {depth : Nat} (ok : valid a) (room : (form.write a).nesting ≤ depth) :
    need form depth (some (form.write a)) = some a :=
  h.read ok room

theorem bool_readsBack : bool.ReadsBack fun _ => True where
  plain _ := .bool _
  read _ _ := rfl

theorem text_readsBack : text.ReadsBack fun _ => True where
  plain _ := .text _
  read _ _ := rfl

theorem word_readsBack : word.ReadsBack fun _ => True where
  plain {w} _ := .nat w.isLt
  read {w _} _ _ := by
    have fits : w.toNat < Nat.pow 2 64 := w.isLt
    simp [word, fits]

theorem natBits_readsBack {bits : Nat} (small : bits ≤ 64) :
    (natBits bits).ReadsBack (· < 2 ^ bits) where
  plain ok := .nat (Nat.lt_of_lt_of_le ok (Nat.pow_le_pow_right (by decide) small))
  read {_ _} ok _ := if_pos ok

theorem choice_readsBack {ofText? : String → Option α} {name : α → String}
    (named : ∀ a, ofText? (name a) = some a) : (choice ofText? name).ReadsBack fun _ => True where
  plain _ := .text _
  read _ _ := named _

/-- Named values read back under their names. -/
theorem mapM_named {fields : List (String × α)} {write : α → β} {read : β → Option α}
    (each : ∀ p ∈ fields, read (write p.2) = some p.2) :
    (fields.map fun p => (p.1, write p.2)).mapM (fun p => (read p.2).map (p.1, ·)) =
      some fields :=
  Json.mapM_inverse fun p hp => congrArg (Option.map (p.1, ·)) (each p hp)

theorem optional_read {form : Form α} {j : Json} (given : j ≠ .null) (depth : Nat) :
    form.optional.read depth j = (form.read depth j).map some := by
  cases j with
  | null => contradiction
  | _ => rfl

theorem ReadsBack.optional {form : Form α} {valid : α → Prop} (h : form.ReadsBack valid)
    (given : ∀ a, form.write a ≠ .null) :
    form.optional.ReadsBack fun o => ∀ a ∈ o, valid a where
  plain {o} ok := by
    cases o with
    | none => exact .null
    | some a => exact h.plain (ok a rfl)
  read {o depth} ok room := by
    cases o with
    | none => rfl
    | some a =>
      exact (optional_read (given a) depth).trans
        (congrArg (Option.map some) (h.read (ok a rfl) room))

theorem optional_text_readsBack : text.optional.ReadsBack fun _ => True where
  plain _ := (text_readsBack.optional nofun).plain fun _ _ => trivial
  read _ room := (text_readsBack.optional nofun).read (fun _ _ => trivial) room

theorem ReadsBack.list {form : Form α} {valid : α → Prop} (h : form.ReadsBack valid) :
    form.list.ReadsBack fun items => ∀ a ∈ items, valid a where
  plain ok := .array (List.forall_mem_map.mpr fun a ha => h.plain (ok a ha))
  read {items _} ok room := by
    obtain ⟨depth, rfl, inner⟩ := Json.nesting_array_le.mp room
    exact Json.mapM_inverse fun a ha => h.read (ok a ha) (inner _ (List.mem_map_of_mem ha))

/-- The names of a table are distinct, so that each of its entries stands for itself. -/
theorem ReadsBack.table {form : Form α} {valid : α → Prop} (h : form.ReadsBack valid) :
    form.table.ReadsBack fun t => t.keys.Nodup ∧ ∀ p ∈ t, valid p.2 where
  plain ok := .object (List.forall_mem_map.mpr fun p hp => h.plain (ok.2 p hp))
  read {t _} ok room := by
    obtain ⟨depth, rfl, inner⟩ := Json.nesting_object_le.mp room
    have pairs := mapM_named fun p hp => h.read (ok.2 p hp) (inner _ (List.mem_map_of_mem hp))
    exact (congrArg (Option.bind · fun pairs => some (Table.ofPairs pairs)) pairs).trans
      (congrArg some (Table.ofPairs_eq_self ok.1))

theorem valuesOf_of_mem {entries : Table String Json} (nodup : entries.keys.Nodup)
    {p : String × Json} (h : p ∈ entries) : valuesOf entries p.1 = [p.2] := by
  induction entries with
  | nil => cases h
  | cons q rest ih =>
    obtain ⟨absent, others⟩ := List.nodup_cons.mp nodup
    rcases List.mem_cons.mp h with rfl | hrest
    · have none_else : rest.filter (·.1 == p.1) = [] := by
        rw [List.filter_eq_nil_iff]
        intro r hr same
        exact absent (beq_iff_eq.mp same ▸ List.mem_map_of_mem hr)
      simp [valuesOf, none_else]
    · have other : (q.1 == p.1) = false :=
        beq_eq_false_iff_ne.mpr fun same => absent (same ▸ List.mem_map_of_mem hrest)
      rw [← ih others hrest, valuesOf, valuesOf, List.filter_cons, other]
      rfl

/-- An object that has the fields of a record, each of them once, and nothing else. -/
theorem fields?_object {names : List String} {entries : List (String × Json)}
    (keys : entries.map Prod.fst = names) (nodup : names.Nodup) :
    fields? names (.object entries) = some (entries.map fun p => some p.2) := by
  subst keys
  exact Json.mapM_map fun p hp => by rw [valuesOf_of_mem nodup hp]

/-- Reading a record goes on with the values of its fields. -/
theorem fields?_bind {names : List String} {entries : List (String × Json)}
    {fields : List (Option Json) → Option α} {a : α} (keys : entries.map Prod.fst = names)
    (nodup : names.Nodup) (read : fields (entries.map fun p => some p.2) = some a) :
    fields? names (.object entries) >>= fields = some a := by
  rw [fields?_object keys nodup]
  exact read

theorem record?_bind {names : List String} {entries : List (String × Json)} {depth : Nat}
    {fields : Nat × List (Option Json) → Option α} {a : α} (keys : entries.map Prod.fst = names)
    (nodup : names.Nodup) (read : fields (depth, entries.map fun p => some p.2) = some a) :
    record? names (depth + 1) (.object entries) >>= fields = some a := by
  rw [record?, fields?_object keys nodup]
  exact read

/-- Reading a variant goes on with its name and what it carries. -/
theorem variant?_bind {name : String} {payload : Json} {depth : Nat}
    {carried : Nat × String × Json → Option α} {a : α}
    (read : carried (depth, name, payload) = some a) :
    variant? (depth + 1) (.object [(name, payload)]) >>= carried = some a :=
  read

theorem carried_bind {o : Option α} {a : α} (read : o = some a) (variant : α → β) :
    (o >>= fun b => pure (variant b)) = some (variant a) := by
  rw [read]
  rfl

@[simp] theorem plain_word (w : Word) : (word.write w).Plain := word_readsBack.plain trivial

@[simp] theorem need_text (depth : Nat) (s : String) : need text depth (some (.text s)) = some s :=
  text_readsBack.need trivial (Nat.zero_le depth)

@[simp] theorem need_bool (depth : Nat) (b : Bool) : need bool depth (some (.bool b)) = some b :=
  bool_readsBack.need trivial (Nat.zero_le depth)

@[simp] theorem need_word (depth : Nat) (w : Word) : need word depth (some (word.write w)) = some w :=
  word_readsBack.need trivial (Nat.zero_le depth)

theorem need_nat {bits n : Nat} (fits : n < 2 ^ bits) (depth : Nat) :
    need (natBits bits) depth (some (.nat n)) = some n :=
  if_pos fits

end Form

/-- Widths are numbers of 32 bits. -/
def Shape.Storable (s : Shape) : Prop := s.width < 2 ^ 32

/-- So are keys. -/
def Key.Storable {α : Type} (k : Key α) : Prop := k.index < 2 ^ 32

namespace Form

variable {α : Type}

theorem plain_nat {n bits : Nat} (fits : n < 2 ^ bits) (small : bits ≤ 64) : (Json.nat n).Plain :=
  (natBits_readsBack small).plain fits

theorem key_readsBack : (key (α := α)).ReadsBack Key.Storable where
  plain ok := plain_nat ok (by decide)
  read ok _ := congrArg (Option.map Key.mk) (if_pos ok)

theorem need_key {k : Key α} (ok : k.Storable) (depth : Nat) :
    need key depth (some (key.write k)) = some k :=
  key_readsBack.need ok (Nat.zero_le depth)

theorem shape_readsBack : shape.ReadsBack Shape.Storable where
  plain ok := .object (by simp [plain_nat ok])
  read {s _} ok room := by
    obtain ⟨depth, rfl, -⟩ := Json.nesting_object_le.mp room
    exact record?_bind rfl (by decide) (by simp [need_nat ok])

theorem ReadsBack.arena {form : Form α} {valid : α → Prop} (h : form.ReadsBack valid) :
    (arena form).ReadsBack fun a => ∀ x ∈ a.toList, valid x where
  plain ok := .object (by simpa using h.list.plain ok)
  read {a _} ok room := by
    obtain ⟨depth, rfl, inner⟩ := Json.nesting_object_le.mp room
    have items := h.list.need ok (inner _ List.mem_cons_self)
    exact record?_bind rfl (by decide) (by simp [items]; rfl)

end Form

end NetBridge
