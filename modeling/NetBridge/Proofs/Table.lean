import Mathlib.Data.List.Nodup
import NetBridge.Table

/-! # Looking up tables

A lookup finds the first entry of a key. Where keys occur once, it finds exactly
the entries; and it is blind to a reordering that keeps entries of one key in order. -/
namespace NetBridge.Table

variable {κ α : Type} [DecidableEq κ]

theorem mem_of_get? {t : Table κ α} {key : κ} {v : α} (h : get? t key = some v) :
    (key, v) ∈ t := by
  induction t with
  | nil => cases h
  | cons p rest ih =>
    obtain ⟨k, w⟩ := p
    by_cases hk : k = key
    · subst hk
      simp only [get?, if_pos, Option.some.injEq] at h
      subst h
      exact List.mem_cons_self
    · exact List.mem_cons_of_mem _ (ih (by simpa [get?, hk] using h))

omit [DecidableEq κ] in
theorem mem_keys_of_mem {t : Table κ α} {key : κ} {v : α} (h : (key, v) ∈ t) : key ∈ keys t :=
  List.mem_map_of_mem (f := Prod.fst) h

theorem mem_keys_of_get? {t : Table κ α} {key : κ} {v : α} (h : get? t key = some v) :
    key ∈ keys t :=
  mem_keys_of_mem (mem_of_get? h)

theorem get?_of_mem {t : Table κ α} (nodup : (keys t).Nodup) {key : κ} {v : α}
    (h : (key, v) ∈ t) : get? t key = some v := by
  induction t with
  | nil => cases h
  | cons p rest ih =>
    obtain ⟨k, w⟩ := p
    have hn := List.nodup_cons.mp nodup
    rcases List.mem_cons.mp h with heq | hrest
    · cases heq
      simp [get?]
    · have hne : k ≠ key := by
        intro heq
        subst heq
        exact hn.1 (mem_keys_of_mem hrest)
      simpa [get?, hne] using ih hn.2 hrest

theorem get?_eq_some_iff {t : Table κ α} (nodup : (keys t).Nodup) {key : κ} {v : α} :
    get? t key = some v ↔ (key, v) ∈ t :=
  ⟨mem_of_get?, get?_of_mem nodup⟩

theorem get?_eq_none_iff {t : Table κ α} {key : κ} : get? t key = none ↔ key ∉ keys t := by
  rw [← get?_isSome_iff, Option.not_isSome_iff_eq_none]

theorem exists_get?_of_mem_keys {t : Table κ α} {key : κ} (h : key ∈ keys t) :
    ∃ v, get? t key = some v :=
  Option.isSome_iff_exists.mp ((get?_isSome_iff t key).mpr h)

/-- Entries of one key that have one value are found, however many there are. -/
theorem get?_of_unique {t : Table κ α} {key : κ} {v : α} (h : key ∈ keys t)
    (unique : ∀ w, (key, w) ∈ t → w = v) : get? t key = some v := by
  obtain ⟨w, hw⟩ := exists_get?_of_mem_keys h
  rw [hw, unique w (mem_of_get? hw)]

theorem contains_iff {t : Table κ α} {key : κ} : contains t key = true ↔ key ∈ keys t :=
  get?_isSome_iff t key

omit [DecidableEq κ] in
theorem keys_append (s t : Table κ α) : keys (s ++ t) = keys s ++ keys t :=
  List.map_append

theorem get?_append (s t : Table κ α) (key : κ) :
    get? (s ++ t) key = (get? s key).or (get? t key) := by
  induction s with
  | nil => simp [get?]
  | cons p rest ih =>
    obtain ⟨k, w⟩ := p
    by_cases hk : k = key
    · simp [get?, hk]
    · simpa [get?, hk] using ih

theorem set_of_notMem {t : Table κ α} {key : κ} {v : α} (h : key ∉ keys t) :
    set t key v = t ++ [(key, v)] := by
  induction t with
  | nil => rfl
  | cons p rest ih =>
    obtain ⟨k, w⟩ := p
    obtain ⟨hk, hrest⟩ := not_or.mp (mt List.mem_cons.mpr h)
    rw [set, if_neg (Ne.symm hk), ih hrest, List.cons_append]

/-- Setting a key to the value that it has changes nothing. -/
theorem set_of_get? {t : Table κ α} {key : κ} {v : α} (h : get? t key = some v) :
    set t key v = t := by
  induction t with
  | nil => cases h
  | cons p rest ih =>
    obtain ⟨k, w⟩ := p
    by_cases hk : k = key
    · rw [get?, if_pos hk] at h
      rw [set, if_pos hk, Option.some.inj h]
    · rw [get?, if_neg hk] at h
      rw [set, if_neg hk, ih h]

theorem get?_eq_filter (t : Table κ α) (key : κ) :
    get? t key = ((t.filter fun p => decide (p.1 = key)).head?).map Prod.snd := by
  induction t with
  | nil => rfl
  | cons p rest ih =>
    obtain ⟨k, w⟩ := p
    by_cases hk : k = key <;> simp [get?, hk, ih]

/-- A table made from a list of keys answers for those keys. -/
theorem get?_filterMap (ids : List κ) (f : κ → Option α) (key : κ) :
    get? (ids.filterMap fun i => (f i).map (i, ·)) key = if key ∈ ids then f key else none := by
  induction ids with
  | nil => rfl
  | cons i rest ih =>
    cases hi : f i with
    | none =>
      rw [List.filterMap_cons_none (by simp [hi]), ih]
      by_cases heq : key = i
      · subst heq
        simp [hi]
      · simp [heq]
    | some v =>
      rw [List.filterMap_cons_some (b := (i, v)) (by simp [hi])]
      by_cases heq : i = key
      · subst heq
        simp [get?, hi]
      · simp [get?, heq, ih, Ne.symm heq]

/-- Pairs with distinct keys are the table that is made of them. -/
theorem ofPairs_eq_self {pairs : List (κ × α)} (nodup : (keys pairs).Nodup) :
    ofPairs pairs = pairs := by
  have from_table : ∀ t : Table κ α, (keys (t ++ pairs)).Nodup →
      pairs.foldl (fun t p => set t p.1 p.2) t = t ++ pairs := by
    induction pairs with
    | nil => simp
    | cons p rest ih =>
      intro t ht
      have absent : p.1 ∉ keys t := by
        rw [keys_append, List.nodup_append] at ht
        exact fun h => ht.2.2 _ h _ List.mem_cons_self rfl
      have appended : set t p.1 p.2 = t ++ [p] := set_of_notMem absent
      rw [List.foldl_cons, appended, ih (List.nodup_cons.mp nodup).2 _ (by simpa using ht),
        List.append_assoc, List.singleton_append]
  exact from_table [] nodup

theorem nodup_keys_set {t : Table κ α} (nodup : (keys t).Nodup) (key : κ) (v : α) :
    (keys (set t key v)).Nodup := by
  rw [keys_set]
  split
  · exact nodup
  · rename_i h
    exact List.nodup_append.mpr ⟨nodup, by simp, by simpa using fun a ha => ne_of_mem_of_not_mem ha h⟩

/-- No key occurs twice in a table that is made of pairs. -/
theorem nodup_keys_ofPairs (pairs : List (κ × α)) : (keys (ofPairs pairs)).Nodup := by
  have from_table : ∀ t : Table κ α, (keys t).Nodup →
      (keys (pairs.foldl (fun t p => set t p.1 p.2) t)).Nodup := by
    induction pairs with
    | nil => exact fun _ h => h
    | cons p rest ih => exact fun t ht => ih _ (nodup_keys_set ht p.1 p.2)
  exact from_table [] (by simp [keys])

theorem mem_set {t : Table κ α} {key : κ} {v : α} {p : κ × α} (h : p ∈ set t key v) :
    p ∈ t ∨ p.2 = v := by
  induction t with
  | nil => exact .inr (by simp_all [set])
  | cons q rest ih =>
    obtain ⟨k, w⟩ := q
    rw [set] at h
    split at h
    · rcases List.mem_cons.mp h with rfl | h
      · exact .inr rfl
      · exact .inl (List.mem_cons_of_mem _ h)
    · rcases List.mem_cons.mp h with rfl | h
      · exact .inl List.mem_cons_self
      · exact (ih h).imp_left (List.mem_cons_of_mem _)

/-- The values of a table that is made of pairs are among theirs. -/
theorem mem_ofPairs {pairs : List (κ × α)} {p : κ × α} (h : p ∈ ofPairs pairs) :
    ∃ q ∈ pairs, q.2 = p.2 := by
  have from_table : ∀ t : Table κ α, p ∈ pairs.foldl (fun t p => set t p.1 p.2) t →
      p ∈ t ∨ ∃ q ∈ pairs, q.2 = p.2 := by
    clear h
    induction pairs with
    | nil => exact fun t h => .inl h
    | cons q rest ih =>
      intro t h
      rcases ih _ h with h | ⟨r, hr, hp⟩
      · rcases mem_set h with h | h
        · exact .inl h
        · exact .inr ⟨q, List.mem_cons_self, h.symm⟩
      · exact .inr ⟨r, List.mem_cons_of_mem _ hr, hp⟩
  exact (from_table [] h).resolve_left List.not_mem_nil

omit [DecidableEq κ] in
theorem keys_filterMap_sublist (ids : List κ) (f : κ → Option α) :
    (keys (ids.filterMap fun i => (f i).map (i, ·))).Sublist ids := by
  induction ids with
  | nil => exact List.Sublist.refl _
  | cons i rest ih =>
    cases hi : f i with
    | none =>
      rw [List.filterMap_cons_none (by simp [hi])]
      exact ih.cons i
    | some v =>
      rw [List.filterMap_cons_some (b := (i, v)) (by simp [hi])]
      exact ih.cons_cons i

/-- Looking up keys in order gives the ones that are there. -/
theorem keys_filterMap (ids : List κ) (t : Table κ α) :
    keys (ids.filterMap fun i => (get? t i).map (i, ·)) = ids.filter (· ∈ keys t) := by
  induction ids with
  | nil => rfl
  | cons i rest ih =>
    cases h : get? t i with
    | none =>
      have absent : i ∉ keys t := get?_eq_none_iff.mp h
      rw [List.filterMap_cons_none (by simp [h]), List.filter_cons_of_neg (by simpa using absent),
        ih]
    | some v =>
      have present : i ∈ keys t := mem_keys_of_get? h
      rw [List.filterMap_cons_some (b := (i, v)) (by simp [h]),
        List.filter_cons_of_pos (by simpa using present), ← ih]
      rfl

/-- Sorting is stable, so it keeps the first entry of every key. -/
theorem get?_mergeSort (t : Table κ α) (le : κ → κ → Bool)
    (trans : ∀ a b c, le a b = true → le b c = true → le a c = true)
    (total : ∀ a b, (le a b || le b a) = true) (key : κ) :
    get? (t.mergeSort fun p q => le p.1 q.1) key = get? t key := by
  let same : κ × α → Bool := fun p => decide (p.1 = key)
  let sorted := t.mergeSort fun p q => le p.1 q.1
  have same_le : le key key = true := by simpa using total key key
  have pairwise : (t.filter same).Pairwise fun p q => le p.1 q.1 = true := by
    apply List.pairwise_of_forall_mem_list
    intro p hp q hq
    have hp' : p.1 = key := by simpa [same] using (List.mem_filter.mp hp).2
    have hq' : q.1 = key := by simpa [same] using (List.mem_filter.mp hq).2
    rw [hp', hq']
    exact same_le
  have sub : (t.filter same).Sublist sorted :=
    List.sublist_mergeSort (fun a b c => trans a.1 b.1 c.1) (fun a b => total a.1 b.1)
      pairwise List.filter_sublist
  have subFilter : (t.filter same).Sublist (sorted.filter same) := by
    simpa using sub.filter same
  have lengths : (sorted.filter same).length = (t.filter same).length :=
    ((List.mergeSort_perm t _).filter same).length_eq
  have filters : t.filter same = sorted.filter same :=
    subFilter.eq_of_length lengths.symm
  rw [get?_eq_filter, get?_eq_filter]
  exact congrArg (fun l => (l.head?).map Prod.snd) filters.symm

/-- Under each key the same entries stand in the same order. -/
def Alike (t t' : Table κ α) : Prop :=
  ∀ key, t'.filter (fun p => decide (p.1 = key)) = t.filter fun p => decide (p.1 = key)

namespace Alike

variable {s s' t t' u : Table κ α}

theorem refl (t : Table κ α) : Alike t t := fun _ => rfl

theorem trans (h : Alike s t) (h' : Alike t u) : Alike s u := fun key =>
  (h' key).trans (h key)

theorem get? (h : Alike t t') (key : κ) : get? t' key = get? t key := by
  rw [get?_eq_filter, get?_eq_filter, h key]

theorem contains (h : Alike t t') (key : κ) : contains t' key = contains t key := by
  rw [Table.contains, Table.contains, h.get?]

theorem mem (h : Alike t t') {p : κ × α} : p ∈ t' ↔ p ∈ t := by
  have among : ∀ t : Table κ α, p ∈ t ↔ p ∈ t.filter fun q => decide (q.1 = p.1) := by simp
  rw [among t, among t', h p.1]

theorem isEmpty (h : Alike t t') : t'.isEmpty = t.isEmpty := by
  rw [Bool.eq_iff_iff, List.isEmpty_iff, List.isEmpty_iff, List.eq_nil_iff_forall_not_mem,
    List.eq_nil_iff_forall_not_mem]
  exact forall_congr' fun _ => not_congr h.mem

theorem filter (h : Alike t t') (keep : κ × α → Bool) : Alike (t.filter keep) (t'.filter keep) :=
  fun key => by
    rw [List.filter_comm _ keep t', List.filter_comm _ keep t, h key]

theorem append (h : Alike s s') (h' : Alike t t') : Alike (s ++ t) (s' ++ t') := fun key => by
  rw [List.filter_append, List.filter_append, h key, h' key]

/-- Tables without a common key may change places. -/
theorem append_comm (apart : ∀ key ∈ keys s, key ∉ keys t) : Alike (s ++ t) (t ++ s) := fun key => by
  rw [List.filter_append, List.filter_append]
  have absent : ∀ {t : Table κ α}, key ∉ keys t → t.filter (fun p => decide (p.1 = key)) = [] :=
    fun h => List.filter_eq_nil_iff.mpr fun p hp => by
      simpa using fun same : p.1 = key => h (same ▸ mem_keys_of_mem hp)
  by_cases hs : key ∈ keys s
  · rw [absent (apart key hs), List.nil_append, List.append_nil]
  · rw [absent hs, List.nil_append, List.append_nil]

/-- New values that come from the key and the old value leave tables alike. -/
theorem map (h : Alike t t') (f : κ × α → α) :
    Alike (t.map fun p => (p.1, f p)) (t'.map fun p => (p.1, f p)) := fun key => by
  rw [List.filter_map, List.filter_map]
  exact congrArg _ (h key)

end Alike

/-- Setting a key concerns its own entries. -/
theorem filter_set (t : Table κ α) (a : κ) (v : α) (key : κ) :
    (set t a v).filter (fun p => decide (p.1 = key)) =
      if a = key then set (t.filter fun p => decide (p.1 = key)) a v
      else t.filter fun p => decide (p.1 = key) := by
  induction t with
  | nil => by_cases h : a = key <;> simp [set, h]
  | cons p rest ih =>
    obtain ⟨k, w⟩ := p
    by_cases hk : k = a
    · subst hk
      by_cases h : k = key <;> simp [set, h]
    · by_cases h : a = key
      · subst h
        rw [set, if_neg hk, if_pos rfl]
        simpa [hk] using ih
      · rw [set, if_neg hk, if_neg h]
        rw [if_neg h] at ih
        by_cases hkey : k = key <;> simp [hkey, ih]

/-- Sets in a row concern a key as the ones of that key do. -/
theorem filter_sets (ws t : Table κ α) (key : κ) :
    (ws.foldl (fun t p => set t p.1 p.2) t).filter (fun p => decide (p.1 = key)) =
      (ws.filter fun p => decide (p.1 = key)).foldl (fun t p => set t p.1 p.2)
        (t.filter fun p => decide (p.1 = key)) := by
  induction ws generalizing t with
  | nil => rfl
  | cons w rest ih =>
    rw [List.foldl_cons, ih, filter_set]
    by_cases h : w.1 = key <;> simp [h]

theorem Alike.sets {t t' ws ws' : Table κ α} (h : Alike t t') (hws : Alike ws ws') :
    Alike (ws.foldl (fun t p => set t p.1 p.2) t) (ws'.foldl (fun t p => set t p.1 p.2) t') :=
  fun key => by rw [filter_sets, filter_sets, h key, hws key]

/-- Tables of which no two have a common key may be joined in any order. -/
theorem Alike.flatMap_perm {β : Type} {xs ys : List β} (h : xs.Perm ys) {f : β → Table κ α}
    (apart : xs.Pairwise fun x y => ∀ key ∈ keys (f x), key ∉ keys (f y)) :
    Alike (xs.flatMap f) (ys.flatMap f) := by
  induction h with
  | nil => exact .refl _
  | cons x _ ih => exact (Alike.refl (f x)).append (ih (List.pairwise_cons.mp apart).2)
  | swap x y rest =>
    have first := (List.pairwise_cons.mp apart).1 x List.mem_cons_self
    simpa using (Alike.append_comm first).append (.refl (rest.flatMap f))
  | trans perm _ ih ih' =>
    refine (ih apart).trans (ih' ((perm.pairwise_iff ?_).mp apart))
    exact fun disjoint key hy hx => disjoint key hx hy

/-- So may entries with distinct keys. -/
theorem Alike.of_perm {t t' : Table κ α} (h : t.Perm t') (nodup : (keys t).Nodup) : Alike t t' := by
  have joined := Alike.flatMap_perm h (f := fun p => [p]) (by
    simpa [keys, List.Nodup, List.pairwise_map, eq_comm] using nodup)
  simpa using joined

end NetBridge.Table
