import Mathlib.Data.List.Nodup
import NetBridge.Arena

/-! # Growing arenas

What has been allocated stays as it is while more is added. -/
namespace NetBridge.Arena

variable {α : Type}

/-- Everything in the first arena stands in the second one under the same key. -/
def Extends (a b : Arena α) : Prop := ∀ ⦃k x⦄, a.get? k = some x → b.get? k = some x

theorem Extends.refl (a : Arena α) : Extends a a := fun _ _ h => h

theorem Extends.trans {a b c : Arena α} (hab : Extends a b) (hbc : Extends b c) : Extends a c :=
  fun _ _ h => hbc (hab h)

/-- Lookups tell arenas apart. -/
theorem eq_of_get? {a b : Arena α} (h : ∀ k, a.get? k = b.get? k) : a = b :=
  congrArg Arena.mk (Array.ext_getElem? fun i => h ⟨i⟩)

theorem contains_of_get? {a : Arena α} {k : Key α} {x : α} (h : a.get? k = some x) :
    a.contains k = true := by
  rw [← get?_isSome, h]
  rfl

theorem exists_get? {a : Arena α} {k : Key α} (h : a.contains k = true) : ∃ x, a.get? k = some x := by
  rwa [← get?_isSome, Option.isSome_iff_exists] at h

theorem get?_push (a : Arena α) (x : α) (k : Key α) :
    (a.push x).get? k = if k.index = a.size then some x else a.get? k := by
  by_cases h : k.index = a.size
  · rw [if_pos h]
    simp [get?, push, h, size]
  · rw [if_neg h]
    simp only [get?, push, Array.getElem?_push]
    exact if_neg h

theorem get?_modify [DecidableEq (Key α)] (a : Arena α) (k l : Key α) (f : α → α) :
    (a.modify k f).get? l = if k = l then (a.get? l).map f else a.get? l := by
  obtain ⟨i⟩ := k
  obtain ⟨j⟩ := l
  simp only [modify, get?, Array.getElem?_modify, Key.mk.injEq]

theorem Extends.push (a : Arena α) (x : α) : Extends a (a.push x) := fun _ _ h =>
  (get?_push_of_contains a x (contains_of_get? h)).trans h

theorem Extends.contains {a b : Arena α} (h : Extends a b) {k : Key α} (hk : a.contains k = true) :
    b.contains k = true := by
  obtain ⟨x, hx⟩ := exists_get? hk
  exact contains_of_get? (h hx)

@[simp] theorem contains_nextKey (a : Arena α) : a.contains a.nextKey = false := by
  simp [contains, nextKey]

/-- Between the two arenas the keys were handed out, each once. -/
structure Adds (a b : Arena α) (keys : List (Key α)) : Prop where
  grown : a.Extends b
  there : ∀ k ∈ keys, b.contains k = true
  new : ∀ k ∈ keys, a.contains k = false
  nodup : keys.Nodup

theorem Adds.refl (a : Arena α) : Adds a a [] := ⟨.refl a, by simp, by simp, List.nodup_nil⟩

theorem Adds.push (a : Arena α) (x : α) : Adds a (a.push x) [a.nextKey] where
  grown := .push a x
  there := List.forall_mem_singleton.mpr (contains_of_get? (get?_push_nextKey a x))
  new := List.forall_mem_singleton.mpr (contains_nextKey a)
  nodup := List.nodup_singleton _

/-- Keys of a later arena that are new since then are new since any time before. -/
theorem Adds.new_since {a b c : Arena α} {ks : List (Key α)} (grown : a.Extends b)
    (added : b.Adds c ks) : ∀ k ∈ ks, a.contains k = false := fun k hk => by
  cases h : a.contains k with
  | false => rfl
  | true => exact absurd (grown.contains h) (by simp [added.new k hk])

/-- The keys have been handed out, and none of them stands twice in the list. -/
structure Holds (a : Arena α) (keys : List (Key α)) : Prop where
  there : ∀ k ∈ keys, a.contains k = true
  nodup : keys.Nodup

theorem Holds.nil (a : Arena α) : a.Holds [] := ⟨by simp, List.nodup_nil⟩

theorem Holds.adds {a b : Arena α} {ks ls : List (Key α)} (h : a.Holds ks) (added : a.Adds b ls) :
    b.Holds (ks ++ ls) where
  there := List.forall_mem_append.mpr ⟨fun k hk => added.grown.contains (h.there k hk), added.there⟩
  nodup := List.nodup_append.mpr ⟨h.nodup, added.nodup, fun k hk l hl same => by
    have new := added.new l hl
    rw [← same, h.there k hk] at new
    cases new⟩

theorem Holds.perm {a : Arena α} {ks ls : List (Key α)} (h : a.Holds ks) (hp : ks.Perm ls) :
    a.Holds ls :=
  ⟨fun k hk => h.there k (hp.mem_iff.mpr hk), hp.nodup_iff.mp h.nodup⟩

theorem Adds.append {a b c : Arena α} {ks ls : List (Key α)} (hab : Adds a b ks)
    (hbc : Adds b c ls) : Adds a c (ks ++ ls) := by
  have held : b.Holds ks := ⟨hab.there, hab.nodup⟩
  exact {
    grown := hab.grown.trans hbc.grown
    there := (held.adds hbc).there
    new := List.forall_mem_append.mpr ⟨hab.new, Adds.new_since hab.grown hbc⟩
    nodup := (held.adds hbc).nodup }

theorem Adds.perm {a b : Arena α} {ks ls : List (Key α)} (h : Adds a b ks) (hp : ks.Perm ls) :
    Adds a b ls :=
  ⟨h.grown, fun k hk => h.there k (hp.mem_iff.mpr hk), fun k hk => h.new k (hp.mem_iff.mpr hk),
    hp.nodup_iff.mp h.nodup⟩

/-- Adds items, one after the other. -/
def append (a : Arena α) (items : List α) : Arena α := ⟨a.items ++ items.toArray⟩

@[simp] theorem append_nil (a : Arena α) : a.append [] = a := by simp [append]

@[simp] theorem append_append (a : Arena α) (xs ys : List α) :
    (a.append xs).append ys = a.append (xs ++ ys) := by simp [append]

@[simp] theorem size_append (a : Arena α) (xs : List α) :
    (a.append xs).size = a.size + xs.length := by simp [append, size]

theorem append_singleton (a : Arena α) (x : α) : a.append [x] = a.push x := by
  simp [append, push]

theorem append_cons (a : Arena α) (x : α) (xs : List α) :
    a.append (x :: xs) = (a.push x).append xs := by
  rw [← append_singleton, append_append]
  rfl

/-- The keys that the next additions hand out. -/
def nextKeys (a : Arena α) (n : Nat) : List (Key α) := (List.range' a.size n).map Key.mk

@[simp] theorem length_nextKeys (a : Arena α) (n : Nat) : (a.nextKeys n).length = n := by
  simp [nextKeys]

theorem nextKeys_succ (a : Arena α) (x : α) (n : Nat) :
    a.nextKeys (n + 1) = a.nextKey :: (a.push x).nextKeys n := by
  rw [nextKeys, nextKeys, List.range'_succ, size_push]
  rfl

theorem Adds.appended (a : Arena α) (xs : List α) :
    Adds a (a.append xs) (a.nextKeys xs.length) := by
  induction xs generalizing a with
  | nil =>
    rw [append_nil]
    exact .refl a
  | cons x rest ih =>
    rw [append_cons, List.length_cons, nextKeys_succ a x]
    exact (Adds.push a x).append (ih (a.push x))

/-- Every item stands under the key that was handed out for it. -/
theorem get?_of_mem_zip {a : Arena α} {xs : List α} {p : α × Key α}
    (h : p ∈ xs.zip (a.nextKeys xs.length)) : (a.append xs).get? p.2 = some p.1 := by
  induction xs generalizing a with
  | nil => cases h
  | cons x rest ih =>
    rw [List.length_cons, nextKeys_succ a x, List.zip_cons_cons, List.mem_cons] at h
    rw [append_cons]
    rcases h with rfl | h
    · exact (Adds.appended _ rest).grown (get?_push_nextKey a x)
    · exact ih h

end NetBridge.Arena
