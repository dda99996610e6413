/-! # Tables

A table maps keys to values and remembers the order in which the keys first came
in. Setting a key that is present replaces its value in place. -/
namespace NetBridge

abbrev Table (κ α : Type) := List (κ × α)

namespace Table

variable {κ α : Type}

def keys (t : Table κ α) : List κ := t.map Prod.fst

def values (t : Table κ α) : List α := t.map Prod.snd

variable [DecidableEq κ]

def get? : Table κ α → κ → Option α
  | [], _ => none
  | (k, v) :: rest, key => if k = key then some v else get? rest key

def set : Table κ α → κ → α → Table κ α
  | [], key, value => [(key, value)]
  | (k, v) :: rest, key, value =>
    if k = key then (k, value) :: rest else (k, v) :: set rest key value

def erase : Table κ α → κ → Table κ α
  | [], _ => []
  | (k, v) :: rest, key => if k = key then rest else (k, v) :: erase rest key

def contains (t : Table κ α) (key : κ) : Bool := (get? t key).isSome

/-- Sets the given pairs one after the other: a repeated key keeps its first
position and its last value. -/
def ofPairs (pairs : List (κ × α)) : Table κ α :=
  pairs.foldl (fun t p => set t p.1 p.2) []

theorem get?_set (t : Table κ α) (a b : κ) (v : α) :
    get? (set t a v) b = if a = b then some v else get? t b := by
  induction t with
  | nil => simp [set, get?]
  | cons p rest ih =>
    obtain ⟨k, w⟩ := p
    by_cases hk : k = a
    · subst hk; by_cases hb : k = b <;> simp [set, get?, hb]
    · by_cases hb : k = b
      · subst hb; simp [set, get?, hk, Ne.symm hk]
      · simp [set, get?, hk, hb, ih]

theorem keys_set (t : Table κ α) (a : κ) (v : α) :
    keys (set t a v) = if a ∈ keys t then keys t else keys t ++ [a] := by
  induction t with
  | nil => simp [set, keys]
  | cons p rest ih =>
    obtain ⟨k, w⟩ := p
    by_cases hk : k = a
    · subst hk; simp [set, keys]
    · have ih' : (set rest a v).map Prod.fst
          = if a ∈ rest.map Prod.fst then rest.map Prod.fst else rest.map Prod.fst ++ [a] := ih
      by_cases hm : a ∈ rest.map Prod.fst
      · simp only [set, keys, hk, if_false, List.map_cons, ih', hm, if_true, List.mem_cons, or_true]
      · simp only [set, keys, hk, if_false, List.map_cons, ih', hm, List.mem_cons, Ne.symm hk,
          or_self, List.cons_append]

theorem get?_isSome_iff (t : Table κ α) (key : κ) : (get? t key).isSome ↔ key ∈ keys t := by
  induction t with
  | nil => simp [get?, keys]
  | cons p rest ih =>
    obtain ⟨k, w⟩ := p
    by_cases hk : k = key
    · simp [get?, keys, hk]
    · have ih' : (get? rest key).isSome ↔ key ∈ rest.map Prod.fst := ih
      simp only [get?, keys, hk, if_false, List.map_cons, List.mem_cons, Ne.symm hk, false_or, ih']

end Table

end NetBridge
