/-! # Arenas

An arena stores items in the order in which they were added and never removes
one, so a key stays valid once it has been handed out. -/
namespace NetBridge

/-- The key of an `α` in its arena. -/
structure Key (α : Type) where
  index : Nat

namespace Key

instance {α : Type} : DecidableEq (Key α) := fun a b =>
  if h : a.index = b.index then
    isTrue (by cases a; cases b; exact congrArg Key.mk h)
  else
    isFalse fun e => h (congrArg Key.index e)

end Key

structure Arena (α : Type) where
  items : Array α := #[]

namespace Arena

variable {α : Type}

instance : Inhabited (Arena α) := ⟨⟨#[]⟩⟩

def size (a : Arena α) : Nat := a.items.size

def isEmpty (a : Arena α) : Bool := a.items.isEmpty

/-- The key that the next addition hands out. -/
def nextKey (a : Arena α) : Key α := ⟨a.items.size⟩

def push (a : Arena α) (item : α) : Arena α := ⟨a.items.push item⟩

/-- Adds an item and hands out its key. -/
def alloc (a : Arena α) (item : α) : Key α × Arena α := (a.nextKey, a.push item)

def get? (a : Arena α) (k : Key α) : Option α := a.items[k.index]?

def contains (a : Arena α) (k : Key α) : Bool := decide (k.index < a.items.size)

/-- Changes the item under an allocated key; any other key changes nothing. -/
def modify (a : Arena α) (k : Key α) (f : α → α) : Arena α := ⟨a.items.modify k.index f⟩

def toList (a : Arena α) : List α := a.items.toList

/-- The items with their keys, in allocation order. -/
def entries (a : Arena α) : List (Key α × α) :=
  a.toList.mapIdx fun i item => (⟨i⟩, item)

@[simp] theorem size_push (a : Arena α) (x : α) : (a.push x).size = a.size + 1 := by
  simp [size, push]

@[simp] theorem get?_push_nextKey (a : Arena α) (x : α) : (a.push x).get? a.nextKey = some x := by
  simp [get?, push, nextKey]

/-- An addition leaves the items that were there. -/
theorem get?_push_of_contains (a : Arena α) (x : α) {k : Key α} (h : a.contains k = true) :
    (a.push x).get? k = a.get? k := by
  have hk : k.index < a.items.size := by simpa [contains] using h
  simp [get?, push, Array.getElem?_push, Nat.ne_of_lt hk]

theorem get?_isSome (a : Arena α) (k : Key α) : (a.get? k).isSome = a.contains k := by
  by_cases h : k.index < a.items.size <;> simp [get?, contains, h]

end Arena

end NetBridge
