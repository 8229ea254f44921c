import Mathlib.Data.List.Basic

namespace Kirara.BoundedQueue

variable {α : Type*}

/-- A bounded queue in the sense of `collections.deque(maxlen=n)`. -/
structure Window (α : Type*) where
  maxlen : Nat
  items : List α
  bounded : items.length ≤ maxlen

def empty (maxlen : Nat) : Window α := ⟨maxlen, [], Nat.zero_le _⟩

def append (w : Window α) (a : α) : Window α :=
  ⟨w.maxlen, (w.items ++ [a]).drop (w.items.length + 1 - w.maxlen), by
    have := w.bounded
    simp only [List.length_drop, List.length_append, List.length_singleton]
    omega⟩

def clear (w : Window α) : Window α := ⟨w.maxlen, [], Nat.zero_le _⟩

/-- Rebuild a window with another capacity, keeping the most recent items. -/
def resize (w : Window α) (maxlen : Nat) : Window α :=
  ⟨maxlen, w.items.drop (w.items.length - maxlen), by
    simp only [List.length_drop]
    omega⟩

end Kirara.BoundedQueue
