import ArithVM.Value

/-!
# Constant pools

A pool hands out positions in ascending order and keeps each value at its position for good.  Equal
values are stored again, not shared.
-/

namespace ArithVM

/-- Values that are addressed by their position. -/
structure Pool where
  values : Array Value := #[]

namespace Pool

/-- The pool without values. -/
def empty : Pool := {}

def size (pool : Pool) : Nat :=
  pool.values.size

def isEmpty (pool : Pool) : Bool :=
  pool.values.isEmpty

/-- Appends a value; it stands at the position `pool.size`. -/
def push (pool : Pool) (v : Value) : Pool :=
  ⟨pool.values.push v⟩

def get? (pool : Pool) (index : Nat) : Option Value :=
  pool.values[index]?

@[simp]
theorem size_push (pool : Pool) (v : Value) : (pool.push v).size = pool.size + 1 := by
  simp [size, push]

theorem get?_push (pool : Pool) (v : Value) (index : Nat) :
    (pool.push v).get? index = if index = pool.size then some v else pool.get? index :=
  Array.getElem?_push

end Pool

end ArithVM
