import ArithVM.Fault
import ArithVM.Listing

/-!
# The machine — chunks run on an operand stack

`Machine.step` carries out one instruction, `Machine.execute` runs a chunk from its first byte on an
empty stack.  Every step that does not stop the run moves forward in the code, and code is never
entered backwards, so every run ends.  What was taken off the stack before a fault stays off.
-/

namespace ArithVM

/-- Values waiting to be used, the topmost first. -/
abbrev Stack := List Value

namespace Stack

/-- A change of a stack.  When it faults, the stack stays as it was at the fault. -/
abbrev Change := EStateM Fault Stack

/-- Puts a value on top, unless the stack is full. -/
def push (v : Value) : Change Unit := fun stack =>
  if stack.length < Fault.maxStack then .ok () (v :: stack)
  else .error .stackOverflow stack

/-- Takes the topmost value off. -/
def pop : Change Value
  | [] => .error .stackUnderflow []
  | v :: stack => .ok v stack

end Stack

/-- What an instruction does to the stack.  The right operand of an operation lies on top of the
    left one.  A return leaves the stack alone. -/
def Instruction.perform (constants : Pool) : Instruction → Stack.Change Unit
  | .constant index =>
    match constants.get? index.toNat with
    | some v => Stack.push v
    | none => throw (.badConstant index)
  | .operator op => do
    let right ← Stack.pop
    let left ← Stack.pop
    Stack.push (op.apply left right)
  | .negate => do
    let v ← Stack.pop
    Stack.push (-v)
  | .ret => pure ()

/-- The state between two instructions. -/
structure Machine where
  stack : Stack := []
  /-- The offset of the next instruction. -/
  ip : Nat := 0
  /-- Whether a run reports each instruction and the stack before it. -/
  tracing : Bool := false

namespace Machine

/-- A machine that has not run yet. -/
def new (tracing : Bool) : Machine :=
  { tracing }

/-- The stack with the topmost value last. -/
def values (m : Machine) : List Value :=
  m.stack.reverse

/-- The topmost value. -/
def peek? (m : Machine) : Option Value :=
  m.stack.head?

/-- Changes the stack and nothing else; a fault leaves the machine with the stack it met. -/
def change {α : Type} (m : Machine) (action : Stack.Change α) : Except Fault α × Machine :=
  match action m.stack with
  | .ok a stack => (.ok a, { m with stack })
  | .error fault stack => (.error fault, { m with stack })

def push (m : Machine) (v : Value) : Except Fault Unit × Machine :=
  m.change (Stack.push v)

def pop (m : Machine) : Except Fault Value × Machine :=
  m.change Stack.pop

/-- What comes of one instruction. -/
inductive Step where
  /-- The run goes on from here. -/
  | next (m : Machine)
  /-- The run is over. -/
  | stop (result : Except RuntimeError (Option Value)) (m : Machine)

/-- Carries out the instruction at `ip`.  An instruction that is carried out, even one that faults,
    is behind `ip`; bytes that are no instruction stay ahead of it. -/
def step (c : Chunk) (m : Machine) : Step :=
  match c.decode m.ip with
  | .error e => .stop (.error (e.fault.locate c m.ip)) m
  | .ok i =>
    let ip := m.ip + i.size
    if i = .ret then
      .stop (.ok m.peek?) { m with ip }
    else
      match i.perform c.constants m.stack with
      | .ok _ stack => .next { m with stack, ip }
      | .error fault stack => .stop (.error (fault.locate c m.ip)) { m with stack, ip }

theorem ip_lt_of_step_eq_next {c : Chunk} {m m' : Machine} (h : m.step c = .next m') :
    m.ip < c.size ∧ m.ip < m'.ip := by
  unfold step at h
  split at h
  next => simp at h
  next i hi =>
    have hpos := i.size_pos
    refine ⟨Chunk.lt_size_of_decode_eq_ok hi, ?_⟩
    split at h
    · simp at h
    · split at h
      · simp only [Step.next.injEq] at h
        subst h
        simp only
        omega
      · simp at h

/-- What a tracing machine reports before a step: the stack, then the row of the instruction.  No
    row is left behind the end of the code. -/
def messages (c : Chunk) (m : Machine) : List String :=
  if m.tracing then
    [Value.stackText m.values, ((c.row? m.ip).map Row.text).getD ""]
  else
    []

/-- What comes of a run. -/
structure Run where
  /-- The topmost value at the return, if there was one. -/
  result : Except RuntimeError (Option Value)
  /-- The machine after the run. -/
  machine : Machine
  /-- The messages of a tracing machine. -/
  trace : List String

/-- Runs on until the machine stops. -/
def runFrom (c : Chunk) (m : Machine) : Run :=
  match _ : m.step c with
  | .next m' =>
    let later := runFrom c m'
    { later with trace := m.messages c ++ later.trace }
  | .stop result m' => ⟨result, m', m.messages c⟩
termination_by c.size - m.ip
decreasing_by
  have := ip_lt_of_step_eq_next ‹m.step c = .next m'›
  omega

/-- Runs a chunk from its first byte, on an empty stack. -/
def execute (m : Machine) (c : Chunk) : Run :=
  runFrom c { m with stack := [], ip := 0 }

end Machine

end ArithVM
