import Recompiler.Breach
import Recompiler.Guest.Register
import Recompiler.Text.Radix
import Recompiler.Word

/-!
# Guest state

The guest processor between two instructions, laid out as one row of words so that host code
reaches each of them at a fixed offset.

* `Slot`: the places of the words that are no general purpose register.
* `State.get`, `State.set`: words by place. `State.setRegister` keeps register zero at zero.
* `State.coreState`: whether the guest wants to go on.
* `State.describe`, `State.listing`: the state as one line and as a table.
-/

namespace Recompiler

/-! ## The layout -/

namespace Slot

/-- The link register. -/
def ra : Nat := 31
/-- The upper word of products, the remainder of divisions. -/
def hi : Nat := 32
/-- The lower word of products, the quotient of divisions. -/
def lo : Nat := 33
/-- The program counter, written by generated code where a block ends. -/
def pc : Nat := 34
/-- The signed number of cycles left in the current budget. -/
def downcount : Nat := 35
/-- Whether the guest should go on running. -/
def coreState : Nat := 36
/-- A scratch word that carries a branch decision or a jump target across a delay slot. -/
def branchTemp : Nat := 37

/-- The number of words. -/
def count : Nat := 38

/-- The distance in bytes of a word from the first one. -/
def offset (slot : Nat) : UInt32 :=
  (slot * 4).toUInt32

/-- The names of the words, in order. -/
def names : List String :=
  GeneralRegister.all.map (·.name) ++ ["hi", "lo", "pc", "downcount", "core_state", "branch_temp"]

end Slot

/-- Whether the guest should go on running. -/
inductive CoreState where
  | running
  /-- Somebody asked for execution to stop, for instance a system call. -/
  | stopping
  /-- The guest executed a `break`. -/
  | halted
  deriving DecidableEq, Repr

namespace CoreState

/-- The state word of a core state. -/
def toWord : CoreState → UInt32
  | running => 0
  | stopping => 1
  | halted => 2

/-- The core state of a state word, if the word is one. -/
def ofWord? (w : UInt32) : Option CoreState :=
  [running, stopping, halted].find? (·.toWord == w)

/-- The name of a core state. -/
def name : CoreState → String
  | running => "Running"
  | stopping => "Stopping"
  | halted => "Halted"

theorem ofWord?_toWord (s : CoreState) : ofWord? s.toWord = some s := by
  cases s <;> rfl

end CoreState

/-- The words of the guest processor. -/
structure State where
  /-- The general purpose registers, and then the words that `Slot` names. -/
  words : Vector UInt32 Slot.count
  deriving DecidableEq

namespace State

/-- Every word zero: the core is running and its budget is spent. -/
def initial : State :=
  ⟨Vector.replicate Slot.count 0⟩

instance : Inhabited State := ⟨initial⟩

variable (s : State)

/-- The word at a place. Places past the end read as zero. -/
def get (slot : Nat) : UInt32 :=
  s.words[slot]?.getD 0

/-- The state with a word replaced. Places past the end are left alone. -/
def set (slot : Nat) (value : UInt32) : State :=
  ⟨s.words.setIfInBounds slot value⟩

/-- The state with a register written. Writes to register zero are discarded. -/
def setRegister (register : Nat) (value : UInt32) : State :=
  if register = 0 then s else s.set register value

/-- The word at a place that the caller knows to exist. -/
def checkedGet (slot : Nat) : Except Breach UInt32 :=
  if slot < Slot.count then .ok (s.get slot) else .error (.indexOutOfBounds Slot.count slot)

/-- Writes a place that the caller knows to exist. Writes to place zero are discarded. -/
def checkedSet (slot : Nat) (value : UInt32) : Except Breach State :=
  if slot = 0 then .ok s
  else if slot < Slot.count then .ok (s.set slot value)
  else .error (.indexOutOfBounds Slot.count slot)

/-- The program counter. -/
def pc : UInt32 :=
  s.get Slot.pc

/-- The cycles left, a signed number. -/
def downcount : Int :=
  Word.toInt (s.get Slot.downcount)

/-- Whether the guest should go on running. A word that is no core state asks to stop. -/
def coreState : CoreState :=
  (CoreState.ofWord? (s.get Slot.coreState)).getD .stopping

/-- The state with another core state. -/
def setCoreState (c : CoreState) : State :=
  s.set Slot.coreState c.toWord

theorem get_set_self {slot : Nat} (h : slot < Slot.count) (value : UInt32) :
    (s.set slot value).get slot = value := by
  simp [get, set, h]

theorem get_set_of_ne {slot other : Nat} (h : slot ≠ other) (value : UInt32) :
    (s.set slot value).get other = s.get other := by
  simp [get, set, h]

/-! ## Text -/

/-- The named values of the state, the scratch word left out. -/
def entries : List (String × String) :=
  (List.range (Slot.pc + 1)).zip Slot.names |>.map (fun (slot, name) =>
      (name, Radix.hexWord (s.get slot)))
    |>.append [("downcount", toString s.downcount), ("core_state", s.coreState.name)]

/-- The state on one line. -/
def describe : String :=
  "\x7b" ++ ", ".intercalate (s.entries.map fun (name, value) => s!"\"{name}\": {value}") ++ "\x7d"

/-- The state as a table, one word on a line. -/
def listing : String :=
  "\x7b\n" ++ String.join (s.entries.map fun (name, value) => s!"    \"{name}\": {value},\n")
    ++ "\x7d"

end State

end Recompiler
