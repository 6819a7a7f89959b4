import Mathlib.Data.List.GetD
import MiniOs.Common
import MiniOs.Lib.Scan

/-!
# Loader — `loader.c`

`load` on the text of a program file.  No result of a conversion is tested, so the variables that a
conversion does not set keep what they held: that of `malloc` or of the stack, or of the instruction
before.  A word that does not fit into `opcode[10]` and a number that does not fit into its object
leave the behaviour undefined.
-/

namespace MiniOs

open Lib.Scan

/-- `get_opcode`; `none` is `exit(1)`. -/
def getOpcode (opt : List Char) : Option Opcode :=
  if opt = ['c', 'a', 'l', 'c'] then some .calc
  else if opt = ['a', 'l', 'l', 'o', 'c'] then some .alloc
  else if opt = ['f', 'r', 'e', 'e'] then some .free
  else if opt = ['r', 'e', 'a', 'd'] then some .read
  else if opt = ['w', 'r', 'i', 't', 'e'] then some .write
  else if opt = ['s', 'y', 's', 'c', 'a', 'l', 'l'] then some .syscall
  else none

namespace Loader

/-! ## Conversions -/

/-- The values that conversions store, if all of them fit. -/
def stored (low high : Int) (xs : List Int) : Option (List Addr) :=
  if ∀ x ∈ xs, low ≤ x ∧ x < high then some (xs.map (BitVec.ofInt 32)) else none

/-- `%u`; what is behind a minus sign is negated in the type. -/
def storedUnsigned (xs : List Int) : Option (List Addr) := stored (-2 ^ 32 + 1) (2 ^ 32) xs

/-- `%d` -/
def storedInt (xs : List Int) : Option (List Addr) := stored (-2 ^ 31) (2 ^ 31) xs

/-- `fscanf(file, "%u … %u\n", …)`: the values, and what is left of the file. -/
def fscanfArgs (k : Nat) (rest : List Char) : Option (List Addr × List Char) :=
  let (xs, rest) := scanInts k rest
  (storedUnsigned xs).map fun vals => (vals, if xs.length = k then skipSpace rest else rest)

/-- The operands behind an opcode: their values, and then `buf` and what is left of the file. -/
def readArgs (opcode : Opcode) (buf rest : List Char) :
    Option (List Addr × List Char × List Char) :=
  match opcode with
  | .calc => some ([], buf, rest)
  | .alloc => (fscanfArgs 2 rest).map fun (vals, rest) => (vals, buf, rest)
  | .free => (fscanfArgs 1 rest).map fun (vals, rest) => (vals, buf, rest)
  | .read | .write => (fscanfArgs 3 rest).map fun (vals, rest) => (vals, buf, rest)
  | .syscall =>
      -- at the end of the file, fgets leaves the buffer alone
      let (buf, rest) := if rest = [] then (buf, []) else fgets 199 rest
      (storedInt (scanInts 4 (cString buf)).1).map fun vals => (vals, buf, rest)

/-- The arguments that were converted, in front of those that were there. -/
def setArgs (ins : Inst) (vals : List Addr) : Inst where
  opcode := ins.opcode
  arg0 := vals.getD 0 ins.arg0
  arg1 := vals.getD 1 ins.arg1
  arg2 := vals.getD 2 ins.arg2
  arg3 := vals.getD 3 ins.arg3

/-! ## load -/

/-- How a call ends. -/
inductive Outcome (α : Type)
  | exits
  | undefined
  | returns (result : α)

def Outcome.map {α β : Type} (f : α → β) : Outcome α → Outcome β
  | .exits => .exits
  | .undefined => .undefined
  | .returns result => .returns (f result)

/-- The rest of the file and the two buffers of `load`. -/
structure Buffers where
  rest : List Char
  opcode : List Char
  buf : List Char

/-- `fscanf(file, "%s", opcode)`; at the end of the file `opcode` keeps its word. -/
def readOpcode (st : Buffers) : Option Buffers :=
  match scanWord st.rest with
  | none => some { st with rest := [] }
  | some (word, rest) =>
      if word.length < 10 then some { st with rest := rest, opcode := word } else none

/-- The loop of `load`, for `k` instructions from number `i` on; `text` is what `malloc` gave. -/
def loadLoop (text : Nat → Inst) : (k : Nat) → (i : Nat) → Buffers → Outcome (List Inst)
  | 0, _, _ => .returns []
  | k + 1, i, st =>
      match readOpcode st with
      | none => .undefined
      | some st =>
          match getOpcode (cString st.opcode) with
          | none => .exits
          | some opcode =>
              match readArgs opcode st.buf st.rest with
              | none => .undefined
              | some (vals, buf, rest) =>
                  (loadLoop text k (i + 1) { st with rest := rest, buf := buf }).map
                    (setArgs { text i with opcode := opcode } vals :: ·)

/-- What the memory holds before `load` assigns to it. -/
structure Stale where
  priority : Addr
  size : Addr
  opcode : List Char
  buf : List Char
  text : Nat → Inst

/-- `load`: the priority and the instructions. -/
def load (stale : Stale) (file : List Char) : Outcome (Addr × List Inst) :=
  let (xs, rest) := scanInts 2 file
  match storedUnsigned xs with
  | none => .undefined
  | some vals =>
      let priority := vals.getD 0 stale.priority
      let size := vals.getD 1 stale.size
      (loadLoop stale.text size.toNat 0 ⟨rest, stale.opcode, stale.buf⟩).map (priority, ·)

end Loader
end MiniOs
