import Mathlib.Order.Fin.Basic
import Mathlib.Tactic

/-!
# Common — constants and records shared by all parts (`common.h`, `os-cfg.h`)

Machine words are bit vectors: `Byte` is the C `char`, `Addr` the 32-bit `addr_t` (and every
other `uint32_t` or `int`), `ULong` the 64-bit `unsigned long`.
-/

namespace MiniOs

/-- `BYTE`, a `char`. -/
abbrev Byte := BitVec 8

/-- `addr_t`, `uint32_t` and, read as two's complement, `int`. -/
abbrev Addr := BitVec 32

/-- `unsigned long` of the 64-bit build. -/
abbrev ULong := BitVec 64

/-- A string without its terminator. -/
abbrev CString := List Byte

/-- The bytes of an ASCII text. -/
def ascii (text : String) : CString := text.toList.map fun c => BitVec.ofNat 8 c.toNat

/-- `MAX_QUEUE_SIZE` -/
def maxQueueSize : Nat := 10

/-- `MAX_PRIO` -/
def maxPrio : Nat := 140

/-- `PAGE_SIZE`, `1 << OFFSET_LEN` -/
def pageSize : Addr := 1024#32

/-- `enum ins_opcode_t` -/
inductive Opcode
  | calc
  | alloc
  | free
  | read
  | write
  | syscall
  deriving DecidableEq, Repr

/-- `struct inst_t` -/
structure Inst where
  opcode : Opcode
  arg0 : Addr
  arg1 : Addr
  arg2 : Addr
  arg3 : Addr
  deriving DecidableEq

/-- The fields of `struct pcb_t` that are fixed once the loader has set `prio`.  The value
stands for the pointer: the loader hands out pairwise different `pid`s. -/
structure Pcb where
  pid : Nat
  priority : Nat
  path : CString
  code : List Inst
  prio : Nat
  deriving DecidableEq

/-- `proc->code->size` -/
def Pcb.codeSize (p : Pcb) : Nat := p.code.length

end MiniOs
