import MiniOs.Paging.Libmem

/-!
# Cpu — one instruction of a process (`cpu.c`, `libstd.c`, `syscall.c`, `sys_mem.c`)

`run` as it is built with `MM_PAGING`.  The two passes of `killall` over the queues are those of
`Sched`; here is how it reads the name.
-/

namespace MiniOs

/-! ## Numbers -/

/-- The `memop` of `__sys_memmap`. -/
inductive MemOp
  | mapOp
  | incOp
  | swpOp
  | ioRead
  | ioWrite
  | unknown
  deriving DecidableEq

/-- `SYSMEM_MAP_OP` to `SYSMEM_IO_WRITE` -/
def memOp (a1 : Addr) : MemOp :=
  if a1 = 1#32 then .mapOp
  else if a1 = 2#32 then .incOp
  else if a1 = 3#32 then .swpOp
  else if a1 = 4#32 then .ioRead
  else if a1 = 5#32 then .ioWrite
  else .unknown

/-- The entries of `syscalltbl.lst`, and `default`. -/
inductive SysCall
  | listsyscall
  | memmap
  | killall
  | xxxhandler
  | niSyscall
  deriving DecidableEq

def sysCallTable (nr : Addr) : SysCall :=
  if nr = 0#32 then .listsyscall
  else if nr = 17#32 then .memmap
  else if nr = 101#32 then .killall
  else if nr = 440#32 then .xxxhandler
  else .niSyscall

namespace Caller

/-! ## System calls -/

/-- `__sys_memmap`.  No result of an operation is tested; `regs->a3 = value` is lost, as `regs` is
a variable of `libsyscall`. -/
def sysMemmap (c : Caller) (a1 a2 a3 : Addr) : Option (Int × Caller) :=
  match memOp a1 with
  -- "Reserved process case"
  | .mapOp => some (0, c)
  | .incOp => some (0, (c.incVmaLimit a2 a3).2)
  | .swpOp => (c.mmSwapPage a2 a3).map fun c => (0, c)
  | .ioRead => (c.mram.read a2).map fun (_, mram) => (0, { c with mram := mram })
  | .ioWrite =>
      (c.mram.write a2 (a3.setWidth 8)).map fun (_, mram) => (0, { c with mram := mram })
  -- "Memop code: %d"
  | .unknown => some (0, c)

/-- The loop of `__sys_killall` from `proc_name[i]` on, for at most `n` characters. -/
def killallName (memrg : Addr) : (n : Nat) → (i : Nat) → Caller → Option (List Byte × Caller)
  | 0, _, c => some ([], c)
  | n + 1, i, c =>
      -- data = 0; libread(caller, memrg, i, &data)
      match c.libread memrg (BitVec.ofNat 32 i) 0#32 with
      | none => none
      | some ((_, data), c) =>
          if data = -1#32 then some ([], c)
          else (killallName memrg n (i + 1) c).map fun (name, c) => (data.setWidth 8 :: name, c)

/-- `__sys_killall`, up to the passes over the queues: `proc_name` has room for 99 characters. -/
def sysKillall (c : Caller) (a1 : Addr) : Option (Int × Caller) :=
  (killallName a1 99 0 c).map fun (_, c) => (0, c)

/-- `libsyscall`.  `__sys_listsyscall` and `__sys_xxxhandler` only print. -/
def libsyscall (c : Caller) (nr a1 a2 a3 : Addr) : Option (Int × Caller) :=
  match sysCallTable nr with
  | .listsyscall => some (0, c)
  | .memmap => c.sysMemmap a1 a2 a3
  | .killall => c.sysKillall a1
  | .xxxhandler => some (0, c)
  | .niSyscall => some (0, c)

/-! ## run -/

/-- The `switch` of `run`.  `libread` gets a pointer to a copy of the instruction. -/
def runInst (c : Caller) (ins : Inst) : Option (Int × Caller) :=
  match ins.opcode with
  -- calc(proc) is ((unsigned long)proc & 0UL)
  | .calc => some (0, c)
  | .alloc => c.liballoc ins.arg0 ins.arg1
  | .free => c.libfree ins.arg0
  | .read => (c.libread ins.arg0 ins.arg1 ins.arg2).map fun ((stat, _), c) => (stat, c)
  | .write => c.libwrite (ins.arg0.setWidth 8) ins.arg1 ins.arg2
  | .syscall => c.libsyscall ins.arg0 ins.arg1 ins.arg2 ins.arg3

end Caller

/-- A process with its code. -/
structure Task where
  code : List Inst
  pc : Nat
  caller : Caller

/-- `run`: the return value, and the process behind it. -/
def Task.run (t : Task) : Option (Int × Task) :=
  match t.code[t.pc]? with
  | none => some (1, t)
  | some ins => (t.caller.runInst ins).map fun (stat, c) => (stat, ⟨t.code, t.pc + 1, c⟩)

end MiniOs
