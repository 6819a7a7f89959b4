import MiniOs.Mem.Limits

/-!
# Cpu — the instructions of `cpu.c` over `mem.c`

`read_mem` returns 0 for an address that it could read, but `read` goes on where it returns
something else.  So `read` refuses every address that is mapped, and puts what its local variable
happens to hold into the register for every address that is not.
-/

namespace MiniOs

/-- The memory with its processes, and their registers. -/
structure MemCpu (ι : Type) where
  sys : MemSys ι
  regs : ι → Fin 10 → Addr

namespace MemCpu

variable {ι : Type} [DecidableEq ι]

/-- `load` leaves the registers as `malloc` gave them. -/
def init (procs : Processes ι) (regs : ι → Fin 10 → Addr) : MemCpu ι := ⟨MemSys.init procs, regs⟩

def setReg (s : MemCpu ι) (i : ι) (reg : Fin 10) (addr : Addr) : MemCpu ι :=
  { s with regs := Function.update s.regs i (Function.update (s.regs i) reg addr) }

/-! ## Instructions -/

/-- Every instruction gives its return value and the state. -/
def alloc (s : MemCpu ι) (i : ι) (size : Addr) (regIndex : Fin 10) : Int × MemCpu ι :=
  let addr := s.sys.returns i size
  let s := { s with sys := s.sys.call (.allocMem i size) }
  if addr = 0#32 then (1, s) else (0, s.setReg i regIndex addr)

/-- `free_mem` returns 0 and does nothing else. -/
def freeData (s : MemCpu ι) (_i : ι) (_regIndex : Fin 10) : Int × MemCpu ι := (0, s)

/-- The return value of `read_mem`, and `data` after it. -/
def readMem (s : MemCpu ι) (i : ι) (address : Addr) (data : Byte) : Int × Byte :=
  match s.sys.reads i address with
  | none => (1, data)
  | some byte => (0, byte)

/-- `data` is what the variable holds before it is assigned. -/
def read (s : MemCpu ι) (i : ι) (source : Fin 10) (offset : Addr) (destination : Fin 10)
    (data : Byte) : Int × MemCpu ι :=
  let (status, data) := s.readMem i (s.regs i source + offset) data
  -- if (read_mem(...))
  if status ≠ 0 then (0, s.setReg i destination (data.signExtend 32)) else (1, s)

def write (s : MemCpu ι) (i : ι) (data : Byte) (destination : Fin 10) (offset : Addr) :
    Int × MemCpu ι :=
  match writeMem s.sys.mem (s.regs i destination + offset) (s.sys.proc i) data with
  | none => (1, s)
  | some _ => (0, { s with sys := s.sys.call (.writeMem i (s.regs i destination + offset) data) })

inductive Instr (ι : Type)
  | alloc (i : ι) (size : Addr) (regIndex : Fin 10)
  | freeData (i : ι) (regIndex : Fin 10)
  | read (i : ι) (source : Fin 10) (offset : Addr) (destination : Fin 10) (data : Byte)
  | write (i : ι) (data : Byte) (destination : Fin 10) (offset : Addr)

def exec (s : MemCpu ι) : Instr ι → MemCpu ι
  | .alloc i size regIndex => (s.alloc i size regIndex).2
  | .freeData i regIndex => (s.freeData i regIndex).2
  | .read i source offset destination data => (s.read i source offset destination data).2
  | .write i data destination offset => (s.write i data destination offset).2

def execs (s : MemCpu ι) (cs : List (Instr ι)) : MemCpu ι := cs.foldl exec s

/-- After a `write` that returned 0, `read` at the same address delivers the byte; at an address
that is not translated, `read` and `write` return 1 and change nothing. -/
structure ReadsBack (s : MemCpu ι) (i : ι) (r : Fin 10) (offset : Addr) (d : Fin 10)
    (v data : Byte) : Prop where
  back : ∀ s', s.write i v r offset = (0, s') →
    s'.read i r offset d data = (0, s'.setReg i d (v.signExtend 32))
  refused : s.sys.translation i (s.regs i r + offset) = none →
    s.read i r offset d data = (1, s) ∧ s.write i v r offset = (1, s)

/-! ## Single accesses -/

variable {s : MemCpu ι} {i : ι} {r : Fin 10} {offset : Addr}

/-- The status of `read` is the wrong way round where the address is mapped ... -/
theorem read_of_some {q : Addr} (h : s.sys.translation i (s.regs i r + offset) = some q)
    (d : Fin 10) (data : Byte) : s.read i r offset d data = (1, s) := by
  have hread : s.sys.reads i (s.regs i r + offset) = some (s.sys.mem.ram q) := by
    rw [MemSys.reads, MiniOs.readMem]
    exact congrArg (Option.map s.sys.mem.ram) h
  simp [read, readMem, hread]

/-- ... and where it is not. -/
theorem read_of_none (h : s.sys.translation i (s.regs i r + offset) = none) (d : Fin 10)
    (data : Byte) : s.read i r offset d data = (0, s.setReg i d (data.signExtend 32)) := by
  have hread : s.sys.reads i (s.regs i r + offset) = none := by
    rw [MemSys.reads, MiniOs.readMem]
    exact congrArg (Option.map s.sys.mem.ram) h
  simp [read, readMem, hread]

theorem write_of_some {q : Addr} (h : s.sys.translation i (s.regs i r + offset) = some q)
    (v : Byte) : s.write i v r offset =
      (0, { s with sys := s.sys.call (.writeMem i (s.regs i r + offset) v) }) := by
  have htr : translate (s.regs i r + offset) (s.sys.proc i) = some q := h
  simp [write, writeMem, htr]

/-- A write does not change where addresses lead. -/
theorem translation_write (s : MemSys ι) (i j : ι) (a b : Addr) (v : Byte) :
    (s.call (.writeMem i a v)).translation j b = s.translation j b := by
  rw [MemSys.call_writeMem]
  split <;> rfl

/-- Every byte that is written is refused when it is read back. -/
theorem read_after_write {q : Addr} (h : s.sys.translation i (s.regs i r + offset) = some q)
    (v data : Byte) (d : Fin 10) :
    ∃ s', s.write i v r offset = (0, s') ∧ s'.read i r offset d data = (1, s') := by
  refine ⟨_, write_of_some h v, read_of_some (q := q) ?_ d data⟩
  rw [translation_write]
  exact h

/-- In no state and for no address: where it is mapped, the byte does not come back, and elsewhere
`read` returns 0. -/
theorem not_readsBack (s : MemCpu ι) (i : ι) (r : Fin 10) (offset : Addr) (d : Fin 10)
    (v data : Byte) : ¬ s.ReadsBack i r offset d v data := by
  intro h
  cases htr : s.sys.translation i (s.regs i r + offset) with
  | none =>
      have hread := (h.refused htr).1
      rw [read_of_none htr] at hread
      have hstatus : (0 : Int) = 1 := congrArg Prod.fst hread
      exact absurd hstatus (by decide)
  | some q =>
      rcases read_after_write htr v data d with ⟨s', hwrite, hread⟩
      rw [h.back s' hwrite] at hread
      have hstatus : (0 : Int) = 1 := congrArg Prod.fst hread
      exact absurd hstatus (by decide)

/-! ## Allocated addresses -/

/-- Every instruction is a call of `mem.c`, or none. -/
theorem exec_sys (s : MemCpu ι) (c : Instr ι) : ∃ cs, (s.exec c).sys = s.sys.calls cs := by
  cases c with
  | alloc i size regIndex =>
      refine ⟨[.allocMem i size], ?_⟩
      simp only [exec, alloc]
      split <;> rfl
  | freeData i regIndex => exact ⟨[], rfl⟩
  | read i source offset destination data =>
      refine ⟨[], ?_⟩
      simp only [exec, read]
      split <;> rfl
  | write i data destination offset =>
      simp only [exec, write]
      split
      · exact ⟨[], rfl⟩
      · exact ⟨[.writeMem i (s.regs i destination + offset) data], rfl⟩

theorem execs_sys (cs : List (Instr ι)) : ∀ s : MemCpu ι,
    ∃ cs', (s.execs cs).sys = s.sys.calls cs' := by
  induction cs with
  | nil => exact fun s => ⟨[], rfl⟩
  | cons c cs ih =>
      intro s
      rcases s.exec_sys c with ⟨cs₁, h₁⟩
      rcases ih (s.exec c) with ⟨cs₂, h₂⟩
      refine ⟨cs₁ ++ cs₂, ?_⟩
      rw [execs, List.foldl_cons]
      exact h₂.trans (by rw [h₁, MemSys.calls, MemSys.calls, MemSys.calls, List.foldl_append])

/-- Translations are never lost. -/
theorem extends_calls {procs : Processes ι} (cs : List (MemCall ι)) : ∀ {s : MemSys ι}
    {top : ι → Nat}, MemSys.Inv procs s top →
      Lib.Extends s.translation (s.calls cs).translation := by
  induction cs with
  | nil => exact fun _ _ _ _ hq => hq
  | cons c cs ih =>
      intro s top h j a q hq
      rcases h.call c with ⟨_, h'⟩
      apply ih h'
      cases c with
      | allocMem i size => exact (h.allocMem i size).1.keeps j a q hq
      | writeMem i b v => exact (translation_write s i j b a v).trans hq
      | readMem i b => exact hq

/-- A successful `alloc` of a reached state maps what it puts into the register. -/
theorem alloc_translates {procs : Processes ι} {top : ι → Nat} (h : MemSys.Inv procs s.sys top)
    {size : Addr} {reg : Fin 10} (halloc : (s.alloc i size reg).1 = 0) {offset : Addr}
    (hoffset : offset < size) : ((s.alloc i size reg).2.sys.translation i
      ((s.alloc i size reg).2.regs i reg + offset)).isSome := by
  have hne : s.sys.returns i size ≠ 0#32 := by
    intro hzero
    simp [alloc, hzero] at halloc
  have hexact := h.exact i size
  have hgiven := hexact.given hne
  have hroom := (hexact.nonzero_iff.1 hne).2
  have hsys : (s.alloc i size reg).2.sys = s.sys.call (.allocMem i size) := by
    simp only [alloc, if_neg hne]
    rfl
  have hreg : (s.alloc i size reg).2.regs i reg = s.sys.returns i size := by
    simp [alloc, hne, setReg]
  -- the sum does not wrap around
  have hlt := BitVec.lt_def.1 hoffset
  have hsize := size_le size
  have hret := congrArg BitVec.toNat hgiven.ret_eq
  have hsum : (s.sys.returns i size + offset).toNat =
      (s.sys.returns i size).toNat + offset.toNat := by
    rw [BitVec.toNat_add]
    omega
  rw [hsys, hreg]
  exact hgiven.translates _ (by omega) (by omega)

/-- What `alloc` returned is mapped from then on, so no byte of it can be read back. -/
theorem allocated_unreadable (procs : Processes ι) (regs : ι → Fin 10 → Addr)
    (cs cs' : List (Instr ι)) {size : Addr} {reg : Fin 10} {s₁ s₂ : MemCpu ι}
    (halloc : ((init procs regs).execs cs).alloc i size reg = (0, s₁)) (hs₂ : s₂ = s₁.execs cs')
    (hholds : s₂.regs i r = s₁.regs i reg) (hoffset : offset < size) (v data : Byte) (d : Fin 10) :
    ∃ s', s₂.write i v r offset = (0, s') ∧ s'.read i r offset d data = (1, s') := by
  rcases (init procs regs).execs_sys cs with ⟨ms, hms⟩
  rcases (MemSys.inv_init procs).calls ms with ⟨top, hinv⟩
  have hinit : MemSys.Inv procs ((init procs regs).execs cs).sys top := hms ▸ hinv
  rcases s₁.execs_sys cs' with ⟨ms', hms'⟩
  have hmapped := alloc_translates hinit (congrArg Prod.fst halloc) hoffset
  rw [halloc] at hmapped
  -- the allocation is a call as well, and later calls keep what it has mapped
  rcases exec_sys ((init procs regs).execs cs) (.alloc i size reg) with ⟨ms₁, hms₁⟩
  have hs₁ : s₁.sys = (((init procs regs).execs cs).sys).calls ms₁ := by
    rw [← hms₁, exec, halloc]
  rcases hinit.calls ms₁ with ⟨top₁, hinv₁⟩
  rw [← hs₁] at hinv₁
  rcases Option.isSome_iff_exists.1 hmapped with ⟨q, hq⟩
  have hkept := extends_calls ms' hinv₁ _ _ _ hq
  rw [← hms', ← hs₂, ← hholds] at hkept
  exact read_after_write hkept v data d

/-! ## An example -/

/-- A single process. -/
def oneProc : Processes Unit where
  pid _ := 1#32
  pid_injective _ _ _ := rfl
  pid_ne_zero _ := by decide

theorem freePageCount_initMem : freePageCount initMem = 1024 := by
  have hall : ∀ k ∈ List.finRange numPages, decide ((initMem.memStat k).proc = 0#32) = true :=
    fun _ _ => rfl
  rw [freePageCount, List.countP_eq_length.2 hall, List.length_finRange]

/-- 300 bytes in register 0; byte 5 of them is written, and read into register 1. -/
theorem not_readsBack_alloc : ((init oneProc fun _ _ => 0).alloc () 300 0).1 = 0 ∧
    ¬ ((init oneProc fun _ _ => 0).alloc () 300 0).2.ReadsBack () 0 5 1 42 0 := by
  have hinv : MemSys.Inv oneProc (init oneProc fun _ _ => 0).sys fun _ => 1 :=
    MemSys.inv_init oneProc
  have hpages : pagesNeeded 300 = 1 := by
    have hnat : (300 : Addr).toNat = 300 := rfl
    rw [pagesNeeded, hnat, Nat.ceil_eq_iff (by decide)]
    norm_num
  have hne : (init oneProc fun _ _ => 0).sys.returns () 300 ≠ 0#32 := by
    refine (hinv.exact () 300).nonzero_iff.2 ⟨?_, ?_⟩
    · have hcount : freePageCount (init oneProc fun _ _ => 0).sys.mem = 1024 :=
        freePageCount_initMem
      rw [hpages, hcount]
      decide
    · rw [hpages]
      decide
  have halloc : ((init oneProc fun _ _ => 0).alloc () 300 0).1 = 0 := by
    simp only [alloc, if_neg hne]
  have hmapped := alloc_translates hinv halloc (show (5 : Addr) < 300 by decide)
  refine ⟨halloc, fun h => ?_⟩
  rcases Option.isSome_iff_exists.1 hmapped with ⟨q, hq⟩
  rcases read_after_write hq 42 0 1 with ⟨s', hwrite, hread⟩
  rw [h.back s' hwrite] at hread
  have hstatus : (0 : Int) = 1 := congrArg Prod.fst hread
  exact absurd hstatus (by decide)

end MemCpu
end MiniOs
