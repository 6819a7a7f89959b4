import MiniOs.Paging.Cpu
import MiniOs.Paging.System

/-!
# Machine — start-up, programs and their instructions (`os.c`, `loader.c`)

`main` initialises the devices, the loader creates the processes, and `run` executes their
instructions one at a time.  Much of the storage for this comes from `malloc`, and not all of it is
set before it is used; what it holds at first is a parameter, a `Filling`.
-/

namespace MiniOs

/-! ## Programs -/

/-- A line of a program file: the opcode and the numbers behind it. -/
structure Line where
  opcode : Opcode
  args : List Addr

/-- The conversions in the format string of `load`. -/
def Opcode.conversions : Opcode → Nat
  | .calc => 0
  | .free => 1
  | .alloc => 2
  | .read | .write => 3
  | .syscall => 4

/-- `load`, for one line: the fields that no number was scanned for keep what `malloc` left. -/
def Line.load (line : Line) (stale : Inst) : Inst :=
  let args := line.args.take line.opcode.conversions
  { opcode := line.opcode
    arg0 := args[0]?.getD stale.arg0
    arg1 := args[1]?.getD stale.arg1
    arg2 := args[2]?.getD stale.arg2
    arg3 := args[3]?.getD stale.arg3 }

/-! ## Storage -/

/-- What the storage holds before it is set. -/
structure Filling where
  /-- `struct memphy_struct mram` and `mswp[0]` of `main` -/
  mram : Memphy
  activeMswp : Memphy
  /-- `fp_next` of the one node that `MEMPHY_format` may leave without -/
  mramNext : List Nat
  mswpNext : List Nat
  /-- the `struct mm_struct`, page directory and area of each process -/
  mm : Nat → Mm
  /-- `code->text` of each process -/
  text : Nat → Nat → Inst

/-- Storage filled with zeros. -/
def Filling.zero : Filling where
  mram := .zeroed
  activeMswp := .zeroed
  mramNext := []
  mswpNext := []
  mm := fun _ => .zeroed
  text := fun _ _ => ⟨.calc, 0, 0, 0, 0⟩

/-- The paged memory, and code and `pc` of the processes by number. -/
structure Machine where
  sys : PagingSys
  code : Nat → List Inst
  pc : Nat → Nat

namespace Machine

/-- After `init_memphy` of RAM and swap, with the `rdmflag` of `main`. -/
def start (stale : Filling) (memramsz memswpsz : Nat) : Machine where
  sys :=
    { mram := stale.mram.initMemphy stale.mramNext memramsz true
      activeMswp := stale.activeMswp.initMemphy stale.mswpNext memswpsz true
      procs := [] }
  code := fun _ => []
  pc := fun _ => 0

/-- The unfinished process `p`. -/
def task (m : Machine) (p : Nat) : Option Task :=
  (m.sys.caller p).map fun c => ⟨m.code p, m.pc p, c⟩

def setTask (m : Machine) (p : Nat) (t : Task) : Machine where
  sys := m.sys.setCaller p t.caller
  code := Function.update m.code p t.code
  pc := Function.update m.pc p t.pc

/-- The number of the process that `ld_routine` creates next. -/
def nextPid (m : Machine) : Nat := m.sys.procs.length

/-- `load` and `init_mm` -/
def load (stale : Filling) (m : Machine) (prog : List Line) : Machine where
  sys := { m.sys with
    procs := m.sys.procs ++ [some ⟨pageSize, Mm.initMm (stale.mm m.nextPid)⟩] }
  code := Function.update m.code m.nextPid
    (prog.mapIdx fun i line => line.load (stale.text m.nextPid i))
  pc := Function.update m.pc m.nextPid 0

/-- A process is loaded, executes an instruction, or is over. -/
inductive Action
  | load (prog : List Line)
  | run (p : Nat)
  | finish (p : Nat)

/-- The return value of an action, and the machine behind it. -/
def perform (stale : Filling) (m : Machine) : Action → Option (Int × Machine)
  | .load prog => some (0, m.load stale prog)
  | .run p => (m.task p).bind fun t => t.run.map fun (ret, t) => (ret, m.setTask p t)
  | .finish p =>
      -- free(proc), which happens at the end of the code
      if m.pc p = (m.code p).length then
        (m.sys.exec (.finish p)).map fun sys => (0, { m with sys := sys })
      else none

def exec (stale : Filling) (m : Machine) (a : Action) : Option Machine :=
  (m.perform stale a).map Prod.snd

/-- The instruction that process `p` executes next, and the process. -/
def next (m : Machine) (p : Nat) : Option (Caller × Inst) :=
  (m.sys.caller p).bind fun c => (m.code p)[m.pc p]?.map fun ins => (c, ins)

/-- An instruction that has an outcome. -/
theorem run_eq {stale : Filling} {m m' : Machine} {p : Nat} {ret : Int}
    (h : m.perform stale (.run p) = some (ret, m')) :
    ∃ c, m.sys.caller p = some c ∧
      ((m.code p)[m.pc p]? = none ∧ ret = 1 ∧ m' = m.setTask p ⟨m.code p, m.pc p, c⟩ ∨
        ∃ ins c', (m.code p)[m.pc p]? = some ins ∧ c.runInst ins = some (ret, c') ∧
          m' = m.setTask p ⟨m.code p, m.pc p + 1, c'⟩) := by
  rcases Option.bind_eq_some_iff.1 h with ⟨t, ht, hmap⟩
  rcases Option.map_eq_some_iff.1 ht with ⟨c, hc, rfl⟩
  rcases Option.map_eq_some_iff.1 hmap with ⟨⟨ret', t'⟩, hrun, heq⟩
  obtain ⟨rfl, rfl⟩ := Prod.mk.inj heq
  refine ⟨c, hc, ?_⟩
  unfold Task.run at hrun
  cases hins : (m.code p)[m.pc p]? with
  | none =>
      simp only [hins] at hrun
      obtain ⟨rfl, rfl⟩ := Prod.mk.inj (Option.some.inj hrun)
      exact Or.inl ⟨rfl, rfl, rfl⟩
  | some ins =>
      simp only [hins] at hrun
      rcases Option.map_eq_some_iff.1 hrun with ⟨⟨stat, c'⟩, hinst, heq⟩
      obtain ⟨rfl, rfl⟩ := Prod.mk.inj heq
      exact Or.inr ⟨ins, c', rfl, hinst, rfl⟩

end Machine
end MiniOs
