import MiniOs.Paging.Alone
import MiniOs.Paging.Contents
import MiniOs.Paging.Cpu

/-!
# Calls — an instruction as the calls that it makes

`run` reaches the paged memory by the functions of `libmem.c` and by `inc_vma_limit`, and `killall`
by a `libread` for each character of the name.  Three operations of `memmap` work on the devices
themselves (`plain`); what all others do is a list of calls of the process.
-/

namespace MiniOs

open Lib PagingSys PrivateBytes

namespace PagingSys

variable {s : PagingSys} {p : ℕ} {c : Caller}

/-! ## One process -/

@[simp] theorem setCaller_setCaller (c₁ c₂ : Caller) :
    (s.setCaller p c₁).setCaller p c₂ = s.setCaller p c₂ := by
  simp [setCaller]

/-- A call of an unfinished process. -/
theorem exec_call {op : Op} {f : Caller → Option (Int × Caller)} (hc : s.caller p = some c)
    (hop : s.perform op = s.onProc p f) :
    s.exec op = (f c).map fun r => s.setCaller p r.2 := by
  rw [exec, hop, onProc, hc, Option.bind_some, Option.map_map]
  rfl

end PagingSys

/-! ## Instructions -/

namespace Inst

/-- The calls of an instruction of process `p`; `none` for the operations on the devices. -/
def calls (ins : Inst) (p : ℕ) : Option (List Op) :=
  match ins.opcode with
  | .calc => some []
  | .alloc => some [.liballoc p ins.arg0 ins.arg1]
  | .free => some [.libfree p ins.arg0]
  | .read => some [.libread p ins.arg0 ins.arg1 ins.arg2]
  | .write => some [.libwrite p (ins.arg0.setWidth 8) ins.arg1 ins.arg2]
  | .syscall =>
      match sysCallTable ins.arg0 with
      | .listsyscall | .xxxhandler | .niSyscall => some []
      | .killall =>
          some ((List.range' 0 99).map fun i => .libread p ins.arg1 (BitVec.ofNat 32 i) 0#32)
      | .memmap =>
          match memOp ins.arg1 with
          | .mapOp | .unknown => some []
          | .incOp => some [.incVmaLimit p ins.arg2 ins.arg3]
          | .swpOp | .ioRead | .ioWrite => none

/-- The instruction works on the memory of its process only. -/
def Plain (ins : Inst) : Prop := (ins.calls 0).isSome

instance (ins : Inst) : Decidable ins.Plain := inferInstanceAs (Decidable (_ = true))

variable {ins : Inst} {p : ℕ} {ops : List Op}

/-- All calls are calls of the process. -/
theorem calls_callerOf (h : ins.calls p = some ops) : ∀ op ∈ ops, callerOf op = some p := by
  unfold calls at h
  cases hop : ins.opcode with
  | «calc» | alloc | free | read | write =>
      simp only [hop, Option.some.injEq] at h
      simp [← h, callerOf]
  | syscall =>
      simp only [hop] at h
      cases hcall : sysCallTable ins.arg0 with
      | listsyscall | xxxhandler | niSyscall | killall =>
          simp only [hcall, Option.some.injEq] at h
          simp [← h, callerOf]
      | memmap =>
          simp only [hcall] at h
          cases hmem : memOp ins.arg1 with
          | mapOp | unknown | incOp =>
              simp only [hmem, Option.some.injEq] at h
              simp [← h, callerOf]
          | swpOp | ioRead | ioWrite =>
              simp only [hmem] at h
              cases h

theorem callerOf_of_mem_calls {op : Op} (h : op ∈ (ins.calls p).getD []) :
    callerOf op = some p := by
  cases hcalls : ins.calls p with
  | none => simp [hcalls] at h
  | some ops =>
      rw [hcalls, Option.getD_some] at h
      exact calls_callerOf hcalls op h

/-- Every process makes the same calls. -/
theorem calls_asFirst (ins : Inst) (p : ℕ) :
    ins.calls 0 = (ins.calls p).map (List.map asFirst) := by
  unfold calls
  cases ins.opcode with
  | «calc» | alloc | free | read | write => rfl
  | syscall =>
      cases sysCallTable ins.arg0 with
      | listsyscall | xxxhandler | niSyscall => rfl
      | killall =>
          simp only [Option.map_some, List.map_map]
          rfl
      | memmap => cases memOp ins.arg1 <;> rfl

theorem Plain.calls (h : ins.Plain) (p : ℕ) : ∃ ops, ins.calls p = some ops := by
  unfold Plain at h
  rw [calls_asFirst ins p, Option.isSome_map] at h
  exact Option.isSome_iff_exists.1 h

end Inst

namespace Caller

variable {s : PagingSys} {p : ℕ} {c : Caller}

/-- `libread` leaves `*destination` as it was. -/
theorem libread_data {c' : Caller} {memrg offset destination data : Addr} {val : Int}
    (h : c.libread memrg offset destination = some ((val, data), c')) : data = destination := by
  rcases Option.map_eq_some_iff.1 h with ⟨r, _, heq⟩
  exact (congrArg (fun x => x.1.2) heq).symm

/-- The loop of `killall` is a `libread` for every index. -/
theorem killallName_calls (memrg : Addr) : ∀ (n i : ℕ) {s : PagingSys} {c : Caller},
    s.caller p = some c →
    (killallName memrg n i c).map (fun r => s.setCaller p r.2) =
      runFn PagingSys.exec s
        ((List.range' i n).map fun j => Op.libread p memrg (BitVec.ofNat 32 j) 0#32) := by
  intro n
  induction n with
  | zero =>
      intro i s c hc
      simp [killallName, runFn, setCaller_self hc]
  | succ n ih =>
      intro i s c hc
      have hexec : s.exec (.libread p memrg (BitVec.ofNat 32 i) 0#32) =
          (c.libread memrg (BitVec.ofNat 32 i) 0#32).map fun r => s.setCaller p r.2 := by
        have hop : s.perform (.libread p memrg (BitVec.ofNat 32 i) 0#32) =
            s.onProc p fun c =>
              (c.libread memrg (BitVec.ofNat 32 i) 0#32).map fun r => (r.1.1, r.2) := rfl
        rw [exec_call hc hop, Option.map_map]
        rfl
      rw [killallName, List.range'_succ, List.map_cons, runFn, hexec]
      cases hread : c.libread memrg (BitVec.ofNat 32 i) 0#32 with
      | none => rfl
      | some r =>
          rcases r with ⟨⟨val, data⟩, c'⟩
          -- the byte read is never the sentinel
          obtain rfl := libread_data hread
          have hzero : (0#32 : Addr) ≠ -1#32 := by decide
          have hrest := ih (i + 1) (caller_setCaller_self hc c')
          simp only [if_neg hzero, Option.map_map, Option.map_some, Option.bind_some, ← hrest]
          congr 1
          funext r
          simp

/-- Refinement: an instruction does to the system what its calls do. -/
theorem runInst_calls {ins : Inst} {ops : List Op} (hc : s.caller p = some c)
    (hops : ins.calls p = some ops) :
    (c.runInst ins).map (fun r => s.setCaller p r.2) = runFn PagingSys.exec s ops := by
  have hnone : ∀ ret : Int,
      (some (ret, c)).map (fun r : Int × Caller => s.setCaller p r.2) = runFn PagingSys.exec s [] :=
    fun _ => congrArg some (setCaller_self hc)
  have hone : ∀ {op : Op} {f : Caller → Option (Int × Caller)}, s.perform op = s.onProc p f →
      (f c).map (fun r => s.setCaller p r.2) = runFn PagingSys.exec s [op] := by
    intro op f hop
    rw [runFn, exec_call hc hop]
    cases f c <;> rfl
  unfold Inst.calls at hops
  unfold runInst
  cases hop : ins.opcode with
  | «calc» =>
      simp only [hop, Option.some.injEq] at hops
      exact hops ▸ hnone 0
  | alloc =>
      simp only [hop, Option.some.injEq] at hops
      exact hops ▸ hone (f := fun c => c.liballoc ins.arg0 ins.arg1) rfl
  | free =>
      simp only [hop, Option.some.injEq] at hops
      exact hops ▸ hone (f := fun c => c.libfree ins.arg0) rfl
  | read =>
      simp only [hop, Option.some.injEq] at hops
      exact hops ▸ hone (f := fun c =>
        (c.libread ins.arg0 ins.arg1 ins.arg2).map fun r => (r.1.1, r.2)) rfl
  | write =>
      simp only [hop, Option.some.injEq] at hops
      exact hops ▸ hone (f := fun c => c.libwrite (ins.arg0.setWidth 8) ins.arg1 ins.arg2) rfl
  | syscall =>
      simp only [hop] at hops
      unfold libsyscall
      cases hcall : sysCallTable ins.arg0 with
      | listsyscall | xxxhandler | niSyscall =>
          simp only [hcall, Option.some.injEq] at hops
          exact hops ▸ hnone 0
      | killall =>
          simp only [hcall, Option.some.injEq] at hops
          simp only [sysKillall, Option.map_map, ← hops, ← killallName_calls ins.arg1 99 0 hc]
          rfl
      | memmap =>
          simp only [hcall] at hops
          unfold sysMemmap
          cases hmem : memOp ins.arg1 with
          | mapOp | unknown =>
              simp only [hmem, Option.some.injEq] at hops
              exact hops ▸ hnone 0
          | incOp =>
              simp only [hmem, Option.some.injEq] at hops
              exact hops ▸ hone (f := fun c => some (c.incVmaLimit ins.arg2 ins.arg3)) rfl
          | swpOp | ioRead | ioWrite =>
              simp only [hmem] at hops
              cases hops

end Caller
end MiniOs
