import MiniOs.Paging.Mm

/-!
# MmVm — virtual memory areas (`mm-vm.c`)

`inc_vma_limit` grows the area of a process at its break pointer.  It moves `bp` before it has
checked anything, and `vm_end` before it has any frame; nothing is taken back on failure.
-/

namespace MiniOs

/-- The fields of `struct pcb_t` that the paging code uses, with the two devices it points to. -/
structure Caller where
  bp : Addr
  mm : Mm
  mram : Memphy
  activeMswp : Memphy

namespace Caller

/-- `get_vma_by_num`; there is one area, number 0. -/
def getVmaByNum (c : Caller) (vmaid : Addr) : Option VmArea :=
  if 0 < vmaid.toInt then none else some c.mm.mmap

/-- `__mm_swap_page`: RAM frame `vicfpn` to swap frame `swpfpn`, and never back. -/
def mmSwapPage (c : Caller) (vicfpn swpfpn : Addr) : Option Caller :=
  (swapCpPage c.mram vicfpn c.activeMswp swpfpn).map fun mswp => { c with activeMswp := mswp }

/-- `get_vm_area_node_at_brk`: the bounds of the new node, and the moved break pointer. -/
def getVmAreaNodeAtBrk (c : Caller) (alignedsz : Addr) : (ULong × ULong) × Caller :=
  ((c.bp.setWidth 64, (c.bp + alignedsz).setWidth 64), { c with bp := c.bp + alignedsz })

/-- `validate_overlap_vm_area`: `vmastart` is an `int`, compared as an `unsigned long`. -/
def validateOverlapVmArea (c : Caller) (vmaid vmastart : Addr) : Int :=
  match c.getVmaByNum vmaid with
  | none => -1
  | some vma => if vmastart.signExtend 64 < vma.vmEnd then -1 else 0

/-- `inc_vma_limit` -/
def incVmaLimit (c : Caller) (vmaid incSz : Addr) : Int × Caller :=
  let incAmt := pagingPageAlignsz incSz
  let incnumpage := incAmt.sdiv pagingPagesz
  let ((rgStart, rgEnd), c) := c.getVmAreaNodeAtBrk incAmt
  match c.getVmaByNum vmaid with
  | none => (-1, c)
  | some curVma =>
      let oldEnd : Addr := curVma.vmEnd.setWidth 32
      -- bp has been moved already, also when this fails
      if c.validateOverlapVmArea vmaid (rgStart.setWidth 32) < 0 then (-1, c)
      else
        -- cur_vma->vm_end = area->rg_end, before there are frames for it
        let mm := { c.mm with mmap := { curVma with vmEnd := rgEnd } }
        match mm.vmMapRam c.mram oldEnd incnumpage with
        | (none, mm, mram) => (-1, { c with mm := mm, mram := mram })
        | (some _, mm, mram) => (0, { c with mm := mm, mram := mram })

end Caller
end MiniOs
