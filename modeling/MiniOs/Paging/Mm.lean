import MiniOs.Paging.Memphy
import MiniOs.Paging.Pte

/-!
# Mm — the memory management unit (`os-mm.h`, `mm.c`)

A process has a page directory, one virtual memory area, a table of 30 regions and a list of
pages for replacement.  The nodes of the free-region list are either allocated by `malloc` or
entries of the region table itself, which is what `__free` links, so a list is a chain of
pointers `RgPtr` here as in C.
-/

namespace MiniOs

/-- `PAGING_MAX_SYMTBL_SZ` -/
abbrev pagingMaxSymtblSz : Nat := 30

/-- A pointer to a `struct vm_rg_struct`. -/
inductive RgPtr
  | heap (n : Nat)
  | sym (i : Fin pagingMaxSymtblSz)
  deriving DecidableEq

structure VmRg where
  rgStart : ULong
  rgEnd : ULong
  rgNext : Option RgPtr
  deriving DecidableEq

/-- The area of a process; its `vm_id` is 0 and its `vm_next` is `NULL`. -/
structure VmArea where
  vmStart : ULong
  vmEnd : ULong
  sbrk : ULong
  vmFreergList : Option RgPtr

/-- `struct mm_struct`, with the region nodes that `malloc` has handed out; a freed one is
`none`. -/
structure Mm where
  pgd : Fin pagingMaxPgn → Addr
  mmap : VmArea
  rgHeap : List (Option VmRg)
  symrgtbl : Fin pagingMaxSymtblSz → VmRg
  fifoPgn : List (Fin pagingMaxPgn)

namespace Mm

/-- `*rg`; a freed node has no contents. -/
def rg (mm : Mm) : RgPtr → Option VmRg
  | .heap n => mm.rgHeap[n]?.join
  | .sym i => some (mm.symrgtbl i)

def setRg (mm : Mm) (p : RgPtr) (rg : VmRg) : Mm :=
  match p with
  | .heap n => { mm with rgHeap := mm.rgHeap.set n (some rg) }
  | .sym i => { mm with symrgtbl := Function.update mm.symrgtbl i rg }

/-! ## init_mm -/

def initVmRg (rgStart rgEnd : ULong) : VmRg := ⟨rgStart, rgEnd, none⟩

/-- `init_mm` on storage with the contents `stale`: the page directory, the region table, the
replacement list and the head of the free list come as `malloc` left them. -/
def initMm (stale : Mm) : Mm :=
  let firstRg := initVmRg 0 0
  -- enlist_vm_rg_node(&vma0->vm_freerg_list, first_rg)
  let firstRg := { firstRg with rgNext := stale.mmap.vmFreergList }
  { stale with
    mmap := ⟨0, 0, 0, some (.heap stale.rgHeap.length)⟩
    rgHeap := stale.rgHeap ++ [some firstRg] }

/-- Storage filled with zeros. -/
def zeroed : Mm where
  pgd := fun _ => 0
  mmap := ⟨0, 0, 0, none⟩
  rgHeap := []
  symrgtbl := fun _ => ⟨0, 0, none⟩
  fifoPgn := []

/-! ## Mapping -/

/-- The loop of `vmap_page_range` from page `i` on, `cur_frame` being the list. -/
def mapFrames (addr : Addr) (pgnum : Int) : (i : Nat) → (frames : List Nat) →
    (pgd : Fin pagingMaxPgn → Addr) → Fin pagingMaxPgn → Addr
  | _, [], pgd => pgd
  | i, fpn :: frames, pgd =>
      -- the loop ends when the frames are used up or all pages are mapped
      if i < pgnum then
        let curPgn := pagingPgn (addr + BitVec.ofNat 32 i * pagingPagesz)
        mapFrames addr pgnum (i + 1) frames
          (Function.update pgd curPgn (pteSetFpn (pgd curPgn) (BitVec.ofNat 32 fpn)))
      else pgd

/-- `vmap_page_range`: the bounds of `ret_rg`, and the mapping.  Only the first page of the range
is enlisted for replacement. -/
def vmapPageRange (mm : Mm) (addr pgnum : Addr) (frames : List Nat) : (ULong × ULong) × Mm :=
  let rgEnd := addr + pgnum * pagingPagesz
  ((addr.signExtend 64, rgEnd.signExtend 64),
    { mm with
      pgd := mapFrames addr pgnum.toInt 0 frames mm.pgd
      fifoPgn := pagingPgn addr :: mm.fifoPgn })

/-- The loop of `alloc_pages_range`; `none` is the return value -3000, after which the frames
taken so far are lost. -/
def takeFrames : Nat → Memphy → Option (List Nat) × Memphy
  | 0, mram => (some [], mram)
  | n + 1, mram =>
      match mram.getFreefp with
      | none => (none, mram)
      | some (fpn, mram) =>
          let (frames, mram) := takeFrames n mram
          (frames.map (fpn :: ·), mram)

def allocPagesRange (mram : Memphy) (reqPgnum : Addr) : Option (List Nat) × Memphy :=
  takeFrames reqPgnum.toInt.toNat mram

/-- `vm_map_ram`: the bounds of `ret_rg`, or `none` for -1; `astart` and `aend` are not used. -/
def vmMapRam (mm : Mm) (mram : Memphy) (mapstart incpgnum : Addr) :
    Option (ULong × ULong) × Mm × Memphy :=
  match allocPagesRange mram incpgnum with
  | (none, mram) => (none, mm, mram)
  | (some frmLst, mram) =>
      -- alloc_pages_range returns req_pgnum, also when it is negative
      if incpgnum.toInt < 0 then (none, mm, mram)
      else
        let (retRg, mm) := mm.vmapPageRange mapstart incpgnum frmLst
        (some retRg, mm, mram)

end Mm

/-! ## Copying a page -/

/-- One round of the loop of `__swap_cp_page`.  The results of the accesses are not tested; after
a refused read the byte written would be indeterminate. -/
def swapCpCell (mpsrc : Memphy) (srcfpn dstfpn : Addr) (mpdst : Memphy) (cellidx : Nat) :
    Option Memphy :=
  match mpsrc.read (srcfpn * pagingPagesz + BitVec.ofNat 32 cellidx) with
  | some (some data, _) =>
      (mpdst.write (dstfpn * pagingPagesz + BitVec.ofNat 32 cellidx) data).map Prod.snd
  | _ => none

/-- `__swap_cp_page` between two devices: the destination after it. -/
def swapCpPage (mpsrc : Memphy) (srcfpn : Addr) (mpdst : Memphy) (dstfpn : Addr) :
    Option Memphy :=
  (List.range 256).foldlM (swapCpCell mpsrc srcfpn dstfpn) mpdst

theorem swapCpCell_sameFrame {mpsrc mpdst mpdst' : Memphy} {srcfpn dstfpn : Addr} {cellidx : Nat}
    (h : swapCpCell mpsrc srcfpn dstfpn mpdst cellidx = some mpdst') :
    mpdst.SameFrame mpdst' := by
  unfold swapCpCell at h
  split at h
  · rcases Option.map_eq_some_iff.1 h with ⟨⟨val, mp⟩, hwrite, rfl⟩
    exact Memphy.write_sameFrame hwrite
  · cases h

theorem foldlM_swapCpCell_sameFrame {mpsrc : Memphy} {srcfpn dstfpn : Addr} (cells : List Nat)
    {mpdst mpdst' : Memphy}
    (h : cells.foldlM (swapCpCell mpsrc srcfpn dstfpn) mpdst = some mpdst') :
    mpdst.SameFrame mpdst' := by
  induction cells generalizing mpdst with
  | nil =>
      obtain rfl : mpdst = mpdst' := by simpa using h
      exact Memphy.SameFrame.refl mpdst
  | cons cell cells ih =>
      -- cell by cell, each round hands on a device of the same frame
      rw [List.foldlM_cons] at h
      rcases Option.bind_eq_some_iff.1 h with ⟨mp, hcell, hrest⟩
      exact (swapCpCell_sameFrame hcell).trans (ih hrest)

/-- A copy leaves the size, the mode and the free list of the destination alone. -/
theorem swapCpPage_sameFrame {mpsrc mpdst mpdst' : Memphy} {srcfpn dstfpn : Addr}
    (h : swapCpPage mpsrc srcfpn mpdst dstfpn = some mpdst') : mpdst.SameFrame mpdst' :=
  foldlM_swapCpCell_sameFrame _ h

end MiniOs
