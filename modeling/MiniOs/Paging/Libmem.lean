import MiniOs.Paging.MmVm

/-!
# Libmem — regions and pages of a process (`libmem.c`)

`none` is undefined behaviour: an access outside an array, a node used or freed that `malloc`
does not own, a loop over a cyclic list.  `&symrgtbl[30]`, which `get_symrg_byid` hands out for
the identifier 30, is one past the end.
-/

namespace MiniOs

/-- The results of `get_symrg_byid`. -/
inductive SymPtr
  | null
  | entry (i : Fin pagingMaxSymtblSz)
  | pastEnd

/-- `get_symrg_byid`; the bound is compared with `>`. -/
def getSymrgByid (rgid : Addr) : SymPtr :=
  if rgid.toInt < 0 ∨ (pagingMaxSymtblSz : Int) < rgid.toInt then .null
  else if h : rgid.toInt.toNat < pagingMaxSymtblSz then .entry ⟨rgid.toInt.toNat, h⟩
  else .pastEnd

theorem getSymrgByid_eq_entry {rgid : Addr}
    (h : 0 ≤ rgid.toInt ∧ rgid.toInt.toNat < pagingMaxSymtblSz) :
    getSymrgByid rgid = .entry ⟨rgid.toInt.toNat, h.2⟩ := by
  have hlt := h.2
  have hrange : ¬ (rgid.toInt < 0 ∨ (pagingMaxSymtblSz : Int) < rgid.toInt) := by omega
  rw [getSymrgByid, if_neg hrange, dif_pos hlt]

/-- The identifier of an entry, read as an `int`. -/
theorem toInt_symId (i : Fin pagingMaxSymtblSz) : (BitVec.ofNat 32 i.val : Addr).toInt = i.val := by
  have hlt : i.val < 30 := i.isLt
  have hnat : (BitVec.ofNat 32 i.val : Addr).toNat = i.val := by
    rw [BitVec.toNat_ofNat]
    omega
  rw [BitVec.toInt_eq_toNat_of_lt (by omega), hnat]

theorem getSymrgByid_symId (i : Fin pagingMaxSymtblSz) :
    getSymrgByid (BitVec.ofNat 32 i.val) = .entry i := by
  have hint := toInt_symId i
  have hid : 0 ≤ (BitVec.ofNat 32 i.val : Addr).toInt ∧
      (BitVec.ofNat 32 i.val : Addr).toInt.toNat < pagingMaxSymtblSz := by
    rw [hint]
    exact ⟨Int.natCast_nonneg _, i.isLt⟩
  rw [getSymrgByid_eq_entry hid]
  exact congrArg SymPtr.entry (Fin.ext (by simp [hint]))

namespace Mm

/-! ## Free regions -/

/-- `enlist_vm_freerg_list` of a node of the region table.  On an empty list the `rg_next` of the
node is not set. -/
def enlistVmFreergList (mm : Mm) (i : Fin pagingMaxSymtblSz) : Int × Mm :=
  let rgElmt := mm.symrgtbl i
  if rgElmt.rgEnd ≤ rgElmt.rgStart then (-1, mm)
  else
    let rgElmt := match mm.mmap.vmFreergList with
      | none => rgElmt
      | some rgNode => { rgElmt with rgNext := some rgNode }
    (0, { mm.setRg (.sym i) rgElmt with
      mmap := { mm.mmap with vmFreergList := some (.sym i) } })

/-- `free(rgit)`: only nodes from `malloc` may be freed. -/
def freeRg (mm : Mm) : RgPtr → Option Mm
  | .heap n => some { mm with rgHeap := mm.rgHeap.set n none }
  | .sym _ => none

/-- Take the node `rgit` out of the list, behind `prev`. -/
def unlinkRg (mm : Mm) (prev : Option RgPtr) (rgNext : Option RgPtr) : Option Mm :=
  match prev with
  | none => some { mm with mmap := { mm.mmap with vmFreergList := rgNext } }
  | some q => (mm.rg q).map fun node => mm.setRg q { node with rgNext := rgNext }

/-- The loop of `get_free_vmrg_area`: the bounds of `newrg`.  A list without a cycle has at most
as many nodes as there are region nodes, so running out of `fuel` means that the loop does not
end. -/
def findFreeRg (mm : Mm) (size : Addr) : (fuel : Nat) → (prev rgit : Option RgPtr) →
    Option ((ULong × ULong) × Mm)
  | 0, _, _ => none
  | _ + 1, _, none => some ((-1, -1), mm)
  | fuel + 1, prev, some p =>
      match mm.rg p with
      | none => none
      | some rgit =>
          let avail : Addr := (rgit.rgEnd - rgit.rgStart).setWidth 32
          if size.toInt ≤ avail.toInt then
            let newEnd := rgit.rgStart + size.signExtend 64
            let mm := mm.setRg p { rgit with rgStart := newEnd }
            -- the region is used up: its node is unlinked and freed
            if rgit.rgEnd ≤ newEnd then
              (mm.unlinkRg prev rgit.rgNext).bind fun mm =>
                (mm.freeRg p).map fun mm => ((rgit.rgStart, newEnd), mm)
            else some ((rgit.rgStart, newEnd), mm)
          else findFreeRg mm size fuel (some p) rgit.rgNext

/-- `get_free_vmrg_area` on area 0: the bounds of `newrg`, or `none` for -1, which only an empty
list gives.  A list without a fit returns 0 as well, with `newrg` as it was probed. -/
def getFreeVmrgArea (mm : Mm) (size : Addr) : Option (Option (ULong × ULong) × Mm) :=
  match mm.mmap.vmFreergList with
  | none => some (none, mm)
  | some p =>
      (mm.findFreeRg size (mm.rgHeap.length + pagingMaxSymtblSz + 1) none (some p)).map
        fun (newrg, mm) => (some newrg, mm)

end Mm

namespace Caller

/-! ## Allocation -/

/-- `__alloc` on area 0: `*alloc_addr`, or `none` for -1.  Only a region found in the free list is
recorded in the region table. -/
def alloc (c : Caller) (rgid size : Addr) : Option (Option Addr × Caller) :=
  match c.mm.getFreeVmrgArea size with
  | none => none
  | some (some (rgStart, rgEnd), mm) =>
      if h : 0 ≤ rgid.toInt ∧ rgid.toInt.toNat < pagingMaxSymtblSz then
        let i : Fin pagingMaxSymtblSz := ⟨rgid.toInt.toNat, h.2⟩
        let rg := { mm.symrgtbl i with rgStart := rgStart, rgEnd := rgEnd }
        some (some (rgStart.setWidth 32), { c with mm := mm.setRg (.sym i) rg })
      else none
  | some (none, _) =>
      let incSz := pagingPageAlignsz size
      let oldSbrk : Addr := c.mm.mmap.sbrk.setWidth 32
      match c.incVmaLimit 0 incSz with
      | (ret, c) =>
          -- the new region is not entered into the region table
          if ret < 0 then some (none, c)
          else
            let sbrk := (oldSbrk + incSz).signExtend 64
            let mm := { c.mm with mmap := { c.mm.mmap with sbrk := sbrk } }
            some (some oldSbrk, { c with mm := mm })

/-- `__free` on area 0. -/
def free (c : Caller) (rgid : Addr) : Option (Int × Caller) :=
  match getSymrgByid rgid with
  | .null => some (-1, c)
  | .pastEnd => none
  | .entry i =>
      let region := c.mm.symrgtbl i
      if region.rgStart = -1 ∨ region.rgEnd = -1 ∨ region.rgEnd ≤ region.rgStart then some (-1, c)
      else
        match c.mm.enlistVmFreergList i with
        -- the node is on the free list now, and loses its bounds and its successor
        | (0, mm) => some (0, { c with mm := mm.setRg (.sym i) ⟨-1, -1, none⟩ })
        | (_, _) => some (-1, c)

def liballoc (c : Caller) (size regIndex : Addr) : Option (Int × Caller) :=
  (c.alloc regIndex size).map fun (addr, c) => (if addr.isSome then 0 else -1, c)

def libfree (c : Caller) (regIndex : Addr) : Option (Int × Caller) := c.free regIndex

/-! ## Tear-down -/

/-- One round of the loop of `free_pcb_memph`: the number of an entry that is not present goes to
the list of RAM, the swap frame of one that is present to the list of the swap device. -/
def freePcbPage (c : Caller) (pagenum : Fin pagingMaxPgn) : Caller :=
  let pte := c.mm.pgd pagenum
  if !pagingPagePresent pte then { c with mram := c.mram.putFreefp (pagingFpn pte).toNat }
  else { c with activeMswp := c.activeMswp.putFreefp (pagingSwp pte).toNat }

/-- `free_pcb_memph` -/
def freePcbMemph (c : Caller) : Caller := (List.finRange pagingMaxPgn).foldl freePcbPage c

/-! ## Pages -/

/-- `find_victim_page`; `none` is the return value -1. -/
def findVictimPage (c : Caller) : Option (Fin pagingMaxPgn × Caller) :=
  match c.mm.fifoPgn with
  | [] => none
  | pgn :: rest => some (pgn, { c with mm := { c.mm with fifoPgn := rest } })

/-- `pg_getpage` behind the two searches: page number `vicpgn` and the target's swap frame serve
as RAM frame numbers, and the entry of the victim stays as it is. -/
def bringIn (c : Caller) (pgn vicpgn : Fin pagingMaxPgn) (swpfpn : Nat) : Option Caller :=
  let vicpgn : Addr := BitVec.ofNat 32 vicpgn.val
  let tgtfpn := pagingSwp (c.mm.pgd pgn)
  (c.mmSwapPage vicpgn (BitVec.ofNat 32 swpfpn)).bind fun c =>
    (c.mmSwapPage tgtfpn vicpgn).map fun c =>
      let pgd := Function.update c.mm.pgd pgn (ptePresent (c.mm.pgd pgn) vicpgn)
      { c with mm := { c.mm with pgd := pgd } }

/-- `pg_getpage`: `*fpn`, or `none` for -1. -/
def pgGetpage (c : Caller) (pgn : Fin pagingMaxPgn) : Option (Option Addr × Caller) :=
  if pagingPagePresent (c.mm.pgd pgn) then some (some (pagingFpn (c.mm.pgd pgn)), c)
  else
    match c.findVictimPage with
    | none => some (none, c)
    | some (vicpgn, c) =>
        -- the victim has left the replacement list already
        match c.activeMswp.getFreefp with
        | none => some (none, c)
        | some (swpfpn, mswp) =>
            (bringIn { c with activeMswp := mswp } pgn vicpgn swpfpn).map fun c =>
              (some (pagingFpn (c.mm.pgd pgn)), c)

/-- The physical address that `pg_getval` and `pg_setval` access. -/
def phyaddr (fpn addr : Addr) : Addr := fpn * pagingPagesz + pagingOffst addr

/-- `pg_getval`: the byte, or `none` for -1. -/
def pgGetval (c : Caller) (addr : Addr) : Option (Option Byte × Caller) :=
  match c.pgGetpage (pagingPgn addr) with
  | none => none
  | some (none, c) => some (none, c)
  | some (some fpn, c) =>
      (c.mram.read (phyaddr fpn addr)).map fun (data, mram) => (data, { c with mram := mram })

/-- `pg_setval` -/
def pgSetval (c : Caller) (addr : Addr) (value : Byte) : Option (Int × Caller) :=
  match c.pgGetpage (pagingPgn addr) with
  | none => none
  | some (none, c) => some (-1, c)
  | some (some fpn, c) =>
      (c.mram.write (phyaddr fpn addr) value).map fun (val, mram) => (val, { c with mram := mram })

/-- `currg->rg_start + offset`, passed on as an `int`. -/
def rgAddr (c : Caller) (i : Fin pagingMaxSymtblSz) (offset : Addr) : Addr :=
  ((c.mm.symrgtbl i).rgStart + offset.signExtend 64).setWidth 32

/-- `__read` on area 0: the return value and the byte in `data`, if it was set.  The result of
`pg_getval` is not tested. -/
def read (c : Caller) (rgid offset : Addr) : Option ((Int × Option Byte) × Caller) :=
  match getSymrgByid rgid with
  | .null => some ((-1, none), c)
  | .pastEnd => none
  | .entry i => (c.pgGetval (c.rgAddr i offset)).map fun (data, c) => ((0, data), c)

/-- `libread`: the return value and `*destination`, to which nothing is assigned. -/
def libread (c : Caller) (source offset destination : Addr) : Option ((Int × Addr) × Caller) :=
  (c.read source offset).map fun ((val, _), c) => ((val, destination), c)

/-- `__write` on area 0; the result of `pg_setval` is not tested. -/
def write (c : Caller) (rgid offset : Addr) (value : Byte) : Option (Int × Caller) :=
  match getSymrgByid rgid with
  | .null => some (-1, c)
  | .pastEnd => none
  | .entry i => (c.pgSetval (c.rgAddr i offset) value).map fun (_, c) => (0, c)

def libwrite (c : Caller) (data : Byte) (destination offset : Addr) : Option (Int × Caller) :=
  c.write destination offset data

end Caller
end MiniOs
