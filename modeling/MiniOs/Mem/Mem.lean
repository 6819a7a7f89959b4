import Mathlib.Data.List.FinRange
import MiniOs.Common

/-!
# Mem — the segmented memory of `mem.c`

A 20-bit space of 1024 pages of 1024 bytes behind a two-level page table.  Both levels are
arrays with a fill count, kept here as lists; the second-level tables are not shared, so a row of
the first level holds its table.  Every function runs under `mem_lock` or reads only what one
process owns, so a call is one step.
-/

namespace MiniOs

/-- `NUM_PAGES` -/
abbrev numPages : Nat := 1024

/-- `RAM_SIZE`, `1 << ADDRESS_SIZE` -/
def ramSize : Addr := 1048576#32

/-- A row of `struct trans_table_t`. -/
structure TransEntry where
  vIndex : Addr
  pIndex : Addr

/-- A row of `struct page_table_t` with the table it points to. -/
structure PageEntry where
  vIndex : Addr
  nextLv : List TransEntry

abbrev PageTable := List PageEntry

/-- The fields of `struct pcb_t` that `mem.c` uses. -/
structure MemProc where
  pid : Addr
  bp : Addr
  pageTable : PageTable

/-- A row of `_mem_stat`. -/
structure MemStat where
  proc : Addr
  index : Int
  next : Int

/-- `_ram` and `_mem_stat`.  The array `_ram` ends at `RAM_SIZE`. -/
structure Mem where
  ram : Addr → Byte
  memStat : Fin numPages → MemStat

def initMem : Mem where
  ram := fun _ => 0
  memStat := fun _ => ⟨0, 0, 0⟩

/-! ## Translation -/

/-- `addr & ~((~0U) << OFFSET_LEN)` -/
def getOffset (addr : Addr) : Addr := addr &&& ~~~((~~~0#32) <<< 10)

/-- `addr >> (OFFSET_LEN + PAGE_LEN)` -/
def getFirstLv (addr : Addr) : Addr := addr >>> 15

/-- `(addr >> OFFSET_LEN) - (get_first_lv(addr) << PAGE_LEN)` -/
def getSecondLv (addr : Addr) : Addr := (addr >>> 10) - (getFirstLv addr <<< 5)

/-- The first row with the index, if there is one. -/
def getTransTable (index : Addr) : PageTable → Option (List TransEntry)
  | [] => none
  | row :: rows => if row.vIndex = index then some row.nextLv else getTransTable index rows

/-- The search loop of `translate` in the second level. -/
def findPage (secondLv : Addr) : List TransEntry → Option Addr
  | [] => none
  | row :: rows => if row.vIndex = secondLv then some row.pIndex else findPage secondLv rows

/-- `none` is the return value 0. -/
def translate (virtualAddr : Addr) (proc : MemProc) : Option Addr :=
  match getTransTable (getFirstLv virtualAddr) proc.pageTable with
  | none => none
  | some transTable =>
      match findPage (getSecondLv virtualAddr) transTable with
      | none => none
      | some pIndex => some ((pIndex <<< 10) ||| getOffset virtualAddr)

/-! ## Allocation -/

/-- `add_page_mapping` on the page table: append a row to the table of the first-level index, or
to a new table. -/
def addRow (firstLv secondLv physicalPage : Addr) : PageTable → PageTable
  | [] => [⟨firstLv, [⟨secondLv, physicalPage⟩]⟩]
  | row :: rows =>
      if row.vIndex = firstLv then
        -- trans->table[trans->size++]
        { row with nextLv := row.nextLv ++ [⟨secondLv, physicalPage⟩] } :: rows
      else row :: addRow firstLv secondLv physicalPage rows

def addPageMapping (proc : MemProc) (virtualAddr physicalPage : Addr) : MemProc :=
  let firstLv := getFirstLv virtualAddr
  let secondLv := getSecondLv virtualAddr
  { proc with pageTable := addRow firstLv secondLv physicalPage proc.pageTable }

/-- The variables of the allocation loop. -/
structure Alloc where
  allocated : Nat
  prevPage : Option (Fin numPages)
  memStat : Fin numPages → MemStat
  proc : MemProc

/-- `_mem_stat[prev_page].next = i`, unless `prev_page` is -1. -/
def linkPrev (memStat : Fin numPages → MemStat) (prevPage : Option (Fin numPages))
    (i : Fin numPages) : Fin numPages → MemStat :=
  match prevPage with
  | none => memStat
  | some prev => Function.update memStat prev { memStat prev with next := i.val }

/-- The body of the loop for a free page `i`. -/
def takePage (retMem : Addr) (i : Fin numPages) (st : Alloc) : Alloc where
  allocated := st.allocated + 1
  prevPage := some i
  memStat := linkPrev (Function.update st.memStat i ⟨st.proc.pid, st.allocated, -1⟩) st.prevPage i
  proc := addPageMapping st.proc (retMem + BitVec.ofNat 32 st.allocated * pageSize)
    (BitVec.ofNat 32 i.val)

/-- `for (i = 0; i < NUM_PAGES && allocated < (int)num_pages; i++)` -/
def allocLoop (num : Addr) (retMem : Addr) : List (Fin numPages) → Alloc → Alloc
  | [], st => st
  | i :: is, st =>
      if (st.allocated : Int) < num.toInt then
        allocLoop num retMem is
          -- if (_mem_stat[i].proc == 0)
          (if (st.memStat i).proc = 0#32 then takePage retMem i st else st)
      else st

/-- `free_page_count` -/
def freePageCount (m : Mem) : Nat :=
  (List.finRange numPages).countP fun i => (m.memStat i).proc = 0#32

/-- The number of pages for `size` bytes. -/
def pagesFor (size : Addr) : Addr :=
  if size % pageSize ≠ 0 then size / pageSize + 1 else size / pageSize

/-- Returns `ret_mem`, 0 on failure. -/
def allocMem (m : Mem) (size : Addr) (proc : MemProc) : Addr × Mem × MemProc :=
  let num := pagesFor size
  -- both sums are taken modulo 2^32
  if ramSize < proc.bp + num * pageSize ∨ freePageCount m < num.toNat then (0, m, proc)
  else
    let retMem := proc.bp
    let st := allocLoop num retMem (List.finRange numPages)
      ⟨0, none, m.memStat, { proc with bp := proc.bp + num * pageSize }⟩
    (retMem, { m with memStat := st.memStat }, st.proc)

/-! ## Access -/

/-- `none` is the return value 1; otherwise 0 and the byte. -/
def readMem (m : Mem) (address : Addr) (proc : MemProc) : Option Byte :=
  (translate address proc).map m.ram

/-- `none` is the return value 1. -/
def writeMem (m : Mem) (address : Addr) (proc : MemProc) (data : Byte) : Option Mem :=
  match translate address proc with
  | none => none
  | some physicalAddr => some { m with ram := Function.update m.ram physicalAddr data }

end MiniOs
