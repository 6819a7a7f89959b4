import MiniOs.Lib.Translation
import MiniOs.Mem.Taken

/-!
# Refinement — one private byte array per process

Any number of processes with different nonzero `pid`s call `alloc_mem`, `write_mem` and
`read_mem` in any order.  The invariant `Inv` says that their translations are exclusive, cover
exactly the allocated ranges, and that `_ram` backs the private memory of each process, which is
what it stored there itself.
-/

namespace MiniOs

open Lib

/-! ## One page table -/

namespace TableOk

variable {memStat : Fin numPages → MemStat} {pid : Addr} {top : Nat} {proc : MemProc}

theorem translate_isSome (h : TableOk memStat pid proc.pageTable top) (a : Addr) :
    (translate a proc).isSome ↔ 1024 ≤ a.toNat ∧ a.toNat < top * 1024 := by
  have hfirst := getFirstLv_toNat a
  have hsecond := getSecondLv_toNat a
  -- the two indices of `a` make up its page number
  rw [translate_eq, Option.isSome_map, h.mapped]
  omega

theorem translate_some (h : TableOk memStat pid proc.pageTable top) {a q : Addr}
    (hq : translate a proc = some q) :
    ∃ k : Fin numPages, lookup proc.pageTable (getFirstLv a) (getSecondLv a) =
      some (BitVec.ofNat 32 k.val) ∧ (memStat k).proc = pid ∧
      q.toNat = k.val * 1024 + a.toNat % 1024 := by
  rw [translate_eq] at hq
  rcases Option.map_eq_some_iff.1 hq with ⟨p, hp, rfl⟩
  rcases h.owned _ _ _ hp with ⟨k, rfl, hk⟩
  exact ⟨k, hp, hk, physical_toNat k.isLt a⟩

/-- A physical address has one page and one offset. -/
theorem page_eq {k k' : Fin numPages} {a b q : Addr} (h : q.toNat = k.val * 1024 + a.toNat % 1024)
    (h' : q.toNat = k'.val * 1024 + b.toNat % 1024) :
    k = k' ∧ a.toNat % 1024 = b.toNat % 1024 := by
  have hval : k.val = k'.val := by omega
  exact ⟨Fin.ext hval, by omega⟩

theorem translate_injective (h : TableOk memStat pid proc.pageTable top) {a b q : Addr}
    (ha : translate a proc = some q) (hb : translate b proc = some q) : a = b := by
  rcases h.translate_some ha with ⟨k, hk, _, hq⟩
  rcases h.translate_some hb with ⟨k', hk', _, hq'⟩
  -- one physical page, so one pair of indices, and one offset
  rcases page_eq hq hq' with ⟨rfl, hoff⟩
  rcases h.injective _ _ _ _ _ hk hk' with ⟨hfirst, hsecond⟩
  exact addr_ext hfirst hsecond hoff

end TableOk

/-! ## The system -/

/-- Processes with different nonzero `pid`s, as `load` hands them out. -/
structure Processes (ι : Type) where
  pid : ι → Addr
  pid_injective : ∀ i j, pid i = pid j → i = j
  pid_ne_zero : ∀ i, pid i ≠ 0#32

/-- The memory, the processes and the successful writes so far, the last one first. -/
structure MemSys (ι : Type) where
  mem : Mem
  proc : ι → MemProc
  stored : List (ι × Addr × Byte)

inductive MemCall (ι : Type)
  | allocMem (i : ι) (size : Addr)
  | writeMem (i : ι) (address : Addr) (data : Byte)
  | readMem (i : ι) (address : Addr)

def MemCall.caller {ι : Type} : MemCall ι → ι
  | .allocMem i _ | .writeMem i _ _ | .readMem i _ => i

namespace MemSys

variable {ι : Type} [DecidableEq ι]

/-- `init_mem`, and `load` of every process with an empty page table. -/
def init (procs : Processes ι) : MemSys ι where
  mem := initMem
  proc := fun i => ⟨procs.pid i, pageSize, []⟩
  stored := []

def call (s : MemSys ι) : MemCall ι → MemSys ι
  | .allocMem i size =>
      match allocMem s.mem size (s.proc i) with
      | (_, mem, proc) => { s with mem := mem, proc := Function.update s.proc i proc }
  | .writeMem i address data =>
      match writeMem s.mem address (s.proc i) data with
      | none => s
      | some mem => { s with mem := mem, stored := (i, address, data) :: s.stored }
  | .readMem _ _ => s

def calls (s : MemSys ι) (cs : List (MemCall ι)) : MemSys ι := cs.foldl call s

/-- What `read_mem` gives process `i` at an address. -/
def reads (s : MemSys ι) (i : ι) (a : Addr) : Option Byte := readMem s.mem a (s.proc i)

/-- The byte that process `i` last stored at an address, 0 if none. -/
def lastStored : List (ι × Addr × Byte) → ι → Addr → Byte
  | [], _, _ => 0
  | (j, b, data) :: log, i, a => if j = i ∧ b = a then data else lastStored log i a

/-- `PAGE_SIZE <= a < p->bp` -/
def InRange (s : MemSys ι) (i : ι) (a : Addr) : Prop := pageSize ≤ a ∧ a < (s.proc i).bp

instance (s : MemSys ι) (i : ι) (a : Addr) : Decidable (s.InRange i a) :=
  inferInstanceAs (Decidable (_ ∧ _))

/-- The memory behaves as one private byte array per process. -/
structure Private (s : MemSys ι) : Prop where
  read : ∀ i a, s.reads i a = if s.InRange i a then some (lastStored s.stored i a) else none
  write : ∀ i a data, (writeMem s.mem a (s.proc i) data).isSome ↔ s.InRange i a
  refused : ∀ i a data, ¬ s.InRange i a → s.call (.writeMem i a data) = s
  isolated : ∀ c j a, c.caller ≠ j → (s.call c).reads j a = s.reads j a
  kept : ∀ i size j a data, s.reads j a = some data →
    (s.call (.allocMem i size)).reads j a = some data

/-! ## The invariant -/

def translation (s : MemSys ι) (i : ι) (a : Addr) : Option Addr := translate a (s.proc i)

/-- The invariant of a system; process `i` has the pages `1, …, top i - 1`. -/
structure Inv (procs : Processes ι) (s : MemSys ι) (top : ι → Nat) : Prop where
  pid : ∀ i, (s.proc i).pid = procs.pid i
  top_pos : ∀ i, 1 ≤ top i
  top_le : ∀ i, top i ≤ 1024
  bp : ∀ i, (s.proc i).bp.toNat = top i * 1024
  table : ∀ i, TableOk s.mem.memStat (procs.pid i) (s.proc i).pageTable (top i)
  free : ∀ k : Fin numPages, (s.mem.memStat k).proc = 0#32 → ∀ q : Addr,
    q.toNat / 1024 = k.val → s.mem.ram q = 0
  backs : Backs s.mem.ram s.translation (lastStored s.stored)
  unstored : ∀ i a, s.translation i a = none → lastStored s.stored i a = 0

/-- What the invariant says of one process with the pages `1, …, n - 1`. -/
structure ProcOk (procs : Processes ι) (memStat : Fin numPages → MemStat) (i : ι) (proc : MemProc)
    (n : Nat) : Prop where
  pid : proc.pid = procs.pid i
  top_pos : 1 ≤ n
  top_le : n ≤ 1024
  bp : proc.bp.toNat = n * 1024
  table : TableOk memStat (procs.pid i) proc.pageTable n

variable {procs : Processes ι} {s : MemSys ι} {top : ι → Nat}

theorem lastStored_cons (log : List (ι × Addr × Byte)) (i : ι) (a : Addr) (data : Byte) :
    lastStored ((i, a, data) :: log) = store (lastStored log) i a data := by
  funext j b
  by_cases h : j = i ∧ b = a
  · rcases h with ⟨rfl, rfl⟩
    simp [lastStored]
  · have h' : ¬ (i = j ∧ a = b) := fun heq => h ⟨heq.1.symm, heq.2.symm⟩
    rw [store_of_ne _ _ h]
    simp [lastStored, h']

theorem inv_init (procs : Processes ι) : Inv procs (init procs) (fun _ => 1) where
  pid _ := rfl
  top_pos _ := Nat.le_refl 1
  top_le _ := by decide
  bp _ := rfl
  table i := tableOk_nil _ _
  free _ _ _ _ := rfl
  backs i a p h := by
    simp [translation, translate, init, getTransTable] at h
  unstored _ _ _ := rfl

theorem Inv.exclusive (h : Inv procs s top) : Exclusive s.translation := by
  intro i j a b q ha hb
  rcases (h.table i).translate_some ha with ⟨k, _, hi, hq⟩
  rcases (h.table j).translate_some hb with ⟨k', _, hj, hq'⟩
  -- the physical page has one owner, and `pid`s tell the processes apart
  obtain rfl := (TableOk.page_eq hq hq').1
  obtain rfl := procs.pid_injective i j (hi.symm.trans hj)
  exact ⟨rfl, (h.table i).translate_injective ha hb⟩

theorem Inv.pid_ne_zero (h : Inv procs s top) (i : ι) : (s.proc i).pid ≠ 0#32 :=
  h.pid i ▸ procs.pid_ne_zero i

theorem Inv.ownTable (h : Inv procs s top) (i : ι) :
    TableOk s.mem.memStat (s.proc i).pid (s.proc i).pageTable (top i) := by
  rw [h.pid i]
  exact h.table i

/-- `_ram` is accessed inside its bounds. -/
theorem Inv.translation_lt (h : Inv procs s top) {i : ι} {a q : Addr}
    (hq : s.translation i a = some q) : q < ramSize := by
  rcases (h.table i).translate_some hq with ⟨k, _, _, hnat⟩
  have hk : k.val < 1024 := k.isLt
  have hram : ramSize.toNat = 1048576 := rfl
  rw [BitVec.lt_def]
  omega

/-- Both levels of every page table stay inside their arrays. -/
theorem Inv.rows_le (h : Inv procs s top) (i : ι) :
    (s.proc i).pageTable.length ≤ 32 ∧ ∀ row ∈ (s.proc i).pageTable, row.nextLv.length ≤ 32 :=
  (h.table i).rows_le (h.top_le i)

theorem Inv.inRange_iff (h : Inv procs s top) (i : ι) (a : Addr) :
    s.InRange i a ↔ (s.translation i a).isSome := by
  have hsize : pageSize.toNat = 1024 := rfl
  rw [translation, (h.table i).translate_isSome, InRange, BitVec.le_def, BitVec.lt_def, h.bp i,
    hsize]

/-! ## Calls -/

theorem call_writeMem (s : MemSys ι) (i : ι) (a : Addr) (data : Byte) :
    s.call (.writeMem i a data) = match s.translation i a with
      | none => s
      | some q => ⟨⟨Function.update s.mem.ram q data, s.mem.memStat⟩, s.proc,
          (i, a, data) :: s.stored⟩ := by
  simp only [call, writeMem, translation]
  cases translate a (s.proc i) with
  | none => rfl
  | some q => rfl

/-- Step lemma for `write_mem`. -/
theorem Inv.writeMem (h : Inv procs s top) (i : ι) (a : Addr) (data : Byte) :
    Inv procs (s.call (.writeMem i a data)) top := by
  rw [call_writeMem]
  cases htr : s.translation i a with
  | none => exact h
  | some q =>
      refine ⟨h.pid, h.top_pos, h.top_le, h.bp, h.table, fun k hk p hp => ?_, ?_, fun j b hb => ?_⟩
      · -- the page written to has an owner, so no free page is written to
        rcases (h.table i).translate_some htr with ⟨k', _, howned, hq⟩
        have hqp : p ≠ q := by
          rintro rfl
          have hkk : k = k' := Fin.ext (by omega)
          exact procs.pid_ne_zero i (howned.symm.trans (hkk ▸ hk))
        simpa [Function.update_of_ne hqp] using h.free k hk p hp
      · rw [lastStored_cons]
        exact h.backs.write h.exclusive htr data
      · -- an address that is not translated was not the one written to
        have hne : ¬ (j = i ∧ b = a) := by
          rintro ⟨rfl, rfl⟩
          have hsome : s.translation j b = none := hb
          simp [htr] at hsome
        rw [lastStored_cons, store_of_ne _ _ hne]
        exact h.unstored j b hb

/-- What an allocation does to the translations: the process gets new ones, into free pages. -/
structure Allocated (s s' : MemSys ι) (i : ι) : Prop where
  stored : s'.stored = s.stored
  ram : s'.mem.ram = s.mem.ram
  others : ∀ j, j ≠ i → s'.proc j = s.proc j
  keeps : Extends s.translation s'.translation
  fresh : ∀ j a q, s'.translation j a = some q → s.translation j a = some q ∨
    s.translation j a = none ∧ ∃ k : Fin numPages, (s.mem.memStat k).proc = 0#32 ∧
      q.toNat / 1024 = k.val

/-- The state after an allocation that gives process `i` the table and the pages of `st`. -/
def grown (s : MemSys ι) (i : ι) (st : Alloc) : MemSys ι where
  mem := ⟨s.mem.ram, st.memStat⟩
  proc := Function.update s.proc i st.proc
  stored := s.stored

theorem grown_proc_self (s : MemSys ι) (i : ι) (st : Alloc) : (s.grown i st).proc i = st.proc :=
  Function.update_self ..

theorem grown_translation_self (s : MemSys ι) (i : ι) (st : Alloc) (a : Addr) :
    (s.grown i st).translation i a = translate a st.proc := by
  simp [grown, translation]

theorem grown_translation_of_ne (s : MemSys ι) {i j : ι} (st : Alloc) (a : Addr) (hj : j ≠ i) :
    (s.grown i st).translation j a = s.translation j a := by
  simp [grown, translation, Function.update_of_ne hj]

/-- The new translations of an allocation lead into pages that were free. -/
theorem Inv.fresh (h : Inv procs s top) {i : ι} {bp : Addr} {st : Alloc}
    (hgrows : Grows ⟨0, none, s.mem.memStat, { s.proc i with bp := bp }⟩ st) {a q : Addr}
    (hq : translate a st.proc = some q) :
    s.translation i a = some q ∨
      s.translation i a = none ∧ ∃ k : Fin numPages, (s.mem.memStat k).proc = 0#32 ∧
        q.toNat / 1024 = k.val := by
  rw [translate_eq] at hq
  rcases Option.map_eq_some_iff.1 hq with ⟨p, hp, rfl⟩
  rcases hgrows.fresh _ _ _ hp with hold | ⟨k, rfl, hfree⟩
  · have hold' : lookup (s.proc i).pageTable (getFirstLv a) (getSecondLv a) = some p := hold
    rw [translation, translate_eq, hold']
    exact Or.inl rfl
  · cases htr : s.translation i a with
    | none =>
        refine Or.inr ⟨rfl, k, hfree, ?_⟩
        rw [physical_toNat k.isLt]
        omega
    | some q' =>
        -- an address translated before keeps its page, which is not a free one
        rcases (h.table i).translate_some htr with ⟨k', hlook, howned, _⟩
        have hlook' := hgrows.keeps _ _ _ hlook
        rw [hp] at hlook'
        obtain rfl := ofNat_fin_injective (Option.some.inj hlook')
        exact absurd (howned.symm.trans hfree) (procs.pid_ne_zero i)

theorem Inv.allocated (h : Inv procs s top) {i : ι} {bp : Addr} {st : Alloc}
    (hgrows : Grows ⟨0, none, s.mem.memStat, { s.proc i with bp := bp }⟩ st) :
    Allocated s (s.grown i st) i := by
  refine ⟨rfl, rfl, fun j hj => Function.update_of_ne hj _ _, fun j a q hq => ?_,
    fun j a q hq => ?_⟩
  · by_cases hj : j = i
    · subst hj
      rw [grown_translation_self, translate_eq]
      rw [translation, translate_eq] at hq
      rcases Option.map_eq_some_iff.1 hq with ⟨p, hp, rfl⟩
      rw [hgrows.keeps _ _ _ hp]
      rfl
    · exact (grown_translation_of_ne s st a hj).trans hq
  · by_cases hj : j = i
    · subst hj
      rw [grown_translation_self] at hq
      exact h.fresh hgrows hq
    · exact Or.inl ((grown_translation_of_ne s st a hj).symm.trans hq)

/-- An allocation up to page `top'` keeps the invariant. -/
theorem Inv.grown (h : Inv procs s top) {i : ι} {top' : Nat} {bp : Addr} {st : Alloc}
    (hle : top i ≤ top') (hmax : top' ≤ 1024) (hbp : st.proc.bp.toNat = top' * 1024)
    (htable : TableOk st.memStat (procs.pid i) st.proc.pageTable top')
    (hgrows : Grows ⟨0, none, s.mem.memStat, { s.proc i with bp := bp }⟩ st) :
    Inv procs (s.grown i st) (Function.update top i top') := by
  have halloc := h.allocated hgrows
  -- pages in use stay with their owners
  have hstat : ∀ k, (s.mem.memStat k).proc ≠ 0#32 →
      (st.memStat k).proc = (s.mem.memStat k).proc := by
    intro k hk
    rcases hgrows.stat k with heq | ⟨hzero, _⟩
    · exact heq
    · exact absurd hzero hk
  have hfree : ∀ k, (st.memStat k).proc = 0#32 → (s.mem.memStat k).proc = 0#32 := by
    intro k hk
    rcases hgrows.stat k with heq | ⟨hzero, _⟩
    · exact heq.symm.trans hk
    · exact hzero
  have hproc : ∀ j, ProcOk procs st.memStat j ((s.grown i st).proc j)
      (Function.update top i top' j) := by
    apply update_related (R := ProcOk procs st.memStat)
    · exact ⟨hgrows.pid.trans (h.pid i), (h.top_pos i).trans hle, hmax, hbp, htable⟩
    · intro j _
      exact ⟨h.pid j, h.top_pos j, h.top_le j, h.bp j,
        (h.table j).of_stat (procs.pid_ne_zero j) hstat⟩
  refine ⟨fun j => (hproc j).pid, fun j => (hproc j).top_pos, fun j => (hproc j).top_le,
    fun j => (hproc j).bp, fun j => (hproc j).table,
    fun k hk q hq => h.free k (hfree k hk) q hq, ?_, fun j a ha => ?_⟩
  · -- a fresh page is zero, and its addresses have nothing stored
    refine h.backs.extend fun j a q hq => ?_
    rcases halloc.fresh j a q hq with hold | ⟨hnone, k, hzero, hqk⟩
    · exact Or.inl hold
    · exact Or.inr ((h.free k hzero q hqk).trans (h.unstored j a hnone).symm)
  · apply h.unstored j a
    cases htr : s.translation j a with
    | none => rfl
    | some q =>
        have hkeep := halloc.keeps j a q htr
        rw [ha] at hkeep
        cases hkeep

/-- Step lemma for `alloc_mem`. -/
theorem Inv.allocMem (h : Inv procs s top) (i : ι) (size : Addr) :
    Allocated s (s.call (.allocMem i size)) i ∧
      ∃ top', Inv procs (s.call (.allocMem i size)) top' := by
  rcases allocMem_spec size (h.pid_ne_zero i) (h.top_pos i) (h.top_le i) (h.bp i)
      (h.ownTable i) with
    hfail | ⟨st, top', hok, hle, hmax, hbp, htable', hgrows⟩
  · have hsame : s.call (.allocMem i size) = s := by
      simp [call, hfail]
    rw [hsame]
    exact ⟨⟨rfl, rfl, fun _ _ => rfl, fun _ _ _ hq => hq, fun _ _ _ hq => Or.inl hq⟩, top, h⟩
  · have hcall : s.call (.allocMem i size) = s.grown i st := by
      simp [call, hok, MemSys.grown]
    rw [h.pid i] at htable'
    rw [hcall]
    exact ⟨h.allocated hgrows, _, h.grown hle hmax hbp htable' hgrows⟩

/-- Step lemma: every call keeps the invariant. -/
theorem Inv.call (h : Inv procs s top) (c : MemCall ι) : ∃ top', Inv procs (s.call c) top' := by
  cases c with
  | allocMem i size => exact (h.allocMem i size).2
  | writeMem i a data => exact ⟨top, h.writeMem i a data⟩
  | readMem i a => exact ⟨top, h⟩

/-- Run lemma. -/
theorem Inv.calls (h : Inv procs s top) (cs : List (MemCall ι)) :
    ∃ top', Inv procs (s.calls cs) top' := by
  induction cs generalizing s top with
  | nil => exact ⟨top, h⟩
  | cons c cs ih =>
      rcases h.call c with ⟨top', h'⟩
      exact ih h'

/-! ## The refinement -/

omit [DecidableEq ι] in
theorem reads_eq (s : MemSys ι) (i : ι) (a : Addr) :
    s.reads i a = readThrough s.mem.ram s.translation i a := rfl

theorem Inv.isolated (h : Inv procs s top) (c : MemCall ι) {j : ι} (hj : c.caller ≠ j)
    (a : Addr) : (s.call c).reads j a = s.reads j a := by
  cases c with
  | readMem i b => rfl
  | allocMem i size =>
      have halloc := (h.allocMem i size).1
      have hproc := halloc.others j (Ne.symm hj)
      rw [reads, reads, readMem, readMem, hproc, halloc.ram]
  | writeMem i b data =>
      rw [call_writeMem]
      cases htr : s.translation i b with
      | none => rfl
      | some q => exact readThrough_write_of_ne h.exclusive htr data (Ne.symm hj) a

theorem Inv.isPrivate (h : Inv procs s top) : s.Private where
  read i a := by
    rw [reads_eq, h.backs.readThrough]
    -- in range the address is translated, and its cell backs the private byte
    by_cases hr : s.InRange i a
    · rcases Option.isSome_iff_exists.1 ((h.inRange_iff i a).1 hr) with ⟨q, hq⟩
      simp [hr, hq]
    · have hnone : s.translation i a = none := by
        simpa using fun hs => hr ((h.inRange_iff i a).2 hs)
      simp [hr, hnone]
  write i a data := by
    rw [h.inRange_iff, translation]
    unfold MiniOs.writeMem
    cases translate a (s.proc i) with
    | none => simp
    | some q => simp
  refused i a data hr := by
    have hnone : s.translation i a = none := by
      simpa using fun hs => hr ((h.inRange_iff i a).2 hs)
    rw [call_writeMem, hnone]
  isolated c j a hj := h.isolated c hj a
  kept i size j a data hread := by
    have halloc := (h.allocMem i size).1
    rw [reads_eq] at hread ⊢
    rw [halloc.ram]
    exact readThrough_extend halloc.keeps hread

/-- After every sequence of calls by any processes, the segmented memory is one private byte
array per process. -/
theorem calls_private (procs : Processes ι) (cs : List (MemCall ι)) :
    ((init procs).calls cs).Private := by
  rcases (inv_init procs).calls cs with ⟨top, h⟩
  exact h.isPrivate

end MemSys
end MiniOs
