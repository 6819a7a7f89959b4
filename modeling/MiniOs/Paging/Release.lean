import MiniOs.Paging.FreeList

/-!
# Release — what `__free` does to the free list

`__free` links the entry of the region table itself and then resets it, bounds and successor.  So
the list afterwards is that one node, without its region and without what was on the list before.
-/

namespace MiniOs
namespace Caller

open Lib

/-- The entry of a region that is in use. -/
def LiveEntry (c : Caller) (i : Fin pagingMaxSymtblSz) : Prop :=
  (c.mm.symrgtbl i).rgStart < (c.mm.symrgtbl i).rgEnd

instance (c : Caller) (i : Fin pagingMaxSymtblSz) : Decidable (c.LiveEntry i) :=
  inferInstanceAs (Decidable (_ < _))

/-- What freeing region `i` should do to a list with the nodes `nodes`. -/
structure FreesExactly (c : Caller) (nodes : List RgPtr) (i : Fin pagingMaxSymtblSz)
    (c' : Caller) : Prop where
  returns : c.free (BitVec.ofNat 32 i.val) = some (0, c')
  listed : ∃ nodes', c'.mm.FreeChain c'.mm.mmap.vmFreergList nodes' ∧
    (c'.mm.spans nodes').Perm ((c.mm.symrgtbl i).span :: c.mm.spans nodes)
  emptied : ¬ c'.LiveEntry i
  served : (c.mm.symrgtbl i).span.length < 2 ^ 31 → ∃ rgStart rgEnd mm',
    c'.mm.getFreeVmrgArea (BitVec.ofNat 32 (c.mm.symrgtbl i).span.length) =
      some (some (rgStart, rgEnd), mm') ∧
    rgEnd.toNat = rgStart.toNat + (c.mm.symrgtbl i).span.length
  refusedAgain : c'.free (BitVec.ofNat 32 i.val) = some (-1, c')

/-- The list after a region has been freed is the reset entry, and nothing else. -/
theorem free_list {c c' : Caller} {i : Fin pagingMaxSymtblSz}
    (h : c.free (BitVec.ofNat 32 i.val) = some (0, c')) :
    c'.mm.mmap.vmFreergList = some (.sym i) ∧ c'.mm.rg (.sym i) = some ⟨-1, -1, none⟩ := by
  generalize hret : (0 : ℤ) = ret at h
  cases free_freed h with
  | refused => cases hret
  | @freed j hentry _ =>
      obtain rfl : i = j := by simpa [getSymrgByid_symId] using hentry
      exact ⟨rfl, by simp [Mm.freedEntry, Mm.rg, Mm.setRg]⟩

/-- One node, which holds no byte. -/
theorem free_spans {c c' : Caller} {i : Fin pagingMaxSymtblSz} {nodes : List RgPtr}
    (h : c.free (BitVec.ofNat 32 i.val) = some (0, c'))
    (hchain : c'.mm.FreeChain c'.mm.mmap.vmFreergList nodes) :
    c'.mm.spans nodes = [⟨2 ^ 64 - 1, 2 ^ 64 - 1⟩] := by
  rcases free_list h with ⟨hhead, hnode⟩
  have hone : c'.mm.FreeChain c'.mm.mmap.vmFreergList [.sym i] := ⟨hhead, _, hnode, rfl⟩
  obtain rfl := (c'.mm.freeChain_iff.1 hchain).unique (c'.mm.freeChain_iff.1 hone)
  rw [Mm.spans_cons hnode]
  rfl

/-- The region itself is not listed, whatever the list was. -/
theorem span_not_listed {c c' : Caller} {i : Fin pagingMaxSymtblSz} {nodes : List RgPtr}
    (hlive : c.LiveEntry i) (h : c.free (BitVec.ofNat 32 i.val) = some (0, c'))
    (hchain : c'.mm.FreeChain c'.mm.mmap.vmFreergList nodes) :
    (c.mm.symrgtbl i).span ∉ c'.mm.spans nodes := by
  rw [free_spans h hchain, List.mem_singleton]
  intro heq
  have hstart := congrArg Span.start heq
  have hstop := congrArg Span.stop heq
  have hlt : (c.mm.symrgtbl i).rgStart.toNat < (c.mm.symrgtbl i).rgEnd.toNat := hlive
  simp only [VmRg.span] at hstart hstop
  omega

/-- For every process, every list of free regions and every region in use: freeing it does not
return exactly that region to the list. -/
theorem not_freesExactly {c : Caller} {i : Fin pagingMaxSymtblSz} (nodes : List RgPtr)
    (hlive : c.LiveEntry i) : ¬ ∃ c', c.FreesExactly nodes i c' := by
  rintro ⟨c', hfrees⟩
  rcases hfrees.listed with ⟨nodes', hchain, hperm⟩
  exact span_not_listed hlive hfrees.returns hchain (hperm.mem_iff.2 (List.mem_cons_self ..))

/-- A process all of whose regions are the first page. -/
def firstPageRegions : Caller where
  bp := pageSize
  mm := { Mm.zeroed with symrgtbl := fun _ => ⟨0, 256, none⟩ }
  mram := .create 1024 true
  activeMswp := .create 1024 true

theorem firstPageRegions_not_freesExactly : ¬ ∃ c', firstPageRegions.FreesExactly [] 29 c' :=
  not_freesExactly [] (by decide)

/-- A new process allocates 4294967040 bytes, which is -256 as an `int`, gets a region from address
0 on, and frees it. -/
theorem negativeSize_not_freesExactly : ∃ c,
    (AreaState.start (.create 1024 true) (.create 1024 true)).c.liballoc 4294967040#32 0#32 =
      some (0, c) ∧
    c.mm.FreeChain c.mm.mmap.vmFreergList [] ∧ c.LiveEntry 0 ∧
    ¬ ∃ c', c.FreesExactly [] 0 c' := by
  have hlive : ∃ c,
      (AreaState.start (.create 1024 true) (.create 1024 true)).c.liballoc 4294967040#32 0#32 =
        some (0, c) ∧ c.mm.FreeChain c.mm.mmap.vmFreergList [] ∧ c.LiveEntry 0 :=
    ⟨_, rfl, rfl, by decide⟩
  rcases hlive with ⟨c, halloc, hchain, hlive⟩
  refine ⟨c, halloc, hchain, hlive, ?_⟩
  rintro ⟨c', hfrees⟩
  rcases hfrees.listed with ⟨nodes, hchain', hperm⟩
  exact span_not_listed hlive hfrees.returns hchain' (hperm.mem_iff.2 (List.mem_cons_self ..))

end Caller
end MiniOs
