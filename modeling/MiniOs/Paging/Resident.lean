import MiniOs.Lib.Translation
import MiniOs.Paging.Frames

/-!
# Resident — accesses to pages that are in RAM

As long as the present entries of all processes name different frames, an address of a present page
is one byte of RAM and of no other address.  So the RAM backs a private memory of each process,
and `pg_getval` and `pg_setval` read and store in it.
-/

namespace MiniOs

/-- Page and offset put together again. -/
theorem address_split {addr : Addr} (h : addr.toNat < 2 ^ 22) :
    addr.toNat = (pagingPgn addr).val * 256 + addr.toNat % 256 := by
  rw [pagingPgn_val]
  omega

namespace Caller

theorem phyaddr_toNat {fpn : Addr} (h : fpn.toNat < 8192) (addr : Addr) :
    (phyaddr fpn addr).toNat = fpn.toNat * 256 + addr.toNat % 256 := by
  have hsize : pagingPagesz.toNat = 256 := rfl
  rw [phyaddr, BitVec.toNat_add, BitVec.toNat_mul, pagingOffst_toNat, hsize]
  omega

end Caller

namespace PagingSys

open Lib

/-! ## The translation -/

/-- The frame that `pg_getpage` gives for an entry with the present bit. -/
def presentFrame (pte : Addr) : Option ℕ :=
  if pagingPagePresent pte then some (pagingFpn pte).toNat else none

/-- The present entries of all processes name different frames of RAM. -/
structure FramesApart (s : PagingSys) : Prop where
  inside : ∀ k f, holds presentFrame s.directory k = some f → f < s.mram.numfp
  apart : ∀ k l f, holds presentFrame s.directory k = some f →
    holds presentFrame s.directory l = some f → k = l

/-- The byte of RAM behind an address of a process, if its page is present. -/
def physical (s : PagingSys) (p : ℕ) (addr : Addr) : Option ℕ :=
  if addr.toNat < 2 ^ 22 then
    (holds presentFrame s.directory (p, pagingPgn addr)).map fun f => f * 256 + addr.toNat % 256
  else none

variable {s : PagingSys} {p : ℕ} {c : Caller} {addr : Addr}

theorem physical_eq_some {b : ℕ} (h : s.physical p addr = some b) :
    addr.toNat < 2 ^ 22 ∧ ∃ f, holds presentFrame s.directory (p, pagingPgn addr) = some f ∧
      b = f * 256 + addr.toNat % 256 := by
  unfold physical at h
  split at h
  · rename_i hlt
    rcases Option.map_eq_some_iff.1 h with ⟨f, hf, rfl⟩
    exact ⟨hlt, f, hf, rfl⟩
  · cases h

/-- No byte of RAM is behind two addresses. -/
theorem FramesApart.exclusive (h : s.FramesApart) : Exclusive s.physical := by
  intro p q addr addr' b hp hq
  rcases physical_eq_some hp with ⟨haddr, f, hf, rfl⟩
  rcases physical_eq_some hq with ⟨haddr', f', hf', heq⟩
  -- the byte tells the frame and the offset, and the frame the process and the page
  obtain rfl : f = f' := by omega
  have hentry := Prod.mk.inj (h.apart _ _ f hf hf')
  have hpgn : (pagingPgn addr).val = (pagingPgn addr').val := congrArg Fin.val hentry.2
  have hsplit := address_split haddr
  have hsplit' := address_split haddr'
  exact ⟨hentry.1, BitVec.eq_of_toNat_eq (by omega)⟩

theorem physical_present (hc : s.caller p = some c) (haddr : addr.toNat < 2 ^ 22)
    (hpresent : pagingPagePresent (c.mm.pgd (pagingPgn addr)) = true) :
    s.physical p addr =
      some (Caller.phyaddr (pagingFpn (c.mm.pgd (pagingPgn addr))) addr).toNat := by
  have hfpn := pagingFpn_lt (c.mm.pgd (pagingPgn addr))
  rw [Caller.phyaddr_toNat hfpn, physical, if_pos haddr]
  simp [holds, (caller_spec hc).2.1, presentFrame, hpresent]

/-- A byte of a present page lies inside the array. -/
theorem FramesApart.inBounds (h : s.FramesApart) (hc : s.caller p = some c)
    (hpresent : pagingPagePresent (c.mm.pgd (pagingPgn addr)) = true) :
    s.mram.InBounds (Caller.phyaddr (pagingFpn (c.mm.pgd (pagingPgn addr))) addr) := by
  have hframe : holds presentFrame s.directory (p, pagingPgn addr) =
      some (pagingFpn (c.mm.pgd (pagingPgn addr))).toNat := by
    simp [holds, (caller_spec hc).2.1, presentFrame, hpresent]
  have hlt := h.inside _ _ hframe
  have hfpn := pagingFpn_lt (c.mm.pgd (pagingPgn addr))
  have haddr := Caller.phyaddr_toNat hfpn addr
  unfold Memphy.numfp at hlt
  rw [Memphy.InBounds, BitVec.toInt_eq_toNat_of_lt (by omega), haddr]
  omega

/-! ## Accesses -/

/-- `pg_getval` reads through the translation. -/
theorem pgGetval_present (h : s.FramesApart) (hram : s.mram.rdmflg = true)
    (hc : s.caller p = some c) (haddr : addr.toNat < 2 ^ 22)
    (hpresent : pagingPagePresent (c.mm.pgd (pagingPgn addr)) = true) :
    c.pgGetval addr =
      (readThrough s.mram.storage s.physical p addr).map fun data => (some data, c) := by
  have hin := h.inBounds hc hpresent
  rw [readThrough, physical_present hc haddr hpresent, Option.map_some, Option.map_some]
  rw [← (caller_spec hc).2.2.1] at hram hin ⊢
  simp only [Caller.pgGetval, Caller.pgGetpage_present hpresent, Memphy.read_of_random hram hin,
    Option.map_some]

/-- The caller behind a store to byte `b` of RAM. -/
def stored (c : Caller) (b : ℕ) (v : Byte) : Caller :=
  { c with mram := { c.mram with storage := Function.update c.mram.storage b v } }

/-- `pg_setval` stores through the translation. -/
theorem pgSetval_present (h : s.FramesApart) (hram : s.mram.rdmflg = true)
    (hc : s.caller p = some c) (haddr : addr.toNat < 2 ^ 22)
    (hpresent : pagingPagePresent (c.mm.pgd (pagingPgn addr)) = true) (v : Byte) :
    ∃ b, s.physical p addr = some b ∧ c.pgSetval addr v = some (0, stored c b v) := by
  refine ⟨_, physical_present hc haddr hpresent, ?_⟩
  have hin := h.inBounds hc hpresent
  rw [← (caller_spec hc).2.2.1] at hram hin
  simp only [Caller.pgSetval, Caller.pgGetpage_present hpresent,
    Memphy.write_of_random hram hin, Option.map_some, stored]

theorem caller_setCaller_self (hc : s.caller p = some c) (c' : Caller) :
    (s.setCaller p c').caller p = some c' := by
  simp [caller, setCaller, (caller_spec hc).1]

theorem caller_setCaller_of_ne {q : ℕ} (hq : q ≠ p) (c' : Caller) {d : Caller}
    (hd : s.caller q = some d) : (s.setCaller p c').caller q =
      some { d with mram := c'.mram, activeMswp := c'.activeMswp } := by
  rcases Option.map_eq_some_iff.1 hd with ⟨pm, hpm, rfl⟩
  simp [caller, setCaller, List.getElem?_set_ne (Ne.symm hq), hpm]

theorem caller_stored (hc : s.caller p = some c) (b : ℕ) (v : Byte) {q : ℕ} {d : Caller}
    (hd : s.caller q = some d) :
    ∃ d', (s.setCaller p (stored c b v)).caller q = some d' ∧ d'.mm = d.mm := by
  by_cases hq : q = p
  · subst hq
    obtain rfl : c = d := Option.some.inj (hc.symm.trans hd)
    exact ⟨_, caller_setCaller_self hc _, rfl⟩
  · exact ⟨_, caller_setCaller_of_ne hq _ hd, rfl⟩

/-- A store changes neither a page directory nor the frames. -/
theorem directory_stored (hc : s.caller p = some c) (b : ℕ) (v : Byte) :
    (s.setCaller p (stored c b v)).directory = s.directory := by
  have hpgd : (stored c b v).mm.pgd = c.mm.pgd := rfl
  rw [directory_setCaller (caller_spec hc).1, hpgd, directory_update_self hc]

theorem FramesApart.stored (h : s.FramesApart) (hc : s.caller p = some c) (b : ℕ) (v : Byte) :
    (s.setCaller p (stored c b v)).FramesApart := by
  refine ⟨?_, ?_⟩
  · rw [directory_stored hc]
    simpa [setCaller, PagingSys.stored, Memphy.numfp, (caller_spec hc).2.2.1] using h.inside
  · rw [directory_stored hc]
    exact h.apart

theorem physical_stored (hc : s.caller p = some c) (b : ℕ) (v : Byte) :
    (s.setCaller p (stored c b v)).physical = s.physical := by
  funext q addr
  rw [physical, physical, directory_stored hc]

/-- For processes whose present pages have different frames: `pg_setval` at an address of a present
page succeeds and changes one byte of RAM; `pg_getval` gives that byte there, and at every other
address of a present page of any process what it gave before. -/
theorem resident_access (h : s.FramesApart) (hram : s.mram.rdmflg = true)
    (hc : s.caller p = some c) (haddr : addr.toNat < 2 ^ 22)
    (hpresent : pagingPagePresent (c.mm.pgd (pagingPgn addr)) = true) (v : Byte) :
    ∃ c', c.pgSetval addr v = some (0, c') ∧ c'.mm = c.mm ∧ c.mram.SameFrame c'.mram ∧
      c'.activeMswp = c.activeMswp ∧ c'.pgGetval addr = some (some v, c') ∧
      ∀ (q : ℕ) (d : Caller) (addr' : Addr), s.caller q = some d → addr'.toNat < 2 ^ 22 →
        pagingPagePresent (d.mm.pgd (pagingPgn addr')) = true → ¬ (q = p ∧ addr' = addr) →
        Caller.phyaddr (pagingFpn (d.mm.pgd (pagingPgn addr'))) addr' ≠
          Caller.phyaddr (pagingFpn (c.mm.pgd (pagingPgn addr))) addr ∧
        ∃ d' data, (s.setCaller p c').caller q = some d' ∧ d'.mm = d.mm ∧
          d.pgGetval addr' = some (some data, d) ∧
          d'.pgGetval addr' = some (some data, d') := by
  rcases pgSetval_present h hram hc haddr hpresent v with ⟨b, hb, hset⟩
  have hself := caller_setCaller_self hc (stored c b v)
  have hapart := h.stored hc b v
  have hram' : (s.setCaller p (stored c b v)).mram.rdmflg = true := by
    simpa [setCaller, stored, (caller_spec hc).2.2.1] using hram
  have hstorage : (s.setCaller p (stored c b v)).mram.storage =
      Function.update s.mram.storage b v := by
    simp [setCaller, stored, (caller_spec hc).2.2.1]
  refine ⟨stored c b v, hset, rfl, ⟨rfl, rfl, rfl⟩, rfl, ?_, ?_⟩
  · rw [pgGetval_present hapart hram' hself haddr hpresent, physical_stored hc, hstorage,
      readThrough, hb]
    simp
  · intro q d addr' hd haddr' hpresent' hne
    obtain ⟨b', hb'⟩ : ∃ b', s.physical q addr' = some b' :=
      ⟨_, physical_present hd haddr' hpresent'⟩
    rcases caller_stored hc b v hd with ⟨d', hd', hmm⟩
    refine ⟨fun heq => ?_, d', s.mram.storage b', hd', hmm, ?_, ?_⟩
    · -- the byte written to is behind one address
      have hphys := physical_present hd haddr' hpresent'
      rw [heq, ← physical_present hc haddr hpresent, hb] at hphys
      exact hne (h.exclusive q p addr' addr b hphys hb)
    · rw [pgGetval_present h hram hd haddr' hpresent', readThrough, hb']
      rfl
    · rw [← hmm] at hpresent'
      rw [pgGetval_present hapart hram' hd' haddr' hpresent', physical_stored hc, hstorage,
        readThrough_write_apart h.exclusive hb v hne, readThrough, hb']
      rfl

/-- A process whose first page is in frame `f`. -/
def firstPageIn (f : ℕ) : ProcMem where
  bp := pageSize
  mm := { Mm.zeroed with
    pgd := Function.update Mm.zeroed.pgd (pagingPgn 0#32) (pteSetFpn 0#32 (BitVec.ofNat 32 f)) }

/-- Two such processes on a device of two frames. -/
def twoResident : PagingSys where
  mram := .create 512 true
  activeMswp := .create 512 true
  procs := [some (firstPageIn 0), some (firstPageIn 1)]

theorem twoResident_holds {k : ℕ × Fin pagingMaxPgn} {f : ℕ}
    (h : holds presentFrame twoResident.directory k = some f) :
    f < 2 ∧ k = (f, pagingPgn 0#32) := by
  have hentry : ∀ g < 2, ∀ pgn, presentFrame ((firstPageIn g).mm.pgd pgn) = some f →
      g = f ∧ pgn = pagingPgn 0#32 := by
    intro g hg pgn hframe
    by_cases hpgn : pgn = pagingPgn 0#32
    · subst hpgn
      have hfpn := pagingFpn_pteSetFpn 0#32 (BitVec.ofNat 32 g)
      simp only [firstPageIn, Function.update_self, presentFrame, pagingPagePresent_pteSetFpn,
        if_true, hfpn, BitVec.toNat_ofNat, Option.some.injEq] at hframe
      exact ⟨by omega, rfl⟩
    · have hzero : pagingPagePresent (Mm.zeroed.pgd pgn) = false := by
        show pagingPagePresent 0#32 = false
        decide
      simp [firstPageIn, Function.update_of_ne hpgn, presentFrame, hzero] at hframe
  rcases k with ⟨_ | _ | q, pgn⟩
  · rcases hentry 0 (by decide) pgn h with ⟨rfl, rfl⟩
    exact ⟨by decide, rfl⟩
  · rcases hentry 1 (by decide) pgn h with ⟨rfl, rfl⟩
    exact ⟨by decide, rfl⟩
  · cases h

theorem twoResident_framesApart : twoResident.FramesApart where
  inside _ _ h := (twoResident_holds h).1
  apart _ _ _ hk hl := (twoResident_holds hk).2.trans (twoResident_holds hl).2.symm

/-- The first process writes to its first page. -/
theorem twoResident_access : ∃ c c', twoResident.caller 0 = some c ∧
    c.pgSetval 5#32 7 = some (0, c') ∧ c'.pgGetval 5#32 = some (some 7, c') := by
  have h := resident_access twoResident_framesApart (by decide)
    (show twoResident.caller 0 = some ⟨_, _, _, _⟩ from rfl)
    (show (5#32 : Addr).toNat < 2 ^ 22 by decide) (by decide) 7
  rcases h with ⟨c', hset, _, _, _, hget, _⟩
  exact ⟨_, c', rfl, hset, hget⟩

end PagingSys
end MiniOs
