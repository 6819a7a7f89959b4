import MiniOs.Paging.Exhaustion
import MiniOs.Paging.Twins

/-!
# Alone — a process of the paged memory computes what it computes alone

The processes share the frames of RAM and the swap device.  As long as no page fault takes a swap
frame, no growth of any process maps a page again and frames do not run out for a process, nothing
of this shows: the addresses it allocates, the bytes it reads and what its calls return are those of
a system in which it is the only process.  An undefined call counts as no call.
-/

namespace MiniOs
namespace PrivateBytes

open Lib PagingSys

/-! ## What a call shows -/

/-- The return value, the address that `liballoc` reports and the byte that `libread` prints. -/
structure Report where
  ret : Int
  addr : Option Addr
  data : Option Byte
  deriving DecidableEq

/-- A call, with its report. -/
def calls (s : PagingSys) : Op → Option (Report × PagingSys)
  | .liballoc p size regIndex => (s.caller p).bind fun c =>
      (c.alloc regIndex size).map fun r =>
        (⟨if r.1.isSome then 0 else -1, r.1, none⟩, s.setCaller p r.2)
  | .libread p source offset _ => (s.caller p).bind fun c =>
      (c.read source offset).map fun r => (⟨r.1.1, none, r.1.2⟩, s.setCaller p r.2)
  | op => (s.perform op).map fun r => (⟨r.1, none, none⟩, r.2)

theorem calls_perform (s : PagingSys) (op : Op) :
    (calls s op).map (fun r => (r.1.ret, r.2)) = s.perform op := by
  cases op with
  | liballoc p size regIndex =>
      simp [calls, perform, onProc, Caller.liballoc, Option.map_bind, Function.comp_def]
  | libread p source offset destination =>
      simp [calls, perform, onProc, Caller.libread, Option.map_bind, Function.comp_def]
  | _ => simp [calls, Function.comp_def]

/-- The process that calls, if it is one and not the loader or a CPU. -/
def callerOf : Op → Option ℕ
  | .liballoc p _ _ | .libfree p _ | .libread p _ _ _ | .libwrite p _ _ _ | .incVmaLimit p _ _ =>
      some p
  | .initMm | .finish _ => none

/-- The same call, made by process 0. -/
def asFirst : Op → Op
  | .initMm => .initMm
  | .liballoc _ size regIndex => .liballoc 0 size regIndex
  | .libfree _ regIndex => .libfree 0 regIndex
  | .libread _ source offset destination => .libread 0 source offset destination
  | .libwrite _ data destination offset => .libwrite 0 data destination offset
  | .incVmaLimit _ vmaid incSz => .incVmaLimit 0 vmaid incSz
  | .finish _ => .finish 0

/-- A call with its report.  An undefined call counts as no call: it has no report, and the state
stays as it is. -/
def showStep (st : State) (op : Op) : Option Report × State :=
  match calls st.sys op with
  | none => (none, st)
  | some (r, sys) => (some r, ⟨sys, (newEntry st.sys op).toList ++ st.stored⟩)

/-- A system with one process, which has just been created. -/
def alone (ramsz swpsz : Nat) (swpflg : Bool) : State :=
  ⟨{ PagingSys.start ramsz swpsz true swpflg with procs := [some loaded] }, []⟩

/-- Whether process `p` makes the call. -/
def isBy (p : ℕ) (op : Op) : Bool := decide (callerOf op = some p)

/-! ## The condition -/

/-- The call finds the frames that it asks for. -/
def FramesFor (c : Caller) : Op → Prop
  | .liballoc _ size _ => c.AllocHasFrames size
  | .incVmaLimit _ vmaid incSz => c.HasFrames vmaid incSz
  | .initMm | .libfree _ _ | .libread _ _ _ _ | .libwrite _ _ _ _ | .finish _ => True

/-- The call makes no page fault and maps no page again, whichever process makes it; and if it is
process `p`, the process is there and finds the frames. -/
structure Calm (p : ℕ) (st : State) (op : Op) : Prop where
  faultless : Faultless st.sys op
  own : callerOf op = some p → ∃ c, st.sys.caller p = some c ∧ FramesFor c op

instance (c : Caller) (vmaid incSz : Addr) : Decidable (c.HasFrames vmaid incSz) :=
  inferInstanceAs (Decidable (_ → _))

instance (c : Caller) (size : Addr) : Decidable (c.AllocHasFrames size) :=
  inferInstanceAs (Decidable (_ → _))

instance (c : Caller) : (op : Op) → Decidable (FramesFor c op)
  | .liballoc _ size _ => inferInstanceAs (Decidable (c.AllocHasFrames size))
  | .incVmaLimit _ vmaid incSz => inferInstanceAs (Decidable (c.HasFrames vmaid incSz))
  | .initMm | .libfree _ _ | .libread _ _ _ _ | .libwrite _ _ _ _ | .finish _ => isTrue trivial

instance (p : ℕ) (st : State) (op : Op) : Decidable (Calm p st op) :=
  decidable_of_iff (Faultless st.sys op ∧
      (callerOf op = some p → ∃ c ∈ st.sys.caller p, FramesFor c op))
    ⟨fun h => ⟨h.1, h.2⟩, fun h => ⟨h.faultless, h.own⟩⟩

/-! ## The relation -/

/-- Process `p` of one system does what process 0 of the other does, which is there alone. -/
structure Company (p : ℕ) (st u : State) : Prop where
  inv : Inv st
  invAlone : Inv u
  memory : ∀ cell, u.memory 0 cell = st.memory p cell
  swap : u.sys.activeMswp.freeFpList = st.sys.activeMswp.freeFpList
  frames : st.sys.mram.freeFpList.length ≤ u.sys.mram.freeFpList.length
  /-- as long as `p` is still to come, the other one has not begun -/
  coming : st.sys.procs.length ≤ p → u.sys.procs = [some loaded]
  twin : ∀ c, st.sys.caller p = some c → ∃ d, u.sys.caller 0 = some d ∧ c.Twin d

variable {p : ℕ} {st u : State} {c d : Caller}

theorem company_start {ramsz : Nat} (hram : ramsz / 256 ≤ 8192) (swpsz : Nat) (swpflg : Bool)
    (p : ℕ) : Company p (start ramsz swpsz swpflg) (alone ramsz swpsz swpflg) := by
  have hinv := start_inv hram swpsz swpflg
  refine ⟨hinv, hinv.initMm, fun _ => rfl, rfl, Nat.le_refl _, fun _ => rfl, fun c hc => ?_⟩
  simp [start, PagingSys.start, caller] at hc

theorem exec_of_calls {op : Op} {r : Report} {s' : PagingSys}
    (h : calls st.sys op = some (r, s')) :
    exec st op = some ⟨s', (newEntry st.sys op).toList ++ st.stored⟩ ∧
      showStep st op = (some r, ⟨s', (newEntry st.sys op).toList ++ st.stored⟩) := by
  have hperform := calls_perform st.sys op
  rw [h] at hperform
  refine ⟨?_, by simp only [showStep, h]⟩
  rw [exec, PagingSys.exec, ← hperform]
  rfl

/-- An undefined call shows nothing and changes nothing; any other is a step. -/
theorem showStep_cases (st : State) (op : Op) :
    showStep st op = (none, st) ∨
      ∃ r st', exec st op = some st' ∧ showStep st op = (some r, st') := by
  cases hcalls : calls st.sys op with
  | none => exact Or.inl (by simp only [showStep, hcalls])
  | some r =>
      rcases exec_of_calls hcalls with ⟨hexec, hshow⟩
      exact Or.inr ⟨_, _, hexec, hshow⟩

/-! ## Calls of the others -/

/-- A call changes the process that makes it; other steps add a process or end one. -/
theorem exec_procs {s s' : PagingSys} {op : Op} (h : s.exec op = some s') :
    s'.procs = s.procs ++ [some loaded] ∨
      ∃ q pm, (callerOf op = some q ∨ pm = none) ∧ s'.procs = s.procs.set q pm := by
  rcases Option.map_eq_some_iff.1 h with ⟨⟨ret, s₁⟩, hperform, rfl⟩
  cases op with
  | initMm =>
      obtain ⟨_, rfl⟩ := Prod.mk.inj (Option.some.inj hperform)
      exact Or.inl rfl
  | finish p =>
      rcases Option.map_eq_some_iff.1 hperform with ⟨c, _, heq⟩
      obtain ⟨_, rfl⟩ := Prod.mk.inj heq
      exact Or.inr ⟨p, none, Or.inr rfl, rfl⟩
  | _ =>
      rcases onProc_eq hperform with ⟨c, c', _, _, rfl⟩
      exact Or.inr ⟨_, _, Or.inl rfl, rfl⟩

theorem newEntry_owner {s : PagingSys} {op : Op} {e : ℕ × Cell × Byte}
    (h : newEntry s op = some e) : callerOf op = some e.1 := by
  cases op with
  | libwrite q data destination offset =>
      simp only [newEntry] at h
      split at h
      · split at h
        · rw [← Option.some.inj h]
          rfl
        · cases h
      · cases h
  | _ => cases h

theorem memory_append (sys : PagingSys) (e : Option (ℕ × Cell × Byte))
    (log : List (ℕ × Cell × Byte)) :
    State.memory ⟨sys, e.toList ++ log⟩ =
      match e with
      | none => State.memory ⟨sys, log⟩
      | some (q, cell, data) => store (State.memory ⟨sys, log⟩) q cell data := by
  cases e with
  | none => rfl
  | some e => rfl

theorem faults_of_faultless {s : PagingSys} {op : Op} (h : Faultless s op) : faults s op = 0 := by
  cases op with
  | libread p rgid offset destination | libwrite p data rgid offset =>
      simp only [faults]
      cases hc : s.caller p with
      | none => rfl
      | some c => exact accessFault_of_noSwap (h c hc)
  | _ => rfl

/-- What a call without fault leaves of the free lists. -/
theorem free_of_faultless {s s' : PagingSys} {op : Op} (h : s.exec op = some s')
    (hfaultless : Faultless s op) : s'.activeMswp.freeFpList = s.activeMswp.freeFpList ∧
      s'.mram.freeFpList.length ≤ s.mram.freeFpList.length := by
  have htakes := exec_takes h
  have hram := htakes.length_ram
  rw [faults_of_faultless hfaultless] at htakes
  exact ⟨htakes.swap.2, by omega⟩

/-- Process `p` stays what it is when the others take frames. -/
theorem Company.kept (h : Company p st u) {s' : PagingSys} {pm : ProcMem}
    (hpm : st.sys.procs[p]?.join = some pm)
    (hswap : s'.activeMswp.freeFpList = st.sys.activeMswp.freeFpList)
    (hram : s'.mram.freeFpList.length ≤ st.sys.mram.freeFpList.length) :
    ∃ d, u.sys.caller 0 = some d ∧
      Caller.Twin ⟨pm.bp, pm.mm, s'.mram, s'.activeMswp⟩ d := by
  rcases h.twin _ (Option.map_eq_some_iff.2 ⟨pm, hpm, rfl⟩) with ⟨d, hd, htwin⟩
  exact ⟨d, hd, htwin.bp, htwin.mm, htwin.present, htwin.swap.trans hswap.symm,
    hram.trans htwin.frames⟩

/-- A call of another process. -/
theorem Company.other (h : Company p st u) {op : Op} (hop : isBy p op = false)
    (hfaultless : Faultless st.sys op) : Company p (showStep st op).2 u := by
  have hne : callerOf op ≠ some p := of_decide_eq_false hop
  rcases showStep_cases st op with heq | ⟨r, st', hexec, heq⟩
  · rw [heq]
    exact h
  · rw [heq]
    have hinv := h.inv.exec hexec hfaultless
    rcases Option.map_eq_some_iff.1 hexec with ⟨s', hsys, rfl⟩
    rcases free_of_faultless hsys hfaultless with ⟨hswap, hram⟩
    refine ⟨hinv, h.invAlone, fun cell => ?_, h.swap.trans hswap.symm, hram.trans h.frames, ?_, ?_⟩
    · rw [h.memory, memory_append]
      cases hentry : newEntry st.sys op with
      | none => rfl
      | some e =>
          have hq : ¬ (p = e.1 ∧ cell = e.2.1) := by
            rintro ⟨rfl, _⟩
            exact hne (newEntry_owner hentry)
          exact (store_of_ne _ e.2.2 hq).symm
    · intro hlen
      refine h.coming ?_
      rcases exec_procs hsys with hprocs | ⟨q, pm, _, hprocs⟩
      · rw [hprocs, List.length_append] at hlen
        exact (Nat.le_add_right _ _).trans hlen
      · rwa [hprocs, List.length_set] at hlen
    · intro c hc
      rcases Option.map_eq_some_iff.1 hc with ⟨pm, hpm, rfl⟩
      rcases exec_procs hsys with hprocs | ⟨q, pm', hq, hprocs⟩
      · rw [hprocs] at hpm
        -- an old process, the new one, or no process
        rcases Nat.lt_trichotomy p st.sys.procs.length with hlt | rfl | hgt
        · rw [List.getElem?_append_left hlt] at hpm
          exact h.kept hpm hswap hram
        · obtain rfl : loaded = pm := by simpa using hpm
          have hfirst := h.coming (Nat.le_refl _)
          exact ⟨⟨loaded.bp, loaded.mm, u.sys.mram, u.sys.activeMswp⟩, by simp [caller, hfirst],
            rfl, rfl, fun _ => rfl, h.swap.trans hswap.symm, hram.trans h.frames⟩
        · rw [List.getElem?_eq_none (by simpa using hgt)] at hpm
          cases hpm
      · rw [hprocs] at hpm
        by_cases hqp : q = p
        · -- the process has ended
          subst hqp
          rcases hq with hq | rfl
          · exact absurd hq hne
          · rw [List.getElem?_set_self'] at hpm
            cases hold : st.sys.procs[q]? <;> simp [hold] at hpm
        · rw [List.getElem?_set_ne hqp] at hpm
          exact h.kept hpm hswap hram

/-! ## Calls of the process -/

/-- The outcomes of a call of a process and of its twin. -/
def SameCall (p : ℕ) (s t : PagingSys) :
    Option (Report × PagingSys) → Option (Report × PagingSys) → Prop :=
  SameStep fun s' t' => ∃ c d, s' = s.setCaller p c ∧ t' = t.setCaller 0 d ∧ c.Twin d

theorem sameCall_onProc {s t : PagingSys} {β : Type} {x y : Option (β × Caller)}
    (h : SameStep Caller.Twin x y) (f : β → Report) :
    SameCall p s t (x.map fun r => (f r.1, s.setCaller p r.2))
      (y.map fun r => (f r.1, t.setCaller 0 r.2)) :=
  h.map fun htwin => ⟨rfl, _, _, rfl, rfl, htwin⟩

/-- The byte at a present page is the one stored last, which is the same for both. -/
theorem Company.read (h : Company p st u) (hc : st.sys.caller p = some c)
    (hd : u.sys.caller 0 = some d) (htwin : c.Twin d) {rgid offset : Addr}
    (hno : c.RegionNeedsNoSwap rgid offset) :
    SameStep Caller.Twin (c.read rgid offset) (d.read rgid offset) := by
  cases hentry : getSymrgByid rgid with
  | null =>
      simp only [Caller.read, hentry]
      exact .defined _ htwin
  | pastEnd =>
      simp only [Caller.read, hentry]
      exact .undefined
  | entry i =>
      cases hpresent : pagingPagePresent (c.mm.pgd (pagingPgn (c.rgAddr i offset))) with
      | true =>
          have hpresent' : pagingPagePresent (d.mm.pgd (pagingPgn (d.rgAddr i offset))) = true := by
            rw [htwin.rgAddr, htwin.present, hpresent]
          rw [h.inv.isPrivate.read p c rgid i offset hc hentry hpresent,
            h.invAlone.isPrivate.read 0 d rgid i offset hd hentry hpresent', htwin.rgAddr, h.memory]
          exact .defined _ htwin
      | false => exact htwin.read_absent hentry (hno i hentry) hpresent

theorem Company.write (h : Company p st u) (hc : st.sys.caller p = some c)
    (hd : u.sys.caller 0 = some d) (htwin : c.Twin d) {rgid offset : Addr}
    (hno : c.RegionNeedsNoSwap rgid offset) (data : Byte) :
    SameStep Caller.Twin (c.write rgid offset data) (d.write rgid offset data) := by
  cases hentry : getSymrgByid rgid with
  | null =>
      simp only [Caller.write, hentry]
      exact .defined _ htwin
  | pastEnd =>
      simp only [Caller.write, hentry]
      exact .undefined
  | entry i =>
      cases hpresent : pagingPagePresent (c.mm.pgd (pagingPgn (c.rgAddr i offset))) with
      | true =>
          have hpresent' : pagingPagePresent (d.mm.pgd (pagingPgn (c.rgAddr i offset))) = true := by
            rw [htwin.present, hpresent]
          rcases pgSetval_behind h.inv.framesApart h.inv.random hc hpresent data with ⟨b, _, hset⟩
          rcases pgSetval_behind h.invAlone.framesApart h.invAlone.random hd hpresent' data with
            ⟨b', _, hset'⟩
          simp only [Caller.write, hentry, htwin.rgAddr, hset, hset', Option.map_some]
          exact .defined _ ⟨htwin.bp, htwin.mm, htwin.present, htwin.swap, htwin.frames⟩
      | false => exact htwin.write_absent hentry (hno i hentry) hpresent data

/-- The calls of a process and of its twin. -/
theorem Company.sameCall (h : Company p st u) {op : Op} (hop : callerOf op = some p)
    (hc : st.sys.caller p = some c) (hd : u.sys.caller 0 = some d)
    (htwin : c.Twin d) (hfaultless : Faultless st.sys op) (hframes : FramesFor c op) :
    SameCall p st.sys u.sys (calls st.sys op) (calls u.sys (asFirst op)) := by
  cases op with
  | initMm | finish q => cases hop
  | liballoc q size regIndex =>
      obtain rfl := Option.some.inj hop
      simp only [calls, asFirst, hc, hd, Option.bind_some]
      exact sameCall_onProc (htwin.alloc regIndex hframes) fun addr =>
        ⟨if addr.isSome then 0 else -1, addr, none⟩
  | libfree q regIndex =>
      obtain rfl := Option.some.inj hop
      simp only [calls, perform, onProc, asFirst, hc, hd, Option.bind_some,
        Option.map_map]
      exact sameCall_onProc (htwin.free regIndex) fun ret => ⟨ret, none, none⟩
  | libread q source offset destination =>
      obtain rfl := Option.some.inj hop
      simp only [calls, asFirst, hc, hd, Option.bind_some]
      exact sameCall_onProc (h.read hc hd htwin (hfaultless c hc)) fun r => ⟨r.1, none, r.2⟩
  | libwrite q data destination offset =>
      obtain rfl := Option.some.inj hop
      simp only [calls, perform, onProc, asFirst, hc, hd, Option.bind_some,
        Option.map_map]
      exact sameCall_onProc (h.write hc hd htwin (hfaultless c hc) data) fun ret =>
        ⟨ret, none, none⟩
  | incVmaLimit q vmaid incSz =>
      obtain rfl := Option.some.inj hop
      rcases htwin.inc hframes with ⟨hret, htwin'⟩
      simp only [calls, perform, onProc, asFirst, hc, hd, Option.bind_some,
        Option.map_some, hret]
      exact .defined _ ⟨_, _, rfl, rfl, htwin'⟩

theorem mapsFresh_twin (htwin : c.Twin d) {vmaid incSz : Addr} (hframes : c.HasFrames vmaid incSz)
    (hfresh : MapsFresh c vmaid incSz) : MapsFresh d vmaid incSz := by
  intro hmay _ i hi
  have hmay' := (htwin.mayGrow_iff vmaid).1 hmay
  rw [htwin.present, htwin.growPgn]
  exact hfresh hmay' (hframes hmay') i hi

/-- What the process may call without fault, its twin may as well. -/
theorem faultless_twin {s t : PagingSys} {op : Op} (hop : callerOf op = some p)
    (hc : s.caller p = some c) (hd : t.caller 0 = some d) (htwin : c.Twin d)
    (hfaultless : Faultless s op) (hframes : FramesFor c op) : Faultless t (asFirst op) := by
  have hregion : ∀ {rgid offset : Addr}, c.RegionNeedsNoSwap rgid offset →
      d.RegionNeedsNoSwap rgid offset := by
    intro rgid offset hno i hentry
    rw [htwin.rgAddr]
    exact htwin.needsNoSwap (hno i hentry)
  cases op with
  | initMm | libfree q regIndex | finish q => trivial
  | liballoc q size regIndex =>
      obtain rfl := Option.some.inj hop
      intro d' hd' hlist
      obtain rfl := Option.some.inj (hd.symm.trans hd')
      rw [htwin.mmap] at hlist
      exact mapsFresh_twin htwin (hframes hlist) (hfaultless c hc hlist)
  | libread q source offset destination | libwrite q data source offset =>
      obtain rfl := Option.some.inj hop
      intro d' hd'
      obtain rfl := Option.some.inj (hd.symm.trans hd')
      exact hregion (hfaultless c hc)
  | incVmaLimit q vmaid incSz =>
      obtain rfl := Option.some.inj hop
      intro d' hd'
      obtain rfl := Option.some.inj (hd.symm.trans hd')
      exact mapsFresh_twin htwin hframes (hfaultless c hc)

/-- The twin stores the same byte in the same cell. -/
theorem newEntry_twin {s t : PagingSys} {op : Op} (hop : callerOf op = some p)
    (hc : s.caller p = some c) (hd : t.caller 0 = some d) (htwin : c.Twin d) :
    newEntry t (asFirst op) = (newEntry s op).map fun e => (0, e.2) := by
  cases op with
  | libwrite q data destination offset =>
      obtain rfl := Option.some.inj hop
      simp only [newEntry, asFirst, hc, hd]
      cases getSymrgByid destination with
      | entry i =>
          simp only [htwin.rgAddr, htwin.present]
          split <;> rfl
      | _ => rfl
  | _ => rfl

/-- The memories stay the same. -/
theorem Company.memory_step (h : Company p st u) {op : Op} (hop : callerOf op = some p)
    (hc : st.sys.caller p = some c) (hd : u.sys.caller 0 = some d) (htwin : c.Twin d)
    (s' t' : PagingSys) (cell : Cell) :
    State.memory ⟨t', (newEntry u.sys (asFirst op)).toList ++ u.stored⟩ 0 cell =
      State.memory ⟨s', (newEntry st.sys op).toList ++ st.stored⟩ p cell := by
  rw [newEntry_twin hop hc hd htwin, memory_append, memory_append]
  cases hentry : newEntry st.sys op with
  | none => exact h.memory cell
  | some e =>
      obtain rfl : e.1 = p := Option.some.inj ((newEntry_owner hentry).symm.trans hop)
      simp only [Option.map_some]
      by_cases hcell : cell = e.2.1
      · rw [hcell, store_self, store_self]
      · rw [store_of_ne _ _ fun hboth => hcell hboth.2, store_of_ne _ _ fun hboth => hcell hboth.2]
        exact h.memory cell

/-- A call of the process itself. -/
theorem Company.own (h : Company p st u) {op : Op} (hop : isBy p op = true) (hcalm : Calm p st op) :
    (showStep st op).1 = (showStep u (asFirst op)).1 ∧
      Company p (showStep st op).2 (showStep u (asFirst op)).2 := by
  have hop' : callerOf op = some p := of_decide_eq_true hop
  rcases hcalm.own hop' with ⟨c, hc, hframes⟩
  rcases h.twin c hc with ⟨d, hd, htwin⟩
  have hsame := h.sameCall hop' hc hd htwin hcalm.faultless hframes
  generalize hx : calls st.sys op = x at hsame
  generalize hy : calls u.sys (asFirst op) = y at hsame
  cases hsame with
  | undefined =>
      simp only [showStep, hx, hy]
      exact ⟨trivial, h⟩
  | defined r hR =>
      rcases hR with ⟨c', d', rfl, rfl, htwin'⟩
      rcases exec_of_calls hx with ⟨hexec, hshow⟩
      rcases exec_of_calls hy with ⟨hexec', hshow'⟩
      rw [hshow, hshow']
      have hlt := (caller_spec hc).1
      refine ⟨rfl, h.inv.exec hexec hcalm.faultless,
        h.invAlone.exec hexec' (faultless_twin hop' hc hd htwin hcalm.faultless hframes),
        h.memory_step hop' hc hd htwin _ _, htwin'.swap, htwin'.frames, fun hlen => ?_,
        fun c'' hc'' => ⟨d', caller_setCaller_self hd d', ?_⟩⟩
      · have hlen' : (st.sys.procs.set p (some ⟨c'.bp, c'.mm⟩)).length ≤ p := hlen
        rw [List.length_set] at hlen'
        exact absurd hlt (not_lt.2 hlen')
      · obtain rfl := Option.some.inj ((caller_setCaller_self hc c').symm.trans hc'')
        exact htwin'

/-! ## Runs -/

/-- Process `p` and its twin have the same areas, regions, pages and bytes. -/
structure SameSpace (p : ℕ) (st u : State) : Prop where
  memory : ∀ cell, u.memory 0 cell = st.memory p cell
  twin : ∀ c, st.sys.caller p = some c → ∃ d, u.sys.caller 0 = some d ∧ c.Twin d

/-- The calls that process `p` makes among `ops`, as calls of a process that is there alone. -/
def callsOf (p : ℕ) (ops : List Op) : List Op := (ops.filter (isBy p)).map asFirst

/-- Run lemma. -/
theorem Company.run (h : Company p st u) {ops : List Op}
    (hcalm : Along (fun st op => some (showStep st op).2) (Calm p) st ops) :
    ownOutputs showStep (isBy p) st ops = ownOutputs showStep (isBy 0) u (callsOf p ops) ∧
      Company p (finalState showStep st ops) (finalState showStep u (callsOf p ops)) := by
  have hfirst : ∀ op, isBy p op = true → isBy 0 (asFirst op) = true := by
    intro op hop
    have hop' : callerOf op = some p := of_decide_eq_true hop
    cases op with
    | initMm | finish q => cases hop'
    | _ => rfl
  have hboth := ownOutputs_eq (f := showStep) (g := fun u op => showStep u (asFirst op))
    (R := Company p) (fun h hop hcalm => h.own hop hcalm)
    (fun h hop hcalm => h.other hop hcalm.faultless) h hcalm
  have hlabel := ownOutputs_relabel (f := showStep) asFirst
    (g := fun u op => showStep u (asFirst op)) hfirst (fun _ _ => rfl) u ops
  rw [hlabel.1, hlabel.2] at hboth
  exact hboth

/-- For every size of RAM and swap within the thirteen bits of a frame number, every number of
processes and every interleaving of their calls without page faults, in which no process maps a page
again and frames do not run out for process `p`: the reports of `p` are those of its calls in a
system of its own, and in the end it has the same memory. -/
theorem reports_alone {ramsz : Nat} (hram : ramsz / 256 ≤ 8192) (swpsz : Nat) (swpflg : Bool)
    (p : ℕ) (ops : List Op)
    (hcalm : Along (fun st op => some (showStep st op).2) (Calm p) (start ramsz swpsz swpflg) ops) :
    ownOutputs showStep (isBy p) (start ramsz swpsz swpflg) ops =
        ownOutputs showStep (isBy 0) (alone ramsz swpsz swpflg) (callsOf p ops) ∧
      SameSpace p (finalState showStep (start ramsz swpsz swpflg) ops)
        (finalState showStep (alone ramsz swpsz swpflg) (callsOf p ops)) := by
  rcases (company_start hram swpsz swpflg p).run hcalm with ⟨hreports, hend⟩
  exact ⟨hreports, hend.memory, hend.twin⟩

/-- Two processes get a page each, write to the same offset and read it; one of them ends. -/
def readers : List Op :=
  [.initMm, .initMm, .incVmaLimit 0 0 256#32, .incVmaLimit 1 0 256#32, .libwrite 1 9 0 7,
    .libwrite 0 5 0 7, .libread 1 0 7 0, .finish 0, .libread 1 0 7 0]

theorem readers_alone :
    (ownOutputs showStep (isBy 1) (start 512 512 true) readers).map (Option.map Report.data) =
        [some none, some none, some (some 9), some (some 9)] ∧
      ownOutputs showStep (isBy 1) (start 512 512 true) readers =
        ownOutputs showStep (isBy 0) (alone 512 512 true) (callsOf 1 readers) ∧
      SameSpace 1 (finalState showStep (start 512 512 true) readers)
        (finalState showStep (alone 512 512 true) (callsOf 1 readers)) :=
  ⟨by decide +kernel,
    reports_alone (by decide) 512 true 1 readers (by decide +kernel)⟩

end PrivateBytes
end MiniOs
