import MiniOs.Paging.Stale

/-!
# TwoRuns — the results of a program on storage with different contents

What an instruction makes visible is its return value, the address it allocates, the bytes it reads
and the frames and victims it takes.  Two machines that are started on different storage and take
the same actions show the same, up to the first instruction that reads storage which was not set.
-/

namespace MiniOs

open Lib

/-! ## What is visible -/

structure Output where
  ret : Int
  addr : Option Addr
  data : List (Option Byte)
  taken : Caller.Taken
  deriving DecidableEq

/-- Only a return value. -/
def Output.ofRet (ret : Int) : Output := ⟨ret, none, [], ⟨[], [], []⟩⟩

namespace Caller

/-- The address that an instruction allocates. -/
def allocAddr (c : Caller) (ins : Inst) : Option Addr :=
  match ins.opcode with
  | .alloc => (c.alloc ins.arg1 ins.arg0).bind Prod.fst
  | .calc | .free | .read | .write | .syscall => none

/-- The bytes that an instruction reads. -/
def readData (c : Caller) (ins : Inst) : List (Option Byte) :=
  match ins.opcode with
  | .read => (c.read ins.arg0 ins.arg1).toList.map fun r => r.1.2
  | .syscall =>
      match sysCallTable ins.arg0 with
      | .memmap =>
          match memOp ins.arg1 with
          | .ioRead => (c.mram.read ins.arg2).toList.map Prod.fst
          | .mapOp | .incOp | .swpOp | .ioWrite | .unknown => []
      | .killall => nameData ins.arg1 99 0 c
      | .listsyscall | .xxxhandler | .niSyscall => []
  | .calc | .alloc | .free | .write => []

/-- An instruction with what is visible of it. -/
def observe (c : Caller) (ins : Inst) : Option (Output × Caller) :=
  (c.runInst ins).map fun r => (⟨r.1, c.allocAddr ins, c.readData ins, c.taken r.2⟩, r.2)

/-! ## What an instruction reads, and what it sets -/

/-- Everything that the instruction reads has been set. -/
def InstSet (g : Shadow) (known : Option Nat) (c : Caller) (ins : Inst) : Prop :=
  match ins.opcode with
  | .calc => True
  | .alloc => (g.freeList = .first → ins.arg0.toInt ≤ 0) ∧ g.freeList ≠ .stale
  | .free => ∀ i, getSymrgByid ins.arg0 = .entry i → i ∈ g.regions
  | .read => c.ByteSet g ins.arg0 ins.arg1
  | .write => c.ByteSet g ins.arg1 ins.arg2
  | .syscall =>
      match sysCallTable ins.arg0 with
      | .memmap =>
          match memOp ins.arg1 with
          | .incOp => c.GrowSet known ins.arg2 ins.arg3
          | .mapOp | .swpOp | .ioRead | .ioWrite | .unknown => True
      | .killall => NameSet g ins.arg1 99 0 c
      | .listsyscall | .xxxhandler | .niSyscall => True

/-- What is set of the storage of the process behind the instruction. -/
def shadowBehind (g : Shadow) (c : Caller) (ins : Inst) : Shadow :=
  match ins.opcode with
  | .calc | .read | .write => g
  | .alloc => g.alloc ins.arg1
  | .free => freeListBehind g c ins.arg0
  | .syscall =>
      match sysCallTable ins.arg0 with
      | .memmap =>
          match memOp ins.arg1 with
          | .incOp => g.grow c ins.arg2 ins.arg3
          | .mapOp | .swpOp | .ioRead | .ioWrite | .unknown => g
      | .killall | .listsyscall | .xxxhandler | .niSyscall => g

/-- How many free frames of RAM are known behind the instruction. -/
def knownBehind (known : Option Nat) (c : Caller) (ins : Inst) : Option Nat :=
  match ins.opcode with
  | .calc | .alloc | .free | .read | .write => known
  | .syscall =>
      match sysCallTable ins.arg0 with
      | .memmap =>
          match memOp ins.arg1 with
          | .incOp => framesBehind known c ins.arg2 ins.arg3
          | .mapOp | .swpOp | .ioRead | .ioWrite | .unknown => known
      | .killall | .listsyscall | .xxxhandler | .niSyscall => known

variable {g : Shadow} {known : Option Nat} {c c₁ c₂ : Caller} {ins : Inst}

/-- The results of two calls: the same return value, from processes that agree and have taken the
same. -/
def SameCall (g : Shadow) (known : Option Nat) (c₁ c₂ : Caller) :
    Option (Int × Caller) → Option (Int × Caller) → Prop :=
  SameStep fun c₁' c₂' => Agree g known c₁' c₂' ∧ c₁.taken c₁' = c₂.taken c₂'

theorem AgreeUnmoved.sameTaken {c₁' c₂' : Caller} (h : AgreeUnmoved g known c₁ c₂ c₁' c₂') :
    Agree g known c₁' c₂' ∧ c₁.taken c₁' = c₂.taken c₂' :=
  ⟨h.1, h.2.1.taken.trans h.2.2.taken.symm⟩

theorem Agree.sameCall (h : Agree g known c₁ c₂) (ret : Int) :
    SameCall g known c₁ c₂ (some (ret, c₁)) (some (ret, c₂)) :=
  .defined ret (AgreeUnmoved.sameTaken ⟨h, .refl c₁, .refl c₂⟩)

/-- ALLOC allocates the same address. -/
theorem Agree.liballoc (h : Agree g known c₁ c₂) {size regIndex : Addr}
    (hfirst : g.freeList = .first → size.toInt ≤ 0) (hstale : g.freeList ≠ .stale) :
    SameCall (g.alloc regIndex) known c₁ c₂ (c₁.liballoc size regIndex)
        (c₂.liballoc size regIndex) ∧
      (c₁.alloc regIndex size).bind Prod.fst = (c₂.alloc regIndex size).bind Prod.fst := by
  have halloc : SameStep (AgreeUnmoved (g.alloc regIndex) known c₁ c₂) (c₁.alloc regIndex size)
      (c₂.alloc regIndex size) := h.alloc hfirst hstale
  unfold Caller.liballoc
  generalize c₁.alloc regIndex size = r₁ at halloc ⊢
  generalize c₂.alloc regIndex size = r₂ at halloc ⊢
  refine ⟨SameStep.map halloc fun hR => ⟨rfl, hR.sameTaken⟩, ?_⟩
  cases halloc with
  | undefined => rfl
  | defined addr _ => rfl

/-- `__sys_memmap` in the two runs. -/
theorem Agree.sysMemmap (h : Agree g known c₁ c₂) {a1 : Addr} (hop : memOp a1 ≠ .incOp)
    (a2 a3 : Addr) :
    SameCall g known c₁ c₂ (c₁.sysMemmap a1 a2 a3) (c₂.sysMemmap a1 a2 a3) := by
  unfold Caller.sysMemmap
  cases hmem : memOp a1 with
  | mapOp => exact h.sameCall 0
  | incOp => exact absurd hmem hop
  | swpOp =>
      rcases h.mmSwapPage a2 a3 with ⟨h₁, h₂⟩ | ⟨c₁', c₂', h₁, h₂, hR⟩
      · rw [h₁, h₂]
        exact .undefined
      · rw [h₁, h₂]
        exact .defined 0 hR.sameTaken
  | ioRead =>
      rcases h.mram.read a2 with ⟨h₁, h₂⟩ | ⟨value, h₁, h₂⟩
      · simp only [h₁, h₂]
        exact .undefined
      · simp only [h₁, h₂]
        exact h.sameCall 0
  | ioWrite => exact (h.mram.write a2 _).map fun hR => ⟨rfl, (h.setMram hR).sameTaken⟩
  | unknown => exact h.sameCall 0

/-- The same call: what one instruction preserves. -/
theorem Agree.runInst (h : Agree g known c₁ c₂) (hset : InstSet g known c₁ ins) :
    SameCall (shadowBehind g c₁ ins) (knownBehind known c₁ ins) c₁ c₂ (c₁.runInst ins)
      (c₂.runInst ins) := by
  unfold InstSet at hset
  unfold shadowBehind knownBehind Caller.runInst
  cases hop : ins.opcode with
  | «calc» => exact h.sameCall 0
  | alloc =>
      simp only [hop] at hset
      exact (h.liballoc hset.1 hset.2).1
  | free =>
      simp only [hop] at hset
      exact (h.free hset).mono AgreeUnmoved.sameTaken
  | read =>
      simp only [hop] at hset
      rcases h.read hset with ⟨h₁, h₂⟩ | ⟨r, h₁, h₂⟩
      · simp only [libread, h₁, h₂]
        exact .undefined
      · simp only [libread, h₁, h₂]
        exact h.sameCall r.1
  | write =>
      simp only [hop] at hset
      exact (h.write (ins.arg0.setWidth 8) hset).mono AgreeUnmoved.sameTaken
  | syscall =>
      simp only [hop] at hset
      simp only [libsyscall]
      cases hcall : sysCallTable ins.arg0 with
      | memmap =>
          simp only [hcall] at hset
          by_cases hinc : memOp ins.arg1 = .incOp
          · simp only [hinc] at hset
            have hgrown := h.incVmaLimit hset
            simp only [hinc, Caller.sysMemmap]
            exact .defined 0 ⟨hgrown.agree, hgrown.taken⟩
          · have hmemmap := h.sysMemmap hinc ins.arg2 ins.arg3
            cases hmem : memOp ins.arg1 with
            | incOp => exact absurd hmem hinc
            | _ => exact hmemmap
      | killall =>
          simp only [hcall] at hset
          simp only [sysKillall]
          rcases (h.killallName hset).2 with ⟨h₁, h₂⟩ | ⟨name, h₁, h₂⟩
          · simp only [h₁, h₂]
            exact .undefined
          · simp only [h₁, h₂]
            exact h.sameCall 0
      | _ => exact h.sameCall 0

theorem Agree.allocAddr (h : Agree g known c₁ c₂) (hset : InstSet g known c₁ ins) :
    c₁.allocAddr ins = c₂.allocAddr ins := by
  unfold InstSet at hset
  unfold Caller.allocAddr
  cases hop : ins.opcode with
  | alloc =>
      simp only [hop] at hset
      exact (h.liballoc hset.1 hset.2).2
  | _ => rfl

theorem Agree.readData (h : Agree g known c₁ c₂) (hset : InstSet g known c₁ ins) :
    c₁.readData ins = c₂.readData ins := by
  unfold InstSet at hset
  unfold Caller.readData
  cases hop : ins.opcode with
  | read =>
      simp only [hop] at hset
      rcases h.read hset with ⟨h₁, h₂⟩ | ⟨r, h₁, h₂⟩
      · simp only [h₁, h₂]
      · simp only [h₁, h₂, Option.toList_some, List.map_cons, List.map_nil]
  | syscall =>
      simp only [hop] at hset
      cases hcall : sysCallTable ins.arg0 with
      | memmap =>
          cases hmem : memOp ins.arg1 with
          | ioRead =>
              rcases h.mram.read ins.arg2 with ⟨h₁, h₂⟩ | ⟨value, h₁, h₂⟩
              · simp only [h₁, h₂]
              · simp only [h₁, h₂, Option.toList_some, List.map_cons, List.map_nil]
          | _ => rfl
      | killall =>
          simp only [hcall] at hset
          exact (h.killallName hset).1
      | _ => rfl
  | _ => rfl

/-- An instruction that reads only what is set shows the same in both runs. -/
theorem Agree.observe (h : Agree g known c₁ c₂) (hset : InstSet g known c₁ ins) :
    SameStep (Agree (shadowBehind g c₁ ins) (knownBehind known c₁ ins)) (c₁.observe ins)
      (c₂.observe ins) :=
  SameStep.map (h.runInst hset) fun hR =>
    ⟨by simp [h.allocAddr hset, h.readData hset, hR.2], hR.1⟩

end Caller

/-! ## Lines -/

/-- How many of its numbers the execution of an instruction uses. -/
def Inst.uses (ins : Inst) : Nat :=
  match ins.opcode with
  | .calc => 0
  | .free => 1
  | .alloc | .read => 2
  | .write => 3
  | .syscall =>
      match sysCallTable ins.arg0 with
      | .memmap =>
          match memOp ins.arg1 with
          | .mapOp | .unknown => 2
          | .ioRead => 3
          | .incOp | .swpOp | .ioWrite => 4
      | .killall => 2
      | .listsyscall | .xxxhandler | .niSyscall => 1

/-- The instruction on storage filled with zeros. -/
def Line.inst (line : Line) : Inst := line.load ⟨.calc, 0, 0, 0, 0⟩

/-- The line has the numbers that its execution uses. -/
def Line.Given (line : Line) : Prop := line.inst.uses ≤ line.args.length

instance (line : Line) : Decidable line.Given := inferInstanceAs (Decidable (_ ≤ _))

/-- What an instruction shows depends only on the numbers that it uses. -/
theorem Caller.observe_congr (c : Caller) {ins ins' : Inst} (hop : ins'.opcode = ins.opcode)
    (h0 : 1 ≤ ins.uses → ins'.arg0 = ins.arg0) (h1 : 2 ≤ ins.uses → ins'.arg1 = ins.arg1)
    (h2 : 3 ≤ ins.uses → ins'.arg2 = ins.arg2) (h3 : 4 ≤ ins.uses → ins'.arg3 = ins.arg3) :
    c.observe ins' = c.observe ins := by
  have hrun : c.runInst ins' = c.runInst ins ∧ c.allocAddr ins' = c.allocAddr ins ∧
      c.readData ins' = c.readData ins := by
    unfold Inst.uses at h0 h1 h2 h3
    unfold runInst allocAddr readData
    rw [hop]
    cases hins : ins.opcode with
    | «calc» => exact ⟨rfl, rfl, rfl⟩
    | alloc =>
        simp only [hins] at h0 h1
        simp [h0, h1]
    | free =>
        simp only [hins] at h0
        simp [h0]
    | read =>
        simp only [hins] at h0 h1
        simp only [h0 (by decide), h1 (by decide), libread, Option.map_map]
        exact ⟨rfl, trivial, trivial⟩
    | write =>
        simp only [hins] at h0 h1 h2
        simp [h0, h1, h2]
    | syscall =>
        simp only [hins] at h0 h1 h2 h3
        -- the table decides how many more are used
        cases hcall : sysCallTable ins.arg0 with
        | memmap =>
            cases hmem : memOp ins.arg1 with
            | ioRead =>
                simp only [hcall, hmem] at h0 h1 h2
                simp [h0, h1, h2, libsyscall, sysMemmap, hcall, hmem]
            | mapOp | unknown =>
                simp only [hcall, hmem] at h0 h1
                simp [h0, h1, libsyscall, sysMemmap, hcall, hmem]
            | incOp | swpOp | ioWrite =>
                simp only [hcall, hmem] at h0 h1 h2 h3
                simp [h0, h1, h2, h3, libsyscall, sysMemmap, hcall, hmem]
        | killall =>
            simp only [hcall] at h0 h1
            simp [h0, h1, libsyscall, hcall]
        | listsyscall | xxxhandler | niSyscall =>
            simp only [hcall] at h0
            simp [h0, libsyscall, hcall]
  simp only [observe, hrun]

/-- A number that is given is loaded, whatever the storage held. -/
theorem Line.getD_eq {args : List Addr} {n i : Nat} (hn : i < n) (hargs : i < args.length)
    (stale stale' : Addr) : (args.take n)[i]?.getD stale = (args.take n)[i]?.getD stale' := by
  have hlt : i < (args.take n).length := by
    rw [List.length_take]
    exact lt_min hn hargs
  rw [List.getElem?_eq_getElem hlt]
  rfl

theorem Line.uses_le (line : Line) : line.inst.uses ≤ line.opcode.conversions := by
  have hop : line.inst.opcode = line.opcode := rfl
  unfold Inst.uses
  rw [hop]
  cases line.opcode with
  | syscall =>
      simp only [Opcode.conversions]
      split
      · split <;> decide
      all_goals decide
  | _ => simp [Opcode.conversions]

/-- So a line with its numbers shows the same on every storage. -/
theorem Line.observe_load {line : Line} (h : line.Given) (c : Caller) (stale : Inst) :
    c.observe (line.load stale) = c.observe line.inst := by
  have hconv := line.uses_le
  have hgiven : line.inst.uses ≤ line.args.length := h
  refine c.observe_congr rfl (fun hi => ?_) (fun hi => ?_) (fun hi => ?_) (fun hi => ?_)
  all_goals exact Line.getD_eq (by omega) (by omega) _ _

/-! ## Machines -/

def Task.observe (t : Task) : Option (Output × Task) :=
  match t.code[t.pc]? with
  | none => some (.ofRet 1, t)
  | some ins => (t.caller.observe ins).map fun r => (r.1, ⟨t.code, t.pc + 1, r.2⟩)

/-- What has been set of the storage of a machine, and what is known of the free list of RAM. -/
structure Known where
  frames : Option Nat
  procs : Nat → Shadow
  code : Nat → List Line

/-- Behind `MEMPHY_format`: with two frames or more the list ends where it should. -/
def Known.start (memramsz : Nat) : Known where
  frames := if memramsz / 256 < 2 then some (memramsz / 256) else none
  procs := fun _ => .init
  code := fun _ => []

namespace Machine

/-- The action of `perform`, with what is visible of it. -/
def observe (stale : Filling) (m : Machine) : Action → Option (Output × Machine)
  | .load prog => some (.ofRet 0, m.load stale prog)
  | .run p => (m.task p).bind fun t => t.observe.map fun r => (r.1, m.setTask p r.2)
  | .finish p => (m.perform stale (.finish p)).map fun r => (.ofRet r.1, r.2)

/-- The process `p` with the line that it executes next. -/
def nextLine (k : Known) (m : Machine) (p : Nat) : Option (Caller × Line) :=
  (m.sys.caller p).bind fun c => (k.code p)[m.pc p]?.map fun line => (c, line)

/-- The action reads nothing but what has been set. -/
def ReadsSet (k : Known) (m : Machine) : Action → Prop
  | .run p => ∀ x ∈ m.nextLine k p,
      x.2.Given ∧ x.1.InstSet (k.procs p) k.frames x.2.inst
  | .load _ | .finish _ => True

/-- What has been set behind an action. -/
def knownBehind (k : Known) (m : Machine) : Action → Known
  | .load prog =>
      { k with
        procs := Function.update k.procs m.nextPid .init
        code := Function.update k.code m.nextPid prog }
  | .run p =>
      match m.nextLine k p with
      | none => k
      | some (c, line) =>
          { k with
            frames := c.knownBehind k.frames line.inst
            procs := Function.update k.procs p (c.shadowBehind (k.procs p) line.inst) }
  | .finish _ => k

/-! ## Two machines -/

/-- A process in the two runs, finished or not. -/
inductive ProcAgree (g : Shadow) : Option ProcMem → Option ProcMem → Prop
  | finished : ProcAgree g none none
  | running (pm₁ pm₂ : ProcMem) (bp : pm₁.bp = pm₂.bp) (mm : Mm.Agree g pm₁.mm pm₂.mm) :
      ProcAgree g (some pm₁) (some pm₂)

/-- The machines of two runs on the storage `F₁` and `F₂`. -/
structure Agree (F₁ F₂ : Filling) (k : Known) (m₁ m₂ : Machine) : Prop where
  mram : m₁.sys.mram.SameCells m₂.sys.mram
  frames : Memphy.FreeAgree k.frames m₁.sys.mram.freeFpList m₂.sys.mram.freeFpList
  mswp : m₁.sys.activeMswp.SameCells m₂.sys.activeMswp
  nextPid : m₁.nextPid = m₂.nextPid
  procs : ∀ p, ProcAgree (k.procs p) m₁.sys.procs[p]?.join m₂.sys.procs[p]?.join
  pc : m₁.pc = m₂.pc
  code₁ : ∀ p, m₁.code p = (k.code p).mapIdx fun i line => line.load (F₁.text p i)
  code₂ : ∀ p, m₂.code p = (k.code p).mapIdx fun i line => line.load (F₂.text p i)

variable {F₁ F₂ : Filling} {k : Known} {m₁ m₂ : Machine}

/-- The unfinished process `p` is a caller in both runs, or in neither. -/
theorem Agree.caller (h : Agree F₁ F₂ k m₁ m₂) (p : Nat) :
    (m₁.sys.caller p = none ∧ m₂.sys.caller p = none) ∨
      ∃ c₁ c₂, m₁.sys.caller p = some c₁ ∧ m₂.sys.caller p = some c₂ ∧
        Caller.Agree (k.procs p) k.frames c₁ c₂ := by
  have hproc := h.procs p
  unfold PagingSys.caller
  generalize m₁.sys.procs[p]?.join = pm₁ at hproc
  generalize m₂.sys.procs[p]?.join = pm₂ at hproc
  cases hproc with
  | finished => exact Or.inl ⟨rfl, rfl⟩
  | running pm₁ pm₂ hbp hmm => exact Or.inr ⟨_, _, rfl, rfl, hbp, hmm, h.mram, h.frames, h.mswp⟩

/-- A process and the devices behind a call in both runs. -/
theorem Agree.setTask (h : Agree F₁ F₂ k m₁ m₂) {p : Nat} {g : Shadow} {known : Option Nat}
    {c₁ c₂ : Caller} (hc : Caller.Agree g known c₁ c₂) (hp : p < m₁.nextPid) (pc : Nat) :
    Agree F₁ F₂ { k with frames := known, procs := Function.update k.procs p g }
      (m₁.setTask p ⟨m₁.code p, pc, c₁⟩) (m₂.setTask p ⟨m₂.code p, pc, c₂⟩) := by
  have hp₂ : p < m₂.nextPid := h.nextPid ▸ hp
  have hcode : ∀ m : Machine, Function.update m.code p (m.code p) = m.code :=
    fun m => Function.update_eq_self p m.code
  refine ⟨hc.mram, hc.frames, hc.mswp, ?_, fun q => ?_, ?_, fun q => ?_, fun q => ?_⟩
  · simpa [Machine.setTask, Machine.nextPid, PagingSys.setCaller] using h.nextPid
  · by_cases hq : q = p
    · subst hq
      simp only [Machine.setTask, PagingSys.setCaller, List.getElem?_set_self hp,
        List.getElem?_set_self hp₂, Function.update_self, Option.join_some]
      exact .running ⟨c₁.bp, c₁.mm⟩ ⟨c₂.bp, c₂.mm⟩ hc.bp hc.mm
    · simpa only [Machine.setTask, PagingSys.setCaller, List.getElem?_set_ne (Ne.symm hq),
        Function.update_of_ne hq] using h.procs q
  · simp only [Machine.setTask, h.pc]
  · simpa only [Machine.setTask, hcode] using h.code₁ q
  · simpa only [Machine.setTask, hcode] using h.code₂ q

/-- The first region of `init_mm` is all that is set of a new process. -/
theorem agree_initMm (stale₁ stale₂ : Mm) :
    Mm.Agree .init (Mm.initMm stale₁) (Mm.initMm stale₂) := by
  have hfirst : ∀ stale : Mm, (Mm.initMm stale).FirstNode := by
    intro stale
    refine ⟨stale.rgHeap.length, stale.mmap.vmFreergList, rfl, ?_⟩
    simp [Mm.initMm, Mm.initVmRg, Mm.rg]
  exact ⟨rfl, rfl, rfl, fun _ h => h.elim, fun _ h => h.elim,
    fun _ => ⟨hfirst stale₁, hfirst stale₂⟩, fun _ h => (by cases h)⟩

theorem Agree.load (h : Agree F₁ F₂ k m₁ m₂) (prog : List Line) :
    Agree F₁ F₂ (m₁.knownBehind k (.load prog)) (m₁.load F₁ prog) (m₂.load F₂ prog) := by
  have hpid := h.nextPid
  refine ⟨h.mram, h.frames, h.mswp, ?_, fun q => ?_, ?_, fun q => ?_, fun q => ?_⟩
  · simpa [Machine.load, Machine.nextPid] using h.nextPid
  · rcases lt_trichotomy q m₁.nextPid with hlt | rfl | hgt
    · simpa only [Machine.load, knownBehind, Function.update_of_ne hlt.ne,
        List.getElem?_append_left hlt, List.getElem?_append_left (hpid ▸ hlt)] using h.procs q
    · -- the process that is loaded
      have hnew : ∀ (m : Machine) (pm : ProcMem),
          (m.sys.procs ++ [some pm])[m.nextPid]?.join = some pm := by
        intro m pm
        simp [Machine.nextPid]
      simp only [Machine.load, knownBehind, Function.update_self, hnew]
      rw [hpid, hnew]
      exact .running _ _ rfl (agree_initMm _ _)
    · have hnone : ∀ (m : Machine) (pm : ProcMem), m.nextPid < q →
          (m.sys.procs ++ [some pm])[q]?.join = none := by
        intro m pm hlt
        rw [List.getElem?_eq_none (by simpa [Machine.nextPid] using hlt)]
        rfl
      simp only [Machine.load, hnone m₁ _ hgt, hnone m₂ _ (hpid ▸ hgt)]
      exact .finished
  · simp only [Machine.load, h.pc, hpid]
  · by_cases hq : q = m₁.nextPid
    · subst hq
      simp [Machine.load, knownBehind]
    · simpa [Machine.load, knownBehind, Function.update_of_ne hq] using h.code₁ q
  · simp only [Machine.load, ← hpid]
    by_cases hq : q = m₁.nextPid
    · subst hq
      simp [knownBehind]
    · simpa [knownBehind, Function.update_of_ne hq] using h.code₂ q

theorem Agree.finish (h : Agree F₁ F₂ k m₁ m₂) (p : Nat) :
    SameStep (Agree F₁ F₂ k) (m₁.observe F₁ (.finish p)) (m₂.observe F₂ (.finish p)) := by
  have hlen : (m₁.code p).length = (m₂.code p).length := by
    rw [h.code₁, h.code₂, List.length_mapIdx, List.length_mapIdx]
  simp only [observe, perform, ← hlen, ← h.pc, PagingSys.exec, PagingSys.perform]
  by_cases hend : m₁.pc p = (m₁.code p).length
  · rw [if_pos hend, if_pos hend]
    rcases h.caller p with ⟨h₁, h₂⟩ | ⟨c₁, c₂, h₁, h₂, _⟩
    · simp only [h₁, h₂]
      exact .undefined
    · simp only [h₁, h₂]
      refine .defined _ ⟨h.mram, h.frames, h.mswp, ?_, fun q => ?_, rfl, h.code₁, h.code₂⟩
      · simpa [Machine.nextPid] using h.nextPid
      · by_cases hq : q = p
        · subst hq
          have hp₁ := (PagingSys.caller_spec h₁).1
          have hp₂ := (PagingSys.caller_spec h₂).1
          simp only [List.getElem?_set_self hp₁, List.getElem?_set_self hp₂, Option.join_some]
          exact .finished
        · simpa only [List.getElem?_set_ne (Ne.symm hq)] using h.procs q
  · rw [if_neg hend, if_neg hend]
    exact .undefined

/-- Process `p` has the same line in front of it in both runs. -/
theorem Agree.run (h : Agree F₁ F₂ k m₁ m₂) {p : Nat} (hset : m₁.ReadsSet k (.run p)) :
    SameStep (Agree F₁ F₂ (m₁.knownBehind k (.run p))) (m₁.observe F₁ (.run p))
      (m₂.observe F₂ (.run p)) := by
  rcases h.caller p with ⟨h₁, h₂⟩ | ⟨c₁, c₂, h₁, h₂, hc⟩
  · simp only [observe, task, h₁, h₂]
    exact .undefined
  · have hp : p < m₁.nextPid := (PagingSys.caller_spec h₁).1
    simp only [observe, task, h₁, h₂, Option.map_some, Option.bind_some, Task.observe]
    cases hline : (k.code p)[m₁.pc p]? with
    | none =>
        have hnone₁ : (m₁.code p)[m₁.pc p]? = none := by
          rw [h.code₁, List.getElem?_mapIdx, hline]
          rfl
        have hnone₂ : (m₂.code p)[m₂.pc p]? = none := by
          rw [h.code₂, ← h.pc, List.getElem?_mapIdx, hline]
          rfl
        have hbehind : m₁.knownBehind k (.run p) = k := by
          simp [knownBehind, nextLine, h₁, hline]
        rw [hbehind, hnone₁, hnone₂]
        -- behind the end of the code nothing changes
        have hself := h.setTask hc hp (m₁.pc p)
        rw [Function.update_eq_self] at hself
        exact .defined _ (h.pc ▸ hself)
    | some line =>
        have hsome₁ : (m₁.code p)[m₁.pc p]? = some (line.load (F₁.text p (m₁.pc p))) := by
          rw [h.code₁, List.getElem?_mapIdx, hline]
          rfl
        have hsome₂ : (m₂.code p)[m₂.pc p]? = some (line.load (F₂.text p (m₁.pc p))) := by
          rw [h.code₂, ← h.pc, List.getElem?_mapIdx, hline]
          rfl
        rcases hset (c₁, line) (by simp [nextLine, h₁, hline]) with ⟨hgiven, hinst⟩
        have hbehind : m₁.knownBehind k (.run p) =
            { k with
              frames := c₁.knownBehind k.frames line.inst
              procs := Function.update k.procs p (c₁.shadowBehind (k.procs p) line.inst) } := by
          simp [knownBehind, nextLine, h₁, hline]
        rw [hbehind, hsome₁, hsome₂, Option.map_map, Option.map_map,
          Line.observe_load hgiven, Line.observe_load hgiven]
        exact (hc.observe hinst).map fun hR => ⟨rfl, h.pc ▸ h.setTask hR hp (m₁.pc p + 1)⟩

/-! ## Runs -/

end Machine
end MiniOs
