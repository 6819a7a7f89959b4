import MiniOs.Paging.Access
import MiniOs.Paging.System

/-!
# FlatMemory — regions as private byte arrays

What the callers of `libmem.c` go by: a region that was allocated and not freed is an array of its
size, with the byte last written at each offset.  `record` keeps this account beside the paged
memory, and `FlatRead` compares the two through `libread`.
-/

namespace MiniOs
namespace FlatMemory

open Lib

/-! ## The flat memory -/

/-- A live region: its size, and the byte last written at an offset since the allocation. -/
structure Region where
  size : Addr
  written : Addr → Option Byte

def Region.fresh (size : Addr) : Region := ⟨size, fun _ => none⟩

def Region.store (region : Region) (offset : Addr) (data : Byte) : Region :=
  { region with written := Function.update region.written offset (some data) }

@[simp] theorem Region.store_size (region : Region) (offset : Addr) (data : Byte) :
    (region.store offset data).size = region.size := rfl

/-- The live regions of each process, by identifier. -/
abbrev Live := Nat → Addr → Option Region

def Live.set (live : Live) (p : Nat) (rgid : Addr) (region : Option Region) : Live :=
  Function.update live p (Function.update (live p) rgid region)

inductive Call
  | liballoc (p : Nat) (size regIndex : Addr)
  | libfree (p : Nat) (regIndex : Addr)
  | libread (p : Nat) (source offset destination : Addr)
  | libwrite (p : Nat) (data : Byte) (destination offset : Addr)

/-- The live regions after a successful call. -/
def record (live : Live) : Call → Live
  | .liballoc p size regIndex => live.set p regIndex (some (.fresh size))
  | .libfree p regIndex => live.set p regIndex none
  | .libread _ _ _ _ => live
  | .libwrite p data destination offset =>
      live.set p destination ((live p destination).map fun region => region.store offset data)

/-! ## Beside the paged memory -/

def Call.op : Call → PagingSys.Op
  | .liballoc p size regIndex => .liballoc p size regIndex
  | .libfree p regIndex => .libfree p regIndex
  | .libread p source offset destination => .libread p source offset destination
  | .libwrite p data destination offset => .libwrite p data destination offset

/-- The paged memory, and the account of its live regions. -/
structure State where
  sys : PagingSys
  live : Live

/-- `n` processes that have been loaded. -/
def start (ramsz swpsz : Nat) (ramflg swpflg : Bool) (n : Nat) : State where
  sys := { PagingSys.start ramsz swpsz ramflg swpflg with
    procs := List.replicate n (some PagingSys.loaded) }
  live := fun _ _ => none

/-- A call that returns 0; there is no step for the others. -/
def exec (st : State) (call : Call) : Option State :=
  match st.sys.perform call.op with
  | some (0, sys) => some ⟨sys, record st.live call⟩
  | _ => none

/-- `offset` lies in the live region `rgid` of process `p`. -/
def State.Holds (st : State) (p : Nat) (rgid offset : Addr) (region : Region) : Prop :=
  st.live p rgid = some region ∧ offset < region.size

/-- Reading any offset of any live region succeeds and stores the byte last written there. -/
def FlatRead (st : State) : Prop :=
  ∀ p rgid offset region, st.Holds p rgid offset region → ∀ destination,
    ∃ c c' dest, st.sys.caller p = some c ∧
      c.libread rgid offset destination = some ((0, dest), c') ∧
      ∀ data, region.written offset = some data → dest.setWidth 8 = data

/-- No offset of a live region was written. -/
def Unwritten (st : State) : Prop :=
  ∀ p rgid offset region, st.Holds p rgid offset region → region.written offset = none

/-- The accesses to the live regions touch no byte outside the arrays. -/
def LiveInBounds (st : State) : Prop :=
  ∀ p rgid offset region, st.Holds p rgid offset region →
    ∃ c, st.sys.caller p = some c ∧ c.RegionInBounds rgid offset

/-- The call is no write to a live region. -/
def WritesNoLive (st : State) : Call → Prop
  | .libwrite p _ rgid offset => ∀ region, ¬ st.Holds p rgid offset region
  | _ => True

/-! ## Reads -/

/-- `libread` gives back what it found in `*destination`. -/
theorem libread_destination {c c' : Caller} {rgid offset destination dest : Addr} {ret : Int}
    (h : c.libread rgid offset destination = some ((ret, dest), c')) : dest = destination := by
  rcases Option.map_eq_some_iff.1 h with ⟨⟨⟨val, data⟩, c₁⟩, _, heq⟩
  exact (Prod.mk.inj (Prod.mk.inj heq).1).2.symm

theorem flatRead_iff (st : State) : FlatRead st ↔ Unwritten st ∧ LiveInBounds st := by
  constructor
  · intro hflat
    refine ⟨fun p rgid offset region hholds => ?_, fun p rgid offset region hholds => ?_⟩
    · -- a caller whose variable holds another byte than the one written
      cases hwritten : region.written offset with
      | none => rfl
      | some data =>
          rcases hflat p rgid offset region hholds ((~~~data).setWidth 32) with
            ⟨c, c', dest, _, hread, hdest⟩
          -- no byte is its own complement
          have hbyte := hdest data hwritten
          rw [libread_destination hread] at hbyte
          simp at hbyte
    · rcases hflat p rgid offset region hholds 0 with ⟨c, c', dest, hc, hread, _⟩
      exact ⟨c, hc, (c.libread_zero_iff rgid offset 0).1 ⟨dest, c', hread⟩⟩
  · rintro ⟨hunwritten, hbounds⟩ p rgid offset region hholds destination
    -- nothing was written, so only the return value is asked for
    rcases hbounds p rgid offset region hholds with ⟨c, hc, hin⟩
    rcases (c.libread_zero_iff rgid offset destination).2 hin with ⟨dest, c', hread⟩
    refine ⟨c, c', dest, hc, hread, fun data hdata => ?_⟩
    rw [hunwritten p rgid offset region hholds] at hdata
    cases hdata

/-! ## Steps -/

theorem exec_live {st st' : State} {call : Call} (h : exec st call = some st') :
    st'.live = record st.live call := by
  unfold exec at h
  split at h
  · obtain rfl := Option.some.inj h
    rfl
  · cases h

theorem Live.set_eq_some {live : Live} {p q : Nat} {rgid id : Addr} {new : Option Region}
    {region : Region} (h : live.set p rgid new q id = some region) :
    (q = p ∧ id = rgid ∧ new = some region) ∨ live q id = some region := by
  unfold Live.set at h
  by_cases hq : q = p
  · subst hq
    rw [Function.update_self] at h
    by_cases hid : id = rgid
    · subst hid
      rw [Function.update_self] at h
      exact Or.inl ⟨rfl, rfl, h⟩
    · rw [Function.update_of_ne hid] at h
      exact Or.inr h
  · rw [Function.update_of_ne hq] at h
    exact Or.inr h

/-- Step lemma: what is not written to stays unwritten. -/
theorem exec_unwritten {st st' : State} {call : Call} (h : Unwritten st)
    (hstep : exec st call = some st') (hok : WritesNoLive st call) : Unwritten st' := by
  rintro q id off region ⟨hregion, hlt⟩
  -- the region after the call is an old one, or the one the call is about
  rw [exec_live hstep] at hregion
  cases call with
  | liballoc p size regIndex =>
      rcases Live.set_eq_some hregion with ⟨_, _, heq⟩ | hold
      · obtain rfl := Option.some.inj heq
        rfl
      · exact h q id off region ⟨hold, hlt⟩
  | libfree p regIndex =>
      rcases Live.set_eq_some hregion with ⟨_, _, heq⟩ | hold
      · cases heq
      · exact h q id off region ⟨hold, hlt⟩
  | libread p source offset destination => exact h q id off region ⟨hregion, hlt⟩
  | libwrite p data destination offset =>
      rcases Live.set_eq_some hregion with ⟨rfl, rfl, heq⟩ | hold
      · rcases Option.map_eq_some_iff.1 heq with ⟨old, hold, rfl⟩
        rw [Region.store_size] at hlt
        -- `offset` is outside the region, so `off` is another one
        have hne : off ≠ offset := by
          rintro rfl
          exact hok old ⟨hold, hlt⟩
        simpa [Region.store, Function.update_of_ne hne] using h q id off old ⟨hold, hlt⟩
      · exact h q id off region ⟨hold, hlt⟩

/-- Step lemma: a write to a live region is on record. -/
theorem exec_written {st st' : State} {call : Call} (hstep : exec st call = some st')
    (hbad : ¬ WritesNoLive st call) : ¬ Unwritten st' := by
  cases call with
  | liballoc p size regIndex => exact absurd trivial hbad
  | libfree p regIndex => exact absurd trivial hbad
  | libread p source offset destination => exact absurd trivial hbad
  | libwrite p data destination offset =>
      simp only [WritesNoLive, not_forall, not_not] at hbad
      rcases hbad with ⟨region, hregion, hlt⟩
      intro hunwritten
      -- the region is live still, and `offset` in it has a byte now
      have hnone := hunwritten p destination offset (region.store offset data) ⟨?_, hlt⟩
      · simp [Region.store] at hnone
      · simp [exec_live hstep, record, Live.set, hregion]

/-! ## Runs -/

/-- The paged memory reads as flat memory in every state of a run exactly when the run never
writes to a live region and the accesses to live regions stay inside the arrays. -/
theorem flat_iff (ramsz swpsz : Nat) (ramflg swpflg : Bool) (n : Nat) (calls : List Call) :
    AllStates FlatRead (start ramsz swpsz ramflg swpflg n)
        (traceFn exec (start ramsz swpsz ramflg swpflg n) calls) ↔
      AllSteps WritesNoLive (start ramsz swpsz ramflg swpflg n)
          (traceFn exec (start ramsz swpsz ramflg swpflg n) calls) ∧
        AllStates LiveInBounds (start ramsz swpsz ramflg swpflg n)
          (traceFn exec (start ramsz swpsz ramflg swpflg n) calls) := by
  rcases run_traceFn exec (start ramsz swpsz ramflg swpflg n) calls with ⟨t, hrun⟩
  have hstart : Unwritten (start ramsz swpsz ramflg swpflg n) := by
    rintro p rgid offset region ⟨hregion, _⟩
    cases hregion
  -- both halves of `FlatRead` hold along the run or not, each by itself
  have hwritten := hrun.exact (P := Unwritten) id exec_unwritten
    (fun _ hstep hbad => exec_written hstep hbad) hstart
  rw [← hwritten, ← allStates_and]
  simp only [AllStates, flatRead_iff]

/-- The byte 5 is written to a region of 300 bytes and read back into a variable that is 0. -/
theorem written_not_read :
    ¬ AllStates FlatRead (start 512 512 true true 1)
        (traceFn exec (start 512 512 true true 1)
          [.liballoc 0 300#32 0#32, .libwrite 0 5#8 0#32 0#32]) := by
  rintro ⟨_, hflat⟩
  have hend : ∃ x ∈ traceFn exec (start 512 512 true true 1)
      [.liballoc 0 300#32 0#32, .libwrite 0 5#8 0#32 0#32],
      (x.2.live 0 0#32).map (fun region => (region.size, region.written 0#32)) =
        some (300#32, some 5#8) := by
    decide
  rcases hend with ⟨⟨call, st⟩, hmem, hlive⟩
  rcases Option.map_eq_some_iff.1 hlive with ⟨region, hregion, heq⟩
  rcases Prod.mk.inj heq with ⟨hsize, hwritten⟩
  have hholds : st.Holds 0 0#32 0#32 region := ⟨hregion, by rw [hsize]; decide⟩
  rcases hflat _ hmem 0 0#32 0#32 region hholds 0#32 with ⟨c, c', dest, _, hread, hdest⟩
  have hbyte := hdest 5#8 hwritten
  rw [libread_destination hread] at hbyte
  revert hbyte
  decide

end FlatMemory
end MiniOs
