import MiniOs.Paging.Alone

/-!
# Sharing — processes that find their frames alone find them together

A process alone takes some number of frames.  If RAM has as many as all processes take together,
then none of them runs out in company either: whatever order the calls come in, every process has
left as many frames to the others as it does when it is alone.
-/

namespace MiniOs
namespace PrivateBytes

open Lib PagingSys

/-! ## Along a run -/

/-- The step of `showStep`: an undefined call counts as no call, and the run goes on behind it. -/
def advance (st : State) (op : Op) : Option State := some (showStep st op).2

theorem along_advance_append {P : State → Op → Prop} {st : State} {ops ops' : List Op} :
    Along advance P st (ops ++ ops') ↔
      Along advance P st ops ∧ Along advance P (finalState showStep st ops) ops' := by
  have hrun : runFn advance st ops = some (finalState showStep st ops) :=
    runFn_finalState showStep st ops
  rw [along_append, hrun]
  exact and_congr_right fun _ =>
    ⟨fun h => h _ rfl, fun h t ht => Option.some.inj ht ▸ h⟩

theorem callsOf_cons (p : ℕ) (op : Op) (ops : List Op) :
    callsOf p (op :: ops) =
      if callerOf op = some p then asFirst op :: callsOf p ops else callsOf p ops := by
  unfold callsOf
  by_cases hop : callerOf op = some p
  · simp [isBy, hop]
  · simp [isBy, hop]

/-- The number of free frames. -/
def State.free (st : State) : ℕ := st.sys.mram.freeFpList.length

/-- A growth is defined, so what a step leaves is exact. -/
theorem free_taken (st : State) (op : Op) :
    (showStep st op).2.free + taken st.sys op = st.free := by
  cases hcalls : calls st.sys op with
  | some r =>
      rcases exec_of_calls hcalls with ⟨hexec, hshow⟩
      rcases Option.map_eq_some_iff.1 hexec with ⟨s', hsys, heq⟩
      rw [hshow, ← heq]
      exact (exec_takes hsys).length_ram
  | none =>
      have htaken : taken st.sys op = 0 := by
        cases op with
        | liballoc p size regIndex =>
            simp only [taken]
            cases hc : st.sys.caller p with
            | none => rfl
            | some c =>
                by_cases hlist : c.mm.mmap.vmFreergList = none
                · rw [calls, hc, Option.bind_some,
                    Caller.alloc_growth regIndex size hlist] at hcalls
                  split at hcalls <;> cases hcalls
                · exact if_neg hlist
        | incVmaLimit p vmaid incSz =>
            simp only [taken]
            cases hc : st.sys.caller p with
            | none => rfl
            | some c => simp [calls, perform, onProc, hc] at hcalls
        | _ => rfl
      rw [htaken, showStep, hcalls]
      rfl

theorem free_finalState (st : State) (ops : List Op) :
    (finalState showStep st ops).free ≤ st.free := by
  induction ops generalizing st with
  | nil => exact Nat.le_refl _
  | cons op ops ih => exact (ih _).trans (Nat.le.intro (free_taken st op))

/-! ## One call -/

variable {p : ℕ} {st u : State} {c d : Caller}

theorem exec_caller {s s' : PagingSys} {op : Op} (h : s.exec op = some s')
    (hop : callerOf op = some p) : ∃ c, s.caller p = some c := by
  rcases Option.map_eq_some_iff.1 h with ⟨⟨ret, s₁⟩, hperform, rfl⟩
  cases op with
  | initMm | finish q => cases hop
  | _ =>
      obtain rfl := Option.some.inj hop
      rcases onProc_eq hperform with ⟨c, c', hc, _, _⟩
      exact ⟨c, hc⟩

/-- A defined call is a step. -/
theorem showStep_of_exec {s' : PagingSys} {op : Op} (h : st.sys.exec op = some s') :
    ∃ r, showStep st op = (some r, ⟨s', (newEntry st.sys op).toList ++ st.stored⟩) := by
  cases hcalls : calls st.sys op with
  | none =>
      have hperform := calls_perform st.sys op
      rw [hcalls, Option.map_none] at hperform
      rw [PagingSys.exec, ← hperform] at h
      cases h
  | some r =>
      rcases exec_of_calls hcalls with ⟨hexec, hshow⟩
      rw [exec, h] at hexec
      exact ⟨r.1, hshow.trans (by rw [← Option.some.inj hexec])⟩

/-- The frames that a growth takes are the same for the twin, if both have enough. -/
theorem takenPages_twin (htwin : c.Twin d) {vmaid incSz : Addr}
    (hframes : c.HasFrames vmaid incSz) :
    takenPages d vmaid incSz = takenPages c vmaid incSz := by
  unfold takenPages
  by_cases hmay : c.MayGrow vmaid
  · have hc := hframes hmay
    rw [if_pos hmay, if_pos ((htwin.mayGrow_iff vmaid).2 hmay), Nat.min_eq_left hc,
      Nat.min_eq_left (hc.trans htwin.frames)]
  · rw [if_neg hmay, if_neg fun h => hmay ((htwin.mayGrow_iff vmaid).1 h)]

theorem taken_twin {s t : PagingSys} {op : Op} (hop : callerOf op = some p)
    (hc : s.caller p = some c) (hd : t.caller 0 = some d) (htwin : c.Twin d)
    (hframes : FramesFor c op) : taken t (asFirst op) = taken s op := by
  cases op with
  | liballoc q size regIndex =>
      obtain rfl := Option.some.inj hop
      simp only [taken, asFirst, hc, hd, htwin.mmap]
      split
      · rename_i hlist
        exact takenPages_twin htwin (hframes hlist)
      · rfl
  | incVmaLimit q vmaid incSz =>
      obtain rfl := Option.some.inj hop
      simp only [taken, asFirst, hc, hd]
      exact takenPages_twin htwin hframes
  | _ => rfl

/-- A growth that succeeds alone finds its frames in company, if there are as many left as it
takes. -/
theorem hasFrames_twin (htwin : c.Twin d) {vmaid incSz : Addr} (hframes : d.HasFrames vmaid incSz)
    (hroom : takenPages d vmaid incSz ≤ c.mram.freeFpList.length) : c.HasFrames vmaid incSz := by
  intro hmay
  have hmay' := (htwin.mayGrow_iff vmaid).2 hmay
  rw [takenPages, if_pos hmay', Nat.min_eq_left (hframes hmay')] at hroom
  exact hroom

theorem framesFor_twin {t : PagingSys} {op : Op} (hop : callerOf op = some p)
    (hd : t.caller 0 = some d) (htwin : c.Twin d) (hframes : FramesFor d (asFirst op))
    (hroom : taken t (asFirst op) ≤ c.mram.freeFpList.length) : FramesFor c op := by
  cases op with
  | liballoc q size regIndex =>
      intro hlist
      have hlist' : d.mm.mmap.vmFreergList = none := by rw [htwin.mmap, hlist]
      simp only [taken, asFirst, hd, if_pos hlist'] at hroom
      exact hasFrames_twin htwin (hframes hlist') hroom
  | incVmaLimit q vmaid incSz =>
      simp only [taken, asFirst, hd] at hroom
      exact hasFrames_twin htwin hframes hroom
  | _ => trivial

theorem mapsFresh_of_twin (htwin : c.Twin d) {vmaid incSz : Addr}
    (hfresh : MapsFresh d vmaid incSz) : MapsFresh c vmaid incSz := by
  intro hmay henough i hi
  rw [← htwin.present, ← htwin.growPgn]
  exact hfresh ((htwin.mayGrow_iff vmaid).2 hmay) (henough.trans htwin.frames) i hi

/-- What the twin may call without fault, the process may as well. -/
theorem faultless_of_twin {s t : PagingSys} {op : Op} (hop : callerOf op = some p)
    (hc : s.caller p = some c) (hd : t.caller 0 = some d) (htwin : c.Twin d)
    (hfaultless : Faultless t (asFirst op)) : Faultless s op := by
  have hregion : ∀ {rgid offset : Addr}, d.RegionNeedsNoSwap rgid offset →
      c.RegionNeedsNoSwap rgid offset := by
    intro rgid offset hno i hentry
    have hpage := hno i hentry
    rw [htwin.rgAddr, Caller.NeedsNoSwap, htwin.present, htwin.fifoPgn, htwin.swap] at hpage
    exact hpage
  cases op with
  | initMm | libfree q regIndex | finish q => trivial
  | liballoc q size regIndex =>
      obtain rfl := Option.some.inj hop
      intro c' hc' hlist
      obtain rfl := Option.some.inj (hc.symm.trans hc')
      exact mapsFresh_of_twin htwin (hfaultless d hd (by rw [htwin.mmap, hlist]))
  | libread q source offset destination | libwrite q data source offset =>
      obtain rfl := Option.some.inj hop
      intro c' hc'
      obtain rfl := Option.some.inj (hc.symm.trans hc')
      exact hregion (hfaultless d hd)
  | incVmaLimit q vmaid incSz =>
      obtain rfl := Option.some.inj hop
      intro c' hc'
      obtain rfl := Option.some.inj (hc.symm.trans hc')
      exact mapsFresh_of_twin htwin (hfaultless d hd)

theorem callerOf_asFirst {op : Op} (hop : callerOf op = some p) :
    callerOf (asFirst op) = some 0 := by
  cases op with
  | initMm | finish q => cases hop
  | _ => rfl

/-! ## All processes -/

variable {numfp n : ℕ} {us : Fin n → State}

/-- Every process does what its twin does alone, and the frames that are gone are those which the
twins have taken. -/
structure Shared (numfp : ℕ) (st : State) (us : Fin n → State) : Prop where
  company : ∀ i, Company i.val st (us i)
  bounded : ∀ i, (us i).free ≤ numfp
  spent : st.free + ∑ i, (numfp - (us i).free) = numfp

/-- A step of the loader or the end of a process. -/
theorem Shared.noCall (h : Shared numfp st us) {op : Op} (hop : callerOf op = none) :
    (∀ i : Fin n, Calm i.val st op) ∧ Shared numfp (showStep st op).2 us := by
  have hfaultless : Faultless st.sys op := by
    cases op with
    | initMm | finish q => trivial
    | _ => cases hop
  have hby : ∀ i : Fin n, isBy i.val op = false := fun i => decide_eq_false (by simp [hop])
  refine ⟨fun i => ⟨hfaultless, fun heq => by simp [hop] at heq⟩,
    fun i => (h.company i).other (hby i) hfaultless, h.bounded, ?_⟩
  have htaken : taken st.sys op = 0 := by
    cases op with
    | initMm | finish q => rfl
    | _ => cases hop
  have hfree := free_taken st op
  rw [htaken, Nat.add_zero] at hfree
  rw [hfree]
  exact h.spent

/-- A call of process `i`, whose twin finds its frames. -/
theorem Shared.call (h : Shared numfp st us) {op : Op} {i : Fin n} (hop : callerOf op = some i.val)
    (hc : st.sys.caller i.val = some c) (hcalm : Calm 0 (us i) (asFirst op))
    {us' : Fin n → State} (hself : us' i = (showStep (us i) (asFirst op)).2)
    (hothers : ∀ j, j ≠ i → us' j = us j) (hfits : ∑ j, (numfp - (us' j).free) ≤ numfp) :
    (∀ j : Fin n, Calm j.val st op) ∧ Shared numfp (showStep st op).2 us' ∧
      (showStep st op).1 = (showStep (us i) (asFirst op)).1 := by
  rcases (h.company i).twin c hc with ⟨d, hd, htwin⟩
  rcases hcalm.own (callerOf_asFirst hop) with ⟨d', hd', hframes⟩
  obtain rfl := Option.some.inj (hd.symm.trans hd')
  -- what is gone behind the call is what was gone before it, and what the twin takes
  have hgone : ∑ j, (numfp - (us' j).free) =
      ∑ j, (numfp - (us j).free) + taken (us i).sys (asFirst op) := by
    have hupdate : us' = Function.update us i (us' i) := by
      funext j
      by_cases hj : j = i
      · rw [hj, Function.update_self]
      · rw [Function.update_of_ne hj, hothers j hj]
    have hsum := sum_update_add us i (us' i) fun u => numfp - u.free
    rw [← hupdate] at hsum
    have htwinFree := free_taken (us i) (asFirst op)
    rw [← hself] at htwinFree
    have hle := h.bounded i
    omega
  have hspent := h.spent
  have hroom : taken (us i).sys (asFirst op) ≤ c.mram.freeFpList.length := by
    rw [(caller_spec hc).2.2.1]
    simp only [State.free] at hspent hgone hfits ⊢
    omega
  have hfaultless := faultless_of_twin hop hc hd htwin hcalm.faultless
  have hframes' := framesFor_twin hop hd htwin hframes hroom
  have hby : ∀ j : Fin n, j ≠ i → callerOf op ≠ some j.val := by
    intro j hj heq
    exact hj (Fin.ext (Option.some.inj (heq.symm.trans hop)))
  have hown : Calm i.val st op := ⟨hfaultless, fun _ => ⟨c, hc, hframes'⟩⟩
  have hreport := (h.company i).own (decide_eq_true hop) hown
  refine ⟨fun j => ?_, ⟨fun j => ?_, fun j => ?_, ?_⟩, hreport.1⟩
  · by_cases hj : j = i
    · rw [hj]
      exact hown
    · exact ⟨hfaultless, fun heq => absurd heq (hby j hj)⟩
  · by_cases hj : j = i
    · subst hj
      rw [hself]
      exact hreport.2
    · rw [hothers j hj]
      exact (h.company j).other (decide_eq_false (hby j hj)) hfaultless
  · by_cases hj : j = i
    · rw [hj, hself]
      exact (Nat.le.intro (free_taken _ _)).trans (h.bounded i)
    · rw [hothers j hj]
      exact h.bounded j
  · have hfree := free_taken st op
    have htaken := taken_twin hop hc hd htwin hframes'
    omega

/-- Run lemma: calls of processes that find their frames alone, and that have taken no more than
there are in the end. -/
theorem Shared.run {ops : List Op} : ∀ {st : State} {us : Fin n → State} {s' : PagingSys},
    Shared numfp st us → (∀ op ∈ ops, ∀ i, callerOf op = some i → i < n) →
    runFn PagingSys.exec st.sys ops = some s' →
    (∀ j : Fin n, Along advance (Calm 0) (us j) (callsOf j.val ops)) →
    ∑ j : Fin n, (numfp - (finalState showStep (us j) (callsOf j.val ops)).free) ≤ numfp →
    (∀ j : Fin n, Along advance (Calm j.val) st ops) ∧
      Shared numfp (finalState showStep st ops)
        (fun j => finalState showStep (us j) (callsOf j.val ops)) ∧
      (finalState showStep st ops).sys = s' := by
  induction ops with
  | nil =>
      intro st us s' h _ hrun _ _
      exact ⟨fun _ => trivial, h, Option.some.inj hrun⟩
  | cons op ops ih =>
      intro st us s' h hbound hrun hcalm hfits
      rcases Option.bind_eq_some_iff.1 hrun with ⟨s₁, hexec, hrest⟩
      rcases showStep_of_exec hexec with ⟨r, hshow⟩
      have hsys : (showStep st op).2.sys = s₁ := by rw [hshow]
      -- the twins behind the first call
      let us' : Fin n → State := fun j =>
        if callerOf op = some j.val then (showStep (us j) (asFirst op)).2 else us j
      have hcons : ∀ j : Fin n, finalState showStep (us j) (callsOf j.val (op :: ops)) =
          finalState showStep (us' j) (callsOf j.val ops) := by
        intro j
        rw [callsOf_cons]
        by_cases hj : callerOf op = some j.val
        · simp only [us', hj, if_true]
          rfl
        · simp only [us', hj, if_false]
      have hcalm' : ∀ j : Fin n, Along advance (Calm 0) (us' j) (callsOf j.val ops) := by
        intro j
        have hj := hcalm j
        rw [callsOf_cons] at hj
        by_cases hop : callerOf op = some j.val
        · simp only [us', hop, if_true] at hj ⊢
          exact hj.2 _ rfl
        · simpa only [us', hop, if_false] using hj
      simp only [hcons] at hfits ⊢
      have hfits' : ∑ j, (numfp - (us' j).free) ≤ numfp := by
        refine (Finset.sum_le_sum fun j _ => ?_).trans hfits
        exact Nat.sub_le_sub_left (free_finalState _ _) numfp
      have hstep : (∀ j : Fin n, Calm j.val st op) ∧ Shared numfp (showStep st op).2 us' := by
        cases hop : callerOf op with
        | none =>
            have hsame : us' = us := by
              funext j
              simp [us', hop]
            rw [hsame]
            exact h.noCall hop
        | some i =>
            have hi := hbound op (List.mem_cons_self ..) i hop
            have hself := hcalm ⟨i, hi⟩
            rw [callsOf_cons, if_pos hop] at hself
            have hothers : ∀ j : Fin n, j ≠ ⟨i, hi⟩ → us' j = us j := fun j hj =>
              if_neg fun heq => hj (Fin.ext (Option.some.inj (heq.symm.trans hop)))
            rcases exec_caller hexec hop with ⟨c, hc⟩
            rcases h.call (i := ⟨i, hi⟩) hop hc hself.1 (if_pos hop) hothers hfits' with
              ⟨hcalms, hshared, _⟩
            exact ⟨hcalms, hshared⟩
      rcases ih hstep.2 (fun op' hop' => hbound op' (List.mem_cons_of_mem _ hop'))
        (by rw [hsys]; exact hrest) hcalm' hfits with ⟨halong, hshared, hend⟩
      refine ⟨fun j => ⟨hstep.1 j, fun t ht => ?_⟩, hshared, hend⟩
      exact Option.some.inj ht ▸ halong j

/-- A process is still there behind its call. -/
theorem caller_of_exec {s s' : PagingSys} {op : Op} (h : s.exec op = some s')
    (hop : callerOf op = some p) : ∃ c, s'.caller p = some c := by
  rcases Option.map_eq_some_iff.1 h with ⟨⟨ret, s₁⟩, hperform, rfl⟩
  cases op with
  | initMm | finish q => cases hop
  | _ =>
      obtain rfl := Option.some.inj hop
      rcases onProc_eq hperform with ⟨c, c', hc, _, rfl⟩
      exact ⟨c', caller_setCaller_self hc c'⟩

/-- Calls of one process that are defined alone are defined in company. -/
theorem Shared.defined {i : Fin n} {ops : List Op} : ∀ {st : State} {us : Fin n → State},
    Shared numfp st us → (∀ op ∈ ops, callerOf op = some i.val) →
    (∃ c, st.sys.caller i.val = some c) →
    Along advance (fun u op => Calm 0 u op ∧ (showStep u op).1 ≠ none) (us i) (ops.map asFirst) →
    ∑ j, (numfp - (Function.update us i (finalState showStep (us i) (ops.map asFirst)) j).free) ≤
      numfp →
    (runFn PagingSys.exec st.sys ops).isSome := by
  induction ops with
  | nil => exact fun _ _ _ _ _ => rfl
  | cons op ops ih =>
      intro st us h hby hthere hcalm hfits
      rcases hthere with ⟨c, hc⟩
      have hop := hby op (List.mem_cons_self ..)
      let us' := Function.update us i (showStep (us i) (asFirst op)).2
      have hself : us' i = (showStep (us i) (asFirst op)).2 := Function.update_self ..
      have hend : Function.update us i
          (finalState showStep (us i) ((op :: ops).map asFirst)) =
            Function.update us' i (finalState showStep (us' i) (ops.map asFirst)) := by
        rw [hself, Function.update_idem]
        rfl
      rw [hend] at hfits
      have hfits' : ∑ j, (numfp - (us' j).free) ≤ numfp := by
        refine (Finset.sum_le_sum fun j _ => Nat.sub_le_sub_left ?_ numfp).trans hfits
        by_cases hj : j = i
        · rw [hj, Function.update_self]
          exact free_finalState _ _
        · rw [Function.update_of_ne hj]
      rcases h.call hop hc hcalm.1.1 hself (fun j hj => Function.update_of_ne hj _ _) hfits' with
        ⟨_, hshared, hreport⟩
      have hnone : (showStep st op).1 ≠ none := by
        rw [hreport]
        exact hcalm.1.2
      rcases showStep_cases st op with heq | ⟨r, st', hexec, heq⟩
      · exact absurd (congrArg Prod.fst heq) hnone
      · rcases Option.map_eq_some_iff.1 hexec with ⟨s', hsys, rfl⟩
        rw [heq] at hshared
        rw [runFn, hsys, Option.bind_some]
        refine ih hshared (fun op' hop' => hby op' (List.mem_cons_of_mem _ hop'))
          (caller_of_exec hsys hop) ?_ hfits
        rw [hself]
        exact hcalm.2 _ rfl

/-- At the start, no process has taken a frame. -/
theorem shared_start {ramsz : Nat} (hram : ramsz / 256 ≤ 8192) (swpsz : Nat) (swpflg : Bool)
    (n : ℕ) : Shared (ramsz / 256) (start ramsz swpsz swpflg)
      (fun _ : Fin n => alone ramsz swpsz swpflg) := by
  have hfree : (Memphy.create ramsz true).freeFpList.length = ramsz / 256 := by
    rw [Memphy.create_freeFpList, List.length_range]
  have hstart : (start ramsz swpsz swpflg).free = ramsz / 256 := hfree
  have halone : (alone ramsz swpsz swpflg).free = ramsz / 256 := hfree
  refine ⟨fun i => company_start hram swpsz swpflg i.val, fun _ => halone.le, ?_⟩
  simp [hstart, halone]

end PrivateBytes
end MiniOs
