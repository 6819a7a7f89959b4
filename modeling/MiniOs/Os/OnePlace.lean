import MiniOs.Os.Placement

/-!
# OnePlace — no process is ever in two places

The moves of `Placement` never duplicate a process and the configuration lists each PCB once, so
along every run, `killall` included, a process occurs at most once among the entries of all
ready levels and the current processes of all CPUs.
-/

namespace MiniOs
namespace Os

open Lib

variable {cfg : Config}

/-- The CPUs that hold `p`. -/
def holders (s : Os cfg) (p : Pcb) : Finset (Fin cfg.numCpus) :=
  Finset.univ.filter fun c => s.current c = some p

/-- `p` waits in a ready level or is the current process of a CPU. -/
def Held (s : Os cfg) (p : Pcb) : Prop := s.sched.Waiting p ∨ ∃ c, s.current c = some p

/-- Every process is in one place at most, and a freed one is in none. -/
structure OnePlace (s : Os cfg) : Prop where
  once : ∀ p, ∑ k, (s.sched.level k).count p + (s.holders p).card ≤ 1
  oneCpu : ∀ p c d, s.current c = some p → s.current d = some p → c = d
  notFreed : ∀ p ∈ s.freed, ¬ s.Held p

/-- What was freed in `s` is not held in `t`. -/
def NotAgain (s t : Os cfg) : Prop := ∀ p ∈ s.freed, ¬ t.Held p

theorem card_holders (s : Os cfg) (p : Pcb) :
    (s.holders p).card = ∑ c, (s.current c).toList.count p := by
  rw [holders, Finset.card_filter]
  refine Finset.sum_congr rfl fun c _ => ?_
  -- both sides count 1 for this CPU exactly when it holds `p`
  cases hcur : s.current c with
  | none => simp
  | some q =>
      by_cases hq : q = p
      · simp [hq]
      · simp [hq]

/-- The total of `Placement`, with the holders counted. -/
theorem total_places (s : Os cfg) (p : Pcb) :
    s.places.total p = ∑ k, (s.sched.level k).count p + (s.holders p).card + s.freed.count p +
      (cfg.procs.drop s.loader.i).count p := by
  rw [card_holders]
  rfl

theorem one_le_count_levels {s : Os cfg} {p : Pcb} (h : s.sched.Waiting p) :
    1 ≤ ∑ k, (s.sched.level k).count p := by
  rcases h with ⟨k, hk⟩
  calc
    1 ≤ (s.sched.level k).count p := List.one_le_count_iff.2 hk
    _ ≤ ∑ k, (s.sched.level k).count p :=
      Finset.single_le_sum (f := fun j => (s.sched.level j).count p) (fun _ _ => Nat.zero_le _)
        (Finset.mem_univ k)

theorem one_le_card_holders {s : Os cfg} {p : Pcb} {c : Fin cfg.numCpus}
    (h : s.current c = some p) : 1 ≤ (s.holders p).card :=
  Finset.card_pos.2 ⟨c, by simpa [holders] using h⟩

theorem held_pos {s : Os cfg} {p : Pcb} (h : s.Held p) :
    1 ≤ ∑ k, (s.sched.level k).count p + (s.holders p).card := by
  rcases h with hwait | ⟨c, hc⟩
  · have hlevels := one_le_count_levels hwait
    omega
  · have hholders := one_le_card_holders hc
    omega

/-- A waiting process is the process of no CPU. -/
theorem OnePlace.not_current {s : Os cfg} {p : Pcb} (h : s.OnePlace) (hwait : s.sched.Waiting p)
    (c : Fin cfg.numCpus) : s.current c ≠ some p := by
  intro hc
  have hlevels := one_le_count_levels hwait
  have hholders := one_le_card_holders hc
  have honce := h.once p
  omega

theorem mem_procs_of_held {s : Os cfg} {p : Pcb} (h : s.places.Counted) (hp : s.Held p) :
    p ∈ cfg.procs := by
  have hpos := held_pos hp
  have htotal := h p
  rw [total_places] at htotal
  exact List.one_le_count_iff.1 (by omega)

/-- The process of a CPU has been added and is not freed. -/
theorem added_of_current {s : Os cfg} {c : Fin cfg.numCpus} {p : Pcb} (h : s.places.Counted)
    (hc : s.current c = some p) : p ∈ cfg.procs.take s.loader.i ∧ p ∉ s.freed := by
  rcases cfg.count_take_add_drop s.loader.i p with ⟨hsplit, honce⟩
  have hheld := held_pos (s := s) (Or.inr ⟨c, hc⟩)
  have htotal := h p
  -- the CPU is the only place of `p`
  rw [total_places] at htotal
  refine ⟨List.one_le_count_iff.1 (by omega), fun hfreed => ?_⟩
  have := List.one_le_count_iff.2 hfreed
  omega

/-- The process that the loader adds next is neither added nor freed. -/
theorem fresh_of_next {s : Os cfg} {p : Pcb} (h : s.places.Counted)
    (hnext : cfg.procs[s.loader.i]? = some p) :
    p ∉ cfg.procs.take s.loader.i ∧ p ∉ s.freed := by
  rcases cfg.count_take_add_drop s.loader.i p with ⟨hsplit, honce⟩
  rcases List.getElem?_eq_some_iff.1 hnext with ⟨hlt, hp⟩
  have hdrop : 1 ≤ (cfg.procs.drop s.loader.i).count p := by
    rw [List.drop_eq_getElem_cons hlt, hp]
    simp
  have htotal := h p
  rw [total_places] at htotal
  refine ⟨fun htake => ?_, fun hfreed => ?_⟩
  · have := List.one_le_count_iff.2 htake
    omega
  · have := List.one_le_count_iff.2 hfreed
    omega

theorem onePlace_of_total_le {s : Os cfg} (h : ∀ p, s.places.total p ≤ 1) : s.OnePlace := by
  -- the total is at most 1, so two places would leave one of its terms too large
  have hcounts := fun p => total_places s p ▸ h p
  refine ⟨fun p => ?_, fun p c d hc hd => ?_, fun p hp hheld => ?_⟩
  · have := hcounts p
    omega
  · have hcard : (s.holders p).card ≤ 1 := by
      have := hcounts p
      omega
    exact Finset.card_le_one.1 hcard c (by simpa [holders] using hc) d
      (by simpa [holders] using hd)
  · have hfreed : 1 ≤ s.freed.count p := List.one_le_count_iff.2 hp
    have hpos := held_pos hheld
    have := hcounts p
    omega

theorem act_freed {s s' : Os cfg} {a : Action cfg} (h : s.act a = some s') :
    s.freed ⊆ s'.freed := by
  rcases act_places h with ⟨l, hmove⟩ | ⟨level', _, hplaces⟩
  · exact hmove.freed_subset
  · have hfreed : s'.freed = s.freed := congrArg Places.freed hplaces
    exact hfreed ▸ fun _ hp => hp

/-- Along every run of the threads and of the passes of `killall`, every process is in one place
at most, and once it has been freed it never waits or runs again. -/
theorem one_place (cfg : Config) (as : List (Action cfg)) :
    AllStates OnePlace (init cfg) (traceFn act (init cfg) as) ∧
      (init cfg :: (traceFn act (init cfg) as).map Prod.snd).Pairwise NotAgain := by
  rcases run_traceFn act (init cfg) as with ⟨t, hrun⟩
  have hinv : AllStates OnePlace (init cfg) (traceFn act (init cfg) as) := by
    -- the invariant: every process counts at most once in all places together
    have htotal := hrun.allStates (I := fun s => ∀ p, s.places.total p ≤ 1)
      (fun hs hact p => (act_total_le hact p).trans (hs p)) init_total_le
    exact ⟨onePlace_of_total_le htotal.1, fun x hx => onePlace_of_total_le (htotal.2 x hx)⟩
  refine ⟨hinv, ?_⟩
  -- PCBs stay freed, so what was freed once is in no place of any later state
  have hgrow := hrun.pairwise (R := fun s t => s.freed ⊆ t.freed)
    (fun h₁ h₂ => List.Subset.trans h₁ h₂) (fun hact => act_freed hact)
  refine hgrow.imp_of_mem fun {s t} _ ht hsub p hp => ?_
  have hplace : t.OnePlace := by
    rcases List.mem_cons.1 ht with rfl | ht
    · exact hinv.1
    · rcases List.mem_map.1 ht with ⟨x, hx, rfl⟩
      exact hinv.2 x hx
  exact hplace.notFreed p (hsub hp)

end Os
end MiniOs
