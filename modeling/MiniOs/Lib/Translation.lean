import Mathlib.Logic.Function.Basic

/-!
# Translation — private memories behind one physical memory

Several owners read and write one physical memory through a partial translation of their own
addresses.  If the translation never maps two addresses to one cell (`Exclusive`), the physical
memory *backs* a private memory of each owner: writes are stores (`Backs.write`), and new
translations may be added as long as the cells behind them hold what they should
(`Backs.extend`).  `Serves` collects this for private memories that begin with zeros, with a rule
for each of the three things that happen: a write, new translations, the end of an owner.
-/

namespace MiniOs
namespace Lib

universe u₁ u₂ u₃ u₄

variable {ι : Type u₁} {V : Type u₂} {P : Type u₃} {B : Type u₄}

/-- No cell is behind two addresses, of one owner or of two. -/
def Exclusive (tr : ι → V → Option P) : Prop :=
  ∀ i j a b p, tr i a = some p → tr j b = some p → i = j ∧ a = b

/-- `tr'` translates whatever `tr` does, in the same way. -/
def Extends (tr tr' : ι → V → Option P) : Prop :=
  ∀ i a p, tr i a = some p → tr' i a = some p

/-- What an owner reads at an address, if it is translated. -/
def readThrough (phys : P → B) (tr : ι → V → Option P) (i : ι) (a : V) : Option B :=
  (tr i a).map phys

/-- The physical memory holds, behind every translated address, the owner's private byte. -/
def Backs (phys : P → B) (tr : ι → V → Option P) (mem : ι → V → B) : Prop :=
  ∀ i a p, tr i a = some p → phys p = mem i a

theorem Backs.readThrough {phys : P → B} {tr : ι → V → Option P} {mem : ι → V → B}
    (h : Backs phys tr mem) (i : ι) (a : V) :
    readThrough phys tr i a = (tr i a).map fun _ => mem i a := by
  unfold Lib.readThrough
  cases htr : tr i a with
  | none => rfl
  | some p => simp [h i a p htr]

/-- New translations lead to cells that hold the owner's private byte already. -/
theorem Backs.extend {phys : P → B} {tr tr' : ι → V → Option P} {mem : ι → V → B}
    (h : Backs phys tr mem)
    (hnew : ∀ i a p, tr' i a = some p → tr i a = some p ∨ phys p = mem i a) :
    Backs phys tr' mem := by
  intro i a p htr
  -- an old translation is backed already, a new one by the condition
  rcases hnew i a p htr with hold | heq
  · exact h i a p hold
  · exact heq

theorem readThrough_extend {phys : P → B} {tr tr' : ι → V → Option P} (h : Extends tr tr')
    {i : ι} {a : V} {b : B} (hread : readThrough phys tr i a = some b) :
    readThrough phys tr' i a = some b := by
  rcases Option.map_eq_some_iff.1 hread with ⟨p, hp, rfl⟩
  simp [readThrough, h i a p hp]

variable [DecidableEq ι] [DecidableEq V] [DecidableEq P]

/-- A store into the private memory of one owner. -/
def store (mem : ι → V → B) (i : ι) (a : V) (b : B) : ι → V → B :=
  Function.update mem i (Function.update (mem i) a b)

@[simp] theorem store_self (mem : ι → V → B) (i : ι) (a : V) (b : B) :
    store mem i a b i a = b := by
  simp [store]

theorem store_of_ne (mem : ι → V → B) {i j : ι} {a c : V} (b : B) (h : ¬ (j = i ∧ c = a)) :
    store mem i a b j c = mem j c := by
  -- another owner, or the same owner at another address
  by_cases hj : j = i
  · subst hj
    have hc : c ≠ a := fun heq => h ⟨rfl, heq⟩
    simp [store, Function.update_of_ne hc]
  · simp [store, Function.update_of_ne hj]

theorem Backs.write {phys : P → B} {tr : ι → V → Option P} {mem : ι → V → B}
    (h : Backs phys tr mem) (hex : Exclusive tr) {i : ι} {a : V} {p : P} (htr : tr i a = some p)
    (b : B) : Backs (Function.update phys p b) tr (store mem i a b) := by
  intro j c q hq
  -- the cell written to is behind the one address stored to, and no other
  by_cases hsame : j = i ∧ c = a
  · rcases hsame with ⟨rfl, rfl⟩
    obtain rfl := Option.some.inj (htr.symm.trans hq)
    simp
  · have hqp : q ≠ p := by
      rintro rfl
      exact hsame (hex j i c a q hq htr)
    rw [store_of_ne mem b hsame, Function.update_of_ne hqp]
    exact h j c q hq

omit [DecidableEq ι] [DecidableEq V] in
/-- A write behind one address does not change what is read at the others. -/
theorem readThrough_write_apart {phys : P → B} {tr : ι → V → Option P} (hex : Exclusive tr)
    {i j : ι} {a c : V} {p : P} (htr : tr i a = some p) (b : B) (h : ¬ (j = i ∧ c = a)) :
    readThrough (Function.update phys p b) tr j c = readThrough phys tr j c := by
  unfold readThrough
  cases hq : tr j c with
  | none => rfl
  | some q =>
      have hqp : q ≠ p := by
        rintro rfl
        exact h (hex j i c a q hq htr)
      simp [Function.update_of_ne hqp]

omit [DecidableEq ι] [DecidableEq V] in
/-- A write of one owner does not change what another one reads. -/
theorem readThrough_write_of_ne {phys : P → B} {tr : ι → V → Option P} (hex : Exclusive tr)
    {i j : ι} {a : V} {p : P} (htr : tr i a = some p) (b : B) (hji : j ≠ i) (c : V) :
    readThrough (Function.update phys p b) tr j c = readThrough phys tr j c :=
  readThrough_write_apart hex htr b fun hboth => hji hboth.1

/-! ## Private memories -/

/-- The private memories behind the stores of a log, the last one first. -/
def replay (zero : B) (log : List (ι × V × B)) : ι → V → B :=
  log.foldr (fun entry mem => store mem entry.1 entry.2.1 entry.2.2) fun _ _ => zero

/-- The physical memory serves as the private memories `mem`, which hold `zero` wherever an owner
who may still get translations has none. -/
structure Serves (phys : P → B) (tr : ι → V → Option P) (zero : B) (live : ι → Prop)
    (mem : ι → V → B) : Prop where
  exclusive : Exclusive tr
  backs : Backs phys tr mem
  untouched : ∀ i a, live i → tr i a = none → mem i a = zero

namespace Serves

variable {phys : P → B} {tr tr' : ι → V → Option P} {zero : B} {live live' : ι → Prop}
  {mem : ι → V → B}

theorem write (h : Serves phys tr zero live mem) {i : ι} {a : V} {p : P} (htr : tr i a = some p)
    (b : B) : Serves (Function.update phys p b) tr zero live (store mem i a b) where
  exclusive := h.exclusive
  backs := h.backs.write h.exclusive htr b
  untouched j c hj hnone := by
    have hne : ¬ (j = i ∧ c = a) := by
      rintro ⟨rfl, rfl⟩
      simp [htr] at hnone
    rw [store_of_ne mem b hne]
    exact h.untouched j c hj hnone

omit [DecidableEq ι] [DecidableEq V] [DecidableEq P] in
/-- New translations of live owners lead to cells that hold `zero`. -/
theorem extend (h : Serves phys tr zero live mem) (hex : Exclusive tr')
    (hkeeps : Extends tr tr') (hfresh : ∀ i a p, tr' i a = some p →
      tr i a = some p ∨ live i ∧ tr i a = none ∧ phys p = zero) :
    Serves phys tr' zero live mem where
  exclusive := hex
  backs := by
    refine h.backs.extend fun i a p hp => (hfresh i a p hp).imp_right fun hnew => ?_
    exact hnew.2.2.trans (h.untouched i a hnew.1 hnew.2.1).symm
  untouched i a hi hnone := by
    refine h.untouched i a hi ?_
    by_contra hsome
    rcases Option.ne_none_iff_exists'.1 hsome with ⟨p, hp⟩
    rw [hkeeps i a p hp] at hnone
    cases hnone

omit [DecidableEq ι] [DecidableEq V] [DecidableEq P] in
/-- An owner who is not live any more may lose its translations. -/
theorem drop (h : Serves phys tr zero live mem) (hkept : ∀ i a p, tr' i a = some p →
      tr i a = some p) (hlive : ∀ i, live' i → live i ∧ tr' i = tr i) :
    Serves phys tr' zero live' mem where
  exclusive i j a c p ha hc := h.exclusive i j a c p (hkept i a p ha) (hkept j c p hc)
  backs i a p hp := h.backs i a p (hkept i a p hp)
  untouched i a hi hnone := by
    rcases hlive i hi with ⟨hlive, heq⟩
    exact h.untouched i a hlive (heq ▸ hnone)

end Serves

end Lib
end MiniOs
