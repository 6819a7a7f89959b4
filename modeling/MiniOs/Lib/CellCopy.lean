import Mathlib.Logic.Function.Basic
import Mathlib.Tactic.Common

/-!
# CellCopy — copying cell by cell

A loop copies cell `src k` of a memory to cell `dst k`, for one `k` after the other.  If all these
cells are different (`CellsApart`), every cell gets what its source held before the loop
(`copyCells_dst`), and a copy in the other direction puts back what the sources have lost since
(`copyCells_back`).
-/

namespace MiniOs
namespace Lib

universe u v w

variable {κ : Type u} {P : Type v} {B : Type w}

/-- The cells that are read and written for `ks`: no two of them are the same. -/
structure CellsApart (src dst : κ → P) (ks : List κ) : Prop where
  apart : ∀ j ∈ ks, ∀ k ∈ ks, src j ≠ dst k
  src_inj : ∀ j ∈ ks, ∀ k ∈ ks, src j = src k → j = k
  dst_inj : ∀ j ∈ ks, ∀ k ∈ ks, dst j = dst k → j = k

theorem CellsApart.symm {src dst : κ → P} {ks : List κ} (h : CellsApart src dst ks) :
    CellsApart dst src ks :=
  ⟨fun j hj k hk heq => h.apart k hk j hj heq.symm, h.dst_inj, h.src_inj⟩

theorem CellsApart.tail {src dst : κ → P} {k : κ} {ks : List κ}
    (h : CellsApart src dst (k :: ks)) : CellsApart src dst ks where
  apart j hj i hi := h.apart j (List.mem_cons_of_mem k hj) i (List.mem_cons_of_mem k hi)
  src_inj j hj i hi := h.src_inj j (List.mem_cons_of_mem k hj) i (List.mem_cons_of_mem k hi)
  dst_inj j hj i hi := h.dst_inj j (List.mem_cons_of_mem k hj) i (List.mem_cons_of_mem k hi)

variable [DecidableEq P]

def copyCells (src dst : κ → P) (ks : List κ) (mem : P → B) : P → B :=
  ks.foldl (fun mem k => Function.update mem (dst k) (mem (src k))) mem

variable {src dst : κ → P} {ks : List κ} {mem mem' : P → B} {p : P}

theorem copyCells_cons (k : κ) : copyCells src dst (k :: ks) mem =
    copyCells src dst ks (Function.update mem (dst k) (mem (src k))) := rfl

/-- The frame rule: a cell that is not written keeps its value. -/
theorem copyCells_of_ne (h : ∀ k ∈ ks, p ≠ dst k) : copyCells src dst ks mem p = mem p := by
  induction ks generalizing mem with
  | nil => rfl
  | cons k ks ih =>
      rw [copyCells_cons, ih fun j hj => h j (List.mem_cons_of_mem k hj)]
      exact Function.update_of_ne (h k (List.mem_cons_self ..)) _ _

/-- A cell that is written gets what its source held before the loop. -/
theorem copyCells_dst (h : CellsApart src dst ks) {k : κ} (hk : k ∈ ks) :
    copyCells src dst ks mem (dst k) = mem (src k) := by
  induction ks generalizing mem with
  | nil => cases hk
  | cons i ks ih =>
      rw [copyCells_cons]
      by_cases hmem : k ∈ ks
      · -- the first cell that is written is no source
        rw [ih h.tail hmem]
        exact Function.update_of_ne (h.apart k hk i (List.mem_cons_self ..)) _ _
      · obtain rfl : k = i := (List.mem_cons.1 hk).resolve_right hmem
        have hlater : ∀ j ∈ ks, dst k ≠ dst j := by
          intro j hj heq
          exact hmem (h.dst_inj k hk j (List.mem_cons_of_mem k hj) heq ▸ hj)
        rw [copyCells_of_ne hlater]
        exact Function.update_self ..

/-- Copying back: if by then at most the sources have changed, everything is as it was, except for
the cells of the copy. -/
theorem copyCells_back (h : CellsApart src dst ks)
    (hkept : ∀ p, (∀ k ∈ ks, p ≠ src k) → mem' p = copyCells src dst ks mem p)
    (hp : ∀ k ∈ ks, p ≠ dst k) : copyCells dst src ks mem' p = mem p := by
  by_cases hsrc : ∃ k ∈ ks, p = src k
  · rcases hsrc with ⟨k, hk, rfl⟩
    have hcell : ∀ j ∈ ks, dst k ≠ src j := fun j hj => (h.apart j hj k hk).symm
    rw [copyCells_dst h.symm hk, hkept (dst k) hcell, copyCells_dst h hk]
  · have hne : ∀ k ∈ ks, p ≠ src k := fun k hk heq => hsrc ⟨k, hk, heq⟩
    rw [copyCells_of_ne hne, hkept p hne, copyCells_of_ne hp]

end Lib
end MiniOs
