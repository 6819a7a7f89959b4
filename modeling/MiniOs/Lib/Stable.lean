import Mathlib.Data.List.Basic
import Mathlib.Data.List.Nodup
import Mathlib.Order.Lattice
import Mathlib.Tactic.Common

/-!
# Stable — waiting lines that serve the first one of the greatest priority

`Served prio xs x rest` says that `x` is the first of the entries of greatest priority of `xs`, and
`rest` the others in their order.  Two lines are served alike if they agree within each priority
(`SameClasses`), in whatever order they hold entries of different priorities.

A `LineLedger` is the history of such a line: who has entered, and who of them is still there.
`Step` is one call of the line, told by its ledger.
-/

namespace MiniOs
namespace Lib

universe u v

variable {α : Type u} {β : Type v} [LinearOrder β]

/-! ## The first of the greatest -/

def Served (prio : α → β) (xs : List α) (x : α) (rest : List α) : Prop :=
  ∃ pre post, xs = pre ++ x :: post ∧ rest = pre ++ post ∧ (∀ y ∈ pre, prio y < prio x) ∧
    ∀ y ∈ post, prio y ≤ prio x

/-- The entries of priority `n`, in their order. -/
def classOf (prio : α → β) (n : β) (xs : List α) : List α := xs.filter fun x => prio x = n

/-- The same entries in each priority, in the same order. -/
def SameClasses (prio : α → β) (xs ys : List α) : Prop := ∀ n, classOf prio n xs = classOf prio n ys

variable {prio : α → β} {xs ys : List α} {x y : α} {xs' ys' : List α}

@[simp] theorem classOf_append (n : β) (xs ys : List α) :
    classOf prio n (xs ++ ys) = classOf prio n xs ++ classOf prio n ys := List.filter_append ..

theorem classOf_singleton (n : β) (x : α) :
    classOf prio n [x] = if prio x = n then [x] else [] := by
  by_cases h : prio x = n <;> simp [classOf, h]

theorem mem_classOf {n : β} : x ∈ classOf prio n xs ↔ x ∈ xs ∧ prio x = n := by
  simp [classOf]

/-- The one that is served is the first of its class; the other classes stay as they are. -/
theorem Served.classOf (h : Served prio xs x xs') (n : β) :
    classOf prio n xs = classOf prio n [x] ++ classOf prio n xs' := by
  rcases h with ⟨pre, post, rfl, rfl, hpre, _⟩
  have hsplit : pre ++ x :: post = pre ++ ([x] ++ post) := rfl
  rw [hsplit, classOf_append, classOf_append, classOf_append, classOf_singleton]
  by_cases hn : prio x = n
  · -- nobody before `x` has its priority
    have hnone : Lib.classOf prio n pre = [] := by
      refine List.filter_eq_nil_iff.2 fun y hy => ?_
      have hlt := hpre y hy
      simpa [← hn] using hlt.ne
    rw [if_pos hn, hnone]
    rfl
  · rw [if_neg hn]
    rfl

theorem Served.mem (h : Served prio xs x xs') : x ∈ xs := by
  rcases h with ⟨pre, post, rfl, _⟩
  simp

theorem Served.le (h : Served prio xs x xs') (hy : y ∈ xs) : prio y ≤ prio x := by
  rcases h with ⟨pre, post, rfl, _, hpre, hpost⟩
  rcases List.mem_append.1 hy with hy | hy
  · exact (hpre y hy).le
  · rcases List.mem_cons.1 hy with rfl | hy
    · exact le_refl _
    · exact hpost y hy

/-! ## Lines that agree within each priority -/

theorem SameClasses.refl (prio : α → β) (xs : List α) : SameClasses prio xs xs := fun _ => rfl

theorem SameClasses.mem_iff (h : SameClasses prio xs ys) : x ∈ xs ↔ x ∈ ys := by
  have hclass := h (prio x)
  have hxs := @mem_classOf _ _ _ prio xs x (prio x)
  have hys := @mem_classOf _ _ _ prio ys x (prio x)
  rw [hclass] at hxs
  simpa using hxs.symm.trans hys

theorem SameClasses.append (h : SameClasses prio xs ys) (zs : List α) :
    SameClasses prio (xs ++ zs) (ys ++ zs) := by
  intro n
  rw [classOf_append, classOf_append, h n]

theorem SameClasses.filter (h : SameClasses prio xs ys) (keep : α → Bool) :
    SameClasses prio (xs.filter keep) (ys.filter keep) := by
  intro n
  -- the two tests may be made in either order
  have hswap : ∀ zs : List α, classOf prio n (zs.filter keep) = (classOf prio n zs).filter keep :=
    fun zs => List.filter_comm ..
  rw [hswap, hswap, h n]

/-- They serve the same entry, and agree afterwards. -/
theorem SameClasses.served (h : SameClasses prio xs ys) (hx : Served prio xs x xs')
    (hy : Served prio ys y ys') : x = y ∧ SameClasses prio xs' ys' := by
  have hprio : prio x = prio y :=
    le_antisymm (hy.le (h.mem_iff.1 hx.mem)) (hx.le (h.mem_iff.2 hy.mem))
  have hfirst := h (prio x)
  rw [hx.classOf, hy.classOf, classOf_singleton, classOf_singleton, if_pos rfl,
    if_pos hprio.symm] at hfirst
  obtain rfl : x = y := (List.cons.inj hfirst).1
  refine ⟨rfl, fun n => ?_⟩
  have hclass := h n
  rw [hx.classOf, hy.classOf] at hclass
  exact List.append_cancel_left hclass

/-! ## Ledgers -/

inductive LineOp (α : Type u)
  | enqueue (x : α)
  | dequeue

/-- Who has entered, in this order, and the numbers of those who have not left. -/
structure LineLedger (α : Type u) where
  entered : List α
  present : List ℕ
  increasing : present.Pairwise (· < ·)
  lt : ∀ k ∈ present, k < entered.length

namespace LineLedger

def start : LineLedger α := ⟨[], [], List.Pairwise.nil, fun _ hk => absurd hk List.not_mem_nil⟩

/-- Those who are there, in the order in which they have entered. -/
def contents (l : LineLedger α) : List α := l.present.filterMap fun k => l.entered[k]?

/-- `x` enters. -/
def enter (l : LineLedger α) (x : α) : LineLedger α where
  entered := l.entered ++ [x]
  present := l.present ++ [l.entered.length]
  increasing := List.pairwise_append.2 ⟨l.increasing, List.pairwise_singleton ..,
    fun j hj k hk => by
      rw [List.mem_singleton.1 hk]
      exact l.lt j hj⟩
  lt k hk := by
    rw [List.length_append, List.length_singleton]
    rcases List.mem_append.1 hk with hk | hk
    · exact Nat.lt_succ_of_lt (l.lt k hk)
    · rw [List.mem_singleton.1 hk]
      exact Nat.lt_succ_self _

/-- Number `k` leaves. -/
def leave (l : LineLedger α) (k : ℕ) : LineLedger α where
  entered := l.entered
  present := l.present.erase k
  increasing := l.increasing.sublist List.erase_sublist
  lt j hj := l.lt j (List.mem_of_mem_erase hj)

/-- A call of a line with room for `cap` entries, and the entry that it returns. -/
inductive Step (prio : α → β) (cap : ℕ) : LineLedger α → LineOp α → Option α → LineLedger α → Prop
  | enqueue {l : LineLedger α} (x : α) (hroom : l.present.length < cap) :
      Step prio cap l (.enqueue x) none (l.enter x)
  | dropped {l : LineLedger α} (x : α) (hfull : l.present.length = cap) :
      Step prio cap l (.enqueue x) none l
  | empty {l : LineLedger α} (hnone : l.present = []) : Step prio cap l .dequeue none l
  | dequeue {l : LineLedger α} {k : ℕ} {x : α} (hk : k ∈ l.present) (hx : l.entered[k]? = some x)
      (hfirst : ∀ j ∈ l.present, ∀ y, l.entered[j]? = some y →
        prio y < prio x ∨ prio y = prio x ∧ k ≤ j) :
      Step prio cap l .dequeue (some x) (l.leave k)

theorem contents_enter (l : LineLedger α) (x : α) : (l.enter x).contents = l.contents ++ [x] := by
  have hold : ∀ k ∈ l.present, (l.entered ++ [x])[k]? = l.entered[k]? :=
    fun k hk => List.getElem?_append_left (l.lt k hk)
  have hnew : (l.entered ++ [x])[l.entered.length]? = some x := by simp
  simp only [contents, enter, List.filterMap_append, List.filterMap_cons, List.filterMap_nil, hnew]
  rw [List.filterMap_congr hold]

theorem contents_length (l : LineLedger α) : l.contents.length = l.present.length := by
  have hsome : ∀ k ∈ l.present, (l.entered[k]?).isSome = true := by
    intro k hk
    rw [List.getElem?_eq_getElem (l.lt k hk)]
    rfl
  rw [contents, List.length_filterMap_eq_countP, List.countP_eq_length.2 hsome]

/-- The number of an entry divides the numbers as the entry divides the contents. -/
theorem present_split {l : LineLedger α} {pre post : List α} {x : α}
    (h : l.contents = pre ++ x :: post) : ∃ before k after, l.present = before ++ k :: after ∧
      l.entered[k]? = some x ∧ before.filterMap (fun j => l.entered[j]?) = pre ∧
      after.filterMap (fun j => l.entered[j]?) = post := by
  rcases List.filterMap_eq_append_iff.1 h with ⟨l₁, l₂, hpresent, hl₁, hl₂⟩
  rcases List.filterMap_eq_cons_iff.1 hl₂ with ⟨m, k, l₃, rfl, hm, hx, hl₃⟩
  refine ⟨l₁ ++ m, k, l₃, by simp [hpresent], hx, ?_, hl₃⟩
  rw [List.filterMap_append, hl₁, List.filterMap_eq_nil_iff.2 hm, List.append_nil]

/-- Serving the contents is a call of the line. -/
theorem step_of_served {l : LineLedger α} {x : α} {rest : List α} {cap : ℕ}
    (h : Served prio l.contents x rest) :
    ∃ k, Step prio cap l .dequeue (some x) (l.leave k) ∧ (l.leave k).contents = rest := by
  rcases h with ⟨pre, post, hcontents, rfl, hpre, hpost⟩
  rcases present_split hcontents with ⟨before, k, after, hpresent, hx, hbefore, hafter⟩
  have hk : k ∈ l.present := by simp [hpresent]
  have hincreasing := l.increasing
  rw [hpresent, List.pairwise_append, List.pairwise_cons] at hincreasing
  refine ⟨k, .dequeue hk hx fun j hj y hy => ?_, ?_⟩
  · rw [hpresent, List.mem_append, List.mem_cons] at hj
    rcases hj with hj | rfl | hj
    · -- an earlier entry has a smaller priority
      exact Or.inl (hpre y (hbefore ▸ List.mem_filterMap.2 ⟨j, hj, hy⟩))
    · obtain rfl : x = y := Option.some.inj (hx.symm.trans hy)
      exact Or.inr ⟨rfl, Nat.le_refl _⟩
    · -- a later one has none that is greater
      have hle := hpost y (hafter ▸ List.mem_filterMap.2 ⟨j, hj, hy⟩)
      rcases lt_or_eq_of_le hle with hlt | heq
      · exact Or.inl hlt
      · exact Or.inr ⟨heq, Nat.le_of_lt (hincreasing.2.1.1 j hj)⟩
  · have hnot : k ∉ before := fun hmem =>
      Nat.lt_irrefl k (hincreasing.2.2 k hmem k (List.mem_cons_self ..))
    have herase : l.present.erase k = before ++ after := by
      rw [hpresent, List.erase_append_right _ hnot, List.erase_cons_head]
    calc
      (l.leave k).contents = (l.present.erase k).filterMap fun j => l.entered[j]? := rfl
      _ = pre ++ post := by rw [herase, List.filterMap_append, hbefore, hafter]

end LineLedger

end Lib
end MiniOs
