import MiniOs.Common

/-!
# Queue — the bounded queues of `queue.c`

A `queue_t` is an array of at most `MAX_QUEUE_SIZE` process pointers.  `enqueue` appends and
silently ignores the request on a full queue; `dequeue` takes out the entry of greatest default
priority (the first one of several) and shifts the rest.

The entries are generic: `dequeue` only looks at their `priority` field, given as a function.
-/

namespace MiniOs

/-- `struct queue_t`: the first `size` slots of the array, never more than `MAX_QUEUE_SIZE`. -/
@[ext] structure QueueT (α : Type) where
  proc : List α
  size_le : proc.length ≤ maxQueueSize

namespace QueueT

variable {α : Type}

/-- The queue with `size = 0`. -/
def nil : QueueT α := ⟨[], Nat.zero_le _⟩

@[simp] theorem nil_proc : (nil : QueueT α).proc = [] := rfl

def size (q : QueueT α) : Nat := q.proc.length

def empty (q : QueueT α) : Bool := q.size == 0

@[simp] theorem empty_iff {q : QueueT α} : q.empty = true ↔ q.proc = [] := by
  simp [empty, size]

@[simp] theorem empty_eq_false_iff {q : QueueT α} : q.empty = false ↔ q.proc ≠ [] := by
  simp [← Bool.not_eq_true]

/-! ## enqueue -/

def enqueue (q : QueueT α) (p : α) : QueueT α :=
  if h : maxQueueSize ≤ q.size then
    -- the request is dropped, and the caller is not told
    q
  else
    ⟨q.proc ++ [p], by simp [size] at h ⊢; omega⟩

theorem enqueue_of_full {q : QueueT α} {p : α} (h : maxQueueSize ≤ q.size) :
    q.enqueue p = q := by
  simp [enqueue, h]

theorem enqueue_proc_of_lt {q : QueueT α} {p : α} (h : q.size < maxQueueSize) :
    (q.enqueue p).proc = q.proc ++ [p] := by
  simp [enqueue, Nat.not_le.2 h]

/-! ## dequeue -/

section Dequeue

variable (priority : α → Nat)

/-- The scan of `dequeue` from slot `i` on: `best` is `best_index` and `p` its entry. -/
def bestIndexFrom (best : Nat) (p : α) (i : Nat) : List α → Nat
  | [] => best
  | x :: xs =>
      -- the comparison is strict, so the first of several greatest entries stays the best
      if priority x > priority p then bestIndexFrom i x (i + 1) xs
      else bestIndexFrom best p (i + 1) xs

def bestIndex : List α → Nat
  | [] => 0
  | p :: ps => bestIndexFrom priority 0 p 1 ps

/-- The returned entry and the queue without it; `none` is the `NULL` of an empty queue. -/
def dequeue (q : QueueT α) : Option (α × QueueT α) :=
  match q.proc[bestIndex priority q.proc]? with
  | none => none
  | some selected =>
      some (selected, ⟨q.proc.eraseIdx (bestIndex priority q.proc),
        Nat.le_trans (List.length_eraseIdx_le ..) q.size_le⟩)

/-- The scan splits the array at the first entry of greatest priority, provided the slots
before `i` are already split so. -/
theorem bestIndexFrom_spec (xs : List α) : ∀ (pre mid : List α) (p : α),
    (∀ x ∈ pre, priority x < priority p) → (∀ x ∈ mid, priority x ≤ priority p) →
    ∃ pre' post' p',
      pre ++ p :: mid ++ xs = pre' ++ p' :: post' ∧
      bestIndexFrom priority pre.length p (pre ++ p :: mid).length xs = pre'.length ∧
      (∀ x ∈ pre', priority x < priority p') ∧ (∀ x ∈ post', priority x ≤ priority p') := by
  induction xs with
  | nil =>
      -- the scan is over: `p` splits the array
      intro pre mid p hpre hmid
      exact ⟨pre, mid, p, by simp, rfl, hpre, hmid⟩
  | cons x xs ih =>
      intro pre mid p hpre hmid
      by_cases hx : priority x > priority p
      · -- a strictly greater entry: everything scanned so far now lies before the best one
        have hpre' : ∀ y ∈ pre ++ p :: mid, priority y < priority x := by
          intro y hy
          rcases List.mem_append.1 hy with hy | hy
          · exact Nat.lt_trans (hpre y hy) hx
          · rcases List.mem_cons.1 hy with rfl | hy
            · exact hx
            · exact Nat.lt_of_le_of_lt (hmid y hy) hx
        rcases ih (pre ++ p :: mid) [] x hpre' (by simp) with
          ⟨pre', post', p', heq, hidx, h₁, h₂⟩
        refine ⟨pre', post', p', ?_, ?_, h₁, h₂⟩
        · simpa using heq
        · simpa [bestIndexFrom, hx, Nat.add_assoc] using hidx
      · -- `p` stays the best, with one more entry behind it
        have hmid' : ∀ y ∈ mid ++ [x], priority y ≤ priority p := by
          intro y hy
          rcases List.mem_append.1 hy with hy | hy
          · exact hmid y hy
          · rw [List.mem_singleton.1 hy]
            exact Nat.not_lt.1 hx
        rcases ih pre (mid ++ [x]) p hpre hmid' with
          ⟨pre', post', p', heq, hidx, h₁, h₂⟩
        refine ⟨pre', post', p', ?_, ?_, h₁, h₂⟩
        · simpa using heq
        · simpa [bestIndexFrom, hx, Nat.add_assoc] using hidx

/-- What `dequeue` does to a nonempty queue: it splits at the first entry of greatest
priority, returns that entry and closes the gap. -/
theorem dequeue_of_ne_nil {q : QueueT α} (h : q.proc ≠ []) :
    ∃ pre p post q',
      q.dequeue priority = some (p, q') ∧ q.proc = pre ++ p :: post ∧ q'.proc = pre ++ post ∧
      (∀ x ∈ pre, priority x < priority p) ∧ (∀ x ∈ post, priority x ≤ priority p) := by
  rcases List.exists_cons_of_ne_nil h with ⟨x, xs, hq⟩
  -- the scan starts at slot 1 with slot 0 as the best so far
  rcases bestIndexFrom_spec priority xs [] [] x (by simp) (by simp) with
    ⟨pre, post, p, heq, hidx, h₁, h₂⟩
  have hproc : q.proc = pre ++ p :: post := by
    rw [hq]
    simpa using heq
  have hbest : bestIndex priority q.proc = pre.length := by
    rw [hq]
    simpa [bestIndex] using hidx
  refine ⟨pre, p, post, ⟨pre ++ post, ?_⟩, ?_, hproc, rfl, h₁, h₂⟩
  · have hlen := q.size_le
    simp [hproc] at hlen ⊢
    omega
  · -- the entry read and the gap closed are both at the index of `p`
    have hget : q.proc[bestIndex priority q.proc]? = some p := by
      rw [hbest, hproc]
      simp
    have herase : q.proc.eraseIdx (bestIndex priority q.proc) = pre ++ post := by
      rw [hbest, hproc, List.eraseIdx_append_of_length_le (Nat.le_refl _)]
      simp
    simp only [dequeue, hget]
    congr 3

variable {priority}

theorem dequeue_eq_none_iff {q : QueueT α} : q.dequeue priority = none ↔ q.proc = [] := by
  constructor
  · intro h
    by_contra hne
    rcases dequeue_of_ne_nil priority hne with ⟨_, _, _, _, hsome, _⟩
    rw [h] at hsome
    cases hsome
  · intro h
    simp [dequeue, bestIndex, h]

/-- The one fact later proofs use about a successful `dequeue`. -/
theorem dequeue_spec {q q' : QueueT α} {p : α} (h : q.dequeue priority = some (p, q')) :
    ∃ pre post, q.proc = pre ++ p :: post ∧ q'.proc = pre ++ post ∧
      (∀ x ∈ pre, priority x < priority p) ∧ (∀ x ∈ post, priority x ≤ priority p) := by
  have hne : q.proc ≠ [] := by
    intro hnil
    rw [dequeue_eq_none_iff.2 hnil] at h
    cases h
  rcases dequeue_of_ne_nil priority hne with ⟨pre, p₁, post, q₁, hd, hspec⟩
  rw [hd] at h
  cases h
  exact ⟨pre, post, hspec⟩

/-- `dequeue` serves the oldest entry when no other has a greater default priority. -/
theorem dequeue_oldest {q q' : QueueT α} {p x : α} {xs : List α}
    (h : q.dequeue priority = some (p, q')) (hq : q.proc = x :: xs)
    (hall : ∀ y ∈ xs, priority y ≤ priority x) : p = x ∧ q'.proc = xs := by
  rcases dequeue_spec h with ⟨pre, post, hproc, hrest, hpre, _⟩
  rw [hq] at hproc
  -- an entry before the served one would have a smaller priority, but the oldest has none
  cases pre with
  | nil =>
      obtain ⟨rfl, rfl⟩ : x = p ∧ xs = post := by simpa using hproc
      exact ⟨rfl, by simpa using hrest⟩
  | cons y pre =>
      obtain ⟨rfl, rfl⟩ : x = y ∧ xs = pre ++ p :: post := by simpa using hproc
      exact absurd (hall p (by simp)) (Nat.not_le.2 (hpre x (by simp)))

/-- Otherwise it passes the oldest entry over. -/
theorem dequeue_ne_oldest {q q' : QueueT α} {p x y : α} {xs : List α}
    (h : q.dequeue priority = some (p, q')) (hq : q.proc = x :: xs) (hy : y ∈ xs)
    (hxy : priority x < priority y) : p ≠ x := by
  rcases dequeue_spec h with ⟨pre, post, hproc, _, hpre, hpost⟩
  rw [hq] at hproc
  rintro rfl
  -- were the oldest served, nothing behind it could have a greater priority
  cases pre with
  | nil =>
      have hxs : xs = post := by simpa using hproc
      exact absurd (hpost y (hxs ▸ hy)) (Nat.not_le.2 hxy)
  | cons z pre =>
      have hz : p = z := (List.cons.inj hproc).1
      exact absurd (hpre z (by simp)) (by simp [hz])

end Dequeue

end QueueT

end MiniOs
