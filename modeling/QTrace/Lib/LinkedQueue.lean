import Mathlib

/-! A queue threaded through a successor map. The nodes live in an array whose
entries carry one link each, so several queues can share the array: a queue is
only a head, a tail and a count, and pushing or popping on one of them rewrites
links of that queue alone. -/

namespace QTrace.Lib

variable {α : Type*}

/-- The handle of a linked queue. -/
structure LinkedQueue (α : Type*) where
  head : α
  tail : α
  count : ℕ

namespace LinkedQueue

/-- The nodes met by following the links from the head, `count` of them. -/
def nodes (next : α → α) (q : LinkedQueue α) : List α := List.iterate next q.head q.count

/-- The queue's links run through exactly the distinct nodes `xs`, end in `nil`,
and the tail is the last of them, or `nil` when there is none. -/
structure Threads (next : α → α) (nil : α) (q : LinkedQueue α) (xs : List α) : Prop where
  nodes_eq : q.nodes next = xs
  tail_eq : q.tail = xs.getLast?.getD nil
  last_link : ∀ x ∈ xs.getLast?, next x = nil
  nodup : xs.Nodup
  nil_notMem : nil ∉ xs

theorem length_nodes (next : α → α) (q : LinkedQueue α) : (q.nodes next).length = q.count := by
  simp [nodes]

variable {next next' : α → α} {q : LinkedQueue α} {xs : List α} {nil : α}

theorem Threads.length_eq (h : Threads next nil q xs) : xs.length = q.count := by
  rw [← h.nodes_eq, length_nodes]

/-- A walk uses the links of every node it visits except the last. -/
theorem iterate_succ_congr : ∀ (n : ℕ) (a : α),
    (∀ x ∈ List.iterate next a n, next' x = next x) →
      List.iterate next' a (n + 1) = List.iterate next a (n + 1)
  | 0, _, _ => rfl
  | n + 1, a, h => by
    have h0 : next' a = next a := h a (by simp [List.iterate])
    have ih := iterate_succ_congr n (next a) (fun x hx => h x (by simp [List.iterate, hx]))
    rw [List.iterate, h0, ih, ← List.iterate]

theorem iterate_snoc {n : ℕ} {a y : α} {ys : List α} (h : List.iterate next a (n + 1) = ys ++ [y]) :
    List.iterate next a (n + 2) = ys ++ [y] ++ [next y] := by
  have hlast := h
  rw [List.iterate_add] at hlast
  obtain ⟨-, hy⟩ := List.append_inj' hlast rfl
  have hy : next^[n] a = y := by simpa [List.iterate] using hy
  rw [List.iterate_add next a (n + 1) 1, h, ← hy]
  simp only [List.iterate, Function.iterate_succ_apply']

theorem nodes_congr (h : ∀ x ∈ q.nodes next, next' x = next x) : q.nodes next' = q.nodes next := by
  unfold nodes at h ⊢
  cases hc : q.count with
  | zero => rfl
  | succ n =>
    refine iterate_succ_congr n q.head fun x hx => h x ?_
    rw [hc, List.iterate_add]
    exact List.mem_append_left _ hx

theorem Threads.frame (h : Threads next nil q xs) (hn : ∀ x ∈ xs, next' x = next x) :
    Threads next' nil q xs where
  nodes_eq := by
    rw [nodes_congr (by rwa [h.nodes_eq]), h.nodes_eq]
  tail_eq := h.tail_eq
  last_link x hx := by rw [hn x (List.mem_of_mem_getLast? hx), h.last_link x hx]
  nodup := h.nodup
  nil_notMem := h.nil_notMem

theorem threads_nil (next : α → α) (nil head : α) : Threads next nil ⟨head, nil, 0⟩ [] where
  nodes_eq := rfl
  tail_eq := rfl
  last_link := by simp
  nodup := List.nodup_nil
  nil_notMem := List.not_mem_nil

theorem Threads.tail_eq_nil_iff (h : Threads next nil q xs) : q.tail = nil ↔ xs = [] := by
  rw [h.tail_eq]
  rcases List.eq_nil_or_concat xs with rfl | ⟨ys, y, rfl⟩
  · simp
  · have hy : nil ≠ y := fun e => h.nil_notMem (by simp [e])
    simp [hy.symm]

section Push

variable [DecidableEq α]

/-- The links after `x` is appended behind the tail. -/
def pushNext (next : α → α) (nil : α) (q : LinkedQueue α) (x : α) : α → α :=
  if q.tail = nil then Function.update next x nil
  else Function.update (Function.update next x nil) q.tail x

/-- The handle after `x` is appended. -/
def push (nil : α) (q : LinkedQueue α) (x : α) : LinkedQueue α where
  head := if q.tail = nil then x else q.head
  tail := x
  count := q.count + 1

variable {x : α}

theorem pushNext_self (h : x ≠ q.tail) : pushNext next nil q x x = nil := by
  unfold pushNext
  split_ifs <;> simp [h]

theorem pushNext_of_ne {y : α} (hx : y ≠ x) (ht : y ≠ q.tail) : pushNext next nil q x y = next y := by
  unfold pushNext
  split_ifs <;> simp [hx, ht]

theorem Threads.push (h : Threads next nil q xs) (hx : x ∉ xs) (hn : x ≠ nil) :
    Threads (pushNext next nil q x) nil (q.push nil x) (xs ++ [x]) where
  nodes_eq := by
    rcases List.eq_nil_or_concat xs with rfl | ⟨ys, y, rfl⟩
    · have hc : q.count = 0 := h.length_eq.symm
      have ht : q.tail = nil := h.tail_eq_nil_iff.2 rfl
      simp [nodes, LinkedQueue.push, hc, ht, List.iterate]
    · rw [List.concat_eq_append] at h hx ⊢
      -- the old walk is kept up to its last node `y`, whose link now leads to `x`
      have hc : q.count = ys.length + 1 := by simpa using h.length_eq.symm
      have ht : q.tail = y := by simpa using h.tail_eq
      have hne : y ≠ nil := fun e => h.nil_notMem (by simp [e])
      have hw : List.iterate next q.head (ys.length + 1) = ys ++ [y] := by
        rw [← hc]; exact h.nodes_eq
      have hys : List.iterate next q.head ys.length = ys := by
        rw [List.iterate_add] at hw
        exact (List.append_inj' hw rfl).1
      have hold : List.iterate (pushNext next nil q x) q.head (ys.length + 1) = ys ++ [y] := by
        rw [← hw]
        refine iterate_succ_congr _ _ fun z hz => ?_
        rw [hys] at hz
        have hzy : z ≠ y := by
          rintro rfl
          exact (List.nodup_append.1 h.nodup).2.2 z hz z (by simp) rfl
        exact pushNext_of_ne (fun e => hx (by simp [← e, hz])) (ht ▸ hzy)
      have hlink : pushNext next nil q x y = x := by simp [pushNext, ht, hne]
      have hwalk := iterate_snoc hold
      rw [hlink] at hwalk
      simpa [nodes, LinkedQueue.push, ht, hne, hc] using hwalk
  tail_eq := by simp [LinkedQueue.push]
  last_link := by
    simp only [List.getLast?_append, List.getLast?_singleton, Option.some_or, Option.mem_def,
      Option.some.injEq, forall_eq']
    refine pushNext_self fun e => ?_
    rcases List.eq_nil_or_concat xs with rfl | ⟨ys, y, rfl⟩
    · exact hn (e.trans (h.tail_eq_nil_iff.2 rfl))
    · exact hx (by rw [e, h.tail_eq]; simp)
  nodup := by
    rw [List.nodup_append]
    exact ⟨h.nodup, List.nodup_singleton x, by
      simpa using fun a ha (e : a = x) => hx (e ▸ ha)⟩
  nil_notMem := by simpa [hn.symm] using h.nil_notMem

end Push

/-- Dropping the head of a queue with another node behind it. -/
def pop (next : α → α) (q : LinkedQueue α) : LinkedQueue α where
  head := next q.head
  tail := q.tail
  count := q.count - 1

theorem Threads.head_eq {x : α} (h : Threads next nil q (x :: xs)) : q.head = x := by
  have hn := h.nodes_eq
  rw [nodes, ← h.length_eq, List.length_cons, List.iterate] at hn
  exact (List.cons.inj hn).1

theorem Threads.pop {x : α} (h : Threads next nil q (x :: xs)) (hxs : xs ≠ []) :
    Threads next nil (q.pop next) xs where
  nodes_eq := by
    have hn := h.nodes_eq
    rw [nodes, ← h.length_eq, List.length_cons, List.iterate] at hn
    simpa [nodes, LinkedQueue.pop, ← h.length_eq] using (List.cons.inj hn).2
  tail_eq := by
    rw [LinkedQueue.pop, h.tail_eq, List.getLast?_cons_of_ne_nil hxs]
  last_link y hy := h.last_link y (by rwa [List.getLast?_cons_of_ne_nil hxs])
  nodup := (List.nodup_cons.1 h.nodup).2
  nil_notMem hm := h.nil_notMem (List.mem_cons_of_mem _ hm)

end LinkedQueue

end QTrace.Lib
