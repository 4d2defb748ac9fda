import Mathlib.Data.List.Nodup
import Mathlib.Data.List.Pairwise

/-!
# Breadth-first searches

A search settles vertices one by one, each with its distance, and learns the edges of a vertex when it settles it. The
graph is what has been learnt in the end.

* `Chain`: a path from a root, of a length.
* `Searching`: the settled vertices and the queue; `skip`, `settle`: a turn of the search.
* **`Searching.shortest`**: at the end the distances are those of the shortest paths.
-/

namespace Lib.BreadthFirst

variable {V : Type*}

/-- A path of length `n` from a root. -/
inductive Chain (roots : List V) (edges : List (V × V)) : ℕ → V → Prop
  | root {v : V} : v ∈ roots → Chain roots edges 0 v
  | step {n : ℕ} {v w : V} : Chain roots edges n v → (v, w) ∈ edges → Chain roots edges (n + 1) w

/-- What has been settled, what is queued, and what is known of the graph. -/
structure Searching (roots : List V) (edges : List (V × V)) (settled queue : List (V × ℕ)) : Prop where
  nodup : (settled.map Prod.fst).Nodup
  sound : ∀ x ∈ settled ++ queue, Chain roots edges x.2 x.1
  roots : ∀ v ∈ roots, (v, 0) ∈ settled ++ queue
  edges : ∀ e ∈ edges, ∃ n, (e.1, n) ∈ settled ∧ ∃ m ≤ n + 1, (e.2, m) ∈ settled ++ queue
  sorted : (settled ++ queue).Pairwise fun x y => x.2 ≤ y.2
  near : ∀ y ∈ queue.head?, ∀ x ∈ queue, x.2 ≤ y.2 + 1

variable {roots : List V} {edges : List (V × V)} {settled queue : List (V × ℕ)} {v w : V} {n m : ℕ}

theorem Chain.mono {edges' : List (V × V)} (h : Chain roots edges n v) (hsub : edges ⊆ edges') :
    Chain roots edges' n v := by
  induction h with
  | root hv => exact .root hv
  | step _ he ih => exact ih.step (hsub he)

theorem searching_start : Searching roots [] [] (roots.map fun v => (v, 0)) where
  nodup := List.nodup_nil
  sound x hx := by
    obtain ⟨v, hv, rfl⟩ := List.mem_map.mp hx
    exact .root hv
  roots v hv := List.mem_map_of_mem hv
  edges e he := by cases he
  sorted := by
    rw [List.nil_append, List.pairwise_map]
    exact List.pairwise_of_forall fun _ _ => Nat.le_refl 0
  near y _ x hx := by
    obtain ⟨v, -, rfl⟩ := List.mem_map.mp hx
    exact Nat.zero_le _

namespace Searching

theorem near_tail (h : Searching roots edges settled ((v, n) :: queue)) :
    ∀ y ∈ queue.head?, ∀ x ∈ queue, x.2 ≤ y.2 + 1 := by
  intro y hy x hx
  have hx1 := h.near (v, n) rfl x (List.mem_cons_of_mem _ hx)
  have hy1 := (List.pairwise_append.mp h.sorted).2.1
  have := (List.pairwise_cons.mp hy1).1 y (List.mem_of_mem_head? hy)
  simp only at hx1 this
  omega

/-- A vertex that has been settled is passed over. -/
theorem skip (h : Searching roots edges settled ((v, n) :: queue)) (hv : (v, m) ∈ settled) :
    Searching roots edges settled queue := by
  have hle : m ≤ n := (List.pairwise_append.mp h.sorted).2.2 _ hv _ List.mem_cons_self
  -- what was queued as `v` is settled, and no later
  have hkeep : ∀ x ∈ settled ++ (v, n) :: queue, ∃ k ≤ x.2, (x.1, k) ∈ settled ++ queue := by
    intro x hx
    rcases List.mem_append.mp hx with hx | hx
    · exact ⟨x.2, Nat.le_refl _, List.mem_append_left _ hx⟩
    · rcases List.mem_cons.mp hx with rfl | hx
      · exact ⟨m, hle, List.mem_append_left _ hv⟩
      · exact ⟨x.2, Nat.le_refl _, List.mem_append_right _ hx⟩
  have hsub : settled ++ queue ⊆ settled ++ (v, n) :: queue := by
    intro x hx
    rcases List.mem_append.mp hx with hx | hx
    · exact List.mem_append_left _ hx
    · exact List.mem_append_right _ (List.mem_cons_of_mem _ hx)
  refine ⟨h.nodup, fun x hx => h.sound x (hsub hx), fun r hr => ?_, fun e he => ?_, ?_, h.near_tail⟩
  · obtain ⟨k, hk, hmem⟩ := hkeep _ (h.roots r hr)
    obtain rfl := Nat.le_zero.mp hk
    exact hmem
  · obtain ⟨k, hk, j, hj, hmem⟩ := h.edges e he
    obtain ⟨i, hi, hmem⟩ := hkeep _ hmem
    exact ⟨k, hk, i, Nat.le_trans hi hj, hmem⟩
  · exact h.sorted.sublist (List.Sublist.append_left (List.sublist_cons_self _ _) _)

/-- A new vertex is settled, and where its edges lead is queued. -/
theorem settle (h : Searching roots edges settled ((v, n) :: queue)) (hv : v ∉ settled.map Prod.fst) (ws : List V) :
    Searching roots (edges ++ ws.map fun w => (v, w)) (settled ++ [(v, n)]) (queue ++ ws.map fun w => (w, n + 1)) := by
  have hall : settled ++ [(v, n)] ++ (queue ++ ws.map fun w => (w, n + 1)) =
      settled ++ (v, n) :: queue ++ ws.map fun w => (w, n + 1) := by
    simp only [List.append_assoc, List.cons_append, List.nil_append]
  have hsub : edges ⊆ edges ++ ws.map fun w => (v, w) := List.subset_append_left _ _
  have hvn : Chain roots edges n v := h.sound (v, n) (List.mem_append_right _ List.mem_cons_self)
  have hmax : ∀ x ∈ settled ++ (v, n) :: queue, x.2 ≤ n + 1 := by
    intro x hx
    rcases List.mem_append.mp hx with hx | hx
    · exact Nat.le_succ_of_le ((List.pairwise_append.mp h.sorted).2.2 x hx (v, n) List.mem_cons_self)
    · exact h.near (v, n) rfl x hx
  refine ⟨?_, fun x hx => ?_, fun r hr => ?_, fun e he => ?_, ?_, fun y hy x hx => ?_⟩
  · rw [List.map_append, List.nodup_append]
    refine ⟨h.nodup, List.nodup_singleton _, ?_⟩
    rintro a ha b hb rfl
    obtain rfl : a = v := List.mem_singleton.mp hb
    exact hv ha
  · rw [hall] at hx
    rcases List.mem_append.mp hx with hx | hx
    · exact (h.sound x hx).mono hsub
    · obtain ⟨w, hw, rfl⟩ := List.mem_map.mp hx
      exact (hvn.mono hsub).step (List.mem_append_right _ (List.mem_map_of_mem hw))
  · rw [hall]
    exact List.mem_append_left _ (h.roots r hr)
  · rw [hall]
    rcases List.mem_append.mp he with he | he
    · obtain ⟨k, hk, j, hj, hmem⟩ := h.edges e he
      exact ⟨k, List.mem_append_left _ hk, j, hj, List.mem_append_left _ hmem⟩
    · obtain ⟨w, hw, rfl⟩ := List.mem_map.mp he
      exact ⟨n, List.mem_append_right _ (List.mem_singleton.mpr rfl), n + 1, Nat.le_refl _,
        List.mem_append_right _ (List.mem_map_of_mem hw)⟩
  · rw [hall, List.pairwise_append]
    refine ⟨h.sorted, ?_, fun x hx y hy => ?_⟩
    · rw [List.pairwise_map]
      exact List.pairwise_of_forall fun _ _ => Nat.le_refl _
    · obtain ⟨w, -, rfl⟩ := List.mem_map.mp hy
      exact hmax x hx
  · -- the head of the queue is no nearer than `v`
    have hx : x.2 ≤ n + 1 := by
      rcases List.mem_append.mp hx with hx | hx
      · exact hmax x (List.mem_append_right _ (List.mem_cons_of_mem _ hx))
      · obtain ⟨w, -, rfl⟩ := List.mem_map.mp hx
        exact Nat.le_refl _
    have hy : n ≤ y.2 := by
      rcases List.mem_append.mp (List.mem_of_mem_head? hy) with hy | hy
      · exact (List.pairwise_cons.mp (List.pairwise_append.mp h.sorted).2.1).1 y hy
      · obtain ⟨w, -, rfl⟩ := List.mem_map.mp hy
        exact Nat.le_succ n
    omega

/-- **At the end** what a path leads to has been settled, and no path to it is shorter than its distance. -/
theorem shortest (h : Searching roots edges settled []) :
    (∀ x ∈ settled, Chain roots edges x.2 x.1 ∧ ∀ k, Chain roots edges k x.1 → x.2 ≤ k) ∧
      ∀ k v, Chain roots edges k v → v ∈ settled.map Prod.fst := by
  have hreach : ∀ k v, Chain roots edges k v → ∃ n ≤ k, (v, n) ∈ settled := by
    intro k v hc
    induction hc with
    | root hv => exact ⟨0, Nat.zero_le _, by simpa using h.roots _ hv⟩
    | step _ he ih =>
      obtain ⟨n, hn, hmem⟩ := ih
      obtain ⟨n', hmem', m, hm, hw⟩ := h.edges _ he
      have := congrArg Prod.snd (List.inj_on_of_nodup_map h.nodup hmem hmem' rfl)
      simp only at this
      exact ⟨m, by omega, by simpa using hw⟩
  refine ⟨fun x hx => ⟨h.sound x (List.mem_append_left _ hx), fun k hk => ?_⟩, fun k v hk => ?_⟩
  · obtain ⟨n, hn, hmem⟩ := hreach k x.1 hk
    have := congrArg Prod.snd (List.inj_on_of_nodup_map h.nodup hx hmem rfl)
    simp only at this
    omega
  · obtain ⟨n, -, hmem⟩ := hreach k v hk
    exact List.mem_map_of_mem hmem

end Searching

end Lib.BreadthFirst
