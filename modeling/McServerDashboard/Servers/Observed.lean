import Mathlib.Tactic.ByContra
import McServerDashboard.Servers.Row

/-!
# The observed state of a row

Every write of `observed_state` and of the assignment of one row, in any order and any number of times: the reports of
the Workers, the convergence writes of the lifecycle flows, the disconnects, the startup resets and the writes that move
the assignment. Each carries the time it is stamped with.

* `Write.apply`: one write.
* `Seen`: the row, with the reports since the last write of the API (a ghost).
* **`observed_kept`**: which writes may lower `observed_at`, whose observations are applied, and which one stands.
-/

namespace McServerDashboard.Servers.Observed

open Lifecycle

inductive Write
  /-- The sink, with the assignment it has read before its write. -/
  | report (read : Option WorkerId) (w : WorkerId) (o : ObservedState) (at' : ℕ)
  /-- A lifecycle flow, after the answer of the Worker. -/
  | converge (w : WorkerId) (o : ObservedState) (at' : ℕ) (unassign : Bool)
  | disconnect (w : WorkerId) (at' : ℕ)
  | reset (at' : ℕ)
  | lifecycle (entity : Row) (expected_from : DesiredState) (require_unassigned : Bool)
  | clear (w : WorkerId)

namespace Write

/-- One write; where its conditions fail the row stays. -/
def apply (r : Row) : Write → Row
  | report read w o at' => if read = some w then (r.recordObservedState o at' false w).getD r else r
  | converge w o at' unassign => (r.recordObservedState o at' unassign w).getD r
  | disconnect w at' => r.markWorkerServersUnknown w at'
  | reset at' => r.resetUnverifiableObservedStates at'
  | lifecycle entity expected_from require_unassigned =>
    (r.updateLifecycle entity expected_from require_unassigned).getD r
  | clear w => (r.clearAssignmentAfterFinalSnapshot w).getD r

/-- The writes that make a state less certain, which no time holds back. -/
def Invalidates : Write → Prop
  | disconnect _ _ | reset _ => True
  | _ => False

/-- The time that the write carries. -/
def time : Write → Option ℕ
  | report _ _ _ at' | converge _ _ at' _ | disconnect _ at' | reset at' => some at'
  | lifecycle _ _ _ | clear _ => none

/-- The write matches the row, and sets what was observed. -/
def Records (r : Row) : Write → Prop
  | report read w o at' => read = some w ∧ (r.recordObservedState o at' false w).isSome
  | converge w o at' unassign => (r.recordObservedState o at' unassign w).isSome
  | disconnect w _ => r.assigned = some w
  | reset _ => r.assigned.isSome ∧ (r.observed = .starting ∨ r.observed = .running ∨ r.observed = .stopping ∨
      r.observed = .restarting)
  | _ => False

instance (r : Row) (w : Write) : Decidable (w.Records r) := by
  cases w <;> unfold Records <;> infer_instance

/-- The Worker that the write speaks for is the one assigned; a startup reset speaks for any. -/
def Owned (r : Row) : Write → Prop
  | report _ w _ _ | converge w _ _ _ | disconnect w _ => r.assigned = some w
  | reset _ => r.assigned.isSome
  | _ => False

end Write

/-- The row after the writes. -/
def run (r : Row) (ws : List Write) : Row := ws.foldl Write.apply r

/-- The first time is no later than the second; a row never observed has none. -/
def NoLater (a b : Option ℕ) : Prop := a.all fun t => b.any (t ≤ ·)

instance {a b : Option ℕ} : Decidable (NoLater a b) := inferInstanceAs (Decidable (_ = true))

/-! ## What has been seen -/

/-- The row, what the last write of the API left, and the reports of the assigned Worker since then. -/
structure Seen where
  row : Row
  observed : ObservedState
  observedAt : Option ℕ
  reports : List (ObservedState × ℕ)

namespace Seen

/-- Nothing seen yet. -/
def start (r : Row) : Seen := ⟨r, r.observed, r.observedAt, []⟩

/-- A write of the API that sets what was observed starts anew. -/
def apply (s : Seen) (w : Write) : Seen :=
  match w with
  | .report read w o at' =>
    if read = some w ∧ s.row.assigned = some w then
      { s with row := (Write.report read w o at').apply s.row, reports := s.reports ++ [(o, at')] }
    else s
  | w =>
    if w.Records s.row then ⟨w.apply s.row, (w.apply s.row).observed, (w.apply s.row).observedAt, []⟩
    else { s with row := w.apply s.row }

/-- The observed state is that of the latest report since the last write of the API, the first of equal times, or what
that write left. -/
def Latest (s : Seen) : Prop :=
  (∃ o at', s.reports.find? (·.2 = at') = some (o, at') ∧ s.observedAt.all (· < at') = true ∧
    (∀ x ∈ s.reports, x.2 ≤ at') ∧ s.row.observed = o ∧ s.row.observedAt = some at') ∨
  (∀ x ∈ s.reports, s.observedAt.all (· < x.2) = false) ∧ s.row.observed = s.observed ∧
    s.row.observedAt = s.observedAt

end Seen

/-- What was seen by the writes. -/
def seen (r : Row) (ws : List Write) : Seen := ws.foldl Seen.apply (.start r)

variable {r : Row} {w : Write} {ws : List Write} {s : Seen} {x : WorkerId} {o : ObservedState} {at' : ℕ} {b : Bool}

/-! ## One write -/

/-- What a guarded write leaves of the observed fields. -/
theorem recordObservedState_cases (r : Row) (o : ObservedState) (at' : ℕ) (b : Bool) (x : WorkerId) :
    (r.assigned = some x ∧ r.observedAt.all (· < at') = true ∧
        ((r.recordObservedState o at' b x).getD r).observed = o ∧
        ((r.recordObservedState o at' b x).getD r).observedAt = some at') ∨
      (r.assigned = some x → r.observedAt.all (· < at') = false) ∧ (r.recordObservedState o at' b x).getD r = r := by
  cases hrec : r.recordObservedState o at' b x with
  | some row =>
    obtain ⟨⟨hlt, hassigned⟩, rfl⟩ := recordObservedState_eq_some.mp hrec
    exact .inl ⟨hassigned, hlt, rfl, rfl⟩
  | none =>
    refine .inr ⟨fun hassigned => ?_, rfl⟩
    rw [Row.recordObservedState, ite_eq_right_iff] at hrec
    by_contra hlt
    exact absurd (hrec ⟨by simpa using hlt, hassigned⟩) (Option.some_ne_none _)

theorem updateLifecycle_observed (r e : Row) (d : DesiredState) (b : Bool) :
    ((r.updateLifecycle e d b).getD r).observed = r.observed ∧
      ((r.updateLifecycle e d b).getD r).observedAt = r.observedAt := by
  unfold Row.updateLifecycle
  split_ifs <;> exact ⟨rfl, rfl⟩

theorem clear_observed (r : Row) (x : WorkerId) :
    ((r.clearAssignmentAfterFinalSnapshot x).getD r).observed = r.observed ∧
      ((r.clearAssignmentAfterFinalSnapshot x).getD r).observedAt = r.observedAt := by
  unfold Row.clearAssignmentAfterFinalSnapshot
  split_ifs <;> exact ⟨rfl, rfl⟩

theorem noLater_refl (a : Option ℕ) : NoLater a a := by
  cases a <;> simp [NoLater]

theorem noLater_of_all {a : Option ℕ} (h : a.all (· < at') = true) : NoLater a (some at') := by
  cases a with
  | none => rfl
  | some t => simpa [NoLater] using Nat.le_of_lt (by simpa using h)

/-- Only what makes a state less certain is written back in time. -/
theorem invalidates_of_earlier (h : ¬NoLater r.observedAt (w.apply r).observedAt) :
    w.Invalidates ∧ (w.apply r).observed = .unknown ∧ (w.apply r).observedAt = w.time := by
  have hguarded : ∀ x o at' b, NoLater r.observedAt ((r.recordObservedState o at' b x).getD r).observedAt := by
    intro x o at' b
    rcases recordObservedState_cases r o at' b x with ⟨-, hlt, -, hat⟩ | ⟨-, heq⟩
    · rw [hat]
      exact noLater_of_all hlt
    · rw [heq]
      exact noLater_refl _
  cases w with
  | report read x o at' =>
    simp only [Write.apply] at h
    split_ifs at h
    · exact absurd (hguarded ..) h
    · exact absurd (noLater_refl _) h
  | converge => exact absurd (hguarded ..) h
  | disconnect x at' =>
    refine ⟨trivial, ?_⟩
    simp only [Write.apply, Row.markWorkerServersUnknown] at h ⊢
    split_ifs at h ⊢
    · exact ⟨rfl, rfl⟩
    · exact absurd (noLater_refl _) h
  | reset at' =>
    refine ⟨trivial, ?_⟩
    simp only [Write.apply, Row.resetUnverifiableObservedStates] at h ⊢
    split_ifs at h ⊢
    · exact ⟨rfl, rfl⟩
    · exact absurd (noLater_refl _) h
  | lifecycle =>
    rw [Write.apply, (updateLifecycle_observed ..).2] at h
    exact absurd (noLater_refl _) h
  | clear =>
    rw [Write.apply, (clear_observed ..).2] at h
    exact absurd (noLater_refl _) h

/-- An observation is recorded for the Worker that is assigned. -/
theorem owned_of_records (h : w.Records r) : w.Owned r := by
  have hguarded : ∀ {x o at' b}, (r.recordObservedState o at' b x).isSome → r.assigned = some x := fun hsome => by
    obtain ⟨row, hrow⟩ := Option.isSome_iff_exists.mp hsome
    exact (recordObservedState_eq_some.mp hrow).1.2
  cases w with
  | report => exact hguarded h.2
  | converge => exact hguarded h
  | disconnect => exact h
  | reset => exact h.1
  | lifecycle | clear => exact absurd h id

/-- Any other write leaves what was observed. -/
theorem observed_of_not_records (h : ¬w.Records r) :
    (w.apply r).observed = r.observed ∧ (w.apply r).observedAt = r.observedAt := by
  have hnone : ∀ {row : Option Row}, ¬row.isSome = true → row.getD r = r := fun hrow => by
    rw [Option.not_isSome_iff_eq_none] at hrow
    rw [hrow, Option.getD_none]
  cases w with
  | report read x o at' =>
    simp only [Write.apply]
    split_ifs with hread
    · rw [hnone fun hsome => h ⟨hread, hsome⟩]
      exact ⟨rfl, rfl⟩
    · exact ⟨rfl, rfl⟩
  | converge =>
    rw [Write.apply, hnone h]
    exact ⟨rfl, rfl⟩
  | disconnect x =>
    rw [Write.apply, Row.markWorkerServersUnknown, if_neg (show ¬r.assigned = some x from h)]
    exact ⟨rfl, rfl⟩
  | reset =>
    simp only [Write.apply, Row.resetUnverifiableObservedStates]
    rw [if_neg (by exact h)]
    exact ⟨rfl, rfl⟩
  | lifecycle => exact updateLifecycle_observed ..
  | clear => exact clear_observed ..

/-! ## All writes -/

theorem row_apply (s : Seen) (w : Write) : (s.apply w).row = w.apply s.row := by
  cases w with
  | report read x o at' =>
    simp only [Seen.apply]
    split_ifs with h
    · rfl
    · by_cases hread : read = some x
      · rcases recordObservedState_cases s.row o at' false x with ⟨hassigned, -⟩ | ⟨-, heq⟩
        · exact absurd ⟨hread, hassigned⟩ h
        · rw [Write.apply, if_pos hread, heq]
      · rw [Write.apply, if_neg hread]
  | converge | disconnect | reset | lifecycle | clear =>
    simp only [Seen.apply]
    split_ifs <;> rfl

/-- The row is what the writes have made of it. -/
theorem row_seen (r : Row) (ws : List Write) : (seen r ws).row = run r ws := by
  have hfold : ∀ (ws : List Write) (s : Seen), (ws.foldl Seen.apply s).row = ws.foldl Write.apply s.row := by
    intro ws
    induction ws with
    | nil => exact fun _ => rfl
    | cons w ws ih => exact fun s => by rw [List.foldl_cons, List.foldl_cons, ih, row_apply]
  exact hfold ws _

theorem Seen.Latest.report (hs : s.Latest) (hassigned : s.row.assigned = some x) :
    (s.apply (.report (some x) x o at')).Latest := by
  rw [Seen.apply, if_pos ⟨rfl, hassigned⟩]
  simp only [Write.apply, ↓reduceIte, Seen.Latest, List.mem_append, List.mem_singleton]
  have hfirst : (∀ y ∈ s.reports, y.2 ≠ at') → (s.reports ++ [(o, at')]).find? (·.2 = at') = some (o, at') := fun h => by
    rw [List.find?_append, List.find?_eq_none.mpr fun y hy => by simpa using h y hy]
    simp
  rcases recordObservedState_cases s.row o at' false x with ⟨-, hlt, ho, hat⟩ | ⟨hlt, heq⟩
  · -- The report is applied, and it is later than all that were seen.
    refine .inl ⟨o, at', hfirst ?_, ?_, ?_, ho, hat⟩
    · rcases hs with ⟨o', t, -, -, hmax, -, hrow⟩ | ⟨hbase, -, hrow⟩
      · rw [hrow, Option.all_some, decide_eq_true_eq] at hlt
        exact fun y hy => Nat.ne_of_lt (Nat.lt_of_le_of_lt (hmax y hy) hlt)
      · rintro y hy rfl
        rw [hrow] at hlt
        rw [hbase y hy] at hlt
        cases hlt
    · rcases hs with ⟨o', t, -, hbase, -, -, hrow⟩ | ⟨-, -, hrow⟩
      · rw [hrow, Option.all_some, decide_eq_true_eq] at hlt
        cases hb : s.observedAt with
        | none => rfl
        | some b =>
          rw [hb, Option.all_some, decide_eq_true_eq] at hbase
          rw [Option.all_some, decide_eq_true_eq]
          omega
      · rwa [hrow] at hlt
    · rintro y (hy | rfl)
      · rcases hs with ⟨o', t, -, -, hmax, -, hrow⟩ | ⟨hbase, -, hrow⟩
        · rw [hrow, Option.all_some, decide_eq_true_eq] at hlt
          exact Nat.le_trans (hmax y hy) (Nat.le_of_lt hlt)
        · have := hbase y hy
          rw [hrow] at hlt
          cases hb : s.observedAt with
          | none => simp [hb] at this
          | some b =>
            rw [hb, Option.all_some, decide_eq_true_eq] at hlt
            rw [hb, Option.all_some, decide_eq_false_iff_not] at this
            omega
      · exact Nat.le_refl _
  · -- It is dropped, as no later than what stands.
    have hle := hlt hassigned
    rw [heq]
    rcases hs with ⟨o', t, hfound, hbase, hmax, ho, hrow⟩ | ⟨hbase, ho, hrow⟩
    · refine .inl ⟨o', t, by rw [List.find?_append, hfound, Option.some_or], hbase, ?_, ho, hrow⟩
      rintro y (hy | rfl)
      · exact hmax y hy
      · rw [hrow, Option.all_some, decide_eq_false_iff_not] at hle
        exact Nat.le_of_not_lt hle
    · refine .inr ⟨?_, ho, hrow⟩
      rintro y (hy | rfl)
      · exact hbase y hy
      · rwa [hrow] at hle

theorem Seen.Latest.apply (hs : s.Latest) : (s.apply w).Latest := by
  have hkeep : ∀ {row : Row}, row.observed = s.row.observed ∧ row.observedAt = s.row.observedAt →
      Seen.Latest { s with row := row } := fun {row} h => by
    unfold Seen.Latest
    rw [h.1, h.2]
    exact hs
  cases w with
  | report read x o at' =>
    by_cases h : read = some x ∧ s.row.assigned = some x
    · obtain ⟨rfl, hassigned⟩ := h
      exact hs.report hassigned
    · rw [Seen.apply, if_neg h]
      exact hs
  | converge | disconnect | reset | lifecycle | clear =>
    simp only [Seen.apply]
    split_ifs with h
    · exact .inr ⟨fun _ hx => absurd hx List.not_mem_nil, rfl, rfl⟩
    · exact hkeep (observed_of_not_records h)

theorem latest_seen (r : Row) (ws : List Write) : (seen r ws).Latest := by
  have hfold : ∀ (ws : List Write) (s : Seen), s.Latest → (ws.foldl Seen.apply s).Latest := by
    intro ws
    induction ws with
    | nil => exact fun _ h => h
    | cons w ws ih => exact fun s h => ih _ h.apply
  exact hfold ws _ (.inr ⟨fun _ hx => absurd hx List.not_mem_nil, rfl, rfl⟩)

structure Kept (r : Row) (ws : List Write) : Prop where
  /-- Only a disconnect or a startup reset may lower `observed_at`, to its own time, and it leaves the state unknown. -/
  monotone : ∀ w : Write, ¬NoLater (run r ws).observedAt (w.apply (run r ws)).observedAt →
    w.Invalidates ∧ (w.apply (run r ws)).observed = .unknown ∧ (w.apply (run r ws)).observedAt = w.time
  /-- An observation is recorded only where the row is assigned to the Worker it speaks for. -/
  owned : ∀ w : Write, w.Records (run r ws) → w.Owned (run r ws)
  /-- Any other write leaves what was observed. -/
  other : ∀ w : Write, ¬w.Records (run r ws) → (w.apply (run r ws)).observed = (run r ws).observed ∧
    (w.apply (run r ws)).observedAt = (run r ws).observedAt
  /-- The state observed is that of the latest report since the last recorded write of the API, or what it left. -/
  row : (seen r ws).row = run r ws
  latest : (seen r ws).Latest

/-- **What was observed is kept**, whatever the order of the writes and their times. -/
theorem observed_kept (r : Row) (ws : List Write) : Kept r ws where
  monotone _ := invalidates_of_earlier
  owned _ := owned_of_records
  other _ := observed_of_not_records
  row := row_seen r ws
  latest := latest_seen r ws

/-- A disconnect that is stamped before a report and written after it lowers `observed_at` and hides the report; a
report with the time of the disconnect is dropped. -/
theorem disconnect_lowers :
    let r : Row := ⟨.running, .starting, some 1, some 7, [], 1, 0⟩
    ¬NoLater (run r [.report (some 7) 7 .running 5]).observedAt
        (run r [.report (some 7) 7 .running 5, .disconnect 7 3]).observedAt ∧
      (run r [.report (some 7) 7 .running 5, .disconnect 7 3]).observed = .unknown ∧
      (run r [.disconnect 7 5, .report (some 7) 7 .running 5]).observed = .unknown := by
  decide

end McServerDashboard.Servers.Observed
