import Mathlib.Order.Basic

/-!
# Machines and their runs

A `Machine` is a set of guarded actions over a state: an action may be taken where its guard
`pre` holds and then has the one effect `post`. The interleavings of several processes are the
runs of one machine whose actions name the process that moves.

* `Reach P s s'`: a run from `s` to `s'` all of whose steps satisfy the condition `P` (on the
  state before the step and the action taken). `P = fun _ _ => True` gives every run.
* **`Reach.invariant`**: what holds at the start and is kept by one step holds along every run.
* `exec`: the run of a given list of actions, if every guard on the way holds.
* `observe`: the machine with a record of its past, for conditions and properties of whole runs.
-/

namespace Lib

variable {σ α : Type*}

/-- A state machine given by guarded actions. -/
structure Machine (σ α : Type*) where
  /-- The guard: may the action be taken here? -/
  pre : σ → α → Prop
  /-- The effect of the action. -/
  post : σ → α → σ

namespace Machine

variable (M : Machine σ α)

/-- `s'` is reached from `s` by steps that all satisfy `P`. -/
inductive Reach (P : σ → α → Prop) (s : σ) : σ → Prop
  | refl : Reach P s s
  | step {t : σ} (a : α) : Reach P s t → M.pre t a → P t a → Reach P s (M.post t a)

/-- Every step is allowed. -/
abbrev Any : σ → α → Prop := fun _ _ => True

variable {M} {P Q : σ → α → Prop} {s t u : σ}

/-- **The invariant rule.** -/
theorem Reach.invariant {I : σ → Prop} (h : M.Reach P s t) (h0 : I s)
    (hstep : ∀ u a, I u → M.pre u a → P u a → I (M.post u a)) : I t := by
  induction h with
  | refl => exact h0
  | step a _ hpre hP ih => exact hstep _ a ih hpre hP

theorem Reach.trans (h1 : M.Reach P s t) (h2 : M.Reach P t u) : M.Reach P s u := by
  induction h2 with
  | refl => exact h1
  | step a _ hpre hP ih => exact ih.step a hpre hP

theorem Reach.mono (h : M.Reach P s t) (hPQ : ∀ u a, P u a → Q u a) : M.Reach Q s t := by
  induction h with
  | refl => exact .refl
  | step a _ hpre hP ih => exact ih.step a hpre (hPQ _ _ hP)

theorem Reach.any (h : M.Reach P s t) : M.Reach Any s t := h.mono fun _ _ _ => trivial

/-- What holds wherever the run may come holds before each of its steps. -/
theorem Reach.along {I : σ → Prop} (h : M.Reach P s t) (hI : ∀ u, M.Reach P s u → I u) :
    M.Reach (fun u a => P u a ∧ I u) s t := by
  induction h with
  | refl => exact .refl
  | step a hr hpre hP ih => exact ih.step a hpre ⟨hP, hI _ hr⟩

/-- A measure no step lowers is no lower at the end of a run. -/
theorem Reach.le_of_step {β : Type*} [Preorder β] {f : σ → β} (h : M.Reach P s t)
    (hstep : ∀ u a, M.pre u a → P u a → f u ≤ f (M.post u a)) : f s ≤ f t := by
  induction h with
  | refl => exact le_rfl
  | step a _ hpre hP ih => exact ih.trans (hstep _ a hpre hP)

/-! ## Executing a list of actions -/

variable (M) in
/-- Take the actions of `as` in order; `none` as soon as a guard fails. -/
def exec [∀ s a, Decidable (M.pre s a)] : List α → σ → Option σ
  | [], s => some s
  | a :: as, s => if M.pre s a then exec as (M.post s a) else none

/-- A list of actions that executes is a run. -/
theorem reach_of_exec [∀ s a, Decidable (M.pre s a)] {as : List α} (h : M.exec as s = some t) :
    M.Reach Any s t := by
  induction as generalizing s with
  | nil =>
    rw [exec, Option.some.injEq] at h
    exact h ▸ .refl
  | cons a as ih =>
    rw [exec] at h
    split_ifs at h with hpre
    exact (Reach.refl.step a hpre trivial).trans (ih h)

variable (M) in
/-- The machine that takes a step only where `P` allows it. -/
def guard (P : σ → α → Prop) : Machine σ α := ⟨fun s a => M.pre s a ∧ P s a, M.post⟩

instance [∀ s a, Decidable (M.pre s a)] [∀ s a, Decidable (P s a)] (s : σ) (a : α) :
    Decidable ((M.guard P).pre s a) := inferInstanceAs (Decidable (M.pre s a ∧ P s a))

theorem reach_of_guard (h : (M.guard P).Reach Any s t) : M.Reach P s t := by
  induction h with
  | refl => exact .refl
  | step a _ hpre _ ih => exact ih.step a hpre.1 hpre.2

/-- What is computed of the state that a list of actions ends in holds of a reachable state. -/
theorem reach_of_exec_map [∀ s a, Decidable (M.pre s a)] {β : Type*} {as : List α} {f : σ → β} {b : β}
    (h : (M.exec as s).map f = some b) : ∃ t, M.Reach Any s t ∧ f t = b := by
  obtain ⟨t, ht, hb⟩ := Option.map_eq_some_iff.mp h
  exact ⟨t, reach_of_exec ht, hb⟩

/-! ## A record of the past -/

section Observe

variable {η : Type*}

variable (M) in
/-- The machine with a record of its past, which no guard and no effect reads. -/
def observe (upd : σ → α → η → η) : Machine (σ × η) α where
  pre x a := M.pre x.1 a
  post x a := (M.post x.1 a, upd x.1 a x.2)

instance [∀ s a, Decidable (M.pre s a)] {upd : σ → α → η → η} (x : σ × η) (a : α) :
    Decidable ((M.observe upd).pre x a) := inferInstanceAs (Decidable (M.pre x.1 a))

/-- Without its record a run is one of the machine. -/
theorem Reach.observed {upd : σ → α → η → η} {P : σ × η → α → Prop} {x y : σ × η}
    (h : (M.observe upd).Reach P x y) : M.Reach Any x.1 y.1 := by
  induction h with
  | refl => exact .refl
  | step a _ hpre _ ih => exact ih.step a hpre trivial

end Observe

end Machine

end Lib
