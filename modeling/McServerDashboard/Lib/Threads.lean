import Mathlib.Logic.Function.Basic
import McServerDashboard.Lib.Run

/-!
# Threads over a shared state

Any number of threads, each at a position of its own, over one shared state. A step of a thread
reads and changes the shared state and the thread's own position; the other threads only feel the
shared state change under them.

* `Threads.machine`: the interleavings of the threads, as a `Machine`.
* **`Threads.invariant`**: the rule for local assertions. Each step of a thread must keep the shared
  invariant, its own assertion at its new position, and every assertion of every other thread.
-/

namespace Lib

variable {σ π α : Type*}

/-- The steps of one thread: its number, the shared state, its position, the action. -/
structure Threads (σ π α : Type*) where
  pre : ℕ → σ → π → α → Prop
  post : ℕ → σ → π → α → σ × π

namespace Threads

/-- The shared state and the position of every thread. -/
structure Config (σ π : Type*) where
  shared : σ
  th : ℕ → π

variable (S : Threads σ π α)

/-- The state after thread `t` takes `a`. -/
def step (c : Config σ π) (t : ℕ) (a : α) : Config σ π :=
  ⟨(S.post t c.shared (c.th t) a).1, Function.update c.th t (S.post t c.shared (c.th t) a).2⟩

/-- All interleavings of the threads. -/
def machine : Machine (Config σ π) (ℕ × α) where
  pre c x := S.pre x.1 c.shared (c.th x.1) x.2
  post c x := S.step c x.1 x.2

instance [∀ t s p a, Decidable (S.pre t s p a)] (c : Config σ π) (x : ℕ × α) :
    Decidable (S.machine.pre c x) := inferInstanceAs (Decidable (S.pre _ _ _ _))

variable {S} {c d : Config σ π} {t u : ℕ} {a : α}

@[simp] theorem step_shared : (S.step c t a).shared = (S.post t c.shared (c.th t) a).1 := rfl

@[simp] theorem step_self : (S.step c t a).th t = (S.post t c.shared (c.th t) a).2 := by
  simp [step]

theorem step_ne (h : u ≠ t) : (S.step c t a).th u = c.th u := by
  simp [step, h]

/-- A shared invariant and an assertion about every thread's position. -/
structure Holds (J : σ → Prop) (Ok : σ → ℕ → π → Prop) (c : Config σ π) : Prop where
  shared : J c.shared
  thread : ∀ t, Ok c.shared t (c.th t)

/-- What holds of the threads holds after a step that keeps the shared invariant, the assertion about
its own thread and those about the others. -/
theorem Holds.step {J : σ → Prop} {Ok : σ → ℕ → π → Prop} (h : Holds J Ok c)
    (hs : J (S.post t c.shared (c.th t) a).1 ∧
      Ok (S.post t c.shared (c.th t) a).1 t (S.post t c.shared (c.th t) a).2 ∧
      ∀ u, u ≠ t → Ok c.shared u (c.th u) → Ok (S.post t c.shared (c.th t) a).1 u (c.th u)) :
    Holds J Ok (S.step c t a) := by
  obtain ⟨hJ, hown, hothers⟩ := hs
  refine ⟨hJ, fun u => ?_⟩
  by_cases hu : u = t
  · rw [hu, step_self]
    exact hown
  · rw [step_ne hu]
    exact hothers u hu (h.thread u)

/-- **The rule for local assertions.** -/
theorem invariant {J : σ → Prop} {Ok : σ → ℕ → π → Prop}
    {P : Config σ π → ℕ × α → Prop} (h : S.machine.Reach P c d) (h0 : Holds J Ok c)
    (hstep : ∀ c t a, Holds J Ok c → S.pre t c.shared (c.th t) a → P c (t, a) →
      J (S.post t c.shared (c.th t) a).1 ∧
        Ok (S.post t c.shared (c.th t) a).1 t (S.post t c.shared (c.th t) a).2 ∧
        ∀ u, u ≠ t → Ok c.shared u (c.th u) → Ok (S.post t c.shared (c.th t) a).1 u (c.th u)) :
    Holds J Ok d :=
  h.invariant h0 fun c x hc hpre hP => hc.step (hstep c x.1 x.2 hc hpre hP)

end Threads

end Lib
