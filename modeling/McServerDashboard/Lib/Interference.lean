import McServerDashboard.Lib.Run

/-!
# Programs under interference

A program makes one call after the other, each chosen by the answers so far. Between two of its calls the
others may change the world as the `rely` allows; a call is answered as its fate has it.

* `Prog`: programs, with `bind`.
* `Setting`: how calls act, what the others may do, and which fates are considered.
* `Setting.Safe`: every call keeps the guarantee, and what is returned meets the postcondition.
* **`Setting.Safe.reach`**: a safe program is safe wherever its run has come, so each call of the run
  keeps the guarantee.
* `Prog.Each`: a property of every call that a program can make, whatever the answers.
-/

namespace Lib

universe u

/-- A program: it returns, or makes a call and goes on with the answer. -/
inductive Prog (κ : Type) (ans : κ → Type) (α : Type u) : Type u
  | ret (a : α)
  | call (k : κ) (next : ans k → Prog κ ans α)

namespace Prog

variable {κ : Type} {ans : κ → Type} {α β : Type u}

/-- The one program, then the other on what it returned. -/
def bind : Prog κ ans α → (α → Prog κ ans β) → Prog κ ans β
  | ret a, f => f a
  | call k next, f => call k fun r => (next r).bind f

instance : Monad (Prog κ ans) where
  pure := ret
  bind := bind

@[simp] theorem pure_eq (a : α) : (pure a : Prog κ ans α) = ret a := rfl

@[simp] theorem ret_bind (a : α) (f : α → Prog κ ans β) : ret a >>= f = f a := rfl

@[simp] theorem call_bind (k : κ) (next : ans k → Prog κ ans α) (f : α → Prog κ ans β) :
    call k next >>= f = call k fun r => next r >>= f := rfl

/-- Every call that the program can make has the property. -/
def Each (P : κ → Prop) : Prog κ ans α → Prop
  | ret _ => True
  | call k next => P k ∧ ∀ r, (next r).Each P

variable {P : κ → Prop}

@[simp] theorem each_ret (a : α) : (ret a : Prog κ ans α).Each P := trivial

theorem Each.bind {p : Prog κ ans α} {f : α → Prog κ ans β} (hp : p.Each P) (hf : ∀ a, (f a).Each P) :
    (p >>= f).Each P := by
  induction p with
  | ret a => exact hf a
  | call k next ih => exact ⟨hp.1, fun r => ih r (hp.2 r)⟩

end Prog

open Prog

/-- How the calls act on a world that others change as well. -/
structure Setting (κ : Type) (ans : κ → Type) (φ ω : Type) where
  /-- The answer to a call of the given fate, and the world after it. -/
  exec : (k : κ) → φ → ω → ans k × ω
  /-- What the others may do between two calls. -/
  rely : ω → ω → Prop
  /-- The fates that are considered. -/
  may : κ → φ → Prop
  refl : ∀ w, rely w w
  trans : ∀ {w w' w''}, rely w w' → rely w' w'' → rely w w''

namespace Setting

variable {κ : Type} {ans : κ → Type} {φ ω : Type} {α β : Type} (S : Setting κ ans φ ω)

/-- What happens next: the others change the world, or the call is answered. -/
inductive Act (φ ω : Type)
  | others (w : ω)
  | answer (f : φ)

/-- The runs of a program. -/
def machine : Machine (ω × Prog κ ans α) (Act φ ω) where
  pre s
    | .others w => S.rely s.1 w
    | .answer f =>
      match s.2 with
      | .ret _ => False
      | .call k _ => S.may k f
  post s
    | .others w => (w, s.2)
    | .answer f =>
      match s.2 with
      | .ret _ => s
      | .call k next => ((S.exec k f s.1).2, next (S.exec k f s.1).1)

/-- What a call guarantees: of the world before it, its answer and the world after it. -/
abbrev Guarantee (κ : Type) (ans : κ → Type) (ω : Type) : Type := ω → (k : κ) → ans k → ω → Prop

/-- Every call keeps the guarantee `G`, and what is returned meets `Q`, whatever the others do. -/
def Safe (G : Guarantee κ ans ω) (Q : α → ω → Prop) : Prog κ ans α → ω → Prop
  | .ret a, w => ∀ w', S.rely w w' → Q a w'
  | .call k next, w => ∀ w', S.rely w w' → ∀ f, S.may k f →
      G w' k (S.exec k f w').1 (S.exec k f w').2 ∧ Safe G Q (next (S.exec k f w').1) (S.exec k f w').2

variable {S} {G : Guarantee κ ans ω} {Q Q' : α → ω → Prop} {p : Prog κ ans α} {w w' : ω}

theorem Safe.others (h : S.Safe G Q p w) (hr : S.rely w w') : S.Safe G Q p w' := by
  cases p with
  | ret a | call k next => exact fun w'' hr' => h w'' (S.trans hr hr')

theorem Safe.mono (h : S.Safe G Q p w) (hQ : ∀ a w, Q a w → Q' a w) : S.Safe G Q' p w := by
  induction p generalizing w with
  | ret a => exact fun w' hr => hQ a w' (h w' hr)
  | call k next ih => exact fun w' hr f hf => ⟨(h w' hr f hf).1, ih _ (h w' hr f hf).2⟩

/-- **The rule of composition.** -/
theorem Safe.bind {q : α → Prog κ ans β} {R : β → ω → Prop} (h : S.Safe G Q p w)
    (hq : ∀ a w, Q a w → S.Safe G R (q a) w) : S.Safe G R (p >>= q) w := by
  induction p generalizing w with
  | ret a => exact hq a w (h w (S.refl w))
  | call k next ih => exact fun w' hr f hf => ⟨(h w' hr f hf).1, ih _ (h w' hr f hf).2⟩

/-- A call from a condition that the others keep. -/
theorem safe_call {C : ω → Prop} {k : κ} {next : ans k → Prog κ ans α} (hC : ∀ {w w'}, C w → S.rely w w' → C w')
    (h : C w) (hcall : ∀ w f, C w → S.may k f →
      G w k (S.exec k f w).1 (S.exec k f w).2 ∧ S.Safe G Q (next (S.exec k f w).1) (S.exec k f w).2) :
    S.Safe G Q (.call k next) w :=
  fun w' hr f hf => hcall w' f (hC h hr) hf

theorem safe_ret {a : α} (hQ : ∀ {w w'}, Q a w → S.rely w w' → Q a w') (h : Q a w) : S.Safe G Q (.ret a) w :=
  fun _ hr => hQ h hr

/-- A property of every call is a guarantee. -/
theorem safe_of_each {P : κ → Prop} (h : p.Each P) (hG : ∀ w k f, P k → G w k (S.exec k f w).1 (S.exec k f w).2) :
    S.Safe G (fun _ _ => True) p w := by
  induction p generalizing w with
  | ret a => exact fun _ _ => trivial
  | call k next ih => exact fun w' _ f _ => ⟨hG w' k f h.1, ih _ (h.2 _)⟩

/-- What is safe among some is safe among fewer. -/
theorem Safe.rely {R : ω → ω → Prop} {hrefl : ∀ w, R w w} {htrans : ∀ {w w' w''}, R w w' → R w' w'' → R w w''}
    (h : S.Safe G Q p w) (hR : ∀ w w', R w w' → S.rely w w') :
    Safe ⟨S.exec, R, S.may, hrefl, htrans⟩ G Q p w := by
  induction p generalizing w with
  | ret a => exact fun w' hr => h w' (hR w w' hr)
  | call k next ih => exact fun w' hr f hf => ⟨(h w' (hR w w' hr) f hf).1, ih _ (h w' (hR w w' hr) f hf).2⟩

/-! ## Runs -/

variable {s t : ω × Prog κ ans α}

/-- **A safe program is safe wherever its run has come.** -/
theorem Safe.reach (h : S.Safe G Q s.2 s.1) (hrun : S.machine.Reach Machine.Any s t) : S.Safe G Q t.2 t.1 := by
  refine hrun.invariant (I := fun u => S.Safe G Q u.2 u.1) h fun u a hu hpre _ => ?_
  cases a with
  | others w => exact hu.others hpre
  | answer f =>
    obtain ⟨w, p⟩ := u
    cases p with
    | ret a => exact hpre.elim
    | call k next => exact (hu w (S.refl w) f hpre).2

/-- What is returned meets the postcondition. -/
theorem Safe.returns {a : α} (h : S.Safe G Q s.2 s.1) (hrun : S.machine.Reach Machine.Any s (w, .ret a)) : Q a w :=
  h.reach hrun w (S.refl w)

/-- Each call of the run keeps the guarantee. -/
theorem Safe.guarantee {k : κ} {next : ans k → Prog κ ans α} {f : φ} (h : S.Safe G Q s.2 s.1)
    (hrun : S.machine.Reach Machine.Any s (w, .call k next)) (hf : S.may k f) :
    G w k (S.exec k f w).1 (S.exec k f w).2 :=
  (h.reach hrun w (S.refl w) f hf).1

/-- What the others keep, and every call that keeps the guarantee, holds along the run. -/
theorem Safe.invariant {I : ω → Prop} (h : S.Safe G Q s.2 s.1) (hrun : S.machine.Reach Machine.Any s t) (h0 : I s.1)
    (hothers : ∀ w w', I w → S.rely w w' → I w')
    (hcall : ∀ w k f, I w → S.may k f → G w k (S.exec k f w).1 (S.exec k f w).2 → I (S.exec k f w).2) : I t.1 := by
  have hall : S.Safe G Q t.2 t.1 ∧ I t.1 := by
    refine hrun.invariant (I := fun u => S.Safe G Q u.2 u.1 ∧ I u.1) ⟨h, h0⟩ fun u a hu hpre _ => ?_
    cases a with
    | others w => exact ⟨hu.1.others hpre, hothers _ _ hu.2 hpre⟩
    | answer f =>
      obtain ⟨w, p⟩ := u
      cases p with
      | ret a => exact hpre.elim
      | call k next =>
        have hcalled := hu.1 w (S.refl w) f hpre
        exact ⟨hcalled.2, hcall w k f hu.2 hpre hcalled.1⟩
  exact hall.2

variable (S) in
/-- The run in which nobody interferes and the calls have the given fates. -/
def run : List φ → ω × Prog κ ans α → ω × Prog κ ans α
  | [], s => s
  | _ :: _, (w, .ret a) => (w, .ret a)
  | f :: fs, (w, .call k next) => run fs ((S.exec k f w).2, next (S.exec k f w).1)

variable (S) in
/-- The fates are considered where they come. -/
def Allowed : List φ → ω × Prog κ ans α → Prop
  | [], _ => True
  | _ :: _, (_, .ret _) => True
  | f :: fs, (w, .call k next) => S.may k f ∧ Allowed fs ((S.exec k f w).2, next (S.exec k f w).1)

theorem reach_run {fs : List φ} (hmay : S.Allowed fs s) : S.machine.Reach Machine.Any s (S.run fs s) := by
  induction fs generalizing s with
  | nil => exact .refl
  | cons f fs ih =>
    obtain ⟨w, p⟩ := s
    cases p with
    | ret a => exact .refl
    | call k next =>
      have hpre : S.machine.pre (w, Prog.call k next) (.answer f) := hmay.1
      exact (Machine.Reach.refl.step _ hpre trivial).trans (ih hmay.2)

end Setting

end Lib
