import McServerDashboard.Lib.Run

/-!
# Programs of atomic writes, and stamps

A store that is changed by small atomic writes, any of which may fail, and whose operations may
be cut off between two of them. A *stamp* is a number the store carries to tell its contents
apart.

* `runAll`: perform writes in order up to the first that fails; what is left undone is returned.
* `perform`: perform all of them, or fail.
* `attempt`: the same, with what was done before the failure.
* `Program.session`: a program cut off after any of its writes, and its error handler as well.
* `Stamping.session_marked`, `Stamping.session_unmarked`: the stamp that a session leaves.
* **`Reach.same_stamp`**: if no step lowers the stamp and every step that keeps it keeps the
  content, two states of one run with one stamp have one content.
-/

namespace Lib

variable {σ ω ε : Type*} (run : ω → σ → Except ε σ)

/-- Perform the writes in order; stop at the first that fails and return what was not done. -/
def runAll : List ω → σ → σ × List ω
  | [], s => (s, [])
  | w :: ws, s =>
    match run w s with
    | .ok s' => runAll ws s'
    | .error _ => (s, w :: ws)

/-- The writes that were performed. -/
def performed : List ω → σ → List ω
  | [], _ => []
  | w :: ws, s =>
    match run w s with
    | .ok s' => w :: performed ws s'
    | .error _ => []

@[simp] theorem runAll_nil (s : σ) : runAll run [] s = (s, []) := rfl

theorem runAll_cons_ok {w : ω} {ws : List ω} {s s' : σ} (h : run w s = .ok s') :
    runAll run (w :: ws) s = runAll run ws s' := by
  simp only [runAll, h]

theorem runAll_cons_error {w : ω} {ws : List ω} {s : σ} {e : ε} (h : run w s = .error e) :
    runAll run (w :: ws) s = (s, w :: ws) := by
  simp only [runAll, h]

theorem performed_cons_ok {w : ω} {ws : List ω} {s s' : σ} (h : run w s = .ok s') :
    performed run (w :: ws) s = w :: performed run ws s' := by
  simp only [performed, h]

theorem performed_cons_error {w : ω} {ws : List ω} {s : σ} {e : ε} (h : run w s = .error e) :
    performed run (w :: ws) s = [] := by
  simp only [performed, h]

theorem performed_append_left (ws : List ω) (s : σ) :
    performed run ws s ++ (runAll run ws s).2 = ws := by
  induction ws generalizing s with
  | nil => rfl
  | cons w ws ih =>
    cases h : run w s with
    | error e => rw [performed_cons_error run h, runAll_cons_error run h, List.nil_append]
    | ok s' => rw [performed_cons_ok run h, runAll_cons_ok run h, List.cons_append, ih]

/-- A property of the store that every write of the program keeps is kept by the program. -/
theorem runAll_invariant {I : σ → Prop} {ws : List ω} {s : σ} (h0 : I s)
    (hw : ∀ w ∈ ws, ∀ s s', I s → run w s = .ok s' → I s') : I (runAll run ws s).1 := by
  induction ws generalizing s with
  | nil => exact h0
  | cons w ws ih =>
    cases h : run w s with
    | error e =>
      rw [runAll_cons_error run h]
      exact h0
    | ok s' =>
      rw [runAll_cons_ok run h]
      exact ih (hw w List.mem_cons_self s s' h0 h) fun w' hw' => hw w' (List.mem_cons_of_mem _ hw')

/-- A value of the store that no write of the program changes is not changed by the program. -/
theorem runAll_frame {β : Type*} {f : σ → β} {ws : List ω} {s : σ}
    (hw : ∀ w ∈ ws, ∀ s s', run w s = .ok s' → f s' = f s) : f (runAll run ws s).1 = f s :=
  runAll_invariant run (I := fun t => f t = f s) rfl fun w hm t t' ht h => (hw w hm t t' h).trans ht

/-- A bind that succeeds is two successes. -/
theorem ok_of_bind {α β : Type*} {x : Except ε α} {f : α → Except ε β} {r : β}
    (h : Except.bind x f = .ok r) : ∃ a, x = .ok a ∧ f a = .ok r := by
  cases x with
  | error e => cases h
  | ok a => exact ⟨a, rfl, h⟩

/-- A bind that fails is a failure of one of the two. -/
theorem error_of_bind {α β : Type*} {x : Except ε α} {f : α → Except ε β} {e : ε}
    (h : Except.bind x f = .error e) :
    x = .error e ∨ ∃ a, x = .ok a ∧ f a = .error e := by
  cases x with
  | error e' =>
    cases h
    exact .inl rfl
  | ok a => exact .inr ⟨a, rfl, h⟩

/-- The rule for a loop that does not fail: what each turn keeps, of the items left and the value, holds at the end. -/
theorem foldlM_ok {α β : Type*} {P : List α → β → Prop} {f : β → α → Except ε β} {l : List α} {b b' : β}
    (hstep : ∀ {a l b b'}, P (a :: l) b → f b a = .ok b' → P l b') (h : P l b) (hok : l.foldlM f b = .ok b') :
    P [] b' := by
  induction l generalizing b with
  | nil =>
    cases hok
    exact h
  | cons a l ih =>
    rw [List.foldlM_cons] at hok
    obtain ⟨b1, h1, hok⟩ := ok_of_bind hok
    exact ih (hstep h h1) hok

/-- A loop that fails has a turn that fails. -/
theorem foldlM_error {α β : Type*} {f : β → α → Except ε β} {l : List α} {b : β} {e : ε}
    (herr : l.foldlM f b = .error e) : ∃ b a, f b a = .error e := by
  induction l generalizing b with
  | nil => cases herr
  | cons a l ih =>
    rw [List.foldlM_cons] at herr
    rcases error_of_bind herr with h | ⟨b1, -, h⟩
    · exact ⟨b, a, h⟩
    · exact ih h

/-- Perform all the writes, or fail with the error of the first that fails. -/
def perform : List ω → σ → Except ε σ
  | [], s => .ok s
  | w :: ws, s => Except.bind (run w s) (perform ws)

theorem perform_eq_ok {ws : List ω} {s t : σ} : perform run ws s = .ok t ↔ runAll run ws s = (t, []) := by
  induction ws generalizing s with
  | nil => simp [perform]
  | cons w ws ih =>
    cases h : run w s with
    | error e => simp [perform, h, Except.bind, runAll_cons_error run h]
    | ok s' =>
      rw [runAll_cons_ok run h, ← ih, perform, h]
      rfl

theorem perform_append {ws us : List ω} {s t : σ} : perform run (ws ++ us) s = .ok t ↔
    ∃ s', perform run ws s = .ok s' ∧ perform run us s' = .ok t := by
  induction ws generalizing s with
  | nil => simp [perform]
  | cons w ws ih =>
    cases h : run w s with
    | error e => simp [perform, h, Except.bind]
    | ok s' => simp [perform, h, Except.bind, ih]

/-- What every write of the program keeps is kept by the whole of it. -/
theorem perform_invariant {I : σ → Prop} {ws : List ω} {s t : σ} (h : perform run ws s = .ok t) (h0 : I s)
    (hw : ∀ w ∈ ws, ∀ s s', I s → run w s = .ok s' → I s') : I t := by
  have ht := runAll_invariant run h0 hw
  rwa [(perform_eq_ok run).mp h] at ht

/-- Perform the writes up to the first that fails, whose error is returned. -/
def attempt (ws : List ω) (s : σ) : σ × Except ε Unit :=
  match perform run ws s with
  | .ok t => (t, .ok ())
  | .error e => ((runAll run ws s).1, .error e)

theorem attempt_of_ok {ws : List ω} {s t : σ} (h : perform run ws s = .ok t) : attempt run ws s = (t, .ok ()) := by
  simp only [attempt, h]

theorem attempt_ok {ws : List ω} {s t : σ} (h : attempt run ws s = (t, .ok ())) : perform run ws s = .ok t := by
  unfold attempt at h
  split at h <;> cases h
  assumption

theorem attempt_error {ws : List ω} {s t : σ} {e : ε} (h : attempt run ws s = (t, .error e)) :
    perform run ws s = .error e ∧ t = (runAll run ws s).1 := by
  unfold attempt at h
  split at h <;> cases h
  exact ⟨by assumption, rfl⟩

theorem attempt_cons_ok {w : ω} {ws : List ω} {s s' : σ} (h : run w s = .ok s') :
    attempt run (w :: ws) s = attempt run ws s' := by
  simp only [attempt, perform, h, Except.bind, runAll_cons_ok run h]

theorem attempt_cons_error {w : ω} {ws : List ω} {s : σ} {e : ε} (h : run w s = .error e) :
    attempt run (w :: ws) s = (s, .error e) := by
  simp only [attempt, perform, h, Except.bind, runAll_cons_error run h]

/-- A program after another is attempted if the first was performed in full. -/
theorem attempt_append (ws us : List ω) (s : σ) : attempt run (ws ++ us) s =
    match attempt run ws s with
    | (t, .ok _) => attempt run us t
    | (t, .error e) => (t, .error e) := by
  induction ws generalizing s with
  | nil => rfl
  | cons w ws ih =>
    cases h : run w s with
    | error e => rw [List.cons_append, attempt_cons_error run h, attempt_cons_error run h]
    | ok s' => rw [List.cons_append, attempt_cons_ok run h, attempt_cons_ok run h, ih]

/-- What every write of the program keeps is kept by the attempt. -/
theorem attempt_invariant {I : σ → Prop} {ws : List ω} {s : σ} (h0 : I s)
    (hw : ∀ w ∈ ws, ∀ s s', I s → run w s = .ok s' → I s') : I (attempt run ws s).1 := by
  unfold attempt
  split
  · next h => exact perform_invariant run h h0 hw
  · exact runAll_invariant run h0 hw

/-! ## Programs and their sessions -/

/-- The writes of an operation, and those of its error handler. -/
structure Program (ω : Type*) where
  writes : List ω
  undo : List ω := []

namespace Program

variable (p : Program ω) (cut undone : ℕ) (s : σ)

/-- Run the program, cut off after `cut` writes; the handler that runs after a cut or a failed write
is itself cut off after `undone` writes. -/
def session : σ :=
  let (s', left) := runAll run (p.writes.take cut) s
  if left.isEmpty && p.writes.length ≤ cut then s' else (runAll run (p.undo.take undone) s').1

/-- The writes of the session up to the cut or the write that failed. -/
def written : List ω := performed run (p.writes.take cut) s

end Program

/-! ## Writes that set a stamp -/

/-- How writes set the stamp of the store: `mark` is the stamp that a write sets, if it sets one. -/
structure Stamping (run : ω → σ → Except ε σ) where
  stamp : σ → ℕ
  mark : ω → Option ℕ
  keeps : ∀ {w s s'}, run w s = .ok s' → mark w = none → stamp s' = stamp s
  marks : ∀ {w s s' g}, run w s = .ok s' → mark w = some g → stamp s' = g

namespace Stamping

variable {run} (S : Stamping run) {g : ℕ} {ws us : List ω} {s : σ} {p : Program ω} {cut undone : ℕ}

/-- Every stamp among the writes is `g`. -/
def MarksAt (g : ℕ) (ws : List ω) : Prop := ∀ w ∈ ws, ∀ m, S.mark w = some m → m = g

/-- No write sets a stamp. -/
def Unmarked (ws : List ω) : Prop := ∀ w ∈ ws, S.mark w = none

variable {S}

theorem Unmarked.marksAt (h : S.Unmarked ws) : S.MarksAt g ws := by
  intro w hw m hm
  rw [h w hw] at hm
  cases hm

theorem MarksAt.append (h1 : S.MarksAt g ws) (h2 : S.MarksAt g us) : S.MarksAt g (ws ++ us) :=
  fun w hw => (List.mem_append.mp hw).elim (h1 w) (h2 w)

theorem Unmarked.append (h1 : S.Unmarked ws) (h2 : S.Unmarked us) : S.Unmarked (ws ++ us) :=
  fun w hw => (List.mem_append.mp hw).elim (h1 w) (h2 w)

theorem unmarked_runAll (h : S.Unmarked (performed run ws s)) :
    S.stamp (runAll run ws s).1 = S.stamp s := by
  induction ws generalizing s with
  | nil => rfl
  | cons w ws ih =>
    cases hr : run w s with
    | error e => rw [runAll_cons_error run hr]
    | ok s' =>
      rw [performed_cons_ok run hr] at h
      rw [runAll_cons_ok run hr, ih fun w' hw' => h w' (List.mem_cons_of_mem _ hw')]
      exact S.keeps hr (h w List.mem_cons_self)

/-- Once a write that sets the stamp is performed, the stamp is that of the marks. -/
theorem marked_runAll (hg : S.MarksAt g ws)
    (h : S.stamp s = g ∨ ∃ w ∈ performed run ws s, S.mark w ≠ none) :
    S.stamp (runAll run ws s).1 = g := by
  induction ws generalizing s with
  | nil => simpa [performed] using h
  | cons w ws ih =>
    have hrest : S.MarksAt g ws := fun w' hw' => hg w' (List.mem_cons_of_mem _ hw')
    cases hr : run w s with
    | error e =>
      rw [performed_cons_error run hr] at h
      rw [runAll_cons_error run hr]
      simpa using h
    | ok s' =>
      rw [performed_cons_ok run hr] at h
      rw [runAll_cons_ok run hr]
      refine ih hrest ?_
      cases hm : S.mark w with
      | some m => exact .inl ((S.marks hr hm).trans (hg w List.mem_cons_self m hm))
      | none =>
        refine h.imp (fun hs => (S.keeps hr hm).trans hs) ?_
        rintro ⟨w', hw', hm'⟩
        rcases List.mem_cons.mp hw' with rfl | hw'
        · exact absurd hm hm'
        · exact ⟨w', hw', hm'⟩

theorem unmarked_runAll_of (h : S.Unmarked ws) : S.stamp (runAll run ws s).1 = S.stamp s :=
  unmarked_runAll fun w hw =>
    h w ((performed_append_left run ws s) ▸ List.mem_append_left _ hw)

theorem Unmarked.take (h : S.Unmarked ws) (n : ℕ) : S.Unmarked (ws.take n) :=
  fun w hw => h w (List.mem_of_mem_take hw)

/-- The handler of a session does not touch the stamp. -/
theorem stamp_session (hu : S.Unmarked p.undo) :
    S.stamp (p.session run cut undone s) = S.stamp (runAll run (p.writes.take cut) s).1 := by
  simp only [Program.session]
  split_ifs
  · rfl
  · exact unmarked_runAll_of (hu.take undone)

/-- A session that performed a mark leaves its stamp. -/
theorem session_marked (hu : S.Unmarked p.undo) (hg : S.MarksAt g p.writes)
    (h : ¬ S.Unmarked (p.written run cut s)) : S.stamp (p.session run cut undone s) = g := by
  rw [stamp_session hu]
  refine marked_runAll (fun w hw => hg w (List.mem_of_mem_take hw)) (.inr ?_)
  simpa [Unmarked, Program.written] using h

/-- A session that performed no mark leaves the stamp as it was. -/
theorem session_unmarked (hu : S.Unmarked p.undo) (h : S.Unmarked (p.written run cut s)) :
    S.stamp (p.session run cut undone s) = S.stamp s := by
  rw [stamp_session hu]
  exact unmarked_runAll h

end Stamping

/-! ## Stamps along a run -/

namespace Machine

variable {α γ : Type*} {M : Machine σ α} {P : σ → α → Prop} {s t : σ}

/-- **One stamp, one content.** -/
theorem Reach.same_stamp {stamp : σ → ℕ} {content : σ → γ} (h : M.Reach P s t)
    (hle : ∀ u a, M.pre u a → stamp u ≤ stamp (M.post u a))
    (hsame : ∀ u a, M.pre u a → P u a → stamp (M.post u a) = stamp u →
      content (M.post u a) = content u) :
    stamp s ≤ stamp t ∧ (stamp t = stamp s → content t = content s) := by
  induction h with
  | refl => exact ⟨Nat.le_refl _, fun _ => rfl⟩
  | step a _ hpre hP ih =>
    refine ⟨Nat.le_trans ih.1 (hle _ a hpre), fun heq => ?_⟩
    have hu := hle _ a hpre
    have hkeep := hsame _ a hpre hP (by omega)
    exact hkeep.trans (ih.2 (by omega))

end Machine

end Lib
