import McServerDashboard.Servers.FinalSnapshot

/-!
# No mutation is lost to a final snapshot

* `Inv`, `Ok`: what holds of the server and of each thread while mutations keep apart from uploads.
* **`mutations_kept`**: in every such run the live copy holds every acknowledged mutation, and no
  upload is refused as stale because of one.
* `finalSnapshot_clobbers`: without the condition, a final snapshot replaces an acknowledged
  mutation, and a mutation makes a final snapshot be refused.
-/

namespace McServerDashboard.Servers

open Lib Dataplane

variable {s s' : Server} {t u : ℕ} {p : Pc} {w : WorkerId} {sc : Scratch}

/-- The working set holds all `acked` mutations, the last of which made generation `mutated`. -/
def Scratch.Current (sc : Scratch) (acked mutated : ℕ) : Prop := acked ≤ sc.seen ∧ mutated ≤ sc.base

/-- Nothing is being uploaded, nor held by the assigned Worker. -/
def Quiet (s : Server) : Prop :=
  s.uploads = [] ∧ ∀ w, s.store.assigned = some w → s.scratch w = none

theorem quiet_of_apart (h : s.uploads = [] ∧ s.assignedIsClean = true) : Quiet s := by
  refine ⟨h.1, fun w hw => ?_⟩
  have hclean := h.2
  rw [Server.assignedIsClean, hw] at hclean
  exact of_decide_eq_true hclean

/-- What holds of the server. -/
structure Inv (s : Server) : Prop where
  editing : ∀ t, s.lifecycle = some t → s.desired = .stopped
  launching : ∀ w, s.starting = some w → s.desired = .running ∧ s.store.assigned = some w
  stopping : ∀ w, s.flow = .stopping w ∨ s.flow = .stopped w →
    s.store.assigned = some w ∧ s.desired = .stopped
  live : s.acked ≤ s.seen
  stamp : s.mutated ≤ s.store.marker.generation
  /-- A working set that lacks a mutation is behind the store, so the next start replaces it. -/
  scratch : ∀ w sc, s.scratch w = some sc →
    sc.base ≤ s.store.marker.generation ∧ (sc.Current s.acked s.mutated ∨ sc.base < s.store.marker.generation)
  assigned : s.starting = none → ∀ w sc, s.store.assigned = some w → s.scratch w = some sc →
    sc.Current s.acked s.mutated
  uploads : ∀ x ∈ s.uploads, s.acked ≤ x.2.seen ∧ s.mutated ≤ x.2.base ∧
    ∀ sc, s.scratch x.2.worker = some sc → sc.Current s.acked s.mutated

/-- The thread has an upload in flight. -/
def Sends (s : Server) (t : ℕ) : Prop := ∃ k, (t, k) ∈ s.uploads

/-- What holds for a thread at each of its positions. -/
def Ok (s : Server) (t : ℕ) : Pc → Prop
  | .arrived _ base => Sends s t ∧ s.mutated ≤ base
  | .compared g => Sends s t ∧ s.mutated ≤ g.base ∧ s.mutated ≤ g.generation
  | .identified g => Sends s t ∧ s.mutated ≤ g.base ∧ s.mutated ≤ g.generation
  | .streaming g => Sends s t ∧ s.mutated ≤ g.generation
  | .fenced g => Sends s t ∧ s.mutated ≤ g.generation
  | .locked _ => s.store.lock = some t
  | .cleared _ _ => s.store.lock = some t
  | .flipped _ => s.store.lock = some t
  | .unlocking => s.store.lock = some t
  | .changing _ => s.store.lock = some t ∧ s.lifecycle = some t
  | .changed _ => s.store.lock = some t ∧ s.lifecycle = some t ∧ s.seen = s.acked + 1 ∧ Quiet s
  | .idle => True
  | .over => True
  | _ => False

/-- What a step of `t` leaves to the other threads. -/
structure Spares (s s' : Server) (t : ℕ) : Prop where
  sent : ∀ x ∈ s.uploads, x.1 ≠ t → x ∈ s'.uploads ∧ s'.mutated = s.mutated
  held : ∀ u, u ≠ t → s.store.lock = some u →
    s'.store.lock = some u ∧ s'.seen = s.seen ∧ s'.acked = s.acked
  quiet : ∀ u, u ≠ t → s.lifecycle = some u → s'.lifecycle = some u ∧ (Quiet s → Quiet s')

theorem Spares.sends (h : Spares s s' t) (hu : u ≠ t) (hs : Sends s u) :
    Sends s' u ∧ s'.mutated = s.mutated := by
  obtain ⟨k, hk⟩ := hs
  exact ⟨⟨k, (h.sent _ hk hu).1⟩, (h.sent _ hk hu).2⟩

/-- The assertions of the other threads survive the step. -/
theorem Spares.ok (h : Spares s s' t) (hu : u ≠ t) (hok : Ok s u p) : Ok s' u p := by
  cases p with
  | arrived w b | compared g | identified g | streaming g =>
    exact ⟨(h.sends hu hok.1).1, (h.sends hu hok.1).2 ▸ hok.2⟩
  | fenced g => exact ⟨(h.sends hu hok.1).1, (h.sends hu hok.1).2 ▸ hok.2⟩
  | locked g | cleared g a | flipped g | unlocking => exact (h.held u hu hok).1
  | changing a => exact ⟨(h.held u hu hok.1).1, (h.quiet u hu hok.2).1⟩
  | changed a =>
    obtain ⟨hlock, hlife, hseen, hquiet⟩ := hok
    obtain ⟨hlock', hs, ha⟩ := h.held u hu hlock
    obtain ⟨hlife', hq⟩ := h.quiet u hu hlife
    exact ⟨hlock', hlife', by rw [hs, ha, hseen], hq hquiet⟩
  | idle => trivial
  | «over» => trivial
  | pruning => exact hok
  | pruneMarked => exact hok
  | unlinked => exact hok

/-- One step keeps the invariant and the thread's assertion, and lets the others be. -/
structure Steps (s : Server) (t : ℕ) (r : Server × Pc) : Prop where
  inv : Inv r.1
  own : Ok r.1 t r.2
  others : Spares s r.1 t

theorem Spares.refl : Spares s s t :=
  ⟨fun _ hx _ => ⟨hx, rfl⟩, fun _ _ h => ⟨h, rfl, rfl⟩, fun _ _ h => ⟨h, id⟩⟩

theorem Steps.same {q : Pc} (hi : Inv s) (own : Ok s t q) : Steps s t (s, q) := ⟨hi, own, .refl⟩

/-! ## Steps at the store -/

/-- What the store may become under the other flows: the assignment stays, the generation does not
go back, and no upload is added. -/
theorem Inv.store (hi : Inv s) {st : Store} {us : List (ℕ × Upload)} {n : ℕ}
    (ha : st.assigned = s.store.assigned) (hg : s.store.marker.generation ≤ st.marker.generation)
    (hus : ∀ x ∈ us, x ∈ s.uploads) (hn : s.acked ≤ n) :
    Inv { s with store := st, uploads := us, seen := n } where
  editing := hi.editing
  launching w hw := ⟨(hi.launching w hw).1, ha.trans (hi.launching w hw).2⟩
  stopping w hw := ⟨ha.trans (hi.stopping w hw).1, (hi.stopping w hw).2⟩
  live := hn
  stamp := hi.stamp.trans hg
  scratch w sc hsc := by
    obtain ⟨hle, hcur | hlt⟩ := hi.scratch w sc hsc
    · exact ⟨hle.trans hg, .inl hcur⟩
    · exact ⟨hle.trans hg, .inr (hlt.trans_le hg)⟩
  assigned hst w sc hw hsc := hi.assigned hst w sc (ha.symm.trans hw) hsc
  uploads x hx := hi.uploads x (hus x hx)

theorem mem_without {x : ℕ × Upload} : x ∈ s.without t ↔ x ∈ s.uploads ∧ x.1 ≠ t := by
  simp [Server.without]

/-- A step at the store after which the thread goes on. -/
theorem Steps.store (hi : Inv s) {st : Store} {n : ℕ} {q : Pc}
    (ha : st.assigned = s.store.assigned) (hg : s.store.marker.generation ≤ st.marker.generation)
    (hn : s.acked ≤ n)
    (hl : ∀ u, u ≠ t → s.store.lock = some u → st.lock = some u ∧ n = s.seen)
    (own : Ok { s with store := st, seen := n } t q) :
    Steps s t ({ s with store := st, seen := n }, q) where
  inv := hi.store ha hg (fun _ hx => hx) hn
  own := own
  others := by
    refine ⟨fun x hx _ => ⟨hx, rfl⟩, fun u hu h => ⟨(hl u hu h).1, (hl u hu h).2, rfl⟩, ?_⟩
    exact fun u _ h => ⟨h, fun hq => ⟨hq.1, fun w hw => hq.2 w (ha.symm.trans hw)⟩⟩

/-- A step at the store that ends the thread's request. -/
theorem Steps.over (hi : Inv s) {st : Store} (ha : st.assigned = s.store.assigned)
    (hm : st.marker = s.store.marker) (hl : ∀ u, u ≠ t → s.store.lock = some u → st.lock = some u) :
    Steps s t ({ s with store := st, uploads := s.without t }, .over) where
  inv := hi.store ha (by rw [hm]) (fun _ hx => (mem_without.mp hx).1) hi.live
  own := trivial
  others := by
    refine ⟨fun x hx hne => ⟨mem_without.mpr ⟨hx, hne⟩, rfl⟩, fun u hu h => ⟨hl u hu h, rfl, rfl⟩, ?_⟩
    refine fun u _ h => ⟨h, fun hq => ⟨?_, fun w hw => hq.2 w (ha.symm.trans hw)⟩⟩
    simp [Server.without, hq.1]

theorem take_over {a : Dataplane.Step} {st : Store} (h : Dataplane.post t s.store p a = (st, .over)) :
    s.take t p a = ({ s.count t a with store := st, uploads := s.without t }, .over) := by
  simp only [Server.take, h, if_true]

theorem take_on {a : Dataplane.Step} {st : Store} {q : Pc} (h : Dataplane.post t s.store p a = (st, q))
    (hq : q ≠ .over) : s.take t p a = ({ s.count t a with store := st, uploads := s.uploads }, q) := by
  simp only [Server.take, h, if_neg hq]

theorem mem_of_lookup {k : Upload} (h : s.uploads.lookup t = some k) : (t, k) ∈ s.uploads := by
  obtain ⟨l₁, l₂, hl, -⟩ := List.lookup_eq_some_iff.mp h
  rw [hl]
  exact List.mem_append_right _ List.mem_cons_self

theorem Inv.seen_of_lookup (hi : Inv s) : s.acked ≤ ((s.uploads.lookup t).map Upload.seen).getD s.seen := by
  cases h : s.uploads.lookup t with
  | none => exact hi.live
  | some k => exact (hi.uploads _ (mem_of_lookup h)).1

/-- The holder of the server lock changes the store. -/
theorem lock_ne (hl : s.store.lock = some t) {P : Prop} (hu : u ≠ t) (h : s.store.lock = some u) : P :=
  absurd (Option.some.inj (h.symm.trans hl)) hu

theorem lock_free (hl : s.store.lock = none) {P : Prop} (h : s.store.lock = some u) : P := by
  rw [hl] at h
  cases h

/-- **A mutation is marked.** Nothing is in flight that lacks it, and every working set that lacks it
is behind the store. -/
theorem steps_markChange (hi : Inv s) (own : Ok s t (.changed .edit)) (publisher : Option String) :
    Steps s t ({ s with
      store := { s.store with marker := s.store.marker.bump publisher, marked := true }
      acked := s.acked + 1
      mutated := s.store.marker.generation + 1 }, .unlocking) := by
  obtain ⟨hlock, hlife, hseen, hquiet⟩ := own
  refine ⟨⟨hi.editing, hi.launching, hi.stopping, hseen.ge, Nat.le_refl _, ?_, ?_, ?_⟩, hlock, ?_⟩
  · intro w sc hsc
    have hle := (hi.scratch w sc hsc).1
    exact ⟨Nat.le_succ_of_le hle, .inr (Nat.lt_succ_of_le hle)⟩
  · intro _ w sc hw hsc
    rw [hquiet.2 w hw] at hsc
    cases hsc
  · intro x hx
    rw [hquiet.1] at hx
    cases hx
  · refine ⟨fun x hx _ => ?_, fun u hu h => lock_ne hlock hu h, fun u _ h => ⟨h, id⟩⟩
    rw [hquiet.1] at hx
    cases hx

/-- A thread fails under the lock. -/
theorem steps_fail (hi : Inv s) (hl : s.store.lock = some t) :
    Steps s t ({ s with
      store := { s.store with lock := none }
      uploads := s.without t
      seen := min s.seen s.acked }, .over) where
  inv := hi.store rfl le_rfl (fun _ hx => (mem_without.mp hx).1) (le_min hi.live le_rfl)
  own := trivial
  others := by
    refine ⟨fun x hx hne => ⟨mem_without.mpr ⟨hx, hne⟩, rfl⟩, fun u hu h => lock_ne hl hu h, ?_⟩
    refine fun u _ h => ⟨h, fun hq => ⟨?_, hq.2⟩⟩
    simp [Server.without, hq.1]

/-- The thread that may fail holds the lock. -/
theorem Ok.lock (own : Ok s t p) (hp : p.mayFail = true) : s.store.lock = some t := by
  cases p with
  | locked g => exact own
  | cleared g a => exact own
  | flipped g => exact own
  | unlocking => exact own
  | changing a => exact own.1
  | changed a => exact own.1
  | pruning => exact own.elim
  | pruneMarked => exact own.elim
  | unlinked => exact own.elim
  | _ => cases hp

/-- A step of an upload or of a mutation at the store. -/
theorem steps_store (hi : Inv s) (own : Ok s t p) (a : Dataplane.Step) (hp : storePre t s p a)
    (hquiet : ∀ b, a = .change b → Quiet s) : Steps s t (s.take t p a) := by
  cases a with
  | readGeneration w base =>
    have hp : p = .arrived w base := hp
    subst hp
    rw [take_on rfl (by simp)]
    exact .same hi ⟨own.1, own.2, hi.stamp⟩
  | readPublisher g =>
    obtain ⟨-, rfl, -⟩ := hp
    rw [take_on rfl (by simp)]
    exact .same hi own
  | allow g =>
    have hp : p = .compared g ∨ p = .identified g := by
      simp only [storePre] at hp
      split_ifs at hp
      · exact .inl hp
      · exact hp.1
    rw [take_on rfl (by simp)]
    rcases hp with rfl | rfl <;> exact .same hi ⟨own.1, own.2.2⟩
  | readAssigned g =>
    obtain ⟨rfl, -⟩ := hp
    by_cases ha : s.store.assigned = some g.worker
    · have h : Dataplane.post t s.store (.identified g) (.readAssigned g) =
          (s.store, .streaming { g with assigned := some s.store.assigned }) :=
        congrArg (Prod.mk s.store) (if_pos ha)
      rw [take_on h (by simp)]
      exact .same hi ⟨own.1, own.2.2⟩
    · have h : Dataplane.post t s.store (.identified g) (.readAssigned g) = (s.store, .over) :=
        congrArg (Prod.mk s.store) (if_neg ha)
      rw [take_over h]
      exact .over hi rfl rfl fun _ _ h => h
  | earlyFence g =>
    have hp : p = .streaming g := hp
    subst hp
    by_cases hf : fence g.worker s.store.assigned = true
    · have h : Dataplane.post t s.store (.streaming g) (.earlyFence g) = (s.store, .fenced g) :=
        congrArg (Prod.mk s.store) (if_pos hf)
      rw [take_on h (by simp)]
      exact .same hi own
    · have h : Dataplane.post t s.store (.streaming g) (.earlyFence g) = (s.store, .over) :=
        congrArg (Prod.mk s.store) (if_neg hf)
      rw [take_over h]
      exact .over hi rfl rfl fun _ _ h => h
  | abort =>
    rw [take_over rfl]
    exact .over hi rfl rfl fun _ _ h => h
  | lockCommit g =>
    obtain ⟨rfl, hfree⟩ := hp
    by_cases hgen : s.store.marker.generation = g.generation
    · have h : Dataplane.post t s.store (.fenced g) (.lockCommit g) =
          ({ s.store with lock := some t }, .locked g) := if_pos hgen
      rw [take_on h (by simp)]
      exact .store hi rfl le_rfl hi.live (fun _ _ h => lock_free hfree h) rfl
    · have h : Dataplane.post t s.store (.fenced g) (.lockCommit g) = (s.store, .over) := if_neg hgen
      rw [take_over h]
      exact .over hi rfl rfl fun _ _ h => h
  | refuse g =>
    have hp : p = .locked g := hp
    subst hp
    rw [take_over rfl]
    exact .over hi rfl rfl fun _ hu h => lock_ne own hu h
  | lateFence g =>
    have hp : p = .locked g := hp
    subst hp
    by_cases hf : fence g.worker s.store.assigned = true
    · have h : Dataplane.post t s.store (.locked g) (.lateFence g) =
          (s.store, .cleared g s.store.assigned) := if_pos hf
      rw [take_on h (by simp)]
      exact .same hi own
    · have h : Dataplane.post t s.store (.locked g) (.lateFence g) =
          ({ s.store with lock := none }, .over) := if_neg hf
      rw [take_over h]
      exact .over hi rfl rfl fun _ hu h => lock_ne own hu h
  | flip g assigned =>
    have hp : p = .cleared g assigned := hp
    subst hp
    rw [take_on rfl (by simp)]
    exact .store hi rfl le_rfl hi.seen_of_lookup (fun _ hu h => lock_ne own hu h) own
  | mark g =>
    have hp : p = .flipped g := hp
    subst hp
    rw [take_on rfl (by simp)]
    exact .store hi rfl (Nat.le_succ _) hi.live (fun _ hu h => lock_ne own hu h) own
  | unlock =>
    have hp : p = .unlocking := hp
    subst hp
    rw [take_over rfl]
    exact .over hi rfl rfl fun _ hu h => lock_ne own hu h
  | lockChange a =>
    obtain ⟨rfl, hlife, -, hfree⟩ := hp
    rw [take_on rfl (by simp)]
    exact .store hi rfl le_rfl hi.live (fun _ _ h => lock_free hfree h) ⟨rfl, hlife⟩
  | refuseChange a =>
    have hp : p = .changing a := hp
    subst hp
    rw [take_on rfl (by simp)]
    exact .same hi own.1
  | change a =>
    have hp : p = .changing a := hp
    subst hp
    have hq := hquiet a rfl
    rw [take_on rfl (by simp)]
    exact .store hi rfl le_rfl (Nat.le_succ _) (fun _ hu h => lock_ne own.1 hu h) ⟨own.1, own.2, rfl, hq.1, hq.2⟩
  | markChange a =>
    have hp : p = .changed a := hp
    subst hp
    rw [take_on rfl (by simp)]
    exact steps_markChange hi own _
  | fail =>
    rw [take_over rfl]
    exact steps_fail hi (own.lock hp)
  | arrive => exact hp.elim
  | lockPrune => exact hp.elim
  | prune => exact hp.elim
  | unlink => exact hp.elim
  | dropPublisher => exact hp.elim
  | assign => exact hp.elim

/-! ## Steps of the flows -/

/-- A step of a flow that no thread's position depends on. -/
theorem Steps.row (hi : Inv s') (h : ∀ t, Spares s s' t) (own : Ok s t p) : Steps s t (s', p) :=
  ⟨hi, (h (t + 1)).ok (by omega) own, h t⟩

theorem spares_row (hu : s'.uploads = s.uploads) (hm : s'.mutated = s.mutated)
    (hl : s'.store.lock = s.store.lock) (hs : s'.seen = s.seen) (ha : s'.acked = s.acked)
    (hq : ∀ u, s.lifecycle = some u → s'.lifecycle = some u ∧ (Quiet s → Quiet s')) (t : ℕ) :
    Spares s s' t :=
  ⟨fun _ hx _ => ⟨hu ▸ hx, hm⟩, fun _ _ h => ⟨hl.trans h, hs, ha⟩, fun u _ => hq u⟩

/-- No mutation is in progress while a start is. -/
theorem Inv.not_editing (hi : Inv s) {P : Prop} (hw : s.starting = some w) (hu : s.lifecycle = some u) : P := by
  have hrun := (hi.launching w hw).1
  rw [hi.editing u hu] at hrun
  cases hrun

theorem steps_flow (hi : Inv s) (own : Ok s t p) {f : Flow}
    (hf : ∀ w, f = .stopping w ∨ f = .stopped w → s.store.assigned = some w ∧ s.desired = .stopped) :
    Steps s t ({ s with flow := f }, p) :=
  .row { hi with stopping := hf } (spares_row rfl rfl rfl rfl rfl fun _ h => ⟨h, id⟩) own

/-- The assigned Worker of a flow that runs is not being started. -/
theorem Inv.not_starting (hi : Inv s) (hd : s.desired = .stopped) : s.starting = none := by
  cases h : s.starting with
  | none => rfl
  | some w =>
    have hrun := (hi.launching w h).1
    rw [hd] at hrun
    cases hrun

/-- A Worker begins to upload a working set that holds every mutation. -/
theorem steps_send (hi : Inv s) {f : Flow} {final : Bool} (hsc : s.scratch w = some sc)
    (hw : s.store.assigned = some w) (hst : s.starting = none)
    (hf : ∀ w, f = .stopping w ∨ f = .stopped w → s.store.assigned = some w ∧ s.desired = .stopped) :
    Steps s t ({ s with flow := f, uploads := (t, ⟨w, sc.base, sc.seen, final⟩) :: s.uploads },
      .arrived w sc.base) := by
  have hcur := hi.assigned hst w sc hw hsc
  refine ⟨{ hi with stopping := hf, uploads := ?_ }, ⟨⟨_, List.mem_cons_self⟩, hcur.2⟩, ?_⟩
  · intro x hx
    rcases List.mem_cons.mp hx with rfl | hx
    · refine ⟨hcur.1, hcur.2, fun sc' hsc' => ?_⟩
      rw [hsc, Option.some.injEq] at hsc'
      exact hsc' ▸ hcur
    · exact hi.uploads x hx
  · refine ⟨fun x hx _ => ⟨List.mem_cons_of_mem _ hx, rfl⟩, fun _ _ h => ⟨h, rfl, rfl⟩, ?_⟩
    refine fun u _ h => ⟨h, fun hq => ?_⟩
    rw [hq.2 w hw] at hsc
    cases hsc

theorem steps_hydrate (hi : Inv s) (own : Ok s t p) (hw : s.starting = some w) :
    Steps s t ({ s with
      starting := none
      scratch := Function.update s.scratch w (some ⟨s.store.marker.generation, s.seen⟩) }, p) := by
  have hcur : Scratch.Current ⟨s.store.marker.generation, s.seen⟩ s.acked s.mutated := ⟨hi.live, hi.stamp⟩
  have hassigned := (hi.launching w hw).2
  have hupd : ∀ v sc, Function.update s.scratch w (some ⟨s.store.marker.generation, s.seen⟩) v = some sc →
      sc = ⟨s.store.marker.generation, s.seen⟩ ∨ s.scratch v = some sc := by
    intro v sc h
    by_cases hv : v = w
    · subst hv
      rw [Function.update_self, Option.some.injEq] at h
      exact .inl h.symm
    · rw [Function.update_of_ne hv] at h
      exact .inr h
  refine .row { hi with launching := ?_, scratch := ?_, assigned := ?_, uploads := ?_ }
    (spares_row rfl rfl rfl rfl rfl fun u hu => hi.not_editing hw hu) own
  · rintro v hv
    cases hv
  · intro v sc h
    rcases hupd v sc h with rfl | h
    · exact ⟨le_rfl, .inl hcur⟩
    · exact hi.scratch v sc h
  · intro _ v sc hv h
    have hvw : v = w := Option.some.inj (hv.symm.trans hassigned)
    subst hvw
    change Function.update s.scratch v _ v = some sc at h
    rw [Function.update_self, Option.some.injEq] at h
    exact h ▸ hcur
  · intro x hx
    obtain ⟨hseen, hbase, hold⟩ := hi.uploads x hx
    refine ⟨hseen, hbase, fun sc h => ?_⟩
    rcases hupd _ sc h with rfl | h
    · exact hcur
    · exact hold sc h

/-- The Worker keeps a working set that is not behind the store, so it lacks no mutation. -/
theorem steps_skipHydrate (hi : Inv s) (own : Ok s t p) (hw : s.starting = some w)
    (hsc : s.scratch w = some sc) (hle : s.store.marker.generation ≤ sc.base) :
    Steps s t ({ s with starting := none }, p) := by
  refine .row { hi with launching := ?_, assigned := ?_ }
    (spares_row rfl rfl rfl rfl rfl fun u hu => hi.not_editing hw hu) own
  · rintro v hv
    cases hv
  · intro _ v sc' hv h
    have hvw : v = w := Option.some.inj (hv.symm.trans (hi.launching w hw).2)
    subst hvw
    have heq : sc = sc' := Option.some.inj (hsc.symm.trans h)
    subst heq
    rcases (hi.scratch v sc hsc).2 with hcur | hlt
    · exact hcur
    · omega

theorem steps_answered (hi : Inv s) (hl : s.store.lock = some t) {k : Upload}
    (hk : s.uploads.lookup t = some k) :
    Steps s t ({ s with
      store := { s.store with lock := none }
      uploads := s.without t
      scratch := Function.update s.scratch k.worker
        (k.received s.store.marker.generation (s.scratch k.worker)) }, .over) := by
  have hmem : (t, k) ∈ s.uploads := mem_of_lookup hk
  have hupd : ∀ v sc, Function.update s.scratch k.worker
        (k.received s.store.marker.generation (s.scratch k.worker)) v = some sc →
      sc.base ≤ s.store.marker.generation ∧ sc.Current s.acked s.mutated ∨ s.scratch v = some sc := by
    intro v sc h
    by_cases hv : v = k.worker
    · subst hv
      rw [Function.update_self, Upload.received] at h
      split_ifs at h
      obtain ⟨old, hold, rfl⟩ := Option.map_eq_some_iff.mp h
      exact .inl ⟨le_rfl, ((hi.uploads _ hmem).2.2 old hold).1, hi.stamp⟩
    · rw [Function.update_of_ne hv] at h
      exact .inr h
  refine ⟨{ hi with scratch := ?_, assigned := ?_, uploads := ?_ }, trivial, ?_⟩
  · intro v sc h
    rcases hupd v sc h with h | h
    · exact ⟨h.1, .inl h.2⟩
    · exact hi.scratch v sc h
  · intro hst v sc hv h
    rcases hupd v sc h with h | h
    · exact h.2
    · exact hi.assigned hst v sc hv h
  · intro x hx
    obtain ⟨hseen, hbase, hold⟩ := hi.uploads x (mem_without.mp hx).1
    refine ⟨hseen, hbase, fun sc h => ?_⟩
    rcases hupd _ sc h with h | h
    · exact h.2
    · exact hold sc h
  · refine ⟨fun x hx hne => ⟨mem_without.mpr ⟨hx, hne⟩, rfl⟩, fun u hu h => lock_ne hl hu h, ?_⟩
    refine fun u _ h => ⟨h, fun hq => ?_⟩
    rw [hq.1] at hmem
    cases hmem

theorem steps (hi : Inv s) (own : Ok s t p) (a : Act) (hp : pre t s p a)
    (hquiet : ∀ b, a = .store (.change b) → Quiet s) (hstop : ∀ w, a = .stop w → s.starting = none) :
    Steps s t (post t s p a) := by
  cases a with
  | store a => exact steps_store hi own a hp fun b hb => hquiet b (congrArg Act.store hb)
  | answered =>
    obtain ⟨rfl, hsome⟩ := hp
    obtain ⟨k, hk⟩ := Option.isSome_iff_exists.mp hsome
    simp only [post, hk]
    exact steps_answered hi own hk
  | beginEdit =>
    obtain ⟨rfl, hfree, hrest⟩ := hp
    refine .row { hi with editing := fun _ _ => stopped_of_isAtRest hrest }
      (spares_row rfl rfl rfl rfl rfl fun u h => ?_) own
    rw [hfree] at h
    cases h
  | endEdit =>
    refine ⟨{ hi with editing := fun _ h => (by cases h) }, trivial, ?_⟩
    refine ⟨fun x hx _ => ⟨hx, rfl⟩, fun _ _ h => ⟨h, rfl, rfl⟩, fun u hu h => ?_⟩
    exact absurd (Option.some.inj (h.symm.trans hp.1)) hu
  | place w =>
    obtain ⟨hfree, -, hnone⟩ := hp
    refine .row { hi with editing := ?_, launching := ?_, stopping := ?_, assigned := ?_ }
      (spares_row rfl rfl rfl rfl rfl fun u h => ?_) own
    · intro u hu
      change s.lifecycle = some u at hu
      rw [hfree] at hu
      cases hu
    · rintro v hv
      exact ⟨rfl, hv⟩
    · intro v hv
      have hold := (hi.stopping v hv).1
      rw [hnone] at hold
      cases hold
    · rintro hst
      cases hst
    · rw [hfree] at h
      cases h
  | hydrate w => exact steps_hydrate hi own hp.1
  | skipHydrate w sc => exact steps_skipHydrate hi own hp.1 hp.2.2.1 hp.2.2.2
  | compensate w =>
    have hw : s.starting = some w := hp
    simp only [post, (hi.launching w hw).1, if_true]
    refine .row { hi with editing := fun _ _ => rfl, launching := ?_, stopping := ?_, assigned := ?_ }
      (spares_row rfl rfl rfl rfl rfl fun u hu => hi.not_editing hw hu) own
    · rintro v hv
      cases hv
    · intro v hv
      have hold := (hi.stopping v hv).2
      rw [(hi.launching w hw).1] at hold
      cases hold
    · rintro - v sc hv
      cases hv
  | stop w =>
    obtain ⟨-, -, hw⟩ := hp
    refine .row { hi with editing := fun _ _ => rfl, launching := ?_, stopping := ?_ }
      (spares_row rfl rfl rfl rfl rfl fun _ h => ⟨h, id⟩) own
    · intro v hv
      change s.starting = some v at hv
      rw [hstop w rfl] at hv
      cases hv
    · rintro v (hv | hv)
      · cases hv
        exact ⟨hw, rfl⟩
      · cases hv
  | redispatchStop w =>
    refine steps_flow hi own fun v hv => ?_
    rcases hv with hv | hv <;> cases hv
    exact ⟨hp.2.2, hp.2.1⟩
  | clearStale w =>
    refine steps_flow hi own fun v hv => ?_
    rcases hv with hv | hv <;> cases hv
    exact ⟨hp.2.2, stopped_of_isAtRest hp.2.1⟩
  | confirm w applied =>
    have hw := hi.stopping w (.inl hp)
    have hf : ∀ v, Flow.stopped w = .stopping v ∨ Flow.stopped w = .stopped v →
        s.store.assigned = some v ∧ s.desired = .stopped := by
      rintro v (hv | hv) <;> cases hv
      exact hw
    simp only [post]
    split_ifs
    · exact .row { hi with stopping := hf } (spares_row rfl rfl rfl rfl rfl fun _ h => ⟨h, id⟩) own
    · exact steps_flow hi own hf
  | dispatch w sc =>
    obtain ⟨hflow, hsc, -⟩ := hp
    obtain ⟨hw, hd⟩ := hi.stopping w (.inr hflow)
    exact steps_send hi hsc hw (hi.not_starting hd) (by rintro v (hv | hv) <;> cases hv)
  | absent w | settle w | giveUp => exact steps_flow hi own (by rintro v (hv | hv) <;> cases hv)
  | release w =>
    simp only [post]
    split_ifs with hrow
    · refine .row { hi with launching := ?_, stopping := ?_, assigned := ?_ }
        (spares_row rfl rfl rfl rfl rfl fun _ h => ⟨h, fun hq => ⟨hq.1, ?_⟩⟩) own
      · intro v hv
        have hrun := (hi.launching v hv).1
        rw [hrow.1] at hrun
        cases hrun
      · rintro v (hv | hv) <;> cases hv
      · rintro - v sc hv
        cases hv
      · rintro v hv
        cases hv
    · exact steps_flow hi own (by rintro v (hv | hv) <;> cases hv)
  | snapshot w sc =>
    obtain ⟨-, hw, hst, hsc, -⟩ := hp
    exact steps_send hi hsc hw hst hi.stopping
  | report o => exact .row { hi with } (spares_row rfl rfl rfl rfl rfl fun _ h => ⟨h, id⟩) own

/-! ## Runs -/

variable {c : Threads.Config Server Pc}

theorem holds_start : Threads.Holds Inv Ok start := by
  refine ⟨⟨?_, ?_, ?_, le_rfl, le_rfl, ?_, ?_, ?_⟩, fun _ => trivial⟩
  · rintro t h
    cases h
  · rintro w h
    cases h
  · rintro w (h | h) <;> cases h
  · rintro w sc h
    cases h
  · rintro - w sc h
    cases h
  · rintro x h
    cases h

theorem holds_reach (h : server.machine.Reach Apart start c) : Threads.Holds Inv Ok c := by
  refine Threads.invariant h holds_start fun c t a hc hp hP => ?_
  have hst : Steps c.shared t (post t c.shared (c.th t) a) := by
    refine steps hc.shared (hc.thread t) a hp ?_ ?_
    · rintro b rfl
      exact quiet_of_apart hP
    · rintro w rfl
      exact hP
  exact ⟨hst.inv, hst.own, fun u hu hok => hst.others.ok hu hok⟩

/-- **If every mutation is written while nothing is being uploaded and the assigned Worker holds no
working set, and no stop begins between a start's placement and its hydrate, then the live copy
always holds every acknowledged mutation, and no upload is refused as stale because of one.** -/
theorem mutations_kept (h : server.machine.Reach Apart start c) :
    c.shared.acked ≤ c.shared.seen ∧
      ∀ t a, server.pre t c.shared (c.th t) a → ¬ a.refusesForMutation c.shared := by
  have hc := holds_reach h
  refine ⟨hc.shared.live, fun t a hp hr => ?_⟩
  have hok := hc.thread t
  cases a with
  | store a =>
    cases a with
    | readAssigned g =>
      have hpc : c.th t = .identified g := hp.1
      rw [hpc] at hok
      exact absurd hr.2 (not_lt_of_ge hok.2.1)
    | lockCommit g =>
      have hpc : c.th t = .fenced g := hp.1
      rw [hpc] at hok
      exact absurd hr.2 (not_lt_of_ge hok.2)
    | _ => exact hr.elim
  | _ => exact hr.elim

/-- A mutation of the server at rest. -/
def mutation (t : ℕ) : List (ℕ × Act) :=
  [(t, .beginEdit), (t, .store (.lockChange .edit)), (t, .store (.change .edit)),
    (t, .store (.markChange .edit)), (t, .store .unlock), (t, .endEdit)]

/-- The first file is written, Worker `w` runs the server, and a stop is confirmed. -/
def ranAndStopped : List (ℕ × Act) :=
  mutation 0 ++ [(9, .place "w"), (9, .hydrate "w"), (9, .report .running), (9, .stop "w"), (9, .confirm "w" true)]

/-- What the guard of `w`'s final snapshot reads after `generation`. -/
def finalGuard (generation : ℕ) : Guard := { worker := "w", base := 1, generation := generation }

/-- The final snapshot is dispatched and published. -/
def published : List (ℕ × Act) :=
  [(2, .dispatch "w" ⟨1, 1⟩), (2, .store (.readGeneration "w" 1)), (2, .store (.allow (finalGuard 1))),
    (2, .store (.earlyFence (finalGuard 1))), (2, .store (.lockCommit (finalGuard 1))),
    (2, .store (.lateFence (finalGuard 1))), (2, .store (.flip (finalGuard 1) (some "w"))),
    (2, .store (.mark (finalGuard 1))), (2, .answered)]

theorem mutations_kept_published :
    ∃ c : Threads.Config Server Pc, c.shared.store.marker.generation = 3 ∧ c.shared.acked = 2 ∧
      c.shared.acked ≤ c.shared.seen ∧
      ∀ t a, server.pre t c.shared (c.th t) a → ¬ a.refusesForMutation c.shared := by
  have hrun : ((server.machine.guard Apart).exec (ranAndStopped ++ published ++ mutation 1) start).map
      (fun c => (c.shared.store.marker.generation, c.shared.acked)) = some (3, 2) := by decide
  obtain ⟨c, hr, hc⟩ := Machine.reach_of_exec_map hrun
  rw [Prod.mk.injEq] at hc
  exact ⟨c, hc.1, hc.2, mutations_kept (Machine.reach_of_guard hr)⟩

/-- The mutation lands before the final snapshot is dispatched: the base lags behind it, and the
guard lets the assigned Worker replace it. -/
def mutatedBeforeFinal : List (ℕ × Act) :=
  let lagging : Guard := finalGuard 2
  let edited : Guard := { lagging with publisher := some (some apiEditPublisher) }
  let assigned : Guard := { edited with assigned := some (some "w") }
  ranAndStopped ++ mutation 1 ++
    [(2, .dispatch "w" ⟨1, 1⟩), (2, .store (.readGeneration "w" 1)), (2, .store (.readPublisher lagging)),
      (2, .store (.readAssigned edited)), (2, .store (.earlyFence assigned)),
      (2, .store (.lockCommit assigned)), (2, .store (.lateFence assigned)),
      (2, .store (.flip assigned (some "w"))), (2, .store (.mark assigned)), (2, .answered)]

/-- The mutation lands while the final snapshot is uploaded. -/
def mutatedDuringFinal : List (ℕ × Act) :=
  ranAndStopped ++
    [(2, .dispatch "w" ⟨1, 1⟩), (2, .store (.readGeneration "w" 1)), (2, .store (.allow (finalGuard 1))),
      (2, .store (.earlyFence (finalGuard 1)))] ++ mutation 1

/-- **A final snapshot replaces an acknowledged mutation, and a mutation makes a final snapshot be
refused as stale.** -/
theorem finalSnapshot_clobbers :
    (∃ c : Threads.Config Server Pc, server.machine.Reach Machine.Any start c ∧
      c.shared.seen < c.shared.acked) ∧
    ∃ c : Threads.Config Server Pc, server.machine.Reach Machine.Any start c ∧
      c.shared.uploads = [(2, ⟨"w", 1, 1, true⟩)] ∧
      server.pre 2 c.shared (c.th 2) (.store (.lockCommit (finalGuard 1))) ∧
      (Act.store (.lockCommit (finalGuard 1))).refusesForMutation c.shared := by
  have hbefore : (server.machine.exec mutatedBeforeFinal start).map
      (fun c => (c.shared.seen, c.shared.acked)) = some (1, 2) := by decide
  have hduring : (server.machine.exec mutatedDuringFinal start).map
      (fun c => (c.shared.uploads, decide (server.pre 2 c.shared (c.th 2) (.store (.lockCommit (finalGuard 1)))),
        decide ((Act.store (.lockCommit (finalGuard 1))).refusesForMutation c.shared))) =
      some ([(2, ⟨"w", 1, 1, true⟩)], true, true) := by decide
  obtain ⟨c, hr, hc⟩ := Machine.reach_of_exec_map hbefore
  obtain ⟨d, hr', hd⟩ := Machine.reach_of_exec_map hduring
  simp only [Prod.mk.injEq, decide_eq_true_eq] at hc hd
  refine ⟨⟨c, hr, ?_⟩, d, hr', hd⟩
  rw [hc.1, hc.2]
  exact Nat.one_lt_two

end McServerDashboard.Servers
