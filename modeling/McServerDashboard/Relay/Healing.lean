import McServerDashboard.Relay.Delivery

/-!
# Orphan healing

* `Barred`: a session that opens while a registration holds the barrier is in no report, and in no row.
* **`healed_none`**: orphan healing closes no open session, unless it is late.
* `healed_late`: the run in which it is.
-/

namespace McServerDashboard.Relay

open Lib

variable {L : Limits} {s : System} {f : Flight} {id : SessionID} {k : CallId} {c : Call}

/-- A registration that the relay has given up on is answered, if at all, before any session that it does not list and
that is still open has been reported. -/
def HealsInTime (s : System) : Action → Prop
  | .answer k => k ∈ s.givenUp → ∀ c ∈ s.call k, ∀ active, c.request = .register active →
      ∀ id ∈ s.reporter.openIDs, id ∉ active → .sessionStart id ∉ s.received
  | _ => True

/-- The session is in no report, sent or received. -/
def System.Unreported (s : System) (id : SessionID) : Prop :=
  .sessionStart id ∉ s.received ∧ ∀ k c, s.call k = some c → .sessionStart id ∉ c.request.events

structure Barred (s : System) : Prop where
  pendStarts : ∀ id ∈ s.reporter.pendStarts, id ∈ s.begun
  flight : ∀ f, s.barrier = .flush f → (∀ id ∈ f.starts, id ∈ s.begun) ∧ ∀ id ∈ f.restStarts, id ∈ s.begun
  reported : ∀ id, id ∉ s.begun → s.Unreported id
  row : ∀ id, s.row id ≠ none → .sessionStart id ∈ s.received
  todo : ∀ k c todo, s.call k = some c → c.stage = .handling todo → ∀ e ∈ todo, e ∈ c.request.events
  /-- A registration that is not over holds the barrier, or is late. -/
  holder : ∀ k c active, s.call k = some c → c.request = .register active → c.stage = .done ∨ k ∈ s.givenUp ∨
    s.barrier = .register k
  /-- What it does not list has not been reported. -/
  barrier : ∀ k, s.barrier = .register k → ∃ c active, s.call k = some c ∧ c.request = .register active ∧
    ∀ id ∈ s.reporter.openIDs, id ∉ active → s.Unreported id

theorem barred_init : Barred init := by
  constructor <;> simp [init, System.Unreported]

theorem Barred.start (h : Barred s) (hid : id ∉ s.begun) :
    Barred { s with reporter := s.reporter.start id, begun := insert id s.begun } := by
  obtain ⟨h1, h2, h3, h4, h5, h6, h7⟩ := h
  constructor <;> simp only [Reporter.start, System.Unreported] at * <;> grind

theorem Barred.finish (h : Barred s) : Barred { s with reporter := s.reporter.finish id } := by
  obtain ⟨h1, h2, h3, h4, h5, h6, h7⟩ := h
  have hpend : (s.reporter.finish id).pendStarts = s.reporter.pendStarts := by
    unfold Reporter.finish
    split_ifs <;> rfl
  have hopen : (s.reporter.finish id).openIDs = s.reporter.openIDs.erase id := by
    unfold Reporter.finish
    split_ifs <;> rfl
  constructor <;> simp only [System.Unreported, hpend, hopen] at * <;> grind

theorem Barred.drain (h : Barred s) (hs : s.barrier = .free) : Barred s.drain := by
  obtain ⟨h1, h2, h3, h4, h5, h6, h7⟩ := h
  constructor <;> simp only [System.drain, System.Unreported] at * <;> grind

theorem Barred.sendChunk (h : Barred s) (hs : s.barrier = .flush f) : Barred (s.sendChunk L f) := by
  obtain ⟨h1, h2, h3, h4, h5, h6, h7⟩ := h
  constructor <;> simp only [System.sendChunk, System.send, System.Unreported, Function.update_apply] at * <;>
    grind [Request.events]

theorem Barred.chunkDone (h : Barred s) (hs : s.barrier = .flush f) : Barred (s.chunkDone L f) := by
  obtain ⟨h1, h2, h3, h4, h5, h6, h7⟩ := h
  constructor <;> simp only [System.chunkDone, System.Unreported] at * <;> grind

theorem Barred.flushFailed (h : Barred s) (hs : s.barrier = .flush f) : Barred (s.flushFailed L f) := by
  obtain ⟨h1, h2, h3, h4, h5, h6, h7⟩ := h
  constructor <;> simp only [System.flushFailed, Reporter.restore, capOldestStarts, System.Unreported] at * <;> grind

theorem Barred.flushDone (h : Barred s) (hs : s.barrier = .flush f) :
    Barred { s with reporter := s.reporter.settle, barrier := .free } := by
  obtain ⟨h1, h2, h3, h4, h5, h6, h7⟩ := h
  constructor <;> simp only [Reporter.settle, System.Unreported] at * <;> grind

theorem Barred.register (h : Barred s) (hs : s.barrier = .free) :
    Barred { s.send (.register s.reporter.openIDs) with barrier := .register s.nextCall } := by
  obtain ⟨h1, h2, h3, h4, h5, h6, -⟩ := h
  have hbarrier : ∀ k, s.nextCall = k → ∃ c active, Function.update s.call s.nextCall
      (some ⟨.register s.reporter.openIDs, .sent⟩) k = some c ∧ c.request = .register active ∧
        ∀ id ∈ s.reporter.openIDs, id ∉ active → False := by
    rintro k rfl
    exact ⟨_, _, Function.update_self _ _ _, rfl, fun id h hno => hno h⟩
  constructor <;> simp only [System.send, System.Unreported, Function.update_apply] at * <;> grind [Request.events]

theorem Barred.released (h : Barred s) {g : Finset CallId} (hs : s.barrier = .register k) (hg : s.givenUp ⊆ g)
    (hk : k ∈ g ∨ ∃ c, s.call k = some c ∧ c.stage = .done) : Barred { s with barrier := .free, givenUp := g } := by
  obtain ⟨h1, h2, h3, h4, h5, h6, h7⟩ := h
  constructor <;> simp only [System.Unreported] at * <;> grind

theorem Barred.arrive (h : Barred s) (hc : s.call k = some c) (hsent : c.stage = .sent) : Barred (s.arrive k c) := by
  obtain ⟨h1, h2, h3, h4, h5, h6, h7⟩ := h
  constructor <;> simp only [System.arrive, System.Unreported, Function.update_apply] at * <;> grind

/-- What is recorded of events creates rows for their sessions only. -/
theorem row_record {row : SessionID → Option Row} {events : List Event} (h : events.foldl record row id ≠ none) :
    row id ≠ none ∨ .sessionStart id ∈ events ∨ .sessionEnd id ∈ events := by
  induction events generalizing row with
  | nil => exact .inl h
  | cons e events ih =>
    rw [List.foldl_cons] at h
    rcases ih h with h | h | h
    · cases e <;> simp only [record, Function.update_apply] at h <;> grind
    · exact .inr (.inl (List.mem_cons_of_mem _ h))
    · exact .inr (.inr (List.mem_cons_of_mem _ h))

theorem Barred.handle {todo : List Event} {n : ℕ} {bad : Finset SessionID} (h : Barred s) (hinv : Inv L s)
    (hc : s.call k = some c) (hstage : c.stage = .handling todo) : Barred (s.handle k c todo n bad) := by
  have hreceived : ∀ e ∈ todo, e ∈ s.received := by
    rcases hinv.arrived k c hc with hsent | hall
    · rw [hsent] at hstage
      cases hstage
    · exact fun e he => hall e (h.todo k c todo hc hstage e he)
  have hrow : ∀ id, (s.handle k c todo n bad).row id ≠ none → .sessionStart id ∈ s.received := by
    intro id hid
    rcases row_record hid with hrow | he | he
    · exact h.row id hrow
    · exact hreceived _ (List.mem_of_mem_take (List.mem_of_mem_filter he))
    · obtain ⟨u, v, huv⟩ := List.append_of_mem (hreceived _ (List.mem_of_mem_take (List.mem_of_mem_filter he)))
      rw [huv]
      exact List.mem_append_left _ (hinv.ordered u v id huv)
  have hdrop : ∀ e ∈ todo.drop n, e ∈ todo := fun e => List.mem_of_mem_drop
  obtain ⟨h1, h2, h3, -, h5, h6, h7⟩ := h
  refine ⟨h1, h2, ?_, hrow, ?_, ?_, ?_⟩ <;> simp only [System.handle, System.Unreported, Function.update_apply] at * <;> grind

theorem Barred.answer (h : Barred s) (hc : s.call k = some c) : Barred (s.answer k c) := by
  have hclosed (active : Finset SessionID) (id : SessionID) (hid : closeAbsent s.row active id ≠ none) : s.row id ≠ none := by
    unfold closeAbsent at hid
    split_ifs at hid
    · exact hid
    · simpa using hid
  obtain ⟨h1, h2, h3, h4, h5, h6, h7⟩ := h
  unfold System.answer
  split
  · constructor <;> simp only [System.Unreported, Function.update_apply] at * <;> grind
  · constructor <;> simp only [System.Unreported, Function.update_apply] at * <;> grind

theorem Barred.step (h : Barred s) (hinv : Inv L s) (a : Action) (hpre : pre s a) : Barred (post L s a) := by
  cases a with
  | start id => exact h.start hpre
  | finish id => exact h.finish
  | drain =>
    simp only [pre] at hpre
    split at hpre
    · exact h.drain ‹_›
    · exact hpre.elim
  | sendChunk =>
    simp only [post]
    split
    · exact h.sendChunk ‹_›
    · exact h
  | chunkDone =>
    simp only [post]
    split
    · exact h.chunkDone ‹_›
    · exact h
  | chunkFailed =>
    simp only [post]
    split
    · exact h.flushFailed ‹_›
    · exact h
  | flushDone =>
    simp only [pre] at hpre
    split at hpre
    · exact h.flushDone ‹_›
    · exact hpre.elim
  | register =>
    simp only [pre] at hpre
    split at hpre
    · exact h.register ‹_›
    · exact hpre.elim
  | registered =>
    simp only [pre] at hpre
    split at hpre
    · obtain ⟨c, hc, hdone⟩ := hpre
      refine h.released ‹_› (Finset.Subset.refl _) (.inr ⟨c, hc, ?_⟩)
      split at hdone
      · assumption
      · exact hdone.elim
    · exact hpre.elim
  | registerFailed =>
    simp only [post]
    split
    · exact h.released ‹_› (Finset.subset_insert _ _) (.inl (Finset.mem_insert_self _ _))
    · exact h
  | arrive k =>
    obtain ⟨c, hc, hsent⟩ := hpre
    simp only [post, Option.mem_def.mp hc]
    refine h.arrive hc ?_
    split at hsent
    · assumption
    · exact hsent.elim
  | handle k n bad =>
    simp only [post]
    split
    · next hc => exact h.handle hinv hc rfl
    · exact h
  | answer k =>
    simp only [post]
    split
    · exact h.answer ‹_›
    · exact h

theorem barred_of_reach {P : System → Action → Prop} (h : (machine L).Reach P init s) : Barred s :=
  (h.along fun _ hu => inv_of_reach hu).invariant barred_init fun _ a hu hpre hP => hu.step hP.2 a hpre

/-- No row of an open session is there to be closed. -/
theorem nothing_to_heal (h : Barred s) {active : Finset SessionID} (hc : s.call k = some c) (hr : c.request = .register active)
    (hstage : c.stage ≠ .done) (htime : HealsInTime s (.answer k)) (hopen : id ∈ s.reporter.openIDs) (hno : id ∉ active) :
    s.row id = none := by
  by_contra hrow
  have hreceived := h.row id hrow
  rcases h.holder k c active hc hr with hdone | hlate | hbarrier
  · exact hstage hdone
  · exact htime hlate c hc active hr id hopen hno hreceived
  · obtain ⟨c', active', hc', hr', hnew⟩ := h.barrier k hbarrier
    rw [hc, Option.some.injEq] at hc'
    rw [← hc', hr, Request.register.injEq] at hr'
    exact (hnew id hopen (hr' ▸ hno)).1 hreceived

/-- **Orphan healing closes no open session**, in every run in which the registrations that the relay has given up on are
answered in time. -/
theorem healed_none (h : (machine L).Reach HealsInTime init s) : s.healedOpen = ∅ := by
  refine (h.along fun _ hu => barred_of_reach hu).invariant (I := fun s => s.healedOpen = ∅) rfl fun s a hs hpre hP => ?_
  obtain ⟨htime, hbarred⟩ := hP
  cases a with
  | answer k =>
    obtain ⟨c, hc, hstage⟩ := hpre
    have hdone : c.stage ≠ .done := by
      intro hdone
      simp [hdone] at hstage
    simp only [machine, post, Option.mem_def.mp hc, System.answer]
    split
    · exact hs
    · next active hr =>
      have hnone : s.reporter.openIDs.filter (fun id => id ∉ active ∧ (s.row id).any (!·.ended)) = ∅ := by
        refine Finset.filter_eq_empty_iff.mpr fun id hopen hno => ?_
        simp [nothing_to_heal hbarred hc hr hdone htime hopen hno.1] at hno
      simp only [hs, hnone, Finset.union_empty]
  | sendChunk | chunkDone | chunkFailed | registerFailed | arrive k | handle k n bad =>
    simp only [machine, post]
    split <;> exact hs
  | start id | finish id | drain | flushDone | register | registered => exact hs

/-- A registration that times out and is handled after the next flush, and a session that opens in between. -/
theorem healed_late : ∃ s, (machine limits).Reach Machine.Any init s ∧ 0 ∈ s.reporter.openIDs ∧ s.healedOpen = {0} ∧
    s.row 0 = some ⟨true, true⟩ := by
  refine ⟨_, (((((((((Machine.Reach.refl.step .register ?_ trivial).step .registerFailed ?_ trivial).step (.start 0) ?_
    trivial).step .drain ?_ trivial).step .sendChunk ?_ trivial).step (.arrive 1) ?_ trivial).step (.handle 1 1 ∅) ?_
    trivial).step (.arrive 0) ?_ trivial).step (.answer 0) ?_ trivial), ?_⟩
  all_goals simp [machine, pre, post, init, limits, System.drain, System.sendChunk, System.send, System.arrive,
    System.handle, System.answer, System.nStarts, System.nEnds, Reporter.start, Request.events, closeAbsent, record,
    Function.update_apply]

/-- A session that is reported while no registration is late, and one registration. -/
theorem healed_none_registered : ∃ s, (machine limits).Reach HealsInTime init s ∧ 0 ∈ s.reporter.openIDs ∧
    s.row 0 = some ⟨true, false⟩ ∧ s.healedOpen = ∅ := by
  have hrun : ∃ s, (machine limits).Reach HealsInTime init s ∧ 0 ∈ s.reporter.openIDs ∧ s.row 0 = some ⟨true, false⟩ := by
    refine ⟨_, ((((((((Machine.Reach.refl.step (.start 0) ?_ ?_).step .drain ?_ ?_).step .sendChunk ?_ ?_).step
      (.arrive 0) ?_ ?_).step (.handle 0 1 ∅) ?_ ?_).step .chunkFailed ?_ ?_).step .register ?_ ?_).step (.arrive 1) ?_
      ?_).step (.answer 1) ?_ ?_, ?_⟩
    all_goals simp [machine, pre, post, HealsInTime, init, limits, System.drain, System.sendChunk, System.send, System.arrive,
      System.handle, System.answer, System.flushFailed, System.nStarts, System.nEnds, Reporter.start, Reporter.restore,
      capOldestStarts, capOldest, dropOrphanEnds, Request.events, closeAbsent, record, Function.update_apply]
  obtain ⟨s, hreach, hopen, hrow⟩ := hrun
  exact ⟨s, hreach, hopen, hrow, healed_none hreach⟩

end McServerDashboard.Relay
