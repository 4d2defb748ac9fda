import McServerDashboard.Relay.Reporter

/-!
# What reaches the API of a session

* `Inv`: where the Start and the End of a session are, in every state.
* **`start_before_end`**: the API receives no End without the Start before it.
* **`end_kept`**: the End of a session is lost only to a cap, as long as the starts' cap drops nothing that the API has.
-/

namespace McServerDashboard.Relay

open Lib

variable {L : Limits} {s : System} {f : Flight} {id : SessionID} {k : CallId} {c : Call}

namespace System

/-- The starts of the flush that is going on. -/
def flyingStarts (s : System) : List SessionID := match s.barrier with
  | .flush f => f.starts
  | _ => []

/-- The ends of the flush that is going on. -/
def flyingEnds (s : System) : List SessionID := match s.barrier with
  | .flush f => f.ends
  | _ => []

/-- The Start has reached the API, or is still to be reported. -/
def Known (s : System) (id : SessionID) : Prop :=
  .sessionStart id ∈ s.received ∨ id ∈ s.reporter.pendStarts ∨ id ∈ s.flyingStarts

/-- The End has reached the API, or is still to be reported. -/
def Kept (s : System) (id : SessionID) : Prop :=
  .sessionEnd id ∈ s.received ∨ id ∈ s.reporter.pendEnds ∨ id ∈ s.flyingEnds

end System

/-- What a flush has reported, and what is left. -/
structure Flight.Ok (L : Limits) (s : System) (f : Flight) : Prop where
  starts : ∀ id ∈ f.starts, .sessionStart id ∈ s.received ∨ id ∈ f.restStarts
  ends : ∀ id ∈ f.ends, .sessionEnd id ∈ s.received ∨ id ∈ f.restEnds
  known : ∀ id ∈ f.ends, .sessionStart id ∈ s.received ∨ id ∈ f.starts
  restEnds : ∀ id ∈ f.restEnds, id ∈ f.ends
  call : ∀ k, f.call = some k → ∃ stage, s.call k = some ⟨.reportSessions (f.restStarts.take (System.nStarts L f))
    (f.restEnds.take (System.nEnds L f)), stage⟩

/-- No report has an End whose Start is not in it or at the API. -/
def Request.Ok (received : List Event) : Request → Prop
  | .reportSessions starts ends => ∀ id ∈ ends, id ∈ starts ∨ .sessionStart id ∈ received
  | .register _ => True

/-- Before an End there is its Start. -/
def Ordered (events : List Event) : Prop := ∀ u v id, events = u ++ .sessionEnd id :: v → .sessionStart id ∈ u

structure Inv (L : Limits) (s : System) : Prop where
  flight : ∀ f, s.barrier = .flush f → f.Ok L s
  fresh : ∀ k, s.nextCall ≤ k → s.call k = none
  request : ∀ k c, s.call k = some c → c.request.Ok s.received
  arrived : ∀ k c, s.call k = some c → c.stage = .sent ∨ ∀ e ∈ c.request.events, e ∈ s.received
  opened : ∀ id ∈ s.reporter.openIDs, id ∈ s.reporter.droppedStarts ∨ s.Known id
  pendEnds : ∀ id ∈ s.reporter.pendEnds, s.Known id
  tombstones : s.reporter.droppedStarts ⊆ s.cappedStarts
  «over» : ∀ id ∈ s.begun, id ∈ s.reporter.openIDs ∨ id ∈ s.cappedStarts ∨ id ∈ s.cappedEnds ∨ s.Kept id
  ordered : Ordered s.received

theorem inv_init : Inv L init := by
  constructor <;> simp [init, Ordered]

theorem Inv.start (h : Inv L s) : Inv L { s with reporter := s.reporter.start id, begun := insert id s.begun } := by
  obtain ⟨h1, h2, h3, h4, h5, h6, h7, h8, h9⟩ := h
  constructor <;> simp only [Reporter.start, System.Known, System.Kept, System.flyingStarts, System.flyingEnds] at * <;> grind [Flight.Ok]

theorem Inv.finish (h : Inv L s) (hid : id ∈ s.reporter.openIDs) : Inv L { s with reporter := s.reporter.finish id } := by
  obtain ⟨h1, h2, h3, h4, h5, h6, h7, h8, h9⟩ := h
  unfold Reporter.finish
  split_ifs
  · constructor <;> simp only [System.Known, System.Kept, System.flyingStarts, System.flyingEnds] at * <;> grind [Flight.Ok]
  · constructor <;> simp only [System.Known, System.Kept, System.flyingStarts, System.flyingEnds] at * <;> grind [Flight.Ok]

theorem Inv.drain (h : Inv L s) (hs : s.barrier = .free) : Inv L s.drain := by
  obtain ⟨h1, h2, h3, h4, h5, h6, h7, h8, h9⟩ := h
  simp only [System.Known, System.Kept, System.flyingStarts, System.flyingEnds, hs] at *
  constructor <;> simp only [System.drain, System.Known, System.Kept, System.flyingStarts, System.flyingEnds] at * <;> grind [Flight.Ok]

theorem mem_take_or_drop {α : Type*} {l : List α} {a : α} (n : ℕ) (h : a ∈ l) : a ∈ l.take n ∨ a ∈ l.drop n := by
  rwa [← List.mem_append, List.take_append_drop]

/-- A call with ends has all starts that are left. -/
theorem take_starts (he : id ∈ f.restEnds.take (System.nEnds L f)) : f.restStarts.take (System.nStarts L f) = f.restStarts := by
  have hpos : 0 < System.nEnds L f := by
    by_contra h
    simp [Nat.eq_zero_of_not_pos h] at he
  refine List.take_of_length_le ?_
  simp only [System.nEnds, System.nStarts] at hpos ⊢
  omega

theorem Inv.sendChunk (h : Inv L s) (hs : s.barrier = .flush f) : Inv L (s.sendChunk L f) := by
  have hf := h.flight f hs
  have hchunk : (Request.reportSessions (f.restStarts.take (System.nStarts L f))
      (f.restEnds.take (System.nEnds L f))).Ok s.received := by
    intro id hid
    rw [take_starts hid]
    rcases hf.known id (hf.restEnds id (List.mem_of_mem_take hid)) with h | h
    · exact .inr h
    · exact (hf.starts id h).symm
  have hflight : ∀ g, (s.sendChunk L f).barrier = .flush g → g.Ok L (s.sendChunk L f) := by
    intro g hg
    obtain rfl : { f with call := some s.nextCall } = g := Barrier.flush.inj hg
    refine ⟨hf.starts, hf.ends, hf.known, hf.restEnds, fun k hk => ⟨.sent, ?_⟩⟩
    obtain rfl : s.nextCall = k := Option.some.inj hk
    exact Function.update_self _ _ _
  obtain ⟨-, h2, h3, h4, h5, h6, h7, h8, h9⟩ := h
  refine ⟨hflight, ?_, ?_, ?_, ?_, ?_, h7, ?_, h9⟩ <;> simp only [System.Known, System.Kept, System.flyingStarts,
    System.flyingEnds, hs] at * <;> simp only [System.sendChunk, System.send, Function.update_apply] at * <;>
    grind [Request.Ok]

theorem Inv.chunkDone (h : Inv L s) (hs : s.barrier = .flush f) (hk : f.call = some k) (hc : s.call k = some c)
    (hdone : c.stage ≠ .sent) : Inv L (s.chunkDone L f) := by
  have hf := h.flight f hs
  obtain ⟨stage, hcall⟩ := hf.call k hk
  rw [hc, Option.some.injEq] at hcall
  have hreceived : ∀ e ∈ c.request.events, e ∈ s.received := (h.arrived k c hc).resolve_left hdone
  have hflight : ∀ g, (s.chunkDone L f).barrier = .flush g → g.Ok L (s.chunkDone L f) := by
    intro g hg
    obtain rfl := Barrier.flush.inj hg
    refine ⟨fun id hid => ?_, fun id hid => ?_, hf.known, fun id hid => hf.restEnds id (List.mem_of_mem_drop hid), nofun⟩
    · refine (hf.starts id hid).elim .inl fun h => (mem_take_or_drop (System.nStarts L f) h).imp_left fun ht => ?_
      rw [hcall] at hreceived
      exact hreceived _ (List.mem_append_left _ (List.mem_map_of_mem ht))
    · refine (hf.ends id hid).elim .inl fun h => (mem_take_or_drop (System.nEnds L f) h).imp_left fun ht => ?_
      rw [hcall] at hreceived
      exact hreceived _ (List.mem_append_right _ (List.mem_map_of_mem ht))
  obtain ⟨-, h2, h3, h4, h5, h6, h7, h8, h9⟩ := h
  simp only [System.Known, System.Kept, System.flyingStarts, System.flyingEnds, hs] at *
  exact ⟨hflight, h2, h3, h4, h5, h6, h7, h8, h9⟩

theorem Inv.flushFailed (h : Inv L s) (hs : s.barrier = .flush f) : Inv L (s.flushFailed L f) := by
  have hf := h.flight f hs
  obtain ⟨-, h2, h3, h4, h5, h6, h7, h8, h9⟩ := h
  simp only [System.Known, System.Kept, System.flyingStarts, System.flyingEnds, hs] at h5 h6 h8
  set merged := f.starts ++ s.reporter.pendStarts with hmerged
  set dropped := (capOldestStarts L merged).2 with hdropped
  have hknown (id : SessionID) (hid : .sessionStart id ∈ s.received ∨ id ∈ s.reporter.pendStarts ∨ id ∈ f.starts) :
      id ∈ dropped ∨ .sessionStart id ∈ s.received ∨ id ∈ (capOldestStarts L merged).1 := by
    rcases hid with h | h | h
    · exact .inr (.inl h)
    · exact (mem_take_or_drop _ (List.mem_append_right _ h)).imp_right .inr
    · exact (mem_take_or_drop _ (List.mem_append_left _ h)).imp_right .inr
  have hends (id : SessionID) (hid : id ∈ f.ends ∨ id ∈ s.reporter.pendEnds) :
      .sessionStart id ∈ s.received ∨ id ∈ s.reporter.pendStarts ∨ id ∈ f.starts :=
    hid.elim (fun h => (hf.known id h).imp_right .inr) (h6 id)
  refine ⟨nofun, h2, h3, h4, fun id hid => ?_, fun id hid => ?_, ?_, fun id hid => ?_, h9⟩
  · rcases h5 id hid with h | h
    · exact .inl (Finset.mem_union_left _ h)
    · rcases hknown id h with h | h | h
      · exact .inl (Finset.mem_union_right _ (List.mem_toFinset.mpr h))
      · exact .inr (.inl h)
      · exact .inr (.inr (.inl h))
  · have hid : id ∈ dropOrphanEnds (f.ends ++ s.reporter.pendEnds) dropped := List.mem_of_mem_drop hid
    obtain ⟨hmem, hno⟩ := List.mem_filter.mp hid
    rcases hknown id (hends id (List.mem_append.mp hmem)) with h | h | h
    · exact absurd h (by simpa using hno)
    · exact .inl h
    · exact .inr (.inl h)
  · exact Finset.union_subset_union_left h7
  · have hbuffered (h : id ∈ f.ends ++ s.reporter.pendEnds) : id ∈ dropped ∨
        id ∈ dropOrphanEnds (f.ends ++ s.reporter.pendEnds) dropped := by
      by_cases hd : id ∈ dropped
      · exact .inl hd
      · exact .inr (List.mem_filter.mpr ⟨h, by simpa using hd⟩)
    have hover (h : id ∈ f.ends ++ s.reporter.pendEnds) : id ∈ (s.flushFailed L f).cappedStarts ∨
        id ∈ (s.flushFailed L f).cappedEnds ∨ (s.flushFailed L f).Kept id := by
      rcases hbuffered h with h | h
      · exact .inl (Finset.mem_union_right _ (List.mem_toFinset.mpr h))
      · refine .inr ((mem_take_or_drop _ h).imp (fun h => ?_) fun h => .inr (.inl h))
        exact Finset.mem_union_right _ (List.mem_toFinset.mpr h)
    rcases h8 id hid with h | h | h | h | h | h
    · exact .inl h
    · exact .inr (.inl (Finset.mem_union_left _ h))
    · exact .inr (.inr (.inl (Finset.mem_union_left _ h)))
    · exact .inr (.inr (.inr (.inl h)))
    · exact .inr (hover (List.mem_append_right _ h))
    · exact .inr (hover (List.mem_append_left _ h))

theorem Inv.flushDone (h : Inv L s) (hs : s.barrier = .flush f) (h₁ : f.restStarts = []) (h₂ : f.restEnds = []) :
    Inv L { s with reporter := s.reporter.settle, barrier := .free } := by
  have hf := h.flight f hs
  obtain ⟨h1, h2, h3, h4, h5, h6, h7, h8, h9⟩ := h
  simp only [System.Known, System.Kept, System.flyingStarts, System.flyingEnds, hs] at *
  constructor <;> simp only [Reporter.settle, System.Known, System.Kept, System.flyingStarts, System.flyingEnds] at * <;>
    grind [Flight.Ok]

theorem Inv.register (h : Inv L s) (hs : s.barrier = .free) :
    Inv L { s.send (.register s.reporter.openIDs) with barrier := .register s.nextCall } := by
  obtain ⟨h1, h2, h3, h4, h5, h6, h7, h8, h9⟩ := h
  simp only [System.Known, System.Kept, System.flyingStarts, System.flyingEnds, hs] at *
  constructor <;> simp only [System.send, System.Known, System.Kept, System.flyingStarts,
    System.flyingEnds, Function.update_apply] at * <;> grind [Flight.Ok, Request.Ok, Request.events]

theorem Inv.registered (h : Inv L s) (hs : s.barrier = .register k) (g : Finset CallId) :
    Inv L { s with barrier := .free, givenUp := g } := by
  obtain ⟨h1, h2, h3, h4, h5, h6, h7, h8, h9⟩ := h
  simp only [System.Known, System.Kept, System.flyingStarts, System.flyingEnds, hs] at *
  constructor <;> simp only [System.Known, System.Kept, System.flyingStarts, System.flyingEnds] at * <;> grind

theorem ordered_concat {l : List Event} {e : Event} (h : Ordered l) (he : ∀ id, e = .sessionEnd id → .sessionStart id ∈ l) :
    Ordered (l ++ [e]) := by
  intro u v id heq
  rcases List.eq_nil_or_concat v with rfl | ⟨w, x, rfl⟩
  · obtain ⟨rfl, hx⟩ := List.append_inj' heq rfl
    exact he id (by simpa using hx)
  · rw [List.concat_eq_append, ← List.cons_append, ← List.append_assoc] at heq
    exact h u w id (List.append_inj' heq rfl).1

theorem ordered_starts {l : List Event} {starts : List SessionID} (h : Ordered l) :
    Ordered (l ++ starts.map .sessionStart) := by
  induction starts generalizing l with
  | nil => simpa using h
  | cons id starts ih =>
    rw [List.map_cons, ← List.singleton_append, ← List.append_assoc]
    exact ih (ordered_concat h nofun)

theorem ordered_ends {l : List Event} {ends : List SessionID} (h : Ordered l) (he : ∀ id ∈ ends, .sessionStart id ∈ l) :
    Ordered (l ++ ends.map .sessionEnd) := by
  induction ends generalizing l with
  | nil => simpa using h
  | cons id ends ih =>
    rw [List.map_cons, ← List.singleton_append, ← List.append_assoc]
    refine ih (ordered_concat h fun id' heq => ?_) fun id' hid' => ?_
    · obtain rfl := Event.sessionEnd.inj heq
      exact he id List.mem_cons_self
    · exact List.mem_append_left _ (he id' (List.mem_cons_of_mem _ hid'))

/-- What a report brings is in order. -/
theorem ordered_events {l : List Event} {r : Request} (h : Ordered l) (hr : r.Ok l) : Ordered (l ++ r.events) := by
  cases r with
  | reportSessions starts ends =>
    rw [Request.events, ← List.append_assoc]
    refine ordered_ends (ordered_starts h) fun id hid => ?_
    rcases hr id hid with h | h
    · exact List.mem_append_right _ (List.mem_map_of_mem h)
    · exact List.mem_append_left _ h
  | register active => simpa [Request.events] using h

theorem Inv.arrive (h : Inv L s) (hc : s.call k = some c) : Inv L (s.arrive k c) := by
  have hordered := ordered_events h.ordered (h.request k c hc)
  obtain ⟨h1, h2, h3, h4, h5, h6, h7, h8, h9⟩ := h
  have hreq (r : Request) (hr : r.Ok s.received) : r.Ok (s.received ++ c.request.events) := by
    cases r with
    | reportSessions starts ends => exact fun id hid => (hr id hid).imp_right (List.mem_append_left _)
    | register active => trivial
  refine ⟨?_, ?_, ?_, ?_, ?_, ?_, h7, ?_, hordered⟩ <;> simp only [System.arrive, System.Known, System.Kept,
    System.flyingStarts, System.flyingEnds, Function.update_apply] at * <;> grind [Flight.Ok]

/-- What the API does with a call that has arrived. -/
theorem Inv.stage {stage : Stage} {row : SessionID → Option Row} {healed : Finset SessionID} (h : Inv L s)
    (hc : s.call k = some c) (hsent : c.stage ≠ .sent) : Inv L { s with
      row := row, call := Function.update s.call k (some { c with stage := stage }), healedOpen := healed } := by
  obtain ⟨h1, h2, h3, h4, h5, h6, h7, h8, h9⟩ := h
  constructor <;> simp only [System.Known, System.Kept, System.flyingStarts, System.flyingEnds, Function.update_apply] at * <;>
    grind [Flight.Ok]

theorem Inv.step (h : Inv L s) (a : Action) (hpre : pre s a) : Inv L (post L s a) := by
  cases a with
  | start id => exact h.start
  | finish id => exact h.finish hpre
  | drain =>
    simp only [pre] at hpre
    split at hpre
    · exact h.drain ‹_›
    · exact hpre.elim
  | sendChunk =>
    simp only [post]
    split
    · exact h.sendChunk ‹_›
    · exact h
  | chunkDone =>
    simp only [pre, post] at hpre ⊢
    split at hpre
    · next f hf =>
      obtain ⟨k, hk, c, hc, hdone⟩ := hpre
      refine h.chunkDone hf hk hc fun hsent => ?_
      simp [hsent] at hdone
    · exact hpre.elim
  | chunkFailed =>
    simp only [post]
    split
    · exact h.flushFailed ‹_›
    · exact h
  | flushDone =>
    simp only [pre] at hpre
    split at hpre
    · exact h.flushDone ‹_› hpre.2.1 hpre.2.2
    · exact hpre.elim
  | register =>
    simp only [pre] at hpre
    split at hpre
    · exact h.register ‹_›
    · exact hpre.elim
  | registered =>
    simp only [pre] at hpre
    split at hpre
    · exact h.registered ‹_› s.givenUp
    · exact hpre.elim
  | registerFailed =>
    simp only [post]
    split
    · exact h.registered ‹_› _
    · exact h
  | arrive k =>
    simp only [post]
    split
    · exact h.arrive ‹_›
    · exact h
  | handle k n bad =>
    simp only [post]
    split
    · next hc => exact h.stage hc nofun
    · exact h
  | answer k =>
    obtain ⟨c, hc, hstage⟩ := hpre
    have hsent : c.stage ≠ .sent := by
      intro hsent
      simp [hsent] at hstage
    simp only [post, Option.mem_def.mp hc, System.answer]
    split
    · exact h.stage hc hsent
    · exact h.stage hc hsent

theorem inv_of_reach {P : System → Action → Prop} (h : (machine L).Reach P init s) : Inv L s :=
  h.invariant inv_init fun _ a hu hpre _ => hu.step a hpre

/-- **No End before its Start**: what the API receives of a session starts with its Start, whatever becomes of the
reports. -/
theorem start_before_end (h : (machine L).Reach Machine.Any init s) (u v : List Event) (id : SessionID)
    (hreceived : s.received = u ++ .sessionEnd id :: v) : .sessionStart id ∈ u :=
  (inv_of_reach h).ordered u v id hreceived

/-! ## Ends that are lost -/

/-- The cap on pending starts drops none that the API has, and none that a report it has not received yet brings. -/
def CapSpares (L : Limits) (s : System) : Action → Prop
  | .chunkFailed => match s.barrier with
    | .flush f => ∀ id ∈ (capOldestStarts L (f.starts ++ s.reporter.pendStarts)).2, .sessionStart id ∉ s.received
    | _ => True
  | .arrive k => ∀ c ∈ s.call k, ∀ id ∈ s.cappedStarts, .sessionStart id ∉ c.request.events
  | _ => True

theorem capped_unreceived (h : (machine L).Reach (CapSpares L) init s) :
    ∀ id ∈ s.cappedStarts, .sessionStart id ∉ s.received := by
  refine h.invariant (I := fun s => ∀ id ∈ s.cappedStarts, .sessionStart id ∉ s.received) (by simp [init])
    fun s a hs hpre hP => ?_
  cases a with
  | chunkFailed =>
    cases hf : s.barrier with
    | flush f =>
      simp only [machine, post, CapSpares, hf] at hP ⊢
      intro id hid
      rcases Finset.mem_union.mp hid with h | h
      · exact hs id h
      · exact hP id (List.mem_toFinset.mp h)
    | free | register k =>
      simp only [machine, post, hf]
      exact hs
  | arrive k =>
    simp only [machine, post]
    split
    · next c hc =>
      intro id hid hmem
      rcases List.mem_append.mp hmem with h | h
      · exact hs id hid h
      · exact hP c hc id hid h
    · exact hs
  | sendChunk | chunkDone | registerFailed | handle k n bad =>
    simp only [machine, post]
    split <;> exact hs
  | answer k =>
    simp only [machine, post, System.answer]
    split
    · split <;> exact hs
    · exact hs
  | start id | finish id | drain | flushDone | register | registered => exact hs

/-- **The End of a session that the API knows** is delivered or pending, unless the cap on pending ends dropped it. -/
theorem end_kept (h : (machine L).Reach (CapSpares L) init s) (id : SessionID) (hstart : .sessionStart id ∈ s.received)
    (hbegun : id ∈ s.begun) (hover : id ∉ s.reporter.openIDs) :
    .sessionEnd id ∈ s.received ∨ id ∈ s.reporter.pendEnds ∨ id ∈ s.flyingEnds ∨ id ∈ s.cappedEnds := by
  rcases (inv_of_reach h).over id hbegun with hopen | hcapped | hends | hreceived | hpending | hflying
  · exact absurd hopen hover
  · exact absurd hstart (capped_unreceived h id hcapped)
  · exact .inr (.inr (.inr hends))
  · exact .inl hreceived
  · exact .inr (.inl hpending)
  · exact .inr (.inr (.inl hflying))

/-- The first `n` sessions are open, and their starts pending. -/
def started (n : ℕ) : System :=
  { init with reporter := ⟨List.range n, [], Finset.range n, ∅⟩, begun := Finset.range n }

theorem reach_started (n : ℕ) : (machine L).Reach Machine.Any init (started n) := by
  induction n with
  | zero => exact .refl
  | succ n ih =>
    have hstep : (machine L).post (started n) (.start n) = started (n + 1) := by
      simp [machine, post, started, Reporter.start, List.range_succ, Finset.range_add_one]
    rw [← hstep]
    exact ih.step (.start n) (by simp [machine, pre, started]) trivial

/-- A flush whose first report is delivered and whose second one fails, while one more session starts; then the oldest
session ends. -/
theorem reach_lost {N M : ℕ} (hM : 0 < M) (hMN : M < N) : ∃ s, (machine ⟨N, M⟩).Reach Machine.Any init s ∧
    .sessionStart 0 ∈ s.received ∧ 0 ∈ s.begun ∧ 0 ∉ s.reporter.openIDs ∧ .sessionEnd 0 ∉ s.received ∧
    s.reporter.pendEnds = [] ∧ s.flyingEnds = [] ∧ s.cappedEnds = ∅ := by
  have hN : 0 < N := by omega
  obtain ⟨n, rfl⟩ : ∃ n, N = n + 1 := ⟨N - 1, by omega⟩
  have hne : List.range (n + 1) ≠ [] := by simp
  have hrest : (List.range (n + 1)).drop M ≠ [] := by simpa using hMN
  have holdest : 0 ∈ (List.range (n + 1) ++ [n + 1]).take 1 := by simp [List.range_succ_eq_map]
  refine ⟨_, ((((((((((reach_started (n + 1)).step .drain ?_ trivial).step .sendChunk ?_ trivial).step (.arrive 0) ?_
    trivial).step (.handle 0 M ∅) ?_ trivial).step (.answer 0) ?_ trivial).step .chunkDone ?_ trivial).step
    .sendChunk ?_ trivial).step (.start (n + 1)) ?_ trivial).step .chunkFailed ?_ trivial).step (.finish 0) ?_ trivial, ?_⟩
  all_goals simp [machine, pre, post, started, init, System.drain, System.sendChunk, System.send, System.arrive,
    System.handle, System.answer, System.chunkDone, System.flushFailed, System.nStarts, System.nEnds, System.flyingEnds,
    Reporter.start, Reporter.finish, Reporter.restore, Request.events, capOldestStarts, capOldest, dropOrphanEnds, hne, hrest,
    hM, hM.ne', hMN.le, holdest]

/-- The API has the Start of a session that is over, and never gets its End. -/
theorem end_lost : ∃ s id, (machine limits).Reach Machine.Any init s ∧ .sessionStart id ∈ s.received ∧ id ∈ s.begun ∧
    id ∉ s.reporter.openIDs ∧ ¬(.sessionEnd id ∈ s.received ∨ id ∈ s.reporter.pendEnds ∨ id ∈ s.flyingEnds ∨
      id ∈ s.cappedEnds) := by
  obtain ⟨s, hreach, hstart, hbegun, hover, hreceived, hpending, hflying, hcapped⟩ :=
    reach_lost (N := limits.maxBufferedEvents) (M := limits.maxEventsPerReportRPC) (by decide) (by decide)
  exact ⟨s, 0, hreach, hstart, hbegun, hover, by simp [hreceived, hpending, hflying, hcapped]⟩

/-- A session that ends while its start is being reported. -/
theorem reach_reported : ∃ s, (machine limits).Reach (CapSpares limits) init s ∧
    s.received = [.sessionStart 0, .sessionEnd 0] ∧ 0 ∈ s.begun ∧ 0 ∉ s.reporter.openIDs := by
  refine ⟨_, (((((((((((Machine.Reach.refl.step (.start 0) ?_ ?_).step .drain ?_ ?_).step .sendChunk ?_ ?_).step
    (.arrive 0) ?_ ?_).step (.finish 0) ?_ ?_).step (.handle 0 1 ∅) ?_ ?_).step (.answer 0) ?_ ?_).step .chunkDone ?_
    ?_).step .flushDone ?_ ?_).step .drain ?_ ?_).step .sendChunk ?_ ?_).step (.arrive 1) ?_ ?_, ?_⟩
  all_goals simp [machine, pre, post, CapSpares, init, limits, System.drain, System.sendChunk, System.send, System.arrive,
    System.handle, System.answer, System.chunkDone, System.nStarts, System.nEnds, Reporter.start, Reporter.finish,
    Reporter.settle, Request.events]

theorem start_before_end_reported : ∃ s, (machine limits).Reach Machine.Any init s ∧
    s.received = [.sessionStart 0] ++ .sessionEnd 0 :: [] ∧ .sessionStart 0 ∈ [Event.sessionStart 0] := by
  obtain ⟨s, hreach, hreceived, -⟩ := reach_reported
  exact ⟨s, hreach.any, hreceived, start_before_end hreach.any [.sessionStart 0] [] 0 hreceived⟩

theorem end_kept_reported : ∃ s, (machine limits).Reach (CapSpares limits) init s ∧ .sessionStart 0 ∈ s.received ∧
    0 ∈ s.begun ∧ 0 ∉ s.reporter.openIDs ∧
    (.sessionEnd 0 ∈ s.received ∨ 0 ∈ s.reporter.pendEnds ∨ 0 ∈ s.flyingEnds ∨ 0 ∈ s.cappedEnds) := by
  obtain ⟨s, hreach, hreceived, hbegun, hover⟩ := reach_reported
  have hstart : .sessionStart 0 ∈ s.received := by simp [hreceived]
  exact ⟨s, hreach, hstart, hbegun, hover, end_kept hreach 0 hstart hbegun hover⟩

end McServerDashboard.Relay
