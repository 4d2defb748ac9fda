import Mathlib.Algebra.GroupWithZero.Nat
import Mathlib.Data.Int.Notation
import McServerDashboard.Lib.Run
import McServerDashboard.Worker.LogDemux
import McServerDashboard.Storage.RelPath

/-!
# What a log pump loses

The two scanned streams of a server put their lines into one bounded buffer, without ever waiting. Where it is full,
the oldest entry is evicted, the drop is counted, and a marker with the count takes the place of the line.

* `Step`, `machine`: the critical sections of `emit`, the reads of the consumer, and the close.
* `Balanced`: every emitted line is delivered, buffered, or accounted for; `Ordered`: no line overtakes the marker of
  an earlier loss; `Accounted`: both.
* `Inv`: what every run keeps; **`balanced_iff`**: the account is balanced exactly when nothing has been evicted.
* **`losses_accounted`**: when both hold in every state of a run.
-/

namespace McServerDashboard.Worker.LogPump

open Lib LogDemux

/-! ## The pump -/

/-- An entry of the buffer; of a line, also how many had been lost when it was queued (a ghost). -/
inductive Entry
  | line (text : Bytes) (stream : LogStream) (losses : ℕ)
  | marker (n : ℕ)
  deriving DecidableEq

/-- What the consumer sees. -/
structure LogEvent where
  line : Bytes
  stream : LogStream

def Entry.event : Entry → LogEvent
  | line text stream _ => ⟨text, stream⟩
  | marker n => ⟨("[mcsd] dropped " ++ toString n ++ " log line(s) under backpressure").toUTF8.toList, .stderr⟩

/-- Where a scanner is in `emit`. -/
inductive Pos
  | idle
  | sending (text : Bytes)
  | evicting
  | counting
  /-- The count that goes into the marker. -/
  | marking (n : ℕ)
  | marked (n : ℕ) (sent : Bool)
  deriving DecidableEq

def Pos.isSending : Pos → Bool
  | sending _ => true
  | _ => false

def Pos.isMarking : Pos → Bool
  | marking _ => true
  | _ => false

def Pos.isMarked : Pos → Bool
  | marked .. => true
  | _ => false

structure State where
  out : List Entry
  dropped : ℕ
  markerPending : Bool
  closed : Bool
  scanner : LogStream → Pos
  /-- How many lines have been emitted (a ghost). -/
  emitted : ℕ
  /-- How many lines are lost (a ghost). -/
  lost : ℕ
  /-- What the consumer has read (a ghost). -/
  delivered : List Entry
  /-- What has been evicted (a ghost). -/
  evicted : List Entry

/-- `NewLogPump`: the capacity of the buffer. -/
def capacity (bufSize : ℤ) : ℕ := if bufSize ≤ 0 then 1 else bufSize.toNat

def start : State := ⟨[], 0, false, false, fun _ => .idle, 0, 0, [], []⟩

inductive Step
  | emit (s : LogStream) (text : Bytes)
  | send (s : LogStream)
  | evict (s : LogStream)
  | count (s : LogStream)
  | mark (s : LogStream)
  | unmark (s : LogStream)
  /-- The consumer reads an entry. -/
  | receive
  | close

namespace State

variable (c : State)

def goto (s : LogStream) (p : Pos) : State := { c with scanner := Function.update c.scanner s p }

/-- The first select of `emit`. -/
def send (cap : ℕ) (s : LogStream) (text : Bytes) : State :=
  if c.out.length < cap then { c.goto s .idle with out := c.out ++ [.line text s c.lost] } else c.goto s .evicting

/-- The second: the oldest entry is evicted, if there is one. -/
def evict (s : LogStream) : State :=
  match c.out with
  | [] => c.goto s .counting
  | e :: out =>
    { c.goto s .counting with
      out
      lost := c.lost + match e with | .line .. => 1 | .marker _ => 0
      evicted := e :: c.evicted }

/-- The drop is counted; the scanner goes on to the marker unless one is pending. -/
def count (s : LogStream) : State :=
  { c.goto s (if c.markerPending then .idle else .marking (c.dropped + 1)) with
    dropped := c.dropped + 1, markerPending := true, lost := c.lost + 1 }

/-- The last select. -/
def mark (cap : ℕ) (s : LogStream) (n : ℕ) : State :=
  if c.out.length < cap then { c.goto s (.marked n true) with out := c.out ++ [.marker n] }
  else c.goto s (.marked n false)

def unmark (s : LogStream) (n : ℕ) (sent : Bool) : State :=
  { c.goto s .idle with dropped := if sent then c.dropped - n else c.dropped, markerPending := false }

end State

variable (cap : ℕ)

/-- May the step be taken? The pump is closed when both scanners have returned. -/
def pre (c : State) : Step → Prop
  | .emit s _ => c.scanner s = .idle
  | .send s => (c.scanner s).isSending
  | .evict s => c.scanner s = .evicting
  | .count s => c.scanner s = .counting
  | .mark s => (c.scanner s).isMarking
  | .unmark s => (c.scanner s).isMarked
  | .receive => c.out ≠ []
  | .close => c.closed = false ∧ ∀ s, c.scanner s = .idle

instance (p : LogStream → Prop) [DecidablePred p] : Decidable (∀ s, p s) :=
  decidable_of_iff (p .stdout ∧ p .stderr) ⟨fun h s => by cases s <;> [exact h.1; exact h.2], fun h => ⟨h _, h _⟩⟩

instance (c : State) : DecidablePred (pre c)
  | .emit s _ => inferInstanceAs (Decidable (c.scanner s = .idle))
  | .send s => inferInstanceAs (Decidable ((c.scanner s).isSending = true))
  | .evict s => inferInstanceAs (Decidable (c.scanner s = .evicting))
  | .count s => inferInstanceAs (Decidable (c.scanner s = .counting))
  | .mark s => inferInstanceAs (Decidable ((c.scanner s).isMarking = true))
  | .unmark s => inferInstanceAs (Decidable ((c.scanner s).isMarked = true))
  | .receive => inferInstanceAs (Decidable (c.out ≠ []))
  | .close => inferInstanceAs (Decidable (c.closed = false ∧ ∀ s, c.scanner s = .idle))

def post (c : State) : Step → State
  | .emit s text => if c.closed then c else { c.goto s (.sending text) with emitted := c.emitted + 1 }
  | .send s => match c.scanner s with | .sending text => c.send cap s text | _ => c
  | .evict s => c.evict s
  | .count s => c.count s
  | .mark s => match c.scanner s with | .marking n => c.mark cap s n | _ => c
  | .unmark s => match c.scanner s with | .marked n sent => c.unmark s n sent | _ => c
  | .receive => { c with out := c.out.tail, delivered := c.delivered ++ c.out.take 1 }
  | .close => { c with closed := true }

/-- The pump, its two scanners and its consumer. -/
def machine : Machine State Step := ⟨pre, post cap⟩

instance (c : State) (a : Step) : Decidable ((machine cap).pre c a) := inferInstanceAs (Decidable (pre c a))

/-! ## The account -/

/-- How many lines there are among the entries. -/
def lines (es : List Entry) : ℕ := (es.map fun | .line .. => 1 | .marker _ => 0).sum

/-- How many lost lines the markers among the entries account for. -/
def marks (es : List Entry) : ℕ := (es.map fun | .line .. => 0 | .marker n => n).sum

/-- A line that has not been queued or dropped yet. -/
def Pos.inHand : Pos → ℕ
  | sending _ | evicting | counting => 1
  | _ => 0

/-- What is in a queued marker, and not yet taken off the count. -/
def Pos.queued : Pos → ℕ
  | marked n true => n
  | _ => 0

/-- The sum over the scanners. -/
def State.total (c : State) (f : Pos → ℕ) : ℕ := f (c.scanner .stdout) + f (c.scanner .stderr)

/-- The drops that are in no marker. -/
def State.pending (c : State) : ℕ := c.dropped - c.total Pos.queued

/-- Every emitted line is delivered or buffered, or in the count of a marker, or pending, or just being emitted. -/
def Balanced (c : State) : Prop :=
  c.emitted = lines c.delivered + marks c.delivered + lines c.out + (c.pending + marks c.out) + c.total Pos.inHand

/-- Before a line, there are markers for all that was lost before it. -/
def Ordered (es : List Entry) : Prop :=
  ∀ before text stream losses after, es = before ++ .line text stream losses :: after → losses ≤ marks before

structure Accounted (c : State) : Prop where
  balanced : Balanced c
  ordered : Ordered c.delivered

/-- Nothing is evicted, and no line is queued while a drop is in no marker. -/
def Unhurried (cap : ℕ) (c : State) : Step → Prop
  | .evict _ => c.out = []
  | .send _ => c.out.length < cap → c.pending = 0
  | _ => True

instance (c : State) : DecidablePred (Unhurried cap c)
  | .emit .. | .count _ | .mark _ | .unmark _ | .receive | .close => inferInstanceAs (Decidable True)
  | .evict _ => inferInstanceAs (Decidable (c.out = []))
  | .send _ => inferInstanceAs (Decidable (c.out.length < cap → c.pending = 0))

section

variable (es fs : List Entry) (text : Bytes) (s : LogStream) (n : ℕ)

@[simp] theorem lines_nil : lines [] = 0 := rfl
@[simp] theorem marks_nil : marks [] = 0 := rfl
@[simp] theorem lines_line : lines (.line text s n :: es) = 1 + lines es := List.sum_cons
@[simp] theorem lines_marker : lines (.marker n :: es) = lines es := List.sum_cons.trans (Nat.zero_add _)
@[simp] theorem marks_line : marks (.line text s n :: es) = marks es := List.sum_cons.trans (Nat.zero_add _)
@[simp] theorem marks_marker : marks (.marker n :: es) = n + marks es := List.sum_cons

@[simp] theorem lines_append : lines (es ++ fs) = lines es + lines fs := by
  rw [lines, List.map_append, List.sum_append]
  rfl

@[simp] theorem marks_append : marks (es ++ fs) = marks es + marks fs := by
  rw [marks, List.map_append, List.sum_append]
  rfl

end

/-! ## What every run keeps -/

/-- The scanner has the pending marker. -/
def Pos.claims : Pos → ℕ
  | marking _ | marked .. => 1
  | _ => 0

/-- The count of the marker that a scanner has. -/
def Pos.count : Pos → ℕ
  | marking n | marked n _ => n
  | _ => 0

/-- The count of a marker is not empty, and not taken off yet. -/
def Pos.Within (dropped : ℕ) (p : Pos) : Prop := p.claims ≤ p.count ∧ p.count ≤ dropped

/-- The lost lines that are counted somewhere, or were evicted. -/
def State.counted (c : State) : ℕ := marks c.delivered + marks c.out + c.dropped + lines c.evicted + marks c.evicted

structure Inv (c : State) : Prop where
  claims : c.total Pos.claims = if c.markerPending then 1 else 0
  within : ∀ s, (c.scanner s).Within c.dropped
  emitted : c.emitted + c.total Pos.queued = lines c.delivered + lines c.out + c.counted + c.total Pos.inHand
  lost : c.lost + c.total Pos.queued = c.counted
  markers : ∀ n, .marker n ∈ c.out ++ c.evicted → 0 < n

theorem inv_start : Inv start := ⟨rfl, fun _ => ⟨Nat.le_refl 0, Nat.le_refl 0⟩, rfl, rfl, by simp [start]⟩

theorem Pos.queued_le (p : Pos) : p.queued ≤ p.count ∧ (p.claims = 0 → p.count = 0) := by
  cases p with
  | marked n sent => cases sent <;> simp [queued, count, claims]
  | _ => simp [queued, count, claims]

variable {cap} {c d : State} {s : LogStream} {p : Pos}

theorem total_goto (c : State) (s : LogStream) (p : Pos) (f : Pos → ℕ) :
    (c.goto s p).total f + f (c.scanner s) = c.total f + f p := by
  cases s
  all_goals
    simp [State.goto, State.total]
    omega

theorem scanner_goto (c : State) (s t : LogStream) (p : Pos) :
    (c.goto s p).scanner t = if t = s then p else c.scanner t := Function.update_apply _ _ _ _

/-- What is queued is part of the count. -/
theorem Inv.queued_le (h : Inv c) : c.total Pos.queued ≤ c.dropped := by
  have hclaims := h.claims
  have hout := (h.within .stdout).2
  have herr := (h.within .stderr).2
  have hqout := (c.scanner .stdout).queued_le
  have hqerr := (c.scanner .stderr).queued_le
  rw [State.total] at hclaims ⊢
  split_ifs at hclaims <;> omega

/-- **A step of one scanner**, from the position `p` to the position `q`. -/
theorem Inv.goto {q : Pos} (h : Inv c) (hs : c.scanner s = p) (hd : d.scanner = (c.goto s q).scanner)
    (hclaims : q.claims + (if c.markerPending then 1 else 0) = p.claims + if d.markerPending then 1 else 0)
    (hwithin : q.Within d.dropped) (hothers : ∀ t, t ≠ s → (c.scanner t).Within d.dropped)
    (hemitted : d.emitted + q.queued + (lines c.delivered + lines c.out + c.counted) + p.inHand =
      c.emitted + p.queued + (lines d.delivered + lines d.out + d.counted) + q.inHand)
    (hlost : d.lost + q.queued + c.counted = c.lost + p.queued + d.counted)
    (hmarkers : ∀ n, .marker n ∈ d.out ++ d.evicted → 0 < n) : Inv d := by
  have htotal : ∀ f : Pos → ℕ, d.total f + f p = c.total f + f q := by
    intro f
    rw [← total_goto c s q f, hs, State.total, hd]
    rfl
  refine ⟨?_, fun t => ?_, ?_, ?_, hmarkers⟩
  · have h1 := h.claims
    have h2 := htotal Pos.claims
    omega
  · rw [hd, scanner_goto]
    split_ifs with ht
    · exact hwithin
    · exact hothers t ht
  · have h1 := h.emitted
    have h2 := htotal Pos.queued
    have h3 := htotal Pos.inHand
    omega
  · have h1 := h.lost
    have h2 := htotal Pos.queued
    omega

theorem Inv.send (h : Inv c) {text : Bytes} (hs : c.scanner s = .sending text) : Inv (c.send cap s text) := by
  rw [State.send]
  split_ifs
  · refine h.goto hs rfl rfl ⟨Nat.le_refl 0, Nat.zero_le _⟩ (fun t _ => h.within t) ?_ ?_ ?_
    · simp [Pos.queued, Pos.inHand, State.counted, State.goto]
      omega
    · simp [Pos.queued, State.counted, State.goto]
    · simpa [State.goto] using h.markers
  · exact h.goto hs rfl rfl ⟨Nat.le_refl 0, Nat.zero_le _⟩ (fun t _ => h.within t) rfl rfl h.markers

theorem Inv.evict (h : Inv c) (hs : c.scanner s = .evicting) : Inv (c.evict s) := by
  rw [State.evict]
  split
  · exact h.goto hs rfl rfl ⟨Nat.le_refl 0, Nat.zero_le _⟩ (fun t _ => h.within t) rfl rfl h.markers
  · next e out hout =>
    have hmarkers := h.markers
    rw [hout] at hmarkers
    refine h.goto hs rfl rfl ⟨Nat.le_refl 0, Nat.zero_le _⟩ (fun t _ => h.within t) ?_ ?_ ?_
    · cases e <;> simp [Pos.queued, Pos.inHand, State.counted, State.goto, hout] <;> omega
    · cases e <;> simp [Pos.queued, State.counted, State.goto, hout] <;> omega
    · intro n hn
      refine hmarkers n ?_
      simp only [List.mem_append, List.mem_cons] at hn ⊢
      tauto

theorem Inv.count (h : Inv c) (hs : c.scanner s = .counting) : Inv (c.count s) := by
  have hothers : ∀ t, t ≠ s → (c.scanner t).Within (c.dropped + 1) := fun t _ =>
    ⟨(h.within t).1, Nat.le_succ_of_le (h.within t).2⟩
  rw [State.count]
  cases hpending : c.markerPending with
  | true =>
    refine h.goto (q := .idle) hs rfl ?_ ⟨Nat.le_refl 0, Nat.zero_le _⟩ hothers ?_ ?_ h.markers
    · simp [hpending, Pos.claims]
    · simp [Pos.queued, Pos.inHand, State.counted, State.goto]
      omega
    · simp [Pos.queued, State.counted, State.goto]
      omega
  | false =>
    refine h.goto (q := .marking (c.dropped + 1)) hs rfl ?_ ⟨Nat.succ_pos _, Nat.le_refl _⟩ hothers ?_ ?_ h.markers
    · simp [hpending, Pos.claims]
    · simp [Pos.queued, Pos.inHand, State.counted, State.goto]
      omega
    · simp [Pos.queued, State.counted, State.goto]
      omega

theorem Inv.mark (h : Inv c) {n : ℕ} (hs : c.scanner s = .marking n) : Inv (c.mark cap s n) := by
  obtain ⟨hpos, hle⟩ : 1 ≤ n ∧ n ≤ c.dropped := by
    have hwithin := h.within s
    rwa [hs] at hwithin
  rw [State.mark]
  split_ifs
  · refine h.goto hs rfl rfl ⟨hpos, hle⟩ (fun t _ => h.within t) ?_ ?_ ?_
    · simp [Pos.queued, Pos.inHand, State.counted, State.goto]
      omega
    · simp [Pos.queued, State.counted, State.goto]
      omega
    · intro m hm
      have hold := h.markers m
      simp only [List.mem_append, List.mem_singleton, Entry.marker.injEq] at hm hold
      rcases hm with (hm | rfl) | hm
      · exact hold (.inl hm)
      · exact hpos
      · exact hold (.inr hm)
  · exact h.goto hs rfl rfl ⟨hpos, hle⟩ (fun t _ => h.within t) rfl rfl h.markers

theorem Inv.unmark (h : Inv c) {n : ℕ} {sent : Bool} (hs : c.scanner s = .marked n sent) : Inv (c.unmark s n sent) := by
  have hwithin := h.within s
  rw [hs] at hwithin
  obtain ⟨hpos, hle⟩ : 1 ≤ n ∧ n ≤ c.dropped := hwithin
  -- the other scanner has no marker
  have htwo : ∀ t, t ≠ s → (c.scanner s).claims + (c.scanner t).claims = c.total Pos.claims := by
    intro t ht
    cases s <;> cases t <;> first | exact absurd rfl ht | rfl | exact Nat.add_comm _ _
  have hpending : c.markerPending = true ∧ ∀ t, t ≠ s → (c.scanner t).claims = 0 := by
    have hclaims := h.claims
    have hone : (c.scanner s).claims = 1 := by rw [hs]; rfl
    have hself : (c.scanner s).claims ≤ c.total Pos.claims := by
      cases s
      · exact Nat.le_add_right _ _
      · exact Nat.le_add_left _ _
    refine ⟨?_, fun t ht => ?_⟩
    · by_contra hnot
      rw [if_neg hnot] at hclaims
      omega
    · have hsum := htwo t ht
      split_ifs at hclaims <;> omega
  have hothers : ∀ (m : ℕ) t, t ≠ s → (c.scanner t).Within m := by
    intro m t ht
    have hcount := (c.scanner t).queued_le.2 (hpending.2 t ht)
    rw [Pos.Within, hcount, hpending.2 t ht]
    exact ⟨Nat.le_refl 0, Nat.zero_le m⟩
  rw [State.unmark]
  refine h.goto (q := .idle) hs rfl ?_ ⟨Nat.le_refl 0, Nat.zero_le _⟩ (hothers _) ?_ ?_ h.markers
  · simp [hpending.1, Pos.claims]
  · cases sent <;> simp [Pos.queued, Pos.inHand, State.counted, State.goto]
    omega
  · cases sent <;> simp [Pos.queued, State.counted, State.goto]
    omega

/-- **Every step keeps the invariant.** -/
theorem Inv.step (h : Inv c) {a : Step} (hpre : pre c a) : Inv (post cap c a) := by
  cases a with
  | emit s text =>
    rw [post]
    split_ifs
    · exact h
    · refine h.goto hpre rfl rfl ⟨Nat.le_refl 0, Nat.zero_le _⟩ (fun t _ => h.within t) ?_ rfl h.markers
      simp [Pos.queued, Pos.inHand, State.counted, State.goto]
      omega
  | send s =>
    rw [post]
    split
    · next text hs => exact h.send hs
    · exact h
  | evict s => exact h.evict hpre
  | count s => exact h.count hpre
  | mark s =>
    rw [post]
    split
    · next n hs => exact h.mark hs
    · exact h
  | unmark s =>
    rw [post]
    split
    · next n sent hs => exact h.unmark hs
    · exact h
  | receive =>
    obtain ⟨e, out, hout⟩ := List.exists_cons_of_ne_nil hpre
    have hemitted := h.emitted
    have hlost := h.lost
    have hmarkers := h.markers
    refine ⟨h.claims, h.within, ?_, ?_, fun n hn => hmarkers n ?_⟩
    · rw [State.counted, hout] at hemitted
      cases e <;> simp [post, State.counted, State.total, hout] at hemitted ⊢ <;> omega
    · rw [State.counted, hout] at hlost
      cases e <;> simp [post, State.counted, State.total, hout] at hlost ⊢ <;> omega
    · rw [hout]
      simp only [post, hout, List.tail_cons] at hn
      exact List.mem_cons_of_mem e hn
  | close => exact ⟨h.claims, h.within, h.emitted, h.lost, h.markers⟩

theorem inv_run {P : State → Step → Prop} (h : (machine cap).Reach P start c) : Inv c :=
  h.invariant inv_start fun _ _ hinv hpre _ => hinv.step hpre

/-! ## When the account is balanced -/

theorem lost_pos {es : List Entry} (h : ∀ n, .marker n ∈ es → 0 < n) : lines es + marks es = 0 ↔ es = [] := by
  refine ⟨fun hzero => ?_, fun hnil => hnil ▸ rfl⟩
  cases es with
  | nil => rfl
  | cons e es =>
    cases e with
    | line text s n =>
      rw [lines_line] at hzero
      omega
    | marker n =>
      have hpos := h n List.mem_cons_self
      rw [marks_marker] at hzero
      omega

/-- **The account is balanced** exactly when nothing has been evicted. -/
theorem balanced_iff {P : State → Step → Prop} (h : (machine cap).Reach P start c) : Balanced c ↔ c.evicted = [] := by
  have hinv := inv_run h
  have hqueued := hinv.queued_le
  have hemitted := hinv.emitted
  rw [← lost_pos fun n hn => hinv.markers n (List.mem_append_right _ hn), Balanced, State.pending]
  rw [State.counted] at hemitted
  omega

/-! ## When no line overtakes a marker -/

section

variable {es fs : List Entry}

theorem Ordered.of_append (h : Ordered (es ++ fs)) : Ordered es := by
  rintro before text stream losses after rfl
  refine h before text stream losses (after ++ fs) ?_
  rw [List.append_assoc, List.cons_append]

theorem Ordered.concat (h : Ordered es) {e : Entry}
    (he : ∀ text stream losses, e = .line text stream losses → losses ≤ marks es) : Ordered (es ++ [e]) := by
  intro before text stream losses after heq
  rcases List.eq_nil_or_concat after with rfl | ⟨after, e', rfl⟩
  · obtain ⟨rfl, hlast⟩ := List.append_inj' heq rfl
    exact he text stream losses (List.singleton_inj.mp hlast)
  · rw [List.concat_eq_append, ← List.cons_append, ← List.append_assoc] at heq
    exact h before text stream losses after (List.append_inj' heq rfl).1

end

/-- What a run keeps that evicts nothing, and queues lines behind the markers alone. -/
structure Tidy (c : State) : Prop extends Inv c where
  evicted : c.evicted = []
  ordered : Ordered (c.delivered ++ c.out)

theorem Tidy.step (h : Tidy c) {a : Step} (hpre : pre c a) (hP : Unhurried cap c a) : Tidy (post cap c a) := by
  have hinv : Inv (post cap c a) := h.toInv.step hpre
  cases a with
  | emit s text =>
    refine ⟨hinv, ?_, ?_⟩
    all_goals
      rw [post]
      split_ifs <;> first | exact h.evicted | exact h.ordered
  | send s =>
    have hpos : ∃ text, c.scanner s = .sending text := by
      cases hs : c.scanner s with
      | sending text => exact ⟨text, rfl⟩
      | _ => simp [pre, hs, Pos.isSending] at hpre
    obtain ⟨text, hs⟩ := hpos
    have hpost : post cap c (.send s) = c.send cap s text := by rw [post, hs]
    rw [hpost] at hinv ⊢
    refine ⟨hinv, ?_, ?_⟩
    all_goals
      rw [State.send]
      split_ifs with hroom
    · exact h.evicted
    · exact h.evicted
    · show Ordered (c.delivered ++ (c.out ++ [_]))
      rw [← List.append_assoc]
      refine h.ordered.concat fun text stream losses heq => ?_
      obtain ⟨-, -, rfl⟩ := Entry.line.inj heq
      -- all that is lost is in a queued marker
      have hlost := h.lost
      have hpending : c.dropped - c.total Pos.queued = 0 := hP hroom
      have hqueued := h.queued_le
      rw [State.counted, h.evicted, lines_nil, marks_nil] at hlost
      rw [marks_append]
      omega
    · exact h.ordered
  | evict s =>
    have hpost : c.evict s = c.goto s .counting := by rw [State.evict, show c.out = [] from hP]
    rw [post, hpost] at hinv ⊢
    exact ⟨hinv, h.evicted, h.ordered⟩
  | count s | close => exact ⟨hinv, h.evicted, h.ordered⟩
  | mark s =>
    have hpos : ∃ n, c.scanner s = .marking n := by
      cases hs : c.scanner s with
      | marking n => exact ⟨n, rfl⟩
      | _ => simp [pre, hs, Pos.isMarking] at hpre
    obtain ⟨n, hs⟩ := hpos
    have hpost : post cap c (.mark s) = c.mark cap s n := by rw [post, hs]
    rw [hpost] at hinv ⊢
    refine ⟨hinv, ?_, ?_⟩
    all_goals
      rw [State.mark]
      split_ifs
    · exact h.evicted
    · exact h.evicted
    · show Ordered (c.delivered ++ (c.out ++ [_]))
      rw [← List.append_assoc]
      exact h.ordered.concat nofun
    · exact h.ordered
  | unmark s =>
    refine ⟨hinv, ?_, ?_⟩
    all_goals
      rw [post]
      split <;> first | exact h.evicted | exact h.ordered
  | receive =>
    refine ⟨hinv, h.evicted, ?_⟩
    show Ordered (c.delivered ++ c.out.take 1 ++ c.out.tail)
    rw [List.append_assoc, ← List.drop_one, List.take_append_drop]
    exact h.ordered

/-- **Every loss is accounted for** in every state of a run that evicts nothing, and queues no line while a drop is in
no marker. -/
theorem losses_accounted (bufSize : ℤ)
    (h : (machine (capacity bufSize)).Reach (Unhurried (capacity bufSize)) start c) : Accounted c := by
  have htidy : Tidy c := by
    refine h.invariant ⟨inv_start, rfl, ?_⟩ fun u a hu hpre hP => hu.step hpre hP
    intro before text stream losses after heq
    simp [start] at heq
  exact ⟨(balanced_iff h).mpr htidy.evicted, htidy.ordered.of_append⟩

/-- The consumer empties the buffer between the two selects. -/
def drained : List Step :=
  [.emit .stdout [97], .send .stdout, .emit .stderr [98], .send .stderr, .receive, .evict .stderr, .count .stderr,
    .mark .stderr, .unmark .stderr, .receive, .emit .stdout [99], .send .stdout, .receive, .close]

/-- A line that finds the buffer full, and the marker in its place. -/
theorem losses_accounted_drained : ∃ c : State, Accounted c ∧ c.emitted = 3 ∧
    c.delivered = [.line [97] .stdout 0, .marker 1, .line [99] .stdout 1] := by
  have hrun : (((machine (capacity 1)).guard (Unhurried (capacity 1))).exec drained start).map
      (fun c => (c.emitted, c.delivered)) = some (3, [.line [97] .stdout 0, .marker 1, .line [99] .stdout 1]) := by
    decide
  obtain ⟨c, hc, heq⟩ := Machine.reach_of_exec_map hrun
  exact ⟨c, losses_accounted 1 (Machine.reach_of_guard hc), (Prod.mk.inj heq).1, (Prod.mk.inj heq).2⟩

/-- Two lines are emitted into a buffer for one. -/
def overflow : List Step :=
  [.emit .stdout [97], .send .stdout, .emit .stdout [98], .send .stdout, .evict .stdout, .count .stdout, .mark .stdout,
    .unmark .stdout, .close, .receive]

/-- **Two lines are lost, and one is reported**: the line that is evicted is not counted. -/
theorem overflow_counts_one : ∃ c : State, (machine (capacity 1)).Reach Machine.Any start c ∧ c.emitted = 2 ∧
    c.delivered = [.marker 1] ∧ c.out = [] ∧ ¬ Balanced c := by
  have hrun : ((machine (capacity 1)).exec overflow start).map
      (fun c => (c.emitted, c.delivered, c.out, c.evicted)) = some (2, [.marker 1], [], [.line [97] .stdout 0]) := by
    decide
  obtain ⟨c, hc, heq⟩ := Machine.reach_of_exec_map hrun
  simp only [Prod.mk.injEq] at heq
  obtain ⟨hemitted, hdelivered, hout, hevicted⟩ := heq
  refine ⟨c, hc, hemitted, hdelivered, hout, ?_⟩
  rw [balanced_iff hc, hevicted]
  exact List.cons_ne_nil _ _

end McServerDashboard.Worker.LogPump
