import Mathlib.Data.Finset.Basic
import Mathlib.Data.Finset.Option
import McServerDashboard.Lib.Run
import McServerDashboard.Lib.Deque
import McServerDashboard.Lib.Trace

/-!
# Real-time events

One subscription of the in-process bus: `publish` on any server, the operations of the subscription and the
`__anext__` of any number of tasks, in any order. What a publication carries is numbered.

* `Subscription`: `offer`, `discard_buffered`, `take_dropped`, `__anext__`, `aclose`.
* `Sound`: what each observation owes to the ones before it; `Inv`: the flags and the buffer against the trace.
* **`events_delivered`**: every interleaving.
-/

namespace McServerDashboard.Fleet.RealTimeEvents

open Lib Lib.Trace

abbrev ServerId := String
/-- A task of the event loop. -/
abbrev Task := ℕ

inductive EventStream
  | status
  | log
  | metrics
  | notification
  | gap
  deriving DecidableEq

structure RealTimeEvent (π : Type*) where
  stream : EventStream
  payload : π
  emittedAt : Option ℕ
  serverId : Option ServerId

/-- `asyncio.Event`: its flag, and the tasks that wait for it. -/
structure Event where
  value : Bool
  waiters : Finset Task

namespace Event

def set (e : Event) : Event := if e.value then e else ⟨true, ∅⟩

def clear (e : Event) : Event := { e with value := false }

/-- `wait`: a task goes on at once if the flag is set. -/
def wait (e : Event) (t : Task) : Event := if e.value then e else { e with waiters := insert t e.waiters }

end Event

variable {π : Type*}

/-- `_Subscription`. -/
structure Subscription (π : Type*) where
  streams : Finset EventStream
  buffer : Deque (RealTimeEvent π)
  gapPending : Bool
  dropped : Finset EventStream
  closed : Bool
  ready : Event

/-- How `__anext__` ends, or that it waits. -/
inductive Next (π : Type*)
  | event (e : RealTimeEvent π)
  | gap
  | stop
  | wait

namespace Subscription

variable (sub : Subscription π)

/-- The event that an `offer` of `event` evicts. -/
def evicted (event : RealTimeEvent π) : Option (RealTimeEvent π) :=
  if event.stream ∈ sub.streams ∧ sub.buffer.Full then sub.buffer.items.head? else none

/-- `offer`. -/
def offer (event : RealTimeEvent π) : Subscription π :=
  if event.stream ∉ sub.streams then sub
  else
    let noted := if sub.buffer.Full then
        { sub with
          gapPending := true
          dropped := sub.dropped ∪ (sub.buffer.items.head?.map (·.stream)).toFinset }
      else sub
    { noted with buffer := noted.buffer.append event, ready := noted.ready.set }

/-- `discard_buffered`. -/
def discardBuffered (streams : Finset EventStream) : Subscription π :=
  let kept := sub.buffer.filter fun e => e.stream ∉ streams
  { sub with
    buffer := kept
    ready := if kept.items = [] ∧ sub.gapPending = false then sub.ready.clear else sub.ready }

/-- `take_dropped`, without what it returns. -/
def takeDropped : Subscription π := { sub with dropped := ∅ }

/-- `__anext__`, up to its `return`, its `raise` or its `await`. -/
def anext (t : Task) : Next π × Subscription π :=
  if sub.gapPending then (.gap, { sub with gapPending := false })
  else match sub.buffer.popleft with
    | some (event, rest) =>
      (.event event, { sub with buffer := rest, ready := if rest.items = [] then sub.ready.clear else sub.ready })
    | none => if sub.closed then (.stop, sub) else (.wait, { sub with ready := sub.ready.clear.wait t })

/-- `aclose`, without the deregistration. -/
def aclose : Subscription π := { sub with closed := true, ready := sub.ready.set }

end Subscription

/-- What of a publication reaches a subscription: of one server, or of all (the firehose). -/
def copyFor (topic : Option ServerId) (serverId : ServerId) (event : RealTimeEvent π) : Option (RealTimeEvent π) :=
  match topic with
  | some id => if serverId = id then some event else none
  | none => some { event with serverId := some serverId }

/-! ## Interleavings -/

/-- An event and the number of its publication. -/
abbrev Numbered (π : Type*) := RealTimeEvent (ℕ × π)

def RealTimeEvent.number (n : ℕ) (event : RealTimeEvent π) : Numbered π := { event with payload := (n, event.payload) }

/-- The number of the publication. -/
def RealTimeEvent.seq (event : Numbered π) : ℕ := event.payload.1

inductive Observation (π : Type*)
  /-- It is offered to the subscription. -/
  | published (e : Numbered π)
  /-- It is evicted by an overflow. -/
  | lost (e : Numbered π)
  | discarded (e : Numbered π)
  | delivered (e : Numbered π)
  /-- A gap marker is delivered. -/
  | marker
  /-- `take_dropped` has returned these streams. -/
  | taken (streams : Finset EventStream)

namespace Observation

def isMarker : Observation π → Bool
  | marker => true
  | _ => false

def isTaken : Observation π → Bool
  | taken _ => true
  | _ => false

def delivered? : Observation π → Option (Numbered π)
  | delivered e => some e
  | _ => none

/-- A publication of a selected stream. -/
def selected? (streams : Finset EventStream) : Observation π → Option (Numbered π)
  | published e => if e.stream ∈ streams then some e else none
  | _ => none

end Observation

structure System (π : Type*) where
  sub : Subscription (ℕ × π)
  registered : Bool
  nextSeq : ℕ
  trace : List (Observation π)

def init (streams : Finset EventStream) (maxQueue : ℕ) (h : 0 < maxQueue) : System π where
  sub := ⟨streams, .empty maxQueue h, false, ∅, false, ⟨false, ∅⟩⟩
  registered := true
  nextSeq := 0
  trace := []

inductive Action (π : Type*)
  | publish (serverId : ServerId) (event : RealTimeEvent π)
  | discardBuffered (streams : Finset EventStream)
  | takeDropped
  /-- A task calls `__anext__`, or goes on with it when it has been woken. -/
  | anext (t : Task)
  /-- A task that waits is cancelled. -/
  | cancel (t : Task)
  | aclose

def pre (s : System π) : Action π → Prop
  | .anext t => t ∉ s.sub.ready.waiters
  | .cancel t => t ∈ s.sub.ready.waiters
  | _ => True

namespace System

variable (s : System π)

/-- The bus offers the event to the subscription. -/
def offer (e : Numbered π) : System π :=
  { s with
    sub := s.sub.offer e
    nextSeq := s.nextSeq + 1
    trace := s.trace ++ [.published e] ++ (s.sub.evicted e).toList.map .lost }

/-- A task runs `__anext__`. -/
def anext (t : Task) : System π :=
  let s' := { s with sub := (s.sub.anext t).2 }
  match (s.sub.anext t).1 with
  | .event e => { s' with trace := s.trace ++ [.delivered e] }
  | .gap => { s' with trace := s.trace ++ [.marker] }
  | .stop | .wait => s'

end System

def post (topic : Option ServerId) (s : System π) : Action π → System π
  | .publish serverId event =>
    match copyFor topic serverId event with
    | some e => if s.registered then s.offer (e.number s.nextSeq) else s
    | none => s
  | .discardBuffered streams =>
    { s with
      sub := s.sub.discardBuffered streams
      trace := s.trace ++ (s.sub.buffer.items.filter fun e => e.stream ∈ streams).map .discarded }
  | .takeDropped => { s with sub := s.sub.takeDropped, trace := s.trace ++ [.taken s.sub.dropped] }
  | .anext t => s.anext t
  | .cancel t => { s with sub := { s.sub with ready := { s.sub.ready with waiters := s.sub.ready.waiters.erase t } } }
  | .aclose => { s with sub := s.sub.aclose, registered := false }

def machine (topic : Option ServerId) : Machine (System π) (Action π) := ⟨pre, post topic⟩

/-! ## What a run shows -/

/-- The events that are delivered. -/
def delivered (trace : List (Observation π)) : List (Numbered π) := trace.filterMap Observation.delivered?

/-- The publications of the selected streams. -/
def selected (streams : Finset EventStream) (trace : List (Observation π)) : List (Numbered π) :=
  trace.filterMap (Observation.selected? streams)

/-- What an observation owes to the ones before it. -/
def Sound (past : List (Observation π)) : Observation π → Prop
  | .delivered _ => ∀ l, .lost l ∈ past → ∃ u v, past = u ++ .lost l :: v ∧ .marker ∈ v
  | .lost l => ∀ e, .delivered e ∈ past → e.seq < l.seq
  | .marker => ∃ l, .lost l ∈ since Observation.isMarker past
  | .taken streams => ∀ x, x ∈ streams ↔ ∃ l, .lost l ∈ since Observation.isTaken past ∧ l.stream = x
  | .published _ | .discarded _ => True

structure Inv (streams : Finset EventStream) (s : System π) : Prop where
  order : (delivered s.trace ++ s.sub.buffer.items).Sublist (selected streams s.trace)
  numbered : (selected streams s.trace).Pairwise fun a b => a.seq < b.seq
  below : ∀ e ∈ selected streams s.trace, e.seq < s.nextSeq
  sound : Each Sound s.trace
  gap : s.sub.gapPending = true ↔ ∃ l, .lost l ∈ since Observation.isMarker s.trace
  dropped : ∀ x, x ∈ s.sub.dropped ↔ ∃ l, .lost l ∈ since Observation.isTaken s.trace ∧ l.stream = x
  ready : s.sub.gapPending = true ∨ s.sub.buffer.items ≠ [] → s.sub.ready.value = true
  waiting : s.sub.ready.waiters.Nonempty → s.sub.ready.value = false
  same : s.sub.streams = streams

section Steps

variable {streams : Finset EventStream} {topic : Option ServerId} {s : System π} {trace : List (Observation π)}

theorem inv_init (n : ℕ) (h : 0 < n) : Inv streams (init (π := π) streams n h) := by
  constructor <;> simp [init, delivered, selected, each_nil, Deque.empty]

theorem mem_delivered {e : Numbered π} : e ∈ delivered trace ↔ .delivered e ∈ trace := by
  simp only [delivered, List.mem_filterMap]
  constructor
  · rintro ⟨o, ho, he⟩
    cases o <;> simp_all [Observation.delivered?]
  · exact fun h => ⟨_, h, rfl⟩

@[simp] theorem delivered_concat {o : Observation π} : delivered (trace ++ [o]) = delivered trace ++ o.delivered?.toList := by
  rw [delivered, List.filterMap_append]
  cases h : o.delivered? <;> simp [delivered, h]

@[simp] theorem selected_concat {o : Observation π} :
    selected streams (trace ++ [o]) = selected streams trace ++ (o.selected? streams).toList := by
  rw [selected, List.filterMap_append]
  cases h : o.selected? streams <;> simp [selected, h]

/-- A lost event that no marker has followed is still owed one. -/
theorem exists_marker {l : Numbered π} (hl : .lost l ∈ trace)
    (hno : ¬∃ l, .lost l ∈ since Observation.isMarker trace) : ∃ u v, trace = u ++ .lost l :: v ∧ .marker ∈ v := by
  obtain ⟨u, v, b, rfl, hb, hm⟩ := exists_after hl (fun h => hno ⟨l, h⟩) rfl
  refine ⟨u, v, rfl, ?_⟩
  cases b <;> first | exact hb | cases hm

@[simp] theorem Event.set_value (e : Event) : e.set.value = true := by
  unfold Event.set
  split <;> simp_all

/-- `set` wakes all that wait. -/
theorem Event.set_waiters {e : Event} (h : e.waiters.Nonempty → e.value = false) : e.set.waiters = ∅ := by
  unfold Event.set
  split_ifs with hv
  · by_contra hne
    rw [h (Finset.nonempty_iff_ne_empty.mpr hne)] at hv
    cases hv
  · rfl

/-! ### One step -/

/-- What is published comes last. -/
theorem Inv.published (h : Inv streams s) {e : Numbered π} (he : e.seq = s.nextSeq) :
    (selected streams (s.trace ++ [.published e])).Pairwise (fun a b => a.seq < b.seq) ∧
      ∀ a ∈ selected streams (s.trace ++ [.published e]), a.seq < s.nextSeq + 1 := by
  rw [selected_concat]
  by_cases hs : e.stream ∈ streams
  · simp only [Observation.selected?, if_pos hs, Option.toList_some, List.mem_append, List.mem_singleton]
    refine ⟨List.pairwise_append.mpr ⟨h.numbered, List.pairwise_singleton _ _, fun a ha b hb => ?_⟩, ?_⟩
    · rw [List.mem_singleton.mp hb, he]
      exact h.below a ha
    · rintro a (ha | rfl)
      · exact Nat.lt_succ_of_lt (h.below a ha)
      · rw [he]
        exact Nat.lt_succ_self _
  · simp only [Observation.selected?, if_neg hs, Option.toList_none, List.append_nil]
    exact ⟨h.numbered, fun a ha => Nat.lt_succ_of_lt (h.below a ha)⟩

/-- The flags say the same after a publication. -/
theorem Inv.flags (h : Inv streams s) (e : Numbered π) :
    (s.sub.gapPending = true ↔ ∃ l, .lost l ∈ since Observation.isMarker (s.trace ++ [.published e])) ∧
      ∀ x, x ∈ s.sub.dropped ↔
        ∃ l, .lost l ∈ since Observation.isTaken (s.trace ++ [.published e]) ∧ l.stream = x := by
  rw [since_concat_neg rfl, since_concat_neg rfl]
  refine ⟨?_, fun x => ?_⟩
  · rw [h.gap]
    simp
  · rw [h.dropped]
    simp

theorem selected_published {e : Numbered π} (he : e.stream ∈ streams) :
    selected streams (trace ++ [.published e]) = selected streams trace ++ [e] := by
  rw [selected_concat, Observation.selected?, if_pos he]
  rfl

/-- The buffer is full, and its oldest event is lost. -/
theorem Inv.overflow (h : Inv streams s) {e : Numbered π} (he : e.seq = s.nextSeq) (hs : e.stream ∈ s.sub.streams)
    (hfull : s.sub.buffer.Full) : Inv streams (s.offer e) := by
  obtain ⟨o, rest, ho⟩ := hfull.exists_cons
  have hev : s.sub.evicted e = some o := by rw [Subscription.evicted, if_pos ⟨hs, hfull⟩, ho]; rfl
  have hsub : s.sub.offer e = { s.sub with
      gapPending := true, dropped := s.sub.dropped ∪ {o.stream}, buffer := s.sub.buffer.append e,
      ready := s.sub.ready.set } := by
    simp only [Subscription.offer, hs, not_true_eq_false, if_false, hfull, if_true, ho, List.head?_cons,
      Option.map_some, Option.toFinset_some]
  obtain ⟨hnumbered, hbelow⟩ := h.published he
  have hold := h.order
  rw [ho] at hold
  -- what is delivered is older than what is buffered
  have hearlier : ∀ a ∈ delivered s.trace, a.seq < o.seq := fun a ha =>
    (List.pairwise_append.mp (h.numbered.sublist hold)).2.2 a ha o List.mem_cons_self
  simp only [System.offer, hev, hsub, Option.toList_some, List.map_cons, List.map_nil]
  have hsound : Each Sound (s.trace ++ [.published e]) := h.sound.concat trivial
  refine ⟨?_, ?_, ?_, hsound.concat ?_, ?_, ?_, fun _ => Event.set_value _, ?_, h.same⟩
  · rw [selected_concat, delivered_concat, delivered_concat, selected_published (h.same ▸ hs),
      Deque.append_full hfull ho]
    simp only [Observation.delivered?, Observation.selected?, Option.toList_none, List.append_nil]
    rw [← List.append_assoc]
    exact (((List.sublist_cons_self o rest).append_left _).trans hold).append (List.Sublist.refl _)
  · rw [selected_concat]
    simpa only [Observation.selected?, Option.toList_none, List.append_nil] using hnumbered
  · rw [selected_concat]
    simpa only [Observation.selected?, Option.toList_none, List.append_nil] using hbelow
  · intro a ha
    rw [List.mem_append, List.mem_singleton] at ha
    exact hearlier a (mem_delivered.mpr (ha.resolve_right nofun))
  · rw [since_concat_neg rfl]
    simp
  · intro x
    rw [since_concat_neg rfl, Finset.mem_union, (h.flags e).2, Finset.mem_singleton]
    constructor
    · rintro (⟨l, hl, rfl⟩ | rfl)
      · exact ⟨l, List.mem_append_left _ hl, rfl⟩
      · exact ⟨o, by simp, rfl⟩
    · rintro ⟨l, hl, rfl⟩
      rcases List.mem_append.mp hl with hl | hl
      · exact .inl ⟨l, hl, rfl⟩
      · rw [List.mem_singleton, Observation.lost.injEq] at hl
        exact .inr (by rw [hl])
  · simp [Event.set_waiters h.waiting]

theorem Inv.offer (h : Inv streams s) {e : Numbered π} (he : e.seq = s.nextSeq) : Inv streams (s.offer e) := by
  obtain ⟨hnumbered, hbelow⟩ := h.published he
  obtain ⟨hgap, hdropped⟩ := h.flags e
  have hsound : Each Sound (s.trace ++ [.published e]) := h.sound.concat trivial
  by_cases hs : e.stream ∈ s.sub.streams
  · by_cases hfull : s.sub.buffer.Full
    · exact h.overflow he hs hfull
    have hev : s.sub.evicted e = none := if_neg fun hc => hfull hc.2
    have hsub : s.sub.offer e = { s.sub with buffer := s.sub.buffer.append e, ready := s.sub.ready.set } := by
      simp only [Subscription.offer, hs, not_true_eq_false, if_false, hfull]
    simp only [System.offer, hev, hsub, Option.toList_none, List.map_nil, List.append_nil]
    refine ⟨?_, hnumbered, hbelow, hsound, hgap, hdropped, fun _ => Event.set_value _, ?_, h.same⟩
    · rw [delivered_concat, selected_published (h.same ▸ hs), Deque.append_room hfull]
      simp only [Observation.delivered?, Option.toList_none, List.append_nil]
      rw [← List.append_assoc]
      exact h.order.append (List.Sublist.refl _)
    · simp [Event.set_waiters h.waiting]
  · have hev : s.sub.evicted e = none := if_neg fun hc => hs hc.1
    have hsub : s.sub.offer e = s.sub := if_pos hs
    simp only [System.offer, hev, hsub, Option.toList_none, List.map_nil, List.append_nil]
    refine ⟨?_, hnumbered, hbelow, hsound, hgap, hdropped, h.ready, h.waiting, h.same⟩
    rw [selected_concat, delivered_concat, Observation.selected?, if_neg (h.same ▸ hs)]
    simpa [Observation.delivered?] using h.order

/-- What is discarded is noted. -/
theorem Inv.note (h : Inv streams s) (es : List (Numbered π)) :
    Inv streams { s with trace := s.trace ++ es.map .discarded } := by
  induction es using List.reverseRecOn with
  | nil => simpa using h
  | append_singleton es e ih =>
    rw [List.map_append, List.map_singleton, ← List.append_assoc]
    obtain ⟨h1, h2, h3, h4, h5, h6, h7, h8, h9⟩ := ih
    refine ⟨?_, ?_, ?_, h4.concat trivial, ?_, fun x => ?_, h7, h8, h9⟩
    · rw [delivered_concat, selected_concat]
      simpa [Observation.delivered?, Observation.selected?] using h1
    · rw [selected_concat]
      simpa [Observation.selected?] using h2
    · rw [selected_concat]
      simpa [Observation.selected?] using h3
    · rw [since_concat_neg rfl]
      simpa using h5
    · rw [since_concat_neg rfl]
      simpa using h6 x

theorem Inv.discardBuffered (h : Inv streams s) (x : Finset EventStream) :
    Inv streams { s with sub := s.sub.discardBuffered x } := by
  have hkept : (s.sub.buffer.items.filter fun e => e.stream ∉ x).Sublist s.sub.buffer.items := List.filter_sublist
  refine ⟨(hkept.append_left _).trans h.order, h.numbered, h.below, h.sound, h.gap, h.dropped, ?_, ?_, h.same⟩
  · intro hsome
    have hstays : ¬((s.sub.buffer.filter fun e => e.stream ∉ x).items = [] ∧ s.sub.gapPending = false) := by
      rintro ⟨hnil, hgap⟩
      rcases hsome with hg | hne
      · exact absurd (hgap.symm.trans hg) Bool.false_ne_true
      · exact hne hnil
    simp only [Subscription.discardBuffered, if_neg hstays]
    refine h.ready (hsome.imp_right fun hne hnil => hne ?_)
    rw [Subscription.discardBuffered, Deque.filter_items, hnil]
    rfl
  · simp only [Subscription.discardBuffered]
    split_ifs
    · exact fun _ => rfl
    · exact h.waiting

theorem Inv.takeDropped (h : Inv streams s) :
    Inv streams { s with sub := s.sub.takeDropped, trace := s.trace ++ [.taken s.sub.dropped] } := by
  refine ⟨?_, ?_, ?_, h.sound.concat h.dropped, ?_, fun x => ?_, h.ready, h.waiting, h.same⟩
  · rw [delivered_concat, selected_concat]
    simpa [Observation.delivered?, Observation.selected?, Subscription.takeDropped] using h.order
  · rw [selected_concat]
    simpa [Observation.selected?] using h.numbered
  · rw [selected_concat]
    simpa [Observation.selected?] using h.below
  · rw [since_concat_neg rfl]
    simpa [Subscription.takeDropped] using h.gap
  · rw [since_concat_pos rfl]
    simp [Subscription.takeDropped]

/-- The pending marker is delivered. -/
theorem Inv.deliverMarker (h : Inv streams s) (hg : s.sub.gapPending = true) :
    Inv streams { s with sub := { s.sub with gapPending := false }, trace := s.trace ++ [.marker] } := by
  refine ⟨?_, ?_, ?_, h.sound.concat (h.gap.mp hg), ?_, fun x => ?_, fun _ => h.ready (.inl hg), h.waiting, h.same⟩
  · rw [delivered_concat, selected_concat]
    simpa [Observation.delivered?, Observation.selected?] using h.order
  · rw [selected_concat]
    simpa [Observation.selected?] using h.numbered
  · rw [selected_concat]
    simpa [Observation.selected?] using h.below
  · rw [since_concat_pos rfl]
    simp
  · rw [since_concat_neg rfl]
    simpa using h.dropped x

/-- The oldest event is delivered. -/
theorem Inv.deliver (h : Inv streams s) {e : Numbered π} {rest : Deque (Numbered π)} (hg : s.sub.gapPending = false)
    (hb : s.sub.buffer.popleft = some (e, rest)) :
    Inv streams { s with
      sub := { s.sub with buffer := rest, ready := if rest.items = [] then s.sub.ready.clear else s.sub.ready }
      trace := s.trace ++ [.delivered e] } := by
  have hitems := Deque.popleft_some hb
  have hno : ¬∃ l, .lost l ∈ since Observation.isMarker s.trace := fun hl => by
    rw [h.gap.mpr hl] at hg
    cases hg
  refine ⟨?_, ?_, ?_, h.sound.concat fun l hl => exists_marker hl hno, ?_, fun x => ?_, ?_, ?_, h.same⟩
  · have horder := h.order
    rw [hitems] at horder
    rw [delivered_concat, selected_concat]
    simpa [Observation.delivered?, Observation.selected?] using horder
  · rw [selected_concat]
    simpa [Observation.selected?] using h.numbered
  · rw [selected_concat]
    simpa [Observation.selected?] using h.below
  · rw [since_concat_neg rfl]
    simpa using h.gap
  · rw [since_concat_neg rfl]
    simpa using h.dropped x
  · rintro (hgap | hne)
    · exact absurd hgap (by simp [hg])
    · simp only [if_neg hne]
      exact h.ready (.inr (by simp [hitems]))
  · simp only
    split_ifs
    · exact fun _ => rfl
    · exact h.waiting

theorem Inv.anext (h : Inv streams s) (t : Task) : Inv streams (s.anext t) := by
  unfold System.anext Subscription.anext
  by_cases hg : s.sub.gapPending = true
  · simp only [if_pos hg]
    exact h.deliverMarker hg
  · simp only [if_neg hg]
    rw [Bool.not_eq_true] at hg
    cases hb : s.sub.buffer.popleft with
    | some x => exact h.deliver hg hb
    | none =>
      have hnil := Deque.popleft_none.mp hb
      by_cases hc : s.sub.closed = true
      · simp only [if_pos hc]
        exact h
      · simp only [if_neg hc]
        refine ⟨h.order, h.numbered, h.below, h.sound, h.gap, h.dropped, ?_, fun _ => rfl, h.same⟩
        rintro (hgap | hne)
        · exact absurd hgap (by simp [hg])
        · exact absurd hnil hne

theorem Inv.step (h : Inv streams s) (a : Action π) : Inv streams ((machine topic).post s a) := by
  cases a with
  | publish serverId event =>
    simp only [machine, post]
    split
    · split_ifs
      · exact h.offer rfl
      · exact h
    · exact h
  | discardBuffered x => exact (h.discardBuffered x).note _
  | takeDropped => exact h.takeDropped
  | anext t => exact h.anext t
  | cancel t =>
    refine ⟨h.order, h.numbered, h.below, h.sound, h.gap, h.dropped, h.ready, fun hw => h.waiting ?_, h.same⟩
    exact hw.mono (Finset.erase_subset _ _)
  | aclose =>
    refine ⟨h.order, h.numbered, h.below, h.sound, h.gap, h.dropped, fun _ => Event.set_value _, ?_, h.same⟩
    simp [machine, post, Subscription.aclose, Event.set_waiters h.waiting]

theorem inv_of_reach {n : ℕ} {hn : 0 < n} {P : System π → Action π → Prop}
    (h : (machine topic).Reach P (init streams n hn) s) : Inv streams s :=
  h.invariant (inv_init n hn) fun _ a hu _ _ => hu.step a

/-! ### Whole runs -/

/-- Every publication of a selected stream is delivered, lost, discarded or still in the buffer. -/
def Accounted (streams : Finset EventStream) (s : System π) : Prop :=
  ∀ e ∈ selected streams s.trace,
    .delivered e ∈ s.trace ∨ .lost e ∈ s.trace ∨ .discarded e ∈ s.trace ∨ e ∈ s.sub.buffer.items

theorem Accounted.offer (h : Accounted streams s) (hs : s.sub.streams = streams) (e : Numbered π) :
    Accounted streams (s.offer e) := by
  subst hs
  unfold Accounted System.offer Subscription.offer Subscription.evicted
  by_cases he : e.stream ∈ s.sub.streams
  · have hsel : s.sub.buffer.Full → ∃ o rest, s.sub.buffer.items = o :: rest := Deque.Full.exists_cons
    intro a ha
    by_cases hfull : s.sub.buffer.Full
    · obtain ⟨o, rest, ho⟩ := hsel hfull
      simp only [he, hfull, ho, and_self, if_true, not_true_eq_false, if_false, List.head?_cons, Option.toList_some,
        List.map_cons, List.map_nil, selected_concat, Observation.selected?, Option.toList_none, List.append_nil,
        List.mem_append, List.mem_singleton] at ha ⊢
      rw [Deque.append_full hfull ho]
      rcases ha with ha | rfl
      · have := h a ha
        rw [ho] at this
        grind
      · grind
    · simp only [he, hfull, and_false, if_true, not_true_eq_false, if_false, Option.toList_none, List.map_nil,
        List.append_nil, selected_concat, Observation.selected?, Option.toList_some, List.mem_append,
        List.mem_singleton] at ha ⊢
      rw [Deque.append_room hfull]
      rcases ha with ha | rfl
      · have := h a ha
        grind
      · grind
  · intro a ha
    simp only [he, false_and, if_false, not_false_eq_true, if_true, Option.toList_none, List.map_nil, List.append_nil,
      selected_concat, Observation.selected?] at ha ⊢
    have := h a ha
    grind

theorem Accounted.anext (h : Accounted streams s) (t : Task) : Accounted streams (s.anext t) := by
  unfold System.anext Subscription.anext
  by_cases hg : s.sub.gapPending = true
  · simp only [if_pos hg]
    intro a ha
    simp only [selected_concat, Observation.selected?, Option.toList_none, List.append_nil] at ha
    have := h a ha
    grind
  · simp only [if_neg hg]
    cases hb : s.sub.buffer.popleft with
    | some x =>
      obtain ⟨e, rest⟩ := x
      intro a ha
      simp only [selected_concat, Observation.selected?, Option.toList_none, List.append_nil] at ha ⊢
      have := h a ha
      rw [Deque.popleft_some hb] at this
      grind
    | none =>
      by_cases hc : s.sub.closed = true
      · simp only [if_pos hc]
        exact h
      · simp only [if_neg hc]
        exact h

/-- **Nothing else is lost**: an event that is not delivered was evicted or discarded, or it is buffered. -/
theorem accounted {n : ℕ} {hn : 0 < n} (h : (machine topic).Reach Machine.Any (init streams n hn) s) :
    Accounted streams s := by
  refine (h.invariant (I := fun s => Inv streams s ∧ Accounted streams s) ⟨inv_init n hn, ?_⟩
    fun s a hs _ _ => ⟨hs.1.step a, ?_⟩).2
  · simp [Accounted, init, selected]
  · obtain ⟨hi, h⟩ := hs
    cases a with
    | publish serverId event =>
      simp only [machine, post]
      split
      · split_ifs
        · exact h.offer hi.same _
        · exact h
      · exact h
    | discardBuffered x =>
      intro a ha
      have hnone : ((s.sub.buffer.items.filter fun e => e.stream ∈ x).map Observation.discarded).filterMap
          (Observation.selected? streams) = [] := by simp [Observation.selected?]
      simp only [machine, post, selected, List.filterMap_append, hnone, List.append_nil] at ha
      have := h a ha
      simp only [machine, post, Subscription.discardBuffered, Deque.filter_items]
      grind
    | takeDropped =>
      intro a ha
      simp only [machine, post, selected_concat, Observation.selected?, Option.toList_none, List.append_nil] at ha
      have := h a ha
      simp only [machine, post, Subscription.takeDropped]
      grind
    | anext t => exact h.anext t
    | cancel t | aclose => exact h

/-- What one subscription owes its subscriber. -/
structure Delivers (streams : Finset EventStream) (s : System π) : Prop where
  /-- The deliveries are a subsequence of the selected publications, in their order. -/
  order : (delivered s.trace).Sublist (selected streams s.trace)
  /-- After an event that was lost, a marker comes before any later event. -/
  marked : ∀ u v e l, s.trace = u ++ .delivered e :: v → .lost l ∈ s.trace → l.seq < e.seq →
    ∃ u₁ u₂, u = u₁ ++ .lost l :: u₂ ∧ .marker ∈ u₂
  /-- A marker comes only where an event was lost since the one before it. -/
  owed : ∀ u v, s.trace = u ++ .marker :: v → ∃ l, .lost l ∈ since Observation.isMarker u
  /-- `take_dropped` returns the streams that lost an event since the last call. -/
  taken : ∀ u v x, s.trace = u ++ .taken x :: v →
    ∀ stream, stream ∈ x ↔ ∃ l, .lost l ∈ since Observation.isTaken u ∧ l.stream = stream
  /-- No task waits while a marker or an event is there for it. -/
  awake : ∀ t ∈ s.sub.ready.waiters, s.sub.gapPending = false ∧ s.sub.buffer.items = []

/-- **Every interleaving** of publications, discards, reads, cancellations and a close. -/
theorem events_delivered {n : ℕ} {hn : 0 < n} (h : (machine topic).Reach Machine.Any (init streams n hn) s) :
    Delivers streams s := by
  have hi := inv_of_reach h
  refine ⟨(List.sublist_append_left _ _).trans hi.order, fun u v e l he hl hlt => ?_,
    fun u v he => hi.sound u _ v he, fun u v x he => hi.sound u _ v he, fun t ht => ?_⟩
  · by_cases hu : .lost l ∈ u
    · exact hi.sound u _ v he l hu
    · -- a loss after the delivery is of a later event
      rw [he, List.mem_append, List.mem_cons] at hl
      obtain ⟨v₁, v₂, rfl⟩ := List.append_of_mem ((hl.resolve_left hu).resolve_left nofun)
      have hlater : e.seq < l.seq := hi.sound (u ++ .delivered e :: v₁) (.lost l) v₂ (by simp [he]) e (by simp)
      exact absurd hlt (Nat.lt_asymm hlater)
  · have hv := hi.waiting ⟨t, ht⟩
    have hno : ¬(s.sub.gapPending = true ∨ s.sub.buffer.items ≠ []) := fun hc => by
      rw [hi.ready hc] at hv
      cases hv
    simpa [not_or] using hno

end Steps

/-- A line of the log. -/
def line : RealTimeEvent Unit := ⟨.log, (), none, none⟩

/-- Two lines for a buffer of one: the first is lost, and a marker tells. -/
theorem events_delivered_overflow : ∃ s : System Unit,
    (machine (some "s")).Reach Machine.Any (init {.log} 1 Nat.one_pos) s ∧
    s.trace = [.published (line.number 0), .published (line.number 1), .lost (line.number 0), .marker,
      .delivered (line.number 1)] ∧ Delivers {.log} s := by
  have h0 : (machine (some "s")).Reach Machine.Any (init {.log} 1 Nat.one_pos) (init (π := Unit) {.log} 1 Nat.one_pos) :=
    .refl
  have h1 := h0.step (Action.publish "s" line) trivial trivial
  have h2 := h1.step (Action.publish "s" line) trivial trivial
  have h3 := h2.step (Action.anext 0) (Finset.notMem_empty 0) trivial
  have h4 := h3.step (Action.anext 0) (Finset.notMem_empty 0) trivial
  exact ⟨_, h4, rfl, events_delivered h4⟩

end McServerDashboard.Fleet.RealTimeEvents
