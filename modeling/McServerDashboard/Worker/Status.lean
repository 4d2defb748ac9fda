import McServerDashboard.Lib.Run
import Mathlib.Data.Finset.Dedup
import Mathlib.Data.Finset.Insert
import Mathlib.Data.Nat.Notation
import Mathlib.Tactic.SplitIfs

/-!
# The status events of one Worker

The sends of the pumps, of the orphan converger and of the resyncs, the status dispatcher, and the session loop that
takes the events and sends them, over any number of connections.

A send that fails ends the session; what it was sending has left the buffer. A status is delivered when the
transport has taken it.

* `Slots`: a pending status waits in the queue or for the dispatcher, and the dispatcher is awake.
* `Orderly`: what has been delivered of one server's statuses and what is still on its way.
* **`status_converges`**: delivery in order, and of the last status, as long as the resyncs cover what was lost.
* `crash_lost`: the run in which one does not.
* `work_lt`, `exists_internal`: on a stream that stays up the buffers drain.
-/

namespace McServerDashboard.Worker.Status

open Lib

abbrev ServerID := String

inductive InstanceState
  | starting
  | running
  | stopping
  | stopped
  | crashed
  | unknown
  deriving DecidableEq

inductive CrashReason
  | unspecified
  | forgeInstallFailed
  | forgeInstallOutOfMemory
  | forgeInstallJavaIncompatible
  deriving DecidableEq

structure StatusEvent where
  serverID : ServerID
  state : InstanceState
  detail : String
  crashReason : CrashReason
  deriving DecidableEq

/-- A status event with the number of its emission (a ghost). -/
structure Emission where
  seq : ℕ
  event : StatusEvent
  deriving DecidableEq

/-- The stand-in for a status that exceeds the message limit. -/
def Emission.strip (e : Emission) : Emission := { e with event := { e.event with detail := "" } }

/-- The room of the `events` channel. -/
def eventsCap : ℕ := 32

/-- Where `statusDispatcher` stands: at the wake-up, at the head of its loop, before the send, after it. -/
inductive Dispatcher
  | parked
  | scanning
  | sending (serverID : ServerID) (e : Emission)
  | sent (serverID : ServerID)
  deriving DecidableEq

/-- Where `runOnce` stands: before the registration, in `ResyncStatus`, in the loop of `serve`, in a send. -/
inductive Session
  | down
  | resyncing (todo : List StatusEvent)
  | serving
  | holding (e : Emission)
  deriving DecidableEq

structure System where
  events : List Emission
  pendingStatus : ServerID → Option Emission
  coalescing : ServerID → Bool
  dirtyStatus : List ServerID
  statusNotify : Bool
  /-- The sends that have parked their event and have not woken the dispatcher yet. -/
  notifying : ℕ
  dispatcher : Dispatcher
  session : Session
  /-- The maps that a resync reads. -/
  instances : Finset ServerID
  orphans : Finset ServerID
  reserved : Finset ServerID
  bootSwept : List ServerID
  /-- Every status so far, those that a transport took, and those whose send failed (ghosts). -/
  emitted : List Emission
  delivered : List Emission
  lost : List Emission

/-- A new manager; `swept` are the servers whose containers the boot's sweep removed. -/
def init (swept : List ServerID) : System where
  events := []
  pendingStatus := fun _ => none
  coalescing := fun _ => false
  dirtyStatus := []
  statusNotify := false
  notifying := 0
  dispatcher := .parked
  session := .down
  instances := ∅
  orphans := ∅
  reserved := ∅
  bootSwept := swept
  emitted := []
  delivered := []
  lost := []

namespace System

/-- `sendStatus`, up to the wake-up. -/
def sendStatus (s : System) (ev : StatusEvent) : System :=
  let e : Emission := ⟨s.emitted.length, ev⟩
  if s.coalescing ev.serverID then
    { s with
      pendingStatus := Function.update s.pendingStatus ev.serverID (some e)
      emitted := s.emitted ++ [e] }
  else if s.events.length < eventsCap then
    { s with events := s.events ++ [e], emitted := s.emitted ++ [e] }
  else
    { s with
      coalescing := Function.update s.coalescing ev.serverID true
      pendingStatus := Function.update s.pendingStatus ev.serverID (some e)
      dirtyStatus := s.dirtyStatus ++ [ev.serverID]
      notifying := s.notifying + 1
      emitted := s.emitted ++ [e] }

/-- The head of the dispatcher's loop: the next server's pending status is taken, if there is one. -/
def next (s : System) : System := match s.dirtyStatus with
  | [] => { s with dispatcher := .parked }
  | serverID :: rest => { s with
      dirtyStatus := rest
      -- A missing key reads as the zero event.
      dispatcher := .sending serverID ((s.pendingStatus serverID).getD ⟨0, ⟨"", .unknown, "", .unspecified⟩⟩)
      pendingStatus := Function.update s.pendingStatus serverID none }

/-- After the dispatcher's send: the server is requeued if a newer status is pending. -/
def settle (s : System) (serverID : ServerID) : System :=
  if (s.pendingStatus serverID).isSome then
    { s with dirtyStatus := s.dirtyStatus ++ [serverID], dispatcher := .scanning }
  else { s with coalescing := Function.update s.coalescing serverID false, dispatcher := .scanning }

/-- A swept server of which the Worker holds nothing. -/
def sweptOnly (s : System) (serverID : ServerID) : Bool :=
  serverID ∈ s.bootSwept && !(serverID ∈ s.instances || serverID ∈ s.orphans || serverID ∈ s.reserved)

/-- What `ResyncStatus` reads under the lock, with the maps in the order of `instances` and `orphans`. -/
def snaps (s : System) (instances orphans : List ServerID) (status : ServerID → InstanceState) : List StatusEvent :=
  instances.map (fun id => ⟨id, status id, "", .unspecified⟩) ++ orphans.map (⟨·, .unknown, "", .unspecified⟩) ++
    (s.bootSwept.filter s.sweptOnly).map (⟨·, .stopped, "", .unspecified⟩)

/-- The servers that a resync reports. -/
def tracked (s : System) (serverID : ServerID) : Prop :=
  serverID ∈ s.instances ∨ serverID ∈ s.orphans ∨ s.sweptOnly serverID = true

instance (s : System) (serverID : ServerID) : Decidable (s.tracked serverID) :=
  inferInstanceAs (Decidable (_ ∨ _ ∨ _))

end System

inductive Action
  /-- A pump or the converger emits a status; a sender wakes the dispatcher. -/
  | send (ev : StatusEvent)
  | notify
  /-- The manager's maps change. -/
  | maps (instances orphans reserved : Finset ServerID)
  /-- The dispatcher. -/
  | wake
  | next
  | push
  | settle
  /-- The session: a registration and the resync's snapshot, one status of it, the loop of `serve`. -/
  | connect (instances orphans : List ServerID) (status : ServerID → InstanceState)
  | resync
  | serve
  | take
  | deliver (stripped : Bool)
  | fail
  | drop

def pre (s : System) : Action → Prop
  | .send _ | .maps _ _ _ => True
  | .notify => 0 < s.notifying
  | .wake => s.dispatcher = .parked ∧ s.statusNotify = true
  | .next => s.dispatcher = .scanning
  | .push => (match s.dispatcher with | .sending _ _ => True | _ => False) ∧ s.events.length < eventsCap
  | .settle => match s.dispatcher with | .sent _ => True | _ => False
  | .connect instances orphans _ => s.session = .down ∧ instances.Nodup ∧ instances.toFinset = s.instances ∧
      orphans.Nodup ∧ orphans.toFinset = s.orphans
  | .resync => match s.session with | .resyncing (_ :: _) => True | _ => False
  | .serve => s.session = .resyncing []
  | .take => s.session = .serving ∧ s.events ≠ []
  | .deliver _ | .fail => match s.session with | .holding _ => True | _ => False
  | .drop => s.session = .serving

def post (s : System) : Action → System
  | .send ev => s.sendStatus ev
  | .notify => { s with statusNotify := true, notifying := s.notifying - 1 }
  | .maps instances orphans reserved =>
    { s with instances := instances, orphans := orphans, reserved := reserved }
  | .wake => { s with statusNotify := false, dispatcher := .scanning }
  | .next => s.next
  | .push => match s.dispatcher with
    | .sending serverID e => { s with events := s.events ++ [e], dispatcher := .sent serverID }
    | _ => s
  | .settle => match s.dispatcher with
    | .sent serverID => s.settle serverID
    | _ => s
  | .connect instances orphans status =>
    { s with session := .resyncing (s.snaps instances orphans status), bootSwept := [] }
  | .resync => match s.session with
    | .resyncing (ev :: todo) => { s.sendStatus ev with session := .resyncing todo }
    | _ => s
  | .serve => { s with session := .serving }
  | .take => match s.events with
    | e :: rest => { s with events := rest, session := .holding e }
    | [] => s
  | .deliver stripped => match s.session with
    | .holding e => { s with
        delivered := s.delivered ++ [if stripped then e.strip else e], session := .serving }
    | _ => s
  | .fail => match s.session with
    | .holding e => { s with lost := s.lost ++ [e], session := .down }
    | _ => s
  | .drop => { s with session := .down }

def machine : Machine System Action := ⟨pre, post⟩

/-! ## One server's statuses, in order -/

theorem Emission.seq_eq_of_strip {d e : Emission} (h : d.strip = e.strip) : d.seq = e.seq := by
  have hseq := congrArg Emission.seq h
  exact hseq

/-- The statuses of one server. -/
def about (id : ServerID) (l : List Emission) : List Emission := l.filter (·.event.serverID = id)

@[simp] theorem about_nil (id : ServerID) : about id [] = [] := rfl

theorem about_append (id : ServerID) (l l' : List Emission) : about id (l ++ l') = about id l ++ about id l' :=
  List.filter_append ..

theorem about_singleton_self (e : Emission) : about e.event.serverID [e] = [e] := by
  simp [about]

theorem about_singleton_of_ne {id : ServerID} {e : Emission} (h : e.event.serverID ≠ id) : about id [e] = [] := by
  simp [about, h]

/-- `flow` is what has been delivered and what is still on its way of one server's statuses: some of the emitted ones, in
their order, and the last one unless its send failed. -/
structure Orderly (emitted lost flow : List Emission) : Prop where
  sorted : flow.Pairwise (·.seq < ·.seq)
  sent : ∀ d ∈ flow, ∃ e ∈ emitted, d = e ∨ d = e.strip
  last : ∀ e, emitted.getLast? = some e →
    (∃ l ∈ lost, l.seq = e.seq) ∨ ∃ d, flow.getLast? = some d ∧ d.strip = e.strip

namespace Orderly

variable {emitted lost flow u v w : List Emission} {e e' : Emission}

/-- A new status takes the place of those that are pending. -/
theorem supersede (h : Orderly emitted lost (u ++ w)) (hnew : ∀ d ∈ emitted, d.seq < e.seq) :
    Orderly (emitted ++ [e]) lost (u ++ [e]) := by
  refine ⟨?_, ?_, ?_⟩
  · refine List.pairwise_append.mpr ⟨(List.pairwise_append.mp h.sorted).1, List.pairwise_singleton _ _, fun d hd b hb => ?_⟩
    obtain ⟨d', hd', hdd'⟩ := h.sent d (List.mem_append_left _ hd)
    have hseq : d.seq = d'.seq := by rcases hdd' with rfl | rfl <;> rfl
    rw [List.mem_singleton.mp hb, hseq]
    exact hnew d' hd'
  · intro d hd
    rcases List.mem_append.mp hd with hd | hd
    · obtain ⟨d', hd', hdd'⟩ := h.sent d (List.mem_append_left _ hd)
      exact ⟨d', List.mem_append_left _ hd', hdd'⟩
    · exact ⟨e, List.mem_append_right _ (List.mem_singleton_self e), .inl (List.mem_singleton.mp hd)⟩
  · intro l hl
    rw [List.getLast?_concat, Option.some.injEq] at hl
    exact .inr ⟨e, List.getLast?_concat .., by rw [hl]⟩

/-- What a transport has taken may have lost its detail. -/
theorem deliver (h : Orderly emitted lost (u ++ e :: v)) (he : e' = e ∨ e' = e.strip) :
    Orderly emitted lost (u ++ e' :: v) := by
  have hseq : e'.seq = e.seq := by rcases he with rfl | rfl <;> rfl
  have hstrip : e'.strip = e.strip := by rcases he with rfl | rfl <;> rfl
  refine ⟨?_, ?_, ?_⟩
  · have hsorted := h.sorted
    rw [List.pairwise_append, List.pairwise_cons] at hsorted ⊢
    simp only [List.mem_cons, forall_eq_or_imp, hseq] at hsorted ⊢
    exact hsorted
  · intro d hd
    rcases List.mem_append.mp hd with hd | hd
    · exact h.sent d (List.mem_append_left _ hd)
    rcases List.mem_cons.mp hd with rfl | hd
    · obtain ⟨d', hd', hdd'⟩ := h.sent e (List.mem_append_right _ List.mem_cons_self)
      refine ⟨d', hd', ?_⟩
      rcases he with rfl | rfl
      · exact hdd'
      · rcases hdd' with rfl | rfl <;> exact .inr rfl
    · exact h.sent d (List.mem_append_right _ (List.mem_cons_of_mem _ hd))
  · intro l hl
    refine (h.last l hl).imp_right fun ⟨d, hd, hdl⟩ => ?_
    rw [List.getLast?_append] at hd ⊢
    cases v with
    | nil =>
      have hde : d = e := by simpa using hd.symm
      exact ⟨e', rfl, by rw [hstrip, ← hde, hdl]⟩
    | cons x v => exact ⟨d, by simpa using hd, hdl⟩

/-- A send fails. -/
theorem fail (h : Orderly emitted lost (u ++ e :: v)) : Orderly emitted (lost ++ [e]) (u ++ v) := by
  refine ⟨?_, fun d hd => ?_, fun l hl => ?_⟩
  · have hsorted := h.sorted
    rw [List.pairwise_append, List.pairwise_cons] at hsorted
    exact List.pairwise_append.mpr ⟨hsorted.1, hsorted.2.1.2, fun a ha b hb => hsorted.2.2 a ha b (List.mem_cons_of_mem _ hb)⟩
  · refine h.sent d ?_
    rw [List.mem_append, List.mem_cons]
    exact (List.mem_append.mp hd).imp_right .inr
  · rcases h.last l hl with ⟨b, hb, hbl⟩ | ⟨d, hd, hdl⟩
    · exact .inl ⟨b, List.mem_append_left _ hb, hbl⟩
    rw [List.getLast?_append] at hd
    cases v with
    | nil =>
      have hde : d = e := by simpa using hd.symm
      exact .inl ⟨e, List.mem_append_right _ (List.mem_singleton_self e), hde ▸ Emission.seq_eq_of_strip hdl⟩
    | cons x v =>
      refine .inr ⟨d, ?_, hdl⟩
      rw [List.getLast?_append]
      simpa using hd

end Orderly

/-! ## The slots and the dispatcher -/

/-- The dispatcher is at work on this server's status. -/
def Dispatcher.serves : Dispatcher → ServerID → Prop
  | .sending serverID _, id => serverID = id
  | .sent serverID, id => serverID = id
  | _, _ => False

variable {s : System}

/-- A pending status waits in the queue or for the dispatcher, which is awake or has been woken. -/
structure Slots (s : System) : Prop where
  slot : ∀ id e, s.pendingStatus id = some e → e.event.serverID = id
  hand : ∀ id e, s.dispatcher = .sending id e → e.event.serverID = id
  pending : ∀ id, s.pendingStatus id ≠ none → s.coalescing id = true
  busy : ∀ id, s.dispatcher.serves id → s.coalescing id = true
  routed : ∀ id, s.coalescing id = true → id ∈ s.dirtyStatus ∨ s.dispatcher.serves id
  dirty : ∀ id ∈ s.dirtyStatus, s.pendingStatus id ≠ none ∧ ¬ s.dispatcher.serves id
  nodup : s.dirtyStatus.Nodup
  awake : s.dirtyStatus ≠ [] → s.dispatcher ≠ .parked ∨ s.statusNotify = true ∨ 0 < s.notifying

theorem slots_init (swept : List ServerID) : Slots (init swept) := by
  constructor <;> simp [init, Dispatcher.serves]

namespace Slots

theorem sendStatus (h : Slots s) (ev : StatusEvent) : Slots (s.sendStatus ev) := by
  obtain ⟨h1, h2, h3, h4, h5, h6, h7, h8⟩ := h
  unfold System.sendStatus
  dsimp only
  split_ifs <;> constructor <;> simp only [Function.update_apply] at * <;> grind -linarith

theorem next (h : Slots s) (hs : s.dispatcher = .scanning) : Slots s.next := by
  obtain ⟨h1, h2, h3, h4, h5, h6, h7, h8⟩ := h
  unfold System.next
  split
  · constructor <;> grind -linarith [Dispatcher.serves]
  · next id rest hdirty =>
    obtain ⟨e, he⟩ := Option.ne_none_iff_exists'.mp (h6 id (hdirty ▸ List.mem_cons_self)).1
    have hserver := h1 id e he
    constructor <;> simp only [Function.update_apply, he, Option.getD_some] at * <;> grind -linarith [Dispatcher.serves]

theorem settle {id : ServerID} (h : Slots s) (hs : s.dispatcher = .sent id) : Slots (s.settle id) := by
  obtain ⟨h1, h2, h3, h4, h5, h6, h7, h8⟩ := h
  unfold System.settle
  split_ifs <;> constructor <;> simp only [Function.update_apply, Option.isSome_iff_ne_none] at * <;>
    grind -linarith [Dispatcher.serves]

theorem step (h : Slots s) (a : Action) (hpre : pre s a) : Slots (post s a) := by
  cases a with
  | send ev => exact h.sendStatus ev
  | next => exact h.next hpre
  | settle =>
    simp only [post]
    split
    · exact h.settle ‹_›
    · exact h
  | resync =>
    simp only [post]
    split
    · next ev _ _ => exact { h.sendStatus ev with }
    · exact h
  | notify | wake | push =>
    obtain ⟨h1, h2, h3, h4, h5, h6, h7, h8⟩ := h
    simp only [pre, post] at *
    try split
    all_goals constructor <;> grind -linarith [Dispatcher.serves]
  | take | deliver _ | fail =>
    simp only [post]
    split
    · exact { h with }
    · exact h
  | maps _ _ _ | connect _ _ _ | serve | drop => exact { h with }

end Slots

/-! ## The statuses on their way -/

def Session.held : Session → List Emission
  | .holding e => [e]
  | _ => []

def Dispatcher.inHand : Dispatcher → List Emission
  | .sending _ e => [e]
  | _ => []

namespace System

/-- The statuses that no newer one can replace any more, the oldest first. -/
def settled (s : System) : List Emission := s.delivered ++ (s.session.held ++ (s.events ++ s.dispatcher.inHand))

/-- The statuses of one server that have been delivered or are on their way. -/
def flow (s : System) (id : ServerID) : List Emission := about id s.settled ++ (s.pendingStatus id).toList

end System

structure Inv (s : System) : Prop where
  slots : Slots s
  numbered : ∀ e ∈ s.emitted, e.seq < s.emitted.length
  sorted : s.emitted.Pairwise (·.seq < ·.seq)
  lost : ∀ l ∈ s.lost, l.seq < s.emitted.length
  orderly : ∀ id, Orderly (about id s.emitted) (about id s.lost) (s.flow id)

theorem inv_init (swept : List ServerID) : Inv (init swept) := by
  refine ⟨slots_init swept, ?_, ?_, ?_, fun id => ⟨?_, ?_, ?_⟩⟩ <;>
    simp [init, System.flow, System.settled, about, Session.held, Dispatcher.inHand]

/-- A server that does not go through the dispatcher has nothing there. -/
theorem Slots.about_inHand (h : Slots s) {id : ServerID} (hid : s.coalescing id = false) :
    about id s.dispatcher.inHand = [] := by
  cases hd : s.dispatcher with
  | sending serverID e =>
    refine about_singleton_of_ne fun he => ?_
    have hserves : s.dispatcher.serves id := by
      rw [hd, ← he, h.hand serverID e hd]
      exact rfl
    rw [h.busy id hserves] at hid
    cases hid
  | parked | scanning | sent _ => rfl

theorem Slots.pending_none (h : Slots s) {id : ServerID} (hid : s.coalescing id = false) : s.pendingStatus id = none := by
  by_contra hp
  rw [h.pending id hp] at hid
  cases hid

theorem sendStatus_emitted (s : System) (ev : StatusEvent) :
    (s.sendStatus ev).emitted = s.emitted ++ [⟨s.emitted.length, ev⟩] ∧ (s.sendStatus ev).lost = s.lost := by
  unfold System.sendStatus
  dsimp only
  split_ifs <;> exact ⟨rfl, rfl⟩

/-- A send leaves the statuses of the other servers as they are. -/
theorem flow_sendStatus_of_ne (ev : StatusEvent) {id : ServerID} (hid : ev.serverID ≠ id) :
    (s.sendStatus ev).flow id = s.flow id := by
  unfold System.sendStatus
  dsimp only
  split_ifs
  · simp only [System.flow, System.settled, Function.update_of_ne hid.symm]
  · simp only [System.flow, System.settled, about_append]
    rw [about_singleton_of_ne hid, List.append_nil]
  · simp only [System.flow, System.settled, Function.update_of_ne hid.symm]

/-- The status that is sent comes last; what was pending, if anything, is gone. -/
theorem flow_sendStatus (h : Slots s) (ev : StatusEvent) : ∃ u w, s.flow ev.serverID = u ++ w ∧
    (s.sendStatus ev).flow ev.serverID = u ++ [⟨s.emitted.length, ev⟩] := by
  refine ⟨about ev.serverID s.settled, (s.pendingStatus ev.serverID).toList, rfl, ?_⟩
  unfold System.sendStatus
  dsimp only
  split_ifs with hc hroom
  · simp only [System.flow, System.settled, Function.update_self, Option.toList_some]
  · rw [Bool.not_eq_true] at hc
    have hself : about ev.serverID [⟨s.emitted.length, ev⟩] = [⟨s.emitted.length, ev⟩] := about_singleton_self _
    simp only [System.flow, System.settled, about_append, h.pending_none hc, h.about_inHand hc, hself, Option.toList_none,
      List.append_nil, List.append_assoc]
  · simp only [System.flow, System.settled, Function.update_self, Option.toList_some]

namespace Inv

theorem sendStatus (h : Inv s) (ev : StatusEvent) : Inv (s.sendStatus ev) := by
  obtain ⟨hemitted, hlost⟩ := sendStatus_emitted s ev
  refine ⟨h.slots.sendStatus ev, ?_, ?_, ?_, fun id => ?_⟩
  · intro e he
    rw [hemitted, List.mem_append, List.mem_singleton] at he
    rw [hemitted, List.length_append, List.length_singleton]
    rcases he with he | rfl
    · exact (h.numbered e he).trans (Nat.lt_succ_self _)
    · exact Nat.lt_succ_self _
  · rw [hemitted]
    refine List.pairwise_append.mpr ⟨h.sorted, List.pairwise_singleton _ _, fun e he b hb => ?_⟩
    rw [List.mem_singleton.mp hb]
    exact h.numbered e he
  · intro l hl
    rw [hemitted, List.length_append, List.length_singleton]
    exact (h.lost l (hlost ▸ hl)).trans (Nat.lt_succ_self _)
  · rw [hemitted, hlost, about_append]
    by_cases hid : ev.serverID = id
    · subst hid
      obtain ⟨u, w, hflow, hflow'⟩ := flow_sendStatus h.slots ev
      have hself : about ev.serverID [⟨s.emitted.length, ev⟩] = [⟨s.emitted.length, ev⟩] := about_singleton_self _
      rw [hflow', hself]
      exact (hflow ▸ h.orderly ev.serverID).supersede fun d hd => h.numbered d (List.mem_of_mem_filter hd)
    · rw [about_singleton_of_ne hid, List.append_nil, flow_sendStatus_of_ne ev hid]
      exact h.orderly id

/-- A step that emits nothing and takes no status off its way. -/
theorem of_flow_eq {t : System} (h : Inv s) (hslots : Slots t) (hemitted : t.emitted = s.emitted) (hlost : t.lost = s.lost)
    (hflow : ∀ id, t.flow id = s.flow id) : Inv t := by
  refine ⟨hslots, hemitted ▸ h.numbered, hemitted ▸ h.sorted, hemitted ▸ hlost ▸ h.lost, fun id => ?_⟩
  rw [hemitted, hlost, hflow]
  exact h.orderly id

theorem next (h : Inv s) (hs : s.dispatcher = .scanning) : Inv s.next := by
  have hslots := h.slots.next hs
  unfold System.next at hslots ⊢
  split at hslots
  · refine h.of_flow_eq hslots rfl rfl fun id => ?_
    simp only [System.flow, System.settled, hs, Dispatcher.inHand]
  · next id rest hdirty =>
    obtain ⟨e, he⟩ := Option.ne_none_iff_exists'.mp (h.slots.dirty id (hdirty ▸ List.mem_cons_self)).1
    have hserver := h.slots.slot id e he
    refine h.of_flow_eq hslots rfl rfl fun id' => ?_
    simp only [System.flow, System.settled, hs, he, Option.getD_some, Dispatcher.inHand, about_append]
    by_cases hid : id' = id
    · subst hid
      have hself : about id' [e] = [e] := hserver ▸ about_singleton_self e
      simp only [hself, he, about_nil, Function.update_self, Option.toList_some, Option.toList_none, List.append_nil,
        List.append_assoc]
    · rw [Function.update_of_ne hid, about_singleton_of_ne fun h => hid (h.symm.trans hserver)]
      rfl

theorem settle {id : ServerID} (h : Inv s) (hs : s.dispatcher = .sent id) : Inv (s.settle id) := by
  have hslots := h.slots.settle hs
  unfold System.settle at hslots ⊢
  split_ifs at hslots ⊢ <;> refine h.of_flow_eq hslots rfl rfl fun id => ?_ <;>
    simp only [System.flow, System.settled, hs, Dispatcher.inHand]

theorem flow_holding {e : Emission} (hs : s.session = .holding e) (id : ServerID) : s.flow id =
    about id s.delivered ++ (about id [e] ++ (about id (s.events ++ s.dispatcher.inHand) ++ (s.pendingStatus id).toList)) := by
  simp only [System.flow, System.settled, hs, Session.held, about_append, List.append_assoc]

theorem deliver {e e' : Emission} (h : Inv s) (hs : s.session = .holding e) (he : e' = e ∨ e' = e.strip) :
    Inv { s with delivered := s.delivered ++ [e'], session := .serving } := by
  refine ⟨{ h.slots with }, h.numbered, h.sorted, h.lost, fun id => ?_⟩
  have horderly := h.orderly id
  have hserver : e'.event.serverID = e.event.serverID := by rcases he with rfl | rfl <;> rfl
  rw [flow_holding hs] at horderly
  simp only [System.flow, System.settled, Session.held, about_append, List.append_assoc, List.nil_append] at horderly ⊢
  by_cases hid : e.event.serverID = id
  · subst hid
    rw [about_singleton_self] at horderly
    rw [← hserver, about_singleton_self, hserver]
    exact horderly.deliver he
  · rw [about_singleton_of_ne hid] at horderly
    rw [about_singleton_of_ne (hserver ▸ hid)]
    exact horderly

theorem fail {e : Emission} (h : Inv s) (hs : s.session = .holding e) :
    Inv { s with lost := s.lost ++ [e], session := .down } := by
  have hseq : e.seq < s.emitted.length := by
    have he : e ∈ s.flow e.event.serverID := by
      rw [flow_holding hs, about_singleton_self]
      simp
    obtain ⟨d, hd, hed⟩ := (h.orderly e.event.serverID).sent e he
    have hseq : e.seq = d.seq := by rcases hed with rfl | rfl <;> rfl
    exact hseq ▸ h.numbered d (List.mem_of_mem_filter hd)
  refine ⟨{ h.slots with }, h.numbered, h.sorted, ?_, fun id => ?_⟩
  · intro l hl
    rcases List.mem_append.mp hl with hl | hl
    · exact h.lost l hl
    · rwa [List.mem_singleton.mp hl]
  have horderly := h.orderly id
  rw [flow_holding hs] at horderly
  simp only [System.flow, System.settled, Session.held, about_append, List.append_assoc, List.nil_append] at horderly ⊢
  by_cases hid : e.event.serverID = id
  · subst hid
    rw [about_singleton_self] at horderly ⊢
    exact horderly.fail
  · rw [about_singleton_of_ne hid] at horderly ⊢
    rw [List.append_nil]
    exact horderly

theorem step (h : Inv s) (a : Action) (hpre : pre s a) : Inv (post s a) := by
  have hslots := h.slots.step a hpre
  cases a with
  | send ev => exact h.sendStatus ev
  | next => exact h.next hpre
  | settle =>
    simp only [post]
    split
    · exact h.settle ‹_›
    · exact h
  | push =>
    simp only [post] at hslots ⊢
    split at hslots
    · refine h.of_flow_eq hslots rfl rfl fun id => ?_
      simp only [System.flow, System.settled, Dispatcher.inHand, *, List.append_nil]
    · exact h
  | wake =>
    refine h.of_flow_eq hslots rfl rfl fun id => ?_
    simp only [post, System.flow, System.settled, hpre.1, Dispatcher.inHand]
  | resync =>
    simp only [pre, post] at hpre ⊢
    split
    · next ev todo hs =>
      refine (h.sendStatus ev).of_flow_eq { (h.slots.sendStatus ev) with } rfl rfl fun id => ?_
      have hsession : (s.sendStatus ev).session = .resyncing (ev :: todo) := by
        unfold System.sendStatus
        dsimp only
        split_ifs <;> exact hs
      simp only [System.flow, System.settled, hsession, Session.held]
    · exact h
  | take =>
    simp only [post] at hslots ⊢
    split at hslots
    · next hevents =>
      refine h.of_flow_eq hslots rfl rfl fun id => ?_
      simp only [System.flow, System.settled, hpre.1, hevents, Session.held, List.nil_append, List.cons_append]
    · exact h
  | deliver stripped =>
    simp only [post]
    split
    · refine h.deliver ‹_› ?_
      split_ifs
      · exact .inr rfl
      · exact .inl rfl
    · exact h
  | fail =>
    simp only [post]
    split
    · exact h.fail ‹_›
    · exact h
  | connect _ _ _ | serve | drop =>
    refine h.of_flow_eq hslots rfl rfl fun id => ?_
    simp_all only [pre, post, System.flow, System.settled, Session.held]
  | notify | maps _ _ _ => exact h.of_flow_eq hslots rfl rfl fun id => rfl

end Inv

theorem inv_of_reach {P : System → Action → Prop} {swept : List ServerID} (h : machine.Reach P (init swept) s) : Inv s :=
  h.invariant (inv_init swept) fun _ a hu hpre _ => hu.step a hpre

/-! ## Delivery -/

/-- The stream is up, and what was buffered has been sent. -/
def System.Drained (s : System) : Prop :=
  s.session = .serving ∧ s.events = [] ∧ s.dispatcher = .parked ∧ s.statusNotify = false ∧ s.notifying = 0

instance (s : System) : Decidable s.Drained := inferInstanceAs (Decidable (_ ∧ _ ∧ _ ∧ _ ∧ _))

/-- The statuses of a server are delivered in the order of their emission, whole or without their detail. -/
def System.InOrder (s : System) (id : ServerID) : Prop :=
  (about id s.delivered).Pairwise (·.seq < ·.seq) ∧
    ∀ d ∈ about id s.delivered, ∃ e ∈ about id s.emitted, d = e ∨ d = e.strip

/-- The last status that is delivered is the last one emitted; what is skipped has been superseded by one that is
delivered. -/
def System.Converged (s : System) (id : ServerID) : Prop :=
  (about id s.delivered).getLast?.map Emission.strip = (about id s.emitted).getLast?.map Emission.strip ∧
    ∀ e ∈ about id s.emitted, ∃ d ∈ about id s.delivered, e.seq ≤ d.seq

/-- A resync reports every server whose last status was lost with a stream. -/
def ResyncCovers (s : System) : Action → Prop
  | .connect _ _ _ => ∀ l ∈ s.lost, (about l.event.serverID s.emitted).getLast?.map Emission.seq = some l.seq →
      s.tracked l.event.serverID
  | _ => True

instance (s : System) (a : Action) : Decidable (ResyncCovers s a) :=
  match a with
  | .connect _ _ _ => inferInstanceAs (Decidable (∀ l ∈ s.lost, _ → _))
  | .send _ | .notify | .maps _ _ _ | .wake | .next | .push | .settle | .resync | .serve | .take | .deliver _ | .fail
  | .drop => inferInstanceAs (Decidable True)

/-- The last status of the server was lost in a failed send. -/
def System.Owed (s : System) (id : ServerID) : Prop :=
  ∃ l ∈ about id s.lost, (about id s.emitted).getLast?.map Emission.seq = some l.seq

/-- While a stream is up, no status is owed but those that its resync is still to send. -/
def Covered (s : System) : Prop := match s.session with
  | .down => True
  | .resyncing todo => ∀ id, s.Owed id → ∃ ev ∈ todo, ev.serverID = id
  | .serving | .holding _ => ∀ id, ¬ s.Owed id

theorem not_owed_sendStatus (h : Inv s) (ev : StatusEvent) : ¬ (s.sendStatus ev).Owed ev.serverID := by
  rintro ⟨l, hl, hlast⟩
  obtain ⟨hemitted, hlost⟩ := sendStatus_emitted s ev
  have hself : about ev.serverID [⟨s.emitted.length, ev⟩] = [⟨s.emitted.length, ev⟩] := about_singleton_self _
  rw [hemitted, about_append, hself, List.getLast?_concat, Option.map_some, Option.some.injEq] at hlast
  have hlt := h.lost l (List.mem_of_mem_filter (hlost ▸ hl))
  exact absurd hlast hlt.ne'

theorem owed_of_sendStatus (h : Inv s) (ev : StatusEvent) {id : ServerID} (ho : (s.sendStatus ev).Owed id) :
    ev.serverID ≠ id ∧ s.Owed id := by
  have hne : ev.serverID ≠ id := by
    rintro rfl
    exact not_owed_sendStatus h ev ho
  obtain ⟨hemitted, hlost⟩ := sendStatus_emitted s ev
  refine ⟨hne, ?_⟩
  rwa [System.Owed, hemitted, hlost, about_append, about_singleton_of_ne hne, List.append_nil] at ho

/-- The snapshot of a resync has every server that it reports. -/
theorem mem_snaps {instances orphans : List ServerID} {status : ServerID → InstanceState} {id : ServerID}
    (hi : instances.toFinset = s.instances) (ho : orphans.toFinset = s.orphans) (h : s.tracked id) :
    ∃ ev ∈ s.snaps instances orphans status, ev.serverID = id := by
  simp only [System.snaps, List.mem_append, List.mem_map, List.mem_filter]
  rcases h with h | h | h
  · rw [← hi, List.mem_toFinset] at h
    exact ⟨_, .inl (.inl ⟨id, h, rfl⟩), rfl⟩
  · rw [← ho, List.mem_toFinset] at h
    exact ⟨_, .inl (.inr ⟨id, h, rfl⟩), rfl⟩
  · have hswept : id ∈ s.bootSwept := by
      simp only [System.sweptOnly, Bool.and_eq_true, decide_eq_true_eq] at h
      exact h.1
    exact ⟨_, .inr ⟨id, ⟨hswept, h⟩, rfl⟩, rfl⟩

theorem Covered.sendStatus (h : Covered s) (hinv : Inv s) (ev : StatusEvent) : Covered (s.sendStatus ev) := by
  have hsession : (s.sendStatus ev).session = s.session := by
    unfold System.sendStatus
    dsimp only
    split_ifs <;> rfl
  unfold Covered at h ⊢
  rw [hsession]
  split
  · trivial
  · next hs =>
    rw [hs] at h
    exact fun id ho => h id (owed_of_sendStatus hinv ev ho).2
  · next hs =>
    rw [hs] at h
    exact fun id ho => h id (owed_of_sendStatus hinv ev ho).2
  · next hs =>
    rw [hs] at h
    exact fun id ho => h id (owed_of_sendStatus hinv ev ho).2

theorem Covered.step (h : Covered s) (hinv : Inv s) (a : Action) (hpre : pre s a) (hP : ResyncCovers s a) :
    Covered (post s a) := by
  cases a with
  | send ev => exact h.sendStatus hinv ev
  | connect instances orphans status =>
    obtain ⟨-, -, hi, -, ho⟩ := hpre
    intro id hid
    obtain ⟨l, hl, hlast⟩ := hid
    have hserver : l.event.serverID = id := by simpa using (List.mem_filter.mp hl).2
    subst hserver
    exact mem_snaps hi ho (hP l (List.mem_of_mem_filter hl) hlast)
  | resync =>
    simp only [post]
    split
    · next ev todo hs =>
      simp only [Covered, hs] at h
      intro id ho
      obtain ⟨hne, ho⟩ := owed_of_sendStatus hinv ev ho
      obtain ⟨ev', hev', hid⟩ := h id ho
      rcases List.mem_cons.mp hev' with rfl | hev'
      · exact absurd hid hne
      · exact ⟨ev', hev', hid⟩
    · exact h
  | serve =>
    simp only [pre] at hpre
    simp only [Covered, hpre] at h
    intro id ho
    obtain ⟨ev, hev, -⟩ := h id ho
    cases hev
  | take =>
    simp only [post]
    split
    · simp only [Covered, hpre.1] at h
      exact h
    · exact h
  | deliver stripped =>
    simp only [post]
    split
    · next hs =>
      simp only [Covered, hs] at h
      exact h
    · exact h
  | fail =>
    simp only [post]
    split
    · exact trivial
    · exact h
  | drop => exact trivial
  | next =>
    simp only [post, System.next]
    split <;> exact h
  | settle =>
    simp only [post, System.settle]
    split
    · split_ifs <;> exact h
    · exact h
  | push =>
    simp only [post]
    split <;> exact h
  | notify | maps _ _ _ | wake => exact h

theorem covered_of_reach {swept : List ServerID} (h : machine.Reach ResyncCovers (init swept) s) : Covered s :=
  (h.along fun _ hu => inv_of_reach hu).invariant (I := Covered) trivial fun _ a hu hpre hP => hu.step hP.2 a hpre hP.1

/-- Of a list in order, nothing has a higher number than the last. -/
theorem seq_le_of_getLast? {l : List Emission} {e b : Emission} (hl : l.Pairwise (·.seq < ·.seq))
    (hb : l.getLast? = some b) (he : e ∈ l) : e.seq ≤ b.seq := by
  obtain ⟨u, rfl⟩ := List.getLast?_eq_some_iff.mp hb
  rcases List.mem_append.mp he with he | he
  · exact ((List.pairwise_append.mp hl).2.2 e he b (List.mem_singleton_self b)).le
  · rw [List.mem_singleton.mp he]

theorem Inv.inOrder (h : Inv s) (id : ServerID) : s.InOrder id := by
  obtain ⟨hsorted, hsent, -⟩ := h.orderly id
  rw [System.flow, System.settled, about_append, List.append_assoc] at hsorted hsent
  exact ⟨(List.pairwise_append.mp hsorted).1, fun d hd => hsent d (List.mem_append_left _ hd)⟩

/-- Nothing is pending once the dispatcher rests. -/
theorem flow_of_drained (h : Inv s) (hd : s.Drained) (id : ServerID) : s.flow id = about id s.delivered := by
  obtain ⟨hsession, hevents, hparked, htoken, hnotifying⟩ := hd
  have hdirty : s.dirtyStatus = [] := by
    by_contra hne
    rcases h.slots.awake hne with hnot | hnot | hnot
    · exact hnot hparked
    · rw [htoken] at hnot
      cases hnot
    · omega
  have hrouted : s.coalescing id = false := by
    rw [← Bool.not_eq_true]
    intro hc
    rcases h.slots.routed id hc with hmem | hserves
    · rw [hdirty] at hmem
      cases hmem
    · rw [hparked] at hserves
      exact hserves
  simp only [System.flow, System.settled, hsession, hevents, hparked, h.slots.pending_none hrouted, Session.held,
    Dispatcher.inHand, Option.toList_none, List.append_nil]

theorem Inv.converged (h : Inv s) (hd : s.Drained) {id : ServerID} (hid : ¬ s.Owed id) : s.Converged id := by
  have horderly := h.orderly id
  rw [flow_of_drained h hd] at horderly
  cases hlast : (about id s.emitted).getLast? with
  | none =>
    rw [List.getLast?_eq_none_iff] at hlast
    have hnone : about id s.delivered = [] := by
      refine List.eq_nil_iff_forall_not_mem.mpr fun d hmem => ?_
      obtain ⟨e, he, -⟩ := horderly.sent d hmem
      rw [hlast] at he
      cases he
    refine ⟨by rw [hlast, hnone], fun e he => ?_⟩
    rw [hlast] at he
    cases he
  | some b =>
    rcases horderly.last b hlast with ⟨l, hl, hlb⟩ | ⟨d, hdlast, hdb⟩
    · exact absurd ⟨l, hl, by rw [hlast, hlb]; rfl⟩ hid
    refine ⟨by rw [hlast, hdlast, Option.map_some, Option.map_some, hdb], fun e he => ⟨d, List.mem_of_getLast? hdlast, ?_⟩⟩
    rw [Emission.seq_eq_of_strip hdb]
    exact seq_le_of_getLast? (h.sorted.sublist List.filter_sublist) hlast he

/-- **The statuses of every server are delivered in order, and in the end its last one is**, in every run in which the
resyncs cover what was lost with a stream. -/
theorem status_converges {swept : List ServerID} (h : machine.Reach ResyncCovers (init swept) s) (id : ServerID) :
    s.InOrder id ∧ (s.Drained → s.Converged id) := by
  have hinv := inv_of_reach h
  refine ⟨hinv.inOrder id, fun hd => hinv.converged hd ?_⟩
  have hcovered := covered_of_reach h
  simp only [Covered, hd.1] at hcovered
  exact hcovered id

/-- A stream that fails with the running status of `a` in a send, and one that stays up. -/
theorem status_converges_resent : ∃ s, machine.Reach ResyncCovers (init []) s ∧ s.Drained ∧ s.lost.length = 1 ∧
    s.Converged "a" := by
  obtain ⟨s, hs, hd, hlost⟩ : ∃ s, machine.Reach ResyncCovers (init []) s ∧ s.Drained ∧ s.lost.length = 1 := by
    refine ⟨_, (((((((((((Machine.Reach.refl.step (.maps {"a"} ∅ ∅) ?_ ?_).step (.connect ["a"] [] fun _ => .running) ?_
      ?_).step .resync ?_ ?_).step .serve ?_ ?_).step .take ?_ ?_).step .fail ?_ ?_).step
      (.connect ["a"] [] fun _ => .running) ?_ ?_).step .resync ?_ ?_).step .serve ?_ ?_).step .take ?_ ?_).step
      (.deliver false) ?_ ?_), ?_⟩
    all_goals simp [machine, pre, post, init, ResyncCovers, System.snaps, System.sendStatus, System.tracked,
      System.Drained, eventsCap, about]
  exact ⟨s, hs, hd, hlost, (status_converges hs "a").2 hd⟩

/-- The server of `a` crashes and is forgotten, and the stream fails with the crash in a send: the next stream drains,
and still the last that is known of `a` is that it runs. -/
theorem crash_lost : ∃ s, machine.Reach Machine.Any (init []) s ∧ s.Drained ∧ ¬ s.Converged "a" ∧
    (about "a" s.delivered).map (·.event.state) = [.running] ∧ (about "a" s.emitted).map (·.event.state) = [.running, .crashed] := by
  refine ⟨_, ((((((((((((Machine.Reach.refl.step (.maps {"a"} ∅ ∅) ?_ trivial).step (.connect ["a"] [] fun _ => .running)
    ?_ trivial).step .resync ?_ trivial).step .serve ?_ trivial).step .take ?_ trivial).step (.deliver false) ?_
    trivial).step (.maps ∅ ∅ ∅) ?_ trivial).step (.send ⟨"a", .crashed, "", .unspecified⟩) ?_ trivial).step .take ?_
    trivial).step .fail ?_ trivial).step (.connect [] [] fun _ => .running) ?_ trivial).step .serve ?_ trivial), ?_⟩
  all_goals simp [machine, pre, post, init, System.snaps, System.sendStatus, System.Drained, System.Converged, eventsCap,
    about, Emission.strip]

/-! ## The buffers drain -/

/-- The steps that need neither a new status nor the end of a stream. -/
def Internal : Action → Prop
  | .notify | .wake | .next | .push | .settle | .take | .deliver _ => True
  | _ => False

/-- A status that the dispatcher has still to requeue. -/
def System.requeues (s : System) : ℕ := match s.dispatcher with
  | .sending serverID _ | .sent serverID => if (s.pendingStatus serverID).isSome then 1 else 0
  | _ => 0

def Dispatcher.stage : Dispatcher → ℕ
  | .parked => 0
  | .scanning => 1
  | .sent _ => 2
  | .sending _ _ => 5

/-- A bound on the internal steps to come. -/
def System.work (s : System) : ℕ :=
  8 * (s.dirtyStatus.length + s.requeues) + 2 * s.events.length + s.session.held.length + s.dispatcher.stage +
    2 * s.statusNotify.toNat + 3 * s.notifying

/-- Every internal step comes nearer to the end. -/
theorem work_lt {a : Action} (ha : Internal a) (hpre : pre s a) : (post s a).work < s.work := by
  have htoken : s.statusNotify.toNat ≤ 1 := Bool.toNat_le _
  cases a with
  | notify =>
    have hrequeues : System.requeues (post s .notify) = s.requeues := rfl
    simp only [pre] at hpre
    simp only [System.work, hrequeues]
    simp only [post, Bool.toNat_true]
    omega
  | wake =>
    simp only [post, System.work, System.requeues, hpre.1, hpre.2, Dispatcher.stage, Bool.toNat_true, Bool.toNat_false]
    omega
  | next =>
    simp only [pre] at hpre
    simp only [post, System.next]
    split
    · next hdirty => simp [System.work, System.requeues, hpre, hdirty, Dispatcher.stage]
    · next hdirty =>
      simp only [System.work, System.requeues, hpre, hdirty, Dispatcher.stage, Function.update_self, List.length_cons,
        Option.isSome_none, Bool.false_eq_true, if_false]
      omega
  | push =>
    simp only [post]
    split
    · next hs =>
      simp only [System.work, System.requeues, hs, Dispatcher.stage, List.length_append, List.length_singleton]
      omega
    · next hno =>
      have hsending := hpre.1
      split at hsending
      · next id e hs => exact absurd hs (hno id e)
      · exact hsending.elim
  | settle =>
    simp only [post]
    split
    · next id hs =>
      unfold System.settle
      split_ifs with hp <;>
        simp only [System.work, System.requeues, hs, hp, Dispatcher.stage, List.length_append, List.length_singleton,
          Bool.false_eq_true, if_true, if_false] <;> omega
    · simp only [pre] at hpre
  | take =>
    simp only [post]
    split
    · next hevents =>
      simp only [System.work, System.requeues, hpre.1, hevents, Session.held, List.length_cons, List.length_nil]
      omega
    · next hevents => exact absurd hevents hpre.2
  | deliver stripped =>
    simp only [post]
    split
    · next hs =>
      simp only [System.work, System.requeues, hs, Session.held, List.length_cons, List.length_nil]
      omega
    · simp only [pre] at hpre
  | send _ | maps _ _ _ | connect _ _ _ | resync | serve | fail | drop => exact ha.elim

/-- As long as a stream is up and not everything has been sent, there is an internal step to take. -/
theorem exists_internal (hup : s.session = .serving ∨ ∃ e, s.session = .holding e) (hd : ¬ s.Drained) :
    ∃ a, Internal a ∧ pre s a := by
  rcases hup with hs | ⟨e, hs⟩
  swap
  · exact ⟨.deliver false, trivial, by simp [pre, hs]⟩
  by_cases hevents : s.events = []
  swap
  · exact ⟨.take, trivial, hs, hevents⟩
  by_cases hnotifying : 0 < s.notifying
  · exact ⟨.notify, trivial, hnotifying⟩
  cases hdispatcher : s.dispatcher with
  | scanning => exact ⟨.next, trivial, hdispatcher⟩
  | sending id e => exact ⟨.push, trivial, by simp [pre, hdispatcher, hevents, eventsCap]⟩
  | sent id => exact ⟨.settle, trivial, by simp [pre, hdispatcher]⟩
  | parked =>
    refine ⟨.wake, trivial, hdispatcher, ?_⟩
    by_contra htoken
    exact hd ⟨hs, hevents, hdispatcher, by simpa using htoken, by omega⟩

end McServerDashboard.Worker.Status
