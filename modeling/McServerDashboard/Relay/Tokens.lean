import Mathlib.Data.Set.Card
import McServerDashboard.Lib.Threads

/-!
# Tunnel tokens

The rendezvous between the player connections that wait for a tunnel and the Workers' dial-backs: each
`awaitTunnel`, each `Deliver` and each `sweepExpired` is a thread over the table, its lock and the channels. A thread
runs one of them. The channel of a waiter has the number of the thread that registered it, a dial-back the number of
the thread that delivers it.

* `Stage`: what has become of a waiter's channel (a ghost).
* `Inv`, `Ok`: the table and the channels by stage, and what each thread knows.
* **`tokens_meet`**: every interleaving in which no token is registered twice.
-/

namespace McServerDashboard.Relay.Tokens

open Lib

/-- A dial-back, by the thread that passes it to `Deliver`. -/
abbrev Conn := ℕ

/-- A channel of capacity 1. -/
structure Chan where
  buf : List Conn
  closed : Bool

namespace Chan

def Ready (c : Chan) : Prop := c.buf ≠ [] ∨ c.closed = true

/-- What a receive gets; a closed channel gives `nil`. -/
def received (c : Chan) : Option Conn := c.buf.head?

def rest (c : Chan) : Chan := { c with buf := c.buf.tail }

end Chan

structure Waiter where
  ch : ℕ
  expires : ℕ

/-- What has become of the channel of a waiter. -/
inductive Stage
  /-- Nothing is registered. -/
  | unused
  /-- The token is in the table. -/
  | listed
  /-- The thread has consumed the token, and has yet to send its connection. -/
  | promised (d : Conn)
  | sent (d : Conn)
  /-- The waiter has the connection. -/
  | taken (d : Conn)
  /-- The waiter has removed the token. -/
  | cancelled
  /-- The sweep has removed the token. -/
  | swept
  deriving DecidableEq

variable {Token : Type*} [DecidableEq Token]

/-- The `TokenTable` and the channels. -/
structure Table (Token : Type*) where
  waiters : Token → Option Waiter
  chan : ℕ → Chan
  /-- Who holds `mu`. -/
  mu : Option ℕ
  now : ℕ
  /-- A thread has sent on a closed channel, or closed one twice. -/
  panicked : Bool
  /-- The token that a thread has registered (a ghost). -/
  token : ℕ → Option Token
  stage : ℕ → Stage

inductive Pc (Token : Type*)
  | idle
  /-- `awaitTunnel` waits for its channel, the timer or the context. -/
  | waiting (token : Token)
  /-- It has received, and calls `Cancel`. -/
  | woken (token : Token) (tconn : Option Conn)
  /-- It gives up, and calls `Cancel`. -/
  | givingUp (token : Token)
  /-- `Cancel` has found the token gone. -/
  | draining (token : Token)
  | returned (token : Token) (tconn : Option Conn)
  /-- It has returned nothing; a connection it drained is closed. -/
  | gaveUp (token : Token) (tconn : Option Conn)
  /-- `Deliver` has consumed the token. -/
  | sending (token : Token) (ch : ℕ)
  | delivered (token : Token)
  /-- `Deliver` has returned false, and its caller closes the connection. -/
  | undelivered
  /-- `sweepExpired` has read the clock. -/
  | toSweep (now : ℕ)
  | sweeping (now : ℕ)
  | swept

inductive Action (Token : Type*)
  | tick (n : ℕ)
  | register (token : Token)
  | receive
  /-- The timer fires, or the context is done. -/
  | giveUp
  | cancel
  | drain
  | deliver (token : Token)
  | send
  | sweep
  | lock
  | expire (token : Token)
  | unlock

def init : Table Token where
  waiters _ := none
  chan _ := ⟨[], false⟩
  mu := none
  now := 0
  panicked := false
  token _ := none
  stage _ := .unused

namespace Table

variable (s : Table Token)

/-- `Register`. -/
def register (ttl t : ℕ) (token : Token) : Table Token :=
  { s with
    waiters := Function.update s.waiters token (some ⟨t, s.now + ttl⟩)
    token := Function.update s.token t (some token)
    stage := Function.update s.stage t .listed }

/-- A receive on the channel of thread `t`. -/
def receive (t : ℕ) : Table Token :=
  { s with
    chan := Function.update s.chan t (s.chan t).rest
    stage := match (s.chan t).received with
      | some d => Function.update s.stage t (.taken d)
      | none => s.stage }

/-- `Cancel`, without what it returns. -/
def cancel (token : Token) : Table Token :=
  match s.waiters token with
  | some w =>
    { s with waiters := Function.update s.waiters token none, stage := Function.update s.stage w.ch .cancelled }
  | none => s

/-- `Deliver` consumes the token. -/
def consume (d : Conn) (token : Token) (w : Waiter) : Table Token :=
  { s with waiters := Function.update s.waiters token none, stage := Function.update s.stage w.ch (.promised d) }

/-- `w.ch <- conn`. -/
def send (d : Conn) (ch : ℕ) : Table Token :=
  if (s.chan ch).closed then { s with panicked := true }
  else
    { s with
      chan := Function.update s.chan ch { s.chan ch with buf := (s.chan ch).buf ++ [d] }
      stage := Function.update s.stage ch (.sent d) }

/-- `sweepExpired` closes the channel of one waiter, and deletes it. -/
def expire (token : Token) (w : Waiter) : Table Token :=
  { s with
    waiters := Function.update s.waiters token none
    chan := Function.update s.chan w.ch { s.chan w.ch with closed := true }
    panicked := s.panicked || (s.chan w.ch).closed
    stage := Function.update s.stage w.ch .swept }

end Table

/-- A step takes the lock only where it is free; a send waits for room, a receive for something to receive. -/
def pre (t : ℕ) (s : Table Token) : Pc Token → Action Token → Prop
  | .idle, .tick _ => True
  -- A token is registered once.
  | .idle, .register token => s.mu = none ∧ ∀ u, s.token u ≠ some token
  | .waiting _, .receive => (s.chan t).Ready
  | .waiting _, .giveUp => True
  | .woken _ _, .cancel => s.mu = none
  | .givingUp _, .cancel => s.mu = none
  | .draining _, .drain => (s.chan t).Ready
  | .idle, .deliver _ => s.mu = none
  | .sending _ ch, .send => (s.chan ch).closed = true ∨ (s.chan ch).buf = []
  | .idle, .sweep => True
  | .toSweep _, .lock => s.mu = none
  | .sweeping now, .expire token => ∃ w, s.waiters token = some w ∧ w.expires ≤ now
  | .sweeping now, .unlock => ∀ token w, s.waiters token = some w → now < w.expires
  | _, _ => False

def post (ttl t : ℕ) (s : Table Token) : Pc Token → Action Token → Table Token × Pc Token
  | .idle, .tick n => ({ s with now := s.now + n }, .idle)
  | .idle, .register token => (s.register ttl t token, .waiting token)
  | .waiting token, .receive => (s.receive t, .woken token (s.chan t).received)
  | .waiting token, .giveUp => (s, .givingUp token)
  | .woken token tconn, .cancel => (s.cancel token, .returned token tconn)
  | .givingUp token, .cancel =>
    (s.cancel token, if (s.waiters token).isSome then .gaveUp token none else .draining token)
  | .draining token, .drain => (s.receive t, .gaveUp token (s.chan t).received)
  | .idle, .deliver token =>
    match s.waiters token with
    | some w => if s.now < w.expires then (s.consume t token w, .sending token w.ch) else (s, .undelivered)
    | none => (s, .undelivered)
  | .sending token ch, .send => (s.send t ch, .delivered token)
  | .idle, .sweep => (s, .toSweep s.now)
  | .toSweep now, .lock => ({ s with mu := some t }, .sweeping now)
  | .sweeping now, .expire token =>
    match s.waiters token with
    | some w => (s.expire token w, .sweeping now)
    | none => (s, .sweeping now)
  | .sweeping _, .unlock => ({ s with mu := none }, .swept)
  | p, _ => (s, p)

def threads (ttl : ℕ) : Threads (Table Token) (Pc Token) (Action Token) := ⟨pre, post ttl⟩

/-- All threads, before any has begun. -/
def start : Threads.Config (Table Token) (Pc Token) := ⟨init, fun _ => .idle⟩

/-! ## What the threads know -/

/-- The channel of a waiter. -/
def Stage.chan : Stage → Chan
  | .sent d => ⟨[d], false⟩
  | .swept => ⟨[], true⟩
  | _ => ⟨[], false⟩

/-- The waiter has not received yet. -/
def Stage.Pending : Stage → Prop
  | .listed | .promised _ | .sent _ | .swept => True
  | _ => False

structure Inv (s : Table Token) : Prop where
  entry : ∀ token w, s.waiters token = some w → s.stage w.ch = .listed ∧ s.token w.ch = some token
  listed : ∀ u token, s.stage u = .listed → s.token u = some token → (s.waiters token).map (·.ch) = some u
  chan : ∀ u, s.chan u = (s.stage u).chan
  unused : ∀ u, s.stage u = .unused ↔ s.token u = none
  inj : ∀ u v token, s.token u = some token → s.token v = some token → u = v
  fine : s.panicked = false

/-- What a thread knows of its own channel. -/
def Pc.Waits (s : Table Token) (t : ℕ) : Pc Token → Prop
  | .waiting token | .givingUp token => s.token t = some token ∧ (s.stage t).Pending
  | .draining token => s.token t = some token ∧ (s.stage t).Pending ∧ s.stage t ≠ .listed
  | .woken token tconn | .returned token tconn =>
    s.token t = some token ∧ s.stage t = tconn.elim .swept .taken
  | .gaveUp token (some d) => s.token t = some token ∧ s.stage t = .taken d
  | .gaveUp token none => s.token t = some token ∧ (s.stage t = .swept ∨ s.stage t = .cancelled)
  | _ => s.stage t = .unused

/-- What a `Deliver` knows of the channel it sends to. -/
def Pc.Gives (s : Table Token) (t : ℕ) : Pc Token → Prop
  | .sending token ch => s.token ch = some token ∧ s.stage ch = .promised t
  | .delivered token => ∃ ch, s.token ch = some token ∧ (s.stage ch = .sent t ∨ s.stage ch = .taken t)
  | _ => True

structure Ok (s : Table Token) (t : ℕ) (p : Pc Token) : Prop where
  mu : s.mu = some t ↔ ∃ now, p = .sweeping now
  waits : p.Waits s t
  gives : p.Gives s t
  promised : ∀ ch, s.stage ch = .promised t → ∃ token, p = .sending token ch
  given : ∀ ch, s.stage ch = .sent t ∨ s.stage ch = .taken t →
    ∃ token, p = .delivered token ∧ s.token ch = some token

/-- What a step of thread `t` may do to the channel of thread `v`. -/
inductive Stage.Step (t v : ℕ) : Stage → Stage → Prop
  | same (x : Stage) : Step t v x x
  | register : v = t → Step t v .unused .listed
  | consume : Step t v .listed (.promised t)
  | send : Step t v (.promised t) (.sent t)
  | receive (d : Conn) : v = t → Step t v (.sent d) (.taken d)
  | cancel : v = t → Step t v .listed .cancelled
  | expire : Step t v .listed .swept

/-- What a step of thread `t` leaves to the others. -/
structure Leaves (s s' : Table Token) (t : ℕ) : Prop where
  mu : ∀ u, u ≠ t → (s'.mu = some u ↔ s.mu = some u)
  token : ∀ v token, s.token v = some token → s'.token v = some token
  stage : ∀ v, Stage.Step t v (s.stage v) (s'.stage v)

/-- The thread holds no lock, and has given nothing. -/
structure Free (s : Table Token) (t : ℕ) : Prop where
  mu : s.mu ≠ some t
  promised : ∀ ch, s.stage ch ≠ .promised t
  sent : ∀ ch, s.stage ch ≠ .sent t
  taken : ∀ ch, s.stage ch ≠ .taken t

/-- The thread neither delivers nor sweeps. -/
def Pc.Plain : Pc Token → Prop
  | .sending _ _ | .delivered _ | .sweeping _ => False
  | _ => True

/-- What one step of `t` must keep. -/
structure Steps (s : Table Token) (t : ℕ) (r : Table Token × Pc Token) : Prop where
  inv : Inv r.1
  own : Ok r.1 t r.2
  leaves : Leaves s r.1 t

variable {s s' : Table Token} {t u ttl : ℕ} {p q : Pc Token} {token : Token} {w : Waiter} {tconn : Option Conn}

section Others

omit [DecidableEq Token]

theorem Leaves.waits (h : Leaves s s' t) (hu : u ≠ t) (hq : q.Waits s u) : q.Waits s' u := by
  have hstage := h.stage u
  have htoken := h.token u
  cases q with
  | gaveUp token tconn =>
    cases tconn <;> simp only [Pc.Waits] at hq ⊢ <;> generalize s'.stage u = y at hstage ⊢ <;>
      generalize s.stage u = x at hstage hq <;> cases hstage <;> grind
  | woken token tconn | returned token tconn =>
    cases tconn <;> simp only [Pc.Waits, Option.elim] at hq ⊢ <;> generalize s'.stage u = y at hstage ⊢ <;>
      generalize s.stage u = x at hstage hq <;> cases hstage <;> grind
  | _ =>
    simp only [Pc.Waits] at hq ⊢
    generalize s'.stage u = y at hstage ⊢
    generalize s.stage u = x at hstage hq
    cases hstage <;> grind [Stage.Pending]

theorem Leaves.others (h : Leaves s s' t) (hu : u ≠ t) (hq : Ok s u q) : Ok s' u q := by
  refine ⟨(h.mu u hu).trans hq.mu, h.waits hu hq.waits, ?_, fun ch hch => ?_, fun ch hch => ?_⟩
  · have hgives := hq.gives
    cases q with
    | sending token ch =>
      obtain ⟨htoken, hs⟩ := hgives
      have hstage := h.stage ch
      rw [hs] at hstage
      refine ⟨h.token ch token htoken, ?_⟩
      generalize s'.stage ch = y at hstage ⊢
      cases hstage <;> grind
    | delivered token =>
      obtain ⟨ch, htoken, hs⟩ := hgives
      have hstage := h.stage ch
      refine ⟨ch, h.token ch token htoken, ?_⟩
      generalize s'.stage ch = y at hstage ⊢
      generalize s.stage ch = x at hstage hs
      cases hstage <;> grind
    | _ => trivial
  · have hstage := h.stage ch
    rw [hch] at hstage
    refine hq.promised ch ?_
    generalize s.stage ch = x at hstage ⊢
    cases hstage <;> grind
  · have hstage := h.stage ch
    obtain ⟨token, rfl, htoken⟩ : ∃ token, q = .delivered token ∧ s.token ch = some token := by
      refine hq.given ch ?_
      generalize s.stage ch = x at hstage ⊢
      generalize s'.stage ch = y at hstage hch
      cases hstage <;> grind
    exact ⟨token, rfl, h.token ch token htoken⟩

theorem inv_init : Inv (init : Table Token) := by
  constructor <;> simp [init, Stage.chan]

theorem ok_start : Ok (init : Table Token) t .idle := by
  constructor <;> simp [init, Pc.Waits, Pc.Gives]

theorem Leaves.refl : Leaves s s t := ⟨fun _ _ => .rfl, fun _ _ h => h, fun _ => .same _⟩

/-- Only the channel of `v` has changed. -/
theorem Leaves.one {v : ℕ} (hmu : s'.mu = s.mu)
    (htoken : ∀ x token, s.token x = some token → s'.token x = some token)
    (hother : ∀ x, x ≠ v → s'.stage x = s.stage x) (hv : Stage.Step t v (s.stage v) (s'.stage v)) :
    Leaves s s' t := by
  refine ⟨fun u _ => by rw [hmu], htoken, fun x => ?_⟩
  by_cases hx : x = v
  · exact hx ▸ hv
  · rw [hother x hx]
    exact .same _

theorem Ok.split (h : Ok s t p) (hp : p.Plain) : Free s t ∧ p.Waits s t := by
  refine ⟨⟨fun hmu => ?_, fun ch hch => ?_, fun ch hch => ?_, fun ch hch => ?_⟩, h.waits⟩
  · obtain ⟨now, rfl⟩ := h.mu.mp hmu
    exact hp
  · obtain ⟨token, rfl⟩ := h.promised ch hch
    exact hp
  · obtain ⟨token, rfl, -⟩ := h.given ch (.inl hch)
    exact hp
  · obtain ⟨token, rfl, -⟩ := h.given ch (.inr hch)
    exact hp

theorem Free.ok (hf : Free s t) (hw : p.Waits s t) (hp : p.Plain) : Ok s t p := by
  refine ⟨⟨fun h => absurd h hf.mu, ?_⟩, hw, ?_, fun ch hch => absurd hch (hf.promised ch), fun ch hch => ?_⟩
  · rintro ⟨now, rfl⟩
    exact absurd hp id
  · cases p <;> first | exact absurd hp id | trivial
  · exact absurd hch (not_or.mpr ⟨hf.sent ch, hf.taken ch⟩)

/-- The thread goes on, and the table stays. -/
theorem Steps.stay (hi : Inv s) (h : Ok s t q) : Steps s t (s, q) := ⟨hi, h, .refl⟩

end Others

/-! ### One step -/

theorem steps_register (hi : Inv s) (hok : Ok s t .idle) (hnew : ∀ u, s.token u ≠ some token) :
    Steps s t (s.register ttl t token, .waiting token) := by
  have hunused : s.stage t = .unused := hok.waits
  have htoken := (hi.unused t).mp hunused
  refine ⟨?_, ?_, .one rfl ?_ (fun x hx => Function.update_of_ne hx _ _) ?_⟩
  · obtain ⟨h1, h2, h3, h4, h5, h6⟩ := hi
    constructor <;> simp only [Table.register, Function.update_apply] <;> grind [Stage.chan]
  · obtain ⟨⟨k1, k2, k3, k4⟩, -⟩ := hok.split trivial
    refine Free.ok ⟨k1, ?_, ?_, ?_⟩ ?_ trivial <;>
      simp only [Table.register, Pc.Waits, Function.update_apply] <;> grind [Stage.Pending]
  · intro x y hx
    simp only [Table.register, Function.update_apply]
    grind
  · simp only [Table.register, Function.update_self, hunused]
    exact .register rfl

omit [DecidableEq Token] in
/-- What a waiter receives: the connection that was sent, or `nil` of a closed channel. -/
theorem received_cases (hi : Inv s) (hready : (s.chan t).Ready) :
    (∃ d, s.stage t = .sent d ∧ (s.chan t).received = some d ∧
        s.receive t = { s with
          chan := Function.update s.chan t ⟨[], false⟩, stage := Function.update s.stage t (.taken d) }) ∨
      s.stage t = .swept ∧ (s.chan t).received = none ∧ s.receive t = s := by
  have hchan := hi.chan t
  cases hs : s.stage t with
  | sent d =>
    rw [hs, Stage.chan] at hchan
    refine .inl ⟨d, rfl, by rw [hchan]; rfl, ?_⟩
    rw [Table.receive, hchan]
    rfl
  | swept =>
    rw [hs, Stage.chan] at hchan
    refine .inr ⟨rfl, by rw [hchan]; rfl, ?_⟩
    have hsame : Function.update s.chan t (s.chan t).rest = s.chan := by
      rw [Function.update_eq_self_iff, hchan]
      rfl
    rw [Table.receive, hsame, hchan]
    rfl
  | unused | listed | promised | taken | cancelled =>
    rw [hs] at hchan
    rw [hchan] at hready
    exact absurd hready (by simp [Chan.Ready, Stage.chan])

omit [DecidableEq Token] in
/-- The waiter receives, and goes on knowing what it has received. -/
theorem steps_receive (hi : Inv s) (hok : Ok s t p) (hready : (s.chan t).Ready) (hp : p.Plain) (hq : q.Plain)
    (hsent : ∀ (s' : Table Token) d, (s.chan t).received = some d → s'.token = s.token → s'.stage t = .taken d →
      q.Waits s' t)
    (hswept : (s.chan t).received = none → s.stage t = .swept → q.Waits s t) : Steps s t (s.receive t, q) := by
  have hfree := (hok.split hp).1
  rcases received_cases hi hready with ⟨d, hs, hr, he⟩ | ⟨hs, hr, he⟩
  · have hd : d ≠ t := fun h => hfree.sent t (h ▸ hs)
    rw [he]
    refine ⟨?_, Free.ok ⟨hfree.mu, ?_, ?_, ?_⟩ (hsent _ d hr rfl (Function.update_self _ _ _)) hq,
      .one rfl (fun _ _ h => h) (fun x hx => Function.update_of_ne hx _ _) ?_⟩
    · obtain ⟨h1, h2, h3, h4, h5, h6⟩ := hi
      constructor <;> simp only [Function.update_apply] <;> grind [Stage.chan]
    · simp only [Function.update_apply]
      grind [hfree.promised]
    · simp only [Function.update_apply]
      grind [hfree.sent]
    · simp only [Function.update_apply]
      grind [hfree.taken]
    · simp only [Function.update_self, hs]
      exact .receive d rfl
  · rw [he]
    exact .stay hi (hfree.ok (hswept hr hs) hq)

/-- `Cancel` removes the token of the thread, or finds it gone. -/
theorem cancel_cases (hi : Inv s) (htoken : s.token t = some token) :
    (∃ w, s.waiters token = some w ∧ s.stage t = .listed ∧ s.cancel token = { s with
        waiters := Function.update s.waiters token none, stage := Function.update s.stage t .cancelled }) ∨
      s.waiters token = none ∧ s.stage t ≠ .listed ∧ s.cancel token = s := by
  unfold Table.cancel
  cases hw : s.waiters token with
  | some w =>
    obtain ⟨hs, ht⟩ := hi.entry token w hw
    obtain rfl := hi.inj _ _ _ ht htoken
    exact .inl ⟨w, rfl, hs, rfl⟩
  | none =>
    refine .inr ⟨rfl, fun hs => ?_, rfl⟩
    have := hi.listed t token hs htoken
    rw [hw] at this
    cases this

theorem steps_woken (hi : Inv s) (hok : Ok s t (.woken token tconn)) :
    Steps s t (s.cancel token, .returned token tconn) := by
  obtain ⟨hfree, htoken, hs⟩ := hok.split trivial
  rcases cancel_cases hi htoken with ⟨w, -, hl, -⟩ | ⟨-, -, he⟩
  · rw [hl] at hs
    cases tconn <;> cases hs
  · rw [he]
    exact .stay hi (hfree.ok ⟨htoken, hs⟩ trivial)

theorem steps_givingUp (hi : Inv s) (hok : Ok s t (.givingUp token)) :
    Steps s t (s.cancel token, if (s.waiters token).isSome then .gaveUp token none else .draining token) := by
  obtain ⟨hfree, htoken, hs⟩ := hok.split trivial
  rcases cancel_cases hi htoken with ⟨w, hw, hl, he⟩ | ⟨hw, hl, he⟩
  · rw [he, hw]
    refine ⟨?_, Free.ok ⟨hfree.mu, ?_, ?_, ?_⟩ ⟨htoken, .inr (Function.update_self _ _ _)⟩ trivial,
      .one rfl (fun _ _ h => h) (fun x hx => Function.update_of_ne hx _ _) ?_⟩
    · obtain ⟨h1, h2, h3, h4, h5, h6⟩ := hi
      constructor <;> simp only [Function.update_apply] <;> grind [Stage.chan]
    · simp only [Function.update_apply]
      grind [hfree.promised]
    · simp only [Function.update_apply]
      grind [hfree.sent]
    · simp only [Function.update_apply]
      grind [hfree.taken]
    · simp only [Function.update_self, hl]
      exact .cancel rfl
  · rw [he, hw]
    exact .stay hi (hfree.ok ⟨htoken, hs, hl⟩ trivial)

/-- `Deliver` consumes a token that is in the table. -/
theorem steps_consume (hi : Inv s) (hok : Ok s t .idle) (hw : s.waiters token = some w) :
    Steps s t (s.consume t token w, .sending token w.ch) := by
  obtain ⟨hs, ht⟩ := hi.entry token w hw
  obtain ⟨hfree, hunused⟩ := hok.split trivial
  simp only [Pc.Waits] at hunused
  have hne : w.ch ≠ t := fun h => by
    rw [h, hunused] at hs
    cases hs
  refine ⟨?_, ⟨⟨fun h => absurd h hfree.mu, by rintro ⟨now, h⟩; cases h⟩, ?_,
      ⟨ht, Function.update_self _ _ _⟩, ?_, ?_⟩,
    .one rfl (fun _ _ h => h) (fun x hx => Function.update_of_ne hx _ _) ?_⟩
  · obtain ⟨h1, h2, h3, h4, h5, h6⟩ := hi
    constructor <;> simp only [Table.consume, Function.update_apply] <;> grind [Stage.chan]
  · simp only [Pc.Waits, Table.consume, Function.update_of_ne hne.symm, hunused]
  · intro ch hch
    simp only [Table.consume, Function.update_apply] at hch
    split_ifs at hch with h
    · exact ⟨token, by rw [h]⟩
    · exact absurd hch (hfree.promised ch)
  · intro ch hch
    simp only [Table.consume, Function.update_apply] at hch
    grind [hfree.sent, hfree.taken]
  · simp only [Table.consume, Function.update_self, hs]
    exact .consume

omit [DecidableEq Token] in
/-- The send neither blocks nor panics. -/
theorem chan_of_sending {ch : ℕ} (hi : Inv s) (hok : Ok s t (.sending token ch)) : s.chan ch = ⟨[], false⟩ := by
  rw [hi.chan, hok.gives.2]
  rfl

omit [DecidableEq Token] in
theorem steps_send {ch : ℕ} (hi : Inv s) (hok : Ok s t (.sending token ch)) :
    Steps s t (s.send t ch, .delivered token) := by
  have hchan := chan_of_sending hi hok
  obtain ⟨ht, hs⟩ := hok.gives
  have hunused : s.stage t = .unused := hok.waits
  have hne : ch ≠ t := fun h => by
    rw [h, hunused] at hs
    cases hs
  have he : s.send t ch = { s with
      chan := Function.update s.chan ch ⟨[t], false⟩, stage := Function.update s.stage ch (.sent t) } := by
    rw [Table.send, hchan]
    rfl
  rw [he]
  refine ⟨?_, ⟨⟨fun h => ?_, by rintro ⟨now, h⟩; cases h⟩, ?_,
      ⟨ch, ht, .inl (Function.update_self _ _ _)⟩, ?_, ?_⟩,
    .one rfl (fun _ _ h => h) (fun x hx => Function.update_of_ne hx _ _) ?_⟩
  · obtain ⟨h1, h2, h3, h4, h5, h6⟩ := hi
    constructor <;> simp only [Function.update_apply] <;> grind [Stage.chan]
  · obtain ⟨now, h⟩ := hok.mu.mp h
    cases h
  · simp only [Pc.Waits, Function.update_of_ne hne.symm, hunused]
  · intro x hx
    simp only [Function.update_apply] at hx
    grind [hok.promised]
  · intro x hx
    simp only [Function.update_apply] at hx
    grind [hok.given]
  · simp only [Function.update_self, hs]
    exact .send

theorem steps_expire {now : ℕ} (hi : Inv s) (hok : Ok s t (.sweeping now)) (hw : s.waiters token = some w) :
    Steps s t (s.expire token w, .sweeping now) := by
  obtain ⟨hs, ht⟩ := hi.entry token w hw
  have hchan : s.chan w.ch = ⟨[], false⟩ := by rw [hi.chan, hs]; rfl
  have hunused : s.stage t = .unused := hok.waits
  have hne : w.ch ≠ t := fun h => by
    rw [h, hunused] at hs
    cases hs
  refine ⟨?_, ⟨hok.mu, ?_, trivial, ?_, ?_⟩,
    .one rfl (fun _ _ h => h) (fun x hx => Function.update_of_ne hx _ _) ?_⟩
  · obtain ⟨h1, h2, h3, h4, h5, h6⟩ := hi
    constructor <;> simp only [Table.expire, hchan, Function.update_apply] <;> grind [Stage.chan]
  · simp only [Pc.Waits, Table.expire, Function.update_of_ne hne.symm, hunused]
  · intro x hx
    simp only [Table.expire, Function.update_apply] at hx
    grind [hok.promised]
  · intro x hx
    simp only [Table.expire, Function.update_apply] at hx
    grind [hok.given]
  · simp only [Table.expire, Function.update_self, hs]
    exact .expire

omit [DecidableEq Token] in
theorem steps_lock {now : ℕ} (hi : Inv s) (hok : Ok s t (.toSweep now)) (hmu : s.mu = none) :
    Steps s t ({ s with mu := some t }, .sweeping now) := by
  obtain ⟨hfree, hw⟩ := hok.split trivial
  refine ⟨⟨hi.entry, hi.listed, hi.chan, hi.unused, hi.inj, hi.fine⟩, ⟨by simp, hw, trivial, ?_, ?_⟩,
    ⟨fun u hu => ?_, fun _ _ h => h, fun _ => .same _⟩⟩
  · exact fun ch hch => absurd hch (hfree.promised ch)
  · exact fun ch hch => absurd hch (not_or.mpr ⟨hfree.sent ch, hfree.taken ch⟩)
  · rw [hmu]
    simpa using hu.symm

omit [DecidableEq Token] in
theorem steps_unlock {now : ℕ} (hi : Inv s) (hok : Ok s t (.sweeping now)) :
    Steps s t ({ s with mu := none }, .swept) := by
  refine ⟨⟨hi.entry, hi.listed, hi.chan, hi.unused, hi.inj, hi.fine⟩,
    Free.ok ⟨by simp, fun ch hch => ?_, ?_, ?_⟩ hok.waits trivial, ⟨fun u hu => ?_, fun _ _ h => h, fun _ => .same _⟩⟩
  · obtain ⟨token, h⟩ := hok.promised ch hch
    cases h
  · intro ch hch
    obtain ⟨token, h, -⟩ := hok.given ch (.inl hch)
    cases h
  · intro ch hch
    obtain ⟨token, h, -⟩ := hok.given ch (.inr hch)
    cases h
  · rw [hok.mu.mpr ⟨now, rfl⟩]
    simpa using hu.symm

omit [DecidableEq Token] in
theorem steps_tick {n : ℕ} (hi : Inv s) (hok : Ok s t .idle) : Steps s t ({ s with now := s.now + n }, .idle) :=
  ⟨⟨hi.entry, hi.listed, hi.chan, hi.unused, hi.inj, hi.fine⟩,
    ⟨hok.mu, hok.waits, hok.gives, hok.promised, hok.given⟩,
    ⟨fun _ _ => .rfl, fun _ _ h => h, fun _ => .same _⟩⟩

omit [DecidableEq Token] in
/-- A thread that gives nothing and holds no lock goes on knowing what it knew. -/
theorem steps_plain (hi : Inv s) (hok : Ok s t p) (hp : p.Plain) (hq : q.Plain) (h : p.Waits s t → q.Waits s t) :
    Steps s t (s, q) :=
  .stay hi ((hok.split hp).1.ok (h hok.waits) hq)

theorem steps (ttl : ℕ) {a : Action Token} (hi : Inv s) (hok : Ok s t p) (h : pre t s p a) : Steps s t (post ttl t s p a) := by
  cases p <;> cases a <;> first | exact absurd h id | skip
  case idle.tick => exact steps_tick hi hok
  case idle.register => exact steps_register hi hok h.2
  case idle.deliver token =>
    simp only [post]
    split
    · next w hw =>
      split_ifs
      · exact steps_consume hi hok hw
      · exact steps_plain hi hok trivial trivial id
    · exact steps_plain hi hok trivial trivial id
  case idle.sweep => exact steps_plain hi hok trivial trivial id
  case waiting.receive token =>
    refine steps_receive hi hok h trivial trivial (fun s' d hr ht hs => ?_) (fun hr hs => ?_)
    · rw [hr]
      exact ⟨by rw [ht]; exact hok.waits.1, hs⟩
    · rw [hr]
      exact ⟨hok.waits.1, hs⟩
  case waiting.giveUp => exact steps_plain hi hok trivial trivial id
  case woken.cancel => exact steps_woken hi hok
  case givingUp.cancel => exact steps_givingUp hi hok
  case draining.drain token =>
    refine steps_receive hi hok h trivial trivial (fun s' d hr ht hs => ?_) (fun hr hs => ?_)
    · rw [hr]
      exact ⟨by rw [ht]; exact hok.waits.1, hs⟩
    · rw [hr]
      exact ⟨hok.waits.1, .inl hs⟩
  case sending.send => exact steps_send hi hok
  case toSweep.lock => exact steps_lock hi hok h
  case sweeping.expire token =>
    obtain ⟨w, hw, -⟩ := h
    simp only [post, hw]
    exact steps_expire hi hok hw
  case sweeping.unlock => exact steps_unlock hi hok

/-! ### Every interleaving -/

variable {c d : Threads.Config (Table Token) (Pc Token)}
  {P : Threads.Config (Table Token) (Pc Token) → ℕ × Action Token → Prop}

theorem holds_of_reach (h : Threads.Holds Inv Ok c) (hr : (threads ttl).machine.Reach P c d) :
    Threads.Holds Inv Ok d := by
  refine Threads.invariant hr h fun e t a he ha _ => ?_
  have hs := steps ttl he.shared (he.thread t) ha
  exact ⟨hs.inv, hs.own, fun u hu hq => hs.leaves.others hu hq⟩

omit [DecidableEq Token] in
theorem holds_start : Threads.Holds Inv Ok (start : Threads.Config (Table Token) (Pc Token)) :=
  ⟨inv_init, fun _ => ok_start⟩

theorem finite_post {a : Action Token} (h : {x | s.waiters x ≠ none}.Finite) :
    {x | (post ttl t s p a).1.waiters x ≠ none}.Finite := by
  have herase : ∀ token, {x | Function.update s.waiters token none x ≠ none}.Finite := fun token => by
    refine h.subset fun x hx => ?_
    by_cases hxt : x = token
    · exact absurd (by rw [hxt, Function.update_self]) hx
    · simpa only [Set.mem_ofPred_eq, Function.update_of_ne hxt] using hx
  have hcancel : ∀ token, {x | (s.cancel token).waiters x ≠ none}.Finite := fun token => by
    unfold Table.cancel
    split
    · exact herase token
    · exact h
  cases p <;> cases a <;> try exact h
  case idle.register token =>
    refine (h.insert token).subset fun x hx => ?_
    by_cases hxt : x = token
    · exact .inl hxt
    · exact .inr (by simpa only [post, Table.register, Set.mem_ofPred_eq, Function.update_of_ne hxt] using hx)
  case idle.deliver token =>
    simp only [post]
    split
    · split_ifs
      · exact herase token
      · exact h
    · exact h
  case woken.cancel | givingUp.cancel => exact hcancel _
  case sending.send =>
    simp only [post, Table.send]
    split_ifs <;> exact h
  case sweeping.expire token =>
    simp only [post]
    split
    · exact herase token
    · exact h

theorem finite_of_reach (hr : (threads ttl).machine.Reach P c d) (h : {x | c.shared.waiters x ≠ none}.Finite) :
    {x | d.shared.waiters x ≠ none}.Finite :=
  hr.invariant (I := fun e => {x | e.shared.waiters x ≠ none}.Finite) h fun _ _ he _ _ => finite_post he

/-! ## Nothing blocks -/

/-- The operation of the thread has returned. -/
def Pc.Done : Pc Token → Prop
  | .returned _ _ | .gaveUp _ _ | .delivered _ | .undelivered | .swept => True
  | _ => False

/-- Only threads that have begun take a step. -/
def Begun (c : Threads.Config (Table Token) (Pc Token)) (x : ℕ × Action Token) : Prop := c.th x.1 ≠ .idle

theorem pre_iff {a : Action Token} : (threads ttl).machine.pre c (t, a) ↔ pre t c.shared (c.th t) a := .rfl

/-- A thread that sweeps finishes by itself, and gives the lock back. -/
theorem sweep_finishes (ttl : ℕ) {now : ℕ} (hfin : {x | c.shared.waiters x ≠ none}.Finite) (h : c.th u = .sweeping now) :
    ∃ d, (threads ttl).machine.Reach Begun c d ∧ d.shared.mu = none ∧ d.th u = .swept ∧
      ∀ v, v ≠ u → d.th v = c.th v := by
  induction hn : {x | c.shared.waiters x ≠ none}.ncard using Nat.strong_induction_on generalizing c with
  | _ n ih =>
  by_cases hexp : ∃ token w, c.shared.waiters token = some w ∧ w.expires ≤ now
  · obtain ⟨token, w, hw, hle⟩ := hexp
    have hstep : (threads ttl).machine.Reach Begun c ((threads ttl).step c u (.expire token)) :=
      Machine.Reach.refl.step (u, Action.expire token) (by rw [pre_iff, h]; exact ⟨w, hw, hle⟩) (by simp [Begun, h])
    have hth : ((threads ttl).step c u (.expire token)).th u = .sweeping now := by simp [threads, h, post, hw]
    have hwaiters : ((threads ttl).step c u (.expire token)).shared.waiters =
        Function.update c.shared.waiters token none := by
      simp [threads, h, post, hw, Table.expire]
    have hlt : {x | ((threads ttl).step c u (.expire token)).shared.waiters x ≠ none}.ncard < n := by
      rw [← hn]
      refine Set.ncard_lt_ncard ?_ hfin
      rw [hwaiters, Set.ssubset_iff_of_subset fun x hx => ?_]
      · exact ⟨token, by simp [hw], by simp⟩
      · by_cases hx' : x = token
        · exact absurd (by rw [hx', Function.update_self]) hx
        · simpa [Function.update_of_ne hx'] using hx
    obtain ⟨d, hr, hmu, hd, hv⟩ := ih _ hlt (finite_of_reach hstep hfin) hth rfl
    exact ⟨d, hstep.trans hr, hmu, hd, fun v hne => (hv v hne).trans (Threads.step_ne hne)⟩
  · have hnone : ∀ token w, c.shared.waiters token = some w → now < w.expires := by
      intro token w hw
      by_contra hle
      exact hexp ⟨token, w, hw, Nat.le_of_not_lt hle⟩
    refine ⟨(threads ttl).step c u .unlock, Machine.Reach.refl.step (u, Action.unlock)
      (by rw [pre_iff, h]; exact hnone) (by simp [Begun, h]), ?_, ?_, fun v hv => Threads.step_ne hv⟩
    · simp [threads, h, post]
    · simp [threads, h, post]

/-- A thread that is no sweep gets the lock free. -/
theorem lock_free (ttl : ℕ) (hc : Threads.Holds Inv Ok c) (hfin : {x | c.shared.waiters x ≠ none}.Finite)
    (ht : ∀ now, c.th t ≠ .sweeping now) :
    ∃ d, (threads ttl).machine.Reach Begun c d ∧ d.shared.mu = none ∧ d.th t = c.th t := by
  cases hmu : c.shared.mu with
  | none => exact ⟨c, .refl, hmu, rfl⟩
  | some u =>
    obtain ⟨now, hu⟩ := (hc.thread u).mu.mp hmu
    obtain ⟨d, hr, hd, -, hv⟩ := sweep_finishes ttl hfin hu
    exact ⟨d, hr, hd, hv t fun h => ht now (h ▸ hu)⟩

/-- One step of a thread that has begun. -/
theorem reach_step (ttl : ℕ) {a : Action Token} {q : Pc Token} (h : c.th t = q) (hq : q ≠ .idle) (hpre : pre t c.shared q a) :
    (threads ttl).machine.Reach Begun c ((threads ttl).step c t a) ∧
      ((threads ttl).step c t a).th t = (post ttl t c.shared q a).2 := by
  subst h
  exact ⟨Machine.Reach.refl.step (t, a) hpre hq, Threads.step_self⟩

/-- A connection that is promised gets sent. -/
theorem ready_of_pending (ttl : ℕ) (hc : Threads.Holds Inv Ok c) (hs : (c.shared.stage t).Pending)
    (hl : c.shared.stage t ≠ .listed) (ht : c.th t = .draining token) :
    ∃ d, (threads ttl).machine.Reach Begun c d ∧ (d.shared.chan t).Ready ∧ d.th t = c.th t := by
  have hchan := hc.shared.chan t
  cases hst : c.shared.stage t with
  | unused | taken | cancelled => simp [hst, Stage.Pending] at hs
  | listed => exact absurd hst hl
  | sent d => exact ⟨c, .refl, .inl (by simp [hchan, hst, Stage.chan]), rfl⟩
  | swept => exact ⟨c, .refl, .inr (by simp [hchan, hst, Stage.chan]), rfl⟩
  | promised u =>
    obtain ⟨token', hu⟩ := (hc.thread u).promised t hst
    have hempty := chan_of_sending hc.shared (hu ▸ hc.thread u)
    obtain ⟨hr, -⟩ := reach_step ttl (a := .send) hu (by simp) (.inr (by rw [hempty]))
    have hne : t ≠ u := fun h => by
      rw [← h, ht] at hu
      cases hu
    refine ⟨_, hr, .inl ?_, Threads.step_ne hne⟩
    simp [threads, hu, post, Table.send, hempty]

/-- **No operation blocks forever**: from every state the threads that have begun can take a thread to its end. -/
theorem finishes (hc : Threads.Holds Inv Ok c) (hfin : {x | c.shared.waiters x ≠ none}.Finite)
    (hbegun : c.th t ≠ .idle) :
    ∃ d, (threads ttl).machine.Reach Begun c d ∧ (d.th t).Done := by
  have hdrain : ∀ {e token}, (threads ttl).machine.Reach Begun c e → e.th t = .draining token →
      ∃ d, (threads ttl).machine.Reach Begun c d ∧ (d.th t).Done := fun {e token} hr he => by
    have hw := ((holds_of_reach hc hr).thread t).waits
    rw [he] at hw
    obtain ⟨e', hr', hready, he'⟩ := ready_of_pending ttl (holds_of_reach hc hr) hw.2.1 hw.2.2 he
    obtain ⟨hr'', hth⟩ := reach_step ttl (a := .drain) (he'.trans he) (by simp) hready
    exact ⟨_, (hr.trans hr').trans hr'', by rw [hth]; trivial⟩
  have hgive : ∀ {e token}, (threads ttl).machine.Reach Begun c e → e.th t = .givingUp token →
      ∃ d, (threads ttl).machine.Reach Begun c d ∧ (d.th t).Done := fun {e token} hr he => by
    obtain ⟨e', hr', hmu, he'⟩ := lock_free ttl (t := t) (holds_of_reach hc hr) (finite_of_reach hr hfin)
      fun now h => by rw [he] at h; cases h
    obtain ⟨hr'', hth⟩ := reach_step ttl (a := .cancel) (he'.trans he) (by simp) hmu
    have hr3 := (hr.trans hr').trans hr''
    simp only [post] at hth
    split_ifs at hth
    · exact ⟨_, hr3, by rw [hth]; trivial⟩
    · exact hdrain hr3 hth
  have hsweep : ∀ {e now}, (threads ttl).machine.Reach Begun c e → e.th t = .sweeping now →
      ∃ d, (threads ttl).machine.Reach Begun c d ∧ (d.th t).Done := fun {e now} hr he => by
    obtain ⟨d, hr', -, hth, -⟩ := sweep_finishes ttl (finite_of_reach hr hfin) he
    exact ⟨d, hr.trans hr', by rw [hth]; trivial⟩
  cases hp : c.th t with
  | idle => exact absurd hp hbegun
  | waiting token =>
    obtain ⟨hr, hth⟩ := reach_step ttl (a := .giveUp) hp (by simp) trivial
    exact hgive hr hth
  | givingUp token => exact hgive .refl hp
  | draining token => exact hdrain .refl hp
  | sweeping now => exact hsweep .refl hp
  | woken token tconn =>
    obtain ⟨e, hr, hmu, he⟩ := lock_free ttl (t := t) hc hfin fun now h => by rw [hp] at h; cases h
    obtain ⟨hr', hth⟩ := reach_step ttl (a := .cancel) (he.trans hp) (by simp) hmu
    exact ⟨_, hr.trans hr', by rw [hth]; trivial⟩
  | sending token ch =>
    have hempty := chan_of_sending hc.shared (hp ▸ hc.thread t)
    obtain ⟨hr, hth⟩ := reach_step ttl (a := .send) hp (by simp) (.inr (by rw [hempty]))
    exact ⟨_, hr, by rw [hth]; trivial⟩
  | toSweep now =>
    obtain ⟨e, hr, hmu, he⟩ := lock_free ttl (t := t) hc hfin fun now h => by rw [hp] at h; cases h
    obtain ⟨hr', hth⟩ := reach_step ttl (a := .lock) (he.trans hp) (by simp) hmu
    exact hsweep (hr.trans hr') hth
  | returned | gaveUp | delivered | undelivered | swept => exact ⟨c, .refl, by rw [hp]; trivial⟩

/-! ## The rendezvous -/

/-- `Deliver` has consumed the token. -/
def Pc.Consumed (token : Token) : Pc Token → Prop
  | .sending x _ | .delivered x => x = token
  | _ => False

/-- The waiter of the token has received the connection. -/
def Pc.Received (token : Token) (d : Conn) : Pc Token → Prop
  | .woken x tconn | .returned x tconn | .gaveUp x tconn => x = token ∧ tconn = some d
  | _ => False

/-- The waiter of the token has registered, and has not returned from its channel. -/
def Pc.Listens (token : Token) : Pc Token → Prop
  | .waiting x | .givingUp x | .draining x => x = token
  | _ => False

structure Meet (ttl : ℕ) (c : Threads.Config (Table Token) (Pc Token)) : Prop where
  /-- A token is consumed at most once. -/
  once : ∀ t u token, (c.th t).Consumed token → (c.th u).Consumed token → t = u
  /-- A connection that is received was delivered with the token that its waiter has registered. -/
  registered : ∀ t token d, (c.th t).Received token d → c.shared.token t = some token ∧ c.th d = .delivered token
  /-- At most one waiter receives it. -/
  received : ∀ t u token token' d, (c.th t).Received token d → (c.th u).Received token' d → t = u
  /-- No thread has sent on a closed channel, or closed one twice. -/
  fine : c.shared.panicked = false
  /-- A send finds the channel open, and has room. -/
  room : ∀ t token ch, c.th t = .sending token ch → c.shared.chan ch = ⟨[], false⟩
  /-- What `Deliver` has not reported back is received, or is in the channel of a waiter that will receive it. -/
  kept : ∀ d token, c.th d = .delivered token → ∃ t, c.shared.token t = some token ∧
    ((c.th t).Received token d ∨ (c.th t).Listens token ∧ (c.shared.chan t).buf = [d])
  /-- No operation blocks forever. -/
  finishes : ∀ t, c.th t ≠ .idle → ∃ d, (threads ttl).machine.Reach Begun c d ∧ (d.th t).Done

omit [DecidableEq Token] in
theorem Pc.Received.of_waits {d : Conn} (hr : p.Received token d) (hw : p.Waits s t) :
    s.token t = some token ∧ s.stage t = .taken d := by
  cases p <;> simp only [Pc.Received] at hr <;> obtain ⟨rfl, rfl⟩ := hr <;> exact hw

omit [DecidableEq Token] in
/-- A `Deliver` that has consumed the token has promised, sent or handed over its connection in its channel. -/
theorem Pc.Consumed.of_gives (hc : p.Consumed token) (hg : p.Gives s t) :
    ∃ ch, s.token ch = some token ∧ (s.stage ch = .promised t ∨ s.stage ch = .sent t ∨ s.stage ch = .taken t) := by
  cases p <;> simp only [Pc.Consumed] at hc <;> subst hc
  case sending ch => exact ⟨ch, hg.1, .inl hg.2⟩
  case delivered =>
    obtain ⟨ch, htoken, hs⟩ := hg
    exact ⟨ch, htoken, .inr hs⟩

omit [DecidableEq Token] in
theorem once_of_holds (hc : Threads.Holds Inv Ok c) (ht : (c.th t).Consumed token) (hu : (c.th u).Consumed token) :
    t = u := by
  obtain ⟨ch, hch, hs⟩ := ht.of_gives (hc.thread t).gives
  obtain ⟨ch', hch', hs'⟩ := hu.of_gives (hc.thread u).gives
  obtain rfl := hc.shared.inj _ _ _ hch hch'
  grind

omit [DecidableEq Token] in
theorem registered_of_holds {d : Conn} (hc : Threads.Holds Inv Ok c) (h : (c.th t).Received token d) :
    c.shared.token t = some token ∧ c.th d = .delivered token := by
  obtain ⟨htoken, hs⟩ := h.of_waits (hc.thread t).waits
  obtain ⟨token', hd, htoken'⟩ := (hc.thread d).given t (.inr hs)
  rw [htoken, Option.some.injEq] at htoken'
  exact ⟨htoken, htoken' ▸ hd⟩

omit [DecidableEq Token] in
theorem received_of_holds {d : Conn} {token' : Token} (hc : Threads.Holds Inv Ok c) (ht : (c.th t).Received token d)
    (hu : (c.th u).Received token' d) : t = u := by
  obtain ⟨htoken, hd⟩ := registered_of_holds hc ht
  obtain ⟨htoken', hd'⟩ := registered_of_holds hc hu
  rw [hd, Pc.delivered.injEq] at hd'
  exact hc.shared.inj _ _ _ htoken (hd' ▸ htoken')

omit [DecidableEq Token] in
/-- The thread of a channel with a connection listens, and the thread of a channel that was emptied has received. -/
theorem kept_of_holds {d : Conn} (hc : Threads.Holds Inv Ok c) (h : c.th d = .delivered token) :
    ∃ t, c.shared.token t = some token ∧
      ((c.th t).Received token d ∨ (c.th t).Listens token ∧ (c.shared.chan t).buf = [d]) := by
  have hg := (hc.thread d).gives
  rw [h] at hg
  obtain ⟨t, htoken, hs⟩ := hg
  refine ⟨t, htoken, ?_⟩
  have hw := (hc.thread t).waits
  rcases hs with hs | hs
  · right
    rw [hc.shared.chan t, hs]
    refine ⟨?_, rfl⟩
    generalize c.th t = p at hw ⊢
    cases p with
    | gaveUp x tconn | woken x tconn | returned x tconn => cases tconn <;> simp [Pc.Waits, hs] at hw
    | _ => simp_all [Pc.Waits, Pc.Listens]
  · left
    generalize c.th t = p at hw ⊢
    cases p with
    | gaveUp x tconn | woken x tconn | returned x tconn => cases tconn <;> simp_all [Pc.Waits, Pc.Received]
    | _ => simp_all [Pc.Waits, Stage.Pending]

/-- **Tunnel tokens meet their waiters**, whatever the order of the registrations, waits, deliveries and sweeps. -/
theorem tokens_meet
    (h : (threads ttl).machine.Reach Machine.Any (start : Threads.Config (Table Token) (Pc Token)) c) :
    Meet ttl c := by
  have hc := holds_of_reach holds_start h
  have hfin := finite_of_reach h (by simp [start, init])
  exact ⟨fun _ _ _ => once_of_holds hc, fun _ _ _ => registered_of_holds hc, fun _ _ _ _ _ => received_of_holds hc,
    hc.shared.fine, fun t _ _ ht => chan_of_sending hc.shared (ht ▸ hc.thread t), fun _ _ => kept_of_holds hc,
    fun _ => finishes hc hfin⟩

/-- The waiter gives up between the lookup of `Deliver` and its send: it drains the connection. -/
theorem tokens_meet_raced : ∃ c : Threads.Config (Table ℕ) (Pc ℕ),
    (threads 60).machine.Reach Machine.Any start c ∧ c.th 0 = .gaveUp 7 (some 1) ∧ c.th 1 = .delivered 7 ∧
      Meet 60 c := by
  have h0 : (threads 60).machine.Reach Machine.Any start (start : Threads.Config (Table ℕ) (Pc ℕ)) := .refl
  have h1 := h0.step (0, Action.register 7) ⟨rfl, fun u h => by cases h⟩ trivial
  have h2 := h1.step (1, Action.deliver 7) rfl trivial
  have h3 := h2.step (0, Action.giveUp) trivial trivial
  have h4 := h3.step (0, Action.cancel) rfl trivial
  have h5 := h4.step (1, Action.send) (.inr rfl) trivial
  have h6 := h5.step (0, Action.drain) (.inl (by exact List.cons_ne_nil 1 [])) trivial
  exact ⟨_, h6, rfl, rfl, tokens_meet h6⟩

end McServerDashboard.Relay.Tokens
