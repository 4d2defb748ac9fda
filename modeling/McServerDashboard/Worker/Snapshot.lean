import Mathlib.Data.Nat.Notation
import Mathlib.Tactic.SplitIfs
import McServerDashboard.Lib.Run

/-!
# One snapshot command

`handleSnapshot` starts the body of the snapshot on a goroutine of its own and answers at its
deadline, whatever the body is blocked on. The two share a `snapshotAttempt`, which also owns the
server's claim; a save-on that the handler owes runs on a third goroutine.

Every call of the body may fail or take as long as it likes, and the command's context may end at any
time.
-/

namespace McServerDashboard.Worker.Snapshot

open Lib

/-- The command's result. -/
inductive Answer
  | success (heldGeneration : Option ℕ)
  | transferFailed
  | serverNotFound
  | serverPropertiesUnreadable
  | busy
  deriving DecidableEq

/-- `snapshotAttempt`: `dial` says that a save-off may have been applied, `restored` that a save-on was
confirmed. -/
structure Attempt where
  committed : Bool
  abandoned : Bool
  dial : Bool
  restored : Bool
  holds : ℕ
  deriving DecidableEq

/-- What the body goes on with after it has restored save-on. -/
inductive After
  | upload
  | exit (r : Answer)
  deriving DecidableEq

/-- The positions of `snapshotBody`. -/
inductive Body
  | idle
  | start
  /-- `quiesceRunning`. -/
  | opening
  | opened
  | saveOff
  | saveOffWritten
  | saveAll
  | settling
  /-- `readWorkingDir`, of a stopped server. -/
  | reading
  | fsck
  | packing
  /-- `restoreSaveOn`. -/
  | restoring (k : After)
  | redialing (k : After)
  | resaving (k : After)
  | restored (k : After)
  | uploading
  | published (gen : ℕ)
  | stamp (gen : ℕ)
  | sweep (declared : Option ℕ)
  | remove
  | exit (r : Answer)
  | sending (r : Answer)
  | «over»
  deriving DecidableEq

/-- The positions of `handleSnapshot`. -/
inductive Handler
  | start
  | refused
  | waiting
  | expired
  | deciding
  /-- `finishAttempt`. -/
  | finishing (r : Answer)
  | dropping (r : Answer)
  | restoring (r : Answer)
  | answered (r : Answer)
  deriving DecidableEq

/-- The positions of the handler's save-on recovery. -/
inductive Recovery
  | none
  | dialing
  | sending
  | dropping
  | finished
  deriving DecidableEq

/-- What a successful snapshot does to the scratch. -/
inductive Tail
  | stamp (gen : ℕ)
  | sweep
  | removeScratch
  deriving DecidableEq

structure State where
  running : Bool
  att : Attempt
  /-- The server's `runningSnapshots` mark, or its reservation. -/
  claim : Bool
  /-- The command's context is done. -/
  expired : Bool
  done : Option Answer
  body : Body
  handler : Handler
  recovery : Recovery
  /-- `commit` or `abandon` was called, what was done to the scratch, and how often the claim was
  released (ghosts). -/
  asked : Bool
  tail : List Tail
  releases : ℕ
  /-- A save-off is on the wire and no save-on was tried since; it went out after `finishAttempt` had
  asked what is owed; its reply came (ghosts). -/
  owes : Bool
  late : Bool
  replied : Bool
  deriving DecidableEq

/-- What a step leaves open: whether a call succeeds, and why it fails. -/
structure Choice where
  ok : Bool
  flag : Bool
  gen : ℕ
  deriving DecidableEq

inductive Action
  | accept (running : Bool)
  | refuse
  /-- The deadline passes, or the request is cancelled. -/
  | expire
  | body (x : Choice)
  /-- The handler receives the body's result. -/
  | take
  | handler
  /-- The handler waits for the recovery too long. -/
  | timeout
  | recovery (x : Choice)
  deriving DecidableEq

/-! ## Steps -/

/-- `drop`. -/
def State.drop (s : State) : State :=
  { s with
    att := { s.att with holds := s.att.holds - 1 }
    claim := s.claim && s.att.holds ≠ 1
    releases := if s.att.holds = 1 then s.releases + 1 else s.releases }

/-- `owedSaveOn`. -/
def Attempt.owedSaveOn (a : Attempt) : Bool := a.dial && !a.restored

def After.body : After → Body
  | .upload => .uploading
  | .exit r => .exit r

/-- `finishAttempt` has asked whether a save-on is owed. -/
def Handler.looked : Handler → Bool
  | .dropping _ => true
  | .restoring _ => true
  | .answered _ => true
  | _ => false

def Handler.waitsForRecovery : Handler → Bool
  | .restoring _ => true
  | _ => false

/-- The steps of the body that touch nothing it shares. -/
def Body.next (running expired : Bool) (x : Choice) : Body → Body
  | .start => if running then .opening else .reading
  | .opening =>
    if x.ok then .opened else .exit (if x.flag then .serverPropertiesUnreadable else .transferFailed)
  | .saveAll => if x.ok then .settling else .restoring (.exit .transferFailed)
  | .settling => if x.ok then .fsck else .restoring (.exit .transferFailed)
  | .reading => if x.ok then .fsck else .exit (if x.flag then .serverNotFound else .transferFailed)
  | .fsck =>
    -- An I/O error of the check lets the snapshot go on.
    if x.ok && !expired then .packing
    else if running then .restoring (.exit .transferFailed)
    else .exit .transferFailed
  | .packing =>
    -- A stopped server's pack and upload are one call.
    if running then .restoring (if x.ok then .upload else .exit .transferFailed)
    else if x.ok then .published x.gen
    else .exit .transferFailed
  | .redialing k => if x.ok then .resaving k else k.body
  | .resaving k => if x.ok then .restored k else k.body
  | .uploading => if x.ok then .published x.gen else .exit .transferFailed
  | b => b

/-- The next step of the body. -/
def bodyStep (s : State) (x : Choice) : State :=
  match s.body with
  | .opened => { s with att := { s.att with dial := true }, body := .saveOff }
  | .saveOff =>
    if x.ok then { s with body := .saveOffWritten, owes := true, late := s.handler.looked, replied := false }
    else { s with body := .exit .transferFailed }
  | .saveOffWritten =>
    if x.ok then { s with body := .saveAll, replied := true } else { s with body := .exit .transferFailed }
  | .restoring k => { s with body := if x.ok then .restored k else .redialing k, owes := false }
  | .restored k => { s with att := { s.att with restored := true }, body := k.body }
  | .published gen =>
    if s.att.abandoned then { s with body := .exit .transferFailed, asked := true }
    else
      { s with
        att := { s.att with committed := true }
        body := if s.running then .stamp gen else .remove
        asked := true }
  | .stamp gen =>
    -- Only where the working dir is still the one that was packed.
    if x.ok then { s with tail := .stamp gen :: s.tail, body := .sweep (some gen) }
    else { s with body := .sweep none }
  | .sweep declared =>
    { s with tail := if x.ok then .sweep :: s.tail else s.tail, body := .exit (.success declared) }
  | .remove => { s with tail := .removeScratch :: s.tail, body := .exit (.success none) }
  | .exit r => { s.drop with body := .sending r }
  | .sending r => { s with done := some r, body := .over }
  | b => { s with body := b.next s.running s.expired x }

/-- The next step of the handler. -/
def handlerStep (s : State) : State :=
  match s.handler with
  | .waiting => { s with handler := .expired }
  | .expired => { s with handler := .deciding }
  | .deciding =>
    -- `abandon`.
    if s.att.committed then { s with handler := .finishing (.success none), asked := true }
    else
      { s with
        att := { s.att with abandoned := true }
        handler := .finishing .transferFailed
        asked := true }
  | .finishing r =>
    if s.att.owedSaveOn then { s with recovery := .dialing, handler := .restoring r }
    else { s with handler := .dropping r }
  | .dropping r => { s.drop with handler := .answered r }
  | .restoring r => { s with handler := .answered r }
  | _ => s

/-- The next step of the recovery. -/
def recoveryStep (s : State) (x : Choice) : State :=
  match s.recovery with
  | .dialing => if x.ok then { s with recovery := .sending } else { s with recovery := .dropping, owes := false }
  | .sending => { s with recovery := .dropping, owes := false }
  | .dropping => { s.drop with recovery := .finished }
  | _ => s

def Handler.canStep (s : State) : Handler → Prop
  | .waiting => s.expired = true
  | .expired => s.done = none
  | .deciding => True
  | .finishing _ => True
  | .dropping _ => True
  | .restoring _ => s.recovery = .finished
  | _ => False

def pre (s : State) : Action → Prop
  | .accept _ => s.handler = .start
  | .refuse => s.handler = .start
  | .expire => True
  | .body _ => s.body ≠ .idle ∧ s.body ≠ .over
  | .take => (s.handler = .waiting ∨ s.handler = .expired) ∧ s.done ≠ none
  | .handler => s.handler.canStep s
  | .timeout => s.handler.waitsForRecovery = true
  | .recovery _ => s.recovery = .dialing ∨ s.recovery = .sending ∨ s.recovery = .dropping

def post (s : State) : Action → State
  | .accept running =>
    { s with
      running := running
      att := { s.att with holds := 2 }
      claim := true
      body := .start
      handler := .waiting }
  | .refuse => { s with handler := .refused }
  | .expire => { s with expired := true }
  | .body x => bodyStep s x
  | .take => { s with handler := .finishing (s.done.getD .transferFailed) }
  | .handler => handlerStep s
  | .timeout => handlerStep s
  | .recovery x => recoveryStep s x

instance (s : State) (h : Handler) : Decidable (h.canStep s) := by
  cases h <;> unfold Handler.canStep <;> infer_instance

instance (s : State) (a : Action) : Decidable (pre s a) := by
  cases a <;> unfold pre <;> infer_instance

/-- One snapshot command. -/
def command : Machine State Action := ⟨pre, post⟩

instance (s : State) (a : Action) : Decidable (command.pre s a) := inferInstanceAs (Decidable (pre s a))

def start : State :=
  ⟨false, ⟨false, false, false, false, 0⟩, false, false, none, .idle, .start, .none, false, [], 0, false, false, false⟩

/-! ## The invariant -/

/-- The body has not dropped its share of the claim. -/
def Body.holds : Body → ℕ
  | .idle => 0
  | .sending _ => 0
  | .over => 0
  | _ => 1

/-- The handler has neither dropped its share nor handed it to the recovery. -/
def Handler.holds : Handler → ℕ
  | .start => 0
  | .refused => 0
  | .restoring _ => 0
  | .answered _ => 0
  | _ => 1

def Recovery.holds : Recovery → ℕ
  | .none => 0
  | .finished => 0
  | _ => 1

def Handler.admitted : Handler → Bool
  | .start => false
  | .refused => false
  | _ => true

/-- The recovery has not tried its save-on yet. -/
def Recovery.owes : Recovery → Bool
  | .dialing => true
  | .sending => true
  | _ => false

/-- The body has not sent a save-off yet. -/
def Body.early : Body → Bool
  | .idle => true
  | .start => true
  | .opening => true
  | .opened => true
  | .saveOff => true
  | _ => false

/-- A save-off of the body was answered and its save-on is still to come. -/
def Body.owes (running : Bool) : Body → Bool
  | .saveAll => true
  | .settling => true
  | .fsck => running
  | .packing => running
  | .restoring _ => true
  | _ => false

/-- The body quiesces a running server. -/
def Body.quiesces : Body → Bool
  | .opening => true
  | .opened => true
  | .saveOff => true
  | .saveOffWritten => true
  | .saveAll => true
  | .settling => true
  | _ => false

/-- The body restores save-on. -/
def Body.restores : Body → Bool
  | .redialing _ => true
  | .resaving _ => true
  | .restored _ => true
  | _ => false

/-- The tail of a committed body. -/
def Body.inTail : Body → Bool
  | .stamp _ => true
  | .sweep _ => true
  | .remove => true
  | _ => false

/-- What is known while the body stands at `b`. -/
structure Ok (s : State) (b : Body) : Prop where
  tail : b.inTail = true → s.att.committed = true
  early : b.early = true → s.owes = false ∧ s.att.restored = false
  dial : b = .saveOff → s.att.dial = true
  restores : b.restores = true → s.owes = false
  replied : s.owes = true → s.replied = true → b.owes s.running = true
  quiesces : b.quiesces = true → s.running = true

structure Inv (s : State) : Prop where
  decided : s.att.committed = true → s.att.abandoned = false
  asked : s.asked = true → s.att.committed = true ∨ s.att.abandoned = true
  tail : s.tail ≠ [] → s.att.committed = true
  holds : s.att.holds = s.body.holds + s.handler.holds + s.recovery.holds
  claim : s.claim = true ↔ 0 < s.att.holds
  releases : s.releases + (if s.claim then 1 else 0) = if s.handler.admitted then 1 else 0
  alone : s.handler.admitted = false → s.body = .idle ∧ s.recovery = .none
  handed : s.recovery ≠ .none → s.handler.looked = true
  dial : s.owes = true → s.att.dial = true
  restored : s.att.restored = true → s.owes = false
  /-- Somebody is going to try a save-on. -/
  owed : s.owes = true → s.late = false → s.handler.looked = false ∨ s.recovery.owes = true
  body : Ok s s.body

variable {s s' : State} {b b' : Body} {x : Choice}

theorem inv_start : Inv start where
  decided := nofun
  asked := nofun
  tail h := absurd rfl h
  holds := rfl
  claim := by simp [start]
  releases := rfl
  alone _ := ⟨rfl, rfl⟩
  handed h := absurd rfl h
  dial := nofun
  restored := nofun
  owed := nofun
  body := ⟨nofun, fun _ => ⟨rfl, rfl⟩, nofun, nofun, nofun, nofun⟩

/-! ## What a step changes -/

theorem Inv.move (h : Inv s) (ha : s.handler.admitted = true) (hb : b.holds = s.body.holds) (hok : Ok s b) :
    Inv { s with body := b } :=
  { h with
    alone := fun h' => absurd (ha.symm.trans h') (by simp)
    holds := by
      show s.att.holds = b.holds + _ + _
      rw [hb, h.holds]
    body := { hok with } }

/-- `saveOffSent`. -/
theorem Inv.saveOffSent (h : Inv s) : Inv { s with att := { s.att with dial := true } } :=
  { h with
    dial := fun _ => rfl
    body := { h.body with dial := fun _ => rfl } }

/-- A save-off goes out. -/
theorem Inv.write (h : Inv s) (hd : s.att.dial = true) (hr : s.att.restored = false)
    (he : s.body.early = false) (hb : s.body.restores = false) :
    Inv { s with owes := true, late := s.handler.looked, replied := false } :=
  { h with
    dial := fun _ => hd
    restored := fun h => absurd (hr.symm.trans h) (by simp)
    owed := fun _ hl => .inl hl
    body := { h.body with
      early := fun h => absurd (he.symm.trans h) (by simp)
      restores := fun h => absurd (hb.symm.trans h) (by simp)
      replied := nofun } }

theorem Inv.reply (h : Inv s) (hb : s.body.owes s.running = true) : Inv { s with replied := true } :=
  { h with body := { h.body with replied := fun _ _ => hb } }

/-- A save-on is tried. -/
theorem Inv.tried (h : Inv s) : Inv { s with owes := false } :=
  { h with
    dial := nofun
    restored := fun _ => rfl
    owed := nofun
    body := { h.body with
      early := fun he => ⟨rfl, (h.body.early he).2⟩
      restores := fun _ => rfl
      replied := nofun } }

/-- `saveOnRestored`. -/
theorem Inv.saveOnRestored (h : Inv s) (ho : s.owes = false) (he : s.body.early = false) :
    Inv { s with att := { s.att with restored := true } } :=
  { h with
    restored := fun _ => ho
    body := { h.body with early := fun h => absurd (he.symm.trans h) (by simp) } }

/-- `commit` or `abandon` finds the other decided. -/
theorem Inv.ask (h : Inv s) (hd : s.att.committed = true ∨ s.att.abandoned = true) :
    Inv { s with asked := true } :=
  { h with
    asked := fun _ => hd
    body := { h.body with } }

/-- `commit`. -/
theorem Inv.commit (h : Inv s) (ha : s.att.abandoned = false) :
    Inv { s with att := { s.att with committed := true }, asked := true } :=
  { h with
    decided := fun _ => ha
    asked := fun _ => .inl rfl
    tail := fun _ => rfl
    body := { h.body with tail := fun _ => rfl } }

/-- `abandon`. -/
theorem Inv.abandon (h : Inv s) (hc : s.att.committed = false) :
    Inv { s with att := { s.att with abandoned := true }, asked := true } :=
  { h with
    decided := fun h => absurd (hc.symm.trans h) (by simp)
    asked := fun _ => .inr rfl
    body := { h.body with } }

theorem Inv.touch {e : Tail} (h : Inv s) (hc : s.att.committed = true) : Inv { s with tail := e :: s.tail } :=
  { h with
    tail := fun _ => hc
    body := { h.body with } }

theorem Inv.result {r : Answer} (h : Inv s) : Inv { s with done := some r } :=
  { h with body := { h.body with } }

theorem Inv.expire (h : Inv s) : Inv { s with expired := true } :=
  { h with body := { h.body with } }

theorem Inv.handle {k : Handler} (h : Inv s) (hh : k.holds = s.handler.holds)
    (ha : k.admitted = s.handler.admitted) (hl : k.looked = s.handler.looked) : Inv { s with handler := k } :=
  { h with
    holds := by
      show s.att.holds = _ + k.holds + _
      rw [hh, h.holds]
    releases := by
      show _ = if k.admitted then 1 else 0
      rw [ha, h.releases]
    alone := fun h' => h.alone (ha.symm.trans h')
    handed := fun h' => hl.trans (h.handed h')
    owed := fun ho hlate => (h.owed ho hlate).imp hl.trans id
    body := { h.body with } }

/-- The last share releases the claim. -/
theorem Inv.drop_claim (h : Inv s) (hpos : 0 < s.att.holds) :
    (s.drop.claim = true ↔ 0 < s.drop.att.holds) ∧
      s.drop.releases + (if s.drop.claim then 1 else 0) = if s.handler.admitted then 1 else 0 := by
  have hclaim : s.claim = true := h.claim.mpr hpos
  have hrel := h.releases
  rw [if_pos hclaim] at hrel
  by_cases hone : s.att.holds = 1
  · simp [State.drop, hone, ← hrel]
  · simp only [State.drop, hclaim, hone, Bool.true_and, ne_eq, not_false_eq_true, decide_true, if_true, if_false]
    exact ⟨⟨fun _ => by omega, fun _ => trivial⟩, hrel⟩

/-! ## Steps of the body -/

/-- The body goes on to `b'`. -/
structure Goes (s : State) (b b' : Body) : Prop where
  holds : b'.holds = b.holds
  ok : Ok s b'

/-- A position at which the body neither is about to send a save-off nor restores save-on. -/
theorem Ok.of (ht : b.inTail = false) (he : b.early = false) (hr : b.restores = false)
    (ho : s.owes = true → s.replied = true → b.owes s.running = true)
    (hq : b.quiesces = true → s.running = true) : Ok s b where
  tail h := absurd (ht.symm.trans h) (by simp)
  early h := absurd (he.symm.trans h) (by simp)
  dial h := by
    rw [h] at he
    cases he
  restores h := absurd (hr.symm.trans h) (by simp)
  replied := ho
  quiesces := hq

/-- No answered save-off is owed a save-on by a body that has none to restore. -/
theorem Ok.none (hok : Ok s b) (hb : b.owes s.running = false) {P : Prop} (ho : s.owes = true)
    (hr : s.replied = true) : P := absurd (hb.symm.trans (hok.replied ho hr)) (by simp)

theorem Ok.exit {r : Answer} (hok : Ok s b) (hb : b.owes s.running = false) : Ok s (.exit r) :=
  .of rfl rfl rfl (hok.none hb) nofun

theorem Ok.restoring (k : After) : Ok s (.restoring k) := .of rfl rfl rfl (fun _ _ => rfl) nofun

theorem Ok.resume (k : After) (ho : s.owes = false) : Ok s k.body := by
  have hno : s.owes = true → s.replied = true → k.body.owes s.running = true :=
    fun h => absurd (ho.symm.trans h) (by simp)
  cases k <;> exact .of rfl rfl rfl hno nofun

theorem After.holds_body (k : After) : k.body.holds = 1 := by
  cases k <;> rfl

theorem goes_next (expired : Bool) (hok : Ok s b) : Goes s b (b.next s.running expired x) := by
  cases b with
  | start =>
    show Goes _ _ (if _ then _ else _)
    split_ifs with hrun
    · exact ⟨rfl, { hok with dial := nofun, restores := nofun, quiesces := fun _ => hrun }⟩
    · exact ⟨rfl, .of rfl rfl rfl (hok.none rfl) nofun⟩
  | opening =>
    show Goes _ _ (if _ then _ else _)
    split_ifs
    · exact ⟨rfl, { hok with dial := nofun }⟩
    all_goals exact ⟨rfl, hok.exit rfl⟩
  | saveAll =>
    show Goes _ _ (if _ then _ else _)
    split_ifs
    · exact ⟨rfl, .of rfl rfl rfl (fun _ _ => rfl) fun _ => hok.quiesces rfl⟩
    · exact ⟨rfl, .restoring _⟩
  | settling =>
    show Goes _ _ (if _ then _ else _)
    split_ifs
    · exact ⟨rfl, .of rfl rfl rfl (fun _ _ => hok.quiesces rfl) nofun⟩
    · exact ⟨rfl, .restoring _⟩
  | reading =>
    show Goes _ _ (if _ then _ else _)
    split_ifs
    · exact ⟨rfl, .of rfl rfl rfl (hok.none rfl) nofun⟩
    all_goals exact ⟨rfl, hok.exit rfl⟩
  | fsck =>
    show Goes _ _ (if _ then _ else if _ then _ else _)
    split_ifs with hx hrun
    · exact ⟨rfl, .of rfl rfl rfl hok.replied nofun⟩
    · exact ⟨rfl, .restoring _⟩
    · exact ⟨rfl, hok.exit (Bool.eq_false_iff.mpr hrun)⟩
  | packing =>
    show Goes _ _ (if _ then _ else if _ then _ else _)
    by_cases hrun : s.running = true
    · rw [if_pos hrun]
      exact ⟨rfl, .restoring _⟩
    · rw [if_neg hrun]
      have hb : Body.packing.owes s.running = false := Bool.eq_false_iff.mpr hrun
      split_ifs
      · exact ⟨rfl, .of rfl rfl rfl (hok.none hb) nofun⟩
      · exact ⟨rfl, hok.exit hb⟩
  | redialing k | resaving k =>
    show Goes _ _ (if _ then _ else _)
    split_ifs
    · exact ⟨rfl, { hok with early := nofun, dial := nofun }⟩
    · exact ⟨k.holds_body, .resume k (hok.restores rfl)⟩
  | uploading =>
    show Goes _ _ (if _ then _ else _)
    split_ifs
    · exact ⟨rfl, .of rfl rfl rfl (hok.none rfl) nofun⟩
    · exact ⟨rfl, hok.exit rfl⟩
  | _ => exact ⟨rfl, hok⟩

theorem inv_exit {r : Answer} (h : Inv s) (ha : s.handler.admitted = true) (hb : s.body = .exit r) :
    Inv { s.drop with body := .sending r } := by
  have hok := h.body
  rw [hb] at hok
  have hholds : s.att.holds = 1 + s.handler.holds + s.recovery.holds := by
    rw [h.holds, hb]
    rfl
  obtain ⟨hclaim, hrel⟩ := h.drop_claim (by omega)
  refine { h with
    holds := ?_
    claim := hclaim
    releases := hrel
    alone := fun h' => absurd (ha.symm.trans h') (by simp)
    body := .of rfl rfl rfl (hok.none rfl) nofun }
  show s.att.holds - 1 = 0 + s.handler.holds + s.recovery.holds
  omega

theorem inv_bodyStep (h : Inv s) (hi : s.body ≠ .idle) : Inv (bodyStep s x) := by
  have ha : s.handler.admitted = true := by
    by_contra ha
    exact hi (h.alone (Bool.eq_false_iff.mpr ha)).1
  have hok := h.body
  have hholds : ∀ {b b' : Body}, s.body = b → b'.holds = b.holds → b'.holds = s.body.holds :=
    fun hb hh => hh.trans (congrArg Body.holds hb).symm
  cases hb : s.body with
  | opened =>
    rw [hb] at hok
    simp only [bodyStep, hb]
    exact h.saveOffSent.move ha (hholds hb rfl) { hok with dial := fun _ => rfl }
  | saveOff =>
    rw [hb] at hok
    simp only [bodyStep, hb]
    split_ifs
    · have hsent := h.move (b := .saveOffWritten) ha (hholds hb rfl)
        (.of rfl rfl rfl (hok.none rfl) fun _ => hok.quiesces rfl)
      exact hsent.write (hok.dial rfl) (hok.early rfl).2 rfl rfl
    · exact h.move ha (hholds hb rfl) (hok.exit rfl)
  | saveOffWritten =>
    rw [hb] at hok
    simp only [bodyStep, hb]
    split_ifs
    · have hanswered := h.move (b := .saveAll) ha (hholds hb rfl)
        (.of rfl rfl rfl (fun _ _ => rfl) fun _ => hok.quiesces rfl)
      exact hanswered.reply rfl
    · exact h.move ha (hholds hb rfl) (hok.exit rfl)
  | restoring k =>
    simp only [bodyStep, hb]
    refine h.tried.move ha ?_ ?_
    · refine hholds hb ?_
      split_ifs <;> rfl
    · split_ifs <;> exact ⟨nofun, nofun, nofun, fun _ => rfl, nofun, nofun⟩
  | restored k =>
    rw [hb] at hok
    simp only [bodyStep, hb]
    have hset := h.saveOnRestored (hok.restores rfl) (by rw [hb]; rfl)
    exact hset.move ha (hholds hb k.holds_body) (.resume k (hok.restores rfl))
  | published gen =>
    rw [hb] at hok
    simp only [bodyStep, hb]
    split_ifs with hab hrun
    · exact (h.ask (.inr hab)).move ha (hholds hb rfl) (.of rfl rfl rfl (hok.none rfl) nofun)
    all_goals
      have hc := h.commit (Bool.eq_false_iff.mpr hab)
      exact hc.move ha (hholds hb rfl) ⟨fun _ => rfl, nofun, nofun, nofun, hok.none rfl, nofun⟩
  | stamp gen =>
    rw [hb] at hok
    simp only [bodyStep, hb]
    split_ifs
    · exact (h.touch (hok.tail rfl)).move ha (hholds hb rfl) { hok with early := nofun, dial := nofun }
    · exact h.move ha (hholds hb rfl) { hok with early := nofun, dial := nofun }
  | sweep declared =>
    rw [hb] at hok
    simp only [bodyStep, hb]
    split_ifs
    · exact (h.touch (hok.tail rfl)).move ha (hholds hb rfl) (.of rfl rfl rfl (hok.none rfl) nofun)
    · exact h.move ha (hholds hb rfl) (hok.exit rfl)
  | remove =>
    rw [hb] at hok
    simp only [bodyStep, hb]
    exact (h.touch (hok.tail rfl)).move ha (hholds hb rfl) (.of rfl rfl rfl (hok.none rfl) nofun)
  | exit r =>
    simp only [bodyStep, hb]
    exact inv_exit h ha hb
  | sending r =>
    rw [hb] at hok
    simp only [bodyStep, hb]
    exact h.result.move ha (hholds hb rfl) { hok with early := nofun, dial := nofun }
  | _ =>
    simp only [bodyStep, hb]
    rw [hb] at hok
    obtain ⟨hh, hn⟩ := goes_next (x := x) s.expired hok
    exact h.move ha (hholds hb hh) hn

/-! ## Steps of the handler and of the recovery -/

/-- The handler hands its share over to the recovery. -/
theorem inv_recover {r : Answer} (h : Inv s) (hh : s.handler = .finishing r) :
    Inv { s with recovery := .dialing, handler := .restoring r } := by
  have hnone : s.recovery = .none := by
    by_contra hne
    have := h.handed hne
    rw [hh] at this
    cases this
  have hholds := h.holds
  have hrel := h.releases
  rw [hh, hnone] at hholds
  rw [hh] at hrel
  exact { h with
    holds := by
      show s.att.holds = s.body.holds + 0 + 1
      rw [hholds]
      rfl
    releases := hrel
    alone := nofun
    handed := fun _ => rfl
    owed := fun _ _ => .inr rfl
    body := { h.body with } }

/-- The handler sees no save-on owed. -/
theorem inv_notOwed {r : Answer} (h : Inv s) (hh : s.handler = .finishing r) (ho : s.att.owedSaveOn = false) :
    Inv { s with handler := .dropping r } := by
  have howes : s.owes = false := by
    by_contra hne
    have hne := Bool.not_eq_false _ ▸ hne
    have hrest : s.att.restored = false := by
      by_contra hr
      exact absurd (h.restored (Bool.not_eq_false _ ▸ hr)) (by simp [hne])
    simp [Attempt.owedSaveOn, h.dial hne, hrest] at ho
  have hholds := h.holds
  have hrel := h.releases
  rw [hh] at hholds hrel
  exact { h with
    holds := hholds
    releases := hrel
    alone := nofun
    handed := fun _ => rfl
    owed := fun ho => absurd (howes.symm.trans ho) (by simp)
    body := { h.body with } }

theorem inv_handlerDrop {r : Answer} (h : Inv s) (hh : s.handler = .dropping r) :
    Inv { s.drop with handler := .answered r } := by
  have hholds : s.att.holds = s.body.holds + 1 + s.recovery.holds := by
    rw [h.holds, hh]
    rfl
  obtain ⟨hclaim, hrel⟩ := h.drop_claim (by omega)
  rw [hh] at hrel
  refine { h with
    holds := ?_
    claim := hclaim
    releases := hrel
    alone := nofun
    handed := fun _ => rfl
    owed := fun ho hl => ?_
    body := { h.body with } }
  · show s.att.holds - 1 = s.body.holds + 0 + s.recovery.holds
    omega
  · refine (h.owed ho hl).imp (fun hl => ?_) id
    rw [hh] at hl
    cases hl

theorem inv_recoveryDrop (h : Inv s) (hr : s.recovery = .dropping) :
    Inv { s.drop with recovery := .finished } := by
  have hholds : s.att.holds = s.body.holds + s.handler.holds + 1 := by
    rw [h.holds, hr]
    rfl
  obtain ⟨hclaim, hrel⟩ := h.drop_claim (by omega)
  refine { h with
    holds := ?_
    claim := hclaim
    releases := hrel
    alone := fun ha => ?_
    handed := fun _ => h.handed (by rw [hr]; nofun)
    owed := fun ho hl => ?_
    body := { h.body with } }
  · show s.att.holds - 1 = s.body.holds + s.handler.holds + 0
    omega
  · have := (h.alone ha).2
    rw [hr] at this
    cases this
  · refine (h.owed ho hl).imp id fun ho => ?_
    rw [hr] at ho
    cases ho

theorem inv_handlerStep (h : Inv s) : Inv (handlerStep s) := by
  have hstep : ∀ {k k' : Handler}, s.handler = k → k'.holds = k.holds → k'.admitted = k.admitted →
      k'.looked = k.looked → Inv { s with handler := k' } := fun hh hho ha hl =>
    h.handle (hh ▸ hho) (hh ▸ ha) (hh ▸ hl)
  cases hh : s.handler with
  | waiting | expired | restoring r =>
    simp only [handlerStep, hh]
    exact hstep hh rfl rfl rfl
  | deciding =>
    simp only [handlerStep, hh]
    split_ifs with hc
    · exact (h.ask (.inl hc)).handle (hh ▸ rfl) (hh ▸ rfl) (hh ▸ rfl)
    · have hab := h.abandon (Bool.eq_false_iff.mpr hc)
      exact hab.handle (hh ▸ rfl) (hh ▸ rfl) (hh ▸ rfl)
  | finishing r =>
    simp only [handlerStep, hh]
    split_ifs with ho
    · exact inv_recover h hh
    · exact inv_notOwed h hh (Bool.eq_false_iff.mpr ho)
  | dropping r =>
    simp only [handlerStep, hh]
    exact inv_handlerDrop h hh
  | _ =>
    simp only [handlerStep, hh]
    exact h

theorem Inv.recover {c : Recovery} (h : Inv s) (hc : c.holds = s.recovery.holds) (hr : s.recovery ≠ .none)
    (ho : s.owes = true → s.late = false → s.handler.looked = false ∨ c.owes = true) :
    Inv { s with recovery := c } :=
  { h with
    holds := by
      show s.att.holds = _ + _ + c.holds
      rw [hc, h.holds]
    alone := fun ha => absurd (h.alone ha).2 hr
    handed := fun _ => h.handed hr
    owed := ho
    body := { h.body with } }

theorem inv_recoveryStep (h : Inv s) : Inv (recoveryStep s x) := by
  cases hr : s.recovery with
  | dialing =>
    simp only [recoveryStep, hr]
    split_ifs
    · exact h.recover (by rw [hr]; rfl) (by rw [hr]; nofun) fun _ _ => .inr rfl
    · exact h.tried.recover (congrArg Recovery.holds hr).symm (fun hn => by rw [hr] at hn; cases hn) nofun
  | sending =>
    simp only [recoveryStep, hr]
    exact h.tried.recover (congrArg Recovery.holds hr).symm (fun hn => by rw [hr] at hn; cases hn) nofun
  | dropping =>
    simp only [recoveryStep, hr]
    exact inv_recoveryDrop h hr
  | _ =>
    simp only [recoveryStep, hr]
    exact h

/-! ## Runs -/

theorem inv_accept (running : Bool) (h : Inv s) (hh : s.handler = .start) : Inv (post s (.accept running)) := by
  obtain ⟨hb, hr⟩ := h.alone (by rw [hh]; rfl)
  have hholds := h.holds
  have hrel := h.releases
  have hclaim := h.claim
  rw [hb, hh, hr] at hholds
  have hholds : s.att.holds = 0 := hholds
  have hrel0 : s.releases = 0 := by
    rw [hh] at hrel
    have hrel : s.releases + _ = 0 := hrel
    omega
  have hearly := h.body.early (by rw [hb]; rfl)
  exact { h with
    holds := by
      show 2 = 1 + 1 + s.recovery.holds
      rw [hr]
      rfl
    claim := by simp [post]
    releases := by
      show s.releases + 1 = 1
      omega
    alone := nofun
    handed := fun hne => absurd hr hne
    owed := fun ho => absurd (hearly.1.symm.trans ho) (by simp)
    body := ⟨nofun, fun _ => hearly, nofun, nofun, fun ho => absurd (hearly.1.symm.trans ho) (by simp), nofun⟩ }

theorem inv_post {a : Action} (h : Inv s) (hpre : pre s a) : Inv (post s a) := by
  cases a with
  | accept running => exact inv_accept running h hpre
  | refuse =>
    have hpre : s.handler = .start := hpre
    exact h.handle (by rw [hpre]; rfl) (by rw [hpre]; rfl) (by rw [hpre]; rfl)
  | expire => exact h.expire
  | body x => exact inv_bodyStep h hpre.1
  | take =>
    rcases hpre.1 with hh | hh <;> exact h.handle (by rw [hh]; rfl) (by rw [hh]; rfl) (by rw [hh]; rfl)
  | handler | timeout => exact inv_handlerStep h
  | recovery x => exact inv_recoveryStep h

theorem inv_reach (h : command.Reach Machine.Any start s) : Inv s :=
  h.invariant inv_start fun _ _ hi hpre _ => inv_post hi hpre

/-- The body has exited, the handler has answered and no recovery is left. -/
def State.finished (s : State) : Prop :=
  s.handler.admitted = true ∧ s.body.holds = 0 ∧ s.handler.holds = 0 ∧ s.recovery.holds = 0

instance (s : State) : Decidable s.finished := inferInstanceAs (Decidable (_ ∧ _))

theorem Handler.looked_of_holds {k : Handler} (ha : k.admitted = true) (hk : k.holds = 0) : k.looked = true := by
  cases k <;> simp_all [Handler.admitted, Handler.holds, Handler.looked]

theorem Recovery.owes_of_holds {c : Recovery} (hc : c.holds = 0) : c.owes = false := by
  cases c <;> simp_all [Recovery.holds, Recovery.owes]

theorem Body.owes_of_holds {running : Bool} (hb : b.holds = 0) : b.owes running = false := by
  cases b <;> simp_all [Body.holds, Body.owes]

theorem releases_eq_one (h : Inv s) : s.releases = 1 ↔ s.finished := by
  have hholds := h.holds
  have hrel := h.releases
  by_cases hc : s.claim = true
  · have hpos := h.claim.mp hc
    have hle : (if s.handler.admitted then 1 else 0) ≤ 1 := by split_ifs <;> omega
    rw [if_pos hc] at hrel
    refine ⟨fun h1 => by omega, fun ⟨_, hb, hh, hr⟩ => by omega⟩
  · have hzero : s.att.holds = 0 := by
      by_contra hne
      exact hc (h.claim.mpr (Nat.pos_of_ne_zero hne))
    rw [if_neg hc] at hrel
    have hiff : s.releases = 1 ↔ s.handler.admitted = true := by
      rw [Nat.add_zero] at hrel
      rw [hrel]
      split_ifs with ha <;> simp [ha]
    rw [hiff]
    exact ⟨fun ha => ⟨ha, by omega, by omega, by omega⟩, And.left⟩

/-- **One snapshot command.** Commit and abandon exclude each other, and once one of the two was called
one is decided. The claim is released once, when the body, the handler and its recovery have finished.
An abandoned body leaves the scratch as it is. By the release a save-on was tried after a save-off that
was sent, unless its reply was lost and it went out after the handler had asked what is owed. -/
theorem snapshot_command (h : command.Reach Machine.Any start s) :
    (¬ (s.att.committed = true ∧ s.att.abandoned = true) ∧
      (s.asked = true → s.att.committed = true ∨ s.att.abandoned = true)) ∧
    (s.releases ≤ 1 ∧ (s.releases = 1 ↔ s.finished)) ∧
    (s.att.abandoned = true → s.tail = []) ∧
    (s.releases = 1 → s.owes = true → s.late = true ∧ s.replied = false) := by
  have hi := inv_reach h
  have hrel := releases_eq_one hi
  refine ⟨⟨fun ⟨hc, ha⟩ => ?_, hi.asked⟩, ⟨?_, hrel⟩, fun ha => ?_, fun h1 ho => ?_⟩
  · rw [hi.decided hc] at ha
    cases ha
  · have := hi.releases
    split_ifs at this <;> omega
  · by_contra ht
    rw [hi.decided (hi.tail ht)] at ha
    cases ha
  · obtain ⟨hadm, hb, hh, hr⟩ := hrel.mp h1
    refine ⟨?_, ?_⟩
    · -- Otherwise the handler has still to ask, or its recovery to try.
      by_contra hl
      rcases hi.owed ho (Bool.eq_false_iff.mpr hl) with hlook | hrec
      · rw [Handler.looked_of_holds hadm hh] at hlook
        cases hlook
      · rw [Recovery.owes_of_holds hr] at hrec
        cases hrec
    · by_contra hrep
      have howes := hi.body.replied ho (Bool.not_eq_false _ ▸ hrep)
      rw [Body.owes_of_holds hb] at howes
      cases howes

/-- The reply of a save-off is lost, the body gives up, and the handler restores save-on. -/
theorem snapshot_command_lost : ∃ s : State, command.Reach Machine.Any start s ∧
    (s.finished ∧ s.releases = 1 ∧ s.att.dial = true ∧ s.owes = false) ∧
    (¬ (s.att.committed = true ∧ s.att.abandoned = true) ∧
      (s.asked = true → s.att.committed = true ∨ s.att.abandoned = true)) ∧
    (s.releases ≤ 1 ∧ (s.releases = 1 ↔ s.finished)) ∧
    (s.att.abandoned = true → s.tail = []) ∧
    (s.releases = 1 → s.owes = true → s.late = true ∧ s.replied = false) := by
  have hrun : (command.exec
      [.accept true, .body ⟨true, false, 0⟩, .body ⟨true, false, 0⟩, .body ⟨true, false, 0⟩,
        .body ⟨true, false, 0⟩, .expire, .handler, .handler, .handler, .handler, .body ⟨false, false, 0⟩,
        .body ⟨true, false, 0⟩, .recovery ⟨true, false, 0⟩, .recovery ⟨true, false, 0⟩,
        .recovery ⟨true, false, 0⟩, .handler] start).map
      (fun s => decide (s.finished ∧ s.releases = 1 ∧ s.att.dial = true ∧ s.owes = false)) = some true := by
    decide +kernel
  obtain ⟨s, hs, hb⟩ := Machine.reach_of_exec_map hrun
  exact ⟨s, hs, of_decide_eq_true hb, snapshot_command hs⟩

/-- **Neither is decided** for a body that fails within the deadline. -/
theorem failure_undecided : ∃ s : State, command.Reach Machine.Any start s ∧
    s.finished ∧ s.handler = .answered .transferFailed ∧ s.att.committed = false ∧ s.att.abandoned = false := by
  have hrun : (command.exec
      [.accept true, .body ⟨true, false, 0⟩, .body ⟨false, false, 0⟩, .body ⟨true, false, 0⟩,
        .body ⟨true, false, 0⟩, .take, .handler, .handler] start).map
      (fun s => decide (s.finished ∧ s.handler = .answered .transferFailed ∧ s.att.committed = false ∧
        s.att.abandoned = false)) = some true := by
    decide +kernel
  obtain ⟨s, hs, hb⟩ := Machine.reach_of_exec_map hrun
  exact ⟨s, hs, of_decide_eq_true hb⟩

/-- **A save-off is left standing**: the request is cancelled before the body records its save-off, the
handler sees nothing owed, and the body loses the reply of what it sends after that. -/
theorem saveOff_left : ∃ s : State, command.Reach Machine.Any start s ∧
    s.finished ∧ s.releases = 1 ∧ s.owes = true := by
  have hrun : (command.exec
      [.accept true, .body ⟨true, false, 0⟩, .body ⟨true, false, 0⟩, .expire, .handler, .handler, .handler,
        .handler, .handler, .body ⟨true, false, 0⟩, .body ⟨true, false, 0⟩, .body ⟨false, false, 0⟩,
        .body ⟨true, false, 0⟩, .body ⟨true, false, 0⟩] start).map
      (fun s => decide (s.finished ∧ s.releases = 1 ∧ s.owes = true)) = some true := by
    decide +kernel
  obtain ⟨s, hs, hb⟩ := Machine.reach_of_exec_map hrun
  exact ⟨s, hs, of_decide_eq_true hb⟩

end McServerDashboard.Worker.Snapshot
