import McServerDashboard.Relay.Protocol

/-!
# A login through the relay

What `handle` does with the connection of a player: it parses the handshake and the login start, asks for the decision,
waits for the tunnel, and writes to it the raw packets, what the buffer still holds and all that the client sends
afterwards.

* `handle`, `spliceLogin`, `copyWithProgressDeadlines`: the relay's side of one connection.
* `Carries`: a client that begins with a well-formed handshake and login start.
* **`client_bytes`**: after the acknowledgement the tunnel gets the client's bytes from the first one on.
-/

namespace McServerDashboard.Relay.Game

open Lib Protocol

/-! ## The listener -/

/-- `OK\n`, by which the relay accepts a tunnel. -/
def ack : List UInt8 := [0x4F, 0x4B, 0x0A]

inductive Decision
  | tunnel (serverID token : String)
  | stopped (displayName : String)
  /-- Not found, or unknown. -/
  | other

/-- What the listener gets of its caps, the resolver and the tunnel listener. -/
structure Env where
  ip : String
  acquire : Bool
  /-- `MatchSlug` of a server address. -/
  matchSlug : List UInt8 → Option String
  allowJoin : Bool
  /-- `ResolveJoin` of a slug; none is an error. -/
  resolveJoin : String → Option Decision
  /-- `awaitTunnel` of a token: which writes fail on the connection that dials back, if one does. -/
  awaitTunnel : String → Option (ℕ → Option ℕ)
  /-- Nothing has cancelled the context before the splice. -/
  stop : Bool

structure Session where
  serverID : String
  slug : String
  playerIP : String
  username : List UInt8
  playerUUID : List UInt8

inductive Outcome
  | dropped
  /-- `handleStatus` serves the connection. -/
  | status (hs : Handshake)
  | disconnected (reason : String)
  /-- A write before the splice has failed. -/
  | lost (tconn : Sink UInt8)
  /-- The splice is done; `clean` where the client has closed its side. -/
  | spliced (session : Session) (clean : Bool) (tconn : Sink UInt8)

/-- The tunnel's connection, if there was one. -/
def Outcome.tconn : Outcome → Option (Sink UInt8)
  | .lost tconn | .spliced _ _ tconn => some tconn
  | _ => none

/-- `mc.StoppedMOTD`. -/
def StoppedMOTD (displayName : String) : String := displayName ++ " — stopped. Start it from the dashboard."

/-- `ConfirmAndAttach` and the blocks to replay. -/
def writePreSplice (stop : Bool) (tconn : Sink UInt8) (replay : List (List UInt8)) : Bool × Sink UInt8 :=
  match tconn.write ack with
  | (false, tconn) => (false, tconn)
  | (true, tconn) =>
    let (sent, tconn) := tconn.writeAll replay
    (stop && sent, tconn)

/-- The splice from the client to the tunnel; true at the end of the client's bytes. -/
def copyWithProgressDeadlines (dst : Sink UInt8) (src : Source UInt8) : Bool × Sink UInt8 :=
  match _h : src.read (32 * 1024) with
  | .error e => (e == .eof, dst)
  | .ok (got, src') =>
    match dst.write got with
    | (false, dst) => (false, dst)
    | (true, dst) => copyWithProgressDeadlines dst src'
termination_by src.rest.length
decreasing_by
  have := (Source.length_of_read _h (by decide)).1
  rw [Source.rest_of_read _h, List.length_append]
  omega

def spliceLogin (env : Env) (r : Reader UInt8) (hs : Handshake) (login : LoginStart) (serverID slug token : String) :
    Outcome :=
  match env.awaitTunnel token with
  | none => .disconnected "Could not reach the server — please try again shortly."
  | some fails =>
    -- Bytes that the client has pipelined are in the buffer, and no later read of the connection gives them.
    let replay := [hs.Raw, login.Raw] ++ if 0 < r.buf.length then [r.buf] else []
    match writePreSplice env.stop ⟨[], 0, fails⟩ replay with
    | (false, tconn) => .lost tconn
    | (true, tconn) =>
      let (clean, tconn) := copyWithProgressDeadlines tconn r.source
      .spliced ⟨serverID, slug, env.ip, login.Name, login.UUID⟩ clean tconn

def handleLogin (env : Env) (r : Reader UInt8) (hs : Handshake) (slug : String) : Outcome :=
  if env.allowJoin then
    match (readLoginStart hs.ProtocolVersion).run r with
    | .error _ => .dropped
    | .ok (login, r) =>
      match env.resolveJoin slug with
      | none => .disconnected "Dashboard unavailable — please try again shortly."
      | some (.tunnel serverID token) => spliceLogin env r hs login serverID slug token
      | some (.stopped displayName) => .disconnected (StoppedMOTD displayName)
      | some .other => .dropped
  else .dropped

def handle (env : Env) (conn : Source UInt8) : Outcome :=
  if env.acquire then
    match readHandshake.run (⟨MaxPreRouteBytes, [], conn, by decide⟩ : Reader UInt8) with
    | .error _ => .dropped
    | .ok (hs, r) =>
      match env.matchSlug hs.ServerAddress with
      | none => .dropped
      | some slug => if hs.IsLogin then handleLogin env r hs slug else .status hs
  else .dropped

/-! ## What the tunnel gets -/

variable {src : Source UInt8} {dst tconn : Sink UInt8} {replay : List (List UInt8)} {stop : Bool} {env : Env}
  {r : Reader UInt8} {hs : Handshake} {login : LoginStart} {serverID slug token : String}

/-- The splice adds a beginning of what the client sends. -/
theorem copy_prefix (dst : Sink UInt8) (src : Source UInt8) :
    (copyWithProgressDeadlines dst src).2.written <+: dst.written ++ src.rest := by
  fun_induction copyWithProgressDeadlines dst src with
  | case1 => exact List.prefix_append _ _
  | case2 dst src got src' hread dst' hw =>
    have := dst.written_prefix_write got
    rw [hw] at this
    rw [Source.rest_of_read hread, ← List.append_assoc]
    exact this.trans (List.prefix_append _ _)
  | case3 dst src got src' hread dst' hw ih =>
    rw [Source.rest_of_read hread, ← List.append_assoc, ← Sink.written_of_write hw]
    exact ih

/-- Where nothing fails, the splice adds all that the client sends. -/
theorem copy_of_sound (hsrc : src.Sound) (hdst : dst.Sound) :
    ∃ dst', copyWithProgressDeadlines dst src = (true, dst') ∧ dst'.written = dst.written ++ src.rest := by
  fun_induction copyWithProgressDeadlines dst src with
  | case1 dst src e hread =>
    by_cases hrest : src.rest = []
    · have he : e = .eof := by
        obtain ⟨k, hk⟩ := Option.ne_none_iff_exists'.mp (hsrc src.reads)
        rw [Source.read, hk, hrest] at hread
        cases hread
        rfl
      exact ⟨dst, by rw [he]; rfl, by rw [hrest, List.append_nil]⟩
    · obtain ⟨got, src', h⟩ := hsrc.read (n := 32 * 1024) hrest
      rw [hread] at h
      cases h
  | case2 dst src got src' hread dst' hw =>
    rw [hdst.write] at hw
    cases hw
  | case3 dst src got src' hread dst' hw ih =>
    rw [hdst.write] at hw
    cases hw
    obtain ⟨dst'', h, hwritten⟩ := ih (hsrc.of_read hread) hdst
    exact ⟨dst'', h, by rw [hwritten, Source.rest_of_read hread, List.append_assoc]⟩

theorem writePreSplice_prefix (stop : Bool) (tconn : Sink UInt8) (replay : List (List UInt8)) :
    (writePreSplice stop tconn replay).2.written <+: tconn.written ++ (ack ++ replay.flatten) := by
  unfold writePreSplice
  have hack := tconn.written_prefix_write ack
  rw [← List.append_assoc]
  cases h : tconn.write ack with
  | mk sent t =>
    rw [h] at hack
    cases sent with
    | false => exact hack.trans (List.prefix_append _ _)
    | true =>
      rw [← Sink.written_of_write h]
      exact t.written_prefix_writeAll replay

theorem written_of_writePreSplice {t : Sink UInt8} (h : writePreSplice stop tconn replay = (true, t)) :
    t.written = tconn.written ++ (ack ++ replay.flatten) := by
  unfold writePreSplice at h
  split at h
  · cases h
  next t' hack =>
    cases hall : t'.writeAll replay with
    | mk sent t'' =>
      rw [hall] at h
      simp only [Prod.mk.injEq, Bool.and_eq_true] at h
      obtain ⟨⟨-, rfl⟩, rfl⟩ := h
      rw [Sink.written_of_writeAll hall, Sink.written_of_write hack, List.append_assoc]

/-- The blocks of the replay are the two packets and what the buffer holds. -/
theorem flatten_replay (buf : List UInt8) :
    ([hs.Raw, login.Raw] ++ if 0 < buf.length then [buf] else []).flatten = hs.Raw ++ (login.Raw ++ buf) := by
  cases buf <;> simp

theorem spliceLogin_prefix (h : (spliceLogin env r hs login serverID slug token).tconn = some tconn) :
    tconn.written <+: ack ++ (hs.Raw ++ (login.Raw ++ r.bytes)) := by
  unfold spliceLogin at h
  split at h
  · cases h
  next fails _ =>
    dsimp only at h
    have hpre := writePreSplice_prefix env.stop ⟨[], 0, fails⟩
      ([hs.Raw, login.Raw] ++ if 0 < r.buf.length then [r.buf] else [])
    rw [flatten_replay, List.nil_append] at hpre
    split at h
    next t hw =>
      cases h
      rw [hw] at hpre
      simp only [Reader.bytes, ← List.append_assoc] at hpre ⊢
      exact hpre.trans (List.prefix_append _ _)
    next t hw =>
      cases h
      have hwritten := written_of_writePreSplice hw
      rw [flatten_replay, List.nil_append] at hwritten
      have hcopy := copy_prefix t r.source
      rw [hwritten] at hcopy
      simpa only [Reader.bytes, List.append_assoc] using hcopy

theorem writePreSplice_of_sound (replay : List (List UInt8)) (h : tconn.Sound) :
    ∃ t, writePreSplice true tconn replay = (true, t) ∧ t.Sound := by
  have hk : Sink.Sound { tconn with written := tconn.written ++ ack, writes := tconn.writes + 1 } := h
  obtain ⟨t, hall, ht⟩ := hk.writeAll replay
  refine ⟨t, ?_, ht⟩
  rw [writePreSplice, h.write]
  simp only [hall, Bool.and_self]

theorem spliceLogin_whole (hs : Handshake) (login : LoginStart) (serverID slug : String) {fails : ℕ → Option ℕ}
    (hr : r.source.Sound) (htoken : env.awaitTunnel token = some fails) (hfails : ∀ i, fails i = none) (hstop : env.stop = true) :
    ∃ session t, spliceLogin env r hs login serverID slug token = .spliced session true t ∧
      t.written = ack ++ (hs.Raw ++ (login.Raw ++ r.bytes)) := by
  have hfresh : Sink.Sound (⟨[], 0, fails⟩ : Sink UInt8) := hfails
  obtain ⟨t, hpre, ht⟩ := writePreSplice_of_sound
    ([hs.Raw, login.Raw] ++ if 0 < r.buf.length then [r.buf] else []) hfresh
  obtain ⟨t', hcopy, hwritten⟩ := copy_of_sound hr ht
  refine ⟨⟨serverID, slug, env.ip, login.Name, login.UUID⟩, t', ?_, ?_⟩
  · simp only [spliceLogin, htoken, hstop, hpre, hcopy]
  · rw [hwritten, written_of_writePreSplice hpre, flatten_replay]
    simp only [Reader.bytes, List.nil_append, List.append_assoc]

/-- A client that begins with a well-formed handshake and login start. -/
structure Carries (client : List UInt8) (hs : Handshake) (login body rest : List UInt8) : Prop where
  split : client = hs.Raw ++ (login ++ rest)
  handshake : ∃ body, Framed MaxPreRouteBytes hs.Raw body ∧ HandshakeBody body hs
  isLogin : hs.IsLogin = true
  login : Framed MaxPreRouteBytes login body

/-- The relay lets the login through, and no write to the tunnel fails. -/
structure Accepts (env : Env) (hs : Handshake) : Prop where
  acquire : env.acquire = true
  allowJoin : env.allowJoin = true
  decision : ∃ slug serverID token fails, env.matchSlug hs.ServerAddress = some slug ∧
    env.resolveJoin slug = some (.tunnel serverID token) ∧ env.awaitTunnel token = some fails ∧ ∀ i, fails i = none
  stop : env.stop = true

structure Pristine (env : Env) (client : Source UInt8) : Prop where
  /-- Whatever happens, what the tunnel gets after the acknowledgement is a beginning of the client's bytes. -/
  begins : ∀ tconn, (handle env client).tconn = some tconn → tconn.written <+: ack ++ client.rest
  /-- Where nothing fails, it is all of them. -/
  whole : ∀ hs login body rest, Carries client.rest hs login body rest → client.Sound → Accepts env hs →
    ∃ session tconn, handle env client = .spliced session true tconn ∧ tconn.written = ack ++ client.rest

theorem handle_prefix {client : Source UInt8} (h : (handle env client).tconn = some tconn) :
    tconn.written <+: ack ++ client.rest := by
  unfold handle at h
  split_ifs at h
  · split at h
    · cases h
    next hs r hread =>
      obtain ⟨xs, hxs, rfl⟩ := readHandshake_takes _ _ _ hread
      split at h
      · cases h
      · split_ifs at h
        · unfold handleLogin at h
          split_ifs at h
          · split at h
            · cases h
            next login r' hread' =>
              obtain ⟨ys, hys, rfl⟩ := readLoginStart_takes _ _ _ _ hread'
              split at h
              · cases h
              · have hbytes : client.rest = hs.Raw ++ (login.Raw ++ r'.bytes) := by
                  rw [← show r.bytes = login.Raw ++ r'.bytes from hys]
                  exact hxs
                rw [hbytes]
                exact spliceLogin_prefix h
              · cases h
              · cases h
          · cases h
        · cases h
  · cases h

/-- **The tunnel gets the client's bytes**, whatever their chunks. -/
theorem client_bytes (env : Env) (client : Source UInt8) : Pristine env client where
  begins _ := handle_prefix
  whole hs login body rest hc hsound ha := by
    obtain ⟨hbody, hframed, hhs⟩ := hc.handshake
    obtain ⟨slug, serverID, token, fails, hslug, hjoin, htoken, hfails⟩ := ha.decision
    obtain ⟨r, hread, hr, hbytes⟩ := readHandshake_reads hframed hhs
      (⟨MaxPreRouteBytes, [], client, by decide⟩ : Reader UInt8) (login ++ rest) hsound hc.split
    obtain ⟨r', hread', hr', hbytes'⟩ := readLoginStart_reads hs.ProtocolVersion hc.login r rest hr hbytes
    obtain ⟨session, t, hsplice, hwritten⟩ := spliceLogin_whole hs
      (parseLoginStart hs.ProtocolVersion login body) serverID slug hr' htoken hfails ha.stop
    refine ⟨session, t, ?_, ?_⟩
    · simp only [handle, ha.acquire, ↓reduceIte, hread, hslug, hc.isLogin, handleLogin, ha.allowJoin, hread', hjoin]
      exact hsplice
    · rw [hwritten, hc.split, raw_parseLoginStart, show r'.bytes = rest from hbytes']

/-- A length in two bytes where one would do, a login start that cannot be parsed, a byte after it, all in one chunk. -/
theorem client_bytes_pipelined : ∃ session tconn,
    handle ⟨"ip", true, fun _ => some "slug", true, fun _ => some (.tunnel "server" "token"),
        fun _ => some fun _ => none, true⟩
      ⟨[0x87, 0, 0, 5, 1, 0x61, 0, 0, 2, 1, 9, 42], 0, fun _ => some 1000⟩ = .spliced session true tconn ∧
      tconn.written = ack ++ [0x87, 0, 0, 5, 1, 0x61, 0, 0, 2, 1, 9, 42] := by
  have hone : ∀ b : UInt8, b &&& 0x80 = 0 → ∀ v, (varIntValue 0 [b]).toInt32 = v → IsVarInt [b] v :=
    fun b hb v hv => ⟨Nat.succ_le_succ (Nat.zero_le 4), ⟨[], b, rfl, by simp, hb⟩, hv⟩
  refine (client_bytes _ _).whole ⟨5, [0x61], 0, 2, [0x87, 0, 0, 5, 1, 0x61, 0, 0, 2]⟩ [1, 9] [9] [42] ⟨rfl,
    ⟨[0, 5, 1, 0x61, 0, 0, 2], ⟨⟨[0x87, 0], 7, rfl, ?_, by decide⟩, by decide, by decide⟩, ?_⟩, by decide,
    ⟨⟨[1], 1, rfl, hone _ (by decide) _ (by decide), by decide⟩, by decide, by decide⟩⟩
    (fun _ => Option.some_ne_none _) ⟨rfl, rfl, ⟨"slug", "server", "token", _, rfl, rfl, rfl, fun _ => rfl⟩, rfl⟩
  · exact ⟨by decide, ⟨[0x87], 0, rfl, fun b hb => by rw [List.mem_singleton.mp hb]; decide, by decide⟩,
      by decide⟩
  · exact ⟨[0], [5], [1, 0x61], 0, 0, [2], [], rfl, hone _ (by decide) _ (by decide), hone _ (by decide) _ (by decide),
      ⟨⟨[1], 1, rfl, hone _ (by decide) _ (by decide), by decide⟩, by decide⟩, by decide,
      hone _ (by decide) _ (by decide)⟩

end McServerDashboard.Relay.Game
