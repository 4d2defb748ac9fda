import Mathlib.Logic.Function.Basic
import Mathlib.Tactic.Tauto
import McServerDashboard.Lib.AnyOrder
import McServerDashboard.Properties.Reader
import McServerDashboard.Schedules.Entities

/-!
# The session sink of the API

Reports of started and ended sessions, written into the table `game_session` as upserts. The relay repeats them, and
they come in any order.

* `recordStart`, `recordEnd`: `ServersSessionSink`, over the rows of the table by their id.
* `OneSession`: the reports of one session differ only in being its start or its end.
* `reported`: the row of a session whose start and end have come, or one of them.
* **`record_order`**: the rows depend only on which reports have come, and are those.
-/

namespace McServerDashboard.Relay.SessionSink

open Lib Properties Schedules

/-! ## Rows and reports -/

/-- A `SessionStart`; `username` and `playerUuid` are what the client claims. -/
structure SessionStart where
  sessionId : Str
  serverId : Str
  hostname : Str
  playerIp : Str
  username : Option Str
  playerUuid : Option Str
  startedAt : Instant
  source : Option Str
  deriving DecidableEq

/-- An event of `ReportSessions`. -/
inductive Report
  | start (s : SessionStart)
  | ended (sessionId : Str) (endedAt : Instant)
  deriving DecidableEq

/-- A `GameSessionModel`, but for its id. -/
structure GameSession (Uuid Inet : Type) where
  serverId : Option Uuid
  hostname : Option Str
  playerIp : Option Inet
  username : Option Str
  playerUuid : Option Uuid
  startedAt : Option Instant
  endedAt : Option Instant
  source : Option Str
  deriving DecidableEq

abbrev Table (Uuid Inet : Type) := Uuid → Option (GameSession Uuid Inet)

/-- What the statements ask of the language and of the database. -/
structure Db (Uuid Inet : Type) where
  /-- `uuid.UUID`, which raises `ValueError`. -/
  uuid : Str → Option Uuid
  /-- An `INET`; what is none fails as a `DataError`. -/
  inet : Str → Option Inet
  /-- The servers that exist; any other violates the foreign key. -/
  server : Uuid → Bool

def usernameMax : ℕ := 16

def hostnameMax : ℕ := 253

variable {Uuid Inet : Type} [DecidableEq Uuid] (db : Db Uuid Inet)

/-! ## The statements -/

/-- `INSERT ... ON CONFLICT (id) DO UPDATE`: what `f` makes of the row that is there, or of none. -/
def upsert (table : Table Uuid Inet) (id : Uuid) (f : Option (GameSession Uuid Inet) → GameSession Uuid Inet) :
    Table Uuid Inet := Function.update table id (some (f (table id)))

/-- The row of a start: a recorded start stays, and so does an end. -/
def startRow (start : SessionStart) (server : Uuid) (ip : Inet) (row : Option (GameSession Uuid Inet)) : GameSession Uuid Inet :=
  let new : GameSession Uuid Inet :=
    { serverId := some server
      hostname := some (start.hostname.take hostnameMax)
      playerIp := some ip
      username := start.username.map (·.take usernameMax)
      playerUuid := start.playerUuid.bind db.uuid
      startedAt := some start.startedAt
      endedAt := none
      source := start.source }
  match row with
  | none => new
  | some old => if old.startedAt = none then { new with endedAt := old.endedAt } else old

/-- `record_start`; what cannot be stored is dropped. -/
def recordStart (table : Table Uuid Inet) (start : SessionStart) : Table Uuid Inet :=
  match db.uuid start.sessionId, db.uuid start.serverId, db.inet start.playerIp with
  | some id, some server, some ip => if db.server server then upsert table id (startRow db start server ip) else table
  | _, _, _ => table

/-- The row of an end: a placeholder if there is none, and a recorded end stays. -/
def endRow (endedAt : Instant) : Option (GameSession Uuid Inet) → GameSession Uuid Inet
  | none => ⟨none, none, none, none, none, none, some endedAt, none⟩
  | some old => if old.endedAt = none then { old with endedAt := some endedAt } else old

/-- `record_end`. -/
def recordEnd (table : Table Uuid Inet) (sessionId : Str) (endedAt : Instant) : Table Uuid Inet :=
  match db.uuid sessionId with
  | some id => upsert table id (endRow endedAt)
  | none => table

def record (table : Table Uuid Inet) : Report → Table Uuid Inet
  | .start s => recordStart db table s
  | .ended sessionId endedAt => recordEnd db table sessionId endedAt

/-- A session starts once and ends once. -/
structure OneSession (reports : List Report) : Prop where
  starts : ∀ s s' id, .start s ∈ reports → .start s' ∈ reports → db.uuid s.sessionId = some id →
    db.uuid s'.sessionId = some id → s = s'
  ends : ∀ i i' e e' id, .ended i e ∈ reports → .ended i' e' ∈ reports → db.uuid i = some id → db.uuid i' = some id → e = e'

/-- The report is a start of the session `id` that can be stored, with the server and the address it names. -/
def Report.Starts (r : Report) (id : Uuid) (x : SessionStart × Uuid × Inet) : Prop :=
  r = .start x.1 ∧ db.uuid x.1.sessionId = some id ∧ db.uuid x.1.serverId = some x.2.1 ∧
    db.inet x.1.playerIp = some x.2.2 ∧ db.server x.2.1 = true

/-- The report is an end of the session `id`. -/
def Report.Ends (r : Report) (id : Uuid) (endedAt : Instant) : Prop :=
  ∃ sessionId, r = .ended sessionId endedAt ∧ db.uuid sessionId = some id

/-- The row of a session, given its start and its end as far as they have come. -/
def reported (start : Option (SessionStart × Uuid × Inet)) (ended : Option Instant) : Option (GameSession Uuid Inet) :=
  match start, ended with
  | none, none => none
  | none, some e =>
    some
      { serverId := none
        hostname := none
        playerIp := none
        username := none
        playerUuid := none
        startedAt := none
        endedAt := some e
        source := none }
  | some (s, server, ip), ended =>
    some
      { serverId := some server
        hostname := some (s.hostname.take hostnameMax)
        playerIp := some ip
        username := s.username.map (·.take usernameMax)
        playerUuid := s.playerUuid.bind db.uuid
        startedAt := some s.startedAt
        endedAt := ended
        source := s.source }

/-! ## What a report does -/

variable {db} {table : Table Uuid Inet} {id id' : Uuid} {f g : Option (GameSession Uuid Inet) → GameSession Uuid Inet}

theorem upsert_twice (h : ∀ row, f (some (f row)) = f row) : upsert (upsert table id f) id f = upsert table id f := by
  unfold upsert
  rw [Function.update_self, Function.update_idem, h]

theorem upsert_comm (h : id = id' → ∀ row, g (some (f row)) = f (some (g row))) :
    upsert (upsert table id f) id' g = upsert (upsert table id' g) id f := by
  unfold upsert
  by_cases hid : id = id'
  · subst hid
    rw [Function.update_self, Function.update_self, Function.update_idem, Function.update_idem, h rfl]
  · rw [Function.update_of_ne (Ne.symm hid), Function.update_of_ne hid, Function.update_comm hid]

omit [DecidableEq Uuid] in
theorem startRow_twice (start : SessionStart) (server : Uuid) (ip : Inet) (row : Option (GameSession Uuid Inet)) :
    startRow db start server ip (some (startRow db start server ip row)) = startRow db start server ip row := by
  cases row with
  | none => rfl
  | some old =>
    by_cases hold : old.startedAt = none
    · simp only [startRow, if_pos hold]
      rfl
    · simp only [startRow, if_neg hold]

omit [DecidableEq Uuid] in
theorem endRow_twice (endedAt : Instant) (row : Option (GameSession Uuid Inet)) :
    endRow endedAt (some (endRow endedAt row)) = endRow endedAt row := by
  cases row with
  | none => rfl
  | some old =>
    by_cases hold : old.endedAt = none
    · simp only [endRow, if_pos hold]
      rfl
    · simp only [endRow, if_neg hold]

omit [DecidableEq Uuid] in
/-- The start and the end of a session write different columns. -/
theorem endRow_startRow (start : SessionStart) (server : Uuid) (ip : Inet) (endedAt : Instant)
    (row : Option (GameSession Uuid Inet)) :
    endRow endedAt (some (startRow db start server ip row)) = startRow db start server ip (some (endRow endedAt row)) := by
  cases row with
  | none => rfl
  | some old =>
    obtain ⟨_, _, _, _, _, startedAt, endedAt', _⟩ := old
    cases startedAt <;> cases endedAt' <;> rfl

/-- What a report does to the table: nothing, or an upsert. -/
theorem record_cases (r : Report) :
    (∀ table, record db table r = table) ∨
    (∃ s id server ip, r = .start s ∧ db.uuid s.sessionId = some id ∧ db.uuid s.serverId = some server ∧
      db.inet s.playerIp = some ip ∧ db.server server = true ∧
      ∀ table, record db table r = upsert table id (startRow db s server ip)) ∨
    ∃ i e id, r = .ended i e ∧ db.uuid i = some id ∧ ∀ table, record db table r = upsert table id (endRow e) := by
  cases r with
  | start s =>
    cases hid : db.uuid s.sessionId with
    | none => exact .inl fun table => by simp only [record, recordStart, hid]
    | some id =>
      cases hserver : db.uuid s.serverId with
      | none => exact .inl fun table => by simp only [record, recordStart, hid, hserver]
      | some server =>
        cases hip : db.inet s.playerIp with
        | none => exact .inl fun table => by simp only [record, recordStart, hid, hserver, hip]
        | some ip =>
          cases hfk : db.server server with
          | false => exact .inl fun table => by simp only [record, recordStart, hid, hserver, hip, hfk, Bool.false_eq_true, if_false]
          | true =>
            refine .inr (.inl ⟨s, id, server, ip, rfl, hid, hserver, hip, hfk, fun table => ?_⟩)
            simp only [record, recordStart, hid, hserver, hip, hfk, if_true]
  | ended i e =>
    cases hid : db.uuid i with
    | none => exact .inl fun table => by simp only [record, recordEnd, hid]
    | some id => exact .inr (.inr ⟨i, e, id, rfl, hid, fun table => by simp only [record, recordEnd, hid]⟩)

/-- The same report again changes nothing. -/
theorem record_twice (table : Table Uuid Inet) (r : Report) : record db (record db table r) r = record db table r := by
  rcases @record_cases Uuid Inet _ db r with h | ⟨s, id, server, ip, -, -, -, -, -, h⟩ | ⟨i, e, id, -, -, h⟩
  · rw [h, h]
  · rw [h, h, upsert_twice (startRow_twice s server ip)]
  · rw [h, h, upsert_twice (endRow_twice e)]

/-- **Two reports can come in either order.** -/
theorem record_comm {reports : List Report} (hone : OneSession db reports) {r r' : Report} (hr : r ∈ reports) (hr' : r' ∈ reports)
    (table : Table Uuid Inet) : record db (record db table r) r' = record db (record db table r') r := by
  rcases @record_cases Uuid Inet _ db r with h | ⟨s, id, server, ip, rfl, hid, hserver, hip, -, h⟩ | ⟨i, e, id, rfl, hid, h⟩
  · rw [h, h]
  · rcases @record_cases Uuid Inet _ db r' with h' | ⟨s', id', server', ip', rfl, hid', hserver', hip', -, h'⟩ | ⟨i', e', id', rfl, hid', h'⟩
    · rw [h', h']
    · rw [h, h', h', h, upsert_comm]
      rintro rfl row
      obtain rfl := hone.starts s s' id hr hr' hid hid'
      rw [Option.some.inj (hserver.symm.trans hserver'), Option.some.inj (hip.symm.trans hip')]
    · rw [h, h', h', h, upsert_comm]
      rintro - row
      exact endRow_startRow s server ip e' row
  · rcases @record_cases Uuid Inet _ db r' with h' | ⟨s', id', server', ip', rfl, hid', hserver', hip', -, h'⟩ | ⟨i', e', id', rfl, hid', h'⟩
    · rw [h', h']
    · rw [h, h', h', h, upsert_comm]
      rintro - row
      exact (endRow_startRow s' server' ip' e row).symm
    · rw [h, h', h', h, upsert_comm]
      rintro rfl row
      rw [hone.ends i i' e e' id hr hr' hid hid']

/-- What a report does to the row of a session. -/
theorem record_row (r : Report) (id : Uuid) :
    (∃ x, r.Starts db id x ∧ ∀ table, record db table r id = some (startRow db x.1 x.2.1 x.2.2 (table id))) ∨
    (∃ e, r.Ends db id e ∧ ∀ table, record db table r id = some (endRow e (table id))) ∨
    (∀ x, ¬ r.Starts db id x) ∧ (∀ e, ¬ r.Ends db id e) ∧ ∀ table, record db table r id = table id := by
  cases r with
  | start s =>
    by_cases hs : ∃ x, (Report.start s).Starts db id x
    · obtain ⟨x, hx⟩ := hs
      obtain ⟨hsx, hid, hserver, hip, hfk⟩ := hx
      have hsx : s = x.1 := Report.start.inj hsx
      refine .inl ⟨x, ⟨congrArg Report.start hsx, hid, hserver, hip, hfk⟩, fun table => ?_⟩
      simp only [record, recordStart, hsx, hid, hserver, hip, hfk, if_true, upsert, Function.update_self]
    · refine .inr (.inr ⟨fun x hx => hs ⟨x, hx⟩, fun e he => ?_, fun table => ?_⟩)
      · obtain ⟨i, hi, -⟩ := he
        cases hi
      · rcases @record_cases Uuid Inet _ db (.start s) with h | ⟨s', id', server, ip, hs', hid, hserver, hip, hfk, h⟩ | ⟨i, e, id', hi, -⟩
        · rw [h]
        · rw [h]
          refine Function.update_of_ne (fun heq => hs ?_) _ _
          exact ⟨(s', server, ip), hs', by rw [hid, heq], hserver, hip, hfk⟩
        · cases hi
  | ended i e =>
    by_cases hid : db.uuid i = some id
    · refine .inr (.inl ⟨e, ⟨i, rfl, hid⟩, fun table => ?_⟩)
      simp only [record, recordEnd, hid, upsert, Function.update_self]
    · refine .inr (.inr ⟨fun x hx => ?_, fun e' he => ?_, fun table => ?_⟩)
      · cases hx.1
      · obtain ⟨i', hi, hid'⟩ := he
        cases hi
        exact hid hid'
      · rcases @record_cases Uuid Inet _ db (.ended i e) with h | ⟨s, id', server, ip, hs, -⟩ | ⟨i', e', id', hi, hid', h⟩
        · rw [h]
        · cases hs
        · cases hi
          rw [h]
          refine Function.update_of_ne (fun heq => hid ?_) _ _
          rw [hid', heq]

omit [DecidableEq Uuid] in
theorem startRow_reported {start : Option (SessionStart × Uuid × Inet)} {ended : Option Instant}
    {x : SessionStart × Uuid × Inet} (h : ∀ y, start = some y → y = x) :
    some (startRow db x.1 x.2.1 x.2.2 (reported db start ended)) = reported db (some x) ended := by
  cases start with
  | none => cases ended <;> rfl
  | some y =>
    obtain rfl := h y rfl
    cases ended <;> rfl

omit [DecidableEq Uuid] in
theorem endRow_reported {start : Option (SessionStart × Uuid × Inet)} {ended : Option Instant} {e : Instant}
    (h : ∀ e', ended = some e' → e' = e) :
    some (endRow e (reported db start ended)) = reported db start (some e) := by
  cases ended with
  | none => cases start <;> rfl
  | some e' =>
    obtain rfl := h e' rfl
    cases start <;> rfl

/-- An option that holds what satisfies `P`, of which there is at most one. -/
theorem exists_option {α : Type} {P : α → Prop} (h : ∀ x y, P x → P y → x = y) :
    ∃ o : Option α, ∀ x, o = some x ↔ P x := by
  by_cases hx : ∃ x, P x
  · obtain ⟨x, hx⟩ := hx
    exact ⟨some x, fun y => ⟨fun he => Option.some.inj he ▸ hx, fun hy => congrArg some (h x y hx hy)⟩⟩
  · exact ⟨none, fun y => ⟨fun he => (by cases he), fun hy => absurd ⟨y, hy⟩ hx⟩⟩

omit [DecidableEq Uuid] in
theorem OneSession.starts_eq {reports : List Report} (hone : OneSession db reports) {id : Uuid}
    {x y : SessionStart × Uuid × Inet} (hx : ∃ r ∈ reports, r.Starts db id x) (hy : ∃ r ∈ reports, r.Starts db id y) :
    x = y := by
  obtain ⟨r, hr, hrx, hid, hserver, hip, -⟩ := hx
  obtain ⟨r', hr', hry, hid', hserver', hip', -⟩ := hy
  subst hrx hry
  have hs : x.1 = y.1 := hone.starts x.1 y.1 id hr hr' hid hid'
  rw [hs] at hserver hip
  exact Prod.ext hs (Prod.ext (Option.some.inj (hserver.symm.trans hserver')) (Option.some.inj (hip.symm.trans hip')))

omit [DecidableEq Uuid] in
theorem OneSession.ends_eq {reports : List Report} (hone : OneSession db reports) {id : Uuid} {e e' : Instant}
    (he : ∃ r ∈ reports, r.Ends db id e) (he' : ∃ r ∈ reports, r.Ends db id e') : e = e' := by
  obtain ⟨r, hr, i, rfl, hid⟩ := he
  obtain ⟨r', hr', i', rfl, hid'⟩ := he'
  exact hone.ends i i' e e' id hr hr' hid hid'

/-- **The row of a session that was not recorded before is the one that its reports say**, by induction on the reports, the
last one last. -/
theorem foldl_record (table : Table Uuid Inet) {id : Uuid} (hnew : table id = none) (reports : List Report)
    (hone : OneSession db reports) {start : Option (SessionStart × Uuid × Inet)} {ended : Option Instant}
    (hstart : ∀ x, start = some x ↔ ∃ r ∈ reports, r.Starts db id x)
    (hended : ∀ e, ended = some e ↔ ∃ r ∈ reports, r.Ends db id e) :
    reports.foldl (record db) table id = reported db start ended := by
  induction reports using List.reverseRecOn generalizing start ended with
  | nil =>
    have hs : start = none := Option.eq_none_iff_forall_ne_some.mpr fun x hx => by simpa using (hstart x).mp hx
    have he : ended = none := Option.eq_none_iff_forall_ne_some.mpr fun e hx => by simpa using (hended e).mp hx
    rw [hs, he]
    exact hnew
  | append_singleton l r ih =>
    have hl : OneSession db l := by
      refine ⟨fun s s' id hs hs' => ?_, fun i i' e e' id he he' => ?_⟩
      · exact hone.starts s s' id (List.mem_append_left _ hs) (List.mem_append_left _ hs')
      · exact hone.ends i i' e e' id (List.mem_append_left _ he) (List.mem_append_left _ he')
    obtain ⟨start', hstart'⟩ := exists_option (P := fun x => ∃ r ∈ l, r.Starts db id x) fun _ _ => hl.starts_eq
    obtain ⟨ended', hended'⟩ := exists_option (P := fun e => ∃ r ∈ l, r.Ends db id e) fun _ _ => hl.ends_eq
    have hmem : r ∈ l ++ [r] := List.mem_append_right _ (List.mem_singleton.mpr rfl)
    have hleft : ∀ r', r' ∈ l → r' ∈ l ++ [r] := fun _ h => List.mem_append_left _ h
    rw [List.foldl_append, List.foldl_cons, List.foldl_nil]
    have ih := ih hl hstart' hended'
    rcases @record_row Uuid Inet _ db r id with ⟨x, hx, hrow⟩ | ⟨e, he, hrow⟩ | ⟨hx, he, hrow⟩
    · have hs : start = some x := (hstart x).mpr ⟨r, hmem, hx⟩
      have hends : ended = ended' := Option.ext fun e => by
        rw [hended, hended']
        refine ⟨fun h => ?_, fun h => ?_⟩
        · obtain ⟨r', hr', i, hi, hid⟩ := h
          rcases List.mem_append.mp hr' with hr' | hr'
          · exact ⟨r', hr', i, hi, hid⟩
          · obtain rfl := List.mem_singleton.mp hr'
            cases hi.symm.trans hx.1
        · obtain ⟨r', hr', h⟩ := h
          exact ⟨r', hleft r' hr', h⟩
      rw [hrow, ih, hs, hends]
      refine startRow_reported fun y hy => ?_
      obtain ⟨r', hr', h⟩ := (hstart' y).mp hy
      exact hone.starts_eq ⟨r', hleft r' hr', h⟩ ⟨r, hmem, hx⟩
    · have hends : ended = some e := (hended e).mpr ⟨r, hmem, he⟩
      have hs : start = start' := Option.ext fun x => by
        rw [hstart, hstart']
        refine ⟨fun h => ?_, fun h => ?_⟩
        · obtain ⟨r', hr', h⟩ := h
          rcases List.mem_append.mp hr' with hr' | hr'
          · exact ⟨r', hr', h⟩
          · obtain rfl := List.mem_singleton.mp hr'
            obtain ⟨i, hi, -⟩ := he
            cases hi.symm.trans h.1
        · obtain ⟨r', hr', h⟩ := h
          exact ⟨r', hleft r' hr', h⟩
      rw [hrow, ih, hs, hends]
      refine endRow_reported fun e' he' => ?_
      obtain ⟨r', hr', h⟩ := (hended' e').mp he'
      exact hone.ends_eq ⟨r', hleft r' hr', h⟩ ⟨r, hmem, he⟩
    · have hsame : ∀ P : Report → Prop, ¬ P r → ((∃ r' ∈ l ++ [r], P r') ↔ ∃ r' ∈ l, P r') := fun P hP => by
        simp only [List.mem_append, List.mem_singleton, or_and_right, exists_or, exists_eq_left]
        exact or_iff_left hP
      have hs : start = start' := Option.ext fun x => by rw [hstart, hstart', hsame _ (hx x)]
      have hends : ended = ended' := Option.ext fun e => by rw [hended, hended', hsame _ (he e)]
      rw [hrow, ih, hs, hends]

/-- **The rows depend only on which reports have come**, whatever their order and however often each of them has come; and the
row of a session that was not recorded before has the columns of its start, if one has come, and the time of its end, if
that has come. -/
theorem record_order (db : Db Uuid Inet) (table : Table Uuid Inet) {reports reports' : List Report}
    (hone : OneSession db reports) (hsame : ∀ r, r ∈ reports ↔ r ∈ reports') :
    reports.foldl (record db) table = reports'.foldl (record db) table ∧
      ∀ id start ended, table id = none → (∀ x, start = some x ↔ ∃ r ∈ reports, r.Starts db id x) →
        (∀ e, ended = some e ↔ ∃ r ∈ reports, r.Ends db id e) →
        reports.foldl (record db) table id = reported db start ended := by
  refine ⟨?_, fun id start ended hnew hstart hended => foldl_record table hnew reports hone hstart hended⟩
  exact foldl_eq_of_mem_iff (fun _ hr _ hr' table => record_comm hone hr hr' table)
    (fun r _ table => record_twice table r) hsame table

/-! ## An end that comes first -/

def sessionId : Str := str "00000000-0000-4000-8000-000000000001"

def serverId : Str := str "00000000-0000-4000-8000-000000000002"

def localhost : Str := str "127.0.0.1"

/-- A database with one server, and what the two ids and the address are. -/
def database : Db ℕ ℕ where
  uuid s := if s = sessionId then some 0x40008000000000000001 else if s = serverId then some 0x40008000000000000002 else none
  inet s := if s = localhost then some 0x7F000001 else none
  server id := id = 0x40008000000000000002

def login : SessionStart := ⟨sessionId, serverId, str "lobby", localhost, some (str "Steve"), none, 10, some (str "java")⟩

/-- The reports in order, and as they may come. -/
def inOrder : List Report := [.start login, .ended sessionId 20]

def late : List Report := [.ended sessionId 20, .start login, .ended sessionId 20, .start login]

theorem mem_late {r : Report} : r ∈ late ↔ r = .ended sessionId 20 ∨ r = .start login := by
  simp only [late, List.mem_cons, List.not_mem_nil, or_false]
  tauto

theorem starts_late (x : SessionStart × ℕ × ℕ) :
    some (login, 0x40008000000000000002, 0x7F000001) = some x ↔
      ∃ r ∈ late, r.Starts database 0x40008000000000000001 x := by
  refine ⟨fun h => ?_, fun h => ?_⟩
  · obtain rfl := Option.some.inj h
    exact ⟨.start login, mem_late.mpr (.inr rfl), rfl, by decide, by decide, by decide, by decide⟩
  · obtain ⟨r, hr, hrx, -, hserver, hip, -⟩ := h
    rcases mem_late.mp hr with rfl | rfl
    · cases hrx
    · have hs : login = x.1 := Report.start.inj hrx
      rw [← hs] at hserver hip
      have hs2 : some 0x40008000000000000002 = some x.2.1 := (by decide : _ = database.uuid login.serverId).trans hserver
      have hs3 : some 0x7F000001 = some x.2.2 := (by decide : _ = database.inet login.playerIp).trans hip
      exact congrArg some (Prod.ext hs (Prod.ext (Option.some.inj hs2) (Option.some.inj hs3)))

theorem ends_late (e : Instant) : some 20 = some e ↔ ∃ r ∈ late, r.Ends database 0x40008000000000000001 e := by
  refine ⟨fun h => ?_, fun h => ?_⟩
  · obtain rfl := Option.some.inj h
    exact ⟨.ended sessionId 20, mem_late.mpr (.inl rfl), sessionId, rfl, by decide⟩
  · obtain ⟨r, hr, i, rfl, -⟩ := h
    rcases mem_late.mp hr with h | h
    · rw [(Report.ended.inj h).2]
    · cases h

theorem record_order_late :
    late.foldl (record database) (fun _ => none) = inOrder.foldl (record database) (fun _ => none) ∧
      late.foldl (record database) (fun _ => none) 0x40008000000000000001 = some
        { serverId := some 0x40008000000000000002
          hostname := some (str "lobby")
          playerIp := some 0x7F000001
          username := some (str "Steve")
          playerUuid := none
          startedAt := some 10
          endedAt := some 20
          source := some (str "java") } := by
  have hone : OneSession database late := by
    refine ⟨fun s s' id hs hs' _ _ => ?_, fun i i' e e' id he he' _ _ => ?_⟩
    · rcases mem_late.mp hs with hs | hs <;> rcases mem_late.mp hs' with hs' | hs' <;> cases hs <;> cases hs'
      rfl
    · rcases mem_late.mp he with he | he <;> rcases mem_late.mp he' with he' | he' <;> cases he <;> cases he'
      rfl
  have hsame : ∀ r, r ∈ late ↔ r ∈ inOrder := fun r => by
    rw [mem_late]
    simp only [inOrder, List.mem_cons, List.not_mem_nil, or_false]
    tauto
  have h := record_order database (fun _ => none) hone hsame
  exact ⟨h.1, h.2 _ _ _ rfl starts_late ends_late⟩

end McServerDashboard.Relay.SessionSink
