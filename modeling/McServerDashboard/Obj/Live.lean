import McServerDashboard.Obj.FileTree
import McServerDashboard.Obj.Threads

/-!
# The published prefix is whole

The invariant that makes publishes, edits, prunes and sweeps safe together, as long as sweeps and
prunes leave the publishes in progress alone (`Spaced`).

* `Gone`: an object that no publish in progress needs and that is not live; it stays so.
* `Spares`: what a step of one thread leaves to the others.
* **`live_whole`**: the pointer names a prefix that holds the published working set, and what a
  sweep, a reclaim or a prune deletes from is never published later.
-/

namespace McServerDashboard.Obj

open Lib

/-! ## Objects that may be deleted -/

/-- The id is drawn and no publish of it is in progress. -/
structure Out (s : Store) (d : SnapshotId) : Prop where
  drawn : d < s.next
  idle : ∀ e ∈ s.building, e.id ≠ d

/-- The id is drawn and its publish, if it is in progress, will be refused. -/
structure Dead (s : Store) (d : SnapshotId) : Prop where
  drawn : d < s.next
  doomed : ∀ e ∈ s.building, e.id = d → e.doomed s.bound

/-- The object is not live and will not become live. -/
structure Gone (s : Store) (key : Key) : Prop where
  dead : Dead s key.under.id
  notLive : ∀ d, s.bucket.pointer = some d → key.under ≠ .snapshot d

variable {s s' : Store} {t u : ℕ} {d : SnapshotId} {j : Job} {pc : Pc} {key : Key} {e : Build}

theorem Out.dead (h : Out s d) : Dead s d := ⟨h.drawn, fun e he hd => absurd hd (h.idle e he)⟩

theorem Dead.gone_incoming (h : Dead s d) (n : Name) : Gone s ⟨.incoming d, n⟩ :=
  ⟨h, fun _ _ he => by cases he⟩

theorem Dead.gone_snapshot (h : Dead s d) (hp : s.bucket.pointer ≠ some d) (n : Name) :
    Gone s ⟨.snapshot d, n⟩ := by
  refine ⟨h, fun d' hd' he => hp ?_⟩
  cases he
  exact hd'

/-! ## What holds for a thread -/

/-- The publish of `j` in thread `t`. -/
def Job.build (j : Job) (t : ℕ) : Build := ⟨j.d, t, j.base⟩

/-- The publish is in progress. -/
def Own (s : Store) (t : ℕ) (j : Job) : Prop := j.build t ∈ s.building

/-- The generation does not refuse the publish. -/
def Sound (s : Store) (t : ℕ) (j : Job) : Prop := (j.build t).doomed s.bound = false

/-- The copy has every object of the working set. -/
def Complete (s : Store) (j : Job) : Prop := ∀ n, s.bucket.get (.snapshot j.d) n = contentOf j.files n

/-- The request changes an object of the live prefix, or writes pointer or marker again. -/
def Request.OnLive (live : SnapshotId) : Request → Prop
  | put key _ => key.under = .snapshot live
  | copy src dst => src.under = .snapshot live ∧ dst.under = .snapshot live
  | delete key => key.under = .snapshot live
  | point d => d = live
  | unpoint => False
  | mark _ => True

/-- The superseded prefix may be reclaimed. -/
def OldOk (s : Store) (old : Option SnapshotId) : Prop :=
  ∀ o, old = some o → Dead s o ∧ s.bucket.pointer ≠ some o

def AfterOk (s : Store) : After → Prop
  | .old d old => Out s d ∧ OldOk s old
  | .discardIncoming d => Out s d
  | .finish d => Out s d
  | .pruneIncoming _ => s.bucket.pointer = none
  | .pruneLast _ => True

/-- A sweep knows only drawn ids, and those it judged garbage are dead. -/
def SweepOk (s : Store) (todo : List Key) (judged : List (SnapshotId × Bool)) : Prop :=
  (∀ key ∈ todo, key.under.id < s.next) ∧
    ∀ x ∈ judged, x.2 = true → Dead s x.1 ∧ s.bucket.pointer ≠ some x.1

/-- What holds for a thread at each of its positions, the lock apart. -/
def PcOk (s : Store) (t : ℕ) : Pc → Prop
  | .staging j todo => Own s t j ∧ (Sound s t j →
      (∃ done, j.files = done ++ todo ∧ ∀ n, s.bucket.get (.incoming j.d) n = contentOf done n) ∧
        ∀ n, s.bucket.get (.snapshot j.d) n = none)
  | .copying j todo => Own s t j ∧ (Sound s t j →
      (∀ n, s.bucket.get (.incoming j.d) n = contentOf j.files n) ∧
        ∀ n, n ∉ todo → s.bucket.get (.snapshot j.d) n = contentOf j.files n)
  | .locked j => Own s t j ∧ (Sound s t j → Complete s j)
  | .passed j => Own s t j ∧ Sound s t j ∧ Complete s j
  | .flipped j old => Out s j.d ∧ OldOk s old
  | .marked j old => Out s j.d ∧ OldOk s old
  | .reclaim d old => Out s d ∧ OldOk s old
  | .deleting todo after => (∀ key ∈ todo, Gone s key) ∧ AfterOk s after
  | .editing todo => ∃ live g, s.bucket.pointer = some live ∧ (∀ r ∈ todo, r.OnLive live) ∧
      s.bucket.generation ≤ g ∧ ∀ r ∈ todo, ∀ m, r.marked = some m → m = g
  | .pruneList _ => s.bucket.pointer = none
  | .sweeping todo judged => SweepOk s todo judged
  | .condemned key todo judged => Gone s key ∧ SweepOk s todo judged
  | _ => True

/-- The positions that hold the server lock. -/
def Pc.holds : Pc → Bool
  | staging j _ | copying j _ => j.held
  | locked _ | passed _ | flipped _ _ | marked _ _ | editing _ | pruneMark | pruneUnpoint | pruneList _ => true
  | deleting _ (.pruneIncoming _) | deleting _ (.pruneLast _) => true
  | _ => false

/-- How far the generation that the lock's holder promises is ahead. -/
def Pc.gap (pc : Pc) : ℕ := if pc.isUnmarked then 1 else 0

structure Ok (s : Store) (t : ℕ) (pc : Pc) : Prop where
  holds : pc.holds → s.lock = some t
  bound : s.lock = some t → s.bound = s.bucket.generation + pc.gap
  pc : PcOk s t pc

/-- The invariant of the shared store. -/
structure Inv (s : Store) : Prop where
  live : ∀ d, s.bucket.pointer = some d → Out s d ∧ ∀ n, s.bucket.get (.snapshot d) n = s.content n
  keys : ∀ p n, s.bucket.get p n ≠ none → p.id < s.next
  building : ∀ e ∈ s.building, e.id < s.next ∧ e.id ∈ s.active
  unique : ∀ e ∈ s.building, ∀ f ∈ s.building, e.id = f.id → e = f
  free : s.lock = none → s.bound = s.bucket.generation

/-! ## What a step leaves to the others -/

/-- What a step of `t` leaves to the other threads. -/
structure Spares (t : ℕ) (s s' : Store) : Prop where
  next : s.next ≤ s'.next
  lock : ∀ u, u ≠ t → s.lock = some u → s'.lock = some u ∧ s'.bucket.pointer = s.bucket.pointer ∧
    s'.bucket.marker = s.bucket.marker ∧ s'.bound = s.bound
  gain : ∀ u, u ≠ t → s'.lock = some u → s.lock = some u
  keeps : ∀ e ∈ s.building, e.owner ≠ t → e ∈ s'.building
  fresh : ∀ e ∈ s'.building, e ∈ s.building ∨ s.next ≤ e.id
  doomed : ∀ e ∈ s.building, e.doomed s.bound → e.doomed s'.bound
  objs : ∀ e ∈ s.building, e.owner ≠ t → e.doomed s'.bound = false →
    ∀ p, p.id = e.id → ∀ n, s'.bucket.get p n = s.bucket.get p n
  pointer : ∀ d, s'.bucket.pointer = some d → s.bucket.pointer = some d ∨
    ∃ e ∈ s.building, e.id = d ∧ e.doomed s.bound = false

theorem Spares.out (h : Spares t s s') (hd : Out s d) : Out s' d := by
  refine ⟨hd.drawn.trans_le h.next, fun e he => ?_⟩
  rcases h.fresh e he with hold | hnew
  · exact hd.idle e hold
  · rintro rfl
    exact absurd hd.drawn (Nat.not_lt.mpr hnew)

theorem Spares.dead (h : Spares t s s') (hd : Dead s d) : Dead s' d := by
  refine ⟨hd.drawn.trans_le h.next, fun e he hid => ?_⟩
  rcases h.fresh e he with hold | hnew
  · exact h.doomed e hold (hd.doomed e hold hid)
  · subst hid
    exact absurd hd.drawn (Nat.not_lt.mpr hnew)

/-- A dead prefix does not become live. -/
theorem Spares.notLive (h : Spares t s s') (hd : Dead s d) (hp : s.bucket.pointer ≠ some d) :
    s'.bucket.pointer ≠ some d := by
  intro hp'
  rcases h.pointer d hp' with hold | ⟨e, he, hid, hsound⟩
  · exact hp hold
  · rw [hd.doomed e he hid] at hsound
    cases hsound

theorem Spares.oldOk {old : Option SnapshotId} (h : Spares t s s') (ho : OldOk s old) : OldOk s' old :=
  fun o hold => ⟨h.dead (ho o hold).1, h.notLive (ho o hold).1 (ho o hold).2⟩

theorem Spares.gone (h : Spares t s s') (hg : Gone s key) : Gone s' key := by
  refine ⟨h.dead hg.dead, fun d hd he => ?_⟩
  have hid : key.under.id = d := by rw [he]; rfl
  refine h.notLive (d := d) (hid ▸ hg.dead) (fun hp => hg.notLive d hp he) hd

theorem Spares.sweepOk {todo : List Key} {judged : List (SnapshotId × Bool)} (h : Spares t s s')
    (hs : SweepOk s todo judged) : SweepOk s' todo judged :=
  ⟨fun key hk => (hs.1 key hk).trans_le h.next, fun x hx hv =>
    ⟨h.dead (hs.2 x hx hv).1, h.notLive (hs.2 x hx hv).1 (hs.2 x hx hv).2⟩⟩

theorem Spares.own (h : Spares t s s') (hu : u ≠ t) (ho : Own s u j) : Own s' u j := h.keeps _ ho hu

theorem Spares.sound (h : Spares t s s') (ho : Own s u j) (hs : Sound s' u j) : Sound s u j := by
  unfold Sound at hs ⊢
  by_contra hd
  rw [h.doomed _ ho (Bool.eq_true_of_not_eq_false hd)] at hs
  cases hs

/-- The objects of another thread's publish stay as they are. -/
theorem Spares.get (h : Spares t s s') (hu : u ≠ t) (ho : Own s u j) (hs : Sound s' u j) {p : Prefix}
    (hp : p.id = j.d) (n : Name) : s'.bucket.get p n = s.bucket.get p n :=
  h.objs _ ho hu hs p hp n

theorem Spares.complete (h : Spares t s s') (hu : u ≠ t) (ho : Own s u j) (hs : Sound s' u j)
    (hc : Complete s j) : Complete s' j := fun n => by
  rw [h.get hu ho hs rfl]
  exact hc n

/-- **A thread that does not move keeps what holds for it.** -/
theorem Spares.ok (h : Spares t s s') (hu : u ≠ t) (hok : Ok s u pc) : Ok s' u pc := by
  have hheld : pc.holds → s'.lock = some u ∧ s'.bucket.pointer = s.bucket.pointer ∧
      s'.bucket.marker = s.bucket.marker ∧ s'.bound = s.bound := fun hh => h.lock u hu (hok.holds hh)
  refine ⟨fun hh => (hheld hh).1, fun hl => ?_, ?_⟩
  · have hl := h.gain u hu hl
    obtain ⟨-, -, hm, hb⟩ := h.lock u hu hl
    rw [hb, hok.bound hl, Bucket.generation, Bucket.generation, hm]
  · have hpc := hok.pc
    cases pc with
    | staging j todo =>
      refine ⟨h.own hu hpc.1, fun hs => ?_⟩
      obtain ⟨⟨done, hfiles, hin⟩, hsnap⟩ := hpc.2 (h.sound hpc.1 hs)
      refine ⟨⟨done, hfiles, fun n => ?_⟩, fun n => ?_⟩
      · rw [h.get hu hpc.1 hs rfl]
        exact hin n
      · rw [h.get hu hpc.1 hs rfl]
        exact hsnap n
    | copying j todo =>
      refine ⟨h.own hu hpc.1, fun hs => ?_⟩
      obtain ⟨hin, hsnap⟩ := hpc.2 (h.sound hpc.1 hs)
      refine ⟨fun n => ?_, fun n hn => ?_⟩
      · rw [h.get hu hpc.1 hs rfl]
        exact hin n
      · rw [h.get hu hpc.1 hs rfl]
        exact hsnap n hn
    | locked j =>
      exact ⟨h.own hu hpc.1, fun hs => h.complete hu hpc.1 hs (hpc.2 (h.sound hpc.1 hs))⟩
    | passed j =>
      have hs : Sound s' u j := by
        unfold Sound
        rw [(hheld rfl).2.2.2]
        exact hpc.2.1
      exact ⟨h.own hu hpc.1, hs, h.complete hu hpc.1 hs hpc.2.2⟩
    | flipped j old | marked j old | reclaim d old => exact ⟨h.out hpc.1, h.oldOk hpc.2⟩
    | deleting todo after =>
      refine ⟨fun key hk => h.gone (hpc.1 key hk), ?_⟩
      have ha := hpc.2
      cases after with
      | old d old => exact ⟨h.out ha.1, h.oldOk ha.2⟩
      | discardIncoming d => exact h.out ha
      | finish d => exact h.out ha
      | pruneIncoming had => exact (hheld rfl).2.1.trans ha
      | pruneLast had => trivial
    | editing todo =>
      obtain ⟨live, g, hp, hr, hg, hm⟩ := hpc
      obtain ⟨-, hp', hm', -⟩ := hheld rfl
      refine ⟨live, g, hp'.trans hp, hr, ?_, hm⟩
      rw [Bucket.generation, hm']
      exact hg
    | pruneList had => exact (hheld rfl).2.1.trans hpc
    | sweeping todo judged => exact h.sweepOk hpc
    | condemned key todo judged => exact ⟨h.gone hpc.1, h.sweepOk hpc.2⟩
    | _ => trivial

/-! ## Updates of the store -/

section run

variable (s : Store) (r : Request)

end run

variable {r : Request} {k : Bucket}

/-- The requests that stage, copy and delete objects. -/
def Request.OnObject (key : Key) (r : Request) : Prop := r.target = some key

theorem Request.OnObject.pointer (ht : r.OnObject key) (h : r.run s.bucket = .ok k) :
    k.pointer = s.bucket.pointer := by
  refine Request.run_pointer h (fun d he => ?_) fun he => ?_ <;> subst he <;> cases ht

theorem Request.OnObject.marker (ht : r.OnObject key) (h : r.run s.bucket = .ok k) :
    k.marker = s.bucket.marker := by
  cases r with
  | copy src dst =>
    simp only [Request.run] at h
    split at h <;> cases h
    rfl
  | put _ _ => cases h; rfl
  | delete _ => cases h; rfl
  | _ => cases ht

theorem Request.OnObject.get_ne (ht : r.OnObject key) (h : r.run s.bucket = .ok k) {p : Prefix}
    (hp : p ≠ key.under) (n : Name) : k.get p n = s.bucket.get p n := by
  refine Request.run_lookup_ne h fun he => hp ?_
  have : key = ⟨p, n⟩ := Option.some.inj (ht.symm.trans he)
  rw [this]

/-- A request has run on an object that no other thread and no reader of the live prefix needs. -/
theorem Inv.object (hi : Inv s) (ht : r.OnObject key) (h : r.run s.bucket = .ok k)
    (hid : key.under.id < s.next) (hlive : ∀ d, s.bucket.pointer = some d → key.under ≠ .snapshot d)
    (hothers : ∀ e ∈ s.building, e.owner ≠ t → e.doomed s.bound = false → e.id ≠ key.under.id) :
    Inv { s with bucket := k } ∧ Spares t s { s with bucket := k } := by
  have hp := ht.pointer h
  have hm := ht.marker h
  refine ⟨⟨fun d hd => ?_, fun p n hn => ?_, hi.building, hi.unique, fun hl => ?_⟩, ?_⟩
  · have hd : k.pointer = some d := hd
    rw [hp] at hd
    obtain ⟨hout, hget⟩ := hi.live d hd
    refine ⟨⟨hout.drawn, hout.idle⟩, fun n => ?_⟩
    change k.get (.snapshot d) n = _
    rw [ht.get_ne h (hlive d hd).symm]
    exact hget n
  · by_cases hpk : p = key.under
    · exact hpk ▸ hid
    · refine hi.keys p n ?_
      rw [← ht.get_ne h hpk]
      exact hn
  · change s.bound = k.generation
    rw [Bucket.generation, hm]
    exact hi.free hl
  · refine ⟨le_rfl, fun u _ hl => ⟨hl, hp, hm, rfl⟩, fun u _ hl => hl, fun e he _ => he, fun e he => .inl he,
      fun e _ hd => hd, fun e he ho hs p hpe n => ?_, fun d hd => .inl (hp ▸ hd)⟩
    refine ht.get_ne h (fun hpk => hothers e he ho hs ?_) n
    rw [← hpk, hpe]

/-- A deleted object was gone. -/
theorem Inv.delete (hi : Inv s) (hg : Gone s key) (t : ℕ) :
    Inv (s.run (.delete key)) ∧ Spares t s (s.run (.delete key)) := by
  have htarget : (Request.delete key).OnObject key := rfl
  refine hi.object htarget rfl hg.dead.drawn hg.notLive fun e he _ hs hid => ?_
  rw [hg.dead.doomed e he hid] at hs
  cases hs

/-- The owner of a publish is the only thread at its id. -/
theorem Inv.others (hi : Inv s) (ho : Own s t j) : ∀ e ∈ s.building, e.owner ≠ t → e.id ≠ j.d := by
  intro e he hne hid
  have := hi.unique e he _ ho hid
  exact hne (congrArg Build.owner this)

/-- The id of a publish in progress is not live. -/
theorem Inv.own_notLive (hi : Inv s) (ho : Own s t j) : s.bucket.pointer ≠ some j.d :=
  fun hp => (hi.live j.d hp).1.idle _ ho rfl

theorem spares_refl (t : ℕ) (s : Store) : Spares t s s :=
  ⟨le_rfl, fun _ _ hl => ⟨hl, rfl, rfl, rfl⟩, fun _ _ hl => hl, fun _ he _ => he, fun _ he => .inl he,
    fun _ _ hd => hd, fun _ _ _ _ _ _ _ => rfl, fun _ hd => .inl hd⟩

/-- The holder of the lock changes marker, pointer or promise, and may leave the lock. -/
theorem spares_held (hl : s.lock = some t) (hnext : s'.next = s.next) (hb : s'.building = s.building)
    (hlock : s'.lock = some t ∨ s'.lock = none) (hd : ∀ e ∈ s.building, e.doomed s.bound → e.doomed s'.bound)
    (hobjs : s'.bucket.objs = s.bucket.objs)
    (hp : s'.bucket.pointer = s.bucket.pointer ∨ s'.bucket.pointer = none) : Spares t s s' := by
  refine ⟨hnext.ge, fun u hu h => ?_, fun u hu h => ?_, fun e he _ => hb ▸ he, fun e he => .inl (hb ▸ he), hd,
    fun e _ _ _ p _ n => ?_, fun d hpd => .inl ?_⟩
  · exact absurd (Option.some.inj (h.symm.trans hl)) hu
  · rcases hlock with h' | h' <;> rw [h'] at h
    · exact absurd (Option.some.inj h).symm hu
    · cases h
  · rw [Bucket.get, hobjs, Bucket.get]
  · rcases hp with h' | h' <;> rw [h'] at hpd
    · exact hpd
    · cases hpd

theorem doomed_mono {m n : ℕ} (h : m ≤ n) (hd : e.doomed m) : e.doomed n := by
  unfold Build.doomed at *
  cases hb : e.base with
  | none =>
    rw [hb] at hd
    cases hd
  | some b =>
    rw [hb] at hd
    simp only [Option.any_some, decide_eq_true_eq] at hd ⊢
    omega

/-! ## Steps of a publish -/

/-- What a step of `t` does: the invariant stays, `t` is well placed and the others are spared. -/
structure Steps (s : Store) (t : ℕ) (x : Store × Pc) : Prop where
  inv : Inv x.1
  ok : Ok x.1 t x.2
  spares : Spares t s x.1

/-- The lock, the generation and what is promised of it stay. -/
theorem Ok.move {pc' : Pc} (hok : Ok s t pc) (hl : s'.lock = s.lock) (hb : s'.bound = s.bound)
    (hg : s'.bucket.generation = s.bucket.generation) (hh : pc'.holds → pc.holds)
    (hgap : pc'.gap = pc.gap) (hpc : PcOk s' t pc') : Ok s' t pc' :=
  ⟨fun h => hl.trans (hok.holds (hh h)), fun h => by rw [hb, hg, hgap]; exact hok.bound (hl.symm.trans h), hpc⟩

/-- A step that only moves the thread. -/
theorem Steps.same {pc' : Pc} (hi : Inv s) (hok : Ok s t pc) (hh : pc'.holds → pc.holds)
    (hgap : pc'.gap = pc.gap) (hpc : PcOk s t pc') : Steps s t (s, pc') :=
  ⟨hi, hok.move rfl rfl rfl hh hgap hpc, spares_refl t s⟩

theorem contentOf_concat (done : List (Name × Bytes)) (x : Name × Bytes) :
    contentOf (done ++ [x]) = Function.update (contentOf done) x.1 (some x.2) := by
  rw [contentOf, List.foldl_append]
  rfl

theorem get_insert (k : Bucket) (p : Prefix) (m : Name) (data : Bytes) (n : Name) :
    Bucket.get { k with objs := k.objs.insert ⟨p, m⟩ data } p n =
      Function.update (fun n => k.get p n) m (some data) n := by
  by_cases hn : n = m
  · subst hn
    rw [Function.update_self]
    exact AList.lookup_insert _
  · rw [Function.update_of_ne hn]
    exact AList.lookup_insert_ne (fun he => hn (congrArg Key.name he))

theorem notMem_list {k : Bucket} {p : Prefix} {n : Name} (h : n ∉ k.list p) : k.get p n = none := by
  rw [mem_list] at h
  exact AList.lookup_eq_none.mpr h

theorem mem_keysOf {p : Prefix} (h : key ∈ s.keysOf p) : key = ⟨p, key.name⟩ := by
  obtain ⟨n, -, rfl⟩ := List.mem_map.mp h
  rfl

theorem steps_stage {x : Name × Bytes} {todo : List (Name × Bytes)} (hi : Inv s)
    (hok : Ok s t (.staging j (x :: todo))) :
    Steps s t (s.run (.put ⟨.incoming j.d, x.1⟩ x.2), .staging j todo) := by
  obtain ⟨ho, hpc⟩ := hok.pc
  obtain ⟨hinv, hsp⟩ := hi.object (t := t) (r := .put ⟨.incoming j.d, x.1⟩ x.2) rfl rfl (hi.building _ ho).1
    (fun _ _ he => by cases he) fun e he hne _ => hi.others ho e he hne
  refine ⟨hinv, hok.move rfl rfl rfl id rfl ⟨ho, fun hs => ?_⟩, hsp⟩
  obtain ⟨⟨done, hfiles, hin⟩, hsnap⟩ := hpc hs
  refine ⟨⟨done ++ [x], by rw [hfiles, List.append_cons], fun n => ?_⟩, fun n => ?_⟩
  · change Bucket.get { s.bucket with objs := s.bucket.objs.insert ⟨.incoming j.d, x.1⟩ x.2 } _ n = _
    rw [get_insert, contentOf_concat, funext hin]
  · refine (Request.run_lookup_ne (r := .put ⟨.incoming j.d, x.1⟩ x.2) rfl fun he => ?_).trans (hsnap n)
    cases he

/-- A publish that is given up lists what it copied. -/
theorem steps_discard (hi : Inv s) (ho : Own s t j) (hb : s.lock = some t → s.bound = s.bucket.generation) :
    Steps s t (discard s j.d) := by
  have hmem : ∀ e, e ∈ (s.without j.d).building ↔ e ∈ s.building ∧ e.id ≠ j.d := fun e => by
    simp [Store.without]
  have hout : Out (s.without j.d) j.d := ⟨(hi.building _ ho).1, fun e he => ((hmem e).mp he).2⟩
  refine ⟨⟨fun d hd => ?_, hi.keys, fun e he => hi.building e ((hmem e).mp he).1,
    fun e he f hf => hi.unique e ((hmem e).mp he).1 f ((hmem f).mp hf).1, hi.free⟩,
    ⟨fun h => (by cases h), hb, fun key hk => ?_, hout⟩, ?_⟩
  · obtain ⟨hd', hget⟩ := hi.live d hd
    exact ⟨⟨hd'.drawn, fun e he => hd'.idle e ((hmem e).mp he).1⟩, hget⟩
  · rw [mem_keysOf hk]
    exact hout.dead.gone_snapshot (hi.own_notLive ho) _
  · exact ⟨le_rfl, fun _ _ hl => ⟨hl, rfl, rfl, rfl⟩, fun _ _ hl => hl,
      fun e he hne => (hmem e).mpr ⟨he, hi.others ho e he hne⟩, fun e he => .inl ((hmem e).mp he).1,
      fun _ _ hd => hd, fun _ _ _ _ _ _ _ => rfl, fun _ hd => .inl hd⟩

theorem steps_staged (answer : Bool) (hi : Inv s) (hok : Ok s t (.staging j [])) :
    Steps s t (advance answer t s (.staging j [])) := by
  obtain ⟨ho, hpc⟩ := hok.pc
  show Steps s t (if s.bucket.list (.incoming j.d) = [] then discard s j.d
    else (s, .copying j (s.bucket.list (.incoming j.d))))
  split_ifs
  · exact steps_discard hi ho hok.bound
  · refine .same hi hok id rfl ⟨ho, fun hs => ?_⟩
    obtain ⟨⟨done, hfiles, hin⟩, hsnap⟩ := hpc hs
    rw [List.append_nil] at hfiles
    subst hfiles
    refine ⟨hin, fun n hn => ?_⟩
    rw [hsnap n, ← hin n, notMem_list hn]

theorem steps_copy {n : Name} {todo : List Name} (answer : Bool) (hi : Inv s)
    (hok : Ok s t (.copying j (n :: todo))) : Steps s t (advance answer t s (.copying j (n :: todo))) := by
  obtain ⟨ho, hpc⟩ := hok.pc
  cases hrun : (Request.copy ⟨.incoming j.d, n⟩ ⟨.snapshot j.d, n⟩).run s.bucket with
  | error err =>
    have hadv : advance answer t s (.copying j (n :: todo)) = discard s j.d := by
      simp only [advance, hrun]
    rw [hadv]
    exact steps_discard hi ho hok.bound
  | ok k =>
    have hadv : advance answer t s (.copying j (n :: todo)) = ({ s with bucket := k }, .copying j todo) := by
      simp only [advance, hrun]
    rw [hadv]
    have htarget : (Request.copy ⟨.incoming j.d, n⟩ ⟨.snapshot j.d, n⟩).OnObject ⟨.snapshot j.d, n⟩ := rfl
    obtain ⟨hinv, hsp⟩ := hi.object (t := t) htarget hrun (hi.building _ ho).1
      (fun d hd he => hi.own_notLive ho (by cases he; exact hd)) fun e he hne _ => hi.others ho e he hne
    have hg : k.generation = s.bucket.generation := congrArg Marker.generation (htarget.marker hrun)
    refine ⟨hinv, hok.move rfl rfl hg id rfl ⟨ho, fun hs => ?_⟩, hsp⟩
    obtain ⟨hin, hsnap⟩ := hpc hs
    refine ⟨fun m => ?_, fun m hm => ?_⟩
    · rw [← hin m]
      exact htarget.get_ne hrun (by simp) m
    · -- the object that was copied is the staged one
      simp only [Request.run] at hrun
      split at hrun
      · cases hrun
      · next data hdata =>
        cases hrun
        change Bucket.get { s.bucket with objs := s.bucket.objs.insert ⟨.snapshot j.d, n⟩ data } _ m = _
        rw [get_insert]
        by_cases hmn : m = n
        · subst hmn
          rw [Function.update_self, ← hin m]
          exact hdata.symm
        · rw [Function.update_of_ne hmn]
          exact hsnap m (by simp [hmn, hm])

/-- The lock is taken. -/
theorem Inv.take (hi : Inv s) (t : ℕ) : Inv { s with lock := some t } :=
  ⟨fun d hd => ⟨⟨(hi.live d hd).1.drawn, (hi.live d hd).1.idle⟩, (hi.live d hd).2⟩, hi.keys, hi.building,
    hi.unique, fun hl => by cases hl⟩

theorem spares_take (hl : s.lock = none ∨ s.lock = some t) : Spares t s { s with lock := some t } := by
  refine ⟨le_rfl, fun u hu h => ?_, fun u hu h => ?_, fun _ he _ => he, fun _ he => .inl he,
    fun _ _ hd => hd, fun _ _ _ _ _ _ _ => rfl, fun _ hd => .inl hd⟩
  · rcases hl with h' | h' <;> rw [h'] at h
    · cases h
    · exact absurd (Option.some.inj h).symm hu
  · exact absurd (Option.some.inj h).symm hu

theorem steps_acquire (answer : Bool) (hi : Inv s) (hok : Ok s t (.copying j []))
    (hpre : s.lock = if j.held then some t else none) : Steps s t (advance answer t s (.copying j [])) := by
  obtain ⟨ho, hpc⟩ := hok.pc
  have hl : s.lock = none ∨ s.lock = some t := by
    split_ifs at hpre
    · exact .inr hpre
    · exact .inl hpre
  have hb : s.bound = s.bucket.generation := by
    rcases hl with h | h
    · exact hi.free h
    · exact hok.bound h
  exact ⟨hi.take t, ⟨fun _ => rfl, fun _ => hb, ho, fun hs n => (hpc hs).2 n (by simp)⟩, spares_take hl⟩

theorem steps_check (answer : Bool) (hi : Inv s) (hok : Ok s t (.locked j)) :
    Steps s t (advance answer t s (.locked j)) := by
  obtain ⟨ho, hpc⟩ := hok.pc
  have hb : s.bound = s.bucket.generation := hok.bound (hok.holds rfl)
  show Steps s t (if answer || j.base.any (· ≠ s.bucket.generation) then discard s j.d else (s, .passed j))
  split_ifs with hrefuse
  · exact steps_discard hi ho hok.bound
  · have hs : Sound s t j := by
      -- an expected base that is the generation is not below the bound
      simp only [Bool.or_eq_true, not_or] at hrefuse
      unfold Sound Build.doomed Job.build
      cases hbase : j.base with
      | none => rfl
      | some b =>
        rw [hbase] at hrefuse
        simp only [Option.any_some, decide_eq_true_eq, ne_eq, not_not] at hrefuse
        simp [hb, hrefuse.2]
    exact .same hi hok id rfl ⟨ho, hs, hpc hs⟩

/-- **The flip**: the prefix that becomes live is complete. -/
theorem steps_flip (answer : Bool) (hi : Inv s) (hok : Ok s t (.passed j)) :
    Steps s t (advance answer t s (.passed j)) := by
  obtain ⟨ho, hs, hc⟩ := hok.pc
  have hl : s.lock = some t := hok.holds rfl
  have hmem : ∀ e, e ∈ (s.without j.d).building ↔ e ∈ s.building ∧ e.id ≠ j.d := fun e => by
    simp [Store.without]
  set s' : Store := { s.without j.d with
    bucket := { s.bucket with pointer := some j.d }
    content := contentOf j.files } with hs'
  have hout : Out s' j.d := ⟨(hi.building _ ho).1, fun e he => ((hmem e).mp he).2⟩
  refine ⟨⟨fun d hd => ?_, hi.keys, fun e he => hi.building e ((hmem e).mp he).1,
    fun e he f hf => hi.unique e ((hmem e).mp he).1 f ((hmem f).mp hf).1, fun h => ?_⟩,
    ⟨fun _ => hl, hok.bound, hout, fun o ho' => ?_⟩, ?_⟩
  · cases hd
    exact ⟨hout, hc⟩
  · have h : s.lock = none := h
    rw [hl] at h
    cases h
  · -- what was live before has no publish in progress
    have hold := (hi.live o ho').1
    refine ⟨⟨hold.drawn, fun e he hid => absurd hid (hold.idle e ((hmem e).mp he).1)⟩, ?_⟩
    rintro hp
    cases hp
    exact hi.own_notLive ho ho'
  · refine ⟨le_rfl, fun u hu h => absurd (Option.some.inj (h.symm.trans hl)) hu, fun u hu h => h,
      fun e he hne => (hmem e).mpr ⟨he, hi.others ho e he hne⟩, fun e he => .inl ((hmem e).mp he).1,
      fun _ _ hd => hd, fun _ _ _ _ _ _ _ => rfl, fun d hd => .inr ⟨_, ho, ?_, hs⟩⟩
    cases hd
    rfl

/-- The holder of the lock changes marker, pointer or promise, and may leave the lock. -/
theorem Inv.held (hi : Inv s) (hnext : s'.next = s.next) (hb : s'.building = s.building)
    (ha : s'.active = s.active) (hc : s'.content = s.content) (hobjs : s'.bucket.objs = s.bucket.objs)
    (hp : s'.bucket.pointer = s.bucket.pointer ∨ s'.bucket.pointer = none)
    (hfree : s'.lock = none → s'.bound = s'.bucket.generation) : Inv s' := by
  have hget : ∀ p n, s'.bucket.get p n = s.bucket.get p n := fun p n => by
    rw [Bucket.get, hobjs, Bucket.get]
  refine ⟨fun d hd => ?_, fun p n hn => ?_, ?_, ?_, hfree⟩
  · rcases hp with hp | hp <;> rw [hp] at hd
    · obtain ⟨hout, hlive⟩ := hi.live d hd
      refine ⟨⟨hnext ▸ hout.drawn, hb ▸ hout.idle⟩, fun n => ?_⟩
      rw [hget, hc]
      exact hlive n
    · cases hd
  · rw [hget] at hn
    exact hnext ▸ hi.keys p n hn
  · rw [hb, hnext, ha]
    exact hi.building
  · rw [hb]
    exact hi.unique

theorem release_held (h : s.lock = some t) : (s.release t).lock = none := if_pos h

theorem release_of (h : s.lock ≠ some t) : s.release t = s := by
  unfold Store.release
  rw [if_neg h]

/-- A thread that leaves returns its lock. -/
theorem steps_release (hi : Inv s) (hb : s.lock = some t → s.bound = s.bucket.generation)
    (hh : pc.holds = false) (hpc : PcOk (s.release t) t pc) :
    Steps s t (s.release t, pc) := by
  have hbound : (s.release t).lock = none → s.bound = s.bucket.generation := by
    intro h
    by_cases hl : s.lock = some t
    · exact hb hl
    · rw [release_of hl] at h
      exact hi.free h
  refine ⟨hi.held rfl rfl rfl rfl rfl (.inl rfl) hbound, ⟨fun h => ?_, fun h => ?_, hpc⟩, ?_⟩
  · rw [hh] at h
    cases h
  · by_cases hl : s.lock = some t
    · rw [release_held hl] at h
      cases h
    · rw [release_of hl] at h
      exact absurd h hl
  · by_cases hl : s.lock = some t
    · exact spares_held hl rfl rfl (.inr (release_held hl)) (fun _ _ hd => hd) rfl (.inl rfl)
    · rw [release_of hl]
      exact spares_refl t s

/-- The marker is written under the lock. -/
theorem steps_mark {m : Marker} {b : ℕ} (hi : Inv s) (hl : s.lock = some t) (hb : s.bound ≤ b)
    (hgap : b = m.generation + pc.gap) (hpc : PcOk { s.run (.mark m) with bound := b } t pc) :
    Steps s t ({ s.run (.mark m) with bound := b }, pc) := by
  refine ⟨hi.held rfl rfl rfl rfl rfl (.inl rfl) fun h => ?_, ⟨fun _ => hl, fun _ => hgap, hpc⟩,
    spares_held hl rfl rfl (.inl hl) (fun _ _ hd => doomed_mono hb hd) rfl (.inl rfl)⟩
  have h : s.lock = none := h
  rw [hl] at h
  cases h

theorem steps_bump {old : Option SnapshotId} (answer : Bool) (hi : Inv s) (hok : Ok s t (.flipped j old)) :
    Steps s t (advance answer t s (.flipped j old)) := by
  have hb := hok.bound (hok.holds rfl)
  refine steps_mark hi (hok.holds rfl) ?_ rfl ?_
  · rw [hb]
    exact Nat.le_succ _
  · exact ⟨⟨hok.pc.1.drawn, hok.pc.1.idle⟩, fun o ho => ⟨⟨(hok.pc.2 o ho).1.drawn, fun e he hid =>
      doomed_mono (by rw [hb]; exact Nat.le_succ _) ((hok.pc.2 o ho).1.doomed e he hid)⟩, (hok.pc.2 o ho).2⟩⟩

theorem steps_unlock {old : Option SnapshotId} (answer : Bool) (hi : Inv s) (hok : Ok s t (.marked j old)) :
    Steps s t (advance answer t s (.marked j old)) := by
  show Steps s t (if j.held then s else s.release t, .reclaim j.d old)
  split_ifs
  · exact .same hi hok (fun h => by cases h) rfl hok.pc
  · exact steps_release hi hok.bound rfl ⟨⟨hok.pc.1.drawn, hok.pc.1.idle⟩, fun o ho =>
      ⟨⟨(hok.pc.2 o ho).1.drawn, (hok.pc.2 o ho).1.doomed⟩, (hok.pc.2 o ho).2⟩⟩

/-! ## Deletes -/

theorem steps_reclaim {old : Option SnapshotId} (answer : Bool) (hi : Inv s) (hok : Ok s t (.reclaim d old)) :
    Steps s t (advance answer t s (.reclaim d old)) := by
  refine .same hi hok (fun h => by cases h) rfl ⟨fun key hk => ?_, hok.pc⟩
  rw [mem_keysOf hk]
  exact hok.pc.1.dead.gone_incoming _

theorem steps_delete {todo : List Key} {after : After} (answer : Bool) (hi : Inv s)
    (hok : Ok s t (.deleting (key :: todo) after)) :
    Steps s t (advance answer t s (.deleting (key :: todo) after)) := by
  obtain ⟨hinv, hsp⟩ := hi.delete (hok.pc.1 key List.mem_cons_self) t
  have hafter : AfterOk (s.run (.delete key)) after := by
    have ha := hok.pc.2
    cases after with
    | old d old => exact ⟨hsp.out ha.1, hsp.oldOk ha.2⟩
    | discardIncoming d | finish d => exact hsp.out ha
    | _ => exact ha
  refine ⟨hinv, hok.move rfl rfl rfl ?_ ?_ ⟨fun k hk => hsp.gone (hok.pc.1 k (List.mem_cons_of_mem _ hk)), hafter⟩, hsp⟩
  · cases after <;> exact id
  · cases after <;> rfl

theorem steps_old {old : Option SnapshotId} (answer : Bool) (hi : Inv s)
    (hok : Ok s t (.deleting [] (.old d old))) : Steps s t (advance answer t s (.deleting [] (.old d old))) := by
  obtain ⟨hout, hold⟩ := hok.pc.2
  cases old with
  | none => exact .same hi hok id rfl ⟨fun key hk => (by cases hk), hout⟩
  | some o =>
    refine .same hi hok id rfl ⟨fun key hk => ?_, hout⟩
    split_ifs at hk
    · cases hk
    · rw [mem_keysOf hk]
      exact (hold o rfl).1.gone_snapshot (hold o rfl).2 _

theorem steps_discarded (answer : Bool) (hi : Inv s) (hok : Ok s t (.deleting [] (.discardIncoming d))) :
    Steps s t (advance answer t s (.deleting [] (.discardIncoming d))) := by
  refine .same hi hok id rfl ⟨fun key hk => ?_, hok.pc.2⟩
  rw [mem_keysOf hk]
  exact (Out.dead hok.pc.2).gone_incoming _

/-- The staging lease is released; no publish in progress has that id. -/
theorem steps_finish (answer : Bool) (hi : Inv s) (hok : Ok s t (.deleting [] (.finish d))) :
    Steps s t (advance answer t s (.deleting [] (.finish d))) := by
  have hout : Out s d := hok.pc.2
  obtain ⟨hinv, hok', hsp⟩ := steps_release (t := t) hi hok.bound (show Pc.idle.holds = false from rfl) trivial
  refine ⟨⟨fun d' hd' => ⟨⟨(hi.live d' hd').1.drawn, (hi.live d' hd').1.idle⟩, (hi.live d' hd').2⟩, hinv.keys,
    fun e he => ⟨(hi.building e he).1, ?_⟩, hinv.unique, hinv.free⟩,
    ⟨hok'.holds, hok'.bound, trivial⟩, ⟨hsp.next, hsp.lock, hsp.gain, hsp.keeps, hsp.fresh, hsp.doomed, hsp.objs, hsp.pointer⟩⟩
  change e.id ∈ s.active.filter fun e => e ≠ d
  rw [List.mem_filter]
  exact ⟨(hi.building e he).2, decide_eq_true (hout.idle e he)⟩

/-! ## Prunes -/

theorem steps_pruneMark (answer : Bool) (hi : Inv s) (hok : Ok s t .pruneMark) :
    Steps s t (advance answer t s .pruneMark) := by
  have hb := hok.bound (hok.holds rfl)
  refine steps_mark hi (hok.holds rfl) ?_ rfl trivial
  rw [hb]
  exact Nat.le_succ _

theorem steps_unpoint (answer : Bool) (hi : Inv s) (hok : Ok s t .pruneUnpoint) :
    Steps s t (advance answer t s .pruneUnpoint) := by
  have hl := hok.holds rfl
  refine ⟨hi.held rfl rfl rfl rfl rfl (.inr rfl) fun h => ?_, ⟨fun _ => hl, hok.bound, rfl⟩,
    spares_held hl rfl rfl (.inl hl) (fun _ _ hd => hd) rfl (.inr rfl)⟩
  have h : s.lock = none := h
  rw [hl] at h
  cases h

/-- Without a pointer, everything is gone whose publish will be refused. -/
theorem Inv.gone (hi : Inv s) (hp : s.bucket.pointer = none) (hdoomed : ∀ e ∈ s.building, e.doomed s.bound)
    (hk : key ∈ s.bucket.objs.keys) : Gone s key := by
  refine ⟨⟨hi.keys key.under key.name fun h => ?_, fun e he _ => hdoomed e he⟩, fun d hd => ?_⟩
  · exact AList.lookup_eq_none.mp h (AList.mem_keys.mpr hk)
  · rw [hp] at hd
    cases hd

theorem steps_pruneList {had : Bool} (answer : Bool) (hi : Inv s) (hok : Ok s t (.pruneList had))
    (hs : SpacedStep s (.pruneList had) (.step answer)) :
    Steps s t (advance answer t s (.pruneList had)) := by
  have hl := hok.holds rfl
  have hb : s.bound = s.bucket.generation := hok.bound hl
  have hp : s.bucket.pointer = none := hok.pc
  have hne : ∀ {P : Prop}, s.lock = none → P := fun h => by
    rw [hl] at h
    cases h
  cases had with
  | true =>
    refine .same hi hok id rfl ⟨fun key hk => hi.gone hp (fun e he => ?_) (List.mem_filter.mp hk).1, hp⟩
    rw [hb]
    exact hs e he
  | false =>
    have hinv : Inv { s with bound := s.bucket.generation + 1 } :=
      hi.held rfl rfl rfl rfl rfl (.inl rfl) fun h => hne h
    exact ⟨hinv, ⟨fun _ => hl, fun _ => rfl,
      fun key hk => hinv.gone hp (fun e he => hs e he) (List.mem_filter.mp hk).1, hp⟩,
      spares_held hl rfl rfl (.inl hl) (fun _ _ hd => doomed_mono (by rw [hb]; exact Nat.le_succ _) hd) rfl (.inl rfl)⟩

theorem steps_pruneIncoming {had : Bool} (answer : Bool) (hi : Inv s)
    (hok : Ok s t (.deleting [] (.pruneIncoming had)))
    (hs : SpacedStep s (.deleting [] (.pruneIncoming had)) (.step answer)) :
    Steps s t (advance answer t s (.deleting [] (.pruneIncoming had))) :=
  .same hi hok id rfl ⟨fun _ hk => hi.gone hok.pc.2 (fun e he => hs e he) (List.mem_filter.mp hk).1, trivial⟩

/-- The last marker write of a prune, and its return. -/
theorem steps_markLast {m : Marker} {b : ℕ} (hi : Inv s) (hl : s.lock = some t) (hb : s.bound ≤ b)
    (hm : b = m.generation) : Steps s t ({ s.run (.mark m) with bound := b }.release t, .idle) := by
  set s' := ({ s.run (.mark m) with bound := b } : Store) with hs'
  have hlock : (s'.release t).lock = none := release_held hl
  refine ⟨hi.held rfl rfl rfl rfl rfl (.inl rfl) fun _ => hm, ⟨fun h => (by cases h), fun h => ?_, trivial⟩,
    spares_held hl rfl rfl (.inr hlock) (fun _ _ hd => doomed_mono hb hd) rfl (.inl rfl)⟩
  have h : (s'.release t).lock = some t := h
  rw [hlock] at h
  cases h

theorem steps_pruneLast {had : Bool} (answer : Bool) (hi : Inv s)
    (hok : Ok s t (.deleting [] (.pruneLast had))) :
    Steps s t (advance answer t s (.deleting [] (.pruneLast had))) := by
  have hl := hok.holds rfl
  have hb := hok.bound hl
  cases had with
  | true => exact steps_markLast (m := ⟨s.bucket.generation, none⟩) (b := s.bound) hi hl le_rfl hb
  | false => exact steps_markLast (m := s.bucket.marker.bump none) hi hl hb.le rfl

/-! ## Edits -/

/-- What an edit's plan asks for. -/
theorem editPlan_onLive {k : Bucket} {live : SnapshotId} {requests : List Request}
    (h : ∀ r ∈ requests, r.OnLive live) : ∀ r ∈ (editPlan k live requests).writes, r.OnLive live := by
  intro r hr
  rcases List.mem_append.mp hr with hr | hr
  · exact h r hr
  · simp only [List.mem_cons, List.not_mem_nil, or_false] at hr
    rcases hr with rfl | rfl
    · rfl
    · trivial

theorem plan_onLive {k : Bucket} {live : SnapshotId} {m : Mutator} (hm : m.isEdit)
    (hp : k.pointer = some live) : ∀ r ∈ (m.plan k).writes, r.OnLive live := by
  have hdelete : ∀ names : List Name, ∀ r ∈ deleteNames (.snapshot live) names, r.OnLive live := by
    intro names r hr
    obtain ⟨n, -, rfl⟩ := List.mem_map.mp hr
    rfl
  cases m with
  | writeFile p data d =>
    simp only [Mutator.plan, writeFilePlan, hp]
    split_ifs
    · exact fun r hr => by cases hr
    · exact fun r hr => by cases hr
    · refine editPlan_onLive fun r hr => ?_
      rw [List.mem_singleton] at hr
      subst hr
      rfl
  | deleteFile p =>
    simp only [Mutator.plan, deleteFilePlan, hp]
    split_ifs
    · exact fun r hr => by cases hr
    · exact editPlan_onLive (hdelete [subName p])
  | deleteDir p =>
    simp only [Mutator.plan, deleteDirPlan, hp]
    split_ifs
    · exact fun r hr => by cases hr
    · exact editPlan_onLive (hdelete _)
  | renameFile src dst =>
    simp only [Mutator.plan, renameFilePlan, hp]
    split_ifs
    · exact fun r hr => by cases hr
    · refine editPlan_onLive fun r hr => ?_
      simp only [List.mem_cons, List.not_mem_nil, or_false] at hr
      rcases hr with rfl | rfl
      · exact ⟨rfl, rfl⟩
      · rfl
  | renameDir src dst =>
    simp only [Mutator.plan, renameDirPlan, hp]
    split_ifs
    · exact fun r hr => by cases hr
    · refine editPlan_onLive fun r hr => ?_
      rcases List.mem_append.mp hr with hr | hr
      · obtain ⟨n, -, rfl⟩ := List.mem_map.mp hr
        exact ⟨rfl, rfl⟩
      · exact hdelete _ r hr
  | makeDir p =>
    simp only [Mutator.plan, makeDirPlan, hp]
    split_ifs
    · exact fun r hr => by cases hr
    · intro r hr
      simp only [List.mem_cons, List.not_mem_nil, or_false] at hr
      rcases hr with rfl | rfl
      · rfl
      · trivial
  | commit _ _ _ _ _ _ _ => cases hm
  | restore _ _ _ _ _ => cases hm
  | prune => cases hm

/-- What one request of an edit does. -/
structure Request.Edits (r : Request) (live : SnapshotId) (f : Name → Option Bytes) (k k' : Bucket) : Prop where
  pointer : k'.pointer = some live
  content : ∀ n, k'.get (.snapshot live) n = r.onContent f n
  others : ∀ p, p ≠ .snapshot live → ∀ n, k'.get p n = k.get p n
  generation : k'.generation = k.generation ∨ r.marked = some k'.generation

theorem edits_of_run {k : Bucket} {live : SnapshotId} {f : Name → Option Bytes} (hr : r.OnLive live)
    (hp : k.pointer = some live) (hget : ∀ n, k.get (.snapshot live) n = f n) {k' : Bucket}
    (h : r.run k = .ok k') : r.Edits live f k k' := by
  have hne : ∀ {x : Key}, x.under = .snapshot live → ∀ p, p ≠ .snapshot live → ∀ n, (⟨p, n⟩ : Key) ≠ x :=
    fun hx p hp n he => hp (by rw [← hx, ← he])
  cases r with
  | put x data =>
    obtain ⟨p, m⟩ := x
    have hx : p = .snapshot live := hr
    subst hx
    cases h
    refine ⟨hp, fun n => ?_, fun p hp n => AList.lookup_insert_ne (hne rfl p hp n), .inl rfl⟩
    rw [get_insert, funext hget]
    rfl
  | copy src dst =>
    obtain ⟨p, m⟩ := src
    obtain ⟨p', m'⟩ := dst
    obtain ⟨hsrc, hdst⟩ := hr
    have hsrc : p = .snapshot live := hsrc
    have hdst : p' = .snapshot live := hdst
    subst hsrc hdst
    simp only [Request.run] at h
    split at h
    · cases h
    · next data hdata =>
      cases h
      refine ⟨hp, fun n => ?_, fun p hp n => AList.lookup_insert_ne (hne rfl p hp n), .inl rfl⟩
      have hm : f m = some data := (hget m).symm.trans hdata
      rw [get_insert, funext hget, ← hm]
      rfl
  | delete x =>
    obtain ⟨p, m⟩ := x
    have hx : p = .snapshot live := hr
    subst hx
    cases h
    refine ⟨hp, fun n => ?_, fun p hp n => AList.lookup_erase_ne (hne rfl p hp n), .inl rfl⟩
    change (k.objs.erase ⟨.snapshot live, m⟩).lookup ⟨.snapshot live, n⟩ = Function.update f m none n
    by_cases hn : n = m
    · subst hn
      rw [Function.update_self]
      exact AList.lookup_erase _ _
    · rw [Function.update_of_ne hn, AList.lookup_erase_ne (fun he => hn (congrArg Key.name he))]
      exact hget n
  | point d =>
    cases h
    have hd : d = live := hr
    exact ⟨congrArg some hd, hget, fun _ _ _ => rfl, .inl rfl⟩
  | unpoint => cases hr
  | mark m =>
    cases h
    exact ⟨hp, hget, fun _ _ _ => rfl, .inr rfl⟩

/-- **A request of an edit** changes the working set as it changes the live prefix. -/
theorem steps_edit {todo : List Request} (answer : Bool) (hi : Inv s) (hok : Ok s t (.editing (r :: todo))) :
    Steps s t (advance answer t s (.editing (r :: todo))) := by
  have hl := hok.holds rfl
  have hb : s.bound = s.bucket.generation := hok.bound hl
  cases hrun : r.run s.bucket with
  | error err =>
    have hadv : advance answer t s (.editing (r :: todo)) = (s.release t, .idle) := by
      simp only [advance, hrun]
    rw [hadv]
    exact steps_release hi hok.bound rfl trivial
  | ok k =>
    have hadv : advance answer t s (.editing (r :: todo)) =
        ({ s with bucket := k, content := r.onContent s.content, bound := k.generation }, .editing todo) := by
      simp only [advance, hrun]
    rw [hadv]
    obtain ⟨live, g, hp, hon, hg, hmarks⟩ := hok.pc
    obtain ⟨hout, hget⟩ := hi.live live hp
    have he := edits_of_run (hon r List.mem_cons_self) hp hget hrun
    have hgen : s.bucket.generation ≤ k.generation ∧ k.generation ≤ g := by
      rcases he.generation with h | h
      · rw [h]
        exact ⟨le_rfl, hg⟩
      · have := hmarks r List.mem_cons_self _ h
        omega
    refine ⟨⟨fun d hd => ?_, fun p n hn => ?_, hi.building, hi.unique, fun _ => rfl⟩,
      ⟨fun _ => hl, fun _ => rfl, live, g, he.pointer, fun r' hr' => hon r' (List.mem_cons_of_mem _ hr'), hgen.2,
        fun r' hr' => hmarks r' (List.mem_cons_of_mem _ hr')⟩, ?_⟩
    · have hd : k.pointer = some d := hd
      rw [he.pointer] at hd
      cases hd
      exact ⟨⟨hout.drawn, hout.idle⟩, he.content⟩
    · by_cases hpl : p = .snapshot live
      · rw [hpl]
        exact hout.drawn
      · refine hi.keys p n ?_
        rw [← he.others p hpl]
        exact hn
    · refine ⟨le_rfl, fun u hu h => absurd (Option.some.inj (h.symm.trans hl)) hu, fun _ _ h => h,
        fun _ h _ => h, fun _ h => .inl h, fun _ _ hd => doomed_mono (hb ▸ hgen.1) hd,
        fun e hmem _ _ p hpe n => he.others p (fun hpl => ?_) n, fun d hd => .inl ?_⟩
      · exact hout.idle e hmem (by rw [← hpe, hpl]; rfl)
      · rw [hp, ← hd, ← he.pointer]

/-! ## Sweeps -/

theorem mem_of_lookup {judged : List (SnapshotId × Bool)} {v : Bool} (h : judged.lookup d = some v) :
    (d, v) ∈ judged := by
  obtain ⟨l₁, l₂, hl, -⟩ := List.lookup_eq_some_iff.mp h
  rw [hl]
  exact List.mem_append_right _ List.mem_cons_self

theorem gone_of_under (hu : key.under = .snapshot d) (hd : Dead s d) (hp : s.bucket.pointer ≠ some d) :
    Gone s key := by
  have := hd.gone_snapshot hp key.name
  rwa [← hu] at this

/-- **A judgement**: a prefix of no publish in progress that is not live may be deleted. -/
theorem pcOk_consider {todo : List Key} {judged : List (SnapshotId × Bool)} (answer : Bool) (hi : Inv s)
    (h : SweepOk s (key :: todo) judged) (hs : SpacedStep s (.sweeping (key :: todo) judged) (.step answer)) :
    PcOk s t (consider answer s key todo judged) := by
  have hid : key.under.id < s.next := h.1 key List.mem_cons_self
  have hrest : SweepOk s todo judged := ⟨fun k hk => h.1 k (List.mem_cons_of_mem _ hk), h.2⟩
  unfold consider
  split
  · next d hu =>
    split_ifs with hactive
    · exact hrest
    · refine ⟨⟨⟨hid, fun e he hd => ?_⟩, fun d' _ hd' => ?_⟩, hrest⟩
      · rw [hu] at hd
        have hd : e.id = d := hd
        exact absurd (hd ▸ (hi.building e he).2) hactive
      · rw [hu] at hd'
        cases hd'
  · next d hu =>
    split
    · next verdict hv =>
      split_ifs with htrue
      · subst htrue
        obtain ⟨hdead, hp⟩ := h.2 _ (mem_of_lookup hv) rfl
        exact ⟨gone_of_under hu hdead hp, hrest⟩
      · exact hrest
    · next hv =>
      split_ifs with hgarbage
      · have hj : d ∈ judges answer s key judged := by
          unfold judges
          rw [hu]
          exact if_pos ⟨hv, hgarbage.1, hgarbage.2⟩
        have hdead : Dead s d := by
          refine Out.dead ⟨?_, hs d hj⟩
          rw [hu] at hid
          exact hid
        refine ⟨gone_of_under hu hdead hgarbage.1, hrest.1, fun x hx hv' => ?_⟩
        rcases List.mem_cons.mp hx with rfl | hx
        · exact ⟨hdead, hgarbage.1⟩
        · exact hrest.2 x hx hv'
      · refine ⟨hrest.1, fun x hx hv' => ?_⟩
        rcases List.mem_cons.mp hx with rfl | hx
        · cases hv'
        · exact hrest.2 x hx hv'

theorem consider_holds (s : Store) (key : Key) (todo : List Key) (judged : List (SnapshotId × Bool)) (answer : Bool) :
    (consider answer s key todo judged).holds = false ∧ (consider answer s key todo judged).gap = 0 := by
  unfold consider
  split
  · split_ifs <;> exact ⟨rfl, rfl⟩
  · split
    · split_ifs <;> exact ⟨rfl, rfl⟩
    · split_ifs <;> exact ⟨rfl, rfl⟩

theorem steps_consider {todo : List Key} {judged : List (SnapshotId × Bool)} (answer : Bool) (hi : Inv s)
    (hok : Ok s t (.sweeping (key :: todo) judged))
    (hs : SpacedStep s (.sweeping (key :: todo) judged) (.step answer)) :
    Steps s t (advance answer t s (.sweeping (key :: todo) judged)) := by
  obtain ⟨hh, hgap⟩ := consider_holds s key todo judged answer
  refine .same hi hok (fun h => ?_) hgap (pcOk_consider answer hi hok.pc hs)
  rw [hh] at h
  cases h

theorem steps_condemned {todo : List Key} {judged : List (SnapshotId × Bool)} (answer : Bool) (hi : Inv s)
    (hok : Ok s t (.condemned key todo judged)) :
    Steps s t (advance answer t s (.condemned key todo judged)) := by
  obtain ⟨hinv, hsp⟩ := hi.delete hok.pc.1 t
  exact ⟨hinv, hok.move rfl rfl rfl id rfl (hsp.sweepOk hok.pc.2), hsp⟩

/-! ## All steps -/

/-- **The step lemma of a running thread.** -/
theorem steps_advance (answer : Bool) (hi : Inv s) (hok : Ok s t pc) (hpre : threadPre t s pc (.step answer))
    (hs : SpacedStep s pc (.step answer)) : Steps s t (advance answer t s pc) := by
  cases pc with
  | idle => exact hpre.elim
  | staging j todo =>
    cases todo with
    | nil => exact steps_staged answer hi hok
    | cons x todo => exact steps_stage hi hok
  | copying j todo =>
    cases todo with
    | nil => exact steps_acquire answer hi hok hpre
    | cons n todo => exact steps_copy answer hi hok
  | locked j => exact steps_check answer hi hok
  | passed j => exact steps_flip answer hi hok
  | flipped j old => exact steps_bump answer hi hok
  | marked j old => exact steps_unlock answer hi hok
  | reclaim d old => exact steps_reclaim answer hi hok
  | deleting todo after =>
    cases todo with
    | cons key todo => exact steps_delete answer hi hok
    | nil =>
      cases after with
      | old d old => exact steps_old answer hi hok
      | discardIncoming d => exact steps_discarded answer hi hok
      | finish d => exact steps_finish answer hi hok
      | pruneIncoming had => exact steps_pruneIncoming answer hi hok hs
      | pruneLast had => exact steps_pruneLast answer hi hok
  | editing todo =>
    cases todo with
    | nil => exact steps_release hi hok.bound rfl trivial
    | cons r todo => exact steps_edit answer hi hok
  | pruneMark => exact steps_pruneMark answer hi hok
  | pruneUnpoint => exact steps_unpoint answer hi hok
  | pruneList had => exact steps_pruneList answer hi hok hs
  | sweeping todo judged =>
    cases todo with
    | nil => exact .same hi hok (fun h => (by cases h)) rfl trivial
    | cons key todo => exact steps_consider answer hi hok hs
  | condemned key todo judged => exact steps_condemned answer hi hok

/-- A thread that fails after its flip only leaves. -/
theorem steps_abandon (hi : Inv s) (hb : s.lock = some t → s.bound = s.bucket.generation) (hout : Out s d) :
    Steps s t (s, .deleting [] (.finish d)) :=
  ⟨hi, ⟨fun h => (by cases h), hb, fun _ hk => (by cases hk), hout⟩, spares_refl t s⟩

/-- A prune that fails takes back what it promised; the publishes in progress are refused all the same. -/
theorem steps_pruneFault (hi : Inv s) (hl : s.lock = some t) {b : ℕ} (hb : b = s.bucket.generation)
    (hd : ∀ e ∈ s.building, e.doomed s.bound → e.doomed b) :
    Steps s t ({ s.release t with bound := b }, .idle) := by
  have hlock := release_held hl
  refine ⟨hi.held rfl rfl rfl rfl rfl (.inl rfl) fun _ => hb, ⟨fun h => (by cases h), fun h => ?_, trivial⟩,
    spares_held hl rfl rfl (.inr hlock) hd rfl (.inl rfl)⟩
  have h : (s.release t).lock = some t := h
  rw [hlock] at h
  cases h

theorem steps_fault (hi : Inv s) (hok : Ok s t pc) (hs : SpacedStep s pc .fail) : Steps s t (fault t s pc) := by
  cases pc with
  | staging j todo | copying j todo | locked j | passed j => exact steps_discard hi hok.pc.1 hok.bound
  | flipped j old | marked j old =>
    exact steps_release hi hok.bound rfl ⟨fun _ hk => (by cases hk), hok.pc.1.drawn, hok.pc.1.idle⟩
  | reclaim d old => exact steps_abandon hi hok.bound hok.pc.1
  | deleting todo after =>
    cases after with
    | old d old => exact steps_abandon hi hok.bound hok.pc.2.1
    | discardIncoming d | finish d => exact steps_abandon hi hok.bound hok.pc.2
    | pruneIncoming had | pruneLast had =>
      cases had with
      | true => exact steps_pruneFault hi (hok.holds rfl) (hok.bound (hok.holds rfl)) fun _ _ hd => hd
      | false => exact steps_pruneFault hi (hok.holds rfl) rfl fun e he _ => hs rfl e he
  | _ => exact steps_release hi hok.bound rfl trivial

/-- A publish draws a fresh id. -/
theorem steps_publish {files : List (Name × Bytes)} {base : Option ℕ} {publisher : Option String} {held : Bool}
    (hi : Inv s) (hok : Ok s t .idle) (hl : held → s.lock = none) :
    Steps s t (threadPost t s .idle (.publish files base publisher held)) := by
  have hmem : ∀ e, e ∈ (⟨s.next, t, base⟩ :: s.building : List Build) → e.id ≠ s.next → e ∈ s.building := by
    intro e he hne
    rcases List.mem_cons.mp he with rfl | he
    · exact absurd rfl hne
    · exact he
  have hnew : ∀ p : Prefix, p.id = s.next → ∀ n, s.bucket.get p n = none := fun p hp n => by
    by_contra hne
    exact absurd (hi.keys p n hne) (by rw [hp]; exact lt_irrefl _)
  have hlt : ∀ {d}, d < s.next → s.next ≠ d := fun h he => absurd h (by rw [he]; exact lt_irrefl _)
  refine ⟨⟨fun d hd => ?_, fun p n hn => (hi.keys p n hn).trans (Nat.lt_succ_self _), fun e he => ?_,
    fun e he f hf hid => ?_, fun h => ?_⟩, ⟨fun h => ?_, fun h => ?_, List.mem_cons_self, fun _ => ⟨⟨[], rfl, ?_⟩, ?_⟩⟩, ?_⟩
  · obtain ⟨hout, hget⟩ := hi.live d hd
    refine ⟨⟨hout.drawn.trans (Nat.lt_succ_self _), fun e he => ?_⟩, hget⟩
    rcases List.mem_cons.mp he with rfl | he
    · exact hlt hout.drawn
    · exact hout.idle e he
  · rcases List.mem_cons.mp he with rfl | he
    · exact ⟨Nat.lt_succ_self _, List.mem_cons_self⟩
    · exact ⟨(hi.building e he).1.trans (Nat.lt_succ_self _), List.mem_cons_of_mem _ (hi.building e he).2⟩
  · rcases List.mem_cons.mp he with rfl | he <;> rcases List.mem_cons.mp hf with rfl | hf
    · rfl
    · exact absurd hid (hlt (hi.building f hf).1)
    · exact absurd hid.symm (hlt (hi.building e he).1)
    · exact hi.unique e he f hf hid
  · have h : (if held then some t else s.lock) = none := h
    split_ifs at h
    exact hi.free h
  · have h : held = true := h
    exact if_pos h
  · have h : (if held then some t else s.lock) = some t := h
    change s.bound = s.bucket.generation + 0
    split_ifs at h with hheld
    · exact hi.free (hl hheld)
    · exact hok.bound h
  · exact hnew _ rfl
  · exact hnew _ rfl
  · refine ⟨Nat.le_succ _, fun u hu h => ⟨?_, rfl, rfl, rfl⟩, fun u hu h => ?_,
      fun e he _ => List.mem_cons_of_mem _ he, fun e he => ?_, fun _ _ hd => hd, fun _ _ _ _ _ _ _ => rfl,
      fun _ hd => .inl hd⟩
    · change (if held then some t else s.lock) = some u
      split_ifs with hheld
      · rw [hl hheld] at h
        cases h
      · exact h
    · have h : (if held then some t else s.lock) = some u := h
      split_ifs at h with hheld
      · exact absurd (Option.some.inj h).symm hu
      · exact h
    · rcases List.mem_cons.mp he with rfl | he
      · exact .inr le_rfl
      · exact .inl he

theorem steps_begin {a : Action} (hi : Inv s) (hok : Ok s t .idle) (hpre : threadPre t s .idle a)
    (ha : ∀ answer, a ≠ .step answer) (hf : a ≠ .fail) : Steps s t (threadPost t s .idle a) := by
  cases a with
  | publish files base publisher held => exact steps_publish hi hok fun h => (hpre.2 h).1
  | edit m =>
    obtain ⟨-, hfree, hedit, hp⟩ := hpre
    obtain ⟨live, hlive⟩ := Option.ne_none_iff_exists'.mp hp
    exact ⟨hi.take t, ⟨fun _ => rfl, fun _ => hi.free hfree, live, s.bucket.generation + 1, hlive,
      plan_onLive hedit hlive, Nat.le_succ _, (m.advances s.bucket).marks⟩, spares_take (.inl hfree)⟩
  | prune =>
    obtain ⟨-, hfree⟩ := hpre
    show Steps s t ({ s with lock := some t }, if s.bucket.pointer = none then .pruneList false else .pruneMark)
    split_ifs with hp
    · exact ⟨hi.take t, ⟨fun _ => rfl, fun _ => hi.free hfree, hp⟩, spares_take (.inl hfree)⟩
    · exact ⟨hi.take t, ⟨fun _ => rfl, fun _ => hi.free hfree, trivial⟩, spares_take (.inl hfree)⟩
  | sweep =>
    refine .same hi hok (fun h => (by cases h)) rfl ⟨fun key hk => ?_, fun x hx => (by cases hx)⟩
    refine hi.keys key.under key.name fun h => ?_
    exact AList.lookup_eq_none.mp h (AList.mem_keys.mpr hk)
  | step answer => exact absurd rfl (ha answer)
  | fail => exact absurd rfl hf

/-- **The step lemma.** -/
theorem steps {a : Action} (hi : Inv s) (hok : Ok s t pc) (hpre : threadPre t s pc a) (hs : SpacedStep s pc a) :
    Steps s t (threadPost t s pc a) := by
  cases a with
  | step answer => exact steps_advance answer hi hok hpre hs
  | fail => exact steps_fault hi hok hs
  | sweep =>
    have hpc : pc = .idle := hpre
    subst hpc
    exact steps_begin hi hok hpre (fun _ h => by cases h) (fun h => by cases h)
  | _ =>
    have hpc : pc = .idle := hpre.1
    subst hpc
    exact steps_begin hi hok hpre (fun _ h => by cases h) (fun h => by cases h)

/-! ## Whole runs -/

theorem holds_start {k : Bucket} {next : SnapshotId} (h : Drawn k next) :
    Threads.Holds Inv Ok (start k next) := by
  refine ⟨⟨fun d hd => ⟨⟨h.2 d hd, fun _ he => (by cases he)⟩, fun n => ?_⟩, fun p n hn => ?_,
    fun _ he => (by cases he), fun _ he => (by cases he), fun _ => rfl⟩,
    fun t => ⟨fun hh => (by cases hh), fun hl => (by cases hl), trivial⟩⟩
  · have hd : k.pointer = some d := hd
    change k.get (.snapshot d) n = ((k.published.map (· n)).getD none)
    rw [Bucket.published, hd]
    rfl
  · refine h.1 ⟨p, n⟩ (AList.mem_keys.mp ?_)
    by_contra hne
    exact hn (AList.lookup_eq_none.mpr hne)

variable {c c' : Threads.Config Store Pc}

theorem holds_step {x : ℕ × Action} (hc : Threads.Holds Inv Ok c) (hpre : threads.machine.pre c x)
    (hs : Spaced c x) : Steps c.shared x.1 (threadPost x.1 c.shared (c.th x.1) x.2) :=
  steps hc.shared (hc.thread x.1) hpre hs

theorem holds_reach (h : threads.machine.Reach Spaced c c') (hc : Threads.Holds Inv Ok c) :
    Threads.Holds Inv Ok c' :=
  Threads.invariant h hc fun _ _ _ hc hpre hs =>
    have hstep := steps hc.shared (hc.thread _) hpre hs
    ⟨hstep.inv, hstep.ok, fun _ hu hok => hstep.spares.ok hu hok⟩

/-- The object that the next request of a thread deletes. -/
def Pc.deletes : Pc → Option Key
  | deleting (key :: _) _ => some key
  | condemned key _ _ => some key
  | _ => none

theorem gone_of_deletes (hok : Ok s t pc) (h : pc.deletes = some key) : Gone s key := by
  unfold Pc.deletes at h
  split at h
  · cases h
    exact hok.pc.1 key List.mem_cons_self
  · cases h
    exact hok.pc.1
  · cases h

/-- What is gone stays gone. -/
theorem gone_reach (h : threads.machine.Reach Spaced c c') (hc : Threads.Holds Inv Ok c)
    (hg : Gone c.shared key) : Gone c'.shared key := by
  have hinv := h.invariant (I := fun c => Threads.Holds Inv Ok c ∧ Gone c.shared key) ⟨hc, hg⟩
    fun u x hu hpre hs =>
      ⟨holds_reach (.step x .refl hpre hs) hu.1, (holds_step hu.1 hpre hs).spares.gone hu.2⟩
  exact hinv.2

/-- **The published prefix is whole**, and no thread deletes from a prefix that is published later. -/
theorem live_whole (k : Bucket) (next : SnapshotId) (h : Drawn k next) (c : Threads.Config Store Pc)
    (hr : threads.machine.Reach Spaced (start k next) c) :
    (∀ d, c.shared.bucket.pointer = some d →
        ∀ n, c.shared.bucket.get (.snapshot d) n = c.shared.content n) ∧
      ∀ t n d, (c.th t).deletes = some ⟨.snapshot d, n⟩ →
        ∀ c', threads.machine.Reach Spaced c c' → c'.shared.bucket.pointer ≠ some d := by
  have hc := holds_reach hr (holds_start h)
  refine ⟨fun d hd => (hc.shared.live d hd).2, fun t n d hdel c' hr' hp => ?_⟩
  exact (gone_reach hr' hc (gone_of_deletes (hc.thread t) hdel)).notLive d hp rfl

/-! ## Runs on one server -/

/-- A server with the file `a`, published once. -/
def publishedA : Bucket := Stream.published [1]

/-- The next step of thread `t`. -/
def next (t : ℕ) : ℕ × Action := (t, .step false)

/-- Thread 0 stages and copies a new working set with the one file `b`. -/
def copyB : List (ℕ × Action) :=
  [(0, .publish [(["b"], [2])] (some 1) (some "w") false), next 0, next 0, next 0]

/-- It takes the lock, passes the re-check, flips and marks. -/
def flipB : List (ℕ × Action) := [next 0, next 0, next 0, next 0]

/-- The pointer, the file `b` below it and in the published working set. -/
def observedB (c : Threads.Config Store Pc) : Option SnapshotId × Option Bytes × Option Bytes :=
  (c.shared.bucket.pointer, c.shared.bucket.get (.snapshot 1) ["b"], c.shared.content ["b"])

/-- `b` is published and a sweep runs after the flip. -/
theorem live_whole_sweepAfterFlip :
    ∃ c, threads.machine.Reach Spaced (start publishedA 1) c ∧ c.shared.bucket.pointer = some 1 ∧
      ∀ n, c.shared.bucket.get (.snapshot 1) n = c.shared.content n := by
  have hrun : ((threads.machine.guard Spaced).exec (copyB ++ flipB ++ [(1, .sweep), next 1, next 1, next 1])
      (start publishedA 1)).map (fun c => c.shared.bucket.pointer) = some (some 1) := by decide
  obtain ⟨c, hr, hp⟩ := Machine.reach_of_exec_map hrun
  have hr := Machine.reach_of_guard hr
  exact ⟨c, hr, hp, (live_whole publishedA 1 (by decide) c hr).1 1 hp⟩

/-- A sweep that reads the pointer before the flip and deletes after it takes the live `b`. -/
theorem sweepAcrossFlip_torn :
    ∃ c, threads.machine.Reach Machine.Any (start publishedA 1) c ∧ c.shared.bucket.pointer = some 1 ∧
      c.shared.content ["b"] = some [2] ∧ c.shared.bucket.get (.snapshot 1) ["b"] = none := by
  have hrun : (threads.machine.exec (copyB ++ [(1, .sweep), next 1, next 1] ++ flipB ++ [next 1])
      (start publishedA 1)).map observedB = some (some 1, none, some [2]) := by decide
  obtain ⟨c, hr, ho⟩ := Machine.reach_of_exec_map hrun
  obtain ⟨hp, ho⟩ := Prod.mk.inj ho
  obtain ⟨hget, hcontent⟩ := Prod.mk.inj ho
  exact ⟨c, hr, hp, hcontent, hget⟩

end McServerDashboard.Obj
