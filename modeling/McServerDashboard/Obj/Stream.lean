import Mathlib.Data.List.Sort
import McServerDashboard.Lib.Run
import McServerDashboard.Lib.Tar
import McServerDashboard.Obj.Mutators

/-!
# Archives of a live prefix that is edited

A hydrate streams the objects of the leased live prefix as a tar, a backup and the final archive
pack them. Names and sizes come from one listing; each body is fetched later, when its turn comes,
and the lease keeps the prefix from a reclaim but not from in-place edits.

* `Reader.member`: what one object adds to the archive.
* `machine`: one reader and any number of edits, request by request.
* **`archive_faithful`**: while each body has the size that was listed, the finished archive is well
  formed and each member is what its file once was.
* `stream_shifted`, `backup_truncated`, `archive_unfaithful`: a file that changes its size under the
  reader.
-/

namespace McServerDashboard.Obj

open Lib

/-! ## What is read -/

/-- The object's key below its prefix. -/
def Name.key (n : Name) : String := String.intercalate "/" n

/-- The name of the tar member. -/
def Name.bytes (n : Name) : Bytes := n.key.toUTF8.data.toList

/-- The operations that read a live prefix into an archive. -/
inductive Reader
  /-- `_tar_stream_from_objects`; `exclude` are top-level names. -/
  | hydrate (exclude : List String)
  | backup
  /-- The pack of `prune_to_final_snapshot`, under the server lock. -/
  | finalArchive
  deriving DecidableEq

/-- `list_objects` of a prefix, sorted by key, with the sizes. -/
def Bucket.listed (k : Bucket) (p : Prefix) : List (Name × ℕ) :=
  ((k.list p).insertionSort fun a b => a.key ≤ b.key).map fun n =>
    (n, ((k.get p n).map List.length).getD 0)

namespace Reader

/-- The members: a hydrate drops absolute names and the excluded top-level ones. -/
def members (r : Reader) (k : Bucket) (d : SnapshotId) : List (Name × ℕ) :=
  match r with
  | hydrate exclude =>
    (k.listed (.snapshot d)).filter fun x => !x.1.isAbsolute && !exclude.contains (x.1.headD "")
  | _ => k.listed (.snapshot d)

def format : Reader → Tar.Format
  | hydrate _ => .gnu
  | _ => .pax

/-- What one member adds to the archive: `size` was listed, `body` is what the GET answers. The
stream writes the whole body and pads it as it came; `addfile` copies exactly `size` bytes and
raises at a shorter body. -/
def member (r : Reader) (n : Name) (size : ℕ) (body : Bytes) : Option Bytes :=
  (Tar.tobuf r.format n.bytes size).bind fun hd =>
    match r with
    | hydrate _ => some (hd ++ (body ++ Tar.zeros (Tar.padding body.length)))
    | _ =>
      if body.length < size then none
      else some (hd ++ (body.take size ++ Tar.zeros (Tar.padding size)))

/-- `tarfile.RECORDSIZE`. -/
def recordsize : ℕ := 20 * Tar.blocksize

/-- How many zero bytes end the archive behind `len` bytes of members. -/
def trailer (r : Reader) (len : ℕ) : ℕ :=
  match r with
  | hydrate _ => 2 * Tar.blocksize
  | _ =>
    let excess := (len + 2 * Tar.blocksize) % recordsize
    2 * Tar.blocksize + if excess = 0 then 0 else recordsize - excess

/-- The reader comes out with the listed bytes: the stream copies all of the body, a pack no more
than `size` bytes of it. -/
def Fits (r : Reader) (size : ℕ) (body : Bytes) : Prop :=
  match r with
  | hydrate _ => body.length = size
  | _ => body.length ≤ size

instance (r : Reader) (size : ℕ) (body : Bytes) : Decidable (r.Fits size body) := by
  unfold Fits
  split <;> infer_instance

end Reader

/-! ## The machine -/

namespace Stream

/-- Where the reader stands. -/
inductive Pc
  | idle
  /-- The listing is taken; `todo` are the members still to fetch. -/
  | reading (todo : List (Name × ℕ)) (out : Bytes)
  | done (out : Bytes)
  | failed

def Pc.isIdle : Pc → Bool
  | idle => true
  | _ => false

def Pc.isReading : Pc → Bool
  | reading _ _ => true
  | _ => false

/-- Every member is written. -/
def Pc.isRead : Pc → Bool
  | reading [] _ => true
  | _ => false

def Pc.isDone : Pc → Bool
  | done _ => true
  | _ => false

/-- The store, the running edit and the reader. `listing` and `past` are what the reader listed and
every store there was since then. -/
structure St where
  bucket : Bucket
  /-- The requests left of the edit that holds the server lock. -/
  edit : List Request
  pc : Pc
  listing : List Name
  past : List Bucket

def init (k : Bucket) : St := ⟨k, [], .idle, [], []⟩

inductive Action
  /-- An in-place edit takes the lock. -/
  | edit (m : Mutator)
  /-- Its next request. -/
  | request
  /-- It ends there: a request failed. -/
  | abandon
  /-- The reader lists the prefix. -/
  | list
  /-- It fetches the next object. -/
  | fetch
  | finish
  /-- A request of the reader fails, or the region check of a backup refuses. -/
  | fail

end Stream

/-- The mutators that edit the live prefix in place. -/
def Mutator.isEdit : Mutator → Bool
  | writeFile _ _ _ | deleteFile _ | deleteDir _ | renameFile _ _ | renameDir _ _ | makeDir _ => true
  | _ => false

namespace Stream

variable (r : Reader) (d : SnapshotId)

/-- The final archive is packed under the lock that edits take. -/
def locked (s : St) : Bool := r = .finalArchive && s.pc.isReading

def pre (s : St) : Action → Prop
  | .edit m => s.edit = [] ∧ m.isEdit ∧ s.bucket.pointer = some d ∧ !locked r s
  | .request => s.edit ≠ []
  | .abandon => s.edit ≠ []
  | .list => s.pc.isIdle ∧ s.bucket.pointer = some d ∧ (r = .finalArchive → s.edit = [])
  | .fetch => s.pc.isReading ∧ !s.pc.isRead
  | .finish => s.pc.isRead
  | .fail => s.pc.isReading

instance (s : St) (a : Action) : Decidable (pre r d s a) := by
  cases a <;> (unfold pre; infer_instance)

/-- The next request of the edit takes effect, or the edit ends in its error. -/
def request (s : St) : St :=
  match s.edit with
  | [] => s
  | q :: rest =>
    match q.run s.bucket with
    | .ok k => { s with bucket := k, edit := rest, past := if s.pc.isReading then k :: s.past else s.past }
    | .error _ => { s with edit := [] }

/-- The next object is fetched and its member written. -/
def fetch (s : St) : St :=
  match s.pc with
  | .reading ((n, size) :: todo) out =>
    match (s.bucket.get (.snapshot d) n).bind (r.member n size) with
    | some bytes => { s with pc := .reading todo (out ++ bytes) }
    | none => { s with pc := .failed }
  | _ => s

def post (s : St) : Action → St
  | .edit m => { s with edit := (m.plan s.bucket).writes }
  | .request => request s
  | .abandon => { s with edit := [] }
  | .list => { s with
      pc := .reading (r.members s.bucket d) []
      listing := (r.members s.bucket d).map Prod.fst
      past := [s.bucket] }
  | .fetch => fetch r d s
  | .finish =>
    match s.pc with
    | .reading _ out => { s with pc := .done (out ++ Tar.zeros (r.trailer out.length)) }
    | _ => s
  | .fail => { s with pc := .failed }

def machine : Machine St Action := ⟨pre r d, post r d⟩

instance (s : St) (a : Action) : Decidable ((machine r d).pre s a) :=
  inferInstanceAs (Decidable (pre r d s a))

/-! ## The property and the condition -/

/-- A member is what the file of its name was in one of the stores. -/
def Once (past : List Bucket) (m : Bytes × Bytes) (n : Name) : Prop :=
  Tar.nts m.1 = Tar.nts n.bytes ∧ ∃ k ∈ past, k.get (.snapshot d) n = some m.2

/-- A finished archive is well formed and holds, for each listed name, what its file once was. -/
def Faithful (s : St) : Prop :=
  ∀ out, s.pc = .done out →
    ∃ ms, Tar.read {} out = some ms ∧ List.Forall₂ (Once d s.past) ms s.listing

/-- The body that is fetched fits the size that was listed. -/
def Sized (s : St) (a : Action) : Prop :=
  match a, s.pc with
  | .fetch, .reading ((n, size) :: _) _ =>
    r = .finalArchive ∨ ∀ body ∈ s.bucket.get (.snapshot d) n, r.Fits size body
  | _, _ => True

instance (s : St) (a : Action) : Decidable (Sized r d s a) := by
  unfold Sized
  split <;> infer_instance

variable {r : Reader} {d : SnapshotId} {s t : St}

/-! ## One member -/

theorem Once.mono {past past' : List Bucket} {m : Bytes × Bytes} {n : Name} (h : Once d past m n)
    (hsub : past ⊆ past') : Once d past' m n := by
  obtain ⟨hname, k, hk, hget⟩ := h
  exact ⟨hname, k, hsub hk, hget⟩

/-- A body that fits adds one whole member with just that body. -/
theorem members_member {n : Name} {size : ℕ} {body bytes out : Bytes} {ms : List (Bytes × Bytes)}
    (hms : Tar.Members out ms) (hfit : r.Fits size body) (hb : r.member n size body = some bytes) :
    ∃ name', Tar.nts name' = Tar.nts n.bytes ∧ Tar.Members (out ++ bytes) (ms ++ [(name', body)]) := by
  obtain ⟨hd, hhd, hb⟩ := Option.bind_eq_some_iff.mp hb
  have hpack : (if body.length < size then none
      else some (hd ++ (body.take size ++ Tar.zeros (Tar.padding size)))) = some bytes →
      body.length ≤ size → body.length = size ∧
        bytes = hd ++ (body ++ Tar.zeros (Tar.padding body.length)) := by
    intro hb hle
    split_ifs at hb with hlt
    cases hb
    have heq : body.length = size := by omega
    rw [List.take_of_length_le hle, heq]
    exact ⟨rfl, rfl⟩
  have hwhole : body.length = size ∧ bytes = hd ++ (body ++ Tar.zeros (Tar.padding body.length)) := by
    cases r with
    | hydrate exclude => exact ⟨hfit, (Option.some.inj hb).symm⟩
    | backup | finalArchive => exact hpack hb hfit
  obtain ⟨rfl, rfl⟩ := hwhole
  exact hms.append hhd

/-- The trailer is two or more blocks. -/
theorem trailer_spec (r : Reader) {len : ℕ} (h : len % Tar.blocksize = 0) :
    2 * Tar.blocksize ≤ r.trailer len ∧ r.trailer len % Tar.blocksize = 0 := by
  have hpack : ∀ excess, excess = (len + 2 * Tar.blocksize) % Reader.recordsize →
      (2 * Tar.blocksize + if excess = 0 then 0 else Reader.recordsize - excess) % Tar.blocksize = 0 := by
    intro excess hover
    simp only [Reader.recordsize, Tar.blocksize] at h hover ⊢
    split_ifs <;> omega
  cases r with
  | hydrate exclude => exact ⟨Nat.le_refl _, Nat.mul_mod_left _ _⟩
  | backup | finalArchive => exact ⟨Nat.le_add_right _ _, hpack _ rfl⟩

/-! ## The invariant -/

/-- Nothing is edited, and the listed sizes are those of the store. -/
structure Still (d : SnapshotId) (s : St) (todo : List (Name × ℕ)) : Prop where
  edit : s.edit = []
  sizes : ∀ x ∈ todo, ∀ body ∈ s.bucket.get (.snapshot d) x.1, body.length = x.2

/-- The reader has written whole members, each as its file once was. -/
structure Reading (r : Reader) (d : SnapshotId) (s : St) (todo : List (Name × ℕ)) (out : Bytes) : Prop where
  now : s.bucket ∈ s.past
  still : r = .finalArchive → Still d s todo
  members : ∃ ms names, Tar.Members out ms ∧ s.listing = names ++ todo.map Prod.fst ∧
    List.Forall₂ (Once d s.past) ms names

structure Inv (r : Reader) (d : SnapshotId) (s : St) : Prop where
  reading : ∀ todo out, s.pc = .reading todo out → Reading r d s todo out
  faithful : Faithful d s

/-- The listing has the sizes of the store. -/
theorem listed_sizes {k : Bucket} {x : Name × ℕ} (hx : x ∈ r.members k d) {body : Bytes}
    (hb : body ∈ k.get (.snapshot d) x.1) : body.length = x.2 := by
  have hmem : x ∈ k.listed (.snapshot d) := by
    cases r with
    | hydrate exclude => exact (List.mem_filter.mp hx).1
    | _ => exact hx
  obtain ⟨n, -, rfl⟩ := List.mem_map.mp hmem
  rw [show k.get (.snapshot d) n = some body from hb]
  rfl

theorem Pc.eq_of_isRead {pc : Pc} (h : pc.isRead) : ∃ out, pc = .reading [] out := by
  unfold isRead at h
  split at h
  · exact ⟨_, rfl⟩
  · cases h

theorem inv_init (k : Bucket) : Inv r d (init k) where
  reading _ _ h := by cases h
  faithful _ h := by cases h

/-- A request changes the store; the stores of before stay in the past. -/
theorem inv_request (hi : Inv r d s) (hne : s.edit ≠ []) : Inv r d (request s) := by
  unfold request
  split
  · exact hi
  · next q rest he =>
    split
    · next k hk =>
      refine ⟨fun todo out hpc => ?_, fun out hpc => ?_⟩
      · have hpc : s.pc = .reading todo out := hpc
        have hr := hi.reading todo out hpc
        obtain ⟨ms, names, hms, hlist, hall⟩ := hr.members
        have hpast : (if s.pc.isReading then k :: s.past else s.past) = k :: s.past := by
          rw [hpc]
          rfl
        refine ⟨?_, fun hfinal => ?_, ms, names, hms, hlist, ?_⟩
        · change k ∈ if s.pc.isReading then k :: s.past else s.past
          rw [hpast]
          exact List.mem_cons_self
        · exact absurd (hr.still hfinal).edit hne
        · change List.Forall₂ (Once d (if s.pc.isReading then k :: s.past else s.past)) ms names
          rw [hpast]
          exact hall.imp fun _ _ h => h.mono (List.subset_cons_self _ _)
      · have hpc : s.pc = .done out := hpc
        obtain ⟨ms, hread, hall⟩ := hi.faithful out hpc
        refine ⟨ms, hread, ?_⟩
        change List.Forall₂ (Once d (if s.pc.isReading then k :: s.past else s.past)) ms s.listing
        rw [hpc]
        exact hall
    · refine ⟨fun todo out hpc => ?_, hi.faithful⟩
      have hr := hi.reading todo out hpc
      exact ⟨hr.now, fun hfinal => ⟨rfl, (hr.still hfinal).sizes⟩, hr.members⟩

/-- **The step lemma of a fetch.** -/
theorem inv_fetch (hi : Inv r d s) (hs : Sized r d s .fetch) : Inv r d (fetch r d s) := by
  unfold fetch
  split
  · next n size todo out hpc =>
    have hr := hi.reading _ _ hpc
    obtain ⟨ms, names, hms, hlist, hall⟩ := hr.members
    split
    · next bytes hbytes =>
      refine ⟨fun todo' out' hpc' => ?_, fun _ h => by cases h⟩
      cases hpc'
      obtain ⟨body, hget, hmember⟩ := Option.bind_eq_some_iff.mp hbytes
      have hfit : r.Fits size body := by
        unfold Sized at hs
        rw [hpc] at hs
        rcases hs with hfinal | hs
        · subst hfinal
          exact ((hr.still rfl).sizes (n, size) List.mem_cons_self body hget).le
        · exact hs body hget
      obtain ⟨name', hname, hms'⟩ := members_member hms hfit hmember
      refine ⟨hr.now, fun hfinal => ?_, ms ++ [(name', body)], names ++ [n], hms', ?_, ?_⟩
      · exact ⟨(hr.still hfinal).edit, fun x hx => (hr.still hfinal).sizes x (List.mem_cons_of_mem _ hx)⟩
      · change s.listing = _
        rw [hlist, List.map_cons, List.append_assoc, List.singleton_append]
      · exact List.rel_append hall (.cons ⟨hname, s.bucket, hr.now, hget⟩ .nil)
    · exact ⟨fun _ _ h => (by cases h), fun _ h => (by cases h)⟩
  · exact hi

theorem inv_step {a : Action} (hi : Inv r d s) (hpre : pre r d s a) (hs : Sized r d s a) :
    Inv r d (post r d s a) := by
  cases a with
  | edit m =>
    obtain ⟨hedit, -, -, hfree⟩ := hpre
    refine ⟨fun todo out hpc => ?_, hi.faithful⟩
    have hpc : s.pc = .reading todo out := hpc
    have hr := hi.reading todo out hpc
    refine ⟨hr.now, fun hfinal => ?_, hr.members⟩
    simp [locked, hfinal, hpc, Pc.isReading] at hfree
  | request => exact inv_request hi hpre
  | abandon =>
    refine ⟨fun todo out hpc => ?_, hi.faithful⟩
    have hr := hi.reading todo out hpc
    exact ⟨hr.now, fun hfinal => ⟨rfl, (hr.still hfinal).sizes⟩, hr.members⟩
  | list =>
    refine ⟨fun todo out hpc => ?_, fun _ h => by cases h⟩
    cases hpc
    exact ⟨List.mem_singleton_self _,
      fun hfinal => ⟨hpre.2.2 hfinal, fun x hx body hb => listed_sizes hx hb⟩, [], [], .nil, rfl, .nil⟩
  | fetch => exact inv_fetch hi hs
  | finish =>
    obtain ⟨out, hpc⟩ := Pc.eq_of_isRead hpre
    obtain ⟨ms, names, hms, hlist, hall⟩ := (hi.reading _ _ hpc).members
    obtain ⟨h2, hwhole⟩ := trailer_spec r hms.whole
    simp only [post, hpc]
    refine ⟨fun _ _ h => (by cases h), fun out' hpc' => ?_⟩
    cases hpc'
    refine ⟨ms, hms.finish h2 hwhole, ?_⟩
    rw [hlist, List.map_nil, List.append_nil]
    exact hall
  | fail => exact ⟨fun _ _ h => (by cases h), fun _ h => (by cases h)⟩

/-! ## A server with one file -/

/-- A published server with the one file `a`. -/
def published (data : Bytes) : Bucket where
  objs := (∅ : AList fun _ : Key => Bytes).insert ⟨.snapshot 0, ["a"]⟩ data
  pointer := some 0
  marker := ⟨1, none⟩

/-- The prefix is listed, `a` is overwritten, and the reader fetches it. -/
def overwritten (data : Bytes) : List Action :=
  [.list, .edit (.writeFile ⟨["a"], by decide⟩ data 1), .request, .fetch]

/-! ## The archive -/

/-- **A finished archive is faithful** in every run whose fetches fit the listing. -/
theorem archive_faithful (r : Reader) (d : SnapshotId) (k : Bucket) (s : St)
    (h : (machine r d).Reach (Sized r d) (init k) s) : Faithful d s :=
  (h.invariant (I := Inv r d) (inv_init k) fun _ _ hi hpre hs => inv_step hi hpre hs).faithful

/-- A file that is overwritten in its size under a backup. -/
theorem archive_faithful_overwritten :
    ∃ s, (machine .backup 0).Reach (Sized .backup 0) (init (published [1, 1])) s ∧ s.pc.isDone ∧
      Faithful 0 s := by
  have hrun : (((machine .backup 0).guard (Sized .backup 0)).exec (overwritten [2, 3] ++ [.finish])
      (init (published [1, 1]))).map (fun s => s.pc.isDone) = some true := by decide +kernel
  obtain ⟨s, hr, hdone⟩ := Machine.reach_of_exec_map hrun
  have hr := Machine.reach_of_guard hr
  exact ⟨s, hr, hdone, archive_faithful .backup 0 _ s hr⟩

/-! ## A file that changes its size under the reader -/

/-- What is written when every member is fetched. -/
def Pc.written : Pc → Option Bytes
  | reading [] out => some out
  | _ => none

/-- What a reader that has fetched all has written, what it listed, and what `a` was since then. -/
def St.observed (s : St) : Option Bytes × List Name × List (Option Bytes) :=
  (s.pc.written, s.listing, s.past.map fun k => k.get (.snapshot 0) ["a"])

/-- The header of `a` with a size. -/
def headerOfA (f : Tar.Format) (size : ℕ) : Bytes := (Tar.tobuf f [97] size).getD []

theorem tobuf_headerOfA {f : Tar.Format} {size : ℕ} (h : (Tar.tobuf f [97] size).isSome) :
    Tar.tobuf f [97] size = some (headerOfA f size) := by
  obtain ⟨hd, hhd⟩ := Option.isSome_iff_exists.mp h
  rw [headerOfA, hhd]
  rfl

/-- A reader that has fetched every member finishes. -/
theorem reach_done {s₀ : St} {out : Bytes} {names : List Name} {bodies : List (Option Bytes)}
    (h : ∃ s, (machine r d).Reach Machine.Any s₀ s ∧ s.observed = (some out, names, bodies)) :
    ∃ s, (machine r d).Reach Machine.Any s₀ s ∧ s.pc = .done (out ++ Tar.zeros (r.trailer out.length)) ∧
      s.listing = names ∧ s.past.map (fun k => k.get (.snapshot 0) ["a"]) = bodies := by
  obtain ⟨s, hr, ho⟩ := h
  obtain ⟨hw, ho⟩ := Prod.mk.inj ho
  obtain ⟨hl, hb⟩ := Prod.mk.inj ho
  have hpc : s.pc = .reading [] out := by
    unfold Pc.written at hw
    split at hw
    · next he =>
      rw [he, Option.some.inj hw]
    · cases hw
  have hpre : (machine r d).pre s .finish := by
    change s.pc.isRead = true
    rw [hpc]
    rfl
  have hpost : (machine r d).post s .finish =
      { s with pc := .done (out ++ Tar.zeros (r.trailer out.length)) } := by
    change post r d s .finish = _
    simp only [post, hpc]
  refine ⟨_, hr.step .finish hpre trivial, ?_⟩
  rw [hpost]
  exact ⟨rfl, hl, hb⟩

/-- An empty file grows to one byte: the byte stands where the next header belongs. -/
theorem stream_shifted :
    ∃ s, (machine (.hydrate []) 0).Reach Machine.Any (init (published [])) s ∧
      ∃ out, s.pc = .done out ∧ Tar.read {} out = none := by
  have hrun : ((machine (.hydrate []) 0).exec (overwritten [120]) (init (published []))).map St.observed =
      some (some (headerOfA .gnu 0 ++ ([120] ++ Tar.zeros 511)), [["a"]], [some [120], some []]) := by
    decide +kernel
  obtain ⟨s, hr, hpc, -⟩ := reach_done (Machine.reach_of_exec_map hrun)
  refine ⟨s, hr, _, hpc, ?_⟩
  have hhd : Tar.tobuf .gnu [97] 0 = some (headerOfA .gnu 0) := tobuf_headerOfA (by decide +kernel)
  obtain ⟨name', -, hread⟩ := Tar.read_tobuf hhd
  have hjunk : Tar.parse ([120] ++ Tar.zeros 511) = none := by decide +kernel
  have hlen : ([120] ++ Tar.zeros 511 : Bytes).length = Tar.blocksize := by
    rw [List.length_append, Tar.length_zeros]
    rfl
  rw [List.append_assoc, hread]
  split_ifs
  · rfl
  · rw [show (0 : ℕ) + Tar.padding 0 = 0 from rfl, List.drop_zero, Tar.read_junk hlen (by decide) hjunk]
    rfl

/-- A file of two bytes is overwritten with three: the backup keeps the first two of the new ones. -/
theorem backup_truncated :
    ∃ s, (machine .backup 0).Reach Machine.Any (init (published [1, 1])) s ∧
      ∃ out name', s.pc = .done out ∧ Tar.read {} out = some [(name', [2, 3])] ∧ s.listing = [["a"]] ∧
        s.past.map (fun k => k.get (.snapshot 0) ["a"]) = [some [2, 3, 4], some [1, 1]] := by
  have hrun : ((machine .backup 0).exec (overwritten [2, 3, 4]) (init (published [1, 1]))).map St.observed =
      some (some ([] ++ (headerOfA .pax 2 ++ ([2, 3] ++ Tar.zeros (Tar.padding ([2, 3] : Bytes).length)))),
        [["a"]], [some [2, 3, 4], some [1, 1]]) := by
    decide +kernel
  obtain ⟨s, hr, hpc, hlist, hpast⟩ := reach_done (Machine.reach_of_exec_map hrun)
  have hhd : Tar.tobuf .pax [97] ([2, 3] : Bytes).length = some (headerOfA .pax 2) :=
    tobuf_headerOfA (by decide +kernel)
  obtain ⟨name', -, hms⟩ := Tar.Members.nil.append hhd
  obtain ⟨h2, hwhole⟩ := trailer_spec .backup hms.whole
  exact ⟨s, hr, _, name', hpc, (hms.finish h2 hwhole).trans (congrArg some (List.nil_append _)), hlist, hpast⟩

/-- A file that is overwritten between the listing and its GET breaks a hydrate and a backup. -/
theorem archive_unfaithful :
    (∃ s, (machine (.hydrate []) 0).Reach Machine.Any (init (published [])) s ∧ ¬ Faithful 0 s) ∧
      ∃ s, (machine .backup 0).Reach Machine.Any (init (published [1, 1])) s ∧ ¬ Faithful 0 s := by
  constructor
  · obtain ⟨s, hr, out, hpc, hnone⟩ := stream_shifted
    refine ⟨s, hr, fun hf => ?_⟩
    obtain ⟨ms, hms, -⟩ := hf out hpc
    rw [hnone] at hms
    cases hms
  · obtain ⟨s, hr, out, name', hpc, hread, hlist, hpast⟩ := backup_truncated
    refine ⟨s, hr, fun hf => ?_⟩
    obtain ⟨ms, hms, hall⟩ := hf out hpc
    rw [hread] at hms
    cases hms
    rw [hlist] at hall
    cases hall with
    | cons honce _ =>
      obtain ⟨-, k, hk, hget⟩ := honce
      have hmem : some [2, 3] ∈ s.past.map fun k => k.get (.snapshot 0) ["a"] :=
        List.mem_map.mpr ⟨k, hk, hget⟩
      rw [hpast] at hmem
      revert hmem
      decide

end Stream

end McServerDashboard.Obj
