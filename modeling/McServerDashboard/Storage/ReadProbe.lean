import McServerDashboard.Lib.PrefixCodes

/-!
# The probe of a gzip stream

`GzipReadProbe` decompresses a stream chunk by chunk, with a limit on what comes out of a call, and drops what comes
out. It goes from member to member, and stops at what is none.

* `Zlib`: `zlib.decompressobj`, as it is documented.
* `feedLoop`, `feed`, `finish`, `probe`: the probe.
* `Reading`: what the probe has read; `feedLoop_spec`, `Reading.feed`.
* **`probe_accepts_iff`**: it accepts members with nothing, one byte, or no further member behind them, however they are
  cut into chunks.
-/

namespace McServerDashboard.Storage.ReadProbe

open Lib.PrefixCodes

/-! ## Decompressors -/

/-- `_GZIP_MAGIC`. -/
def gzipMagic : List UInt8 := [0x1f, 0x8b]

/-- `_OUT_CHUNK`. -/
def outChunk : ℕ := 8 * 1024 * 1024

/-- `zlib.decompressobj` for gzip: the objects `D`, where a `Member` is a complete stream with its header and its
trailer. What an object has seen and produced, and how much a stream expands to, the caller cannot ask for. -/
structure Zlib (D : Type*) (Member : List UInt8 → Prop) where
  new : D
  eof : D → Bool
  /-- `none` is a `zlib.error`. -/
  decompress : D → List UInt8 → ℕ → Option D
  unconsumedTail : D → List UInt8
  unusedData : D → List UInt8
  seen : D → List UInt8
  produced : D → ℕ
  expansion : List UInt8 → ℕ
  /-- A member ends where its trailer does, and begins with the signature. -/
  delimited : PrefixFree Member
  signed : ∀ m, Member m → gzipMagic <+: m
  new_eof : eof new = false
  new_seen : seen new = []
  /-- An error is raised for data that is no stream. -/
  error : ∀ d chunk limit, eof d = false → decompress d chunk limit = none →
    ∀ m, Member m → ¬ m <+: seen d ++ chunk ∧ ¬ seen d ++ chunk <+: m
  /-- At the end of a stream, the bytes past the end are in `unused_data`, and no others in `unconsumed_tail`. -/
  ended : ∀ d chunk limit d', eof d = false → decompress d chunk limit = some d' → eof d' = true →
    Member (seen d') ∧ seen d' ++ unusedData d' = seen d ++ chunk ∧
      (unconsumedTail d' = [] ∨ unconsumedTail d' = unusedData d')
  /-- Before that, the bytes that have not been seen are in `unconsumed_tail`. -/
  unfinished : ∀ d chunk limit d', eof d = false → decompress d chunk limit = some d' → eof d' = false →
    Free Member (seen d') ∧ ∃ consumed, chunk = consumed ++ unconsumedTail d' ∧ seen d' = seen d ++ consumed
  /-- Bytes are left over only where the limit has been reached. -/
  limited : ∀ d chunk limit d', eof d = false → decompress d chunk limit = some d' → eof d' = false →
    unconsumedTail d' ≠ [] → produced d' = produced d + limit
  bounded : ∀ d, produced d ≤ expansion (seen d)
  expansion_mono : ∀ s t, s <+: t → expansion s ≤ expansion t

/-! ## The probe -/

variable {D : Type*} {Member : List UInt8 → Prop} (z : Zlib D Member)

inductive ArchiveUnreadableError
  | notReadable
  | endedEarly
  deriving DecidableEq

structure GzipReadProbe (D : Type*) where
  decompressor : D
  padding : Bool
  undecided : List UInt8

def GzipReadProbe.start : GzipReadProbe D := ⟨z.new, false, []⟩

/-- The loop of `feed`; `none` if the fuel does not do. -/
def feedLoop : ℕ → GzipReadProbe D → List UInt8 → Option (Except ArchiveUnreadableError (GzipReadProbe D))
  | _, p, [] => some (.ok p)
  | 0, _, _ :: _ => none
  | fuel + 1, p, b :: bs =>
    let chunk := b :: bs
    if z.eof p.decompressor ∧ chunk.length < gzipMagic.length then some (.ok { p with undecided := chunk })
    else if z.eof p.decompressor ∧ ¬ gzipMagic <+: chunk then some (.ok { p with padding := true })
    else
      match z.decompress (if z.eof p.decompressor then z.new else p.decompressor) chunk outChunk with
      | none => some (.error .notReadable)
      | some d =>
        feedLoop fuel { p with decompressor := d }
          (if z.unconsumedTail d ≠ [] then z.unconsumedTail d else if z.eof d then z.unusedData d else [])

def feed (fuel : ℕ) (p : GzipReadProbe D) (chunk : List UInt8) :
    Option (Except ArchiveUnreadableError (GzipReadProbe D)) :=
  if p.padding then some (.ok p) else feedLoop z fuel { p with undecided := [] } (p.undecided ++ chunk)

def finish (p : GzipReadProbe D) : Except ArchiveUnreadableError Unit :=
  if p.padding ∨ p.undecided ≠ [] then .ok ()
  else if z.eof p.decompressor then .ok ()
  else .error .endedEarly

/-- Feed the chunks, and finish. -/
def probe (fuel : ℕ) : List (List UInt8) → GzipReadProbe D → Option (Except ArchiveUnreadableError Unit)
  | [], p => some (finish z p)
  | chunk :: chunks, p =>
    match feed z fuel p chunk with
    | none => none
    | some (.error e) => some (.error e)
    | some (.ok p) => probe fuel chunks p

/-- What may follow a member that is none: nothing, a byte, or bytes without the signature. -/
def Trailing (rest : List UInt8) : Prop := rest = [] ∨ rest.length = 1 ∨ ¬ gzipMagic <+: rest

/-! ## What has been read -/

variable {z} {d d' : D} {W chunk rest later : List UInt8} {p : GzipReadProbe D} {ms : List (List UInt8)}

/-- `W` has been fed, and `chunk` of it is left: the rest is members, and what the decompressor has seen of one. -/
def Reading (z : Zlib D Member) (d : D) (chunk W : List UInt8) : Prop :=
  ∃ ms, (∀ m ∈ ms, Member m) ∧
    ((z.eof d = true ∧ ms ≠ [] ∧ W = ms.flatten ++ chunk) ∨
      (z.eof d = false ∧ W = ms.flatten ++ (z.seen d ++ chunk) ∧ Free Member (z.seen d) ∧
        (ms = [] ∨ gzipMagic <+: z.seen d ++ chunk)))

/-- What is accepted. -/
def Accepted (Member : List UInt8 → Prop) (W : List UInt8) : Prop := Encoded Member Trailing W

theorem Zlib.free_trailing (z : Zlib D Member) (h : Trailing rest) : Free Member rest := by
  intro m hm hp
  have hmagic := (z.signed m hm).trans hp
  have hlength := hmagic.length_le
  rcases h with rfl | h | h
  · cases hlength
  · rw [h] at hlength
    exact absurd hlength (by decide)
  · exact h hmagic

/-- What begins with the signature, and with no member, is not accepted behind members, nor by itself. -/
theorem Zlib.not_accepted (z : Zlib D Member) (hms : ∀ m ∈ ms, Member m) (hfree : Free Member rest)
    (hmagic : ms = [] ∨ gzipMagic <+: rest) : ¬ Accepted Member (ms.flatten ++ rest) := by
  rw [Accepted, encoded_iff z.delimited (fun _ => z.free_trailing) hms hfree]
  rintro ⟨hne, htrailing⟩
  have hmagic := hmagic.resolve_left hne
  have hlength := hmagic.length_le
  rcases htrailing with rfl | h | h
  · cases hlength
  · rw [h] at hlength
    exact absurd hlength (by decide)
  · exact h hmagic

/-- An error is raised for what is not accepted, whatever follows. -/
theorem Reading.error (h : Reading z d chunk W) (heof : z.eof d = false) (herr : z.decompress d chunk outChunk = none) :
    ¬ Accepted Member (W ++ later) := by
  obtain ⟨ms, hms, ⟨ht, -⟩ | ⟨-, rfl, -, hmagic⟩⟩ := h
  · rw [heof] at ht
    cases ht
  rw [List.append_assoc]
  exact z.not_accepted hms (free_append_of_incomparable (z.error d chunk outChunk heof herr) later)
    (hmagic.imp_right fun hp => hp.trans (List.prefix_append _ _))

/-- At the end of a member, the bytes behind it are left, fewer than before. -/
theorem Reading.ended (h : Reading z d chunk W) (heof : z.eof d = false)
    (hok : z.decompress d chunk outChunk = some d') (hend : z.eof d' = true) :
    Reading z d' (z.unusedData d') W ∧ (z.unusedData d').length < chunk.length := by
  obtain ⟨ms, hms, ⟨ht, -⟩ | ⟨-, rfl, hfree, -⟩⟩ := h
  · rw [heof] at ht
    cases ht
  obtain ⟨hmember, hsplit, -⟩ := z.ended d chunk outChunk d' heof hok hend
  refine ⟨⟨ms ++ [z.seen d'], ?_, .inl ⟨hend, by simp, ?_⟩⟩, ?_⟩
  · intro m hm
    rcases List.mem_append.mp hm with hm | hm
    · exact hms m hm
    · exact List.mem_singleton.mp hm ▸ hmember
  · rw [List.flatten_append, List.flatten_singleton, List.append_assoc, hsplit]
  · -- the member goes beyond what had been seen, which no member begins
    have hlt : (z.seen d).length < (z.seen d').length := by
      by_contra hle
      refine hfree _ hmember (List.prefix_of_prefix_length_le ?_ (List.prefix_append _ chunk) (Nat.le_of_not_lt hle))
      rw [← hsplit]
      exact List.prefix_append _ _
    have hlength := congrArg List.length hsplit
    rw [List.length_append, List.length_append] at hlength
    omega

/-- How much may still be produced. -/
def slack (z : Zlib D Member) (d : D) (chunk : List UInt8) : ℕ := z.expansion (z.seen d ++ chunk) - z.produced d

/-- In the middle of a member, the tail is left; if it is all, something has been produced. -/
theorem Reading.unfinished (h : Reading z d chunk W) (heof : z.eof d = false)
    (hok : z.decompress d chunk outChunk = some d') (hend : z.eof d' = false) :
    Reading z d' (z.unconsumedTail d') W ∧ (z.unconsumedTail d').length ≤ chunk.length ∧
      (z.unconsumedTail d' ≠ [] → slack z d' (z.unconsumedTail d') < slack z d chunk) := by
  obtain ⟨ms, hms, ⟨ht, -⟩ | ⟨-, rfl, -, hmagic⟩⟩ := h
  · rw [heof] at ht
    cases ht
  obtain ⟨hfree, consumed, hchunk, hseen⟩ := z.unfinished d chunk outChunk d' heof hok hend
  have hsplit : z.seen d' ++ z.unconsumedTail d' = z.seen d ++ chunk := by
    rw [hseen, List.append_assoc, ← hchunk]
  refine ⟨⟨ms, hms, .inr ⟨hend, ?_, hfree, ?_⟩⟩, ?_, fun htail => ?_⟩
  · rw [hsplit]
  · rwa [hsplit]
  · have hlength := congrArg List.length hchunk
    rw [List.length_append] at hlength
    omega
  · have hproduced := z.limited d chunk outChunk d' heof hok hend htail
    have hbound := (z.bounded d').trans (z.expansion_mono _ _ (List.prefix_append (z.seen d') (z.unconsumedTail d')))
    have hout : 0 < outChunk := by decide
    rw [slack, slack, hsplit]
    rw [hsplit] at hbound
    omega

/-- Another member begins. -/
theorem Reading.next (h : Reading z d chunk W) (hmagic : z.eof d = true → gzipMagic <+: chunk) :
    Reading z (if z.eof d then z.new else d) chunk W ∧ z.eof (if z.eof d then z.new else d) = false := by
  cases heof : z.eof d with
  | false =>
    rw [if_neg Bool.false_ne_true]
    exact ⟨h, heof⟩
  | true =>
    rw [if_pos rfl]
    obtain ⟨ms, hms, ⟨-, hne, rfl⟩ | ⟨ht, -⟩⟩ := h
    · refine ⟨⟨ms, hms, .inr ⟨z.new_eof, ?_, ?_, .inr ?_⟩⟩, z.new_eof⟩
      · rw [z.new_seen, List.nil_append]
      · rw [z.new_seen]
        exact z.free_trailing (.inl rfl)
      · rw [z.new_seen]
        exact hmagic heof
    · rw [heof] at ht
      cases ht

/-! ## The loop -/

/-- The probe between two chunks. -/
inductive Read (z : Zlib D Member) (W : List UInt8) : GzipReadProbe D → Prop
  | padding {d : D} {ms : List (List UInt8)} {r : List UInt8} : ms ≠ [] → (∀ m ∈ ms, Member m) →
      gzipMagic.length ≤ r.length → ¬ gzipMagic <+: r → W = ms.flatten ++ r → Read z W ⟨d, true, []⟩
  | undecided {d : D} {ms : List (List UInt8)} {b : UInt8} : z.eof d = true → ms ≠ [] → (∀ m ∈ ms, Member m) →
      W = ms.flatten ++ [b] → Read z W ⟨d, false, [b]⟩
  | decompressing {d : D} : Reading z d [] W → Read z W ⟨d, false, []⟩

/-- What a chunk leads to: the probe has read it, or refuses what it has read. -/
def Outcome (z : Zlib D Member) (W : List UInt8) : Except ArchiveUnreadableError (GzipReadProbe D) → Prop
  | .ok p => Read z W p
  | .error _ => ∀ later, ¬ Accepted Member (W ++ later)

/-- A turn of the loop that decompresses. -/
theorem feedLoop_succ {fuel : ℕ} {b : UInt8} {bs : List UInt8}
    (hmagic : z.eof d = true → gzipMagic <+: b :: bs) : feedLoop z (fuel + 1) ⟨d, false, []⟩ (b :: bs) =
      match z.decompress (if z.eof d then z.new else d) (b :: bs) outChunk with
      | none => some (.error .notReadable)
      | some d => feedLoop z fuel ⟨d, false, []⟩
          (if z.unconsumedTail d ≠ [] then z.unconsumedTail d else if z.eof d then z.unusedData d else []) := by
  rw [feedLoop]
  simp only
  rw [if_neg fun h => Nat.not_lt_of_le (hmagic h.1).length_le h.2, if_neg fun h => h.2 (hmagic h.1)]

/-- **The loop ends**, after members or refusing what is none: with each turn there are fewer bytes, or as many and less
to produce. -/
theorem feedLoop_spec (L : ℕ) : ∀ K d chunk, chunk.length ≤ L →
    slack z (if z.eof d then z.new else d) chunk ≤ K → Reading z d chunk W →
      ∃ n r, (∀ fuel ≥ n, feedLoop z fuel ⟨d, false, []⟩ chunk = some r) ∧ Outcome z W r := by
  induction L using Nat.strong_induction_on with
  | _ L ihL =>
  intro K
  induction K using Nat.strong_induction_on with
  | _ K ihK =>
  intro d chunk hL hK hreading
  cases chunk with
  | nil => exact ⟨0, .ok ⟨d, false, []⟩, fun fuel _ => by cases fuel <;> rfl, .decompressing hreading⟩
  | cons b bs =>
    by_cases hshort : z.eof d = true ∧ (b :: bs).length < gzipMagic.length
    · -- a byte is held back
      obtain rfl : bs = [] := List.length_eq_zero_iff.mp (Nat.lt_one_iff.mp (Nat.lt_of_succ_lt_succ hshort.2))
      refine ⟨1, .ok ⟨d, false, [b]⟩, fun fuel hfuel => ?_, ?_⟩
      · obtain ⟨fuel, rfl⟩ := Nat.exists_eq_add_of_le' hfuel
        rw [feedLoop]
        exact if_pos hshort
      · obtain ⟨ms, hms, ⟨-, hne, rfl⟩ | ⟨hf, -⟩⟩ := hreading
        · exact .undecided hshort.1 hne hms rfl
        · rw [hshort.1] at hf
          cases hf
    by_cases hpadding : z.eof d = true ∧ ¬ gzipMagic <+: b :: bs
    · refine ⟨1, .ok ⟨d, true, []⟩, fun fuel hfuel => ?_, ?_⟩
      · obtain ⟨fuel, rfl⟩ := Nat.exists_eq_add_of_le' hfuel
        rw [feedLoop]
        simp only
        rw [if_neg hshort, if_pos hpadding]
      · obtain ⟨ms, hms, ⟨-, hne, rfl⟩ | ⟨hf, -⟩⟩ := hreading
        · exact .padding hne hms (Nat.le_of_not_lt fun h => hshort ⟨hpadding.1, h⟩) hpadding.2 rfl
        · rw [hpadding.1] at hf
          cases hf
    have hmagic : z.eof d = true → gzipMagic <+: b :: bs := fun heof =>
      Decidable.not_not.mp fun h => hpadding ⟨heof, h⟩
    obtain ⟨hnext, heof⟩ := hreading.next hmagic
    cases hdec : z.decompress (if z.eof d then z.new else d) (b :: bs) outChunk with
    | none =>
      refine ⟨1, .error .notReadable, fun fuel hfuel => ?_, fun later => hnext.error heof hdec⟩
      obtain ⟨fuel, rfl⟩ := Nat.exists_eq_add_of_le' hfuel
      rw [feedLoop_succ hmagic, hdec]
    | some d' =>
      -- what is left is read on, by one of the hypotheses of the induction
      have hon : ∀ left, (if z.unconsumedTail d' ≠ [] then z.unconsumedTail d' else
            if z.eof d' then z.unusedData d' else []) = left →
          (∃ n r, (∀ fuel ≥ n, feedLoop z fuel ⟨d', false, []⟩ left = some r) ∧ Outcome z W r) →
          ∃ n r, (∀ fuel ≥ n, feedLoop z fuel ⟨d, false, []⟩ (b :: bs) = some r) ∧ Outcome z W r := by
        rintro left hleft ⟨n, r, hn, hr⟩
        refine ⟨n + 1, r, fun fuel hfuel => ?_, hr⟩
        obtain ⟨fuel, rfl⟩ := Nat.exists_eq_add_of_le' (Nat.le_trans (Nat.le_add_left 1 n) hfuel)
        rw [feedLoop_succ hmagic, hdec]
        simp only
        rw [hleft]
        exact hn fuel (Nat.le_of_succ_le_succ hfuel)
      cases hend : z.eof d' with
      | true =>
        obtain ⟨hread, hlt⟩ := hnext.ended heof hdec hend
        refine hon (z.unusedData d') ?_ (ihL _ (Nat.lt_of_lt_of_le hlt hL) _ d' _ (Nat.le_refl _) (Nat.le_refl _) hread)
        rcases (z.ended _ _ outChunk d' heof hdec hend).2.2 with htail | htail
        · rw [if_neg (not_not.mpr htail), if_pos hend]
        · rw [htail, if_pos hend]
          split_ifs <;> rfl
      | false =>
        obtain ⟨hread, hle, hslack⟩ := hnext.unfinished heof hdec hend
        have hcur : (if z.eof d' then z.new else d') = d' := if_neg (by rw [hend]; exact Bool.false_ne_true)
        refine hon (z.unconsumedTail d') ?_ ?_
        · rw [if_neg (show ¬ z.eof d' = true by rw [hend]; exact Bool.false_ne_true)]
          split_ifs with htail
          · rfl
          · exact (Decidable.not_not.mp htail).symm
        by_cases htail : z.unconsumedTail d' = []
        · rw [htail] at hread ⊢
          exact ⟨0, .ok ⟨d', false, []⟩, fun fuel _ => by cases fuel <;> rfl, .decompressing hread⟩
        · exact ihK _ (Nat.lt_of_lt_of_le (hslack htail) hK) d' _ (Nat.le_trans hle hL) (by rw [hcur]) hread

/-- A chunk is read, with what had been held back. -/
theorem Read.feed (h : Read z W p) (chunk : List UInt8) :
    ∃ n r, (∀ fuel ≥ n, feed z fuel p chunk = some r) ∧ Outcome z (W ++ chunk) r := by
  cases h with
  | @padding d ms rest hne hms hlength hmagic heq =>
    refine ⟨0, .ok ⟨d, true, []⟩, fun fuel _ => rfl, .padding (r := rest ++ chunk) hne hms ?_ ?_ ?_⟩
    · rw [List.length_append]
      exact Nat.le_trans hlength (Nat.le_add_right _ _)
    · exact fun hp => hmagic (List.prefix_of_prefix_length_le hp (List.prefix_append _ _) hlength)
    · rw [heq, List.append_assoc]
  | undecided heof hne hms heq =>
    refine feedLoop_spec _ _ _ _ (Nat.le_refl _) (Nat.le_refl _) ⟨_, hms, .inl ⟨heof, hne, ?_⟩⟩
    rw [heq, List.append_assoc]
  | decompressing hreading =>
    refine feedLoop_spec _ _ _ _ (Nat.le_refl _) (Nat.le_refl _) ?_
    obtain ⟨ms, hms, ⟨heof, hne, rfl⟩ | ⟨heof, rfl, hfree, hmagic⟩⟩ := hreading
    · exact ⟨ms, hms, .inl ⟨heof, hne, by rw [List.append_nil]; rfl⟩⟩
    · refine ⟨ms, hms, .inr ⟨heof, ?_, hfree, ?_⟩⟩
      · rw [List.append_nil, List.append_assoc]
        rfl
      · rw [List.append_nil] at hmagic
        exact hmagic.imp_right fun hp => hp.trans (List.prefix_append _ _)

/-- At the end the verdict is right. -/
theorem Read.finish (h : Read z W p) : finish z p = .ok () ↔ Accepted Member W := by
  cases h with
  | padding hne hms hlength hmagic heq =>
    exact iff_of_true rfl ⟨_, _, hne, hms, .inr (.inr hmagic), heq⟩
  | undecided heof hne hms heq =>
    exact iff_of_true rfl ⟨_, _, hne, hms, .inr (.inl rfl), heq⟩
  | decompressing hreading =>
    rw [ReadProbe.finish, if_neg (by simp)]
    obtain ⟨ms, hms, ⟨heof, hne, rfl⟩ | ⟨heof, rfl, hfree, hmagic⟩⟩ := hreading
    · rw [if_pos heof]
      exact iff_of_true rfl ⟨ms, [], hne, hms, .inl rfl, rfl⟩
    · rw [if_neg (by rw [heof]; exact Bool.false_ne_true)]
      rw [List.append_nil] at hmagic ⊢
      exact iff_of_false nofun (z.not_accepted hms hfree hmagic)

theorem Read.probe {chunks : List (List UInt8)} (h : Read z W p) :
    ∃ n r, (∀ fuel ≥ n, probe z fuel chunks p = some r) ∧ (r = .ok () ↔ Accepted Member (W ++ chunks.flatten)) := by
  induction chunks generalizing W p with
  | nil =>
    refine ⟨0, ReadProbe.finish z p, fun fuel _ => rfl, ?_⟩
    rw [List.flatten_nil, List.append_nil]
    exact h.finish
  | cons chunk chunks ih =>
    obtain ⟨n, r, hn, hr⟩ := h.feed chunk
    rw [List.flatten_cons, ← List.append_assoc]
    cases r with
    | error e =>
      refine ⟨n, .error e, fun fuel hfuel => ?_, iff_of_false nofun (hr _)⟩
      rw [ReadProbe.probe, hn fuel hfuel]
    | ok p' =>
      obtain ⟨n', r, hn', hr'⟩ := ih hr
      refine ⟨max n n', r, fun fuel hfuel => ?_, hr'⟩
      rw [ReadProbe.probe, hn fuel (Nat.le_trans (Nat.le_max_left _ _) hfuel)]
      exact hn' fuel (Nat.le_trans (Nat.le_max_right _ _) hfuel)

/-- **The probe accepts** one or more members with nothing, one byte, or bytes without the signature behind them, and
nothing else, however the stream is cut into chunks. -/
theorem probe_accepts_iff (z : Zlib D Member) (chunks : List (List UInt8)) :
    ∃ n r, (∀ fuel ≥ n, probe z fuel chunks (.start z) = some r) ∧
      (r = .ok () ↔ Encoded Member Trailing chunks.flatten) := by
  have hstart : Read z [] (.start z) := by
    refine .decompressing ⟨[], fun m hm => (by cases hm), .inr ⟨z.new_eof, ?_, ?_, .inl rfl⟩⟩
    · rw [z.new_seen]
      rfl
    · rw [z.new_seen]
      exact z.free_trailing (.inl rfl)
  exact hstart.probe

/-! ## Streams of one member -/

/-- A decompressor that knows one member, which expands to nothing. -/
structure Single where
  seen : List UInt8
  unused : List UInt8
  eof : Bool

def Single.decompress (m : List UInt8) (d : Single) (chunk : List UInt8) : Option Single :=
  if m <+: d.seen ++ chunk then some ⟨m, (d.seen ++ chunk).drop m.length, true⟩
  else if d.seen ++ chunk <+: m then some ⟨d.seen ++ chunk, [], false⟩
  else none

def Zlib.single (m : List UInt8) (hm : gzipMagic <+: m) : Zlib Single (· = m) where
  new := ⟨[], [], false⟩
  eof := Single.eof
  decompress d chunk _ := d.decompress m chunk
  unconsumedTail _ := []
  unusedData := Single.unused
  seen := Single.seen
  produced _ := 0
  expansion _ := 0
  delimited _ _ h h' _ := h.trans h'.symm
  signed _ h := h ▸ hm
  new_eof := rfl
  new_seen := rfl
  error d chunk _ _ h := by
    rintro _ rfl
    unfold Single.decompress at h
    split_ifs at h with h1 h2
    exact ⟨h1, h2⟩
  ended d chunk _ d' _ h hend := by
    unfold Single.decompress at h
    split_ifs at h with h1 h2
    · cases h
      exact ⟨rfl, List.prefix_iff_eq_append.mp h1, .inl rfl⟩
    · cases h
      cases hend
  unfinished d chunk _ d' _ h hend := by
    unfold Single.decompress at h
    split_ifs at h with h1 h2
    · cases h
      cases hend
    · cases h
      refine ⟨?_, chunk, (List.append_nil _).symm, rfl⟩
      rintro _ rfl
      exact h1
  limited d chunk _ d' _ _ _ h := absurd rfl h
  bounded _ := Nat.le_refl 0
  expansion_mono _ _ _ := Nat.le_refl 0

/-- The member of an empty file. -/
def emptyMember : List UInt8 :=
  [0x1f, 0x8b, 0x08, 0, 0, 0, 0, 0, 0, 0xff, 0x03, 0, 0, 0, 0, 0, 0, 0, 0, 0]

def emptyFiles : Zlib Single (· = emptyMember) := .single emptyMember (by decide)

/-- Two members with a zero behind them, byte by byte. -/
theorem probe_accepts_iff_emptyFiles :
    ∃ n r, (∀ fuel ≥ n, probe emptyFiles fuel ((emptyMember ++ emptyMember ++ [0]).map fun b => [b])
        (.start emptyFiles) = some r) ∧
      (r = .ok () ↔ Encoded (· = emptyMember) Trailing ((emptyMember ++ emptyMember ++ [0]).map fun b => [b]).flatten) :=
  probe_accepts_iff _ _

example : probe emptyFiles 50 [emptyMember ++ [0x1f], [], [0x00]] (.start emptyFiles) = some (.ok ()) := by decide

example : probe emptyFiles 50 [emptyMember ++ [0x1f], [0x8b]] (.start emptyFiles) = some (.error .endedEarly) := by
  decide

end McServerDashboard.Storage.ReadProbe
