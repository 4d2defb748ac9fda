import McServerDashboard.Worker.Ownership

/-!
# The save-offs before a stop

* `Ledger`: what the ledger says of the save-offs that were sent.
* `Pc.Keeps`: what the thread that holds the id, and each restore, knows of them.
* **`save_offs_kept`**: a save-off stays recorded until its instance is gone or a save-on after it has
  succeeded, none is recorded once the ledger is sealed, and a failed stop ends with a save-on tried.
-/

namespace McServerDashboard.Worker.Instances

open Lib

/-- The save-off `gen` was recorded before the one that is about to be sent. -/
def State.Past (s : State) (gen : ℕ) : Prop := gen ≤ s.seq ∧ ∀ g, s.due = some g → gen < g

/-- A save-on was tried for every save-off of an instance that may run. -/
def State.Tried (s : State) : Prop := ∀ x ∈ s.outstanding, s.gone x.2 = false → x.1 ∉ s.untried

structure Ledger (s : State) : Prop where
  unsettled : ∀ g, s.unsettled = some g → g ≤ s.seq
  written : ∀ g, s.written g = true → s.Past g
  due : ∀ g, s.due = some g → g ≤ s.seq ∧ ∃ i, s.held = some i ∧ (s.unsettled = some g ∨ s.gone i = true)
  launched : ∀ x ∈ s.outstanding, x.2 < s.launched
  kept : ∀ x ∈ s.outstanding, s.gone x.2 = false → ∃ g, x.1 ≤ g ∧ s.unsettled = some g
  sent : ∀ g ∈ s.sent, g ≤ s.seq
  closed : ∀ q, s.sealedAt = some q → s.sealed = true
  sealed : ∀ q, s.sealedAt = some q → ∀ g, g ∈ s.sent ∨ s.due = some g ∨ s.unsettled = some g → g ≤ q

/-! ## What a thread knows -/

def StopPc.Keeps (s : State) : StopPc → Prop
  | .saveOff gen => s.due = some gen
  | .saveOffWritten gen => s.due = none ∧ gen ≤ s.seq
  | _ => s.due = none

/-- The save-offs up to which it restores. -/
def RestorePc.gen : RestorePc → ℕ
  | .dialing gen => gen
  | .sending gen => gen
  | .sent gen _ => gen
  | .settling gen => gen

/-- The save-on comes after the save-offs that it will settle. -/
def RestorePc.Covers (s : State) : RestorePc → Prop
  | .sent gen covers => ∀ x ∈ s.outstanding, x.1 ≤ gen → x ∈ covers
  | .settling gen => ∀ x ∈ s.outstanding, gen < x.1
  | _ => True

def RestorePc.tried : RestorePc → Bool
  | .dialing _ => false
  | _ => true

structure Restorer.Keeps (s : State) (r : Restorer) (k : RestorePc) : Prop where
  past : s.Past k.gen
  covers : k.Covers s
  close : r = .close → s.written k.gen = true
  lane : r ≠ .close → s.due = none ∧ (k.tried = true → s.Tried)

def Pc.Keeps (s : State) : Pc → Prop
  | .stop _ _ k => k.Keeps s
  | .restore r k => r.Keeps s k
  | .releasing _ _ stopped => s.due = none ∧ (stopped = false → s.Tried)
  | p => p.Holds → s.due = none

/-- What a step of `t` leaves to the others. -/
structure Leaves (s s' : State) (t : ℕ) : Prop where
  seq : s.seq ≤ s'.seq
  due : ∀ g, s'.due = some g → s.due = some g ∨ s.seq < g
  written : ∀ g, s.written g = true → s'.written g = true
  outstanding : ∀ x ∈ s'.outstanding, x ∈ s.outstanding ∨ s.due = some x.1
  gone : ∀ i, s.gone i = true → s'.gone i = true
  holder : ∀ u, u ≠ t → s.reserved = some u →
    s'.due = s.due ∧ s'.outstanding ⊆ s.outstanding ∧ s'.untried ⊆ s.untried

variable {s s' : State} {t u g gen : ℕ} {p q : Pc} {i : ℕ} {a : Action}

theorem State.Past.mono (h : s.Past gen) (hseq : s.seq ≤ s'.seq)
    (hdue : ∀ g, s'.due = some g → s.due = some g ∨ s.seq < g) : s'.Past gen := by
  refine ⟨h.1.trans hseq, fun g hg => ?_⟩
  rcases hdue g hg with hg | hg
  · exact h.2 g hg
  · exact h.1.trans_lt hg

theorem not_gone (hg : ∀ i, s.gone i = true → s'.gone i = true) (h : s'.gone i = false) : s.gone i = false := by
  by_contra hne
  rw [hg i (Bool.not_eq_false _ ▸ hne)] at h
  cases h

theorem State.Tried.mono (h : s.Tried) (hout : s'.outstanding ⊆ s.outstanding) (htr : s'.untried ⊆ s.untried)
    (hg : ∀ i, s.gone i = true → s'.gone i = true) : s'.Tried := by
  intro x hx hgone hmem
  exact h x (hout hx) (not_gone hg hgone) (htr hmem)

theorem RestorePc.Covers.mono {k : RestorePc} (h : k.Covers s) (hp : s.Past k.gen)
    (hout : ∀ x ∈ s'.outstanding, x ∈ s.outstanding ∨ s.due = some x.1) : k.Covers s' := by
  cases k with
  | dialing gen => trivial
  | sending gen => trivial
  | sent gen covers =>
    intro x hx hle
    rcases hout x hx with hx | hdue
    · exact h x hx hle
    · exact absurd (hp.2 x.1 hdue) (Nat.not_lt.mpr hle)
  | settling gen =>
    intro x hx
    rcases hout x hx with hx | hdue
    · exact h x hx
    · exact hp.2 x.1 hdue

/-- What a thread knows is kept by whoever leaves it what it holds. -/
theorem Leaves.keeps (hl : Leaves s s' t) (h : p.Keeps s)
    (hholds : p.Holds → s'.due = s.due ∧ s'.outstanding ⊆ s.outstanding ∧ s'.untried ⊆ s.untried) :
    p.Keeps s' := by
  have htried : p.Holds → s.Tried → s'.Tried := fun hp ht => ht.mono (hholds hp).2.1 (hholds hp).2.2 hl.gone
  cases p with
  | stop op i k =>
    have hp : (Pc.stop op i k).Holds := by
      cases k <;> exact nofun
    have hdue := (hholds hp).1
    cases k with
    | saveOff gen => exact hdue.trans h
    | saveOffWritten gen => exact ⟨hdue.trans h.1, h.2.trans hl.seq⟩
    | _ => exact hdue.trans h
  | restore r k =>
    refine ⟨h.past.mono hl.seq hl.due, h.covers.mono h.past hl.outstanding, fun hr => hl.written _ (h.close hr),
      fun hr => ?_⟩
    have hp : (Pc.restore r k).Holds := by
      cases r with
      | lane op i => exact nofun
      | close => exact absurd rfl hr
    exact ⟨(hholds hp).1.trans (h.lane hr).1, fun hk => htried hp ((h.lane hr).2 hk)⟩
  | releasing op i stopped =>
    have hp : (Pc.releasing op i stopped).Holds := by
      cases stopped <;> exact nofun
    exact ⟨(hholds hp).1.trans h.1, fun hs => htried hp (h.2 hs)⟩
  | _ => exact fun hp => (hholds hp).1.trans (h hp)

structure Kept (s : State) (t : ℕ) (x : State × Pc) : Prop where
  ledger : Ledger x.1
  own : x.2.Keeps x.1
  others : Leaves s x.1 t

/-! ## What a step changes -/

def State.record (s : State) := (s.due, s.unsettled, s.seq, s.written, s.sent, s.outstanding)

def State.ledger (s : State) := (s.record, s.sealed, s.untried, s.sealedAt)

theorem due_none (hi : Inv s) (hl : Ledger s) (hr : s.reserved = none) : s.due = none := by
  by_contra hne
  obtain ⟨g, hg⟩ := Option.ne_none_iff_exists'.mp hne
  obtain ⟨-, i, hh, -⟩ := hl.due g hg
  rw [hi.held hr] at hh
  cases hh

/-- The save-offs stay as they are. -/
theorem Leaves.still (hseq : s.seq ≤ s'.seq) (hdue : s'.due = s.due) (hw : s'.written = s.written)
    (hout : s'.outstanding = s.outstanding) (hg : ∀ i, s.gone i = true → s'.gone i = true)
    (htr : s.reserved ≠ some t → s'.untried ⊆ s.untried) : Leaves s s' t where
  seq := hseq
  due _ hg := .inl (hdue ▸ hg)
  written _ hg := hw ▸ hg
  outstanding _ hx := .inl (hout ▸ hx)
  gone := hg
  holder _ hu hr := ⟨hdue, fun _ hx => hout ▸ hx, htr fun h => hu (Option.some.inj (hr.symm.trans h))⟩

/-- The record and the save-offs stay as they are. -/
theorem Kept.of_record (hl : Ledger s) (hf : s'.record = s.record) (hlaunched : s.launched ≤ s'.launched)
    (hgone : ∀ i, s.gone i = true → s'.gone i = true) (hheld : s.due ≠ none → s'.held = s.held)
    (htr : s.reserved ≠ some t → s'.untried ⊆ s.untried)
    (hat : ∀ q, s'.sealedAt = some q → s'.sealed = true ∧
      ∀ g, g ∈ s.sent ∨ s.due = some g ∨ s.unsettled = some g → g ≤ q)
    (hq : q.Keeps s') : Kept s t (s', q) := by
  simp only [State.record, Prod.mk.injEq] at hf
  obtain ⟨hdue, hun, hseq, hw, hsent, hout⟩ := hf
  refine ⟨⟨fun g hg => ?_, fun g hg => ?_, fun g hg => ?_, fun x hx => ?_, fun x hx hgx => ?_, fun g hg => ?_,
    fun q hq => (hat q hq).1, fun q hq g hg => ?_⟩, hq, .still hseq.ge hdue hw hout hgone htr⟩
  · rw [hseq]
    exact hl.unsettled g (hun ▸ hg)
  · exact (hl.written g (hw ▸ hg)).mono hseq.ge fun g hg => .inl (hdue.symm.trans hg)
  · have hg : s.due = some g := hdue ▸ hg
    obtain ⟨hle, i, hh, h⟩ := hl.due g hg
    refine ⟨hseq ▸ hle, i, (hheld (by rw [hg]; nofun)).trans hh, ?_⟩
    rcases h with h | h
    · exact .inl (hun.trans h)
    · exact .inr (hgone i h)
  · exact (hl.launched x (hout ▸ hx)).trans_le hlaunched
  · rw [hun]
    exact hl.kept x (hout ▸ hx) (not_gone hgone hgx)
  · rw [hseq]
    exact hl.sent g (hsent ▸ hg)
  · rw [hsent, hdue, hun] at hg
    exact (hat q hq).2 g hg

/-- The ledger stays as it is. -/
theorem Kept.same (hl : Ledger s) (hf : s'.ledger = s.ledger) (hlaunched : s.launched ≤ s'.launched)
    (hgone : ∀ i, s.gone i = true → s'.gone i = true) (hheld : s.due ≠ none → s'.held = s.held)
    (hq : q.Keeps s') : Kept s t (s', q) := by
  simp only [State.ledger, Prod.mk.injEq] at hf
  obtain ⟨hrecord, hseal, htr, hat⟩ := hf
  refine .of_record hl hrecord hlaunched hgone hheld (fun _ x hx => htr ▸ hx) (fun q hq => ?_) hq
  rw [hat] at hq
  exact ⟨hseal.trans (hl.closed q hq), hl.sealed q hq⟩

/-- The record is cleared once none but an instance known to have exited could run. -/
theorem Kept.clear (hi : Inv s) (hl : Ledger s) (honly : ∀ j, s.MayRun j → j = i)
    (hf : s'.ledger = { s with unsettled := none }.ledger) (hlaunched : s'.launched = s.launched)
    (hgone : s'.gone = Function.update s.gone i true) (hheld : s.due ≠ none → s'.held = s.held)
    (hq : q.Keeps s') : Kept s t (s', q) := by
  simp only [State.ledger, State.record, Prod.mk.injEq] at hf
  obtain ⟨⟨hdue, hun, hseq, hw, hsent, hout⟩, hseal, htr, hat⟩ := hf
  have hg : ∀ j, s.gone j = true → s'.gone j = true := fun j hj => by
    rw [hgone]
    by_cases hji : j = i
    · rw [hji, Function.update_self]
    · rwa [Function.update_of_ne hji]
  have hself : s'.gone i = true := by
    rw [hgone, Function.update_self]
  have hall : ∀ j, j < s.launched → s'.gone j = true := by
    intro j hj
    by_contra hne
    have hfalse := Bool.eq_false_iff.mpr hne
    obtain rfl := honly j ⟨hj, not_gone hg hfalse⟩
    exact hne hself
  refine ⟨⟨fun g hg => ?_, fun g hg => ?_, fun g hg => ?_, fun x hx => ?_, fun x hx hgx => ?_, fun g hg => ?_,
    fun q hq => ?_, fun q hq g hg => ?_⟩, hq, .still hseq.ge hdue hw hout hg fun _ x hx => htr ▸ hx⟩
  · rw [hun] at hg
    cases hg
  · exact (hl.written g (hw ▸ hg)).mono hseq.ge fun g hg => .inl (hdue.symm.trans hg)
  · have hg : s.due = some g := hdue ▸ hg
    obtain ⟨hle, j, hh, -⟩ := hl.due g hg
    exact ⟨hseq ▸ hle, j, (hheld (by rw [hg]; nofun)).trans hh,
      .inr (hall j (hi.known j (.inr (.inr hh))))⟩
  · rw [hlaunched]
    exact hl.launched x (hout ▸ hx)
  · rw [hall x.2 (hl.launched x (hout ▸ hx))] at hgx
    cases hgx
  · rw [hseq]
    exact hl.sent g (hsent ▸ hg)
  · rw [hseal]
    exact hl.closed q (hat ▸ hq)
  · rw [hsent, hdue, hun] at hg
    refine hl.sealed q (hat ▸ hq) g (hg.imp_right fun hg => hg.imp_right fun hnone => ?_)
    cases hnone

/-- The holder records a save-off. -/
theorem Kept.mark (hl : Ledger s) (hr : s.reserved = some t) (hh : s.held = some i)
    (hseal : s.sealed ≠ true) (hq : q.Keeps s.markPendingSaveOn) : Kept s t (s.markPendingSaveOn, q) := by
  have hle : s.seq ≤ s.seq + 1 := Nat.le_succ _
  refine ⟨⟨fun g hg => ?_, fun g hg => ?_, fun g hg => ?_, hl.launched, fun x hx hgx => ?_, fun g hg => ?_,
    hl.closed, fun q hq => absurd (hl.closed q hq) hseal⟩, hq, ⟨hle, fun g hg => ?_, fun g hg => hg,
      fun x hx => .inl hx, fun i hi => hi, fun u hu hru => ?_⟩⟩
  · exact (Option.some.inj hg).ge
  · refine ⟨(hl.written g hg).1.trans hle, fun g' hg' => ?_⟩
    obtain rfl := Option.some.inj hg'
    exact Nat.lt_succ_of_le (hl.written g hg).1
  · obtain rfl := Option.some.inj hg
    exact ⟨le_rfl, i, hh, .inl rfl⟩
  · obtain ⟨g, hxg, hg⟩ := hl.kept x hx hgx
    exact ⟨s.seq + 1, (hxg.trans (hl.unsettled g hg)).trans hle, rfl⟩
  · exact (hl.sent g hg).trans hle
  · exact .inr (Option.some.inj hg ▸ Nat.lt_succ_self _)
  · exact absurd (Option.some.inj (hru.symm.trans hr)) hu

/-- The holder sends the save-off that is due. -/
theorem Kept.write (hi : Inv s) (hl : Ledger s) (hr : s.reserved = some t) (hdue : s.due = some gen)
    (hh : s.held = some i) (hq : q.Keeps (s.writeSaveOff i gen)) : Kept s t (s.writeSaveOff i gen, q) := by
  obtain ⟨hle, j, hj, hrec⟩ := hl.due gen hdue
  obtain rfl := Option.some.inj (hh.symm.trans hj)
  refine ⟨⟨hl.unsettled, fun g hg => ⟨(hl.written g hg).1, nofun⟩, nofun, fun x hx => ?_, fun x hx hgx => ?_,
    fun g hg => ?_, hl.closed, fun q hq g hg => ?_⟩, hq, ⟨le_rfl, nofun, fun g hg => hg, fun x hx => ?_,
      fun i hi => hi, fun u hu hru => ?_⟩⟩
  · rcases List.mem_cons.mp hx with rfl | hx
    · exact hi.known i (.inr (.inr hh))
    · exact hl.launched x hx
  · rcases List.mem_cons.mp hx with rfl | hx
    · rcases hrec with hrec | hgone
      · exact ⟨gen, le_rfl, hrec⟩
      · have hgx : s.gone i = false := hgx
        rw [hgone] at hgx
        cases hgx
    · exact hl.kept x hx hgx
  · rcases List.mem_cons.mp hg with rfl | hg
    · exact hle
    · exact hl.sent g hg
  · rcases hg with hg | hg | hg
    · rcases List.mem_cons.mp hg with rfl | hg
      · exact hl.sealed q hq g (.inr (.inl hdue))
      · exact hl.sealed q hq g (.inl hg)
    · cases hg
    · exact hl.sealed q hq g (.inr (.inr hg))
  · rcases List.mem_cons.mp hx with rfl | hx
    · exact .inr hdue
    · exact .inl hx
  · exact absurd (Option.some.inj (hru.symm.trans hr)) hu

/-- The save-off that is due is not sent. -/
theorem Kept.drop (hl : Ledger s) (hr : s.reserved = some t) (hq : q.Keeps { s with due := none }) :
    Kept s t ({ s with due := none }, q) := by
  refine ⟨⟨hl.unsettled, fun g hg => ⟨(hl.written g hg).1, nofun⟩, nofun, hl.launched, hl.kept, hl.sent,
    hl.closed, fun q hq g hg => ?_⟩, hq, ⟨le_rfl, nofun, fun g hg => hg, fun x hx => .inl hx,
      fun i hi => hi, fun u hu hru => ?_⟩⟩
  · rcases hg with hg | hg | hg
    · exact hl.sealed q hq g (.inl hg)
    · cases hg
    · exact hl.sealed q hq g (.inr (.inr hg))
  · exact absurd (Option.some.inj (hru.symm.trans hr)) hu

/-- The holder's write has returned. -/
theorem Kept.write_returned (hl : Ledger s) (hdue : s.due = none) (hle : gen ≤ s.seq)
    (hq : q.Keeps { s with written := Function.update s.written gen true }) :
    Kept s t ({ s with written := Function.update s.written gen true }, q) := by
  refine ⟨⟨hl.unsettled, fun g hg => ?_, hl.due, hl.launched, hl.kept, hl.sent, hl.closed, hl.sealed⟩, hq,
    ⟨le_rfl, fun g hg => .inl hg, fun g hg => ?_, fun x hx => .inl hx, fun i hi => hi,
      fun u hu hru => ⟨rfl, fun x hx => hx, fun x hx => hx⟩⟩⟩
  · refine ⟨?_, fun g' hg' => ?_⟩
    · by_cases hgg : g = gen
      · exact hgg ▸ hle
      · have hg : Function.update s.written gen true g = true := hg
        rw [Function.update_of_ne hgg] at hg
        exact (hl.written g hg).1
    · have hg' : s.due = some g' := hg'
      rw [hdue] at hg'
      cases hg'
  · show Function.update s.written gen true g = true
    by_cases hgg : g = gen
    · rw [hgg, Function.update_self]
    · rwa [Function.update_of_ne hgg]

/-- The save-offs that no save-on was tried for: a stop has failed, or a save-on is tried. -/
theorem Kept.untried (hl : Ledger s) (hf : s'.ledger = { s with untried := s'.untried }.ledger)
    (hlaunched : s'.launched = s.launched) (hgone : s'.gone = s.gone) (hheld : s'.held = s.held)
    (htr : s.reserved ≠ some t → s'.untried ⊆ s.untried) (hq : q.Keeps s') : Kept s t (s', q) := by
  simp only [State.ledger, Prod.mk.injEq] at hf
  obtain ⟨hrecord, hseal, -, hat⟩ := hf
  refine .of_record hl hrecord hlaunched.ge (fun i hi => hgone ▸ hi) (fun _ => hheld) htr (fun q hq => ?_) hq
  rw [hat] at hq
  exact ⟨hseal.trans (hl.closed q hq), hl.sealed q hq⟩

/-- A save-on has succeeded. -/
theorem Kept.restored {covers : List (ℕ × ℕ)} (hl : Ledger s)
    (hq : q.Keeps { s with outstanding := s.outstanding.filter (· ∉ covers) }) :
    Kept s t ({ s with outstanding := s.outstanding.filter (· ∉ covers) }, q) := by
  have hsub : s.outstanding.filter (· ∉ covers) ⊆ s.outstanding := fun x hx => (List.mem_filter.mp hx).1
  exact ⟨⟨hl.unsettled, hl.written, hl.due, fun x hx => hl.launched x (hsub hx),
    fun x hx => hl.kept x (hsub hx), hl.sent, hl.closed, hl.sealed⟩, hq,
    ⟨le_rfl, fun g hg => .inl hg, fun g hg => hg, fun x hx => .inl (hsub hx), fun i hi => hi,
      fun u hu hru => ⟨rfl, hsub, fun x hx => hx⟩⟩⟩

/-- The record is settled up to a save-off older than what is outstanding and what is due. -/
theorem Kept.settle (hl : Ledger s) (hp : s.Past gen) (hout : ∀ x ∈ s.outstanding, gen < x.1)
    (hq : q.Keeps (s.settleSaveOff gen)) : Kept s t (s.settleSaveOff gen, q) := by
  have hkeep : ∀ g, gen < g → s.unsettled = some g → (s.unsettled.filter (gen < ·)) = some g := by
    intro g hlt hg
    simp [hg, hlt]
  refine ⟨⟨fun g hg => ?_, hl.written, fun g hg => ?_, hl.launched, fun x hx hgx => ?_, hl.sent, hl.closed,
    fun q hq g hg => hl.sealed q hq g (hg.imp_right (.imp_right Option.eq_some_of_filter_eq_some))⟩, hq,
    ⟨le_rfl, fun g hg => .inl hg, fun g hg => hg, fun x hx => .inl hx, fun i hi => hi,
      fun u hu hru => ⟨rfl, fun x hx => hx, fun x hx => hx⟩⟩⟩
  · exact hl.unsettled g (Option.eq_some_of_filter_eq_some hg)
  · obtain ⟨hle, i, hh, h⟩ := hl.due g hg
    refine ⟨hle, i, hh, ?_⟩
    rcases h with h | h
    · exact .inl (hkeep g (hp.2 g hg) h)
    · exact .inr h
  · obtain ⟨g, hxg, hg⟩ := hl.kept x hx hgx
    exact ⟨g, hxg, hkeep g ((hout x hx).trans_le hxg) hg⟩

/-- `Close` seals the ledger. -/
theorem Kept.seal (hl : Ledger s)
    (hf : s'.ledger = { s with sealed := true, sealedAt := s.sealedAt.or (some s.seq) }.ledger)
    (hlaunched : s'.launched = s.launched) (hgone : s'.gone = s.gone) (hheld : s'.held = s.held)
    (hq : q.Keeps s') : Kept s t (s', q) := by
  simp only [State.ledger, Prod.mk.injEq] at hf
  obtain ⟨hrecord, hseal, htr, hat⟩ := hf
  refine .of_record hl hrecord hlaunched.ge (fun i hi => hgone ▸ hi) (fun _ => hheld) (fun _ x hx => htr ▸ hx)
    (fun q hq => ⟨hseal, fun g hg => ?_⟩) hq
  rw [hat] at hq
  cases hs : s.sealedAt with
  | some q' =>
    rw [hs] at hq
    obtain rfl := Option.some.inj hq
    exact hl.sealed q' hs g hg
  | none =>
    rw [hs] at hq
    obtain rfl := Option.some.inj hq
    rcases hg with hg | hg | hg
    · exact hl.sent g hg
    · exact (hl.due g hg).1
    · exact hl.unsettled g hg

/-- A save-off of another server. -/
theorem Kept.number (hl : Ledger s) (hq : q.Keeps { s with seq := s.seq + 1 }) :
    Kept s t ({ s with seq := s.seq + 1 }, q) := by
  have hle : s.seq ≤ s.seq + 1 := Nat.le_succ _
  exact ⟨⟨fun g hg => (hl.unsettled g hg).trans hle, fun g hg => ⟨(hl.written g hg).1.trans hle, (hl.written g hg).2⟩,
    fun g hg => ⟨(hl.due g hg).1.trans hle, (hl.due g hg).2⟩, hl.launched, hl.kept,
    fun g hg => (hl.sent g hg).trans hle, hl.closed, hl.sealed⟩, hq,
    ⟨hle, fun g hg => .inl hg, fun g hg => hg, fun x hx => .inl hx, fun i hi => hi,
      fun u hu hru => ⟨rfl, fun x hx => hx, fun x hx => hx⟩⟩⟩

/-! ## Steps -/

/-- Whose death may be learned of while an orphan is recorded. -/
theorem only_orphan (hi : Inv s) (hheld : ∀ i j, s.held = some i → s.orphan = some j → s.gone i = false → i = j)
    (ho : s.orphan = some i) : ∀ j, s.MayRun j → j = i := by
  rintro j ⟨hlt, hg⟩
  rcases hi.covered j hlt with h | h | h | h
  · rw [hg] at h
    cases h
  · rw [(hi.tracked (by rw [h]; nofun)).2] at ho
    cases ho
  · exact Option.some.inj (h.symm.trans ho)
  · exact hheld j i h ho hg

theorem only_held (hi : Inv s) (hr : s.reserved = some t) (hh : s.held = some i)
    (ho : s.orphan = none ∨ s.orphan = some i) : ∀ j, s.MayRun j → j = i := by
  rintro j ⟨hlt, hg⟩
  rcases hi.covered j hlt with h | h | h | h
  · rw [hg] at h
    cases h
  · rw [hi.holder t hr] at h
    cases h
  · rcases ho with ho | ho <;> rw [ho] at h
    · cases h
    · exact (Option.some.inj h).symm
  · exact Option.some.inj (h.symm.trans hh)

theorem know_gone (s : State) (i : ℕ) : ∀ j, s.gone j = true → (s.know i).gone j = true := fun j hj => by
  show Function.update s.gone i true j = true
  by_cases hji : j = i
  · rw [hji, Function.update_self]
  · rwa [Function.update_of_ne hji]

theorem kept_stopStep {op : Op} {k : StopPc} {x : Choice} (hi : Inv s) (hl : Ledger s) (hok : (k.owns i).Ok s t)
    (hk : k.Keeps s) : Kept s t (stopStep s x op i k) := by
  cases k with
  | begin graceful | opening =>
    refine .same hl rfl le_rfl (fun _ h => h) (fun _ => rfl) ?_
    split_ifs <;> exact hk
  | marking =>
    show Kept s t (if _ then _ else _)
    split_ifs with hseal
    · exact .same hl rfl le_rfl (fun _ h => h) (fun _ => rfl) hk
    · exact .mark hl hok.1 hok.2.1 hseal rfl
  | saveOff gen =>
    show Kept s t (if x.ok then s.writeSaveOff i gen else { s with due := none }, _)
    split_ifs
    · exact .write hi hl hok.1 hk hok.2.1 ⟨rfl, (hl.due gen hk).1⟩
    · exact .drop hl hok.1 ⟨rfl, (hl.due gen hk).1⟩
  | saveOffWritten gen => exact .write_returned hl hk.1 hk.2 hk.1
  | terminating =>
    show Kept s t (if _ then _ else _)
    split_ifs
    · exact .same hl rfl le_rfl (fun _ h => h) (fun _ => rfl) hk
    · exact .same hl rfl le_rfl (fun _ h => h) (fun _ => rfl) hk
  | failed =>
    show Kept s t (s.recordOrphan i, _)
    unfold State.recordOrphan
    split_ifs <;> exact .untried hl rfl rfl rfl rfl (fun h => absurd hok.1 h) hk
  | recorded =>
    have hdue : s.due = none := hk
    cases hun : s.unsettled with
    | some gen =>
      rw [show stopStep s x op i .recorded = (s, .restore (.lane op i) (.dialing gen)) by simp only [stopStep, hun]]
      refine .same hl rfl le_rfl (fun _ h => h) (fun _ => rfl) ⟨⟨hl.unsettled gen hun, fun g hg => ?_⟩, trivial,
        nofun, fun _ => ⟨hdue, nofun⟩⟩
      rw [hdue] at hg
      cases hg
    | none =>
      rw [show stopStep s x op i .recorded = (s, .releasing op i false) by simp only [stopStep, hun]]
      refine .same hl rfl le_rfl (fun _ h => h) (fun _ => rfl) ⟨hdue, fun _ x hx hg => ?_⟩
      obtain ⟨g, -, hg⟩ := hl.kept x hx hg
      rw [hun] at hg
      cases hg
  | stopped =>
    have hdue : s.due = none := hk
    refine .clear hi hl (only_held hi hok.1 hok.2.1 hok.2.2) rfl rfl rfl (fun h => absurd hdue h) ?_
    split_ifs
    · exact fun _ => hdue
    · exact ⟨hdue, nofun⟩

theorem kept_restoreStep {r : Restorer} {k : RestorePc} {x : Choice} (hl : Ledger s)
    (hk : r.Keeps s k) : Kept s t (restoreStep s x r k) := by
  -- A lane ends where a save-on was tried.
  have hover : ∀ s', (r ≠ .close → s'.due = none ∧ s'.Tried) → r.over.Keeps s' := by
    intro s' h
    cases r with
    | lane op i => exact ⟨(h nofun).1, fun _ => (h nofun).2⟩
    | close => exact fun hp => absurd rfl hp
  have hsub : ∀ l : List ℕ, ([] : List ℕ) ⊆ l := fun l x hx => by cases hx
  have htried : ∀ s' : State, s'.untried = [] → s'.Tried := fun s' h x _ _ hmem => by
    rw [h] at hmem
    cases hmem
  cases k with
  | dialing gen =>
    refine .untried hl rfl rfl rfl rfl (fun _ => hsub _) ?_
    split_ifs
    · exact ⟨hk.past, trivial, hk.close, fun hr => ⟨(hk.lane hr).1, fun _ => htried _ rfl⟩⟩
    · exact hover _ fun hr => ⟨(hk.lane hr).1, htried _ rfl⟩
  | sending gen =>
    exact .untried hl rfl rfl rfl rfl (fun _ => hsub _) ⟨hk.past, fun x hx _ => hx, hk.close,
      fun hr => ⟨(hk.lane hr).1, fun _ => htried _ rfl⟩⟩
  | sent gen covers =>
    show Kept s t (if _ then _ else _)
    split_ifs
    · refine .restored hl ⟨hk.past, fun x hx => ?_, hk.close, fun hr => ⟨(hk.lane hr).1, fun hk' => ?_⟩⟩
      · obtain ⟨hx, hnot⟩ := List.mem_filter.mp hx
        by_contra hle
        exact of_decide_eq_true hnot (hk.covers x hx (Nat.not_lt.mp hle))
      · exact ((hk.lane hr).2 rfl).mono (fun x hx => (List.mem_filter.mp hx).1) (fun x hx => hx) fun i hi => hi
    · exact .same hl rfl le_rfl (fun _ h => h) (fun _ => rfl) (hover _ fun hr => ⟨(hk.lane hr).1, (hk.lane hr).2 rfl⟩)
  | settling gen =>
    exact .settle hl hk.past hk.covers (hover _ fun hr => ⟨(hk.lane hr).1, (hk.lane hr).2 rfl⟩)

theorem kept_advance {x : Choice} (hi : Inv s) (hl : Ledger s)
    (hheld : ∀ i j, s.held = some i → s.orphan = some j → s.gone i = false → i = j)
    (hok : p.owns.Ok s t) (hk : p.Keeps s) : Kept s t (advance t s x p) := by
  have hsame : ∀ {q : Pc}, q.Keeps s → Kept s t (s, q) := fun hq =>
    .same hl rfl le_rfl (fun _ h => h) (fun _ => rfl) hq
  -- A holder that sends nothing.
  have hquiet : ∀ {s' : State} {q : Pc}, s.due = none → s'.ledger = s.ledger → s.launched ≤ s'.launched →
      (∀ i, s.gone i = true → s'.gone i = true) → q.Keeps s' → Kept s t (s', q) := fun hdue hf hla hg hq =>
    .same hl hf hla hg (fun h => absurd hdue h) hq
  have hnot : ∀ {s' : State} {r : Answer}, (Pc.over r).Keeps s' := fun hp => absurd rfl hp
  cases p with
  | launching =>
    have hdue : s.due = none := hk nofun
    show Kept s t (if _ then _ else _)
    split_ifs
    · exact hsame fun _ => hdue
    · exact hquiet hdue rfl le_rfl (fun _ h => h) hnot
  | starting =>
    have hdue : s.due = none := hk nofun
    show Kept s t (if _ then _ else _)
    split_ifs
    · exact hquiet hdue rfl (Nat.le_succ _) (fun _ h => h) fun _ => hdue
    · exact hquiet hdue rfl le_rfl (fun _ h => h) hnot
  | created i =>
    have hdue : s.due = none := hk nofun
    show Kept s t (if _ then _ else _)
    split_ifs
    · exact hsame fun _ => hdue
    · exact hquiet hdue rfl le_rfl (know_gone _ i) hnot
  | started i | working k => exact hquiet (hk nofun) rfl le_rfl (fun _ h => h) hnot
  | validating i =>
    have hdue : s.due = none := hk nofun
    show Kept s t (if _ then _ else _)
    split_ifs
    · exact hsame hdue
    · exact hquiet hdue rfl le_rfl (fun _ h => h) hnot
    · exact hquiet hdue rfl le_rfl (fun _ h => h) hnot
  | stop op i k => exact kept_stopStep hi hl hok hk
  | restore r k => exact kept_restoreStep hl hk
  | releasing op i stopped =>
    refine hquiet hk.1 rfl le_rfl (fun _ h => h) ?_
    split_ifs <;> exact fun hp => absurd rfl hp
  | parked probed sawDead =>
    show Kept s t (if _ then _ else _)
    split_ifs
    · exact hsame hnot
    · split
      · exact .same hl rfl le_rfl (fun _ h => h) (fun _ => rfl) hnot
      · exact hsame fun hp => absurd rfl hp
  | probing i sawDead =>
    show Kept s t (if _ then (if _ then _ else _) else _)
    split_ifs <;> exact hsame fun hp => absurd rfl hp
  | retrying i =>
    show Kept s t (s.takeOrphanReserve t i)
    unfold State.takeOrphanReserve
    split_ifs with hr ho
    · exact hsame fun hp => absurd rfl hp
    · rw [ne_eq, not_not] at hr
      have hdue := due_none hi hl hr
      exact hquiet hdue rfl le_rfl (fun _ h => h) hdue
    · exact hsame fun hp => absurd rfl hp
  | retiring i =>
    show Kept s t ((s.forgetOrphanIf i).know i, _)
    unfold State.forgetOrphanIf
    split_ifs with ho
    · exact .clear hi hl (only_orphan hi hheld ho) rfl rfl rfl (fun _ => rfl) fun hp => absurd rfl hp
    · exact .same hl rfl le_rfl (know_gone s i) (fun _ => rfl) fun hp => absurd rfl hp
  | draining => exact .same hl rfl le_rfl (fun _ h => h) (fun _ => rfl) fun hp => absurd rfl hp
  | sealing => exact .seal hl rfl rfl rfl rfl hnot
  | holding gen =>
    refine hsame ?_
    split_ifs with hw
    · obtain ⟨-, hw⟩ := (Bool.and_eq_true _ _).mp hw
      exact ⟨hl.written gen hw, trivial, fun _ => hw, fun h => absurd rfl h⟩
    · exact hnot
  | idle => exact hsame hk
  | «over» r => exact hsame hk

theorem kept_post (hi : Inv s) (hl : Ledger s)
    (hheld : ∀ i j, s.held = some i → s.orphan = some j → s.gone i = false → i = j)
    (hok : p.owns.Ok s t) (hk : p.Keeps s) (hpre : pre s p a) : Kept s t (post t s p a) := by
  have hsame : ∀ {s' : State} {q : Pc}, s'.ledger = s.ledger → s'.launched = s.launched →
      (∀ i, s.gone i = true → s'.gone i = true) → s'.held = s.held → q.Keeps s' → Kept s t (s', q) :=
    fun hf hla hg hh hq => .same hl hf hla.ge hg (fun _ => hh) hq
  have hover : ∀ {r : Answer}, Kept s t (s, .over r) :=
    hsame rfl rfl (fun _ h => h) rfl fun hp => absurd rfl hp
  have hstay : ∀ {s' : State}, s.seq ≤ s'.seq → s'.due = s.due → s'.written = s.written →
      s'.outstanding = s.outstanding → (∀ i, s.gone i = true → s'.gone i = true) → s'.untried = s.untried →
      p.Keeps s' := fun hseq hdue hw hout hg htr =>
    (Leaves.still (t := t) hseq hdue hw hout hg fun _ x hx => htr ▸ hx).keeps hk fun _ =>
      ⟨hdue, fun x hx => hout ▸ hx, fun x hx => htr ▸ hx⟩
  -- Nothing is due where the id is taken.
  have htake : ∀ {s' : State} {q : Pc}, s.reserved = none → s'.ledger = s.ledger → s'.launched = s.launched →
      s'.gone = s.gone → (s.due = none → q.Keeps s') → Kept s t (s', q) := fun hr hf hla hg hq =>
    .same hl hf hla.ge (fun _ h => hg ▸ h) (fun h => absurd (due_none hi hl hr) h) (hq (due_none hi hl hr))
  have hreserve : ∀ {q : Pc}, (s.due = none → q.Keeps { s with reserved := some t }) →
      Kept s t (s.reserve t q) := by
    intro q hq
    unfold State.reserve
    split_ifs with hin ho hr
    · exact hover
    · exact hover
    · exact hover
    · rw [ne_eq, not_not] at hr
      exact htake hr rfl rfl rfl hq
  cases a with
  | start | work k => exact hreserve fun hdue _ => hdue
  | stopServer graceful =>
    show Kept s t (s.takeStoppableReserve t graceful)
    unfold State.takeStoppableReserve
    split
    · rename_i i hin
      exact htake (hi.tracked (by rw [hin]; nofun)).1 rfl rfl rfl fun hdue => hdue
    · split_ifs with hr
      · exact hover
      · rw [ne_eq, not_not] at hr
        split
        · exact htake hr rfl rfl rfl fun hdue => hdue
        · exact hover
  | restart =>
    show Kept s t (s.takeRunningReserve t)
    unfold State.takeRunningReserve
    split
    · rename_i i hin
      exact htake (hi.tracked (by rw [hin]; nofun)).1 rfl rfl rfl fun hdue _ => hdue
    · split_ifs <;> exact hover
  | converge | close => exact hsame rfl rfl (fun _ h => h) rfl fun hp => absurd rfl hp
  | restore =>
    unfold post
    dsimp only
    split
    · exact hsame rfl rfl (fun _ h => h) rfl fun hp => absurd rfl hp
    · rename_i hnil
      exact absurd hnil hpre.2
  | step x => exact kept_advance hi hl hheld hok hk
  | exit i => exact hsame rfl rfl (fun _ h => h) rfl (hstay le_rfl rfl rfl rfl (fun _ h => h) rfl)
  | crashed i =>
    show Kept s t ((s.forgetIf i).know i, p)
    unfold State.forgetIf
    split_ifs
    · exact hsame rfl rfl (know_gone s i) rfl (hstay le_rfl rfl rfl rfl (know_gone s i) rfl)
    · exact hsame rfl rfl (know_gone s i) rfl (hstay le_rfl rfl rfl rfl (know_gone s i) rfl)
  | ended i =>
    show Kept s t ((s.forgetOrphanIf i).know i, p)
    unfold State.forgetOrphanIf
    split_ifs with ho
    · exact .clear hi hl (only_orphan hi hheld ho) rfl rfl rfl (fun _ => rfl)
        (hstay le_rfl rfl rfl rfl (know_gone s i) rfl)
    · exact hsame rfl rfl (know_gone s i) rfl (hstay le_rfl rfl rfl rfl (know_gone s i) rfl)
  | otherSaveOff => exact .number hl (hstay (Nat.le_succ _) rfl rfl rfl (fun _ h => h) rfl)

/-! ## Runs -/

variable {c : Conf}

theorem keeps_reach (h : threads.machine.Reach Machine.Any start c) :
    Threads.Holds Ledger (fun s _ p => p.Keeps s) c := by
  refine Threads.invariant (h.along fun _ => holds_reach)
    ⟨⟨nofun, nofun, nofun, nofun, nofun, nofun, nofun, nofun⟩, fun t hp => absurd rfl hp⟩ ?_
  intro c t a hk hpre hP
  have hc := hP.2
  have hst : Kept c.shared t (post t c.shared (c.th t) a) :=
    kept_post hc.shared hk.shared (fun i j => orphan_of_held hc) (hc.thread t).owns (hk.thread t) hpre
  refine ⟨hst.ledger, hst.own, fun u hu hok => hst.others.keeps hok fun hp => ?_⟩
  exact hst.others.holder u hu ((holds_iff hc).mp hp)

theorem restore_spares {r : Restorer} {k : RestorePc} {x : Choice} (hg : k.gen < g) :
    (s.unsettled = some g → (restoreStep s x r k).1.unsettled = some g) ∧
      (s.pending = some g → (restoreStep s x r k).1.pending = some g) := by
  cases k with
  | dialing gen | sending gen => exact ⟨id, id⟩
  | sent gen covers =>
    unfold restoreStep
    split_ifs
    · exact ⟨id, id⟩
    · exact ⟨id, id⟩
  | settling gen =>
    have hg : gen < g := hg
    refine ⟨fun h => ?_, fun h => ?_⟩
    · simp [restoreStep, State.settleSaveOff, h, hg]
    · simp [restoreStep, State.settleSaveOff, h, hg]

/-- **A save-off is kept.** Once `Close` has sealed the ledger none is recorded, and what is sent was
recorded before; no restore of `Close` goes ahead of the write that it is for. A save-off stays recorded
until its instance is known to have exited or a save-on sent after it has succeeded. A restore leaves the
record of a newer one. When a stop has failed a save-on was tried after that for every save-off of an
instance that may run. -/
theorem save_offs_kept (h : threads.machine.Reach Machine.Any start c) :
    (∀ q, c.shared.sealedAt = some q →
      (∀ g, c.shared.unsettled = some g → g ≤ q) ∧ ∀ g ∈ c.shared.sent, g ≤ q) ∧
    (∀ t k, c.th t = .restore .close k → c.shared.written k.gen = true) ∧
    (∀ x ∈ c.shared.outstanding, c.shared.gone x.2 = false →
      ∃ g, x.1 ≤ g ∧ c.shared.unsettled = some g) ∧
    (∀ t r k x g, c.th t = .restore r k → k.gen < g →
      (c.shared.unsettled = some g → (threads.post t c.shared (c.th t) (.step x)).1.unsettled = some g) ∧
      (c.shared.pending = some g → (threads.post t c.shared (c.th t) (.step x)).1.pending = some g)) ∧
    (∀ t op i, c.th t = .releasing op i false →
      ∀ x ∈ c.shared.outstanding, c.shared.gone x.2 = false → x.1 ∉ c.shared.untried) := by
  have hk := keeps_reach h
  refine ⟨fun q hq => ⟨fun g hg => hk.shared.sealed q hq g (.inr (.inr hg)),
    fun g hg => hk.shared.sealed q hq g (.inl hg)⟩, fun t k hp => ?_, hk.shared.kept,
    fun t r k x g hp hlt => ?_, fun t op i hp => ?_⟩
  · have hkeeps : (c.th t).Keeps c.shared := hk.thread t
    rw [hp] at hkeeps
    exact hkeeps.close rfl
  · rw [hp]
    exact restore_spares hlt
  · have hkeeps : (c.th t).Keeps c.shared := hk.thread t
    rw [hp] at hkeeps
    exact hkeeps.2 rfl

/-- A stop has failed and its save-on could not be sent: the save-off stays recorded. -/
theorem save_offs_kept_failed : ∃ c : Conf, threads.machine.Reach Machine.Any start c ∧
    (c.th 1 = .releasing .stop 0 false ∧ c.shared.outstanding = [(1, 0)] ∧ c.shared.gone 0 = false ∧
      c.shared.untried = []) ∧
    (∀ q, c.shared.sealedAt = some q →
      (∀ g, c.shared.unsettled = some g → g ≤ q) ∧ ∀ g ∈ c.shared.sent, g ≤ q) ∧
    (∀ t k, c.th t = .restore .close k → c.shared.written k.gen = true) ∧
    (∀ x ∈ c.shared.outstanding, c.shared.gone x.2 = false →
      ∃ g, x.1 ≤ g ∧ c.shared.unsettled = some g) ∧
    (∀ t r k x g, c.th t = .restore r k → k.gen < g →
      (c.shared.unsettled = some g → (threads.post t c.shared (c.th t) (.step x)).1.unsettled = some g) ∧
      (c.shared.pending = some g → (threads.post t c.shared (c.th t) (.step x)).1.pending = some g)) ∧
    (∀ t op i, c.th t = .releasing op i false →
      ∀ x ∈ c.shared.outstanding, c.shared.gone x.2 = false → x.1 ∉ c.shared.untried) := by
  have hrun : (threads.machine.exec
      [(0, .start), (0, .step ⟨true, false⟩), (0, .step ⟨true, false⟩), (0, .step ⟨true, false⟩),
        (0, .step ⟨true, false⟩), (1, .stopServer true), (1, .step ⟨true, false⟩), (1, .step ⟨true, false⟩),
        (1, .step ⟨true, false⟩), (1, .step ⟨true, false⟩), (1, .step ⟨true, false⟩),
        (1, .step ⟨false, false⟩), (1, .step ⟨true, false⟩), (1, .step ⟨true, false⟩),
        (1, .step ⟨false, false⟩)] start).map
      (fun c => decide (c.th 1 = .releasing .stop 0 false ∧ c.shared.outstanding = [(1, 0)] ∧
        c.shared.gone 0 = false ∧ c.shared.untried = [])) = some true := by
    decide +kernel
  obtain ⟨c, hc, hb⟩ := Machine.reach_of_exec_map hrun
  exact ⟨c, hc, of_decide_eq_true hb, save_offs_kept hc⟩

/-- **A save-off is sent after the seal**, by a stop that had recorded it before. -/
theorem sent_after_seal : ∃ c : Conf, threads.machine.Reach Machine.Any start c ∧ c.shared.sealed = true ∧
    threads.pre 1 c.shared (c.th 1) (.step ⟨true, false⟩) ∧ c.shared.sent = [] ∧
    (threads.post 1 c.shared (c.th 1) (.step ⟨true, false⟩)).1.sent = [1] := by
  have hrun : (threads.machine.exec
      [(0, .start), (0, .step ⟨true, false⟩), (0, .step ⟨true, false⟩), (0, .step ⟨true, false⟩),
        (0, .step ⟨true, false⟩), (1, .stopServer true), (1, .step ⟨true, false⟩), (1, .step ⟨true, false⟩),
        (1, .step ⟨true, false⟩), (2, .close), (2, .step ⟨true, false⟩), (2, .step ⟨true, false⟩)] start).map
      (fun c => decide (c.shared.sealed = true ∧ threads.pre 1 c.shared (c.th 1) (.step ⟨true, false⟩) ∧
        c.shared.sent = [] ∧ (threads.post 1 c.shared (c.th 1) (.step ⟨true, false⟩)).1.sent = [1])) =
      some true := by
    decide +kernel
  obtain ⟨c, hc, hb⟩ := Machine.reach_of_exec_map hrun
  exact ⟨c, hc, of_decide_eq_true hb⟩

end McServerDashboard.Worker.Instances
