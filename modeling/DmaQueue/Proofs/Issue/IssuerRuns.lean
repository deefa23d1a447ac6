/-
  DmaQueue.Proofs.Issue.IssuerRuns

  The issuer as a machine of its own, stepped at any sampled depths: what any
  samples make of a transfer.  A step stalls, and leaves all as it was,
  or it takes the transfer one place further along its path (`Issues.went`).  So
  after any steps the transfer stands as many places on as there were steps that
  did not stall, and what they wrote is that much of its stream (`went_of_steps`).
-/
import DmaQueue.Proofs.Engine.Faults
import DmaQueue.Proofs.Issue.Streams
import DmaQueue.Proofs.Transfer.Path

namespace DmaQueue

open Engine (halves)

/-! ## Steps, one after the other -/

/-- Whether the FIFO was full. -/
def Report.isStalled : Report → Bool
  | .stalled _ => true
  | _ => false

/-- A step: the progress that it found the transfer in, and its report. -/
structure Visit where
  /-- The progress that the step found. -/
  progress : Progress
  /-- What the step has done. -/
  report : Report
  deriving DecidableEq, Repr

/-- One step for each sample. -/
def Issuer.steps {R : Type} [Registers R] (config : Config) :
    List Depths → Act Event (Issuer R) (List Visit)
  | [] => return []
  | depths :: rest => do
    let issuer ← Act.get
    let report ← Issuer.step config depths
    let later ← Issuer.steps config rest
    return ⟨issuer.transfer.progress, report⟩ :: later

/-! ## The places of a transfer -/

namespace Transfer

variable {t : Transfer}

/-- The transfer at its `k`-th place. -/
def reached (t : Transfer) (k : Nat) : Transfer :=
  { t with progress := Progress.nth t.source.pageCount t.dest.pageCount k }

theorem reached_zero (hpaged : t.Paged) (hfresh : t.progress = .sourceHead) : t.reached 0 = t := by
  have hfirst : Progress.OnPath t.source.pageCount t.dest.pageCount 0 .sourceHead :=
    .inl ⟨trivial, rfl, Nat.lt_add_right _ hpaged.source⟩
  rw [reached, hfirst.nth_eq hpaged.source hpaged.dest, ← hfresh]

theorem paged_reached (hpaged : t.Paged) (k : Nat) : (t.reached k).Paged :=
  ⟨hpaged.source, hpaged.dest⟩

theorem advance_reached (hpaged : t.Paged) (k : Nat) : (t.reached k).advance = t.reached (k + 1) :=
  congrArg (fun progress => { t with progress })
    (Progress.nth_succ hpaged.source hpaged.dest k).symm

/-- A transfer is under way as far as its pages go, and then it is sent. -/
theorem reached_cases (hpaged : t.Paged) (k : Nat) :
    (t.reached k).UnderWay ∧ (t.reached k).written = k ∧ k < t.pageCount ∨
      (t.reached k).progress = .sent ∧ t.pageCount ≤ k := by
  rcases Progress.onPath_nth hpaged.source hpaged.dest k with ⟨hunder, hwritten, hlt⟩ | hend
  · exact .inl ⟨⟨paged_reached hpaged k, hunder⟩, hwritten, hlt⟩
  · exact .inr hend

theorem sent_reached_iff (hpaged : t.Paged) (k : Nat) :
    (t.reached k).progress = .sent ↔ t.pageCount ≤ k :=
  Progress.nth_eq_sent_iff hpaged.source hpaged.dest k

/-- As many descriptors are written as places are gone, up to the last. -/
theorem written_reached (hpaged : t.Paged) (k : Nat) :
    (t.reached k).written = min k t.pageCount := by
  rcases reached_cases hpaged k with ⟨-, hwritten, hlt⟩ | ⟨hsent, hle⟩
  · rw [hwritten, Nat.min_eq_left (Nat.le_of_lt hlt)]
  · rw [Nat.min_eq_right hle, written, cursor, cursor, hsent]
    rfl

theorem underWay_reached (hpaged : t.Paged) {k : Nat} {side : Side} {index : Nat}
    (htarget : (t.reached k).progress.target? = some (side, index)) :
    (t.reached k).UnderWay ∧ k < t.pageCount := by
  rcases reached_cases hpaged k with ⟨hunder, -, hlt⟩ | ⟨hsent, -⟩
  · exact ⟨hunder, hlt⟩
  · rw [hsent] at htarget
    exact nomatch htarget

/-- A transfer that does not stall has no stall to report. -/
theorem isStalled_due (t : Transfer) : t.due.isStalled = false := by
  unfold due
  split
  · rfl
  · split <;> rfl

/-- What a move at the `k`-th place finds and reports: the side of the descriptor that goes out
there, unless all are written. -/
def visit (t : Transfer) (k : Nat) : Visit where
  progress := (t.reached k).progress
  report :=
    match (t.reached k).progress.target? with
    | none => .alreadySent
    | some (side, _) => if k + 1 = t.pageCount then .finished side else .issued side

/-- The last descriptor is the one behind which the path ends. -/
theorem report_visit (hpaged : t.Paged) (k : Nat) : (t.visit k).report = (t.reached k).due := by
  unfold visit due
  cases htarget : (t.reached k).progress.target? with
  | none => rfl
  | some target =>
    obtain ⟨-, hlt⟩ := underWay_reached hpaged htarget
    have hlast : k + 1 = t.pageCount ↔ (t.reached k).advance.progress.isSent = true := by
      rw [advance_reached hpaged, Progress.isSent_eq_true_iff, sent_reached_iff hpaged]
      omega
    simp only [hlast]

/-- Moves to the end find the transfer in every progress that it can be in. -/
theorem exists_visit_iff (hpaged : t.Paged) {s : Nat} (hs : t.pageCount ≤ s) {p : Progress}
    (hp : p ≠ .sent) : (∃ visit ∈ (List.range s).map t.visit, visit.progress = p) ↔
      p.Underway t.source.pageCount t.dest.pageCount := by
  rw [← Progress.exists_nth_iff hpaged.source hpaged.dest hs hp]
  simp only [List.mem_map, List.mem_range, exists_exists_and_eq_and]
  rfl

end Transfer

/-- The visits that did not stall. -/
def Visit.moves (visits : List Visit) : List Visit :=
  visits.filter fun visit => !visit.report.isStalled

/-- A tail is gone through if it has a chunk. -/
theorem Visit.exists_tail_iff {visits : List Visit} {tail : Nat → Progress} {count : Nat}
    (h : ∀ next, (∃ visit ∈ visits, visit.progress = tail next) ↔ 1 ≤ next ∧ next < count) :
    (∃ visit ∈ visits, ∃ next, visit.progress = tail next) ↔ 1 < count := by
  constructor
  · rintro ⟨visit, hvisit, next, hnext⟩
    obtain ⟨hfirst, hlast⟩ := (h next).1 ⟨visit, hvisit, hnext⟩
    exact Nat.lt_of_le_of_lt hfirst hlast
  · intro hmore
    obtain ⟨visit, hvisit, hnext⟩ := (h 1).2 ⟨Nat.le_refl 1, hmore⟩
    exact ⟨visit, hvisit, 1, hnext⟩

/-- The visit stalled if the sample read full on the side that was needed, and only then. -/
def Visit.Heeds (config : Config) (depths : Depths) (visit : Visit) : Prop :=
  ∀ side, visit.report = .stalled side ↔
    ∃ index, visit.progress.target? = some (side, index) ∧ depths.of side = config.fifoFull

namespace Issuer

variable {R : Type} {config : Config} {depths : Depths} {samples : List Depths}
  {issuer issuer' : Issuer R} {t : Transfer} {report : Report} {visits : List Visit}
  {events : List Event} {fault : Fault}

/-! ## Runs -/

/-- The transfer has moved on from its `k`-th place, one place for each visit that did not stall,
and what was written is that part of its stream. -/
structure Went (t : Transfer) (pageSize : UInt64) (k : Nat) (issuer : Issuer R)
    (visits : List Visit) (events : List Event) : Prop where
  transfer : issuer.transfer = t.reached (k + (Visit.moves visits).length)
  moves : Visit.moves visits = (List.range' k (Visit.moves visits).length).map t.visit
  written : ∃ pushed : List (Side × Descriptor), Event.writes events = pushed.flatMap halves ∧
    (t.stream pageSize).take (t.reached k).written ++
        pushed.map (fun push => (push.1, Except.ok push.2)) =
      (t.stream pageSize).take issuer.transfer.written

variable {k : Nat} {pageSize : UInt64} {registers : R}

theorem Went.refl (h : issuer.transfer = t.reached k) : Went t pageSize k issuer [] [] :=
  ⟨h, rfl, [], rfl, by rw [h, List.map_nil, List.append_nil]⟩

theorem Went.trans {later : List Visit} {rest : List Event}
    (h : Went t pageSize k issuer visits events)
    (hrest : Went t pageSize (k + (Visit.moves visits).length) issuer' later rest) :
    Went t pageSize k issuer' (visits ++ later) (events ++ rest) := by
  have hmoves : Visit.moves (visits ++ later) = Visit.moves visits ++ Visit.moves later :=
    List.filter_append ..
  obtain ⟨pushed, hpushed, hstream⟩ := h.written
  obtain ⟨more, hmore, hlater⟩ := hrest.written
  constructor
  case transfer => rw [hrest.transfer, hmoves, List.length_append, Nat.add_assoc]
  case moves =>
    rw [hmoves, List.length_append, ← List.range'_append_1, List.map_append, ← h.moves,
      ← hrest.moves]
  case written =>
    refine ⟨pushed ++ more, ?_, ?_⟩
    · rw [Event.writes_append, hpushed, hmore, List.flatMap_append]
    · rw [List.map_append, ← List.append_assoc, hstream, h.transfer, hlater]

/-- One visit that did not stall is one place. -/
theorem Went.single {visit : Visit} (hvisit : visit = t.visit k)
    (hmoved : visit.report.isStalled = false) (htransfer : issuer.transfer = t.reached (k + 1))
    (pushed : List (Side × Descriptor)) (hpushed : Event.writes events = pushed.flatMap halves)
    (hstream : (t.stream pageSize).take (t.reached k).written ++
        pushed.map (fun push => (push.1, Except.ok push.2)) =
      (t.stream pageSize).take (t.reached (k + 1)).written) :
    Went t pageSize k issuer [visit] events := by
  have hmoves : Visit.moves [visit] = [visit] := by simp [Visit.moves, hmoved]
  refine ⟨?_, ?_, pushed, hpushed, ?_⟩
  · rw [hmoves]
    exact htransfer
  · rw [hmoves, hvisit]
    rfl
  · rw [htransfer]
    exact hstream

/-- What is written is as much of each side as its cursor says. -/
theorem Went.parts (h : Went t pageSize k issuer visits events) (hpaged : t.Paged)
    {pushed : List (Side × Descriptor)}
    (hpushed : pushed.map (fun push => (push.1, Except.ok push.2)) =
      (t.stream pageSize).take issuer.transfer.written) (side : Side) :
    (side.part pushed).length = issuer.transfer.cursor side := by
  have hplace := Transfer.reached_cases hpaged (k + (Visit.moves visits).length)
  rw [← h.transfer] at hplace
  have hpart := Transfer.part_take_written (t := issuer.transfer)
    (h.transfer ▸ Transfer.paged_reached hpaged _)
    (hplace.imp (fun hunder => hunder.1.progress) fun hsent => hsent.1) pageSize side
  have hstream : issuer.transfer.stream pageSize = t.stream pageSize := by rw [h.transfer]; rfl
  rw [hstream, ← hpushed, Side.part_map side pushed fun _ d => Except.ok d] at hpart
  have hlength := congrArg List.length hpart
  rwa [List.length_map, Transfer.issued, List.length_map, List.length_range] at hlength

variable [Registers R]

/-- A step stalls where the transfer stands, or takes it one place further. -/
theorem Issues.went (h : Issues config depths issuer report issuer' events) (hpaged : t.Paged)
    (hat : issuer.transfer = t.reached k) :
    Went t config.pageSize k issuer' [⟨issuer.transfer.progress, report⟩] events := by
  have hvisit : ⟨issuer.transfer.progress, issuer.transfer.due⟩ = t.visit k := by
    rw [hat, ← Transfer.report_visit hpaged k]
    rfl
  have hnext : issuer.transfer.advance = t.reached (k + 1) := by
    rw [hat, Transfer.advance_reached hpaged]
  cases h with
  | stalled => exact ⟨hat, rfl, [], rfl, by rw [hat, List.map_nil, List.append_nil]⟩
  | @sent side index d registers written htarget hroom hd hpush =>
    rw [hat] at htarget hd
    obtain ⟨hunder, -⟩ := Transfer.underWay_reached hpaged htarget
    -- What goes out is the next descriptor of the stream.
    have hone := hunder.take_written_succ htarget config.pageSize
    rw [hd, ← hunder.written_advance, Transfer.advance_reached hpaged] at hone
    exact Went.single hvisit (Transfer.isStalled_due _) hnext [(side, d)] rfl hone.symm
  | complete htarget =>
    rcases Transfer.reached_cases hpaged k with ⟨hunder, -, -⟩ | ⟨hsent, hle⟩
    · exact absurd (hat ▸ htarget) hunder.target?_ne_none
    -- The path has ended, so one place further is the same place.
    have hagain := (Transfer.sent_reached_iff hpaged (k + 1)).2 (Nat.le_succ_of_le hle)
    have hstay : t.reached (k + 1) = t.reached k :=
      congrArg (fun progress => { t with progress }) (hagain.trans hsent.symm)
    have hdue : issuer.transfer.due = .alreadySent := by rw [Transfer.due, htarget]
    rw [hdue] at hvisit
    have hstream : (t.stream config.pageSize).take (t.reached k).written ++ [] =
        (t.stream config.pageSize).take (t.reached (k + 1)).written := by
      rw [hstay, List.append_nil]
    exact Went.single hvisit rfl (hat.trans hstay.symm) [] rfl hstream

theorem went_of_step (hpaged : t.Paged) (hat : issuer.transfer = t.reached k)
    (h : step config depths issuer = ⟨.ok report, issuer', events⟩) :
    Went t config.pageSize k issuer' [⟨issuer.transfer.progress, report⟩] events := by
  have hdeeds := (step_eq_ok h).went hpaged hat
  exact ⟨hdeeds.transfer, hdeeds.moves, Event.writes_deeds events ▸ hdeeds.written⟩

/-- The step before all others, by itself. -/
theorem steps_cons_eq_ok {rest : List Depths}
    (h : steps config (depths :: rest) issuer = ⟨.ok visits, issuer', events⟩) :
    ∃ report mid later first second,
      step config depths issuer = ⟨.ok report, mid, first⟩ ∧
      steps config rest mid = ⟨.ok later, issuer', second⟩ ∧
      visits = ⟨issuer.transfer.progress, report⟩ :: later ∧ events = first ++ second := by
  have h₁ := Act.get_bind_eq_ok_iff.1 h
  obtain ⟨report, mid, first, _, hone, h₂, rfl⟩ := Act.bind_eq_ok_iff.1 h₁
  obtain ⟨later, last, second, _, hrest, hpure, rfl⟩ := Act.bind_eq_ok_iff.1 h₂
  obtain ⟨rfl, rfl, rfl⟩ := Act.pure_eq_ok_iff.1 hpure
  exact ⟨report, mid, later, first, second, hone, hrest, rfl, by rw [List.append_nil]⟩

/-- Steps take a transfer along its path. -/
theorem went_of_steps (hpaged : t.Paged) (hat : issuer.transfer = t.reached k)
    (h : steps config samples issuer = ⟨.ok visits, issuer', events⟩) :
    Went t config.pageSize k issuer' visits events := by
  -- The other steps go on from the place that the first one leaves.
  induction samples generalizing k issuer visits events with
  | nil =>
    obtain ⟨rfl, rfl, rfl⟩ := Act.pure_eq_ok_iff.1 h
    exact .refl hat
  | cons depths rest ih =>
    obtain ⟨report, mid, later, first, second, hone, hrest, rfl, rfl⟩ := steps_cons_eq_ok h
    have hwent := went_of_step hpaged hat hone
    exact hwent.trans (ih hwent.transfer hrest)

/-! ## Which steps stall -/

theorem Issues.heeds (h : Issues config depths issuer report issuer' events) :
    Visit.Heeds config depths ⟨issuer.transfer.progress, report⟩ := by
  intro other
  cases h with
  | @stalled side index htarget hfull =>
    -- There is one chunk that is next, so no other side can be the one that was needed.
    simp only [Report.stalled.injEq, htarget, Option.some.injEq, Prod.mk.injEq]
    constructor
    · rintro rfl
      exact ⟨index, ⟨rfl, rfl⟩, hfull⟩
    · rintro ⟨_, ⟨rfl, -⟩, -⟩
      rfl
  | @sent side index d registers written htarget hroom =>
    have hdue := Transfer.isStalled_due issuer.transfer
    constructor
    · intro hstalled
      rw [show issuer.transfer.due = .stalled other from hstalled] at hdue
      exact nomatch hdue
    · rintro ⟨_, hother, hfull⟩
      rw [htarget, Option.some.injEq, Prod.mk.injEq] at hother
      exact absurd (hother.1 ▸ hfull) hroom
  | complete htarget => simp [htarget]

theorem heeds_of_steps (h : steps config samples issuer = ⟨.ok visits, issuer', events⟩) :
    List.Forall₂ (Visit.Heeds config) samples visits := by
  induction samples generalizing issuer visits events with
  | nil =>
    obtain ⟨rfl, -, -⟩ := Act.pure_eq_ok_iff.1 h
    exact .nil
  | cons depths rest ih =>
    obtain ⟨report, mid, later, first, second, hone, hrest, rfl, -⟩ := steps_cons_eq_ok h
    exact .cons (step_eq_ok hone).heeds (ih hrest)

/-- A step that changes nothing can be repeated. -/
theorem steps_of_idle
    (h : ∀ depths ∈ samples, step config depths issuer = ⟨.ok report, issuer, []⟩) :
    steps config samples issuer =
      ⟨.ok (samples.map fun _ => ⟨issuer.transfer.progress, report⟩), issuer, []⟩ := by
  induction samples with
  | nil => rfl
  | cons depths rest ih =>
    have hone := h depths (List.mem_cons_self ..)
    have hrest := ih fun depths hdepths => h depths (List.mem_cons_of_mem _ hdepths)
    exact Act.bind_ok (m := Act.get) rfl (Act.bind_ok hone (Act.bind_ok hrest rfl))

/-! ## Where a step faults -/

/-- Steps fault on a chunk of the transfer that cannot be packed, or in the control block. -/
theorem fault_of_steps (hpaged : t.Paged) (hat : issuer.transfer = t.reached k)
    (h : (steps config samples issuer).result = .error fault) :
    Registers.Raises R fault ∨ ∃ side index, index < (t.range side).pageCount ∧
      t.descriptor config.pageSize side index = .error fault := by
  induction samples generalizing k issuer with
  | nil => exact nomatch h
  | cons depths rest ih =>
    have h₁ := Act.result_get_bind_eq_error_iff.1 h
    rcases Act.result_bind_eq_error_iff.1 h₁ with hone | ⟨report, mid, _, hone, h₂⟩
    · rcases fault_of_step hone with hraises | ⟨side, index, htarget, hd⟩
      · exact .inl hraises
      · rw [hat] at htarget hd
        obtain ⟨hunder, -⟩ := Transfer.underWay_reached hpaged htarget
        exact .inr ⟨side, index, hunder.target_lt htarget, hd⟩
    · rcases Act.result_bind_eq_error_iff.1 h₂ with hrest | ⟨_, _, _, -, hpure⟩
      · exact ih (went_of_step hpaged hat hone).transfer hrest
      · exact nomatch hpure

/-! ## What comes next -/

/-- What any further steps can do.  While the side that is needed reads full they stall, and nothing
changes.  A step that it has room for writes the next descriptor and no other, which moves the
cursor of that side on by one and takes the transfer further up.  Once all is sent, nothing is
written any more. -/
structure Disciplined (config : Config) (issuer : Issuer R) : Prop where
  stalls : ∀ {side : Side} {index : Nat},
    issuer.transfer.progress.target? = some (side, index) → ∀ samples : List Depths,
      (∀ depths ∈ samples, depths.of side = config.fifoFull) →
      steps config samples issuer =
        ⟨.ok (samples.map fun _ => ⟨issuer.transfer.progress, .stalled side⟩), issuer, []⟩
  writes : ∀ {side : Side} {index : Nat} {depths : Depths} {report : Report} {after : Issuer R}
    {events : List Event}, issuer.transfer.progress.target? = some (side, index) →
      depths.of side ≠ config.fifoFull →
      step config depths issuer = ⟨.ok report, after, events⟩ →
      (∃ d, issuer.transfer.descriptor config.pageSize side index = .ok d ∧
        Event.deeds events = [.stored side.lowOffset d.low, .stored side.highOffset d.high]) ∧
      (∀ other, after.transfer.cursor other =
        issuer.transfer.cursor other + if other = side then 1 else 0) ∧
      issuer.transfer.progress.Precedes after.transfer.progress ∧
      report = if after.transfer.progress = .sent then .finished side else .issued side
  ends : issuer.transfer.progress = .sent → ∀ samples : List Depths,
    steps config samples issuer = ⟨.ok (samples.map fun _ => ⟨.sent, .alreadySent⟩), issuer, []⟩

theorem disciplined_of_reached (hpaged : t.Paged) (hat : issuer.transfer = t.reached k) :
    issuer.Disciplined config := by
  constructor
  case stalls =>
    intro side index htarget samples hfull
    exact steps_of_idle fun depths hdepths => step_of_full htarget (hfull depths hdepths)
  case writes =>
    intro side index depths report after events htarget hroom h
    have hunder : issuer.transfer.UnderWay := by
      rw [hat] at htarget ⊢
      exact (Transfer.underWay_reached hpaged htarget).1
    have hissues := step_eq_ok h
    generalize Event.deeds events = deeds at hissues ⊢
    cases hissues with
    | stalled hother hfull =>
      rw [htarget, Option.some.injEq, Prod.mk.injEq] at hother
      exact absurd (hother.1 ▸ hfull) hroom
    | complete hnone => exact absurd hnone (htarget ▸ nofun)
    | @sent side' index' d registers written hother _ hd hpush =>
      rw [htarget, Option.some.injEq, Prod.mk.injEq] at hother
      obtain ⟨rfl, rfl⟩ := hother
      refine ⟨⟨d, hd, rfl⟩, fun other => ?_, Progress.precedes_advance hunder.progress, ?_⟩
      · have hcursor :=
          Progress.cursor_advance hunder.source hunder.dest hunder.progress htarget other
        cases other <;> exact hcursor
      · simp only [Transfer.due, htarget, Progress.isSent_eq_true_iff]
  case ends =>
    intro hsent samples
    rw [steps_of_idle fun depths _ => step_of_sent hsent, hsent]

/-! ## The path of a transfer -/

/-- Let a transfer with pages on both sides be stepped at any samples, from the first of its
descriptors on.  The steps fault only where the control block does, or on a chunk that cannot be
packed.  Otherwise a visit stalled if and only if its sample read full on the side that it needed;
the others found the transfer on one place of its path after the other, and all but the last of them
that wrote a descriptor reported that there are more.  What they wrote is that part of the stream,
on each side as much as the cursor says, and the transfer is sent once there were as many of them as
it has pages.  The first destination chunk is then never left out, and a tail is gone through if and
only if its side has more than one page.  The engine serves the head of its queue by such a step. -/
theorem path_of_steps {config : Config} {t : Transfer} {registers : R} (hpaged : t.Paged)
    (hfresh : t.progress = .sourceHead) :
    (∀ samples fault, (steps config samples ⟨t, registers⟩).result = .error fault →
      Registers.Raises R fault ∨ ∃ side index, index < (t.range side).pageCount ∧
        t.descriptor config.pageSize side index = .error fault) ∧
    (∀ samples visits issuer events,
      steps config samples ⟨t, registers⟩ = ⟨.ok visits, issuer, events⟩ →
      let moves := Visit.moves visits
      List.Forall₂ (Visit.Heeds config) samples visits ∧
        moves = (List.range moves.length).map t.visit ∧
        issuer.transfer = t.reached moves.length ∧
        (issuer.transfer.progress = .sent ↔
          t.source.pageCount + t.dest.pageCount ≤ moves.length) ∧
        (∃ pushed : List (Side × Descriptor), Event.writes events = pushed.flatMap halves ∧
          pushed.map (fun push => (push.1, Except.ok push.2)) =
            (t.stream config.pageSize).take moves.length ∧
          ∀ side, (side.part pushed).length = issuer.transfer.cursor side) ∧
        (issuer.transfer.progress = .sent →
          (∃ visit ∈ moves, visit.progress = .destHead) ∧
          ((∃ visit ∈ moves, ∃ next, visit.progress = .sourceTail next) ↔ 1 < t.source.pageCount) ∧
          ((∃ visit ∈ moves, ∃ next, visit.progress = .destTail next) ↔ 1 < t.dest.pageCount)) ∧
        issuer.Disciplined config) ∧
    ∀ {P : Type} (head : Transfer) (rest : List Transfer) (depths : Depths),
      (Engine.serve head rest depths : Act Event (Engine P R) (Option Pause)) = (do
        let engine ← Act.get
        let report ← Engine.onIssuer head rest (step engine.config depths)
        Engine.heed report) := by
  -- A transfer with nothing written stands on the first place of its path.
  have hstart : t = t.reached 0 := (Transfer.reached_zero hpaged hfresh).symm
  refine ⟨fun samples fault => fault_of_steps hpaged hstart, ?_, fun _ _ _ => rfl⟩
  intro samples visits issuer events h moves
  have hwent := went_of_steps hpaged hstart h
  have hplaces : moves = (List.range moves.length).map t.visit := by
    rw [List.range_eq_range']
    exact hwent.moves
  have htransfer : issuer.transfer = t.reached moves.length := by
    rw [hwent.transfer, Nat.zero_add]
  have hsent : issuer.transfer.progress = .sent ↔ t.pageCount ≤ moves.length := by
    rw [htransfer, Transfer.sent_reached_iff hpaged]
  have hwritten : (t.stream config.pageSize).take issuer.transfer.written =
      (t.stream config.pageSize).take moves.length := by
    rw [htransfer, Transfer.written_reached hpaged, Transfer.pageCount,
      ← Transfer.length_stream hpaged config.pageSize, ← List.take_eq_take_min]
  refine ⟨heeds_of_steps h, hplaces, htransfer, hsent, ?_, fun hend => ?_,
    disciplined_of_reached hpaged htransfer⟩
  · obtain ⟨pushed, hpushed, hstream⟩ := hwent.written
    rw [← hstart, Transfer.written_of_sourceHead hfresh, List.take_zero, List.nil_append] at hstream
    exact ⟨pushed, hpushed, hstream.trans hwritten, hwent.parts hpaged hstream⟩
  · have hvisited : ∀ p : Progress, p ≠ .sent → ((∃ visit ∈ moves, visit.progress = p) ↔
        p.Underway t.source.pageCount t.dest.pageCount) := by
      intro p hp
      rw [hplaces]
      exact Transfer.exists_visit_iff hpaged (hsent.1 hend) hp
    exact ⟨(hvisited .destHead nofun).2 trivial,
      Visit.exists_tail_iff fun next => hvisited (.sourceTail next) nofun,
      Visit.exists_tail_iff fun next => hvisited (.destTail next) nofun⟩

/-- A transfer of two pages to two pages, over FIFOs that hold two descriptors each. -/
def smallIssuer : Issuer FifoPair where
  transfer :=
    { request := { source := 0x12040, dest := 0x10080, length := 0x1000, opcode := 0, attr := 0 }
      outputLength := 0x1000
      source :=
        { pages := [⟨0x12000, 0x32000⟩, ⟨0x13000, 0x40000⟩]
          offset := 0x40
          firstLength := 0xfc0
          lastLength := 0x40 }
      dest :=
        { pages := [⟨0x10000, 0x30000⟩, ⟨0x11000, 0x31000⟩]
          offset := 0x80
          firstLength := 0xf80
          lastLength := 0x80 } }
  registers := { capacity := 2 }

/-- Samples at which the FIFOs are full now and then. -/
def smallSamples : List Depths :=
  [⟨0, 0⟩, ⟨1, 2⟩, ⟨1, 0⟩, ⟨2, 1⟩, ⟨1, 1⟩, ⟨2, 2⟩, ⟨0, 1⟩, ⟨0, 0⟩]

/-- What the steps at these samples find and report. -/
def smallVisits : List Visit :=
  [ ⟨.sourceHead, .issued .source⟩, ⟨.destHead, .stalled .dest⟩, ⟨.destHead, .issued .dest⟩,
    ⟨.sourceTail 1, .stalled .source⟩, ⟨.sourceTail 1, .issued .source⟩,
    ⟨.destTail 1, .stalled .dest⟩, ⟨.destTail 1, .finished .dest⟩, ⟨.sent, .alreadySent⟩ ]

/-- The small transfer is sent by its four moves, and one more finds it so. -/
theorem path_of_smallSteps :
    let outcome := steps { fifoFull := 2 } smallSamples smallIssuer
    outcome.result = .ok smallVisits ∧
      Visit.moves smallVisits = (List.range 5).map smallIssuer.transfer.visit ∧
      outcome.state.transfer.progress = .sent ∧
      List.Forall₂ (Visit.Heeds { fifoFull := 2 }) smallSamples smallVisits := by
  intro outcome
  have hresult : outcome.result = .ok smallVisits := by decide +kernel
  obtain ⟨hheeds, hmoves, -, hsent, -⟩ :=
    (path_of_steps (t := smallIssuer.transfer) ⟨by decide, by decide⟩ rfl).2.1 smallSamples
      smallVisits outcome.state outcome.events (Outcome.eq_of_result hresult)
  exact ⟨hresult, hmoves, hsent.2 (by decide), hheeds⟩

end Issuer

end DmaQueue
