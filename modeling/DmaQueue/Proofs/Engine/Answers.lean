/-
  DmaQueue.Proofs.Engine.Answers

  What a submission over a region table answers, told from the request, the
  table and the limit alone: a rejection, or how many pages of either range
  could be pinned.
-/
import DmaQueue.Proofs.Engine.History
import DmaQueue.Proofs.Pinner.Walk
import DmaQueue.Proofs.Request.Admission

namespace DmaQueue.Engine

open RegionTable (capped leading mapped)

variable {R : Type} {request : Request} {config : Config} {admitted : Admitted}
  {table table' : RegionTable} {source dest : List PinnedPage}

/-! ## How many pages are pinned -/

/-- The pages of the source that can be pinned. -/
def sourceReach (table : RegionTable) (admitted : Admitted) : Nat :=
  capped table.limit table.pinnedPages
    (leading table.regions false admitted.source.firstPage.toNat admitted.source.pages.toNat)

/-- The pages of the destination that can be pinned where those of the source are. -/
def destReach (table : RegionTable) (admitted : Admitted) : Nat :=
  capped table.limit (table.pinnedPages + sourceReach table admitted)
    (leading table.regions true admitted.dest.firstPage.toNat admitted.dest.pages.toNat)

/-- The second call finds the references of the first one, and the same regions and limit. -/
theorem PinsBoth.lengths (h : PinsBoth request admitted table source dest table')
    (hsource : admitted.source.Spans request.source.toNat request.length.toNat 4096)
    (hdest : admitted.dest.Spans request.dest.toNat admitted.outputLength.toNat 4096) :
    source.length = sourceReach table admitted ∧ dest.length = destReach table admitted := by
  obtain ⟨mid, ⟨_, _, hfirst, rfl⟩, ⟨_, _, hsecond, rfl⟩⟩ := h
  -- `mid` is the table between the two calls.
  have hlength := RegionTable.length_of_pin hsource hfirst
  have hlength' := RegionTable.length_of_pin hdest hsecond
  have hmid := (RegionTable.pin_eq_ok hfirst).table_eq
  refine ⟨hlength, ?_⟩
  rw [hlength', hmid, RegionTable.reach]
  show capped table.limit (RegionTable.pinnedPages (table.holding _)) _ = _
  rw [RegionTable.pinnedPages_holding, hlength]
  rfl

/-- All pages can be pinned exactly if each is mapped as it has to be and the limit leaves room for
one reference on each, the pages of both ranges counting twice. -/
theorem reach_eq_iff (table : RegionTable) (hsource : 1 ≤ admitted.source.pages.toNat)
    (hdest : 1 ≤ admitted.dest.pages.toNat) :
    sourceReach table admitted = admitted.source.pages.toNat ∧
        destReach table admitted = admitted.dest.pages.toNat ↔
      (∀ i < admitted.source.pages.toNat,
        mapped table.regions false (admitted.source.firstPage.toNat + 4096 * i) = true) ∧
      (∀ i < admitted.dest.pages.toNat,
        mapped table.regions true (admitted.dest.firstPage.toNat + 4096 * i) = true) ∧
      ∀ limit, table.limit = some limit →
        table.pinnedPages + admitted.source.pages.toNat + admitted.dest.pages.toNat ≤
          limit.toNat := by
  rw [← RegionTable.leading_eq_iff, ← RegionTable.leading_eq_iff]
  have hsourceIff := RegionTable.capped_eq_iff table.limit table.pinnedPages hsource
    (RegionTable.leading_le table.regions false admitted.source.firstPage.toNat _)
  have hdestIff := RegionTable.capped_eq_iff table.limit
    (table.pinnedPages + sourceReach table admitted) hdest
    (RegionTable.leading_le table.regions true admitted.dest.firstPage.toNat _)
  -- Where the source comes whole, the limit of the second call counts all of its pages.
  constructor
  · rintro ⟨hs, hd⟩
    have hroom := (hdestIff.1 hd).2
    rw [hs] at hroom
    exact ⟨(hsourceIff.1 hs).1, (hdestIff.1 hd).1, hroom⟩
  · rintro ⟨hs, hd, hroom⟩
    have hwhole : sourceReach table admitted = admitted.source.pages.toNat :=
      hsourceIff.2 ⟨hs, fun limit hlimit => Nat.le_trans (Nat.le_add_right ..) (hroom limit hlimit)⟩
    rw [hwhole] at hdestIff
    refine ⟨hwhole, ?_⟩
    rw [destReach, hwhole]
    exact hdestIff.2 ⟨hd, hroom⟩

/-! ## What is answered -/

/-- What a submission over a region table answers. -/
inductive Answers (request : Request) (config : Config) (table : RegionTable) :
    Except Failure Unit → Prop
  | rejected {rejection : Rejection}
      (hrejected : request.admission config = .ok (.error rejection)) :
      Answers request config table (.error (.invalidArgument rejection))
  | short {admitted : Admitted} (hadmitted : request.admission config = .ok (.ok admitted))
      (hshort : ¬(sourceReach table admitted = admitted.source.pages.toNat ∧
        destReach table admitted = admitted.dest.pages.toNat)) :
      Answers request config table (.error (.resourceExhausted
        (admitted.source.pages.toNat + admitted.dest.pages.toNat)
        (sourceReach table admitted + destReach table admitted)))
  | whole {admitted : Admitted} (hadmitted : request.admission config = .ok (.ok admitted))
      (hwhole : sourceReach table admitted = admitted.source.pages.toNat ∧
        destReach table admitted = admitted.dest.pages.toNat) :
      Answers request config table (.ok ())

section Answers

variable {answer : Except Failure Unit} (h : Answers request config table answer)

include h

theorem Answers.eq_invalidArgument_iff {rejection : Rejection} :
    answer = .error (.invalidArgument rejection) ↔
      request.admission config = .ok (.error rejection) := by
  cases h with
  | rejected hrejected => simp [hrejected]
  | short hadmitted | whole hadmitted => simp [hadmitted]

theorem Answers.eq_ok_iff (hadmitted : request.admission config = .ok (.ok admitted)) :
    answer = .ok () ↔ sourceReach table admitted = admitted.source.pages.toNat ∧
      destReach table admitted = admitted.dest.pages.toNat := by
  cases h with
  | rejected hrejected => simp [hrejected] at hadmitted
  | short hsame hshort =>
    obtain rfl : _ = admitted := by simpa [hsame] using hadmitted
    simp [hshort]
  | whole hsame hwhole =>
    obtain rfl : _ = admitted := by simpa [hsame] using hadmitted
    simp [hwhole]

theorem Answers.eq_resourceExhausted (hadmitted : request.admission config = .ok (.ok admitted))
    (hne : answer ≠ .ok ()) :
    answer = .error (.resourceExhausted
      (admitted.source.pages.toNat + admitted.dest.pages.toNat)
      (sourceReach table admitted + destReach table admitted)) := by
  cases h with
  | rejected hrejected => simp [hrejected] at hadmitted
  | short hsame =>
    obtain rfl : _ = admitted := by simpa [hsame] using hadmitted
    rfl
  | whole => exact absurd rfl hne

end Answers

/-- The page counts of the engine and those of the memory manager are the same, as both work on
pages of the same size. -/
theorem answers_of_submit [Registers R] {engine engine' : Engine RegionTable R}
    {answer : Except Failure Unit} {events : List Event} (hsound : engine.config.Sound)
    (hgranule : engine.config.pageSize = Page.standardSize)
    (h : submit request engine = ⟨.ok answer, engine', events⟩) :
    Answers request engine.config engine.pinner answer := by
  have hlengths : ∀ {admitted source dest table'},
      request.admission engine.config = .ok (.ok admitted) →
      PinsBoth request admitted engine.pinner source dest table' →
      source.length = sourceReach engine.pinner admitted ∧
        dest.length = destReach engine.pinner admitted := by
    intro admitted source dest table' hadmitted hpins
    have hadmits := Request.admits_of_admission hsound hadmitted
    have hsource := hadmits.source_spans hsound
    have hdest := hadmits.dest_spans hsound
    rw [hgranule] at hsource hdest
    exact hpins.lengths hsource hdest
  -- What is recorded plays no part in the answer.
  have hcases := submit_eq_ok h
  generalize Event.deeds events = deeds at hcases
  cases hcases with
  | rejected hrejected => exact .rejected hrejected
  | rolledBack hadmitted hpins hshort hrequested hrelease =>
    obtain ⟨hsource, hdest⟩ := hlengths hadmitted hpins
    rw [Word.checkedAdd_eq_ok_iff.1 hrequested, hsource, hdest]
    rw [Whole, hsource, hdest] at hshort
    exact .short hadmitted hshort
  | queued hadmitted hpins hwhole hrun =>
    obtain ⟨hsource, hdest⟩ := hlengths hadmitted hpins
    rw [Whole, hsource, hdest] at hwhole
    exact .whole hadmitted hwhole

/-- A history leaves the parameters as they were when they were checked. -/
theorem sound_of_play [Registers R] {registers : R} {notes : List Note}
    {start engine : Engine RegionTable R} {calls : List (Call R)}
    {log : List (Exchange RegionTable R)}
    (hcreate : create config table registers = (notes, .ok start))
    (hplay : play calls start = ⟨.ok (), engine, log⟩) :
    engine.config = config ∧ config.Sound ∧ config.pageSize = Page.standardSize := by
  obtain ⟨hflaw, hgranule, rfl⟩ := create_eq_ok hcreate
  obtain ⟨⟨_, hmoves⟩, -⟩ := moves_of_play hplay
  exact ⟨hmoves.config_eq, Config.sound_of_flaw? hflaw, hgranule.symm⟩

/-- A submission that answers, after any history.  It complains about the request exactly if the
request is not let in, and for the same reason.  A request that is let in is accepted exactly if all
pages of both ranges can be pinned: the source's first, as far as they are mapped in a row and the
limit allows, then the destination's, as far as they may be written to and the limit still allows.
That is so exactly if every page of the source is mapped, every page of the destination is mapped
and may be written to, and the limit leaves room for a reference on each.  Otherwise the answer says
how many pages were asked for, and how many could be pinned. -/
theorem answer_of_submit [Registers R] {registers : R} {notes : List Note}
    {start engine engine' : Engine RegionTable R} {calls : List (Call R)}
    {log : List (Exchange RegionTable R)} {answer : Except Failure Unit} {events : List Event}
    (hcreate : create config table registers = (notes, .ok start))
    (hplay : play calls start = ⟨.ok (), engine, log⟩)
    (hsubmit : submit request engine = ⟨.ok answer, engine', events⟩) :
    (∀ rejection, answer = .error (.invalidArgument rejection) ↔
      request.admission config = .ok (.error rejection)) ∧
    ∀ admitted, request.admission config = .ok (.ok admitted) →
      let table := engine.pinner
      let sources := admitted.source.pages.toNat
      let dests := admitted.dest.pages.toNat
      let pinned := capped table.limit table.pinnedPages
        (leading table.regions false admitted.source.firstPage.toNat sources)
      let pinned' := capped table.limit (table.pinnedPages + pinned)
        (leading table.regions true admitted.dest.firstPage.toNat dests)
      (answer = .ok () ↔ pinned = sources ∧ pinned' = dests) ∧
      (answer = .ok () ↔
        (∀ i < sources,
          mapped table.regions false (admitted.source.firstPage.toNat + 4096 * i) = true) ∧
        (∀ i < dests,
          mapped table.regions true (admitted.dest.firstPage.toNat + 4096 * i) = true) ∧
        ∀ limit, table.limit = some limit →
          table.pinnedPages + sources + dests ≤ limit.toNat) ∧
      (answer ≠ .ok () →
        answer = .error (.resourceExhausted (sources + dests) (pinned + pinned'))) := by
  obtain ⟨hconfig, hsound, hgranule⟩ := sound_of_play hcreate hplay
  rw [← hconfig] at hsound hgranule
  have hanswers := answers_of_submit hsound hgranule hsubmit
  rw [hconfig] at hanswers hsound
  refine ⟨fun rejection => hanswers.eq_invalidArgument_iff, fun admitted hadmitted => ?_⟩
  have hadmits := Request.admits_of_admission hsound hadmitted
  have hreach := reach_eq_iff engine.pinner (hadmits.source_spans hsound).pages_pos
    (hadmits.dest_spans hsound).pages_pos
  have hwhole := hanswers.eq_ok_iff hadmitted
  exact ⟨hwhole, hwhole.trans hreach, hanswers.eq_resourceExhausted hadmitted⟩

/-- The small engine, with a limit of five references. -/
def limitedEngine : Engine RegionTable FifoPair :=
  { smallEngine with pinner := { smallTable with limit := some 5 } }

/-- A submission of one page each way. -/
def onePage : Call FifoPair :=
  .submit { source := 0x12000, dest := 0x10000, length := 0x40, opcode := 0, attr := 0 }

/-- Two pages each way, the last one of which is not mapped. -/
def strayRequest : Request :=
  { source := 0x12000, dest := 0x14000, length := 0x2000, opcode := 0, attr := 0 }

/-- Two references are held when the second request comes; three of its four pages are pinned. -/
theorem answer_of_submit_strayRequest :
    let engine := (play [onePage] limitedEngine).state
    (submit strayRequest engine).result = .ok (.error (.resourceExhausted 4 3)) ∧
      (∀ rejection, strayRequest.admission limitedEngine.config ≠ .ok (.error rejection)) ∧
      engine.pinner.pinnedPages = 2 ∧
      ¬((∀ i < 2, mapped engine.pinner.regions false (0x12000 + 4096 * i) = true) ∧
        (∀ i < 2, mapped engine.pinner.regions true (0x14000 + 4096 * i) = true) ∧
        ∀ limit, engine.pinner.limit = some limit →
          engine.pinner.pinnedPages + 2 + 2 ≤ limit.toNat) := by
  intro engine
  have hcreate : create limitedEngine.config limitedEngine.pinner limitedEngine.registers =
      ([], .ok limitedEngine) := rfl
  have hplay := Outcome.eq_of_isOk (o := play [onePage] limitedEngine) (by decide +kernel)
  have hresult : (submit strayRequest engine).result =
      .ok (.error (.resourceExhausted 4 3)) := by decide +kernel
  obtain ⟨hrejected, hadmitted⟩ :=
    answer_of_submit hcreate hplay (Outcome.eq_of_result hresult)
  obtain ⟨-, hwhole, -⟩ := hadmitted _ rfl
  exact ⟨hresult, fun rejection hadmission => by simpa using (hrejected rejection).2 hadmission,
    by decide +kernel, fun hall => by simpa using hwhole.2 hall⟩

end DmaQueue.Engine
