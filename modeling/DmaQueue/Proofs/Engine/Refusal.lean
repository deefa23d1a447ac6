/-
  DmaQueue.Proofs.Engine.Refusal

  A submission that fails leaves no trace but in the counters.  So a history can
  do without it: with every failed submission left out, the remaining calls
  answer the same and do the same.
-/
import DmaQueue.Proofs.Engine.Uncounted
import DmaQueue.Proofs.Pinner.RegionTable

namespace DmaQueue

namespace Engine

variable {R : Type}

theorem filter_isAccess_pins (request : Request) (admitted : Admitted)
    (source dest : List PinnedPage) :
    (pinDeeds request admitted source dest ++
      (source ++ dest).map (Event.unpinned · false)).filter Event.isAccess = [] := by
  rw [List.filter_append, Event.filter_isAccess_unpinned]
  rfl

/-! ## A failed submission -/

/-- What a failed submission leaves: one more rejection and no pin call, or one more rollback and
the calls by which pages were pinned and released again. -/
inductive Refused (request : Request) (engine : Engine RegionTable R) (events : List Event) :
    Failure → Engine RegionTable R → Prop
  | rejected {rejection : Rejection}
      (hrejected : request.admission engine.config = .ok (.error rejection))
      (hdeeds : Event.deeds events = []) :
      Refused request engine events (.invalidArgument rejection)
        { engine with
          tally := { engine.tally with rejected := Word.saturatingAdd engine.tally.rejected 1 } }
  | rolledBack {admitted : Admitted} {source dest : List PinnedPage} {requested : UInt64}
      (hadmitted : request.admission engine.config = .ok (.ok admitted))
      (hdeeds : Event.deeds events = pinDeeds request admitted source dest ++
        (source ++ dest).map (Event.unpinned · false)) :
      Refused request engine events
        (.resourceExhausted requested.toNat (source.length + dest.length))
        { engine with
          tally := { engine.tally with rollbacks := Word.saturatingAdd engine.tally.rollbacks 1 }
          pinner := { engine.pinner with
            pinCalls := engine.pinner.pinCalls + 2
            unpinCalls := engine.pinner.unpinCalls + (source.length + dest.length) } }

theorem refused_of_submit [Registers R] {request : Request} {engine engine' : Engine RegionTable R}
    {failure : Failure} {events : List Event}
    (h : submit request engine = ⟨.ok (.error failure), engine', events⟩) :
    Refused request engine events failure engine' := by
  have hcases := submit_eq_ok h
  generalize hdeeds : Event.deeds events = deeds at hcases
  cases hcases with
  | rejected hrejected => exact .rejected hrejected hdeeds
  | rolledBack hadmitted hpins _ _ hrelease =>
    rw [hpins.rollBack_eq hrelease]
    exact .rolledBack hadmitted hdeeds

theorem Refused.filter_isAccess {request : Request} {engine engine' : Engine RegionTable R}
    {failure : Failure} {events : List Event} (h : Refused request engine events failure engine') :
    events.filter Event.isAccess = [] := by
  rw [← Event.filter_isAccess_deeds]
  cases h with
  | rejected _ hdeeds => rw [hdeeds]; rfl
  | rolledBack _ hdeeds =>
    rw [hdeeds]
    exact filter_isAccess_pins ..

theorem Refused.uncounted_eq {request : Request} {engine engine' : Engine RegionTable R}
    {failure : Failure} {events : List Event} (h : Refused request engine events failure engine') :
    engine'.uncounted = engine.uncounted := by
  cases h <;> rfl

/-! ## Histories without failed submissions -/

/-- Whether the exchange is a submission that failed. -/
def Exchange.failed {P : Type} (x : Exchange P R) : Bool :=
  match x.outcome.result with
  | .ok (.submitted (.error _)) => true
  | _ => false

/-- The exchange with the counters of the engine that it leaves at zero. -/
def Exchange.uncounted (x : Exchange RegionTable R) : Exchange RegionTable R :=
  { x with outcome := x.outcome.seen Engine.uncounted }

theorem Exchange.uncounted_eq_of_failed [Registers R] {call : Call R}
    {engine engine' : Engine RegionTable R} {answer : Answer} {events : List Event}
    (h : call.act engine = ⟨.ok answer, engine', events⟩)
    (hfailed : Exchange.failed (⟨call, ⟨.ok answer, engine', events⟩⟩ : Exchange RegionTable R)) :
    engine'.uncounted = engine.uncounted := by
  cases call with
  | submit request =>
    obtain ⟨result, hsubmit, rfl⟩ := act_submit_eq_ok h
    cases result with
    | ok => simp [Exchange.failed] at hfailed
    | error failure => exact (refused_of_submit hsubmit).uncounted_eq
  | poll =>
    obtain ⟨-, -, rfl⟩ := act_poll_eq_ok h
    simp [Exchange.failed] at hfailed
  | hardware change =>
    obtain ⟨-, rfl, -⟩ := act_hardware_eq_ok h
    simp [Exchange.failed] at hfailed

/-- Without the failed submissions a history ends the same way, and each of the other calls has the
same outcome, up to the counters. -/
theorem play_filter_failed [Registers R] (calls : List (Call R))
    {engine engine' : Engine RegionTable R} (h : engine.uncounted = engine'.uncounted) :
    let kept := (play calls engine).events.filter (!·.failed)
    let played := play (kept.map (·.call)) engine'
    played.result = (play calls engine).result ∧
      played.state.uncounted = (play calls engine).state.uncounted ∧
      played.events.map Exchange.uncounted = kept.map Exchange.uncounted := by
  induction calls generalizing engine engine' with
  | nil => exact ⟨rfl, h.symm, rfl⟩
  | cons call rest ih =>
    have hact := respects_act call engine engine' h
    cases hone : call.act engine with
    | mk result mid events =>
      cases hone' : call.act engine' with
      | mk result' mid' events' =>
        rw [hone, hone'] at hact
        simp only [Outcome.seen, Outcome.mk.injEq] at hact
        obtain ⟨rfl, hmid, rfl⟩ := hact
        cases result with
        | error fault =>
          -- The history ends here, and a call that faults is kept.
          rw [play_cons_of_error hone]
          show let played := play [call] engine'
            played.result = .error fault ∧ played.state.uncounted = mid.uncounted ∧
              played.events.map Exchange.uncounted = _
          rw [play_cons_of_error hone']
          refine ⟨rfl, hmid.symm, ?_⟩
          simp only [List.map_cons, List.map_nil, Exchange.uncounted, Outcome.seen, ← hmid]
          rfl
        | ok answer =>
          rw [play_cons_of_ok hone]
          by_cases hfailed :
              (⟨call, ⟨.ok answer, mid, events⟩⟩ : Exchange RegionTable R).failed = true
          · -- The failed submission leaves an engine that looks like the one it found.
            have hsame := Exchange.uncounted_eq_of_failed hone hfailed
            have hrest := ih (hsame.trans h)
            simpa only [Outcome.after, List.singleton_append, List.filter_cons, hfailed,
              Bool.not_true, Bool.false_eq_true, ↓reduceIte] using hrest
          · have hrest := ih hmid
            simp only [Outcome.after, List.singleton_append, List.filter_cons, hfailed,
              Bool.not_false, ↓reduceIte, List.map_cons, play_cons_of_ok hone']
            refine ⟨hrest.1, hrest.2.1, ?_⟩
            rw [hrest.2.2]
            simp only [Exchange.uncounted, Outcome.seen, hmid]

/-! ## Failed submissions are invisible -/

/-- A submission that fails reads and writes no register.  It changes at most counters: the
rejections by one, with no pin call, or the rollbacks by one and the calls on the region table by
two pin calls and one release for each page that was pinned.  And from any engine, a history (it is
carried out up to the first call that faults) with every failed submission left out ends the same
way, and each of its calls has the outcome that it has in the whole history, up to those
counters. -/
theorem failed_submissions_invisible [Registers R] :
    (∀ (request : Request) (engine engine' : Engine RegionTable R) (failure : Failure)
        (events : List Event),
      submit request engine = ⟨.ok (.error failure), engine', events⟩ →
        events.filter Event.isAccess = [] ∧ Refused request engine events failure engine') ∧
    (∀ (calls : List (Call R)) (engine : Engine RegionTable R),
      (play calls engine).events.map (·.call) <+: calls ∧
      let kept := (play calls engine).events.filter (!·.failed)
      let played := play (kept.map (·.call)) engine
      played.result = (play calls engine).result ∧
        played.state.uncounted = (play calls engine).state.uncounted ∧
        played.events.map Exchange.uncounted = kept.map Exchange.uncounted) := by
  constructor
  · intro request engine engine' failure events h
    have hrefused := refused_of_submit h
    exact ⟨hrefused.filter_isAccess, hrefused⟩
  · intro calls engine
    exact ⟨calls_of_play calls engine, play_filter_failed calls rfl⟩

/-- The two failures of the small history, one of each kind, and the history without them. -/
theorem failed_submissions_invisible_smallHistory :
    (submit { source := 0x12000, dest := 0x10000, length := 0x40, opcode := 9, attr := 0 }
        smallEngine).events.filter Event.isAccess = [] ∧
      (submit { source := 0x12000, dest := 0x20000, length := 0x40, opcode := 0, attr := 0 }
        smallEngine).events.filter Event.isAccess = [] ∧
      (play (((play smallHistory smallEngine).events.filter (!·.failed)).map (·.call))
        smallEngine).state.uncounted = (play smallHistory smallEngine).state.uncounted := by
  obtain ⟨hsubmit, hplay⟩ := failed_submissions_invisible (R := FifoPair)
  have hrejected := hsubmit
    { source := 0x12000, dest := 0x10000, length := 0x40, opcode := 9, attr := 0 }
    smallEngine _ (.invalidArgument (.unknownOpcode 9)) _ rfl
  have hrolledBack := hsubmit
    { source := 0x12000, dest := 0x20000, length := 0x40, opcode := 0, attr := 0 }
    smallEngine _ (.resourceExhausted 2 1) _ rfl
  exact ⟨hrejected.1, hrolledBack.1, (hplay smallHistory smallEngine).2.2.1⟩

end Engine

end DmaQueue
