/-
  DmaQueue.Proofs.Issue.Backpressure

  The register accesses of a call that runs the issue loop.  Each turn that goes
  on is one `Beat`: it reads both depths and hands one descriptor to a side that
  was not full.  The last turn reads both depths and writes nothing, because
  nothing is pending or the FIFO needed next is full.

  Over FIFOs that are full at the depth of the parameters this is enough: no
  descriptor is ever handed to a full FIFO.
-/
import DmaQueue.Proofs.Issue.Fifos

namespace DmaQueue

/-! ## Beats -/

/-- The depths that a turn reads, and the descriptor that it then hands to a side. -/
structure Beat where
  depths : Depths
  side : Side
  descriptor : Descriptor

/-- The register accesses of a beat. -/
def Beat.accesses (beat : Beat) : List Event :=
  beat.depths.reads ++
    [.stored beat.side.lowOffset beat.descriptor.low,
      .stored beat.side.highOffset beat.descriptor.high]

namespace Engine

variable {P R : Type}

/-- At these depths nothing more can be written: nothing is pending, or the FIFO of the chunk that
the oldest pending transfer has next reads full. -/
def HeldUp (engine : Engine P R) (depths : Depths) : Prop :=
  engine.pending = [] ∨ ∃ t rest side index, engine.pending = t :: rest ∧
    t.progress.target? = some (side, index) ∧ depths.of side = engine.config.fifoFull

/-- The register accesses of a call that ended in this state: any number of beats, each handing a
descriptor to a side that did not read full, and then a sample that holds the engine up. -/
def Paced (engine : Engine P R) (accesses : List Event) : Prop :=
  ∃ (beats : List Beat) (last : Depths),
    accesses = beats.flatMap Beat.accesses ++ last.reads ∧
    (∀ beat ∈ beats, beat.depths.of beat.side ≠ engine.config.fifoFull) ∧ engine.HeldUp last

/-! ## Turns -/

theorem Reclaims.filter_isAccess [Pinner P] {depths : Depths} {engine engine' : Engine P R}
    {events : List Event} (h : Reclaims depths engine engine' events) :
    events.filter Event.isAccess = [] := by
  rw [← List.filterMap_eq_filter]
  exact h.filterMap_eq_nil fun _ _ => rfl

variable [Pinner P] [Registers R] {engine engine' : Engine P R} {events : List Event}
  {accepted reclaimed : List Transfer}

theorem turn_accesses {pause? : Option Pause} (h : turn engine = ⟨.ok pause?, engine', events⟩) :
    ∃ depths registers mid freed written,
      Reclaims depths { engine with registers } mid freed ∧
      Serves depths mid pause? engine' written ∧
      events.filter Event.isAccess = depths.reads ++ written := by
  obtain ⟨depths, registers, _, mid, freed, written, -, hreclaim, hserve, hdeeds⟩ := turn_eq_ok h
  refine ⟨depths, registers, mid, freed, written, hreclaim, hserve, ?_⟩
  have hwritten : written.filter Event.isAccess = written := by cases hserve <;> rfl
  rw [← Event.filter_isAccess_deeds, hdeeds, List.filter_append, List.filter_append,
    hreclaim.filter_isAccess, hwritten, List.append_nil]
  rfl

/-- A turn that goes on is a beat. -/
theorem beat_of_turn (hbooks : Books accepted reclaimed engine)
    (h : turn engine = ⟨.ok none, engine', events⟩) :
    ∃ beat : Beat, events.filter Event.isAccess = beat.accesses ∧
      beat.depths.of beat.side ≠ engine.config.fifoFull := by
  obtain ⟨depths, registers, mid, _, _, hreclaim, hserve, haccesses⟩ := turn_accesses h
  have hconfig : mid.config = engine.config := hreclaim.config_eq
  cases hserve with
  | @sent t rest side index d _ _ _ _ hroom =>
    exact ⟨⟨depths, side, d⟩, haccesses, hconfig ▸ hroom⟩
  | complete hq htarget =>
    have hread : Books accepted reclaimed { engine with registers } := hbooks.of_queues_eq rfl rfl
    exact absurd htarget ((hread.reclaims hreclaim).turn.target?_ne_none hq)

/-- A turn that ends the loop reads both depths and writes nothing, and has a reason to end it. -/
theorem last_of_turn {pause : Pause} (h : turn engine = ⟨.ok (some pause), engine', events⟩) :
    ∃ last : Depths, events.filter Event.isAccess = last.reads ∧ engine'.HeldUp last := by
  obtain ⟨depths, _, _, _, _, -, hserve, haccesses⟩ := turn_accesses h
  cases hserve with
  | drained hq => exact ⟨depths, haccesses, .inl hq⟩
  | @stalled t rest side index hq htarget hfull =>
    exact ⟨depths, haccesses, .inr ⟨t, rest, side, index, hq, htarget, hfull⟩⟩

/-! ## The loop -/

/-- The loop has gone on so far, over the record `past`: the queues are in order, and the register
accesses are those of beats. -/
structure Beating (config : Config) (engine : Engine P R) (past : List Event) : Prop where
  config_eq : engine.config = config
  sound : config.Sound
  books : ∃ accepted reclaimed, Books accepted reclaimed engine
  beats : ∃ beats : List Beat, past.filter Event.isAccess = beats.flatMap Beat.accesses ∧
    ∀ beat ∈ beats, beat.depths.of beat.side ≠ config.fifoFull

variable {config : Config} {past : List Event}

theorem Beating.goes (h : Beating config engine past)
    (hone : turn engine = ⟨.ok none, engine', events⟩) :
    Beating config engine' (past ++ events) := by
  obtain ⟨accepted, reclaimed, hbooks⟩ := h.books
  obtain ⟨beats, hpast, hroom⟩ := h.beats
  obtain ⟨beat, haccesses, hbeat⟩ := beat_of_turn hbooks hone
  obtain ⟨freed, hmove⟩ : ∃ freed, Move (fun _ => True) engine [] freed _ engine' :=
    move_of_turn hone
  have hsound : engine.config.Sound := h.config_eq ▸ h.sound
  constructor
  case config_eq => rw [(Moves.single hmove).config_eq, h.config_eq]
  case sound => exact h.sound
  case books => exact ⟨_, _, hbooks.move hsound hmove⟩
  case beats =>
    refine ⟨beats ++ [beat], ?_, ?_⟩
    · rw [List.filter_append, hpast, haccesses, List.flatMap_append, List.flatMap_singleton]
    · intro b hb
      rcases List.mem_append.1 hb with hb | hb
      · exact hroom b hb
      · rw [List.mem_singleton.1 hb, ← h.config_eq]
        exact hbeat

theorem Beating.ends {pause : Pause} (h : Beating config engine past)
    (hone : turn engine = ⟨.ok (some pause), engine', events⟩) :
    engine'.Paced ((past ++ events).filter Event.isAccess) := by
  obtain ⟨beats, hpast, hroom⟩ := h.beats
  obtain ⟨last, haccesses, hheldUp⟩ := last_of_turn hone
  obtain ⟨freed, hmove⟩ : ∃ freed, Move (fun _ => True) engine [] freed _ engine' :=
    move_of_turn hone
  refine ⟨beats, last, ?_, ?_, hheldUp⟩
  · rw [List.filter_append, hpast, haccesses]
  · rw [(Moves.single hmove).config_eq, h.config_eq]
    exact hroom

theorem paced_of_run {final : Engine P R} {pause : Pause} (hbooks : Books accepted reclaimed engine)
    (hsound : engine.config.Sound) (h : run engine = ⟨.ok pause, final, events⟩) :
    final.Paced (events.filter Event.isAccess) := by
  have hstart : Beating engine.config engine [] := ⟨rfl, hsound, ⟨_, _, hbooks⟩, [], rfl, by simp⟩
  exact run_rec (J := fun _ e past => e.Paced (past.filter Event.isAccess)) Beating.goes
    Beating.ends [] hstart h

/-! ## Calls -/

/-- Whether the call ran the issue loop: a poll, or a submission that was accepted. -/
def Answer.drives : Answer → Bool
  | .polled _ => true
  | .submitted (.ok ()) => true
  | _ => false

theorem paced_of_act {call : Call R} {answer : Answer} (hbooks : Books accepted reclaimed engine)
    (hsound : engine.config.Sound) (h : call.act engine = ⟨.ok answer, engine', events⟩)
    (hdrives : answer.drives = true) : engine'.Paced (events.filter Event.isAccess) := by
  cases call with
  | submit request =>
    obtain ⟨result, hsubmit, rfl⟩ := act_submit_eq_ok h
    have hcases := submit_eq_ok hsubmit
    rw [← Event.filter_isAccess_deeds]
    generalize Event.deeds events = deeds at hcases ⊢
    cases hcases with
    | rejected | rolledBack => simp [Answer.drives] at hdrives
    | queued hadmitted hpins hwhole hrun =>
      -- The pin calls access no register; the loop begins with the transfer in the queue.
      have hmove : Move (fun _ => True) engine _ _ _ _ := .queued hadmitted hpins hwhole
      have hqueued := hbooks.move hsound hmove
      rw [List.filter_append, Event.filter_isAccess_deeds]
      exact paced_of_run hqueued hsound hrun
  | poll =>
    obtain ⟨pause, hrun, -⟩ := act_poll_eq_ok h
    exact paced_of_run hbooks hsound hrun
  | hardware change =>
    obtain ⟨-, rfl, -⟩ := act_hardware_eq_ok h
    simp [Answer.drives] at hdrives

/-- Every call of a history that runs the issue loop and answers is paced. -/
theorem paced_of_mem_play {pinner : P} {registers : R} {notes : List Note} {start : Engine P R}
    {calls : List (Call R)} {x : Exchange P R} {answer : Answer}
    (hcreate : create config pinner registers = (notes, .ok start))
    (hx : x ∈ (play calls start).events) (hanswer : x.outcome.result = .ok answer)
    (hdrives : answer.drives = true) :
    x.outcome.state.config = config ∧
      x.outcome.state.Paced (x.outcome.events.filter Event.isAccess) := by
  obtain ⟨hflaw, -, rfl⟩ := create_eq_ok hcreate
  have hconfig := Config.sound_of_flaw? hflaw
  obtain ⟨_, _, _, mid, hmoves, houtcome⟩ := exists_moves_of_mem_play hx
  have hbooks := books_of_moves hmoves hconfig rfl rfl
  have hmid : mid.config = config := hmoves.config_eq
  have hact := houtcome.symm.trans (Outcome.eq_of_result hanswer)
  obtain ⟨⟨_, hcall⟩, -⟩ := moves_of_act (fun _ _ => trivial) hact
  exact ⟨hcall.config_eq.trans hmid, paced_of_act hbooks (hmid ▸ hconfig) hact hdrives⟩

/-- Whatever the control block reports, each poll and each accepted submission that answers is
paced: before each descriptor it reads both depths anew, and it hands the descriptor, low half
first, to a side that did not read full; then it reads both depths once more and ends, because
nothing is pending or the side needed next read full.  Over FIFOs that are full at the depth of the
parameters, the depths are then the numbers of descriptors that wait, and no descriptor ever found
its FIFO full, whatever the device side does between and inside the calls, and also where a call
faults. -/
theorem backpressure_of_play {P : Type} [Pinner P] {config : Config} {pinner : P} :
    (∀ {R : Type} [Registers R] {registers : R} {notes : List Note} {start : Engine P R}
      {calls : List (Call R)}, create config pinner registers = (notes, .ok start) →
      ∀ x ∈ (play calls start).events, ∀ answer, x.outcome.result = .ok answer →
        answer.drives = true → x.outcome.state.config = config ∧
          x.outcome.state.Paced (x.outcome.events.filter Event.isAccess)) ∧
    (∀ {fifos : DescriptorFifos} {notes : List Note} {start : Engine P DescriptorFifos}
      {calls : List (Call DescriptorFifos)}, create config pinner fifos = (notes, .ok start) →
      fifos.Fit config → (∀ change, .hardware change ∈ calls → DescriptorFifos.Ticking change) →
      (play calls start).state.registers.Exact) := by
  constructor
  · intro R _ registers notes start calls hcreate x hx answer hanswer hdrives
    exact paced_of_mem_play hcreate hx hanswer hdrives
  · intro fifos notes start calls hcreate hfit hdevice
    obtain ⟨-, -, rfl⟩ := create_eq_ok hcreate
    exact exact_of_play hfit hdevice

/-- The submission with which the busy history begins is paced, and at its end no descriptor is
lost. -/
theorem backpressure_of_busyHistory :
    (∃ x ∈ (play busyHistory busyEngine).events,
      x.outcome.result = .ok (.submitted (.ok ())) ∧ x.outcome.state.config = busyEngine.config ∧
        x.outcome.state.Paced (x.outcome.events.filter Event.isAccess)) ∧
    (play busyHistory busyEngine).state.registers.Exact := by
  have hx := mem_play_cons (busyHistory.head (List.cons_ne_nil _ _)) busyHistory.tail busyEngine
  have hanswer : ((busyHistory.head (List.cons_ne_nil _ _)).act busyEngine).result =
      .ok (.submitted (.ok ())) := by
    decide +kernel
  constructor
  · obtain ⟨hconfig, hpaced⟩ := backpressure_of_play.1 create_busyEngine _ hx _ hanswer rfl
    exact ⟨_, hx, hanswer, hconfig, hpaced⟩
  · exact backpressure_of_play.2 create_busyEngine fit_busyEngine ticking_busyHistory

end Engine

end DmaQueue
