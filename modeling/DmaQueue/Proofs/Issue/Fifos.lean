/-
  DmaQueue.Proofs.Issue.Fifos

  An engine over the FIFOs of the accelerator.  A side that does not read full
  has room for the descriptor that the turn may hand to it, so no descriptor is
  ever lost (`exact_of_play`), and what entered the FIFOs are the descriptors of
  the register writes (`fills_of_moves`).
-/
import DmaQueue.Proofs.Engine.Keeps
import DmaQueue.Proofs.Issue.Streams

namespace DmaQueue

namespace DescriptorFifos

/-- What the device side of the FIFOs may do between two calls. -/
def Ticking (change : DescriptorFifos → DescriptorFifos) : Prop :=
  ∃ tick : Tick, change = tick.apply

/-- The FIFOs are exact, and they are full at the depth that the parameters say. -/
structure Fit (config : Config) (fifos : DescriptorFifos) : Prop where
  exact : fifos.Exact
  capacity : fifos.gauges.capacity = config.fifoFull

/-- These depths were read: a side that did not read full has room, and no more descriptors wait in
it than it read. -/
structure Sampled (depths : Depths) (config : Config) (fifos : DescriptorFifos) : Prop
    extends Fit config fifos where
  room : ∀ side, depths.of side ≠ config.fifoFull →
    (fifos.intake side).waiting.length ≤ (depths.of side).toNat ∧
      (depths.of side).toNat < config.fifoFull.toNat

variable {config : Config} {fifos fifos' : DescriptorFifos} {depths : Depths} {side : Side}
  {d : Descriptor} {pushed : List (Side × Descriptor)} {events : List Event}

theorem Fit.drifts (h : fifos.Fit config) (hdrifts : Drifts fifos fifos') : fifos'.Fit config :=
  ⟨hdrifts.exact h.exact, hdrifts.capacity.trans h.capacity⟩

theorem Fit.fills (h : fifos.Fit config) (hfills : Fills fifos fifos' pushed) : fifos'.Fit config :=
  ⟨hfills.exact, hfills.capacity.trans h.capacity⟩

theorem Fit.sample (h : fifos.Fit config)
    (hsample : Registers.sample fifos = ⟨.ok depths, fifos', events⟩) :
    Drifts fifos fifos' ∧ fifos'.Sampled depths config := by
  obtain ⟨hdrifts, hroom⟩ := room_of_sample hsample h.exact
  rw [h.capacity] at hroom
  exact ⟨hdrifts, { h.drifts hdrifts with room := hroom }⟩

theorem Sampled.push (h : fifos.Sampled depths config) (hside : depths.of side ≠ config.fifoFull)
    (hpush : Registers.push side d fifos = ⟨.ok (), fifos', events⟩) :
    Fills fifos fifos' [(side, d)] := by
  obtain ⟨hwaiting, hdepth⟩ := h.room side hside
  rw [← h.capacity] at hdepth
  exact fills_of_push hpush h.exact (Nat.lt_of_le_of_lt hwaiting hdepth)

/-- An empty destination FIFO reads empty: then every descriptor that entered it was taken out. -/
theorem Sampled.taken_eq (h : fifos.Sampled depths config) (hconfig : config.Sound)
    (hdrained : depths.dest = 0) : fifos.dest.taken = fifos.dest.arrived := by
  have hnotFull : depths.of .dest ≠ config.fifoFull := by
    rw [show depths.of .dest = 0 from hdrained]
    exact fun hfull => hconfig.fifoFull hfull.symm
  have hwaiting : fifos.dest.waiting.length ≤ depths.dest.toNat := (h.room .dest hnotFull).1
  rw [hdrained] at hwaiting
  rw [Intake.arrived, List.length_eq_zero_iff.1 (Nat.le_zero.1 hwaiting), List.append_nil]

end DescriptorFifos

namespace Engine

open Act (Keeps Leads)
open DescriptorFifos (Drifts Fills Fit Sampled Ticking)

variable {P : Type} {engine engine' : Engine P DescriptorFifos} {depths : Depths}
  {events : List Event}

/-! ## What enters the FIFOs -/

theorem registers_headWritten {R : Type} (t : Transfer) (rest : List Transfer)
    (engine : Engine P R) : (headWritten t rest engine).registers = engine.registers := by
  unfold headWritten
  split <;> rfl

theorem Reclaims.registers_eq {R : Type} [Pinner P] {engine engine' : Engine P R}
    (h : Reclaims depths engine engine' events) : engine'.registers = engine.registers := by
  cases h <;> rfl

/-- The descriptor that a service writes enters its FIFO. -/
theorem Serves.fills {pause? : Option Pause} (h : Serves depths engine pause? engine' events)
    (hsampled : engine.registers.Sampled depths engine.config) :
    ∃ more, Event.writes events = more.flatMap halves ∧
      Fills engine.registers engine'.registers more := by
  cases h with
  | drained | stalled | complete =>
    exact ⟨[], rfl, (Drifts.refl engine.registers).fills hsampled.exact⟩
  | @sent t rest side index d registers _ _ _ hroom _ hpush =>
    refine ⟨[(side, d)], rfl, ?_⟩
    rw [registers_headWritten]
    exact hsampled.push hroom hpush

variable [Pinner P]

/-- While a turn reads the depths descriptors may be taken out; then it hands over at most one. -/
theorem fills_of_turned {mid : Engine P DescriptorFifos} {registers : DescriptorFifos}
    {seen freed written : List Event} {pause? : Option Pause}
    (hfit : engine.registers.Fit engine.config)
    (hsample : Registers.sample engine.registers = ⟨.ok depths, registers, seen⟩)
    (hreclaim : Reclaims depths { engine with registers } mid freed)
    (hserve : Serves depths mid pause? engine' written) :
    Drifts engine.registers registers ∧ registers.Sampled depths engine.config ∧
      ∃ more, Event.writes written = more.flatMap halves ∧
        Fills registers engine'.registers more := by
  obtain ⟨hdrifts, hsampled⟩ := hfit.sample hsample
  have hregisters : mid.registers = registers := hreclaim.registers_eq
  have hconfig : mid.config = engine.config := hreclaim.config_eq
  have hmid : mid.registers.Sampled depths mid.config := by
    rw [hregisters, hconfig]
    exact hsampled
  exact ⟨hdrifts, hsampled, hregisters ▸ hserve.fills hmid⟩

/-- What a move writes enters the FIFOs. -/
theorem Move.fills {queued freed : List Transfer}
    (h : Move Ticking engine queued freed events engine')
    (hfit : engine.registers.Fit engine.config) :
    ∃ more, Event.writes events = more.flatMap halves ∧
      Fills engine.registers engine'.registers more := by
  cases h with
  | turned hsample hreclaim hserve =>
    obtain ⟨hdrifts, -, more, hmore, hfills⟩ := fills_of_turned hfit hsample hreclaim hserve
    refine ⟨more, ?_, (hdrifts.fills hfit.exact).trans hfills⟩
    rw [Event.writes_append, Event.writes_append, hreclaim.writes_eq, hmore]
    rfl
  | hardware hchange =>
    obtain ⟨tick, rfl⟩ := hchange
    exact ⟨[], rfl, (DescriptorFifos.drifts_apply tick engine.registers).fills hfit.exact⟩
  | rejected | queued => exact ⟨[], rfl, (Drifts.refl _).fills hfit.exact⟩
  | rolledBack =>
    refine ⟨[], ?_, (Drifts.refl _).fills hfit.exact⟩
    rw [Event.writes_append, Event.writes_unpinned]
    rfl

theorem fills_of_moves {start : Engine P DescriptorFifos} {ts reclaimed : List Transfer}
    (hmoves : Moves Ticking start ts reclaimed events engine)
    (hfit : start.registers.Fit start.config) :
    ∃ pushed, Event.writes events = pushed.flatMap halves ∧
      Fills start.registers engine.registers pushed := by
  induction hmoves with
  | refl => exact ⟨[], rfl, (Drifts.refl _).fills hfit.exact⟩
  | step hmoves hmove ih =>
    obtain ⟨pushed, hpushed, hfills⟩ := ih
    obtain ⟨more, hmore, hlater⟩ := hmove.fills (hmoves.config_eq ▸ hfit.fills hfills)
    refine ⟨pushed ++ more, ?_, hfills.trans hlater⟩
    rw [Event.writes_append, hpushed, hmore, List.flatMap_append]

/-! ## No descriptor is lost -/

/-- Once the depths were read, whatever the issuer writes leaves the FIFOs exact. -/
theorem leads_step (config : Config) (depths : Depths) :
    Leads (fun issuer => issuer.registers.Sampled depths config)
      (fun issuer => issuer.registers.Fit config)
      (Issuer.step config depths : Act Event (Issuer DescriptorFifos) Report) := by
  intro issuer hsampled
  have hfit : issuer.registers.Fit config := hsampled.toFit
  cases hstep : issuer.transfer.step config depths with
  | error fault =>
    rw [Issuer.step_of_error hstep]
    exact hfit
  | ok next =>
    cases next with
    | stalled side =>
      rw [Issuer.step_of_stalled hstep]
      exact hfit
    | complete =>
      rw [Issuer.step_of_complete hstep]
      exact hfit
    | send side d =>
      obtain ⟨_, -, hroom, -⟩ := Transfer.target_of_step_send hstep
      obtain ⟨registers, written, hpush⟩ := DescriptorFifos.push_ok side d issuer.registers
      rw [Issuer.step_of_send hstep hpush]
      exact hfit.fills (hsampled.push hroom hpush)

omit [Pinner P] in
/-- So does whatever is done for the head. -/
theorem leads_serveFirst (depths : Depths) (pending : List Transfer) :
    Leads (Holds (Sampled depths)) (Holds Fit)
      (serveFirst depths pending : Act Event (Engine P DescriptorFifos) (Option Pause)) := by
  intro engine hsampled
  cases pending with
  | nil => exact hsampled.toFit
  | cons t rest =>
    have hissue : Leads (fun entered => entered = engine) (Holds Fit)
        (onIssuer t rest (Issuer.step engine.config depths) : Act Event (Engine P _) Report) := by
      intro entered hentered
      rw [hentered]
      exact leads_step engine.config depths ⟨t, engine.registers⟩ hsampled
    exact Leads.bind hissue keeps_heed (fun _ h => h) engine rfl

/-- A turn keeps the FIFOs exact. -/
theorem keeps_turn :
    Keeps (Holds Fit) (turn : Act Event (Engine P DescriptorFifos) (Option Pause)) := by
  intro engine hfit
  obtain ⟨depths, registers, seen, hread⟩ := DescriptorFifos.sample_ok engine.registers
  obtain ⟨-, hsampled⟩ := Fit.sample hfit hread
  have hone : onRegisters Registers.sample engine =
      ⟨.ok depths, { engine with registers }, seen⟩ := Act.zoom_eq_ok_iff.2 ⟨_, hread, rfl⟩
  have hsample : sample engine = ⟨.ok depths, { engine with registers }, _⟩ :=
    Act.bind_ok hone rfl
  have hafter : Leads (Holds (Sampled depths)) (Holds Fit) (do
      reclaimIfDrained depths
      let engine ← Act.get
      serveFirst depths engine.pending : Act Event (Engine P DescriptorFifos) (Option Pause)) :=
    .bind (keeps_reclaimIfDrained depths)
      (fun _ => .get_bind fun engine h => leads_serveFirst depths engine.pending engine h)
      fun _ h => h.toFit
  change Holds Fit ((sample >>= _) engine).state
  rw [Act.bind_of_ok hsample]
  exact hafter _ hsampled

/-- The depths stay exact whatever the calls are and whatever the device side does, also where a
call faults.  So no descriptor is ever handed to a full FIFO. -/
theorem exact_of_play {start : Engine P DescriptorFifos} {calls : List (Call DescriptorFifos)}
    (hfit : start.registers.Fit start.config)
    (hdevice : ∀ change, .hardware change ∈ calls → Ticking change) :
    (play calls start).state.registers.Exact := by
  have hkeeps : Keeps (Holds Fit) (play calls : Act _ (Engine P DescriptorFifos) Unit) := by
    refine keeps_play keeps_turn fun change hmem config fifos h => ?_
    obtain ⟨tick, rfl⟩ := hdevice change hmem
    exact h.drifts (DescriptorFifos.drifts_apply tick fifos)
  have hfinal : Holds Fit (play calls start).state := hkeeps start hfit
  exact hfinal.exact

/-! ## A busy history

The engine of the small history over FIFOs whose device side takes descriptors out between the
accesses of a call, and makes the source FIFO report for a while that it is full. -/

def busyEngine : Engine RegionTable DescriptorFifos :=
  { config := { fifoFull := 2 }
    pinner := smallTable
    registers :=
      { gauges := { capacity := 2 }
        agenda := List.replicate 8 [] ++ [[.take .dest 1], [], [], [.take .source 1]] } }

def busyHistory : List (Call DescriptorFifos) :=
  [ .submit { source := 0x12040, dest := 0x10000, length := 0x2000, opcode := 1, attr := 5 },
    .hardware (Tick.force .source true).apply,
    .hardware Tick.drain.apply,
    .poll,
    .hardware (Tick.force .source false).apply,
    .hardware (Tick.take .dest 2).apply,
    .submit { source := 0x11000, dest := 0x10000, length := 0x3000, opcode := 0, attr := 0 } ]

theorem create_busyEngine :
    create busyEngine.config busyEngine.pinner busyEngine.registers = ([], .ok busyEngine) :=
  rfl

theorem fit_busyEngine : busyEngine.registers.Fit busyEngine.config := by
  constructor
  case exact =>
    intro side
    cases side <;> exact ⟨rfl, rfl, by decide, rfl⟩
  case capacity => rfl

theorem ticking_busyHistory : ∀ change, .hardware change ∈ busyHistory → Ticking change := by
  intro change hmem
  simp only [busyHistory, List.mem_cons, List.not_mem_nil, or_false, false_or, reduceCtorEq,
    Call.hardware.injEq] at hmem
  rcases hmem with rfl | rfl | rfl | rfl <;> exact ⟨_, rfl⟩

/-- Every call of the busy history answers. -/
theorem play_busyHistory :
    play busyHistory busyEngine =
      ⟨.ok (), (play busyHistory busyEngine).state, (play busyHistory busyEngine).events⟩ :=
  Outcome.eq_of_isOk (by decide +kernel)

end Engine

end DmaQueue
