/-
  DmaQueue.Proofs.Issue.Drained

  Why an empty destination FIFO lets the engine give pages back.  The depth is a
  level and speaks of no transfer, but it is read before the turn writes, and
  the transfers in flight are written to the end.  So when it reads empty, the
  device side has taken out every destination descriptor of theirs
  (`taken_of_drained`), and what still waits belongs to live transfers.
-/
import DmaQueue.Proofs.Engine.Ledger
import DmaQueue.Proofs.Issue.Fifos

namespace DmaQueue.Engine

open DescriptorFifos (Drifts Fills Fit Ticking)

variable {P : Type} {start engine engine' : Engine P DescriptorFifos}
  {ts reclaimed : List Transfer} {events : List Event}

/-- The engine has nothing queued, and no descriptor has entered the destination FIFO. -/
structure Begins (engine : Engine P DescriptorFifos) : Prop where
  sound : engine.config.Sound
  fit : engine.registers.Fit engine.config
  pending : engine.pending = []
  inFlight : engine.inFlight = []
  arrived : engine.registers.dest.arrived = []

variable [Pinner P]

/-! ## What entered the destination FIFO -/

/-- What entered the destination FIFO is what was pushed there, and that is what the transfers have
written of their destination side. -/
theorem arrived_of_moves (hmoves : Moves Ticking start ts reclaimed events engine)
    (hbegins : start.Begins) :
    ∃ pushed, Event.writes events = pushed.flatMap halves ∧
      Fills start.registers engine.registers pushed ∧
      engine.registers.dest.arrived = Side.dest.part pushed ∧
      engine.registers.dest.arrived.map Except.ok =
        (reclaimed ++ engine.inFlight ++ engine.pending).flatMap
          (·.issued engine.config.pageSize .dest) := by
  obtain ⟨pushed, hissued, hwrites⟩ :=
    issued_of_moves hmoves hbegins.sound hbegins.pending hbegins.inFlight
  obtain ⟨entered, hentered, hfills⟩ := fills_of_moves hmoves hbegins.fit
  -- The same register writes, so the same descriptors.
  obtain rfl := flatMap_halves_injective (hentered.symm.trans hwrites)
  have harrived : engine.registers.dest.arrived = Side.dest.part entered := by
    have hdest : engine.registers.dest.arrived =
        start.registers.dest.arrived ++ Side.dest.part entered := hfills.arrived .dest
    rw [hdest, hbegins.arrived, List.nil_append]
  have hbooks := books_of_moves hmoves hbegins.sound hbegins.pending hbegins.inFlight
  exact ⟨entered, hwrites, hfills, harrived, harrived ▸ hissued.part hbooks .dest⟩

/-- When the destination FIFO reads empty, every destination descriptor that was written by then was
taken out. -/
theorem taken_of_drained {depths : Depths} {registers : DescriptorFifos} {seen : List Event}
    (hmoves : Moves Ticking start ts reclaimed events engine) (hbegins : start.Begins)
    (hsample : Registers.sample engine.registers = ⟨.ok depths, registers, seen⟩)
    (hdrained : depths.dest = 0) :
    registers.dest.taken.map Except.ok =
      (reclaimed ++ engine.inFlight ++ engine.pending).flatMap
        (·.issued engine.config.pageSize .dest) := by
  obtain ⟨_, -, hfills, -, harrived⟩ := arrived_of_moves hmoves hbegins
  have hfit : engine.registers.Fit engine.config :=
    hmoves.config_eq ▸ hbegins.fit.fills hfills
  obtain ⟨hdrifts, hsampled⟩ := hfit.sample hsample
  have hkept : registers.dest.arrived = engine.registers.dest.arrived := hdrifts.arrived .dest
  rw [hsampled.taken_eq (hmoves.config_eq ▸ hbegins.sound) hdrained, hkept, harrived]

/-! ## What was reclaimed was taken out -/

/-- The device side has taken out at least as many destination descriptors as the reclaimed
transfers have. -/
theorem length_issued_le_of_moves (hmoves : Moves Ticking start ts reclaimed events engine)
    (hbegins : start.Begins) :
    (reclaimed.flatMap (·.issued start.config.pageSize .dest)).length ≤
      engine.registers.dest.taken.length := by
  induction hmoves with
  | refl => exact Nat.zero_le _
  | step hmoves hmove ih =>
    rename_i reclaimed freed _ _ mid final
    obtain ⟨_, -, hfills, -, -⟩ := arrived_of_moves hmoves hbegins
    have hfit : mid.registers.Fit mid.config := hmoves.config_eq ▸ hbegins.fit.fills hfills
    obtain ⟨_, -, hmoved⟩ := hmove.fills hfit
    have hkept : freed = [] →
        ((reclaimed ++ freed).flatMap (·.issued start.config.pageSize .dest)).length ≤
          final.registers.dest.taken.length := by
      intro hnone
      rw [hnone, List.append_nil]
      exact Nat.le_trans ih (hmoved.taken_le .dest)
    cases hmove with
    | hardware | rejected | rolledBack | queued => exact hkept rfl
    | @turned _ _ depths registers _ _ _ _ hsample hreclaim hserve =>
      by_cases hdrained : depths.dest = 0
      · obtain ⟨-, -, _, -, hwritten⟩ := fills_of_turned hfit hsample hreclaim hserve
        have hgrown : registers.dest.taken.length ≤ final.registers.dest.taken.length :=
          hwritten.taken_le .dest
        -- The sample comes before the write, so all that was in flight was taken out by then.
        have htaken := congrArg List.length (taken_of_drained hmoves hbegins hsample hdrained)
        rw [List.length_map, hmoves.config_eq, List.flatMap_append, List.length_append] at htaken
        rw [returned, if_pos hdrained]
        omega
      · exact hkept (if_neg hdrained)

/-! ## What still waits -/

/-- Let nothing have entered the destination FIFO before the engine was created.  After any calls,
with the device side taking descriptors out, draining both FIFOs, or making one report that it is
full, between and inside the calls, the transfers that left the engine are `reclaimed`, and the
register writes are those of the descriptors `pushed`.  Then the destination depth is the number of
destination descriptors pushed and not yet taken out.  Every destination descriptor of the reclaimed
transfers was taken out, and all that wait belong to live transfers, whose pages were answered more
often than they were released.

The agenda of the FIFOs is arbitrary.  Where none of it is left, nothing is taken out during a call,
so the destination descriptors of what a call reclaims were taken out before the call. -/
theorem waiting_of_play {config : Config} {pinner : P} {fifos : DescriptorFifos}
    {notes : List Note} {start final : Engine P DescriptorFifos}
    {calls : List (Call DescriptorFifos)} {log : List (Exchange P DescriptorFifos)}
    (hcreate : create config pinner fifos = (notes, .ok start)) (hfit : fifos.Fit config)
    (hempty : fifos.dest.arrived = [])
    (hdevice : ∀ change, .hardware change ∈ calls → Ticking change)
    (hplay : play calls start = ⟨.ok (), final, log⟩) :
    ∃ (reclaimed : List Transfer) (pushed : List (Side × Descriptor)),
      queuedTransfers config log =
        (reclaimed ++ final.inFlight ++ final.pending).map Transfer.fresh ∧
      (∀ t ∈ reclaimed, t.progress = .sent) ∧
      Event.writes (record log) = pushed.flatMap halves ∧
      final.registers.dest.taken ++ final.registers.dest.waiting = Side.dest.part pushed ∧
      final.registers.gauges.dest.depth.toNat + final.registers.dest.taken.length =
        (Side.dest.part pushed).length ∧
      reclaimed.flatMap (·.issued config.pageSize .dest) <+:
        final.registers.dest.taken.map Except.ok ∧
      final.registers.dest.waiting.map Except.ok <:+
        (final.inFlight ++ final.pending).flatMap (·.issued config.pageSize .dest) ∧
      ∀ t ∈ final.live, ∀ page ∈ t.handles,
        (Event.releases (record log)).count page <
          (Event.grants (record log)).flatten.count page := by
  obtain ⟨hflaw, -, rfl⟩ := create_eq_ok hcreate
  have hbegins : Begins ({ config, pinner, registers := fifos } : Engine P DescriptorFifos) :=
    ⟨Config.sound_of_flaw? hflaw, hfit, rfl, rfl, hempty⟩
  obtain ⟨⟨reclaimed, hmoves⟩, -⟩ := moves_within_of_play hdevice hplay
  have hbooks := books_of_moves hmoves hbegins.sound rfl rfl
  obtain ⟨pushed, hwrites, hfills, harrived, hissued⟩ := arrived_of_moves hmoves hbegins
  have hconfig : final.config = config := hmoves.config_eq
  rw [hconfig, List.append_assoc, List.flatMap_append, Intake.arrived, List.map_append] at hissued
  -- Both are first parts of all that entered, and the reclaimed part is not the longer one.
  obtain ⟨rest, htaken⟩ : reclaimed.flatMap (·.issued config.pageSize .dest) <+:
      final.registers.dest.taken.map Except.ok := by
    refine List.prefix_of_prefix_length_le (List.prefix_append _ _) ⟨_, hissued⟩ ?_
    rw [List.length_map]
    exact length_issued_le_of_moves hmoves hbegins
  rw [← htaken, List.append_assoc, List.append_cancel_left_eq] at hissued
  refine ⟨reclaimed, pushed, hbooks.order, fun t ht => (hbooks.left t ht).2, ?_, harrived, ?_,
    ⟨rest, htaken⟩, ⟨rest, hissued⟩, ?_⟩
  · rw [← Event.writes_deeds, hwrites]
  · have hdepth : final.registers.gauges.dest.depth.toNat = final.registers.dest.waiting.length :=
      (hfills.exact .dest).depth
    rw [← harrived, hdepth, Intake.arrived, List.length_append]
    omega
  · intro t ht page hpage
    have hlt := (ledger_of_moves hmoves rfl rfl).released_lt ht hpage
    rwa [Event.releases_deeds, Event.grants_deeds] at hlt

/-- At the end of the busy history the first transfer is reclaimed, and a descriptor of the second
one waits. -/
theorem waiting_of_busyHistory :
    let final := (play busyHistory busyEngine).state
    ∃ reclaimed : List Transfer, reclaimed.length = 1 ∧
      final.registers.dest.waiting.length = 1 ∧
      reclaimed.flatMap (·.issued busyEngine.config.pageSize .dest) <+:
        final.registers.dest.taken.map Except.ok ∧
      final.registers.dest.waiting.map Except.ok <:+
        (final.inFlight ++ final.pending).flatMap (·.issued busyEngine.config.pageSize .dest) := by
  obtain ⟨reclaimed, _, horder, -, -, -, -, htaken, hwaiting, -⟩ :=
    waiting_of_play create_busyEngine fit_busyEngine rfl ticking_busyHistory play_busyHistory
  have hqueued :
      (queuedTransfers busyEngine.config (play busyHistory busyEngine).events).length = 2 := by
    decide +kernel
  have hlive : (play busyHistory busyEngine).state.live.length = 1 := by decide +kernel
  refine ⟨reclaimed, ?_, by decide +kernel, htaken, hwaiting⟩
  rw [horder, List.length_map, List.length_append, List.length_append] at hqueued
  rw [live, List.length_append] at hlive
  omega

end DmaQueue.Engine
