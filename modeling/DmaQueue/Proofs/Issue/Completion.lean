/-
  DmaQueue.Proofs.Issue.Completion

  How soon the work is done if the device side drains both FIFOs before every
  poll.  A poll that finds both FIFOs empty gives back everything in flight and
  writes at least one descriptor if one is left.  So with `r` descriptors left
  `r` polls write them all, and one more gives the last pages back.
-/
import DmaQueue.Proofs.Engine.Ledger
import DmaQueue.Proofs.Engine.Termination
import DmaQueue.Proofs.Issue.Streams
import DmaQueue.Proofs.Register.FifoPair

namespace DmaQueue.Engine

open Transfer (InTurn unwritten)

variable {P : Type} [Pinner P]

/-! ## A turn that reads both FIFOs empty -/

section Turns

variable {R : Type} [Registers R] {engine next : Engine P R} {events : List Event}

omit [Pinner P] in
/-- The next sample of the depths, if it answers, reads both as zero. -/
def ReadsEmpty (engine : Engine P R) : Prop :=
  ∀ depths r seen, Registers.sample engine.registers = ⟨.ok depths, r, seen⟩ →
    ∀ side, depths.of side = 0

/-- A turn that reads both FIFOs empty goes on exactly if something is pending, and what it finds in
flight it reclaims. -/
theorem turn_of_empty {pause? : Option Pause} (h : engine.Orderly) (hempty : engine.ReadsEmpty)
    (hturn : turn engine = ⟨.ok pause?, next, events⟩) :
    (engine.pending = [] → pause? ≠ none ∧ next.pending = [] ∧ next.inFlight = []) ∧
      (engine.pending ≠ [] → pause? = none) := by
  obtain ⟨depths, registers, seen, mid, freed, written, hsample, hreclaim, hserve, -⟩ :=
    turn_eq_ok hturn
  have hzero := hempty _ _ _ hsample
  have hpending : mid.pending = engine.pending := hreclaim.pending_eq
  have hflight : mid.inFlight = [] := by
    cases hreclaim with
    | kept hbusy => exact absurd (hzero .dest) hbusy
    | freed => rfl
  have hconfig : mid.config = engine.config := hreclaim.config_eq
  cases hserve with
  | drained hq =>
    exact ⟨fun _ => ⟨nofun, hq, hflight⟩, fun hne => absurd (hpending ▸ hq) hne⟩
  | stalled hq htarget hfull =>
    -- A FIFO that reads empty is not full.
    rename_i side _
    rw [hzero side, hconfig] at hfull
    exact absurd hfull.symm h.sound.fifoFull
  | sent hq =>
    rw [← hpending, hq]
    exact ⟨nofun, fun _ => rfl⟩
  | complete hq htarget =>
    exact absurd htarget (h.inTurn.target?_ne_none (hpending.symm.trans hq))

/-- A run that begins with both FIFOs empty ends with nothing live if nothing was pending; else it
writes a descriptor. -/
theorem run_of_empty {pause : Pause} {final : Engine P R} (h : engine.Orderly)
    (hempty : engine.ReadsEmpty) (hrun : run engine = ⟨.ok pause, final, events⟩) :
    (engine.pending = [] → final.pending = [] ∧ final.inFlight = []) ∧
      (engine.pending ≠ [] → 0 < Event.descriptors events) := by
  rcases run_eq_ok hrun with hlast | ⟨next, first, rest, hfirst, -, rfl⟩
  · obtain ⟨hnone, hsome⟩ := turn_of_empty h hempty hlast
    exact ⟨fun hq => (hnone hq).2, fun hne => absurd (hsome hne) nofun⟩
  · obtain ⟨hnone, -⟩ := turn_of_empty h hempty hfirst
    obtain ⟨hwritten, -⟩ := unwritten_of_turn h.inTurn hfirst
    rw [if_pos rfl] at hwritten
    refine ⟨fun hq => absurd rfl (hnone hq).1, fun _ => ?_⟩
    rw [Event.descriptors_append]
    omega

end Turns

/-! ## Rounds -/

/-- Rounds in which the device side drains both FIFOs and the engine is polled. -/
def rounds : Nat → List (Call FifoPair)
  | 0 => []
  | n + 1 => .hardware FifoPair.drained :: .poll :: rounds n

theorem mem_rounds {n : Nat} {call : Call FifoPair} (h : call ∈ rounds n) :
    call = .hardware FifoPair.drained ∨ call = .poll := by
  induction n with
  | zero => simp [rounds] at h
  | succ n ih =>
    rcases List.mem_cons.1 h with rfl | h
    · exact .inl rfl
    rcases List.mem_cons.1 h with rfl | h
    · exact .inr rfl
    · exact ih h

variable {engine next final : Engine P FifoPair} {log : List (Exchange P FifoPair)} {n : Nat}

/-- Nothing is submitted in a round. -/
theorem queuedTransfers_rounds (config : Config)
    (hplay : play (rounds n) engine = ⟨.ok (), final, log⟩) : queuedTransfers config log = [] := by
  have hcalls := calls_of_play (rounds n) engine
  rw [hplay] at hcalls
  refine List.filterMap_eq_nil_iff.2 fun x hx => ?_
  have hcall : x.call ∈ rounds n := hcalls.subset (List.mem_map_of_mem hx)
  obtain ⟨call, outcome⟩ := x
  rcases mem_rounds hcall with rfl | rfl <;> rfl

/-- The engine is orderly, and its FIFOs report their own depths. -/
structure Steered (engine : Engine P FifoPair) : Prop extends engine.Orderly where
  plain : engine.registers.Plain

/-- Rounds keep the engine steered. -/
theorem Steered.rounds (h : engine.Steered)
    (hplay : play (rounds n) engine = ⟨.ok (), final, log⟩) : final.Steered := by
  obtain ⟨⟨_, hmoves⟩, -⟩ := moves_of_play hplay
  have hkeeps : Act.Keeps (Holds fun _ => FifoPair.Plain)
      (play (Engine.rounds n) : Act (Exchange P FifoPair) (Engine P FifoPair) Unit) := by
    apply keeps_play (keeps_turn_of_accesses FifoPair.keeps_load FifoPair.keeps_store)
    intro change hmem config fifos hplain
    obtain rfl := Call.hardware.inj ((mem_rounds hmem).resolve_right nofun)
    exact hplain.drained
  have hplain : Holds (fun _ => FifoPair.Plain) (play (Engine.rounds n) engine).state :=
    hkeeps engine h.plain
  rw [hplay] at hplain
  exact ⟨h.toOrderly.moves hmoves, hplain⟩

/-- A round is a run with both FIFOs drained. -/
theorem run_of_round (hplay : play (rounds 1) engine = ⟨.ok (), next, log⟩) :
    ∃ pause, run { engine with registers := engine.registers.drained } =
      ⟨.ok pause, next, record log⟩ := by
  obtain ⟨_, _, _, _, hdrain, hrest, rfl⟩ := Act.bind_eq_ok_iff.1 hplay
  obtain ⟨_, _, _, _, hpoll, hnone, rfl⟩ := Act.bind_eq_ok_iff.1 hrest
  obtain ⟨-, rfl, rfl⟩ := Act.pure_eq_ok_iff.1 hnone
  obtain ⟨_, _, hchange, rfl⟩ := perform_eq_ok hdrain
  obtain ⟨_, events, hact, rfl⟩ := perform_eq_ok hpoll
  have hpure := Act.modify_bind_eq_ok_iff.1 hchange
  obtain ⟨rfl, rfl, rfl⟩ := Act.pure_eq_ok_iff.1 hpure
  obtain ⟨pause, hrun, -⟩ := act_poll_eq_ok hact
  refine ⟨pause, ?_⟩
  rw [hrun]
  simp [record]

/-- A round writes some of the descriptors that are left.  If nothing is pending, nothing is live
after it. -/
theorem Steered.round (h : engine.Steered)
    (hplay : play (Engine.rounds 1) engine = ⟨.ok (), next, log⟩) :
    Event.descriptors (record log) + unwritten next.pending = unwritten engine.pending ∧
      (engine.pending = [] → next.pending = [] ∧ next.inFlight = []) ∧
      (engine.pending ≠ [] → 0 < Event.descriptors (record log)) := by
  obtain ⟨pause, hrun⟩ := run_of_round hplay
  have horderly := h.toOrderly.of_registers engine.registers.drained
  have hdrained : ReadsEmpty { engine with registers := engine.registers.drained } :=
    fun _ _ _ hsample => h.plain.sample_drained hsample
  have hless := unwritten_of_run horderly hrun
  have hempty := run_of_empty horderly hdrained hrun
  exact ⟨hless, hempty⟩

/-- Calls one after the other are two histories one after the other. -/
theorem play_append_eq_ok {R : Type} [Registers R] {calls more : List (Call R)}
    {engine final : Engine P R} {log : List (Exchange P R)}
    (h : play (calls ++ more) engine = ⟨.ok (), final, log⟩) :
    ∃ mid first later, play calls engine = ⟨.ok (), mid, first⟩ ∧
      play more mid = ⟨.ok (), final, later⟩ ∧ log = first ++ later := by
  induction calls generalizing engine log with
  | nil => exact ⟨engine, [], log, rfl, h, rfl⟩
  | cons call rest ih =>
    obtain ⟨_, _, first, _, hone, hrest, rfl⟩ := Act.bind_eq_ok_iff.1 h
    obtain ⟨mid, second, later, hsecond, hlater, rfl⟩ := ih hrest
    exact ⟨mid, first ++ second, later, Act.bind_ok hone hsecond, hlater,
      (List.append_assoc ..).symm⟩

/-- After more rounds than descriptors are left, nothing is live. -/
theorem Steered.empty_of_rounds (h : engine.Steered)
    (hleft : unwritten engine.pending < n ∨ engine.pending = [] ∧ engine.inFlight = [])
    (hplay : play (Engine.rounds n) engine = ⟨.ok (), final, log⟩) :
    final.pending = [] ∧ final.inFlight = [] := by
  induction n generalizing engine log with
  | zero =>
    obtain ⟨-, rfl, -⟩ := Act.pure_eq_ok_iff.1 hplay
    exact hleft.resolve_left (Nat.not_lt_zero _)
  | succ n ih =>
    have hsplit : play (Engine.rounds 1 ++ Engine.rounds n) engine = ⟨.ok (), final, log⟩ := hplay
    obtain ⟨mid, first, later, hfirst, hlater, -⟩ := play_append_eq_ok hsplit
    obtain ⟨hless, hempty, hwrites⟩ := h.round hfirst
    refine ih (h.rounds hfirst) ?_ hlater
    by_cases hq : engine.pending = []
    · exact .inr (hempty hq)
    · -- The round has written one of the descriptors that were left.
      have hone := hwrites hq
      rcases hleft with hleft | hleft
      · exact .inl (by omega)
      · exact absurd hleft.1 hq

/-! ## The work is done -/

/-- Let an engine be created and called in any way, with any changes that the device side makes to
the FIFOs, until they report their own depths; let `r` descriptors be left to be written then.  If
now `r + 1` rounds of a drain and a poll answer, no work is left: every accepted transfer was issued
to its last descriptor and reclaimed, and every page that was ever pinned was released as often.
Every round that begins with a pending transfer writes a descriptor. -/
theorem completed_of_play {config : Config} {pinner : P} {fifos : FifoPair} {notes : List Note}
    {start engine final : Engine P FifoPair} {calls : List (Call FifoPair)}
    {log later : List (Exchange P FifoPair)}
    (hcreate : create config pinner fifos = (notes, .ok start))
    (hplay : play calls start = ⟨.ok (), engine, log⟩) (hplain : engine.registers.Plain)
    (hrounds : play (rounds (unwritten engine.pending + 1)) engine = ⟨.ok (), final, later⟩) :
    let accepted := queuedTransfers config log
    let entries := record (log ++ later)
    accepted.map Transfer.request = log.filterMap Exchange.accepted? ∧
      final.hasWork = false ∧
      (∃ pushed : List (Side × Descriptor), Event.writes entries = pushed.flatMap halves ∧
        pushed.map (fun push => (push.1, Except.ok push.2)) =
          accepted.flatMap (·.stream config.pageSize)) ∧
      Event.reclaims (Event.deeds entries) = accepted.flatMap Transfer.releaseDeeds ∧
      (∀ page, (Event.releases entries).count page = (Event.grants entries).flatten.count page) ∧
      ∀ k mid next seen written, play (rounds k) engine = ⟨.ok (), mid, seen⟩ →
        mid.pending ≠ [] → play (rounds 1) mid = ⟨.ok (), next, written⟩ →
          0 < Event.descriptors (record written) := by
  have hsteered : engine.Steered := ⟨orderly_of_play hcreate hplay, hplain⟩
  obtain ⟨hflaw, -, rfl⟩ := create_eq_ok hcreate
  have hsound := Config.sound_of_flaw? hflaw
  obtain ⟨⟨before, hbefore⟩, hrequests⟩ := moves_of_play hplay
  obtain ⟨⟨after, hafter⟩, -⟩ := moves_of_play hrounds
  obtain ⟨hpending, hinFlight⟩ := hsteered.empty_of_rounds (.inl (Nat.lt_succ_self _)) hrounds
  -- The rounds queue nothing, so the history as a whole has queued what was accepted before them.
  have hmoves := hbefore.append hafter
  rw [queuedTransfers_rounds _ hrounds, List.append_nil, ← Event.deeds_append,
    ← record_append] at hmoves
  have hconfig : final.config = config := hmoves.config_eq
  have hbooks := books_of_moves hmoves hsound rfl rfl
  have horder := hbooks.order
  rw [hpending, hinFlight, List.append_nil, List.append_nil] at horder
  obtain ⟨pushed, hissued, hwrites⟩ := issued_of_moves hmoves hsound rfl rfl
  have hledger := ledger_of_moves hmoves rfl rfl
  refine ⟨hrequests, ?_, ⟨pushed, ?_, ?_⟩, ?_, fun page => ?_, ?_⟩
  · rw [hasWork, hpending, hinFlight]
    rfl
  · rw [← hwrites, Event.writes_deeds]
  · unfold Issued at hissued
    rw [hissued, hpending, hinFlight, hconfig, List.append_nil, begun, List.append_nil,
      ← flatMap_stream_fresh, ← horder]
  · rw [hmoves.reclaims_eq, ← flatMap_releaseDeeds_fresh, ← horder]
  · have hpage := hledger page
    rw [live, hpending, hinFlight, Event.releases_deeds, Event.grants_deeds] at hpage
    exact hpage.symm
  · intro k mid next seen written hmid hne hround
    exact ((hsteered.rounds hmid).round hround).2.2 hne

/-- The engine of the small history after its first submission is done after five rounds. -/
theorem completed_of_smallSubmission :
    let engine := (play (smallHistory.take 1) smallEngine).state
    let outcome := play (rounds 5) engine
    unwritten engine.pending = 4 ∧ outcome.result = .ok () ∧ outcome.state.hasWork = false ∧
      Event.reclaims (Event.deeds
          (record ((play (smallHistory.take 1) smallEngine).events ++ outcome.events))) =
        (queuedTransfers smallEngine.config
          (play (smallHistory.take 1) smallEngine).events).flatMap Transfer.releaseDeeds := by
  have hleft : unwritten (play (smallHistory.take 1) smallEngine).state.pending = 4 := by
    decide +kernel
  have hplain : (play (smallHistory.take 1) smallEngine).state.registers.Plain := by
    intro side
    cases side <;> constructor <;> decide +kernel
  have hrounds : play (rounds 5) (play (smallHistory.take 1) smallEngine).state =
      ⟨.ok (), (play (rounds 5) (play (smallHistory.take 1) smallEngine).state).state,
        (play (rounds 5) (play (smallHistory.take 1) smallEngine).state).events⟩ :=
    Outcome.eq_of_isOk (by decide +kernel)
  obtain ⟨-, hidle, -, hreclaims, -⟩ :=
    completed_of_play create_smallEngine play_smallSubmission hplain (by rw [hleft]; exact hrounds)
  exact ⟨hleft, congrArg Outcome.result hrounds, hidle, hreclaims⟩

end DmaQueue.Engine
