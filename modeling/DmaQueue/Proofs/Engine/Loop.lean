/-
  DmaQueue.Proofs.Engine.Loop

  The issue loop from within.  A call `Enters` the loop with an engine, and the
  loop then `Turns` from engine to engine until a turn ends it or faults.  Moves
  lead to every engine with which a turn begins, so what moves preserve is known
  there too, also in a call that faults later.
-/
import DmaQueue.Proofs.Engine.Books
import DmaQueue.Proofs.Trace.Readings

namespace DmaQueue.Engine

variable {P R : Type} [Pinner P] [Registers R]

/-! ## Calls that run the loop -/

/-- The call runs the issue loop from this engine: a poll does so at once, a submission when the
transfer of its request is in the queue. -/
inductive Enters (engine : Engine P R) : Call R → Engine P R → Prop
  | polled : Enters engine .poll engine
  | submitted {request : Request} {admitted : Admitted} {source dest : List PinnedPage} {p : P}
      (hadmitted : request.admission engine.config = .ok (.ok admitted))
      (hpins : PinsBoth request admitted engine.pinner source dest p)
      (hwhole : Whole admitted source dest) :
      Enters engine (.submit request)
        { engine with
          pinner := p
          pending := engine.pending ++ [.ofAdmitted request admitted source dest]
          tally := engine.tally.countSubmitted }

/-- A loop that runs from `entered` comes to a turn that begins with this engine. -/
inductive Turns (entered : Engine P R) : Engine P R → Prop
  | first : Turns entered entered
  | next {engine engine' : Engine P R} {events : List Event} (hturns : Turns entered engine)
      (hturn : turn engine = ⟨.ok none, engine', events⟩) : Turns entered engine'

variable {device : (R → R) → Prop} {engine entered reached final : Engine P R} {call : Call R}
  {events : List Event}

theorem Enters.moves (device : (R → R) → Prop) (h : Enters engine call entered) :
    ∃ ts events, Moves device engine ts [] events entered := by
  cases h with
  | polled => exact ⟨[], [], .refl⟩
  | submitted hadmitted hpins hwhole =>
    exact ⟨_, _, .single (.queued hadmitted hpins hwhole)⟩

theorem Turns.moves (device : (R → R) → Prop) (h : Turns entered reached) :
    ∃ reclaimed events, Moves device entered [] reclaimed events reached := by
  induction h with
  | first => exact ⟨[], [], .refl⟩
  | next _ hturn ih =>
    obtain ⟨reclaimed, past, hmoves⟩ := ih
    obtain ⟨freed, hmove⟩ := move_of_turn hturn
    exact ⟨_, _, hmoves.step hmove⟩

/-- Moves lead to every turn that a call comes to. -/
theorem Moves.turns {start : Engine P R} {ts reclaimed : List Transfer}
    (h : Moves device start ts reclaimed events engine) (henters : Enters engine call entered)
    (hturns : Turns entered reached) :
    ∃ ts reclaimed events, Moves device start ts reclaimed events reached := by
  obtain ⟨_, _, hentered⟩ := henters.moves device
  obtain ⟨_, _, hreached⟩ := hturns.moves device
  exact ⟨_, _, _, (h.append hentered).append hreached⟩

/-! ## Queues in order -/

/-- The parameters are sound, and the queues hold what is left of the transfers ever accepted. -/
structure Orderly (engine : Engine P R) : Prop where
  sound : engine.config.Sound
  books : ∃ accepted reclaimed, Books accepted reclaimed engine

omit [Pinner P] [Registers R] in
theorem Orderly.inTurn (h : engine.Orderly) : Transfer.InTurn engine.pending := by
  obtain ⟨_, _, hbooks⟩ := h.books
  exact hbooks.turn

omit [Pinner P] [Registers R] in
/-- Only the parameters and the queues matter. -/
theorem Orderly.of_registers (h : engine.Orderly) (registers : R) :
    Orderly { engine with registers } := by
  obtain ⟨_, _, hbooks⟩ := h.books
  exact ⟨h.sound, _, _, hbooks.of_queues_eq rfl rfl⟩

theorem Orderly.moves {ts reclaimed : List Transfer} (h : engine.Orderly)
    (hmoves : Moves device engine ts reclaimed events final) : final.Orderly := by
  induction hmoves with
  | refl => exact h
  | step _ hmove ih =>
    obtain ⟨_, _, hbooks⟩ := ih.books
    have hconfig := (Moves.single hmove).config_eq
    exact ⟨hconfig ▸ ih.sound, _, _, hbooks.move ih.sound hmove⟩

theorem Orderly.enters (h : engine.Orderly) (henters : Enters engine call entered) :
    entered.Orderly := by
  obtain ⟨_, _, hmoves⟩ := henters.moves fun _ => True
  exact h.moves hmoves

theorem Orderly.turns (h : entered.Orderly) (hturns : Turns entered reached) :
    reached.Orderly := by
  obtain ⟨_, _, hmoves⟩ := hturns.moves fun _ => True
  exact h.moves hmoves

/-- A new engine is orderly, and stays so. -/
theorem orderly_of_play {config : Config} {pinner : P} {registers : R} {notes : List Note}
    {start : Engine P R} {calls : List (Call R)} {log : List (Exchange P R)}
    (hcreate : create config pinner registers = (notes, .ok start))
    (hplay : play calls start = ⟨.ok (), final, log⟩) : final.Orderly := by
  obtain ⟨hflaw, -, rfl⟩ := create_eq_ok hcreate
  obtain ⟨⟨_, hmoves⟩, -⟩ := moves_of_play hplay
  exact Orderly.moves ⟨Config.sound_of_flaw? hflaw, [], [], .of_new rfl rfl⟩ hmoves

/-! ## Runs that answer -/

/-- A run that answers is one turn that ends it, or a turn that goes on and a run. -/
theorem run_eq_ok {pause : Pause} (h : run engine = ⟨.ok pause, final, events⟩) :
    turn engine = ⟨.ok (some pause), final, events⟩ ∨
      ∃ next first rest, turn engine = ⟨.ok none, next, first⟩ ∧
        run next = ⟨.ok pause, final, rest⟩ ∧ events = first ++ rest := by
  cases hone : turn engine with
  | mk result next first =>
    cases result with
    | error fault =>
      rw [run_of_turn_eq_error hone] at h
      simp at h
    | ok pause? =>
      cases pause? with
      | some pause' =>
        rw [run_of_turn_eq_some hone] at h
        simp only [Outcome.mk.injEq, Except.ok.injEq] at h
        obtain ⟨rfl, rfl, rfl⟩ := h
        exact .inl rfl
      | none =>
        rw [run_of_turn_eq_none hone] at h
        cases hrest : run next with
        | mk result' last rest =>
          rw [hrest] at h
          simp only [Outcome.after, Outcome.mk.injEq] at h
          obtain ⟨rfl, rfl, rfl⟩ := h
          exact .inr ⟨next, first, rest, rfl, hrest, rfl⟩

/-! ## What is reclaimed -/

omit [Registers R] in
/-- The entries of a reclaim are those of the releases of the transfers that it returns. -/
theorem Reclaims.events_eq {depths : Depths} {engine' : Engine P R}
    (h : Reclaims depths engine engine' events) :
    events = (returned depths engine).flatMap Transfer.releaseDeeds := by
  cases h with
  | kept hbusy => rw [returned, if_neg hbusy, List.flatMap_nil]
  | freed hdrained => rw [returned, if_pos hdrained]

/-- The progress has no part in a release. -/
theorem flatMap_releaseDeeds_fresh (ts : List Transfer) :
    (ts.map Transfer.fresh).flatMap Transfer.releaseDeeds =
      ts.flatMap Transfer.releaseDeeds := by
  rw [List.flatMap_map]
  rfl

theorem isRelease_of_mem_releaseDeeds {ts : List Transfer} :
    ∀ e ∈ ts.flatMap Transfer.releaseDeeds, e.isRelease = true := by
  intro e he
  obtain ⟨t, -, he⟩ := List.mem_flatMap.1 he
  rcases List.mem_append.1 he with he | he
  · exact Event.isRelease_unpinned _ _ e he
  · exact Event.isRelease_unpinned _ _ e he

omit [Pinner P] in
theorem Serves.stored_of_mem {depths : Depths} {engine' : Engine P R} {pause? : Option Pause}
    (h : Serves depths engine pause? engine' events) :
    ∀ e ∈ events, ∃ offset value, e = .stored offset value := by
  cases h with
  | drained | stalled | complete => simp
  | sent => simp

/-- Nothing is read by the pin calls. -/
theorem ne_loaded_of_mem_pinDeeds {request : Request} {admitted : Admitted}
    {source dest : List PinnedPage} :
    ∀ e ∈ pinDeeds request admitted source dest, ∀ offset value, e ≠ .loaded offset value := by
  rintro _ he offset value rfl
  simp [pinDeeds] at he

/-- Nothing is read while a submission is rolled back. -/
theorem ne_loaded_of_mem_rollback {request : Request} {admitted : Admitted}
    {source dest pages : List PinnedPage} {dirty : Bool} :
    ∀ e ∈ pinDeeds request admitted source dest ++ pages.map (Event.unpinned · dirty),
      ∀ offset value, e ≠ .loaded offset value := by
  rintro _ he offset value rfl
  rcases List.mem_append.1 he with he | he
  · exact ne_loaded_of_mem_pinDeeds _ he offset value rfl
  · simpa [Event.isRelease] using Event.isRelease_unpinned _ _ _ he

/-- What a move reclaims stands in its deeds, after the readings of the depths. -/
theorem Move.reclaims_eq {queued freed : List Transfer}
    (h : Move device engine queued freed events final) :
    Event.reclaims events = freed.flatMap Transfer.releaseDeeds ∧
      ∀ e ∈ events.head?, e.isRelease = false := by
  cases h with
  | turned _ hreclaim hserve =>
    rename_i depths registers _ _ _ _ _
    rw [hreclaim.events_eq]
    refine ⟨Event.reclaims_reads depths isRelease_of_mem_releaseDeeds hserve.stored_of_mem, ?_⟩
    simp [Event.isRelease]
  | hardware | rejected => simp [Event.reclaims]
  | rolledBack =>
    exact ⟨Event.reclaims_of_no_read ne_loaded_of_mem_rollback, by simp [pinDeeds, Event.isRelease]⟩
  | queued => simp [Event.reclaims, pinDeeds, Event.isRelease]

/-- What was reclaimed can be read off the record. -/
theorem Moves.reclaims_eq {start : Engine P R} {ts reclaimed : List Transfer}
    (h : Moves device start ts reclaimed events engine) :
    Event.reclaims events = reclaimed.flatMap Transfer.releaseDeeds := by
  induction h with
  | refl => rfl
  | step _ hmove ih =>
    obtain ⟨hfreed, hhead⟩ := hmove.reclaims_eq
    rw [Event.reclaims_append hhead, ih, hfreed, List.flatMap_append]

/-- The first submission of the small history answers while its last source chunk still waits. -/
theorem play_smallSubmission :
    play (smallHistory.take 1) smallEngine =
      ⟨.ok (), (play (smallHistory.take 1) smallEngine).state,
        (play (smallHistory.take 1) smallEngine).events⟩ :=
  Outcome.eq_of_isOk (by decide +kernel)

end DmaQueue.Engine
