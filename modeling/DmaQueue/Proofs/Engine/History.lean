/-
  DmaQueue.Proofs.Engine.History

  Histories of an engine: any number of calls, with changes that the device side
  makes to its registers in between.  `play` carries the calls out and keeps
  each with its outcome.

  A history in which every call answers is a sequence of `Move`s, each labelled
  with the transfers that it queues, those that it reclaims, and its deeds
  (`moves_of_play`).  An invariant of histories is therefore checked for the
  five moves only.
-/
import DmaQueue.Pinner.RegionTable
import DmaQueue.Proofs.Engine.Submission
import DmaQueue.Register.FifoPair

namespace DmaQueue.Engine

variable {P R : Type}

/-! ## A new engine -/

/-- An engine comes about only with a sound configuration whose page size is that of the memory
manager, and then nothing is queued. -/
theorem create_eq_ok [Pinner P] {config : Config} {pinner : P} {registers : R} {notes : List Note}
    {engine : Engine P R} (h : create config pinner registers = (notes, .ok engine)) :
    config.flaw? = none ∧ Pinner.granule pinner = config.pageSize ∧
      engine = { config, pinner, registers } := by
  unfold create at h
  cases hflaw : config.flaw? with
  | some flaw => simp [hflaw] at h
  | none =>
    simp only [hflaw] at h
    split at h
    · simp at h
    · rename_i hgranule
      simp only [Prod.mk.injEq, Except.ok.injEq] at h
      exact ⟨rfl, Decidable.not_not.1 hgranule, h.2.symm⟩

/-! ## Calls -/

/-- A call on the engine, or a change of the registers that no call makes. -/
inductive Call (R : Type) where
  | submit (request : Request)
  | poll
  | hardware (change : R → R)

/-- What a call answers. -/
inductive Answer where
  | submitted (result : Except Failure Unit)
  | polled (busy : Bool)
  | changed
  deriving DecidableEq

/-- A call together with its outcome. -/
structure Exchange (P R : Type) where
  call : Call R
  outcome : Outcome Event (Engine P R) Answer

/-- The record of a history. -/
def record (log : List (Exchange P R)) : List Event :=
  log.flatMap (·.outcome.events)

theorem record_singleton (x : Exchange P R) : record [x] = x.outcome.events :=
  List.flatMap_singleton ..

theorem record_append (log later : List (Exchange P R)) :
    record (log ++ later) = record log ++ record later :=
  List.flatMap_append

namespace Exchange

/-- The request, if the exchange is a submission that was accepted. -/
def accepted? (x : Exchange P R) : Option Request :=
  match x.call, x.outcome.result with
  | .submit request, .ok (.submitted (.ok ())) => some request
  | _, _ => none

/-- The transfer that an accepted submission queued: its geometry is that of the admission, its
pages are those that the two pin calls in the record answered. -/
def queued? (config : Config) (x : Exchange P R) : Option Transfer := do
  let request ← x.accepted?
  match request.admission config, Event.grants x.outcome.events with
  | .ok (.ok admitted), [source, dest] => some (.ofAdmitted request admitted source dest)
  | _, _ => none

end Exchange

/-- The transfers that the accepted submissions queued, in order of submission. -/
def queuedTransfers (config : Config) (log : List (Exchange P R)) : List Transfer :=
  log.filterMap (·.queued? config)

theorem queuedTransfers_cons (config : Config) (x : Exchange P R) (log : List (Exchange P R)) :
    queuedTransfers config (x :: log) =
      (x.queued? config).toList ++ queuedTransfers config log := by
  unfold queuedTransfers
  rw [List.filterMap_cons]
  cases x.queued? config <;> rfl

variable [Pinner P] [Registers R]

/-- Carries out a call. -/
def Call.act : Call R → Act Event (Engine P R) Answer
  | .submit request => do
    let result ← Engine.submit request
    return .submitted result
  | .poll => do
    let busy ← Engine.poll
    return .polled busy
  | .hardware change => do
    Act.modify fun engine => { engine with registers := change engine.registers }
    return .changed

/-- Carries out a call and keeps its outcome. -/
def perform (call : Call R) : Act (Exchange P R) (Engine P R) Unit := fun engine =>
  let outcome := call.act engine
  ⟨outcome.result.map fun _ => (), outcome.state, [⟨call, outcome⟩]⟩

/-- Carries out calls one after the other, until one of them faults. -/
def play : List (Call R) → Act (Exchange P R) (Engine P R) Unit
  | [] => return ()
  | call :: rest => do
    perform call
    play rest

theorem perform_eq_ok {call : Call R} {engine engine' : Engine P R} {log : List (Exchange P R)}
    (h : perform call engine = ⟨.ok (), engine', log⟩) :
    ∃ answer events, call.act engine = ⟨.ok answer, engine', events⟩ ∧
      log = [⟨call, ⟨.ok answer, engine', events⟩⟩] := by
  unfold perform at h
  cases houtcome : call.act engine with
  | mk result state events =>
    rw [houtcome] at h
    cases result with
    | error fault => simp [Except.map] at h
    | ok answer =>
      simp only [Except.map, Outcome.mk.injEq, true_and] at h
      obtain ⟨rfl, rfl⟩ := h
      exact ⟨answer, events, rfl, rfl⟩

section Act

variable {engine engine' : Engine P R} {answer : Answer} {events : List Event}

/-- A call that submits answers what the submission answers. -/
theorem act_submit_eq_ok {request : Request}
    (h : (Call.submit request : Call R).act engine = ⟨.ok answer, engine', events⟩) :
    ∃ result, submit request engine = ⟨.ok result, engine', events⟩ ∧
      answer = .submitted result := by
  obtain ⟨result, _, _, _, hsubmit, hpure, rfl⟩ := Act.bind_eq_ok_iff.1 h
  obtain ⟨rfl, rfl, rfl⟩ := Act.pure_eq_ok_iff.1 hpure
  rw [List.append_nil]
  exact ⟨result, hsubmit, rfl⟩

/-- A poll that answers is a run that answers. -/
theorem poll_eq_ok {busy : Bool} (h : poll engine = ⟨.ok busy, engine', events⟩) :
    ∃ pause, run engine = ⟨.ok pause, engine', events⟩ ∧ busy = engine'.hasWork := by
  obtain ⟨pause, _, _, _, hrun, hget, rfl⟩ := Act.bind_eq_ok_iff.1 h
  have hwork := Act.get_bind_eq_ok_iff.1 hget
  obtain ⟨rfl, rfl, rfl⟩ := Act.pure_eq_ok_iff.1 hwork
  rw [List.append_nil]
  exact ⟨pause, hrun, rfl⟩

theorem act_poll_eq_ok (h : (Call.poll : Call R).act engine = ⟨.ok answer, engine', events⟩) :
    ∃ pause, run engine = ⟨.ok pause, engine', events⟩ ∧ answer = .polled engine'.hasWork := by
  obtain ⟨busy, _, _, _, hpoll, hpure, rfl⟩ := Act.bind_eq_ok_iff.1 h
  obtain ⟨rfl, rfl, rfl⟩ := Act.pure_eq_ok_iff.1 hpure
  obtain ⟨pause, hrun, rfl⟩ := poll_eq_ok hpoll
  rw [List.append_nil]
  exact ⟨pause, hrun, rfl⟩

theorem act_hardware_eq_ok {change : R → R}
    (h : (Call.hardware change : Call R).act engine = ⟨.ok answer, engine', events⟩) :
    engine' = { engine with registers := change engine.registers } ∧ answer = .changed ∧
      events = [] := by
  have hpure := Act.modify_bind_eq_ok_iff.1 h
  obtain ⟨rfl, rfl, rfl⟩ := Act.pure_eq_ok_iff.1 hpure
  exact ⟨rfl, rfl, rfl⟩

end Act

theorem play_cons_of_ok {call : Call R} {rest : List (Call R)} {engine mid : Engine P R}
    {answer : Answer} {events : List Event} (h : call.act engine = ⟨.ok answer, mid, events⟩) :
    play (call :: rest) engine = (play rest mid).after [⟨call, ⟨.ok answer, mid, events⟩⟩] := by
  have hperform : perform call engine = ⟨.ok (), mid, [⟨call, ⟨.ok answer, mid, events⟩⟩]⟩ := by
    unfold perform
    rw [h]
    rfl
  exact Act.bind_of_ok hperform

theorem play_cons_of_error {call : Call R} {rest : List (Call R)} {engine mid : Engine P R}
    {fault : Fault} {events : List Event} (h : call.act engine = ⟨.error fault, mid, events⟩) :
    play (call :: rest) engine =
      ⟨.error fault, mid, [⟨call, ⟨.error fault, mid, events⟩⟩]⟩ := by
  have hperform : perform call engine =
      ⟨.error fault, mid, [⟨call, ⟨.error fault, mid, events⟩⟩]⟩ := by
    unfold perform
    rw [h]
    rfl
  exact Act.bind_of_error hperform

/-- The first call is carried out on the engine as it is. -/
theorem mem_play_cons (call : Call R) (rest : List (Call R)) (engine : Engine P R) :
    (⟨call, call.act engine⟩ : Exchange P R) ∈ (play (call :: rest) engine).events := by
  cases hone : call.act engine with
  | mk result mid events =>
    cases result with
    | error fault =>
      rw [play_cons_of_error hone]
      exact List.mem_singleton_self _
    | ok answer =>
      rw [play_cons_of_ok hone]
      exact List.mem_cons_self ..

/-- The calls carried out are the first ones. -/
theorem calls_of_play (calls : List (Call R)) (engine : Engine P R) :
    (play calls engine).events.map (·.call) <+: calls := by
  induction calls generalizing engine with
  | nil => exact List.prefix_refl _
  | cons call rest ih =>
    cases hone : call.act engine with
    | mk result mid events =>
      cases result with
      | error fault =>
        rw [play_cons_of_error hone]
        exact ⟨rest, rfl⟩
      | ok answer =>
        rw [play_cons_of_ok hone]
        exact List.cons_prefix_cons.2 ⟨rfl, ih mid⟩

/-! ## Moves -/

/-- The transfers that a sampled destination depth gives back. -/
def returned (depths : Depths) (engine : Engine P R) : List Transfer :=
  if depths.dest = 0 then engine.inFlight else []

/-- The least that an engine can do while the device side changes the registers in the given ways,
with the transfers that it queues, those that it reclaims, and its deeds. -/
inductive Move (device : (R → R) → Prop) :
    Engine P R → List Transfer → List Transfer → List Event → Engine P R → Prop
  | turned {engine mid engine' : Engine P R} {depths : Depths} {registers : R}
      {seen freed written : List Event} {pause? : Option Pause}
      (hsample : Registers.sample engine.registers = ⟨.ok depths, registers, seen⟩)
      (hreclaim : Reclaims depths { engine with registers } mid freed)
      (hserve : Serves depths mid pause? engine' written) :
      Move device engine [] (returned depths engine)
        ([ .loaded Side.source.depthOffset depths.source,
            .loaded Side.dest.depthOffset depths.dest ] ++ freed ++ written) engine'
  | hardware {engine : Engine P R} {change : R → R} (hchange : device change) :
      Move device engine [] [] [] { engine with registers := change engine.registers }
  | rejected {engine : Engine P R} :
      Move device engine [] [] [] { engine with tally := engine.tally.countRejected }
  | rolledBack {engine : Engine P R} {request : Request} {admitted : Admitted}
      {source dest : List PinnedPage} {p p' : P} {events : List Event}
      (hpins : PinsBoth request admitted engine.pinner source dest p)
      (hrelease : Pinner.unpinAll false (source ++ dest) p = ⟨.ok (), p', events⟩) :
      Move device engine [] []
        (pinDeeds request admitted source dest ++ (source ++ dest).map (Event.unpinned · false))
        { engine with pinner := p', tally := engine.tally.countRollback }
  | queued {engine : Engine P R} {request : Request} {admitted : Admitted}
      {source dest : List PinnedPage} {p : P}
      (hadmitted : request.admission engine.config = .ok (.ok admitted))
      (hpins : PinsBoth request admitted engine.pinner source dest p)
      (hwhole : Whole admitted source dest) :
      Move device engine [.ofAdmitted request admitted source dest] []
        (pinDeeds request admitted source dest)
        { engine with
          pinner := p
          pending := engine.pending ++ [.ofAdmitted request admitted source dest]
          tally := engine.tally.countSubmitted }

/-- Any number of moves, with the transfers that they queue, those that they reclaim, and their
deeds. -/
inductive Moves (device : (R → R) → Prop) (start : Engine P R) :
    List Transfer → List Transfer → List Event → Engine P R → Prop
  | refl : Moves device start [] [] [] start
  | step {ts ts' reclaimed reclaimed' : List Transfer} {events events' : List Event}
      {mid engine : Engine P R} (hmoves : Moves device start ts reclaimed events mid)
      (hmove : Move device mid ts' reclaimed' events' engine) :
      Moves device start (ts ++ ts') (reclaimed ++ reclaimed') (events ++ events') engine

variable {device : (R → R) → Prop}

theorem Moves.single {engine engine' : Engine P R} {ts reclaimed : List Transfer}
    {events : List Event} (h : Move device engine ts reclaimed events engine') :
    Moves device engine ts reclaimed events engine' :=
  Moves.refl.step h

theorem Moves.append {start mid final : Engine P R} {ts ts' reclaimed reclaimed' : List Transfer}
    {events events' : List Event} (hfirst : Moves device start ts reclaimed events mid)
    (hsecond : Moves device mid ts' reclaimed' events' final) :
    Moves device start (ts ++ ts') (reclaimed ++ reclaimed') (events ++ events') final := by
  induction hsecond with
  | refl => simpa using hfirst
  | step _ hmove ih =>
    rw [← List.append_assoc, ← List.append_assoc, ← List.append_assoc]
    exact ih.step hmove

omit [Registers R] in
theorem Reclaims.config_eq {depths : Depths} {engine engine' : Engine P R} {events : List Event}
    (h : Reclaims depths engine engine' events) : engine'.config = engine.config := by
  cases h <;> rfl

omit [Pinner P] in
theorem Serves.config_eq {depths : Depths} {engine engine' : Engine P R} {pause? : Option Pause}
    {events : List Event} (h : Serves depths engine pause? engine' events) :
    engine'.config = engine.config := by
  cases h with
  | drained | stalled | complete => rfl
  | sent =>
    unfold headWritten
    split <;> rfl

/-- No move changes the parameters. -/
theorem Moves.config_eq {start final : Engine P R} {ts reclaimed : List Transfer}
    {events : List Event} (h : Moves device start ts reclaimed events final) :
    final.config = start.config := by
  induction h with
  | refl => rfl
  | step _ hmove ih =>
    rw [← ih]
    cases hmove with
    | turned _ hreclaim hserve => exact hserve.config_eq.trans hreclaim.config_eq
    | hardware | rejected | rolledBack | queued => rfl

/-- The transfers that moves queue come from requests that were let in, with pages that came back
whole from the memory manager in a state that moves lead to. -/
theorem admitted_of_moves {start final : Engine P R} {ts reclaimed : List Transfer}
    {events : List Event} (h : Moves device start ts reclaimed events final) :
    ∀ t ∈ ts, ∃ request admitted source dest before freed seen p, ∃ mid : Engine P R,
      Moves device start before freed seen mid ∧
      request.admission start.config = .ok (.ok admitted) ∧
      PinsBoth request admitted mid.pinner source dest p ∧ Whole admitted source dest ∧
      t = .ofAdmitted request admitted source dest := by
  induction h with
  | refl => simp
  | step hmoves hmove ih =>
    intro t ht
    rcases List.mem_append.1 ht with ht | ht
    · exact ih t ht
    · cases hmove with
      | turned | hardware | rejected | rolledBack => simp at ht
      | queued hadmitted hpins hwhole =>
        rw [hmoves.config_eq] at hadmitted
        exact ⟨_, _, _, _, _, _, _, _, _, hmoves, hadmitted, hpins, hwhole,
          List.mem_singleton.1 ht⟩

/-! ## A history is a sequence of moves -/

/-- A turn that answers is a move. -/
theorem move_of_turn {engine engine' : Engine P R} {pause? : Option Pause} {events : List Event}
    (h : turn engine = ⟨.ok pause?, engine', events⟩) :
    ∃ reclaimed, Move device engine [] reclaimed (Event.deeds events) engine' := by
  obtain ⟨depths, registers, _, mid, freed, written, hsample, hreclaim, hserve, hdeeds⟩ :=
    turn_eq_ok h
  rw [hdeeds]
  exact ⟨_, .turned hsample hreclaim hserve⟩

theorem moves_of_run {engine final : Engine P R} {pause : Pause} {events : List Event}
    (h : run engine = ⟨.ok pause, final, events⟩) :
    ∃ reclaimed, Moves device engine [] reclaimed (Event.deeds events) final := by
  have hturn : ∀ {e e' : Engine P R} {pause? past seen},
      (∃ reclaimed, Moves device engine [] reclaimed (Event.deeds past) e) →
      turn e = ⟨.ok pause?, e', seen⟩ →
      ∃ reclaimed, Moves device engine [] reclaimed (Event.deeds (past ++ seen)) e' := by
    rintro e e' pause? past seen ⟨reclaimed, hpast⟩ hone
    obtain ⟨freed, hmove⟩ := move_of_turn hone
    rw [Event.deeds_append]
    exact ⟨_, hpast.step hmove⟩
  -- The invariant of the loop: some moves account for the deeds so far.
  exact run_induction
    (I := fun e past => ∃ reclaimed, Moves device engine [] reclaimed (Event.deeds past) e) hturn []
    ⟨[], .refl⟩ h

omit [Registers R] in
/-- Nothing is pinned while transfers are reclaimed. -/
theorem Reclaims.grants_eq {depths : Depths} {engine engine' : Engine P R} {events : List Event}
    (h : Reclaims depths engine engine' events) : Event.grants events = [] :=
  h.filterMap_eq_nil fun _ _ => rfl

omit [Pinner P] in
theorem Serves.grants_eq {depths : Depths} {engine engine' : Engine P R} {pause? : Option Pause}
    {events : List Event} (h : Serves depths engine pause? engine' events) :
    Event.grants events = [] := by
  cases h <;> rfl

/-- Nothing is pinned while the loop runs. -/
theorem grants_of_run {engine final : Engine P R} {pause : Pause} {events : List Event}
    (h : run engine = ⟨.ok pause, final, events⟩) : Event.grants events = [] := by
  have hturn : ∀ {e e' : Engine P R} {pause? past seen}, Event.grants past = [] →
      turn e = ⟨.ok pause?, e', seen⟩ → Event.grants (past ++ seen) = [] := by
    intro e e' pause? past seen hpast hone
    obtain ⟨depths, registers, _, mid, freed, written, -, hreclaim, hserve, hdeeds⟩ :=
      turn_eq_ok hone
    rw [Event.grants_append, hpast, ← Event.grants_deeds seen, hdeeds, Event.grants_append,
      Event.grants_append, hreclaim.grants_eq, hserve.grants_eq]
    rfl
  exact run_induction (I := fun _ past => Event.grants past = []) hturn [] rfl h

/-- The transfer of a submission that was queued can be read off the record. -/
theorem queued?_of_run {config : Config} {request : Request} {admitted : Admitted}
    {source dest : List PinnedPage} {entered final : Engine P R} {pause : Pause}
    {seen later : List Event} (hadmitted : request.admission config = .ok (.ok admitted))
    (hdeeds : Event.deeds seen = pinDeeds request admitted source dest ++ Event.deeds later)
    (hrun : run entered = ⟨.ok pause, final, later⟩) :
    Exchange.queued? config
        (⟨.submit request, ⟨.ok (.submitted (.ok ())), final, seen⟩⟩ : Exchange P R) =
      some (.ofAdmitted request admitted source dest) := by
  -- The run pins nothing, so the two lists of pages in the record are those of this transfer.
  have hgrants : Event.grants seen = [source, dest] := by
    rw [← Event.grants_deeds, hdeeds, Event.grants_append, Event.grants_deeds, grants_of_run hrun]
    rfl
  simp only [Exchange.queued?, Exchange.accepted?, Option.bind_eq_bind, Option.bind_some,
    hadmitted, hgrants]

/-- A call that answers is a sequence of moves; the transfer that it queues can be read off its
outcome, and there is one exactly if it is an accepted submission. -/
theorem moves_of_act {call : Call R} {engine engine' : Engine P R} {answer : Answer}
    {events : List Event} (hdevice : ∀ change, call = .hardware change → device change)
    (h : call.act engine = ⟨.ok answer, engine', events⟩) :
    let x : Exchange P R := ⟨call, ⟨.ok answer, engine', events⟩⟩
    (∃ reclaimed,
      Moves device engine (x.queued? engine.config).toList reclaimed (Event.deeds events) engine') ∧
      (x.queued? engine.config).map Transfer.request = x.accepted? := by
  cases call with
  | submit request =>
    obtain ⟨result, hsubmit, rfl⟩ := act_submit_eq_ok h
    have hcases := submit_eq_ok hsubmit
    generalize hdeeds : Event.deeds events = deeds at hcases ⊢
    cases hcases with
    | rejected => exact ⟨⟨[], .single .rejected⟩, rfl⟩
    | rolledBack _ hpins _ _ hrelease => exact ⟨⟨[], .single (.rolledBack hpins hrelease)⟩, rfl⟩
    | queued hadmitted hpins hwhole hrun =>
      intro x
      rw [show x.queued? engine.config = _ from queued?_of_run hadmitted hdeeds hrun]
      obtain ⟨reclaimed, hmoves⟩ := moves_of_run hrun
      exact ⟨⟨_, (Moves.single (.queued hadmitted hpins hwhole)).append hmoves⟩, rfl⟩
  | poll =>
    obtain ⟨pause, hrun, rfl⟩ := act_poll_eq_ok h
    exact ⟨moves_of_run hrun, rfl⟩
  | hardware change =>
    obtain ⟨rfl, rfl, rfl⟩ := act_hardware_eq_ok h
    exact ⟨⟨[], .single (.hardware (hdevice change rfl))⟩, rfl⟩

/-- A history in which every call answers is a sequence of moves, which queue one transfer for each
accepted submission. -/
theorem moves_within_of_play {calls : List (Call R)} {engine final : Engine P R}
    {log : List (Exchange P R)} (hdevice : ∀ change, .hardware change ∈ calls → device change)
    (h : play calls engine = ⟨.ok (), final, log⟩) :
    (∃ reclaimed,
      Moves device engine (queuedTransfers engine.config log) reclaimed
        (Event.deeds (record log)) final) ∧
      (queuedTransfers engine.config log).map Transfer.request =
        log.filterMap Exchange.accepted? := by
  induction calls generalizing engine log with
  | nil =>
    obtain ⟨-, rfl, rfl⟩ := Act.pure_eq_ok_iff.1 h
    exact ⟨⟨[], .refl⟩, rfl⟩
  | cons call rest ih =>
    obtain ⟨_, mid, first, later, hperform, hrest, rfl⟩ := Act.bind_eq_ok_iff.1 h
    obtain ⟨answer, events, hact, rfl⟩ := perform_eq_ok hperform
    obtain ⟨⟨reclaimed, hmoves⟩, hrequest⟩ :=
      moves_of_act (fun change hchange => hdevice change (hchange ▸ List.mem_cons_self ..)) hact
    have hrestMoves := ih (fun change hmem => hdevice change (List.mem_cons_of_mem _ hmem)) hrest
    -- The parameters stay, so the transfers of the rest are read off with the same ones.
    rw [hmoves.config_eq] at hrestMoves
    obtain ⟨⟨reclaimed', hlater⟩, hrequests⟩ := hrestMoves
    have hrecord : record (⟨call, ⟨.ok answer, mid, events⟩⟩ :: later) =
        events ++ record later := rfl
    rw [List.singleton_append, hrecord, Event.deeds_append, queuedTransfers_cons]
    refine ⟨⟨_, hmoves.append hlater⟩, ?_⟩
    rw [List.map_append, hrequests, List.filterMap_cons, ← hrequest]
    cases Exchange.queued? engine.config (⟨call, ⟨.ok answer, mid, events⟩⟩ : Exchange P R) <;> rfl

/-- The same, whatever the device side does to the registers. -/
theorem moves_of_play {calls : List (Call R)} {engine final : Engine P R}
    {log : List (Exchange P R)} (h : play calls engine = ⟨.ok (), final, log⟩) :
    (∃ reclaimed, Moves (fun _ => True) engine (queuedTransfers engine.config log) reclaimed
      (Event.deeds (record log)) final) ∧
      (queuedTransfers engine.config log).map Transfer.request =
        log.filterMap Exchange.accepted? :=
  moves_within_of_play (fun _ _ => trivial) h

/-- A call of a history begins where moves have led the engine. -/
theorem exists_moves_of_mem_play {calls : List (Call R)} {engine : Engine P R} {x : Exchange P R}
    (h : x ∈ (play calls engine).events) :
    ∃ ts reclaimed events mid, Moves (fun _ => True) engine ts reclaimed events mid ∧
      x.outcome = x.call.act mid := by
  induction calls generalizing engine with
  | nil => simp [play, Act.pure_apply] at h
  | cons call rest ih =>
    cases hone : call.act engine with
    | mk result mid seen =>
      cases result with
      | error fault =>
        rw [play_cons_of_error hone, List.mem_singleton] at h
        rw [h]
        exact ⟨[], [], [], engine, .refl, hone.symm⟩
      | ok answer =>
        rw [play_cons_of_ok hone] at h
        rcases List.mem_cons.1 h with rfl | hlater
        · exact ⟨[], [], [], engine, .refl, hone.symm⟩
        · obtain ⟨⟨_, hfirst⟩, -⟩ := moves_of_act (fun _ _ => trivial) hone
          obtain ⟨_, _, _, mid', hmoves, houtcome⟩ := ih hlater
          exact ⟨_, _, _, mid', hfirst.append hmoves, houtcome⟩

/-! ## A small history

Two regions that touch but lie apart in physical memory, one region that may not be written to, and
FIFOs of two descriptors.  The first and the last submission are accepted, and the first transfer is
reclaimed before the last one is written; the second submission has no such opcode, and the third
cannot have its destination. -/

/-- Three regions, nothing pinned. -/
def smallTable : RegionTable :=
  { RegionTable.empty with
    regions :=
      [ { virt := 0x10000, phys := 0x80000, size := 0x3000, writable := true },
        { virt := 0x13000, phys := 0x40000, size := 0x2000, writable := true },
        { virt := 0x20000, phys := 0x90000, size := 0x1000, writable := false } ] }

def smallEngine : Engine RegionTable FifoPair :=
  { config := { fifoFull := 2 }, pinner := smallTable, registers := { capacity := 2 } }

def smallHistory : List (Call FifoPair) :=
  [ .submit { source := 0x12040, dest := 0x10000, length := 0x2000, opcode := 1, attr := 5 },
    .submit { source := 0x12000, dest := 0x10000, length := 0x40, opcode := 9, attr := 0 },
    .hardware FifoPair.drained,
    .poll,
    .submit { source := 0x12000, dest := 0x20000, length := 0x40, opcode := 0, attr := 0 },
    .hardware FifoPair.drained,
    .poll,
    .hardware FifoPair.drained,
    .submit { source := 0x11000, dest := 0x13000, length := 0x2000, opcode := 0, attr := 0 } ]

theorem create_smallEngine :
    create smallEngine.config smallEngine.pinner smallEngine.registers = ([], .ok smallEngine) :=
  rfl

/-- Every call of the small history answers. -/
theorem play_smallHistory :
    play smallHistory smallEngine =
      ⟨.ok (), (play smallHistory smallEngine).state, (play smallHistory smallEngine).events⟩ :=
  Outcome.eq_of_isOk (by decide +kernel)

end DmaQueue.Engine
