/-
  DmaQueue.Proofs.Account.Calls

  What a call that answers leaves behind, said once: the transfers that it
  reclaims, all that it asks of the memory manager, and what its counters count.
  `settled_of_history` puts the calls of a history together.
-/
import DmaQueue.Proofs.Issue.Reclamation
import DmaQueue.Proofs.Tally

namespace DmaQueue

open Tally (Counter)
open Transfer (pageTotal)

theorem Transfer.pageTotal_append (ts us : List Transfer) :
    pageTotal (ts ++ us) = pageTotal ts + pageTotal us := by
  induction ts with
  | nil => exact (Nat.zero_add _).symm
  | cons t rest ih =>
    show t.pageCount + pageTotal (rest ++ us) = t.pageCount + pageTotal rest + pageTotal us
    rw [ih, Nat.add_assoc]

/-- How often a turn counts a stall: once if it ends the loop at a full FIFO. -/
def Pause.stalls : Option Pause → Nat
  | none => 0
  | some .drained => 0
  | some (.blocked _) => 1

namespace Engine

variable {P R : Type}

/-! ## What the loop counts -/

/-- What the loop counts with this record, these transfers reclaimed, and so many stalls. -/
def looped (events : List Event) (reclaimed : List Transfer) (stalls : Nat) : Counter → Nat
  | .submitted => 0
  | .rejected => 0
  | .rollbacks => 0
  | .descriptors side => Event.descriptorsTo side events
  | .stalls => stalls
  | .reclaimedTransfers => reclaimed.length
  | .reclaimedPages => pageTotal reclaimed

theorem looped_append (events later : List Event) (reclaimed more : List Transfer) (m n : Nat)
    (c : Counter) :
    looped (events ++ later) (reclaimed ++ more) (m + n) c =
      looped events reclaimed m c + looped later more n c := by
  cases c with
  | submitted | rejected | rollbacks | stalls => rfl
  | descriptors side => exact Event.descriptorsTo_append side events later
  | reclaimedTransfers => exact List.length_append
  | reclaimedPages => exact Transfer.pageTotal_append reclaimed more

theorem plus_looped (tally : Tally) (events later : List Event) (reclaimed more : List Transfer)
    (m n : Nat) :
    (tally.plus (looped events reclaimed m)).plus (looped later more n) =
      tally.plus (looped (events ++ later) (reclaimed ++ more) (m + n)) := by
  rw [Tally.plus_plus]
  exact Tally.plus_congr fun c => (looped_append ..).symm

theorem plus_looped_nil (tally : Tally) : tally.plus (looped [] [] 0) = tally := by
  apply Tally.plus_of_zero
  intro c
  cases c <;> rfl

theorem countReclaimedAll_eq_plus (ts : List Transfer) (tally : Tally) :
    countReclaimedAll ts tally = tally.plus (looped [] ts 0) := by
  induction ts generalizing tally with
  | nil => exact (plus_looped_nil tally).symm
  | cons t rest ih =>
    have hone : tally.countReclaimed t.pageCount = tally.plus (looped [] [t] 0) := by
      rw [Tally.countReclaimed_eq_plus]
      apply Tally.plus_congr
      intro c
      cases c with
      | reclaimedPages => exact Nat.zero_add _
      | submitted | rejected | rollbacks | descriptors | stalls | reclaimedTransfers => rfl
    show countReclaimedAll rest (tally.countReclaimed t.pageCount) = _
    rw [ih, hone, plus_looped]
    rfl

variable {engine engine' : Engine P R} {depths : Depths} {events : List Event}

theorem Reclaims.tally_eq [Pinner P] (h : Reclaims depths engine engine' events) :
    engine'.tally = engine.tally.plus (looped events (returned depths engine) 0) := by
  -- A reclaim writes nothing, so its entries may as well be left out.
  have hnone : engine.tally.plus (looped events (returned depths engine) 0) =
      engine.tally.plus (looped [] (returned depths engine) 0) := by
    apply Tally.plus_congr
    intro c
    cases c with
    | descriptors side =>
      show (Event.writes events).countP _ = 0
      rw [h.writes_eq]
      rfl
    | submitted | rejected | rollbacks | stalls | reclaimedTransfers | reclaimedPages => rfl
  rw [hnone]
  cases h with
  | kept hbusy =>
    rw [returned, if_neg hbusy, plus_looped_nil]
  | freed hdrained =>
    rw [returned, if_pos hdrained]
    exact countReclaimedAll_eq_plus ..

variable [Registers R]

theorem Serves.tally_eq {pause? : Option Pause} (h : Serves depths engine pause? engine' events) :
    engine'.tally = engine.tally.plus (looped events [] (Pause.stalls pause?)) := by
  cases h with
  | drained | complete => exact (plus_looped_nil _).symm
  | stalled =>
    show engine.tally.countStall = _
    rw [Tally.countStall_eq_plus]
    apply Tally.plus_congr
    intro c
    cases c <;> rfl
  | @sent t rest side _ d registers _ =>
    have hkept : (headWritten t rest
        { engine with registers, tally := engine.tally.countDescriptor side }).tally =
          engine.tally.countDescriptor side := by
      unfold headWritten
      split <;> rfl
    rw [hkept, Tally.countDescriptor_eq_plus]
    apply Tally.plus_congr
    intro c
    -- Of the two writes the high half counts, and it goes to one side.
    cases c with
    | descriptors other => cases side <;> cases other <;> rfl
    | submitted | rejected | rollbacks | stalls | reclaimedTransfers | reclaimedPages => rfl

/-- A turn that ends the loop counts a stall exactly if something is still pending. -/
theorem Serves.stalls_eq {pause : Pause} (h : Serves depths engine (some pause) engine' events) :
    Pause.stalls (some pause) = if engine'.pending.isEmpty then 0 else 1 := by
  cases h with
  | drained hq => rw [hq]; rfl
  | stalled hq => simp only [hq]; rfl

/-! ## What the loop does -/

/-- The loop has come from `entered` to `engine` with the record `past`: it has released the
transfers `freed` and asked nothing else of the memory manager, and counted what it did and so many
stalls. -/
structure Ran [Pinner P] (entered : Engine P R) (freed : List Transfer) (stalls : Nat)
    (past : List Event) (engine : Engine P R) : Prop where
  moves : Moves (fun _ => True) entered [] freed (Event.deeds past) engine
  calls : Event.pinnerCalls past = freed.flatMap Transfer.releaseDeeds
  tally : engine.tally = entered.tally.plus (looped past freed stalls)

variable [Pinner P] {entered final : Engine P R} {freed : List Transfer} {past : List Event}

theorem Ran.refl : Ran entered [] 0 [] entered := by
  constructor
  case moves => exact .refl
  case calls => rfl
  case tally => exact (plus_looped_nil _).symm

omit [Registers R] in
/-- A reclaim is made of calls on the memory manager. -/
theorem Reclaims.pinnerCalls_eq (h : Reclaims depths engine engine' events) :
    Event.pinnerCalls events = (returned depths engine).flatMap Transfer.releaseDeeds := by
  rw [← h.events_eq, Event.pinnerCalls, List.filter_eq_self]
  intro e he
  rw [h.events_eq] at he
  have hrelease := isRelease_of_mem_releaseDeeds e he
  cases e with
  | unpinned page dirty => rfl
  | loaded | stored | pinned | noted => simp [Event.isRelease] at hrelease

omit [Pinner P] in
theorem Serves.pinnerCalls_eq {pause? : Option Pause}
    (h : Serves depths engine pause? engine' events) : Event.pinnerCalls events = [] := by
  cases h <;> rfl

/-- The loop goes on by one turn. -/
theorem Ran.turn {pause? : Option Pause} (h : Ran entered freed 0 past engine)
    (hone : turn engine = ⟨.ok pause?, engine', events⟩) :
    (∃ more, Ran entered (freed ++ more) (Pause.stalls pause?) (past ++ events) engine') ∧
      ∀ pause, pause? = some pause →
        Pause.stalls pause? = if engine'.pending.isEmpty then 0 else 1 := by
  obtain ⟨depths, registers, _, mid, released, written, hsample, hreclaim, hserve, hdeeds⟩ :=
    turn_eq_ok hone
  refine ⟨⟨returned depths engine, ?_⟩, ?_⟩
  · constructor
    case moves =>
      rw [Event.deeds_append, hdeeds]
      exact h.moves.step (.turned hsample hreclaim hserve)
    case calls =>
      have hreads : Event.pinnerCalls depths.reads = [] := rfl
      rw [Event.pinnerCalls_append, h.calls, ← Event.pinnerCalls_deeds events, hdeeds,
        Event.pinnerCalls_append, Event.pinnerCalls_append, hreclaim.pinnerCalls_eq,
        hserve.pinnerCalls_eq, List.append_nil, List.flatMap_append]
      exact congrArg _ (congrArg (· ++ _) hreads)
    case tally =>
      have hturn : engine'.tally = engine.tally.plus
          (looped events (returned depths engine) (Pause.stalls pause?)) := by
        rw [hserve.tally_eq, hreclaim.tally_eq, plus_looped, List.append_nil, Nat.zero_add]
        apply Tally.plus_congr
        intro c
        cases c with
        | descriptors side =>
          show Event.descriptorsTo side (released ++ written) = Event.descriptorsTo side events
          rw [← Event.descriptorsTo_deeds side events, hdeeds, List.append_assoc,
            Event.descriptorsTo_append side [_, _]]
          exact (Nat.zero_add _).symm
        | submitted | rejected | rollbacks | stalls | reclaimedTransfers | reclaimedPages => rfl
      rw [hturn, h.tally, plus_looped, Nat.zero_add]
  · rintro pause rfl
    exact hserve.stalls_eq

/-- A run that answers counts one stall if something is still pending, and else none. -/
theorem ran_of_run {pause : Pause} (h : run entered = ⟨.ok pause, final, events⟩) :
    ∃ freed, Ran entered freed (if final.pending.isEmpty then 0 else 1) events final := by
  have hgoes : ∀ {e e' : Engine P R} {past seen}, (∃ freed, Ran entered freed 0 past e) →
      Engine.turn e = ⟨.ok none, e', seen⟩ → ∃ freed, Ran entered freed 0 (past ++ seen) e' := by
    rintro e e' past seen ⟨freed, hran⟩ hone
    obtain ⟨⟨more, hmore⟩, -⟩ := hran.turn hone
    exact ⟨_, hmore⟩
  have hends : ∀ {e e' : Engine P R} {pause past seen}, (∃ freed, Ran entered freed 0 past e) →
      Engine.turn e = ⟨.ok (some pause), e', seen⟩ →
      ∃ freed, Ran entered freed (if e'.pending.isEmpty then 0 else 1) (past ++ seen) e' := by
    rintro e e' pause past seen ⟨freed, hran⟩ hone
    obtain ⟨⟨more, hmore⟩, hstalls⟩ := hran.turn hone
    rw [hstalls pause rfl] at hmore
    exact ⟨_, hmore⟩
  exact run_rec (I := fun e past => ∃ freed, Ran entered freed 0 past e)
    (J := fun _ e past => ∃ freed, Ran entered freed (if e.pending.isEmpty then 0 else 1) past e)
    hgoes hends [] ⟨[], .refl⟩ h

/-! ## What a call asks of the memory manager -/

omit [Pinner P] [Registers R] in
/-- What a call that answers asks of the memory manager, with the transfers that it reclaims.  A
request that is let in makes both pin calls, and the pages of one that falls short go back in the
order in which they came.  A run releases the transfers that it reclaims.  There is nothing else. -/
inductive Exchange.Settles (config : Config) : Exchange P R → List Transfer → Prop
  | rejected {request : Request} {rejection : Rejection} {state : Engine P R} {events : List Event}
      (hrejected : request.admission config = .ok (.error rejection))
      (hcalls : Event.pinnerCalls events = []) :
      Settles config
        ⟨.submit request,
          ⟨.ok (.submitted (.error (.invalidArgument rejection))), state, events⟩⟩ []
  | rolledBack {request : Request} {admitted : Admitted} {source dest : List PinnedPage}
      {requested : Nat} {state : Engine P R} {events : List Event}
      (hadmitted : request.admission config = .ok (.ok admitted))
      (hshort : ¬ Whole admitted source dest)
      (hcalls : Event.pinnerCalls events =
        pinDeeds request admitted source dest ++ (source ++ dest).map (Event.unpinned · false)) :
      Settles config
        ⟨.submit request,
          ⟨.ok (.submitted (.error
            (.resourceExhausted requested (source.length + dest.length)))), state, events⟩⟩ []
  | queued {request : Request} {admitted : Admitted} {source dest : List PinnedPage}
      {freed : List Transfer} {state : Engine P R} {events : List Event}
      (hadmitted : request.admission config = .ok (.ok admitted))
      (hwhole : Whole admitted source dest)
      (hcalls : Event.pinnerCalls events =
        pinDeeds request admitted source dest ++ freed.flatMap Transfer.releaseDeeds) :
      Settles config ⟨.submit request, ⟨.ok (.submitted (.ok ())), state, events⟩⟩ freed
  | polled {busy : Bool} {freed : List Transfer} {state : Engine P R} {events : List Event}
      (hcalls : Event.pinnerCalls events = freed.flatMap Transfer.releaseDeeds) :
      Settles config ⟨.poll, ⟨.ok (.polled busy), state, events⟩⟩ freed
  | changed {change : R → R} {state : Engine P R} :
      Settles config ⟨.hardware change, ⟨.ok .changed, state, []⟩⟩ []

/-! ## What a history counts -/

omit [Pinner P] [Registers R]

/-- The request that a call submits. -/
def Call.request? : Call R → Option Request
  | .submit request => some request
  | .poll => none
  | .hardware _ => none

namespace Exchange

/-- Whether the exchange is a submission whose request was not let in. -/
def rejected (x : Exchange P R) : Bool :=
  match x.outcome.result with
  | .ok (.submitted (.error (.invalidArgument _))) => true
  | _ => false

/-- Whether the exchange is a submission whose pages did not all come back. -/
def rolledBack (x : Exchange P R) : Bool :=
  match x.outcome.result with
  | .ok (.submitted (.error (.resourceExhausted _ _))) => true
  | _ => false

/-- Whether the exchange ran the loop and left something pending. -/
def stalled (x : Exchange P R) : Bool :=
  match x.outcome.result with
  | .ok (.submitted (.ok ())) => !x.outcome.state.pending.isEmpty
  | .ok (.polled _) => !x.outcome.state.pending.isEmpty
  | _ => false

theorem stalls_eq (x : Exchange P R) (h : x.stalled = !x.outcome.state.pending.isEmpty) :
    (if x.stalled then 1 else 0) = if x.outcome.state.pending.isEmpty then 0 else 1 := by
  rw [h]
  cases x.outcome.state.pending.isEmpty <;> rfl

/-- What a call counts for its answer alone. -/
def answered (x : Exchange P R) : Counter → Nat
  | .submitted => if x.accepted?.isSome then 1 else 0
  | .rejected => if x.rejected then 1 else 0
  | .rollbacks => if x.rolledBack then 1 else 0
  | .descriptors _ | .stalls | .reclaimedTransfers | .reclaimedPages => 0

end Exchange

/-- What a history counts that reclaims these transfers. -/
def counts (log : List (Exchange P R)) (reclaimed : List Transfer) : Counter → Nat
  | .submitted => log.countP (·.accepted?.isSome)
  | .rejected => log.countP (·.rejected)
  | .rollbacks => log.countP (·.rolledBack)
  | .descriptors side => Event.descriptorsTo side (record log)
  | .stalls => log.countP (·.stalled)
  | .reclaimedTransfers => reclaimed.length
  | .reclaimedPages => pageTotal reclaimed

theorem counts_append (log later : List (Exchange P R)) (reclaimed more : List Transfer)
    (c : Counter) :
    counts (log ++ later) (reclaimed ++ more) c = counts log reclaimed c + counts later more c := by
  cases c with
  | submitted | rejected | rollbacks | stalls => exact List.countP_append
  | descriptors side =>
    show Event.descriptorsTo side (record (log ++ later)) = _
    rw [record_append]
    exact Event.descriptorsTo_append ..
  | reclaimedTransfers => exact List.length_append
  | reclaimedPages => exact Transfer.pageTotal_append reclaimed more

/-- A call counts what its answer says, and what its loop did. -/
theorem counts_singleton (x : Exchange P R) (freed : List Transfer) {n : Nat}
    {events : List Event} (hstalls : (if x.stalled then 1 else 0) = n)
    (hevents : ∀ side, Event.descriptorsTo side x.outcome.events =
      Event.descriptorsTo side events) :
    counts [x] freed = fun c => x.answered c + looped events freed n c := by
  funext c
  cases c with
  | submitted | rejected | rollbacks => exact List.countP_singleton
  | descriptors side =>
    show Event.descriptorsTo side (record [x]) = 0 + Event.descriptorsTo side events
    rw [record_singleton, hevents, Nat.zero_add]
  | stalls =>
    show [x].countP (·.stalled) = 0 + n
    rw [List.countP_singleton, hstalls, Nat.zero_add]
  | reclaimedTransfers | reclaimedPages => exact (Nat.zero_add _).symm

variable [Pinner P] [Registers R] {engine engine' final : Engine P R} {events : List Event}

/-! ## What calls and histories do -/

/-- If every call answers, then every call is carried out. -/
theorem calls_eq_of_play {calls : List (Call R)} {log : List (Exchange P R)}
    (h : play calls engine = ⟨.ok (), final, log⟩) : log.map (·.call) = calls := by
  induction calls generalizing engine log with
  | nil =>
    obtain ⟨-, -, rfl⟩ := Act.pure_eq_ok_iff.1 h
    rfl
  | cons call rest ih =>
    obtain ⟨_, mid, first, later, hperform, hrest, rfl⟩ := Act.bind_eq_ok_iff.1 h
    obtain ⟨answer, events, -, rfl⟩ := perform_eq_ok hperform
    rw [List.singleton_append, List.map_cons, ih hrest]

/-- What a submission does that answers. -/
theorem settled_of_submit {request : Request} {answer : Except Failure Unit}
    (h : submit request engine = ⟨.ok answer, engine', events⟩) :
    let x : Exchange P R := ⟨.submit request, ⟨.ok (.submitted answer), engine', events⟩⟩
    ∃ freed, Moves (fun _ => True) engine (x.queued? engine.config).toList freed
        (Event.deeds events) engine' ∧
      x.Settles engine.config freed ∧ engine'.tally = engine.tally.plus (counts [x] freed) := by
  intro x
  have hcases := submit_eq_ok h
  generalize hdeeds : Event.deeds events = deeds at hcases ⊢
  have hcalls : Event.pinnerCalls events = Event.pinnerCalls deeds := by
    rw [← hdeeds, Event.pinnerCalls_deeds]
  have hwrites : ∀ side, Event.descriptorsTo side events = Event.descriptorsTo side deeds := by
    intro side
    rw [← hdeeds, Event.descriptorsTo_deeds]
  cases hcases with
  | rejected hrejected =>
    refine ⟨[], .single .rejected, .rejected hrejected hcalls, ?_⟩
    rw [counts_singleton x [] rfl hwrites]
    show engine.tally.countRejected = _
    rw [Tally.countRejected_eq_plus]
    apply Tally.plus_congr
    intro c
    cases c <;> rfl
  | rolledBack hadmitted hpins hshort _ hrelease =>
    rename_i admitted source dest _ _ _ _ _
    have hreleased : Event.pinnerCalls ((source ++ dest).map (Event.unpinned · false)) = _ :=
      Event.pinnerCalls_unpinned (source ++ dest) false
    rw [Event.pinnerCalls_append, hreleased] at hcalls
    have hnone : ∀ side, Event.descriptorsTo side events = Event.descriptorsTo side [] := by
      intro side
      rw [hwrites, Event.descriptorsTo_append, Event.descriptorsTo, Event.descriptorsTo,
        Event.writes_unpinned]
      rfl
    refine ⟨[], .single (.rolledBack hpins hrelease), .rolledBack hadmitted hshort hcalls, ?_⟩
    rw [counts_singleton x [] rfl hnone]
    show engine.tally.countRollback = _
    rw [Tally.countRollback_eq_plus]
    apply Tally.plus_congr
    intro c
    cases c <;> rfl
  | queued hadmitted hpins hwhole hrun =>
    rename_i admitted source dest p pause later
    obtain ⟨freed, hran⟩ := ran_of_run hrun
    -- The pin calls write nothing, so the descriptors are those of the run.
    have hdone : ∀ side, Event.descriptorsTo side events = Event.descriptorsTo side later := by
      intro side
      rw [hwrites, Event.descriptorsTo_append, Event.descriptorsTo_deeds]
      exact Nat.zero_add _
    rw [Event.pinnerCalls_append, Event.pinnerCalls_deeds, hran.calls] at hcalls
    refine ⟨freed, ?_, .queued hadmitted hwhole hcalls, ?_⟩
    · rw [show x.queued? engine.config = _ from queued?_of_run hadmitted hdeeds hrun]
      exact (Moves.single (.queued hadmitted hpins hwhole)).append hran.moves
    · rw [counts_singleton x freed (x.stalls_eq rfl) hdone, hran.tally]
      show (engine.tally.countSubmitted).plus _ = _
      rw [Tally.countSubmitted_eq_plus, Tally.plus_plus]
      apply Tally.plus_congr
      intro c
      cases c <;> rfl

/-- What a call does that answers. -/
theorem settled_of_act {call : Call R} {answer : Answer}
    (h : call.act engine = ⟨.ok answer, engine', events⟩) :
    let x : Exchange P R := ⟨call, ⟨.ok answer, engine', events⟩⟩
    ∃ freed, Moves (fun _ => True) engine (x.queued? engine.config).toList freed
        (Event.deeds events) engine' ∧
      x.Settles engine.config freed ∧ engine'.tally = engine.tally.plus (counts [x] freed) := by
  cases call with
  | submit request =>
    obtain ⟨result, hsubmit, rfl⟩ := act_submit_eq_ok h
    exact settled_of_submit hsubmit
  | poll =>
    obtain ⟨pause, hrun, rfl⟩ := act_poll_eq_ok h
    intro x
    obtain ⟨freed, hran⟩ := ran_of_run hrun
    refine ⟨freed, hran.moves, .polled hran.calls, ?_⟩
    rw [counts_singleton x freed (x.stalls_eq rfl) fun _ => rfl, hran.tally]
    apply Tally.plus_congr
    intro c
    cases c <;> exact (Nat.zero_add _).symm
  | hardware change =>
    obtain ⟨rfl, rfl, rfl⟩ := act_hardware_eq_ok h
    intro x
    refine ⟨[], .single (.hardware trivial), .changed, ?_⟩
    rw [counts_singleton x [] rfl fun _ => rfl]
    symm
    apply Tally.plus_of_zero
    intro c
    cases c <;> rfl

/-- What a history does in which every call answers: each call settles with the memory manager, and
the counters count what happened. -/
theorem settled_of_history {calls : List (Call R)} {log : List (Exchange P R)}
    (h : play calls engine = ⟨.ok (), final, log⟩) :
    ∃ freed : List (List Transfer),
      Moves (fun _ => True) engine (queuedTransfers engine.config log) freed.flatten
        (Event.deeds (record log)) final ∧
      List.Forall₂ (Exchange.Settles engine.config) log freed ∧
      final.tally = engine.tally.plus (counts log freed.flatten) := by
  induction calls generalizing engine log with
  | nil =>
    obtain ⟨-, rfl, rfl⟩ := Act.pure_eq_ok_iff.1 h
    refine ⟨[], .refl, .nil, ?_⟩
    symm
    apply Tally.plus_of_zero
    intro c
    cases c <;> rfl
  | cons call rest ih =>
    obtain ⟨_, mid, first, later, hperform, hrest, rfl⟩ := Act.bind_eq_ok_iff.1 h
    obtain ⟨answer, events, hact, rfl⟩ := perform_eq_ok hperform
    obtain ⟨one, hmoves, hsettles, htally⟩ := settled_of_act hact
    obtain ⟨more, hlater, hrestSettles, hrestTally⟩ := ih hrest
    -- The parameters stay, so the rest is read off with the same ones.
    rw [hmoves.config_eq] at hlater hrestSettles
    refine ⟨one :: more, ?_, .cons hsettles hrestSettles, ?_⟩
    · have hrecord : record (⟨call, ⟨.ok answer, mid, events⟩⟩ :: later) =
          events ++ record later := rfl
      rw [List.singleton_append, hrecord, Event.deeds_append, queuedTransfers_cons]
      exact hmoves.append hlater
    · rw [hrestTally, htally, Tally.plus_plus]
      apply Tally.plus_congr
      intro c
      exact (counts_append [_] later one more.flatten c).symm

end Engine

end DmaQueue
