/-
  DmaQueue.Proofs.Engine.Termination

  How long the issue loop takes.  Every turn that goes on writes one descriptor
  of the pending transfers, whatever depths it reads, so the loop ends after as
  many turns as descriptors are left, and one more.  Each turn reads both depths
  once.
-/
import DmaQueue.Proofs.Act.Counting
import DmaQueue.Proofs.Engine.Loop

namespace DmaQueue

open Act (LeavesAtMost)

/-! ## Descriptors that are left -/

namespace Progress

variable {n m : Nat} {p : Progress}

theorem remaining_add_written (h : p.Underway n m ∨ p = .sent) (hn : 1 ≤ n) (hm : 1 ≤ m) :
    p.remaining n m + p.written n m = n + m := by
  cases p <;>
    simp only [Underway, reduceCtorEq, or_false, remaining, written, sourceCursor,
      destCursor] at h ⊢ <;>
    omega

/-- One more descriptor leaves one less. -/
theorem remaining_advance (h : p.Underway n m) (hn : 1 ≤ n) (hm : 1 ≤ m) :
    (p.advance n m).remaining n m + 1 = p.remaining n m := by
  have hbefore := remaining_add_written (.inl h) hn hm
  have hafter := remaining_add_written (underway_advance h) hn hm
  have hwritten := written_advance hn hm h
  omega

end Progress

namespace Transfer

/-- The descriptors of some transfers that are still to be written: the pages of both sides, less
the two cursors. -/
def unwritten : List Transfer → Nat
  | [] => 0
  | t :: rest =>
    (t.source.pageCount - t.cursor .source) + (t.dest.pageCount - t.cursor .dest) + unwritten rest

theorem unwritten_cons (t : Transfer) (rest : List Transfer) :
    unwritten (t :: rest) = t.remaining + unwritten rest := rfl

theorem UnderWay.remaining_advance {t : Transfer} (h : t.UnderWay) :
    t.advance.remaining + 1 = t.remaining :=
  Progress.remaining_advance h.progress h.source h.dest

theorem remaining_of_sent {t : Transfer} (h : t.progress = .sent) : t.remaining = 0 := by
  simp [remaining, h, Progress.remaining, Progress.sourceCursor, Progress.destCursor]

end Transfer

namespace Engine

open Transfer (unwritten InTurn)

variable {P R : Type} [Pinner P] [Registers R] {engine next reached entered : Engine P R}
  {depths : Depths} {events : List Event}

/-! ## One turn -/

omit [Registers R] in
theorem Reclaims.pending_eq (h : Reclaims depths engine next events) :
    next.pending = engine.pending := by
  cases h <;> rfl

omit [Pinner P] in
/-- The descriptors that a service writes were left before: one if the loop goes on, and none if it
ends. -/
theorem Serves.unwritten_eq {pause? : Option Pause} (hinTurn : InTurn engine.pending)
    (h : Serves depths engine pause? next events) :
    Event.descriptors events = (if pause? = none then 1 else 0) ∧
      Event.descriptors events + unwritten next.pending = unwritten engine.pending := by
  cases h with
  | drained => exact ⟨rfl, Nat.zero_add _⟩
  | stalled => exact ⟨rfl, Nat.zero_add _⟩
  | @sent t rest side index d registers written hq =>
    rw [hq] at hinTurn
    have hone : Event.descriptors
        [.stored side.lowOffset d.low, .stored side.highOffset d.high] = 1 := by
      cases side <;> rfl
    have hless := hinTurn.1.remaining_advance
    refine ⟨hone, ?_⟩
    rw [hone, hq, Transfer.unwritten_cons]
    unfold headWritten
    split
    · rename_i hsent
      -- The head leaves the queue, and its last descriptor was the one that was left.
      have hnone := Transfer.remaining_of_sent (Progress.isSent_eq_true_iff.1 hsent)
      show 1 + unwritten rest = _
      omega
    · show 1 + unwritten (t.advance :: rest) = _
      rw [Transfer.unwritten_cons]
      omega
  | complete hq htarget => exact absurd htarget (hinTurn.target?_ne_none hq)

/-- The descriptors that a turn writes were left before: one if the loop goes on, and none if it
ends. -/
theorem unwritten_of_turn {pause? : Option Pause} (hinTurn : InTurn engine.pending)
    (h : turn engine = ⟨.ok pause?, next, events⟩) :
    Event.descriptors events = (if pause? = none then 1 else 0) ∧
      Event.descriptors events + unwritten next.pending = unwritten engine.pending := by
  obtain ⟨depths, registers, seen, mid, freed, written, -, hreclaim, hserve, hdeeds⟩ :=
    turn_eq_ok h
  have hpending : mid.pending = engine.pending := hreclaim.pending_eq
  have hserved := hserve.unwritten_eq (hpending ▸ hinTurn)
  rw [hpending] at hserved
  have hwrites : Event.writes events = Event.writes written := by
    have hnone : Event.writes freed = [] := hreclaim.filterMap_eq_nil fun _ _ => rfl
    rw [← Event.writes_deeds, hdeeds, Event.writes_append, Event.writes_append, hnone]
    rfl
  have hcount : Event.descriptors events = Event.descriptors written := by
    rw [Event.descriptors, Event.descriptors, hwrites]
  rw [hcount]
  exact hserved

/-! ## The whole loop -/

/-- The issue loop with at most `n` turns. -/
def runWithin : Nat → Engine P R → Option (Outcome Event (Engine P R) Pause)
  | 0, _ => none
  | n + 1, engine =>
    match turn engine with
    | ⟨.ok none, next, events⟩ => (runWithin n next).map (·.after events)
    | ⟨.ok (some pause), next, events⟩ => some ⟨.ok pause, next, events⟩
    | ⟨.error fault, next, events⟩ => some ⟨.error fault, next, events⟩

/-- The loop ends after as many turns as there are descriptors left, and one more. -/
theorem runWithin_unwritten (h : entered.Orderly) :
    runWithin (unwritten entered.pending + 1) entered = some (run entered) := by
  have hfrom : ∀ n reached, entered.Turns reached → unwritten reached.pending < n →
      runWithin n reached = some (run reached) := by
    intro n
    induction n with
    | zero => exact fun reached _ hn => absurd hn (Nat.not_lt_zero _)
    | succ n ih =>
      intro reached hreached hn
      unfold runWithin
      cases hone : turn reached with
      | mk result next events =>
        cases result with
        | error fault => rw [run_of_turn_eq_error hone]
        | ok pause? =>
          cases pause? with
          | some pause => rw [run_of_turn_eq_some hone]
          | none =>
            -- The turn has written one of the descriptors that were left.
            obtain ⟨hwritten, hless⟩ := unwritten_of_turn (h.turns hreached).inTurn hone
            rw [if_pos rfl] at hwritten
            have hnext := ih next (hreached.next hone) (by omega)
            simp only [hnext, run_of_turn_eq_none hone, Option.map_some]
  exact hfrom _ entered .first (Nat.lt_succ_self _)

/-- A run that answers leaves as many descriptors fewer as it writes. -/
theorem unwritten_of_run {pause : Pause} {final : Engine P R} (h : entered.Orderly)
    (hrun : run entered = ⟨.ok pause, final, events⟩) :
    Event.descriptors events + unwritten final.pending = unwritten entered.pending := by
  have hgoes : ∀ {e e' : Engine P R} {pause? past seen},
      Event.descriptors past + unwritten e.pending = unwritten entered.pending →
      InTurn e.pending → turn e = ⟨.ok pause?, e', seen⟩ →
      Event.descriptors (past ++ seen) + unwritten e'.pending = unwritten entered.pending := by
    intro e e' pause? past seen hpast hinTurn hone
    obtain ⟨-, hless⟩ := unwritten_of_turn hinTurn hone
    rw [Event.descriptors_append]
    omega
  have hbegin : entered.Turns entered ∧
      Event.descriptors [] + unwritten entered.pending = unwritten entered.pending :=
    ⟨.first, Nat.zero_add _⟩
  exact run_rec
    (I := fun e past => entered.Turns e ∧
      Event.descriptors past + unwritten e.pending = unwritten entered.pending)
    (J := fun _ e past => Event.descriptors past + unwritten e.pending = unwritten entered.pending)
    (fun hpast hone => ⟨hpast.1.next hone, hgoes hpast.2 (h.turns hpast.1).inTurn hone⟩)
    (fun hpast hone => hgoes hpast.2 (h.turns hpast.1).inTurn hone) [] hbegin hrun

/-! ## How often the depths are read -/

/-- Notes are no readings. -/
theorem isReading_noted {side : Side} (note : Note) : Event.isReading side (.noted note) = false :=
  rfl

omit [Pinner P] in
/-- A sample reads each depth once. -/
theorem leavesAtMost_sample (side : Side) :
    LeavesAtMost (Event.isReading side) 1 (sample : Act Event (Engine P R) Depths) := by
  have hread : ∀ offset, LeavesAtMost (Event.isReading side) 1
      (Registers.read offset : Act Event R UInt32) := fun offset =>
    .none_bind (.mapEvents isReading_noted _) fun _ => .bind_none (.emit _) fun _ => .pure _
  have hother : ∀ offset, (offset == side.depthOffset) = false →
      LeavesAtMost (Event.isReading side) 0 (Registers.read offset : Act Event R UInt32) :=
    fun offset h =>
      .none_bind (.mapEvents isReading_noted _) fun _ =>
        .none_bind (.emit_of_neg h) fun _ => .pure _
  -- One of the two reads is that of the other depth.
  have hboth : LeavesAtMost (Event.isReading side) 1
      (Registers.sample : Act Event R Depths) := by
    cases side with
    | source =>
      exact .bind_none (hread _) fun _ => .none_bind (hother _ rfl) fun _ => .pure _
    | dest => exact .none_bind (hother _ rfl) fun _ => .bind_none (hread _) fun _ => .pure _
  exact .bind_none (.zoom hboth) fun _ =>
    .none_bind (.emit_of_neg (isReading_noted _)) fun _ => .pure _

omit [Registers R] in
/-- Nothing is read while transfers are reclaimed. -/
theorem leavesAtMost_reclaimIfDrained (side : Side) (depths : Depths) :
    LeavesAtMost (Event.isReading side) 0
      (reclaimIfDrained depths : Act Event (Engine P R) Unit) := by
  have hunpinAll : ∀ dirty pages, LeavesAtMost (Event.isReading side) 0
      (Pinner.unpinAll dirty pages : Act Event P Unit) := by
    intro dirty pages
    induction pages with
    | nil => exact .pure _
    | cons page rest ih =>
      have hpage : LeavesAtMost (Event.isReading side) 0
          (Pinner.unpinPage page dirty : Act Event P Unit) :=
        .none_bind (.mapEvents isReading_noted _) fun _ => .emit_of_neg rfl
      exact .none_bind hpage fun _ => ih
  have hreclaimAll : ∀ ts, LeavesAtMost (Event.isReading side) 0
      (reclaimAll ts : Act Event (Engine P R) Unit) := by
    intro ts
    induction ts with
    | nil => exact .pure _
    | cons t rest ih =>
      exact .none_bind (.modify _) fun _ =>
        .none_bind (.zoom (.none_bind (hunpinAll _ _) fun _ => hunpinAll _ _)) fun _ =>
          .none_bind (.modify _) fun _ => ih
  refine .get_bind fun engine => ?_
  split
  · exact .get_bind fun engine =>
      .none_bind (hreclaimAll _) fun _ => .emit_of_neg (isReading_noted _)
  · exact .pure _

omit [Pinner P] in
/-- Nothing is read while a descriptor is issued. -/
theorem leavesAtMost_step (side : Side) (config : Config) (depths : Depths) :
    LeavesAtMost (Event.isReading side) 0
      (Issuer.step config depths : Act Event (Issuer R) Report) := by
  have hwrite : ∀ offset value, LeavesAtMost (Event.isReading side) 0
      (Registers.write offset value : Act Event R Unit) := fun offset value =>
    .none_bind (.mapEvents isReading_noted _) fun _ => .emit_of_neg rfl
  refine .get_bind fun issuer => .none_bind (.ofExcept _) fun next => ?_
  cases next with
  | stalled other => exact .pure _
  | send other d =>
    exact .none_bind (.emit_of_neg (isReading_noted _)) fun _ =>
      .none_bind (.zoom (.none_bind (hwrite _ _) fun _ => hwrite _ _)) fun _ =>
        .none_bind (.modify _) fun _ => .pure _
  | complete => exact .pure _

omit [Pinner P] in
/-- Nothing is read while the head is served. -/
theorem leavesAtMost_serveFirst (side : Side) (depths : Depths) (pending : List Transfer) :
    LeavesAtMost (Event.isReading side) 0
      (serveFirst depths pending : Act Event (Engine P R) (Option Pause)) := by
  cases pending with
  | nil => exact .pure _
  | cons t rest =>
    refine .get_bind fun engine =>
      .none_bind (.zoom (leavesAtMost_step side engine.config depths)) fun report => ?_
    cases report with
    | issued other => exact .none_bind (.modify _) fun _ => .pure _
    | finished other =>
      exact .none_bind (.modify _) fun _ => .none_bind (.modify _) fun _ => .pure _
    | stalled other =>
      exact .none_bind (.modify _) fun _ =>
        .none_bind (.emit_of_neg (isReading_noted _)) fun _ => .pure _
    | alreadySent => exact .none_bind (.modify _) fun _ => .pure _

/-- A turn reads each depth once at most, also if it faults. -/
theorem leavesAtMost_turn (side : Side) :
    LeavesAtMost (Event.isReading side) 1 (turn : Act Event (Engine P R) (Option Pause)) :=
  .bind_none (leavesAtMost_sample side) fun depths =>
    .none_bind (leavesAtMost_reclaimIfDrained side depths) fun _ =>
      .get_bind fun engine => leavesAtMost_serveFirst side depths engine.pending

/-- A loop of at most `n` turns reads each depth at most `n` times. -/
theorem readings_of_runWithin {n : Nat} {side : Side}
    {outcome : Outcome Event (Engine P R) Pause} (h : runWithin n engine = some outcome) :
    Event.readings side outcome.events ≤ n := by
  induction n generalizing engine outcome with
  | zero => simp [runWithin] at h
  | succ n ih =>
    have hfirst := leavesAtMost_turn side engine
    unfold runWithin at h
    cases hone : turn engine with
    | mk result next events =>
      rw [hone] at h hfirst
      cases result with
      | error fault =>
        obtain rfl := Option.some.inj h
        exact Nat.le_trans hfirst (Nat.le_add_left 1 n)
      | ok pause? =>
        cases pause? with
        | some pause =>
          obtain rfl := Option.some.inj h
          exact Nat.le_trans hfirst (Nat.le_add_left 1 n)
        | none =>
          obtain ⟨later, hlater, rfl⟩ := Option.map_eq_some_iff.1 h
          have hrest := ih hlater
          show (events ++ later.events).countP (Event.isReading side) ≤ n + 1
          rw [List.countP_append]
          exact Nat.add_comm 1 n ▸ Nat.add_le_add hfirst hrest

/-! ## Every call ends -/

/-- After a history in which every call answered, let the next call enter the loop.  With `r`
descriptors left in the queue then, the loop ends within `r + 1` turns, with an answer or with a
fault, and has read each depth `r + 1` times at most. -/
theorem run_ends_of_play {config : Config} {pinner : P} {registers : R} {notes : List Note}
    {start final : Engine P R} {calls : List (Call R)} {log : List (Exchange P R)}
    (hcreate : create config pinner registers = (notes, .ok start))
    (hplay : play calls start = ⟨.ok (), final, log⟩) :
    ∀ call entered, final.Enters call entered →
      runWithin (unwritten entered.pending + 1) entered = some (run entered) ∧
        ∀ side, Event.readings side (run entered).events ≤ unwritten entered.pending + 1 := by
  intro call entered henters
  have hends := runWithin_unwritten ((orderly_of_play hcreate hplay).enters henters)
  exact ⟨hends, fun side => readings_of_runWithin hends⟩

/-- Four descriptors are left after the first submission of the small history, so a poll that
follows reads each depth five times at most. -/
theorem run_ends_of_smallSubmission :
    let final := (play (smallHistory.take 1) smallEngine).state
    unwritten final.pending = 4 ∧ runWithin 5 final = some (run final) ∧
      ∀ side, Event.readings side (run final).events ≤ 5 := by
  have hleft : unwritten (play (smallHistory.take 1) smallEngine).state.pending = 4 := by
    decide +kernel
  have hends := run_ends_of_play create_smallEngine play_smallSubmission _ _ .polled
  rw [hleft] at hends
  exact ⟨hleft, hends⟩

end Engine

end DmaQueue
