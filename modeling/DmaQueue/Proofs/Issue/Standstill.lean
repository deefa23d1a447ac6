/-
  DmaQueue.Proofs.Issue.Standstill

  Polling again while the hardware stands still.  The turn that ends the issue
  loop leaves an engine that is `Idle`: at the depths that its control block
  keeps reporting, what could be reclaimed is reclaimed, and nothing more can be
  written.  So the next turn reads the depths and ends the loop at once, and all
  that it can change is the number of stalls; the engine that it leaves is idle
  again (`standstill_of_poll`).
-/
import DmaQueue.Proofs.Issue.Backpressure
import DmaQueue.Proofs.Register.Quiet
import DmaQueue.Proofs.Tally

namespace DmaQueue.Engine

open Registers (Quiet)

variable {P R : Type}

/-! ## Waiting -/

/-- The engine after `n` polls that found nothing to do: each counts a stall if a transfer is
pending, and nothing else changes. -/
def waited (engine : Engine P R) (n : Nat) : Engine P R :=
  { engine with
    tally := { engine.tally with
      stalls :=
        Word.saturatingAdd engine.tally.stalls (if engine.pending.isEmpty then 0 else n) } }

variable {engine engine' rested : Engine P R} {depths : Depths} {seen : List Event}

theorem waited_zero (engine : Engine P R) : engine.waited 0 = engine := by
  unfold waited
  rw [ite_self, Word.saturatingAdd_zero]

/-- Nothing is counted while nothing is pending. -/
theorem waited_of_drained (h : engine.pending = []) (n : Nat) : engine.waited n = engine := by
  unfold waited
  rw [h, List.isEmpty_nil, if_pos rfl, Word.saturatingAdd_zero, ← h]

theorem countStall_waited {t : Transfer} {rest : List Transfer} (h : engine.pending = t :: rest)
    (n : Nat) :
    { engine.waited n with tally := (engine.waited n).tally.countStall } =
      engine.waited (n + 1) := by
  unfold waited Tally.countStall
  rw [h, List.isEmpty_cons]
  simp only [Bool.false_eq_true, ↓reduceIte, Word.saturatingAdd_saturatingAdd]

/-! ## Idle engines -/

variable [Registers R]

/-- The control block reports these depths and stays as it is, and at these depths there is nothing
to do: nothing is in flight that an empty destination FIFO would give back, and nothing more can be
written. -/
structure Idle (engine : Engine P R) (depths : Depths) (seen : List Event) : Prop where
  sample : Registers.sample engine.registers = ⟨.ok depths, engine.registers, seen⟩
  reclaimed : depths.dest = 0 → engine.inFlight = []
  heldUp : engine.HeldUp depths

/-- The note that a sample leaves. -/
def depthNote (depths : Depths) : Event :=
  .noted ⟨.trace,
    s!"[ACCEL] depth src={depths.source.toNat} dest={depths.dest.toNat}"⟩

/-- The note that a stall leaves. -/
def stallNote (side : Side) : Event :=
  .noted ⟨.trace, s!"[ACCEL] {side.label} FIFO full, yielding"⟩

namespace Idle

/-- Only the parameters, the control block and the queues matter. -/
theorem waited (h : engine.Idle depths seen) (n : Nat) : (engine.waited n).Idle depths seen :=
  ⟨h.sample, h.reclaimed, h.heldUp⟩

theorem sample_eq (h : engine.Idle depths seen) :
    Engine.sample engine = ⟨.ok depths, engine, seen ++ ([depthNote depths] ++ [])⟩ :=
  Act.bind_ok (onRegisters_apply h.sample) rfl

theorem reclaimIfDrained_eq [Pinner P] (h : engine.Idle depths seen) :
    reclaimIfDrained depths engine = ⟨.ok (), engine, []⟩ := by
  -- An empty destination FIFO gives back nothing, since nothing is in flight.
  have hnone : ¬(depths.dest = 0 ∧ engine.inFlight ≠ []) := fun ⟨hdrained, hflight⟩ =>
    hflight (h.reclaimed hdrained)
  show (if depths.dest = 0 ∧ engine.inFlight ≠ [] then reclaim else Pure.pure ()) engine = _
  rw [if_neg hnone]
  rfl

/-- The head, if there is one, stalls: a stall is counted, and noted. -/
theorem serveFirst_eq (h : engine.Idle depths seen) :
    ∃ pause notes, Event.deeds notes = [] ∧ ∀ n,
      serveFirst depths engine.pending (engine.waited n) =
        ⟨.ok (some pause), engine.waited (n + 1), notes⟩ := by
  rcases h.heldUp with hq | ⟨t, rest, side, index, hq, htarget, hfull⟩
  · refine ⟨.drained, [], rfl, fun n => ?_⟩
    rw [hq, waited_of_drained hq, waited_of_drained hq]
    rfl
  · refine ⟨.blocked side, [stallNote side], rfl, fun n => ?_⟩
    -- The issuer writes nothing, so the head stays in its place.
    have hissue : onIssuer t rest (Issuer.step engine.config depths) (engine.waited n) =
        ⟨.ok (.stalled side), { engine.waited n with pending := t :: rest }, []⟩ :=
      Act.zoom_eq_ok_iff.2 ⟨⟨t, engine.registers⟩, Issuer.step_of_full htarget hfull, rfl⟩
    have hsame : { engine.waited n with pending := t :: rest } = engine.waited n := by
      rw [← hq]
      rfl
    rw [hsame] at hissue
    rw [hq, ← countStall_waited hq]
    exact Act.bind_of_ok hissue

variable [Pinner P]

/-- A turn that begins with an idle engine ends the loop at once. -/
theorem turn_eq (h : engine.Idle depths seen) :
    ∃ pause events, Event.deeds events = depths.reads ∧ ∀ n,
      turn (engine.waited n) = ⟨.ok (some pause), engine.waited (n + 1), events⟩ := by
  obtain ⟨pause, notes, hnotes, hserve⟩ := h.serveFirst_eq
  refine ⟨pause, seen ++ ([depthNote depths] ++ []) ++ ([] ++ notes), ?_, fun n => ?_⟩
  · have hreads : Event.deeds seen = depths.reads := Registers.deeds_of_sample h.sample
    simp [hreads, hnotes, depthNote]
  · exact Act.bind_ok (h.waited n).sample_eq
      (Act.bind_ok (h.waited n).reclaimIfDrained_eq (hserve n))

/-- So does a poll, and it answers whether work is left. -/
theorem act_poll_eq (h : engine.Idle depths seen) :
    ∃ events, Event.deeds events = depths.reads ∧ ∀ n,
      (Call.poll : Call R).act (engine.waited n) =
        ⟨.ok (.polled engine.hasWork), engine.waited (n + 1), events⟩ := by
  obtain ⟨pause, events, hdeeds, hturn⟩ := h.turn_eq
  refine ⟨events, hdeeds, fun n => ?_⟩
  have hpoll : poll (engine.waited n) =
      ⟨.ok engine.hasWork, engine.waited (n + 1), events ++ []⟩ :=
    Act.bind_ok (run_of_turn_eq_some (hturn n)) rfl
  rw [List.append_nil] at hpoll
  exact (Act.bind_pure_apply poll _ _).trans (congrArg (Outcome.map Answer.polled) hpoll)

/-- What one poll leaves, the next one begins with. -/
theorem play_polls (h : engine.Idle depths seen) :
    ∃ events, Event.deeds events = depths.reads ∧ ∀ n k,
      play (List.replicate n (.poll : Call R)) (engine.waited k) =
        ⟨.ok (), engine.waited (k + n), (List.range' k n).map fun i =>
          ⟨.poll, ⟨.ok (.polled engine.hasWork), engine.waited (i + 1), events⟩⟩⟩ := by
  obtain ⟨events, hdeeds, hpoll⟩ := h.act_poll_eq
  refine ⟨events, hdeeds, fun n => ?_⟩
  -- On the polls that are left, from any number of polls before.
  induction n with
  | zero => exact fun k => rfl
  | succ n ih =>
    intro k
    rw [List.replicate_succ, play_cons_of_ok (hpoll k), ih (k + 1), Nat.add_right_comm]
    rfl

end Idle

/-! ## The turn that ends the loop -/

variable [Pinner P] {still : R → Prop} {pause : Pause} {events : List Event}

omit [Registers R] in
/-- At an empty destination FIFO nothing stays in flight. -/
theorem Reclaims.inFlight_eq_nil (h : Reclaims depths engine engine' events)
    (hdrained : depths.dest = 0) : engine'.inFlight = [] := by
  cases h with
  | kept hbusy => exact absurd hdrained hbusy
  | freed => rfl

/-- The turn that ends the loop has reclaimed first, so it leaves nothing to be done. -/
theorem idle_of_turn (hquiet : Quiet still) (hstill : still engine.registers)
    (h : turn engine = ⟨.ok (some pause), rested, events⟩) :
    ∃ depths seen, rested.Idle depths seen := by
  obtain ⟨depths, registers, seen, mid, _, _, hsample, hreclaim, hserve, -⟩ := turn_eq_ok h
  obtain rfl := hquiet.eq_of_sample hstill hsample
  -- Nothing is written after the sample, so the next one reads the same.
  have hregisters : mid.registers = engine.registers := hreclaim.registers_eq
  rw [← hregisters] at hsample
  refine ⟨depths, seen, ?_⟩
  cases hserve with
  | drained hq => exact ⟨hsample, hreclaim.inFlight_eq_nil, .inl hq⟩
  | @stalled t rest side index hq htarget hfull =>
    exact ⟨hsample, hreclaim.inFlight_eq_nil, .inr ⟨t, rest, side, index, hq, htarget, hfull⟩⟩

/-- The descriptors that the turns before it write change the depths, but the control block still
stands still. -/
theorem idle_of_run (hquiet : Quiet still) (hstill : still engine.registers)
    (h : run engine = ⟨.ok pause, rested, events⟩) : ∃ depths seen, rested.Idle depths seen := by
  have hturn := keeps_turn_of_accesses (P := P) hquiet.keeps_load hquiet.store
  have hgoes : ∀ {e e' : Engine P R} {later : List Event}, still e.registers →
      turn e = ⟨.ok none, e', later⟩ → still e'.registers := by
    intro e e' _ he hone
    have hnext := hturn e he
    rw [hone] at hnext
    exact hnext
  exact run_rec (I := fun e _ => still e.registers)
    (J := fun _ e _ => ∃ depths seen, e.Idle depths seen) hgoes
    (fun he hone => idle_of_turn hquiet he hone) [] hstill h

/-- After a poll that answers, over a control block that reads leave as it is, any number of further
polls give the same answer: each reads the depths once, writes no register, does not call on the
memory manager, and leaves the engine as it was but for a stall that it counts if a transfer is
pending.  FIFOs with no prepared readings are such a control block, and so is plain memory. -/
theorem standstill_of_poll :
    (∀ {P R : Type} [Pinner P] [Registers R] {still : R → Prop} {engine rested : Engine P R}
      {busy : Bool} {events : List Event}, Quiet still → still engine.registers →
      poll engine = ⟨.ok busy, rested, events⟩ →
      ∃ depths seen, Event.deeds seen = Depths.reads depths ∧
        ∀ n, play (List.replicate n .poll) rested =
          ⟨.ok (), rested.waited n, (List.range n).map fun k =>
            ⟨.poll, ⟨.ok (.polled busy), rested.waited (k + 1), seen⟩⟩⟩) ∧
    Quiet FifoPair.Unscripted ∧ Quiet fun _ : RegisterWindow => True := by
  refine ⟨?_, FifoPair.quiet_unscripted, RegisterWindow.quiet⟩
  intro P R _ _ still engine rested busy events hquiet hstill hpoll
  obtain ⟨pause, hrun, rfl⟩ := poll_eq_ok hpoll
  obtain ⟨depths, _, hidle⟩ := idle_of_run hquiet hstill hrun
  obtain ⟨seen, hdeeds, hpolls⟩ := hidle.play_polls
  refine ⟨depths, seen, hdeeds, fun n => ?_⟩
  have hfirst := hpolls n 0
  rw [waited_zero, Nat.zero_add, ← List.range_eq_range'] at hfirst
  exact hfirst

/-- The poll that fills the destination FIFO writes three descriptors; three polls after it write
nothing, and count three stalls. -/
theorem standstill_of_smallHistory :
    let rested := (poll (play (smallHistory.take 3) smallEngine).state).state
    rested.pending.length = 1 ∧ rested.tally.stalls = 2 ∧
      (play (List.replicate 3 .poll) rested).state = rested.waited 3 ∧
      ∃ depths, ∀ x ∈ (play (List.replicate 3 .poll) rested).events,
        x.outcome.result = .ok (.polled true) ∧
          Event.deeds x.outcome.events = Depths.reads depths := by
  intro rested
  have hstill : (play (smallHistory.take 3) smallEngine).state.registers.Unscripted := by
    intro side
    cases side <;> decide +kernel
  have hanswer : (poll (play (smallHistory.take 3) smallEngine).state).result = .ok true := by
    decide +kernel
  obtain ⟨depths, seen, hdeeds, hpolls⟩ :=
    standstill_of_poll.1 standstill_of_poll.2.1 hstill (Outcome.eq_of_result hanswer)
  refine ⟨by decide +kernel, by decide +kernel, ?_, depths, ?_⟩
  · rw [hpolls 3]
  · rw [hpolls 3]
    intro x hx
    obtain ⟨k, -, rfl⟩ := List.mem_map.1 hx
    exact ⟨rfl, hdeeds⟩

end DmaQueue.Engine
