/-
  DmaQueue.Proofs.Transfer.Issuer

  What a step of an issuer does.  It asks the transfer what is next; only a
  descriptor that goes out touches the registers (`step_of_send`).  A step that
  answers stalls, writes one descriptor, or finds that all are written
  (`step_eq_ok`).
-/
import DmaQueue.Proofs.Trace.Deeds
import DmaQueue.Transfer.Issuer

namespace DmaQueue

/-! ## What a transfer asks for -/

namespace Transfer

variable {t : Transfer} {config : Config} {depths : Depths} {side : Side}

/-- What a transfer that does not stall has to report. -/
def due (t : Transfer) : Report :=
  match t.progress.target? with
  | none => .alreadySent
  | some (side, _) => if t.advance.progress.isSent then .finished side else .issued side

/-- A transfer that is not complete waits for the FIFO of its next chunk or sends that chunk. -/
theorem step_of_target {index : Nat} (h : t.progress.target? = some (side, index)) :
    t.step config depths =
      if depths.of side = config.fifoFull then .ok (.stalled side)
      else (t.descriptor config.pageSize side index).map (Step.send side) := by
  unfold step
  rw [h]
  simp only
  split
  · rfl
  · cases t.descriptor config.pageSize side index <;> rfl

theorem target_of_step_stalled (h : t.step config depths = .ok (.stalled side)) :
    ∃ index, t.progress.target? = some (side, index) ∧ depths.of side = config.fifoFull := by
  cases htarget : t.progress.target? with
  | none => simp [step, htarget, pure, Except.pure] at h
  | some target =>
    obtain ⟨side', index⟩ := target
    rw [step_of_target htarget] at h
    split at h
    · rename_i hfull
      simp only [Except.ok.injEq, Step.stalled.injEq] at h
      subst h
      exact ⟨index, rfl, hfull⟩
    · cases hd : t.descriptor config.pageSize side' index <;> simp [hd, Except.map] at h

theorem target_of_step_send {d : Descriptor} (h : t.step config depths = .ok (.send side d)) :
    ∃ index, t.progress.target? = some (side, index) ∧ depths.of side ≠ config.fifoFull ∧
      t.descriptor config.pageSize side index = .ok d := by
  cases htarget : t.progress.target? with
  | none => simp [step, htarget, pure, Except.pure] at h
  | some target =>
    obtain ⟨side', index⟩ := target
    rw [step_of_target htarget] at h
    split at h
    · simp at h
    · rename_i hroom
      cases hd : t.descriptor config.pageSize side' index with
      | error fault => simp [hd, Except.map] at h
      | ok d' =>
        simp only [hd, Except.map, Except.ok.injEq, Step.send.injEq] at h
        obtain ⟨rfl, rfl⟩ := h
        exact ⟨index, rfl, hroom, hd⟩

theorem target_of_step_complete (h : t.step config depths = .ok .complete) :
    t.progress.target? = none := by
  cases htarget : t.progress.target? with
  | none => rfl
  | some target =>
    rw [step_of_target htarget] at h
    split at h
    · simp at h
    · cases hd : t.descriptor config.pageSize target.1 target.2 <;> simp [hd, Except.map] at h

theorem target_of_step_error {fault : Fault} (h : t.step config depths = .error fault) :
    ∃ side index, t.progress.target? = some (side, index) ∧
      t.descriptor config.pageSize side index = .error fault := by
  cases htarget : t.progress.target? with
  | none => simp [step, htarget, pure, Except.pure] at h
  | some target =>
    obtain ⟨side', index⟩ := target
    rw [step_of_target htarget] at h
    split at h
    · simp at h
    · cases hd : t.descriptor config.pageSize side' index with
      | error fault' =>
        simp only [hd, Except.map, Except.error.injEq] at h
        exact ⟨side', index, rfl, h ▸ hd⟩
      | ok d => simp [hd, Except.map] at h

theorem due_of_target {index : Nat} (h : t.progress.target? = some (side, index)) :
    t.due = if t.advance.progress.isSent then .finished side else .issued side := by
  rw [due, h]

end Transfer

namespace Issuer

variable {R : Type} [Registers R] {config : Config} {depths : Depths} {issuer issuer' : Issuer R}
  {report : Report} {side : Side} {d : Descriptor} {registers : R} {events : List Event}
  {fault : Fault}

/-! ## One step -/

/-- What is noted of a descriptor that goes out. -/
def issueNote (side : Side) (d : Descriptor) : Event :=
  .noted ⟨.trace, s!"[ACCEL] issue {side.label} {Hex.padded 16 d.raw.toNat}"⟩

theorem step_of_error (h : issuer.transfer.step config depths = .error fault) :
    step config depths issuer = ⟨.error fault, issuer, []⟩ :=
  Act.bind_of_error (m := Act.ofExcept _) (congrArg (Outcome.mk · issuer []) h)

theorem step_of_stalled (h : issuer.transfer.step config depths = .ok (.stalled side)) :
    step config depths issuer = ⟨.ok (.stalled side), issuer, []⟩ :=
  Act.bind_of_ok (m := Act.ofExcept _) (congrArg (Outcome.mk · issuer []) h)

theorem step_of_complete (h : issuer.transfer.step config depths = .ok .complete) :
    step config depths issuer = ⟨.ok .alreadySent, issuer, []⟩ :=
  Act.bind_of_ok (m := Act.ofExcept _) (congrArg (Outcome.mk · issuer []) h)

/-- Nothing is written to a full FIFO. -/
theorem step_of_full {index : Nat} (htarget : issuer.transfer.progress.target? = some (side, index))
    (hfull : depths.of side = config.fifoFull) :
    step config depths issuer = ⟨.ok (.stalled side), issuer, []⟩ :=
  step_of_stalled (by rw [Transfer.step_of_target htarget, if_pos hfull])

/-- Nothing is written of a transfer that is sent. -/
theorem step_of_sent (h : issuer.transfer.progress = .sent) :
    step config depths issuer = ⟨.ok .alreadySent, issuer, []⟩ :=
  step_of_complete (by rw [Transfer.step, h]; rfl)

/-- The transfer advances once its descriptor is written. -/
theorem step_of_send (h : issuer.transfer.step config depths = .ok (.send side d))
    (hpush : Registers.push side d issuer.registers = ⟨.ok (), registers, events⟩) :
    step config depths issuer =
      ⟨.ok issuer.transfer.due, ⟨issuer.transfer.advance, registers⟩,
        issueNote side d :: (events ++ [])⟩ := by
  -- The push is about the registers alone, and finds the transfer where it was.
  have hwrite : Act.zoom Issuer.registers (fun registers issuer => { issuer with registers })
      (Registers.push side d) issuer = ⟨.ok (), ⟨issuer.transfer, registers⟩, events⟩ :=
    Act.zoom_eq_ok_iff.2 ⟨registers, hpush, rfl⟩
  obtain ⟨index, htarget, -, -⟩ := Transfer.target_of_step_send h
  rw [Transfer.due_of_target htarget]
  refine (Act.bind_of_ok (m := Act.ofExcept _) (congrArg (Outcome.mk · issuer []) h)).trans ?_
  exact congrArg (Outcome.after [issueNote side d]) (Act.bind_of_ok hwrite)

theorem step_of_send_of_error (h : issuer.transfer.step config depths = .ok (.send side d))
    (hpush : Registers.push side d issuer.registers = ⟨.error fault, registers, events⟩) :
    step config depths issuer =
      ⟨.error fault, ⟨issuer.transfer, registers⟩, issueNote side d :: events⟩ := by
  have hwrite : Act.zoom Issuer.registers (fun registers issuer => { issuer with registers })
      (Registers.push side d) issuer = ⟨.error fault, ⟨issuer.transfer, registers⟩, events⟩ := by
    unfold Act.zoom
    rw [hpush]
  refine (Act.bind_of_ok (m := Act.ofExcept _) (congrArg (Outcome.mk · issuer []) h)).trans ?_
  exact congrArg (Outcome.after [issueNote side d]) (Act.bind_of_error hwrite)

/-! ## What a step does -/

/-- A step that answers stalls, or writes the next descriptor, or finds nothing left to write. -/
inductive Issues (config : Config) (depths : Depths) (issuer : Issuer R) :
    Report → Issuer R → List Event → Prop
  | stalled {side : Side} {index : Nat}
      (htarget : issuer.transfer.progress.target? = some (side, index))
      (hfull : depths.of side = config.fifoFull) :
      Issues config depths issuer (.stalled side) issuer []
  | sent {side : Side} {index : Nat} {d : Descriptor} {registers : R} {events : List Event}
      (htarget : issuer.transfer.progress.target? = some (side, index))
      (hroom : depths.of side ≠ config.fifoFull)
      (hd : issuer.transfer.descriptor config.pageSize side index = .ok d)
      (hpush : Registers.push side d issuer.registers = ⟨.ok (), registers, events⟩) :
      Issues config depths issuer issuer.transfer.due ⟨issuer.transfer.advance, registers⟩
        [.stored side.lowOffset d.low, .stored side.highOffset d.high]
  | complete (htarget : issuer.transfer.progress.target? = none) :
      Issues config depths issuer .alreadySent issuer []

theorem step_eq_ok (h : step config depths issuer = ⟨.ok report, issuer', events⟩) :
    Issues config depths issuer report issuer' (Event.deeds events) := by
  cases hstep : issuer.transfer.step config depths with
  | error fault =>
    rw [step_of_error hstep] at h
    simp at h
  | ok next =>
    cases next with
    | stalled side =>
      obtain ⟨index, htarget, hfull⟩ := Transfer.target_of_step_stalled hstep
      rw [step_of_stalled hstep] at h
      simp only [Outcome.mk.injEq, Except.ok.injEq] at h
      obtain ⟨rfl, rfl, rfl⟩ := h
      exact .stalled htarget hfull
    | complete =>
      rw [step_of_complete hstep] at h
      simp only [Outcome.mk.injEq, Except.ok.injEq] at h
      obtain ⟨rfl, rfl, rfl⟩ := h
      exact .complete (Transfer.target_of_step_complete hstep)
    | send side d =>
      obtain ⟨index, htarget, hroom, hd⟩ := Transfer.target_of_step_send hstep
      cases hpush : Registers.push side d issuer.registers with
      | mk result registers written =>
        cases result with
        | error fault =>
          rw [step_of_send_of_error hstep hpush] at h
          simp at h
        | ok answer =>
          rw [step_of_send hstep hpush] at h
          simp only [Outcome.mk.injEq, Except.ok.injEq] at h
          obtain ⟨rfl, rfl, rfl⟩ := h
          rw [issueNote, List.append_nil, Event.deeds_cons_noted, Registers.deeds_of_push hpush]
          exact .sent htarget hroom hd hpush

end Issuer

end DmaQueue
