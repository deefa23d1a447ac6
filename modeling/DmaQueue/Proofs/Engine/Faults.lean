/-
  DmaQueue.Proofs.Engine.Faults

  Where a fault of a history can come from that the memory manager never
  raises: from the control block, from a descriptor that cannot be packed, or
  from the arithmetic of a submission (`fault_of_play`).  The engine was carried
  by moves to the state in which it faults, so what moves preserve is known of
  that state.
-/
import DmaQueue.Proofs.Engine.History

namespace DmaQueue

/-! ## Memory managers that do not raise a fault -/

/-- No call on a memory manager that is good raises the fault, and a call that answers leaves the
memory manager good. -/
structure Pinner.Steady {P : Type} [Pinner P] (good : P → Prop) (fault : Fault) : Prop where
  pin : ∀ {p : P} (address length : UInt64) (writable : Bool), good p →
    (Pinner.pin address length writable p).result ≠ .error fault
  unpin : ∀ {p : P} (page : PinnedPage) (dirty : Bool), good p →
    (Pinner.unpin page dirty p).result ≠ .error fault
  pinned : ∀ {p p' : P} {address length : UInt64} {writable : Bool}
    {answer : Except PinFailure (List PinnedPage)} {notes : List Note}, good p →
    Pinner.pin address length writable p = ⟨.ok answer, p', notes⟩ → good p'
  unpinned : ∀ {p p' : P} {page : PinnedPage} {dirty : Bool} {notes : List Note}, good p →
    Pinner.unpin page dirty p = ⟨.ok (), p', notes⟩ → good p'

namespace Pinner.Steady

variable {P : Type} [Pinner P] {good : P → Prop} {fault : Fault} {p p' : P}

theorem pinRange (hsteady : Steady good fault) (address length : UInt64) (writable : Bool)
    (hp : good p) : (Pinner.pinRange address length writable p).result ≠ .error fault := by
  intro h
  rcases Act.result_bind_eq_error_iff.1 h with hpin | ⟨_, _, _, -, h₁⟩
  · exact hsteady.pin address length writable hp hpin
  · simp [Act.result_bind_eq_error_iff] at h₁

theorem of_unpinPage {page : PinnedPage} {dirty : Bool} {events : List Event}
    (hsteady : Steady good fault) (hp : good p)
    (h : Pinner.unpinPage page dirty p = ⟨.ok (), p', events⟩) : good p' := by
  obtain ⟨⟨_, hunpin⟩, -⟩ := Pinner.unpinPage_eq_ok h
  exact hsteady.unpinned hp hunpin

theorem of_unpinAll {dirty : Bool} {pages : List PinnedPage} {events : List Event}
    (hsteady : Steady good fault) (hp : good p)
    (h : Pinner.unpinAll dirty pages p = ⟨.ok (), p', events⟩) : good p' := by
  induction pages generalizing p events with
  | nil =>
    obtain ⟨-, rfl, -⟩ := Act.pure_eq_ok_iff.1 h
    exact hp
  | cons page rest ih =>
    obtain ⟨_, mid, _, _, hone, hrest, -⟩ := Act.bind_eq_ok_iff.1 h
    exact ih (hsteady.of_unpinPage hp hone) hrest

theorem unpinAll (hsteady : Steady good fault) (dirty : Bool) (pages : List PinnedPage)
    (hp : good p) : (Pinner.unpinAll dirty pages p).result ≠ .error fault := by
  intro h
  induction pages generalizing p with
  | nil => simp [Pinner.unpinAll] at h
  | cons page rest ih =>
    rcases Act.result_bind_eq_error_iff.1 h with hone | ⟨_, mid, _, hone, hrest⟩
    · rcases Act.result_bind_eq_error_iff.1 hone with hunpin | ⟨_, _, _, -, hemit⟩
      · exact hsteady.unpin page dirty hp hunpin
      · simp at hemit
    · exact ih (hsteady.of_unpinPage hp hone) hrest

theorem of_release {t : Transfer} {events : List Event} (hsteady : Steady good fault)
    (hp : good p) (h : t.release p = ⟨.ok (), p', events⟩) : good p' := by
  obtain ⟨_, mid, _, _, hdest, hsource, -⟩ := Act.bind_eq_ok_iff.1 h
  exact hsteady.of_unpinAll (hsteady.of_unpinAll hp hdest) hsource

theorem release (hsteady : Steady good fault) (t : Transfer) (hp : good p) :
    (t.release p).result ≠ .error fault := by
  intro h
  rcases Act.result_bind_eq_error_iff.1 h with hdest | ⟨_, mid, _, hdest, hsource⟩
  · exact hsteady.unpinAll true t.dest.pages hp hdest
  · exact hsteady.unpinAll false t.source.pages (hsteady.of_unpinAll hp hdest) hsource

theorem of_releaseAll {ts : List Transfer} {events : List Event} (hsteady : Steady good fault)
    (hp : good p) (h : Engine.releaseAll ts p = ⟨.ok (), p', events⟩) : good p' := by
  induction ts generalizing p events with
  | nil =>
    obtain ⟨-, rfl, -⟩ := Act.pure_eq_ok_iff.1 h
    exact hp
  | cons t rest ih =>
    obtain ⟨_, mid, _, _, hone, hrest, -⟩ := Act.bind_eq_ok_iff.1 h
    exact ih (hsteady.of_release hp hone) hrest

theorem of_grants {address length : UInt64} {writable : Bool} {pages : List PinnedPage}
    (hsteady : Steady good fault) (hp : good p)
    (h : Pinner.Grants p address length writable pages p') : good p' := by
  obtain ⟨_, _, hcall, -⟩ := h
  exact hsteady.pinned hp hcall

end Pinner.Steady

/-! ## Faults of the control block -/

/-- Some access to the control block raises the fault. -/
def Registers.Raises (R : Type) [Registers R] (fault : Fault) : Prop :=
  (∃ (offset : UInt64) (r : R), (Registers.load offset r).result = .error fault) ∨
    ∃ (offset : UInt64) (value : UInt32) (r : R),
      (Registers.store offset value r).result = .error fault

namespace Registers

variable {R : Type} [Registers R] {r : R} {fault : Fault}

theorem fault_of_read {offset : UInt64} (h : (read offset r).result = .error fault) :
    Raises R fault := by
  rcases Act.result_bind_eq_error_iff.1 h with hload | ⟨_, _, _, -, h₁⟩
  · exact .inl ⟨offset, r, hload⟩
  · simp [Act.result_bind_eq_error_iff] at h₁

theorem fault_of_write {offset : UInt64} {value : UInt32}
    (h : (write offset value r).result = .error fault) : Raises R fault := by
  rcases Act.result_bind_eq_error_iff.1 h with hstore | ⟨_, _, _, -, h₁⟩
  · exact .inr ⟨offset, value, r, hstore⟩
  · simp at h₁

theorem fault_of_sample (h : (sample r).result = .error fault) : Raises R fault := by
  rcases Act.result_bind_eq_error_iff.1 h with hsource | ⟨_, _, _, -, h₁⟩
  · exact fault_of_read hsource
  rcases Act.result_bind_eq_error_iff.1 h₁ with hdest | ⟨_, _, _, -, h₂⟩
  · exact fault_of_read hdest
  · simp at h₂

theorem fault_of_push {side : Side} {d : Descriptor} (h : (push side d r).result = .error fault) :
    Raises R fault := by
  rcases Act.result_bind_eq_error_iff.1 h with hlow | ⟨_, _, _, -, hhigh⟩
  · exact fault_of_write hlow
  · exact fault_of_write hhigh

end Registers

/-- A step of an issuer faults in the control block, or on the descriptor that is next. -/
theorem Issuer.fault_of_step {R : Type} [Registers R] {config : Config} {depths : Depths}
    {issuer : Issuer R} {fault : Fault} (h : (step config depths issuer).result = .error fault) :
    Registers.Raises R fault ∨ ∃ side index,
      issuer.transfer.progress.target? = some (side, index) ∧
        issuer.transfer.descriptor config.pageSize side index = .error fault := by
  cases hstep : issuer.transfer.step config depths with
  | error fault' =>
    rw [step_of_error hstep] at h
    obtain rfl := Except.error.inj h
    exact .inr (Transfer.target_of_step_error hstep)
  | ok next =>
    cases next with
    | stalled side =>
      rw [step_of_stalled hstep] at h
      exact nomatch h
    | complete =>
      rw [step_of_complete hstep] at h
      exact nomatch h
    | send side d =>
      cases hpush : Registers.push side d issuer.registers with
      | mk result registers written =>
        cases result with
        | error fault' =>
          rw [step_of_send_of_error hstep hpush] at h
          obtain rfl := Except.error.inj h
          exact .inl (Registers.fault_of_push (congrArg Outcome.result hpush))
        | ok answer =>
          rw [step_of_send hstep hpush] at h
          exact nomatch h

namespace Engine

variable {P R : Type} [Pinner P] {good : P → Prop} {fault : Fault}

/-! ## Faults of the loop -/

/-- The next descriptor of the oldest pending transfer cannot be packed. -/
def Unwritable (engine : Engine P R) (fault : Fault) : Prop :=
  ∃ t rest side index, engine.pending = t :: rest ∧ t.progress.target? = some (side, index) ∧
    t.descriptor engine.config.pageSize side index = .error fault

theorem reclaimAll_ne_error (hsteady : Pinner.Steady good fault) (ts : List Transfer)
    {engine : Engine P R} (hgood : good engine.pinner) :
    (reclaimAll ts engine).result ≠ .error fault := by
  intro h
  induction ts generalizing engine with
  | nil => simp [reclaimAll] at h
  | cons t rest ih =>
    have h₁ := Act.result_modify_bind_eq_error_iff.1 h
    rcases Act.result_bind_eq_error_iff.1 h₁ with hrelease | ⟨_, e₁, _, hrelease, h₂⟩
    · rw [onPinner, Act.result_zoom] at hrelease
      exact hsteady.release t hgood hrelease
    obtain ⟨pinner, hpages, rfl⟩ := Act.zoom_eq_ok_iff.1 hrelease
    have hrest := Act.result_modify_bind_eq_error_iff.1 h₂
    exact ih (hsteady.of_release hgood hpages) hrest

theorem reclaimIfDrained_ne_error (hsteady : Pinner.Steady good fault) (depths : Depths)
    {engine : Engine P R} (hgood : good engine.pinner) :
    (reclaimIfDrained depths engine).result ≠ .error fault := by
  intro h
  have h₁ := Act.result_get_bind_eq_error_iff.1 h
  split at h₁
  · have h₂ := Act.result_get_bind_eq_error_iff.1 h₁
    rcases Act.result_bind_eq_error_iff.1 h₂ with hall | ⟨_, _, _, -, hnote⟩
    · exact reclaimAll_ne_error hsteady engine.inFlight hgood hall
    · simp [Act.note] at hnote
  · simp at h₁

variable [Registers R] {engine : Engine P R}

omit [Pinner P] in
theorem fault_of_serveFirst {depths : Depths}
    (h : (serveFirst depths engine.pending engine).result = .error fault) :
    Registers.Raises R fault ∨ engine.Unwritable fault := by
  cases hq : engine.pending with
  | nil =>
    rw [hq] at h
    simp [serveFirst] at h
  | cons t rest =>
    rw [hq] at h
    have h₁ := Act.result_get_bind_eq_error_iff.1 h
    rcases Act.result_bind_eq_error_iff.1 h₁ with hstep | ⟨report, e₁, _, -, h₂⟩
    · rcases Issuer.fault_of_step hstep with hraises | ⟨side, index, htarget, hd⟩
      · exact .inl hraises
      · exact .inr ⟨t, rest, side, index, hq, htarget, hd⟩
    · cases report <;> simp [heed, Act.result_bind_eq_error_iff, count, Act.note] at h₂

theorem fault_of_turn (hsteady : Pinner.Steady good fault) (hgood : good engine.pinner)
    (h : (turn engine).result = .error fault) :
    Registers.Raises R fault ∨ engine.Unwritable fault := by
  rcases Act.result_bind_eq_error_iff.1 h with hsample | ⟨depths, e₁, _, hsample, h₁⟩
  · rcases Act.result_bind_eq_error_iff.1 hsample with hread | ⟨_, _, _, -, hnote⟩
    · exact .inl (Registers.fault_of_sample hread)
    · simp [Act.result_bind_eq_error_iff, Act.note] at hnote
  obtain ⟨registers, _, -, rfl, -⟩ := sample_eq_ok hsample
  rcases Act.result_bind_eq_error_iff.1 h₁ with hreclaim | ⟨_, e₂, _, hreclaim, h₂⟩
  · have hread : good { engine with registers }.pinner := hgood
    exact absurd hreclaim (reclaimIfDrained_ne_error hsteady depths hread)
  have h₃ := Act.result_get_bind_eq_error_iff.1 h₂
  -- Neither the sample nor the reclaim has changed the queue.
  have hreclaims := reclaimIfDrained_eq_ok hreclaim
  have hconfig := hreclaims.config_eq
  have hpending := pending_of_reclaimIfDrained hreclaim
  rcases fault_of_serveFirst h₃ with hraises | ⟨t, rest, side, index, hq, htarget, hd⟩
  · exact .inl hraises
  · rw [hconfig] at hd
    exact .inr ⟨t, rest, side, index, hpending ▸ hq, htarget, hd⟩

/-! ## Moves keep the memory manager good -/

omit [Registers R] in
theorem PinsBoth.keeps {request : Request} {admitted : Admitted} {p p' : P}
    {source dest : List PinnedPage} (h : PinsBoth request admitted p source dest p')
    (hsteady : Pinner.Steady good fault) (hp : good p) : good p' := by
  obtain ⟨mid, hsource, hdest⟩ := h
  exact hsteady.of_grants (hsteady.of_grants hp hsource) hdest

theorem Moves.keeps {device : (R → R) → Prop} {start : Engine P R} {ts reclaimed : List Transfer}
    {events : List Event} (h : Moves device start ts reclaimed events engine)
    (hsteady : Pinner.Steady good fault) (hstart : good start.pinner) : good engine.pinner := by
  induction h with
  | refl => exact hstart
  | step _ hmove ih =>
    cases hmove with
    | turned _ hreclaim hserve =>
      rw [hserve.pinner_eq]
      cases hreclaim with
      | kept => exact ih
      | freed _ hrelease => exact hsteady.of_releaseAll ih hrelease
    | hardware | rejected => exact ih
    | rolledBack hpins hrelease => exact hsteady.of_unpinAll (hpins.keeps hsteady ih) hrelease
    | queued _ hpins _ => exact hpins.keeps hsteady ih

/-! ## Faults of a history -/

/-- From the engine, moves lead to a descriptor that cannot be packed. -/
def Stuck (engine : Engine P R) (fault : Fault) : Prop :=
  ∃ ts reclaimed events mid, Moves (fun _ => True) engine ts reclaimed events mid ∧
    mid.Unwritable fault

theorem Stuck.of_moves {start : Engine P R} {ts reclaimed : List Transfer} {events : List Event}
    (hmoves : Moves (fun _ => True) start ts reclaimed events engine) (h : engine.Stuck fault) :
    start.Stuck fault := by
  obtain ⟨_, _, _, mid, hlater, hunwritable⟩ := h
  exact ⟨_, _, _, mid, hmoves.append hlater, hunwritable⟩

theorem fault_of_run (hsteady : Pinner.Steady good fault) (hgood : good engine.pinner)
    (h : (run engine).result = .error fault) : Registers.Raises R fault ∨ engine.Stuck fault := by
  induction hn : engine.workload using Nat.strongRecOn generalizing engine with
  | ind n ih =>
    cases hone : turn engine with
    | mk result next events =>
      cases result with
      | error fault' =>
        rw [run_of_turn_eq_error hone, Except.error.injEq] at h
        subst h
        rcases fault_of_turn hsteady hgood (congrArg Outcome.result hone) with hraises | hunwritable
        · exact .inl hraises
        · exact .inr ⟨[], [], [], engine, .refl, hunwritable⟩
      | ok pause? =>
        cases pause? with
        | some pause =>
          rw [run_of_turn_eq_some hone] at h
          simp at h
        | none =>
          rw [run_of_turn_eq_none hone, Outcome.result_after] at h
          obtain ⟨freed, hmove⟩ := move_of_turn hone
          have hmoves := Moves.single hmove
          rcases ih next.workload (hn ▸ workload_lt_of_turn hone) (hmoves.keeps hsteady hgood) h rfl
            with hraises | hstuck
          · exact .inl hraises
          · exact .inr (hstuck.of_moves hmoves)

/-- The arithmetic of a submission faults: that of the checks, or the sum of the page counts. -/
def Overflows (request : Request) (config : Config) (fault : Fault) : Prop :=
  request.admission config = .error fault ∨
    ∃ admitted, request.admission config = .ok (.ok admitted) ∧
      Word.checkedAdd admitted.source.pages admitted.dest.pages = .error fault

omit [Registers R] in
theorem pinRange_ne_error (hsteady : Pinner.Steady good fault) (address length : UInt64)
    (writable : Bool) (hgood : good engine.pinner) :
    (pinRange address length writable engine).result ≠ .error fault := by
  intro h
  rcases Act.result_bind_eq_error_iff.1 h with hcall | ⟨answer, _, _, -, h₁⟩
  · rw [onPinner, Act.result_zoom] at hcall
    exact hsteady.pinRange address length writable hgood hcall
  · cases answer <;> simp [Act.result_bind_eq_error_iff, Act.note] at h₁

theorem fault_of_submit (hsteady : Pinner.Steady good fault) {request : Request}
    (hgood : good engine.pinner) (h : (submit request engine).result = .error fault) :
    Registers.Raises R fault ∨ Overflows request engine.config fault ∨ engine.Stuck fault := by
  have h₁ := Act.result_get_bind_eq_error_iff.1 h
  rcases Act.result_bind_eq_error_iff.1 h₁ with hverdict | ⟨verdict, e₁, _, hverdict, h₂⟩
  · exact .inr (.inl (.inl hverdict))
  obtain ⟨hadmission, rfl, -⟩ := Act.ofExcept_eq_ok_iff.1 hverdict
  cases verdict with
  | error rejection => simp [Act.result_bind_eq_error_iff, count, Act.note] at h₂
  | ok admitted =>
    rcases Act.result_bind_eq_error_iff.1 h₂ with hsource | ⟨source, e₂, _, hsource, h₃⟩
    · exact absurd hsource (pinRange_ne_error hsteady _ _ _ hgood)
    -- Both pin calls answer, so the fault comes after them.
    obtain ⟨p₁, hgrant₁, rfl, -⟩ := pinRange_eq_ok hsource
    have hgood₁ : good { e₁ with pinner := p₁ }.pinner := hsteady.of_grants hgood hgrant₁
    rcases Act.result_bind_eq_error_iff.1 h₃ with hdest | ⟨dest, e₃, _, hdest, h₄⟩
    · exact absurd hdest (pinRange_ne_error hsteady _ _ _ hgood₁)
    obtain ⟨p₂, hgrant₂, rfl, -⟩ := pinRange_eq_ok hdest
    have hpins : PinsBoth request admitted e₁.pinner source dest p₂ := ⟨p₁, hgrant₁, hgrant₂⟩
    have hgood₂ : good p₂ := hpins.keeps hsteady hgood
    split at h₄
    · rename_i hwhole
      have h₅ := Act.result_emit_bind_eq_error_iff.1 h₄
      have h₆ := Act.result_modify_bind_eq_error_iff.1 h₅
      have h₇ := Act.result_modify_bind_eq_error_iff.1 h₆
      rcases Act.result_bind_eq_error_iff.1 h₇ with hrun | ⟨_, _, _, -, hpure⟩
      · -- The transfer is in the queue by now, which is a move; the run faults after it.
        rcases fault_of_run hsteady hgood₂ hrun with hraises | hstuck
        · exact .inl hraises
        · exact .inr (.inr (hstuck.of_moves (.single (.queued hadmission hpins hwhole))))
      · simp at hpure
    · rcases Act.result_bind_eq_error_iff.1 h₄ with hsum | ⟨_, e₄, _, hsum, h₅⟩
      · exact .inr (.inl (.inr ⟨admitted, hadmission, hsum⟩))
      obtain ⟨-, rfl, -⟩ := Act.ofExcept_eq_ok_iff.1 hsum
      rcases Act.result_bind_eq_error_iff.1 h₅ with hrelease | ⟨_, _, _, -, h₆⟩
      · rw [onPinner, Act.result_zoom] at hrelease
        exact absurd hrelease (hsteady.unpinAll false (source ++ dest) hgood₂)
      · simp [Act.result_bind_eq_error_iff, count, Act.note] at h₆

theorem fault_of_act (hsteady : Pinner.Steady good fault) {call : Call R}
    (hgood : good engine.pinner) (h : (call.act engine).result = .error fault) :
    Registers.Raises R fault ∨ (∃ request, Overflows request engine.config fault) ∨
      engine.Stuck fault := by
  cases call with
  | submit request =>
    rcases Act.result_bind_eq_error_iff.1 h with hsubmit | ⟨_, _, _, -, hpure⟩
    · rcases fault_of_submit hsteady hgood hsubmit with hraises | hoverflows | hstuck
      · exact .inl hraises
      · exact .inr (.inl ⟨request, hoverflows⟩)
      · exact .inr (.inr hstuck)
    · simp at hpure
  | poll =>
    rcases Act.result_bind_eq_error_iff.1 h with hpoll | ⟨_, _, _, -, hpure⟩
    · rcases Act.result_bind_eq_error_iff.1 hpoll with hrun | ⟨_, _, _, -, hwork⟩
      · rcases fault_of_run hsteady hgood hrun with hraises | hstuck
        · exact .inl hraises
        · exact .inr (.inr hstuck)
      · have hanswer := Act.result_get_bind_eq_error_iff.1 hwork
        simp at hanswer
    · simp at hpure
  | hardware change =>
    have hpure := Act.result_modify_bind_eq_error_iff.1 h
    simp at hpure

/-- A fault of a history was raised by the control block, by the arithmetic of a submission, or by a
descriptor of a transfer that the history had queued. -/
theorem fault_of_play (hsteady : Pinner.Steady good fault) {calls : List (Call R)}
    (hgood : good engine.pinner) (h : (play calls engine).result = .error fault) :
    Registers.Raises R fault ∨ (∃ request, Overflows request engine.config fault) ∨
      engine.Stuck fault := by
  induction calls generalizing engine with
  | nil => simp [play] at h
  | cons call rest ih =>
    cases hone : call.act engine with
    | mk result mid events =>
      cases result with
      | error fault' =>
        rw [play_cons_of_error hone, Except.error.injEq] at h
        subst h
        exact fault_of_act hsteady hgood (congrArg Outcome.result hone)
      | ok answer =>
        rw [play_cons_of_ok hone, Outcome.result_after] at h
        -- The first call was moves, so the state in which the rest gets stuck is reached from here.
        obtain ⟨⟨_, hmoves⟩, -⟩ := moves_of_act (fun _ _ => trivial) hone
        have hrest := ih (hmoves.keeps hsteady hgood) h
        rw [hmoves.config_eq] at hrest
        rcases hrest with hraises | hoverflows | hstuck
        · exact .inl hraises
        · exact .inr (.inl hoverflows)
        · exact .inr (.inr (hstuck.of_moves hmoves))

end Engine

end DmaQueue
