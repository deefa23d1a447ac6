/-
  DmaQueue.Proofs.Engine.Submission

  What a submission can do, said once: the request is refused before anything
  is pinned, both ranges are pinned and one of them falls short, or both are
  whole and the transfer joins the queue.  `submit_eq_ok` takes a submission
  that answers apart into these three.
-/
import DmaQueue.Engine.Submit
import DmaQueue.Proofs.Engine.Turn

namespace DmaQueue

/-! ## A pin call, as the engine sees it -/

/-- The pin call answers these pages and leaves the memory manager `p'`; a refusal answers none. -/
def Pinner.Grants {P : Type} [Pinner P] (p : P) (address length : UInt64) (writable : Bool)
    (pages : List PinnedPage) (p' : P) : Prop :=
  ∃ answer notes, Pinner.pin address length writable p = ⟨.ok answer, p', notes⟩ ∧
    pages = answer.toOption.getD []

namespace Engine

variable {P R : Type} [Pinner P] [Registers R]

omit [Registers R] in
theorem pinRange_eq_ok {address length : UInt64} {writable : Bool} {engine engine' : Engine P R}
    {pages : List PinnedPage} {events : List Event}
    (h : pinRange address length writable engine = ⟨.ok pages, engine', events⟩) :
    ∃ pinner, Pinner.Grants engine.pinner address length writable pages pinner ∧
      engine' = { engine with pinner } ∧
      Event.deeds events = [.pinned address length writable pages] := by
  obtain ⟨answer, e₁, _, _, hcall, h₁, rfl⟩ := Act.bind_eq_ok_iff.1 h
  obtain ⟨pinner, hrange, rfl⟩ := Act.zoom_eq_ok_iff.1 hcall
  obtain ⟨⟨notes, hpin⟩, hdeeds⟩ := Pinner.pinRange_eq_ok hrange
  cases answer with
  | ok granted =>
    obtain ⟨rfl, rfl, rfl⟩ := Act.pure_eq_ok_iff.1 h₁
    refine ⟨pinner, ⟨_, notes, hpin, rfl⟩, rfl, ?_⟩
    rw [Event.deeds_append, hdeeds]
    rfl
  | error failure =>
    obtain ⟨_, hpure, rfl⟩ := Act.emit_bind_eq_ok_iff.1 h₁
    obtain ⟨rfl, rfl, rfl⟩ := Act.pure_eq_ok_iff.1 hpure
    refine ⟨pinner, ⟨_, notes, hpin, rfl⟩, rfl, ?_⟩
    rw [Event.deeds_append, hdeeds]
    rfl

/-! ## The three outcomes -/

/-- The entries of the two pin calls of a submission. -/
def pinDeeds (request : Request) (admitted : Admitted) (source dest : List PinnedPage) :
    List Event :=
  [.pinned request.source request.length false source,
    .pinned request.dest admitted.outputLength true dest]

/-- Both ranges of an admitted request are given to be pinned, the source first. -/
def PinsBoth (request : Request) (admitted : Admitted) (p : P) (source dest : List PinnedPage)
    (p' : P) : Prop :=
  ∃ mid, Pinner.Grants p request.source request.length false source mid ∧
    Pinner.Grants mid request.dest admitted.outputLength true dest p'

/-- Every page of both ranges came back. -/
def Whole (admitted : Admitted) (source dest : List PinnedPage) : Prop :=
  source.length = admitted.source.pages.toNat ∧ dest.length = admitted.dest.pages.toNat

/-- What a submission does: its answer, the engine it leaves, and its deeds. -/
inductive Submits (request : Request) (engine : Engine P R) :
    Except Failure Unit → Engine P R → List Event → Prop
  | rejected {rejection : Rejection}
      (hrejected : request.admission engine.config = .ok (.error rejection)) :
      Submits request engine (.error (.invalidArgument rejection))
        { engine with tally := engine.tally.countRejected } []
  | rolledBack {admitted : Admitted} {source dest : List PinnedPage} {p p' : P}
      {requested : UInt64} {events : List Event}
      (hadmitted : request.admission engine.config = .ok (.ok admitted))
      (hpins : PinsBoth request admitted engine.pinner source dest p)
      (hshort : ¬ Whole admitted source dest)
      (hrequested : Word.checkedAdd admitted.source.pages admitted.dest.pages = .ok requested)
      (hrelease : Pinner.unpinAll false (source ++ dest) p = ⟨.ok (), p', events⟩) :
      Submits request engine
        (.error (.resourceExhausted requested.toNat (source.length + dest.length)))
        { engine with pinner := p', tally := engine.tally.countRollback }
        (pinDeeds request admitted source dest ++
          (source ++ dest).map (Event.unpinned · false))
  | queued {admitted : Admitted} {source dest : List PinnedPage} {p : P} {pause : Pause}
      {final : Engine P R} {events : List Event}
      (hadmitted : request.admission engine.config = .ok (.ok admitted))
      (hpins : PinsBoth request admitted engine.pinner source dest p)
      (hwhole : Whole admitted source dest)
      (hrun : run
        { engine with
          pinner := p
          pending := engine.pending ++ [.ofAdmitted request admitted source dest]
          tally := engine.tally.countSubmitted } = ⟨.ok pause, final, events⟩) :
      Submits request engine (.ok ()) final
        (pinDeeds request admitted source dest ++ Event.deeds events)

theorem enqueue_eq_ok {request : Request} {admitted : Admitted} {source dest : List PinnedPage}
    {engine engine' : Engine P R} {answer : Except Failure Unit} {events : List Event}
    (h : enqueue request admitted source dest engine = ⟨.ok answer, engine', events⟩) :
    answer = .ok () ∧ ∃ pause seen, Event.deeds events = Event.deeds seen ∧
      run { engine with
        pending := engine.pending ++ [.ofAdmitted request admitted source dest]
        tally := engine.tally.countSubmitted } = ⟨.ok pause, engine', seen⟩ := by
  obtain ⟨_, h₁, rfl⟩ := Act.emit_bind_eq_ok_iff.1 h
  have h₂ := Act.modify_bind_eq_ok_iff.1 h₁
  have h₃ := Act.modify_bind_eq_ok_iff.1 h₂
  obtain ⟨pause, e₁, seen, _, hrun, hpure, rfl⟩ := Act.bind_eq_ok_iff.1 h₃
  obtain ⟨rfl, rfl, rfl⟩ := Act.pure_eq_ok_iff.1 hpure
  exact ⟨rfl, pause, seen, by simp, hrun⟩

omit [Registers R] in
theorem rollBack_eq_ok {request : Request} {admitted : Admitted} {source dest : List PinnedPage}
    {engine engine' : Engine P R} {answer : Except Failure Unit} {events : List Event}
    (h : rollBack request admitted source dest engine = ⟨.ok answer, engine', events⟩) :
    ∃ requested pinner released,
      Word.checkedAdd admitted.source.pages admitted.dest.pages = .ok requested ∧
      Pinner.unpinAll false (source ++ dest) engine.pinner = ⟨.ok (), pinner, released⟩ ∧
      answer = .error (.resourceExhausted requested.toNat (source.length + dest.length)) ∧
      engine' = { engine with pinner, tally := engine.tally.countRollback } ∧
      Event.deeds events = (source ++ dest).map (Event.unpinned · false) := by
  obtain ⟨requested, e₁, _, _, hsum, h₁, rfl⟩ := Act.bind_eq_ok_iff.1 h
  obtain ⟨_, e₂, _, _, hrelease, h₂, rfl⟩ := Act.bind_eq_ok_iff.1 h₁
  obtain ⟨hrequested, rfl, rfl⟩ := Act.ofExcept_eq_ok_iff.1 hsum
  obtain ⟨pinner, hpages, rfl⟩ := Act.zoom_eq_ok_iff.1 hrelease
  have h₃ := Act.modify_bind_eq_ok_iff.1 h₂
  obtain ⟨_, hpure, rfl⟩ := Act.emit_bind_eq_ok_iff.1 h₃
  obtain ⟨rfl, rfl, rfl⟩ := Act.pure_eq_ok_iff.1 hpure
  refine ⟨requested, pinner, _, hrequested, hpages, rfl, rfl, ?_⟩
  simp [Pinner.deeds_of_unpinAll hpages]

/-- A submission that answers is a rejection, a rollback, or a transfer queued and a run of the
loop. -/
theorem submit_eq_ok {request : Request} {engine engine' : Engine P R}
    {answer : Except Failure Unit} {events : List Event}
    (h : submit request engine = ⟨.ok answer, engine', events⟩) :
    Submits request engine answer engine' (Event.deeds events) := by
  have h₁ := Act.get_bind_eq_ok_iff.1 h
  obtain ⟨verdict, e₁, _, _, hverdict, h₂, rfl⟩ := Act.bind_eq_ok_iff.1 h₁
  obtain ⟨hadmission, rfl, rfl⟩ := Act.ofExcept_eq_ok_iff.1 hverdict
  cases verdict with
  | error rejection =>
    have h₃ := Act.modify_bind_eq_ok_iff.1 h₂
    obtain ⟨_, hpure, rfl⟩ := Act.emit_bind_eq_ok_iff.1 h₃
    obtain ⟨rfl, rfl, rfl⟩ := Act.pure_eq_ok_iff.1 hpure
    exact .rejected hadmission
  | ok admitted =>
    obtain ⟨source, e₂, _, _, hsource, h₃, rfl⟩ := Act.bind_eq_ok_iff.1 h₂
    obtain ⟨dest, e₃, _, _, hdest, h₄, rfl⟩ := Act.bind_eq_ok_iff.1 h₃
    obtain ⟨p₁, hgrant₁, rfl, hdeeds₁⟩ := pinRange_eq_ok hsource
    -- The second call begins with the memory manager that the first one leaves.
    obtain ⟨p₂, hgrant₂, rfl, hdeeds₂⟩ := pinRange_eq_ok hdest
    have hpins : PinsBoth request admitted e₁.pinner source dest p₂ := ⟨p₁, hgrant₁, hgrant₂⟩
    split at h₄
    · rename_i hwhole
      obtain ⟨rfl, pause, seen, hseen, hrun⟩ := enqueue_eq_ok h₄
      simp only [Event.deeds_append, List.nil_append, hdeeds₁, hdeeds₂, hseen, ← List.append_assoc,
        List.cons_append]
      exact .queued hadmission hpins hwhole hrun
    · rename_i hshort
      obtain ⟨requested, p₃, released, hrequested, hrelease, rfl, rfl, hdeeds₃⟩ := rollBack_eq_ok h₄
      simp only [Event.deeds_append, List.nil_append, hdeeds₁, hdeeds₂, hdeeds₃,
        ← List.append_assoc, List.cons_append]
      exact .rolledBack hadmission hpins hshort hrequested hrelease

end Engine

end DmaQueue
