/-
  DmaQueue.Proofs.Engine.Turn

  What one turn of the issue loop can do, said once: it samples both depths,
  then `Reclaims`, then `Serves` the oldest pending transfer.  `turn_eq_ok`
  takes a successful turn apart into these three stages; `run_rec` carries what
  the turns preserve to the turn that ends the loop.
-/
import DmaQueue.Engine.Run
import DmaQueue.Proofs.Transfer.Issuer

namespace DmaQueue

/-- The entries that the release of a transfer leaves: the destination pages, dirty, then the
source pages, clean. -/
def Transfer.releaseDeeds (t : Transfer) : List Event :=
  t.dest.pages.map (Event.unpinned · true) ++ t.source.pages.map (Event.unpinned · false)

namespace Engine

variable {P R : Type}

/-- The transfers that are pending or in flight. -/
def live (engine : Engine P R) : List Transfer :=
  engine.pending ++ engine.inFlight

theorem onRegisters_apply {α : Type} {m : Act Event R α} {engine : Engine P R}
    {result : Except Fault α} {registers : R} {events : List Event}
    (h : m engine.registers = ⟨result, registers, events⟩) :
    onRegisters m engine = ⟨result, { engine with registers }, events⟩ := by
  unfold onRegisters Act.zoom
  rw [h]

/-! ## Reclaiming -/

section Reclaiming

variable [Pinner P]

/-- Releases the pages of some transfers, one transfer after the other. -/
def releaseAll : List Transfer → Act Event P Unit
  | [] => return ()
  | t :: rest => do
    t.release
    releaseAll rest

/-- The counters after some transfers were reclaimed. -/
def countReclaimedAll (ts : List Transfer) (tally : Tally) : Tally :=
  ts.foldl (fun tally t => tally.countReclaimed t.pageCount) tally

/-- What the sampled destination depth makes of the transfers in flight: it is zero and they are
all released, or it is not and nothing happens. -/
inductive Reclaims (depths : Depths) (engine : Engine P R) : Engine P R → List Event → Prop
  | kept (hbusy : depths.dest ≠ 0) : Reclaims depths engine engine []
  | freed {pinner : P} {events : List Event} (hdrained : depths.dest = 0)
      (hrelease : releaseAll engine.inFlight engine.pinner = ⟨.ok (), pinner, events⟩) :
      Reclaims depths engine
        { engine with
          pinner
          inFlight := []
          tally := countReclaimedAll engine.inFlight engine.tally }
        (engine.inFlight.flatMap Transfer.releaseDeeds)

/-- What passes over releases has no part in a reclaim. -/
theorem Reclaims.filterMap_eq_nil {α : Type} {f : Event → Option α} {depths : Depths}
    {engine engine' : Engine P R} {events : List Event}
    (h : Reclaims depths engine engine' events)
    (hf : ∀ page dirty, f (.unpinned page dirty) = none) : events.filterMap f = [] := by
  cases h with
  | kept => rfl
  | freed =>
    rw [List.filterMap_flatMap, List.flatMap_eq_nil_iff]
    intro t ht
    rw [Transfer.releaseDeeds, List.filterMap_append, Event.filterMap_unpinned hf,
      Event.filterMap_unpinned hf]
    rfl

theorem deeds_of_releaseAll {ts : List Transfer} {p p' : P} {events : List Event}
    (h : releaseAll ts p = ⟨.ok (), p', events⟩) :
    Event.deeds events = ts.flatMap Transfer.releaseDeeds := by
  induction ts generalizing p events with
  | nil =>
    obtain ⟨-, -, rfl⟩ := Act.pure_eq_ok_iff.1 h
    rfl
  | cons t rest ih =>
    obtain ⟨_, p₁, _, _, hrelease, hrest, rfl⟩ := Act.bind_eq_ok_iff.1 h
    obtain ⟨_, p₂, _, _, hdest, hsource, rfl⟩ := Act.bind_eq_ok_iff.1 hrelease
    rw [Event.deeds_append, Event.deeds_append, Pinner.deeds_of_unpinAll hdest,
      Pinner.deeds_of_unpinAll hsource, ih hrest]
    rfl

/-- Reclaiming the transfers in flight is releasing them on the memory manager. -/
theorem reclaimAll_eq_ok {ts : List Transfer} {engine engine' : Engine P R} {events : List Event}
    (h : reclaimAll ts engine = ⟨.ok (), engine', events⟩) (hts : engine.inFlight = ts) :
    ∃ pinner, releaseAll ts engine.pinner = ⟨.ok (), pinner, events⟩ ∧
      engine' = { engine with
        pinner
        inFlight := []
        tally := countReclaimedAll ts engine.tally } := by
  induction ts generalizing engine events with
  | nil =>
    obtain ⟨-, rfl, rfl⟩ := Act.pure_eq_ok_iff.1 h
    refine ⟨engine.pinner, rfl, ?_⟩
    have hnone : engine = { engine with inFlight := [] } := by rw [← hts]
    exact hnone
  | cons t rest ih =>
    have h₁ := Act.modify_bind_eq_ok_iff.1 h
    obtain ⟨_, e₁, _, _, hrelease, h₂, rfl⟩ := Act.bind_eq_ok_iff.1 h₁
    obtain ⟨p₁, hpages, rfl⟩ := Act.zoom_eq_ok_iff.1 hrelease
    have hrest := Act.modify_bind_eq_ok_iff.1 h₂
    -- Only the memory manager is new for the rest: the counters and the flight are not looked at.
    obtain ⟨pinner, hall, rfl⟩ := ih hrest rfl
    exact ⟨pinner, Act.bind_eq_ok_iff.2 ⟨_, _, _, _, hpages, hall, rfl⟩, rfl⟩

/-- Where releasing the transfers on the memory manager succeeds, reclaiming them does. -/
theorem reclaimAll_of_releaseAll {ts : List Transfer} {engine : Engine P R} {pinner : P}
    {events : List Event} (h : releaseAll ts engine.pinner = ⟨.ok (), pinner, events⟩) :
    ∃ engine', reclaimAll ts engine = ⟨.ok (), engine', events⟩ ∧ engine'.pinner = pinner := by
  induction ts generalizing engine events with
  | nil =>
    obtain ⟨-, rfl, rfl⟩ := Act.pure_eq_ok_iff.1 h
    exact ⟨engine, rfl, rfl⟩
  | cons t rest ih =>
    obtain ⟨_, mid, first, later, hrelease, hrest, rfl⟩ := Act.bind_eq_ok_iff.1 h
    have hpages : (onPinner t.release : Act Event (Engine P R) Unit)
        { engine with inFlight := rest } =
          ⟨.ok (), { engine with inFlight := rest, pinner := mid }, first⟩ :=
      Act.zoom_eq_ok_iff.2 ⟨mid, hrelease, rfl⟩
    -- Only the memory manager of the engine that the rest starts from matters to the rest.
    obtain ⟨engine', hall, hpinner⟩ := @ih
      { engine with
        inFlight := rest
        pinner := mid
        tally := engine.tally.countReclaimed t.pageCount } _ hrest
    exact ⟨engine', Act.modify_bind_eq_ok_iff.2 (Act.bind_ok hpages
      (Act.modify_bind_eq_ok_iff.2 hall)), hpinner⟩

theorem reclaimIfDrained_eq_ok {depths : Depths} {engine engine' : Engine P R}
    {events : List Event} (h : reclaimIfDrained depths engine = ⟨.ok (), engine', events⟩) :
    Reclaims depths engine engine' (Event.deeds events) := by
  have h₁ := Act.get_bind_eq_ok_iff.1 h
  split at h₁
  · rename_i hdrained
    have h₂ := Act.get_bind_eq_ok_iff.1 h₁
    obtain ⟨_, e₁, _, _, hall, hnote, rfl⟩ := Act.bind_eq_ok_iff.1 h₂
    obtain ⟨rfl, rfl⟩ := Act.emit_eq_ok_iff.1 hnote
    obtain ⟨pinner, hrelease, rfl⟩ := reclaimAll_eq_ok hall rfl
    have hdeeds := deeds_of_releaseAll hrelease
    rw [Event.deeds_append, hdeeds, Event.deeds_cons_noted, Event.deeds_nil, List.append_nil]
    exact .freed hdrained.1 hrelease
  · rename_i hkept
    obtain ⟨-, rfl, rfl⟩ := Act.pure_eq_ok_iff.1 h₁
    by_cases hdest : depths.dest = 0
    · -- Nothing is in flight, so releasing it all changes nothing.
      have hnone : engine.inFlight = [] := by simpa [hdest] using hkept
      have hrelease : releaseAll engine.inFlight engine.pinner = ⟨.ok (), engine.pinner, []⟩ := by
        rw [hnone]
        rfl
      have hsame : engine = { engine with
          inFlight := []
          tally := countReclaimedAll engine.inFlight engine.tally } := by
        rw [hnone]
        show engine = { engine with inFlight := [] }
        rw [← hnone]
      have hfreed := Reclaims.freed hdest hrelease
      rw [← hsame, hnone] at hfreed
      exact hfreed
    · exact .kept hdest

end Reclaiming

/-! ## Serving the head -/

section Serving

/-- The engine whose head, `t`, has one more descriptor written and is followed by `rest`. -/
def headWritten (t : Transfer) (rest : List Transfer) (engine : Engine P R) : Engine P R :=
  if t.advance.progress.isSent then
    { engine with pending := rest, inFlight := engine.inFlight ++ [t.advance] }
  else
    { engine with pending := t.advance :: rest }

/-- The engine whose head, `t`, needs nothing more and is followed by `rest`. -/
def headRetired (t : Transfer) (rest : List Transfer) (engine : Engine P R) : Engine P R :=
  { engine with pending := rest, inFlight := engine.inFlight ++ [t] }

/-- A descriptor that went out is counted, and with the last one the head leaves the queue. -/
theorem heed_due {t : Transfer} {side : Side} {index : Nat} (rest : List Transfer)
    (engine : Engine P R) (h : t.progress.target? = some (side, index)) :
    heed t.due { engine with pending := t.advance :: rest } =
      ⟨.ok none, headWritten t rest { engine with tally := engine.tally.countDescriptor side },
        []⟩ := by
  rw [Transfer.due_of_target h, headWritten]
  split <;> rfl

variable [Registers R]

/-- What the sampled depths let the oldest pending transfer do: nothing is pending, the FIFO that it
needs is full, one descriptor goes out, or it was complete already. -/
inductive Serves (depths : Depths) (engine : Engine P R) :
    Option Pause → Engine P R → List Event → Prop
  | drained (hq : engine.pending = []) : Serves depths engine (some .drained) engine []
  | stalled {t : Transfer} {rest : List Transfer} {side : Side} {index : Nat}
      (hq : engine.pending = t :: rest) (htarget : t.progress.target? = some (side, index))
      (hfull : depths.of side = engine.config.fifoFull) :
      Serves depths engine (some (.blocked side))
        { engine with tally := engine.tally.countStall } []
  | sent {t : Transfer} {rest : List Transfer} {side : Side} {index : Nat} {d : Descriptor}
      {registers : R} {events : List Event} (hq : engine.pending = t :: rest)
      (htarget : t.progress.target? = some (side, index))
      (hroom : depths.of side ≠ engine.config.fifoFull)
      (hd : t.descriptor engine.config.pageSize side index = .ok d)
      (hpush : Registers.push side d engine.registers = ⟨.ok (), registers, events⟩) :
      Serves depths engine none
        (headWritten t rest { engine with registers, tally := engine.tally.countDescriptor side })
        [.stored side.lowOffset d.low, .stored side.highOffset d.high]
  | complete {t : Transfer} {rest : List Transfer} (hq : engine.pending = t :: rest)
      (htarget : t.progress.target? = none) :
      Serves depths engine none (headRetired t rest engine) []

theorem Serves.pinner_eq {depths : Depths} {engine engine' : Engine P R} {pause? : Option Pause}
    {events : List Event} (h : Serves depths engine pause? engine' events) :
    engine'.pinner = engine.pinner := by
  cases h with
  | drained | stalled | complete => rfl
  | sent =>
    unfold headWritten
    split <;> rfl

/-- To serve the head changes the progress and the place of live transfers at most. -/
theorem Serves.perm_live {α : Type} {depths : Depths} {engine engine' : Engine P R}
    {pause? : Option Pause} {events : List Event} {f : Transfer → List α}
    (h : Serves depths engine pause? engine' events) (hf : ∀ t : Transfer, f t.advance = f t) :
    (engine'.live.flatMap f).Perm (engine.live.flatMap f) := by
  cases h with
  | drained | stalled => exact .refl _
  | @sent t rest side index d registers written hq =>
    -- The head stays, or it moves to the end of the transfers in flight.
    unfold headWritten
    split
    · simp only [live, hq, List.flatMap_append, List.flatMap_cons, List.flatMap_nil, hf,
        List.append_nil, ← List.append_assoc]
      exact List.perm_append_comm.trans (.of_eq (List.append_assoc ..).symm)
    · simp only [live, hq, List.flatMap_append, List.flatMap_cons, hf]
      exact .refl _
  | @complete t rest hq =>
    simp only [live, headRetired, hq, List.flatMap_append, List.flatMap_cons, List.flatMap_nil,
      List.append_nil, ← List.append_assoc]
    exact List.perm_append_comm.trans (.of_eq (List.append_assoc ..).symm)

theorem serveFirst_eq_ok {depths : Depths} {engine engine' : Engine P R} {pause? : Option Pause}
    {events : List Event}
    (h : serveFirst depths engine.pending engine = ⟨.ok pause?, engine', events⟩) :
    Serves depths engine pause? engine' (Event.deeds events) := by
  cases hq : engine.pending with
  | nil =>
    rw [hq] at h
    obtain ⟨rfl, rfl, rfl⟩ := Act.pure_eq_ok_iff.1 h
    exact .drained hq
  | cons t rest =>
    rw [hq] at h
    have h₁ := Act.get_bind_eq_ok_iff.1 h
    obtain ⟨report, e₁, first, _, hstep, hheed, rfl⟩ := Act.bind_eq_ok_iff.1 h₁
    obtain ⟨issuer, hissue, rfl⟩ := Act.zoom_eq_ok_iff.1 hstep
    have hissues := Issuer.step_eq_ok hissue
    rw [Event.deeds_append]
    generalize Event.deeds first = deeds at hissues ⊢
    -- A step that writes nothing leaves the head in its place.
    have hsame : { engine with pending := t :: rest } = engine := by rw [← hq]
    cases hissues with
    | @stalled side index htarget hfull =>
      have h₂ := Act.modify_bind_eq_ok_iff.1 hheed
      obtain ⟨_, hpure, rfl⟩ := Act.emit_bind_eq_ok_iff.1 h₂
      obtain ⟨rfl, rfl, rfl⟩ := Act.pure_eq_ok_iff.1 hpure
      show Serves depths engine _
        { { engine with pending := t :: rest } with tally := engine.tally.countStall } []
      rw [hsame]
      exact .stalled hq htarget hfull
    | @sent side index d registers written htarget hroom hd hpush =>
      have hdone := (heed_due rest { engine with registers } htarget).symm.trans hheed
      simp only [Outcome.mk.injEq, Except.ok.injEq] at hdone
      obtain ⟨rfl, rfl, rfl⟩ := hdone
      exact .sent hq htarget hroom hd hpush
    | complete htarget =>
      have hpure := Act.modify_bind_eq_ok_iff.1 hheed
      obtain ⟨rfl, rfl, rfl⟩ := Act.pure_eq_ok_iff.1 hpure
      exact .complete hq htarget

theorem sample_eq_ok {engine engine' : Engine P R} {depths : Depths} {events : List Event}
    (h : sample engine = ⟨.ok depths, engine', events⟩) :
    ∃ registers seen, Registers.sample engine.registers = ⟨.ok depths, registers, seen⟩ ∧
      engine' = { engine with registers } ∧ Event.deeds events = Event.deeds seen := by
  obtain ⟨depths', e₁, _, _, hread, h₁, rfl⟩ := Act.bind_eq_ok_iff.1 h
  obtain ⟨registers, hdepths, rfl⟩ := Act.zoom_eq_ok_iff.1 hread
  obtain ⟨_, hpure, rfl⟩ := Act.emit_bind_eq_ok_iff.1 h₁
  obtain ⟨rfl, rfl, rfl⟩ := Act.pure_eq_ok_iff.1 hpure
  exact ⟨registers, _, hdepths, rfl, by simp⟩

end Serving

/-! ## The turn, and the loop -/

variable [Pinner P] [Registers R]

/-- A successful turn is a sample, a reclaim and a service, and so are its deeds. -/
theorem turn_eq_ok {engine engine' : Engine P R} {pause? : Option Pause} {events : List Event}
    (h : turn engine = ⟨.ok pause?, engine', events⟩) :
    ∃ depths registers seen mid freed written,
      Registers.sample engine.registers = ⟨.ok depths, registers, seen⟩ ∧
      Reclaims depths { engine with registers } mid freed ∧
      Serves depths mid pause? engine' written ∧
      Event.deeds events =
        [ .loaded Side.source.depthOffset depths.source,
          .loaded Side.dest.depthOffset depths.dest ] ++ freed ++ written := by
  obtain ⟨depths, e₁, _, _, hsample, h₁, rfl⟩ := Act.bind_eq_ok_iff.1 h
  obtain ⟨_, mid, _, _, hreclaim, h₂, rfl⟩ := Act.bind_eq_ok_iff.1 h₁
  have hserve := Act.get_bind_eq_ok_iff.1 h₂
  -- The head that is served is the one that the reclaim leaves.
  obtain ⟨registers, seen, hread, rfl, hdeeds⟩ := sample_eq_ok hsample
  refine ⟨depths, registers, seen, _, _, _, hread, reclaimIfDrained_eq_ok hreclaim,
    serveFirst_eq_ok hserve, ?_⟩
  rw [Event.deeds_append, Event.deeds_append, hdeeds, Registers.deeds_of_sample hread,
    List.append_assoc]

/-- A successful run is turns that go on and one turn that ends it: what the former preserve, the
latter turns into what holds at the end.  Both also speak of the record, which is `past` before the
run. -/
theorem run_rec {I : Engine P R → List Event → Prop} {J : Pause → Engine P R → List Event → Prop}
    (hgoes : ∀ {engine engine' : Engine P R} {past events}, I engine past →
      turn engine = ⟨.ok none, engine', events⟩ → I engine' (past ++ events))
    (hends : ∀ {engine engine' : Engine P R} {pause past events}, I engine past →
      turn engine = ⟨.ok (some pause), engine', events⟩ → J pause engine' (past ++ events))
    {engine final : Engine P R} {pause : Pause} {events : List Event} (past : List Event)
    (hI : I engine past) (h : run engine = ⟨.ok pause, final, events⟩) :
    J pause final (past ++ events) := by
  -- By the work that is left, which every turn lowers that does not end the loop.
  induction hn : engine.workload using Nat.strongRecOn generalizing engine past events with
  | ind n ih =>
    cases hone : turn engine with
    | mk result next first =>
      cases result with
      | error fault =>
        rw [run_of_turn_eq_error hone] at h
        simp at h
      | ok pause? =>
        cases pause? with
        | some pause' =>
          rw [run_of_turn_eq_some hone] at h
          simp only [Outcome.mk.injEq, Except.ok.injEq] at h
          obtain ⟨rfl, rfl, rfl⟩ := h
          exact hends hI hone
        | none =>
          rw [run_of_turn_eq_none hone] at h
          cases hrest : run next with
          | mk result' last rest =>
            rw [hrest] at h
            simp only [Outcome.after, Outcome.mk.injEq] at h
            obtain ⟨rfl, rfl, rfl⟩ := h
            rw [← List.append_assoc]
            exact ih next.workload (hn ▸ workload_lt_of_turn hone) _ (hgoes hI hone) hrest rfl

/-- What every successful turn preserves, a successful run preserves. -/
theorem run_induction {I : Engine P R → List Event → Prop}
    (hturn : ∀ {engine engine' : Engine P R} {pause? past events}, I engine past →
      turn engine = ⟨.ok pause?, engine', events⟩ → I engine' (past ++ events))
    {engine final : Engine P R} {pause : Pause} {events : List Event} (past : List Event)
    (hI : I engine past) (h : run engine = ⟨.ok pause, final, events⟩) :
    I final (past ++ events) :=
  run_rec (J := fun _ => I) hturn hturn past hI h

end Engine

end DmaQueue
