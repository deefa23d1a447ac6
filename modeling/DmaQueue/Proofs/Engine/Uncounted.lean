/-
  DmaQueue.Proofs.Engine.Uncounted

  The counters of an engine and of a region table are written and never read:
  with them left out of the view, every act on an engine over a region table
  respects the view.
-/
import DmaQueue.Pinner.RegionTable
import DmaQueue.Proofs.Act.Respects
import DmaQueue.Proofs.Engine.History

namespace DmaQueue

open Act (Respects)

/-! ## The region table -/

namespace RegionTable

/-- The table with its counts of calls at zero. -/
def uncounted (table : RegionTable) : RegionTable :=
  { table with pinCalls := 0, unpinCalls := 0 }

theorem uncounted_eq {table table' : RegionTable} (h : table.uncounted = table'.uncounted) :
    ∃ pinCalls unpinCalls, table' = { table with pinCalls, unpinCalls } := by
  refine ⟨table'.pinCalls, table'.unpinCalls, ?_⟩
  obtain ⟨_, _, _, _, _, _⟩ := table
  obtain ⟨_, _, _, _, _, _⟩ := table'
  simp only [uncounted, RegionTable.mk.injEq, and_true] at h ⊢
  obtain ⟨rfl, rfl, rfl, rfl⟩ := h
  exact ⟨rfl, rfl, rfl, rfl⟩

/-- What is computed without a look at the counts is the same for tables that look the same. -/
theorem congr_uncounted {α : Type} {f : RegionTable → α}
    (hf : ∀ table pinCalls unpinCalls, f { table with pinCalls, unpinCalls } = f table)
    (table table' : RegionTable) (h : table.uncounted = table'.uncounted) : f table = f table' := by
  obtain ⟨pinCalls, unpinCalls, rfl⟩ := uncounted_eq h
  exact (hf table pinCalls unpinCalls).symm

theorem respects_pinPage (page : UInt64) (writable : Bool) :
    Respects uncounted (pinPage page writable) := by
  -- A page is looked up in the regions and the references.
  refine .get_bind (congr_uncounted fun _ _ _ => rfl) fun table =>
    .bind (.ofExcept _) fun answer => ?_
  cases answer with
  | error failure => exact .pure _
  | ok pinned => exact .bind (.modify (congr_uncounted fun _ _ _ => rfl)) fun _ => .pure _

theorem respects_pinUpwards (page : UInt64) (writable : Bool) (further : Nat) :
    Respects uncounted (pinUpwards page writable further) := by
  induction further generalizing page with
  | zero =>
    refine .bind (respects_pinPage page writable) fun answer => ?_
    cases answer <;> exact .pure _
  | succ further ih =>
    refine .bind (respects_pinPage page writable) fun answer => ?_
    cases answer with
    | error failure => exact .pure _
    | ok pinned =>
      exact .bind (.ofExcept _) fun above => .bind (ih above) fun _ => .pure _

theorem respects_pin (address length : UInt64) (writable : Bool) :
    Respects uncounted (pin address length writable) := by
  -- The call is counted first, where nothing is seen of it.
  refine .bind (.modify (congr_uncounted fun _ _ _ => rfl)) fun _ => ?_
  split
  · exact .pure _
  split
  · exact .pure _
  · refine .bind (.ofExcept _) fun first => .bind (.ofExcept _) fun count =>
      .bind (respects_pinUpwards _ _ _) fun answer => ?_
    split
    · exact .pure _
    · exact .bind (.emit _) fun _ => .pure _
    · exact .bind (.emit _) fun _ => .pure _

theorem respects_unpin (page : PinnedPage) (dirty : Bool) :
    Respects uncounted (unpin page dirty) := by
  refine .bind (.modify (congr_uncounted fun _ _ _ => rfl)) fun _ =>
    .get_bind (congr_uncounted fun _ _ _ => rfl) fun table => ?_
  split
  · exact .emit _
  · exact .modify (congr_uncounted fun _ _ _ => rfl)

theorem respects_pinRange (address length : UInt64) (writable : Bool) :
    Respects uncounted (Pinner.pinRange address length writable : Act Event RegionTable _) :=
  .bind (.mapEvents (respects_pin address length writable)) fun _ =>
    .bind (.emit _) fun _ => .pure _

theorem respects_unpinAll (dirty : Bool) (pages : List PinnedPage) :
    Respects uncounted (Pinner.unpinAll dirty pages : Act Event RegionTable Unit) := by
  induction pages with
  | nil => exact .pure _
  | cons page rest ih =>
    have hpage : Respects uncounted (Pinner.unpinPage page dirty : Act Event RegionTable Unit) :=
      .bind (.mapEvents (respects_unpin page dirty)) fun _ => .emit _
    exact .bind hpage fun _ => ih

end RegionTable

/-! ## The engine -/

namespace Engine

variable {R α : Type}

/-- The engine with all its counters at zero, those of its region table included. -/
def uncounted (engine : Engine RegionTable R) : Engine RegionTable R :=
  { engine with pinner := engine.pinner.uncounted, tally := {} }

theorem uncounted_eq {engine engine' : Engine RegionTable R}
    (h : engine.uncounted = engine'.uncounted) :
    ∃ tally pinCalls unpinCalls,
      engine' = { engine with tally, pinner := { engine.pinner with pinCalls, unpinCalls } } := by
  obtain ⟨_, table, _, _, _, _⟩ := engine
  obtain ⟨_, table', _, _, _, tally⟩ := engine'
  simp only [uncounted, Engine.mk.injEq, and_true] at h
  obtain ⟨rfl, htable, rfl, rfl, rfl⟩ := h
  obtain ⟨pinCalls, unpinCalls, rfl⟩ := RegionTable.uncounted_eq htable
  exact ⟨tally, pinCalls, unpinCalls, rfl⟩

/-- What is computed without a look at a counter is the same for engines that look the same. -/
theorem congr_uncounted {f : Engine RegionTable R → α}
    (hf : ∀ engine tally pinCalls unpinCalls,
      f { engine with tally, pinner := { engine.pinner with pinCalls, unpinCalls } } = f engine)
    (engine engine' : Engine RegionTable R) (h : engine.uncounted = engine'.uncounted) :
    f engine = f engine' := by
  obtain ⟨tally, pinCalls, unpinCalls, rfl⟩ := uncounted_eq h
  exact (hf engine tally pinCalls unpinCalls).symm

theorem respects_onPinner {m : Act Event RegionTable α} (h : Respects RegionTable.uncounted m) :
    Respects uncounted (onPinner m : Act Event (Engine RegionTable R) α) := by
  refine .zoom ?_ ?_ h
  · intro engine engine' heq
    exact congrArg Engine.pinner heq
  · intro engine engine' table table' heq htable
    obtain ⟨_, _, _, rfl⟩ := uncounted_eq heq
    simp only [uncounted, htable]

theorem respects_onRegisters (m : Act Event R α) :
    Respects uncounted (onRegisters m : Act Event (Engine RegionTable R) α) := by
  refine .zoom (congr_uncounted fun _ _ _ _ => rfl) ?_ (.id m)
  · rintro engine engine' r r' heq rfl
    obtain ⟨_, _, _, rfl⟩ := uncounted_eq heq
    rfl

theorem respects_count (f : Tally → Tally) :
    Respects uncounted (count f : Act Event (Engine RegionTable R) Unit) := by
  apply Respects.modify
  intro engine engine' h
  exact h

theorem respects_reclaimAll (ts : List Transfer) :
    Respects uncounted (reclaimAll ts : Act Event (Engine RegionTable R) Unit) := by
  induction ts with
  | nil => exact .pure _
  | cons t rest ih =>
    have hrelease : Respects RegionTable.uncounted (t.release : Act Event RegionTable Unit) :=
      .bind (RegionTable.respects_unpinAll _ _) fun _ => RegionTable.respects_unpinAll _ _
    exact .bind (.modify (congr_uncounted fun _ _ _ _ => rfl)) fun _ =>
      .bind (respects_onPinner hrelease) fun _ => .bind (respects_count _) fun _ => ih

theorem respects_reclaimIfDrained (depths : Depths) :
    Respects uncounted (reclaimIfDrained depths : Act Event (Engine RegionTable R) Unit) := by
  -- Whether anything is in flight is asked, but not how much was done before.
  refine .get_bind (congr_uncounted fun _ _ _ _ => rfl) fun engine => ?_
  split
  · exact .get_bind (congr_uncounted fun _ _ _ _ => rfl) fun engine =>
      .bind (respects_reclaimAll _) fun _ => .emit _
  · exact .pure _

variable [Registers R]

theorem respects_serve (t : Transfer) (rest : List Transfer) (depths : Depths) :
    Respects uncounted (serve t rest depths : Act Event (Engine RegionTable R) (Option Pause)) := by
  -- The issuer is given the head and the registers, which are no counters.
  have hissue : ∀ config, Respects uncounted
      (onIssuer t rest (Issuer.step config depths) : Act Event (Engine RegionTable R) Report) := by
    intro config
    refine .zoom (congr_uncounted fun _ _ _ _ => rfl) ?_ (.id _)
    rintro engine engine' issuer issuer' heq rfl
    obtain ⟨_, _, _, rfl⟩ := uncounted_eq heq
    rfl
  have hretire : Respects uncounted
      (Act.modify retireHead : Act Event (Engine RegionTable R) Unit) := by
    refine .modify (congr_uncounted ?_)
    rintro ⟨config, table, registers, pending, inFlight, _⟩ tally pinCalls unpinCalls
    cases pending <;> rfl
  refine .get_bind (congr_uncounted fun _ _ _ _ => rfl) fun engine =>
    .bind (hissue engine.config) fun report => ?_
  cases report with
  | issued side => exact .bind (respects_count _) fun _ => .pure _
  | finished side => exact .bind (respects_count _) fun _ => .bind hretire fun _ => .pure _
  | stalled side => exact .bind (respects_count _) fun _ => .bind (.emit _) fun _ => .pure _
  | alreadySent => exact .bind hretire fun _ => .pure _

theorem respects_turn :
    Respects uncounted (turn : Act Event (Engine RegionTable R) (Option Pause)) := by
  have hsample : Respects uncounted (sample : Act Event (Engine RegionTable R) Depths) :=
    .bind (respects_onRegisters _) fun _ => .bind (.emit _) fun _ => .pure _
  refine .bind hsample fun depths => .bind (respects_reclaimIfDrained depths) fun _ =>
    .get_bind (congr_uncounted fun _ _ _ _ => rfl) fun engine => ?_
  cases engine.pending with
  | nil => exact .pure _
  | cons t rest => exact respects_serve t rest depths

/-- The loop makes the same turns from engines that look the same, so it ends the same way. -/
theorem respects_run : Respects uncounted (run : Act Event (Engine RegionTable R) Pause) := by
  intro engine engine' h
  induction hn : engine.workload using Nat.strongRecOn generalizing engine engine' with
  | ind n ih =>
    have hturn := respects_turn engine engine' h
    cases hone : turn engine with
    | mk result next events =>
      cases hone' : turn engine' with
      | mk result' next' events' =>
        rw [hone, hone'] at hturn
        simp only [Outcome.seen, Outcome.mk.injEq] at hturn
        -- The turns answer the same, so both loops end here or both go on.
        obtain ⟨rfl, hnext, rfl⟩ := hturn
        cases result with
        | error fault =>
          rw [run_of_turn_eq_error hone, run_of_turn_eq_error hone']
          simp only [Outcome.seen, hnext]
        | ok pause? =>
          cases pause? with
          | some pause =>
            rw [run_of_turn_eq_some hone, run_of_turn_eq_some hone']
            simp only [Outcome.seen, hnext]
          | none =>
            have hrest := ih next.workload (hn ▸ workload_lt_of_turn hone) next next' hnext rfl
            simp only [Outcome.seen, Outcome.mk.injEq] at hrest
            rw [run_of_turn_eq_none hone, run_of_turn_eq_none hone']
            simp only [Outcome.seen, Outcome.after, hrest]

theorem respects_submit (request : Request) :
    Respects uncounted
      (submit request : Act Event (Engine RegionTable R) (Except Failure Unit)) := by
  have hpinRange : ∀ address length writable, Respects uncounted
      (pinRange address length writable : Act Event (Engine RegionTable R) (List PinnedPage)) := by
    intro address length writable
    refine .bind (respects_onPinner (RegionTable.respects_pinRange _ _ _)) fun answer => ?_
    cases answer with
    | ok pages => exact .pure _
    | error failure => exact .bind (.emit _) fun _ => .pure _
  -- The request is checked against the parameters alone.
  refine .get_bind (congr_uncounted fun _ _ _ _ => rfl) fun engine =>
    .bind (.ofExcept _) fun verdict => ?_
  cases verdict with
  | error rejection => exact .bind (respects_count _) fun _ => .bind (.emit _) fun _ => .pure _
  | ok admitted =>
    refine .bind (hpinRange _ _ _) fun source => .bind (hpinRange _ _ _) fun dest => ?_
    split
    · exact .bind (.emit _) fun _ => .bind (.modify (congr_uncounted fun _ _ _ _ => rfl)) fun _ =>
        .bind (respects_count _) fun _ => .bind respects_run fun _ => .pure _
    · exact .bind (.ofExcept _) fun _ =>
        .bind (respects_onPinner (RegionTable.respects_unpinAll _ _)) fun _ =>
          .bind (respects_count _) fun _ => .bind (.emit _) fun _ => .pure _

/-- No call looks at a counter. -/
theorem respects_act (call : Call R) :
    Respects uncounted (call.act : Act Event (Engine RegionTable R) Answer) := by
  cases call with
  | submit request => exact .bind (respects_submit request) fun _ => .pure _
  | poll =>
    have hpoll : Respects uncounted (poll : Act Event (Engine RegionTable R) Bool) :=
      .bind respects_run fun _ => .get_bind (congr_uncounted fun _ _ _ _ => rfl) fun _ => .pure _
    exact .bind hpoll fun _ => .pure _
  | hardware change => exact .bind (.modify (congr_uncounted fun _ _ _ _ => rfl)) fun _ => .pure _

end Engine

end DmaQueue
