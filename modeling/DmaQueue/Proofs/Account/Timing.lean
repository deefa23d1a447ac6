/-
  DmaQueue.Proofs.Account.Timing

  When the FIFOs have room makes no difference in the end.  An engine over a
  region table that has nothing left to do has written the streams of all its
  transfers, has given back all their references, and has counted what they are;
  only the stalls tell how often it had to wait.
-/
import DmaQueue.Proofs.Account.Counters
import DmaQueue.Proofs.Engine.Custody
import DmaQueue.Proofs.Engine.Refusal
import DmaQueue.Proofs.Issue.Packing

namespace DmaQueue

open Tally (Counter)
open Transfer (pageTotal)

/-! ## Transfers that are sent -/

namespace Transfer

theorem eq_of_fresh {t u : Transfer} (h : t.fresh = u.fresh) (ht : t.progress = .sent)
    (hu : u.progress = .sent) : t = u := by
  obtain ⟨request, outputLength, source, dest, progress⟩ := t
  obtain ⟨request', outputLength', source', dest', progress'⟩ := u
  simp only [fresh, Transfer.mk.injEq, and_true] at h
  obtain ⟨rfl, rfl, rfl, rfl⟩ := h
  rw [show progress = .sent from ht, show progress' = .sent from hu]

/-- Transfers that are sent differ in nothing but what they were when they were queued. -/
theorem eq_of_map_fresh {ts us : List Transfer} (h : ts.map fresh = us.map fresh)
    (hts : ∀ t ∈ ts, t.progress = .sent) (hus : ∀ u ∈ us, u.progress = .sent) : ts = us := by
  induction ts generalizing us with
  | nil => exact (List.map_eq_nil_iff.1 h.symm).symm
  | cons t rest ih =>
    cases us with
    | nil => simp at h
    | cons u others =>
      rw [List.map_cons, List.map_cons, List.cons.injEq] at h
      rw [eq_of_fresh h.1 (hts t (List.mem_cons_self ..)) (hus u (List.mem_cons_self ..)),
        ih h.2 (fun v hv => hts v (List.mem_cons_of_mem _ hv))
          fun v hv => hus v (List.mem_cons_of_mem _ hv)]

end Transfer

/-! ## Calls on the region table -/

theorem Event.length_releases_flatMap (ts : List Transfer) :
    (releases (ts.flatMap Transfer.releaseDeeds)).length = pageTotal ts := by
  induction ts with
  | nil => rfl
  | cons t rest ih =>
    rw [List.flatMap_cons, releases_append, List.length_append, ih, Transfer.releaseDeeds,
      releases_append, releases_unpinned, releases_unpinned, List.length_append,
      Nat.add_comm t.dest.pages.length]
    rfl

namespace RegionTable

variable {table table' : RegionTable} {events : List Event}

theorem called_of_release {t : Transfer} (h : t.release table = ⟨.ok (), table', events⟩) :
    table.Called 0 t.pageCount table' := by
  obtain ⟨_, mid, _, _, hdest, hsource, -⟩ := Act.bind_eq_ok_iff.1 h
  have hboth := (called_of_unpinAll hdest).trans (called_of_unpinAll hsource)
  rw [Nat.add_comm t.dest.pages.length] at hboth
  exact hboth

theorem called_of_releaseAll {ts : List Transfer}
    (h : Engine.releaseAll ts table = ⟨.ok (), table', events⟩) :
    table.Called 0 (pageTotal ts) table' := by
  induction ts generalizing table events with
  | nil =>
    obtain ⟨-, rfl, -⟩ := Act.pure_eq_ok_iff.1 h
    exact .refl table
  | cons t rest ih =>
    obtain ⟨_, mid, _, _, hone, hrest, -⟩ := Act.bind_eq_ok_iff.1 h
    exact (called_of_release hone).trans (ih hrest)

end RegionTable

namespace Engine

variable {R : Type}

section Calls

variable {start engine engine' : Engine RegionTable R} {depths : Depths} {events : List Event}

theorem Reclaims.called (h : Reclaims depths engine engine' events) :
    engine.pinner.Called 0 (Event.releases events).length engine'.pinner := by
  rw [h.events_eq, Event.length_releases_flatMap]
  cases h with
  | kept hbusy =>
    rw [returned, if_neg hbusy]
    exact .refl _
  | freed hdrained hrelease =>
    rw [returned, if_pos hdrained]
    exact RegionTable.called_of_releaseAll hrelease

variable [Registers R] {device : (R → R) → Prop} {ts freed : List Transfer}

/-- The table has counted the calls that stand in the record of a move. -/
theorem Move.called (h : Move device engine ts freed events engine') :
    engine.pinner.Called (Event.grants events).length (Event.releases events).length
      engine'.pinner := by
  cases h with
  | @turned _ mid depths registers _ released written _ _ hreclaim hserve =>
    have hgrants : Event.grants (depths.reads ++ released ++ written) = [] := by
      rw [Event.grants_append, Event.grants_append, hreclaim.grants_eq, hserve.grants_eq]
      rfl
    have hreleases : Event.releases (depths.reads ++ released ++ written) =
        Event.releases released := by
      have hnone : Event.releases written = [] := by cases hserve <;> rfl
      rw [Event.releases_append, Event.releases_append, hnone, List.append_nil]
      rfl
    have hcalled := hreclaim.called
    show engine.pinner.Called (Event.grants (depths.reads ++ released ++ written)).length
      (Event.releases (depths.reads ++ released ++ written)).length engine'.pinner
    rw [hgrants, hreleases, hserve.pinner_eq]
    exact hcalled
  | hardware | rejected => exact .refl _
  | rolledBack hpins hrelease =>
    rename_i source dest p p' _
    have hcalled := hpins.called.trans (RegionTable.called_of_unpinAll hrelease)
    rw [Nat.zero_add] at hcalled
    rw [Event.grants_append, Event.grants_unpinned, Event.releases_append,
      Event.releases_unpinned]
    exact hcalled
  | queued _ hpins _ => exact hpins.called

theorem Moves.called (h : Moves device start ts freed events engine) :
    start.pinner.Called (Event.grants events).length (Event.releases events).length
      engine.pinner := by
  induction h with
  | refl => exact .refl _
  | step _ hmove ih =>
    rw [Event.grants_append, Event.releases_append, List.length_append, List.length_append]
    exact ih.trans hmove.called

end Calls

/-! ## Histories without failures -/

/-- In a history without failed submissions every request was accepted, two pin calls were made for
it, and pages were released for the reclaimed transfers only. -/
structure Unfailed {P : Type} (log : List (Exchange P R)) (freed : List (List Transfer)) :
    Prop where
  accepted : log.filterMap Exchange.accepted? = log.filterMap (·.call.request?)
  rejected : log.countP (·.rejected) = 0
  rolledBack : log.countP (·.rolledBack) = 0
  grants : (Event.grants (record log)).length = 2 * (log.filterMap Exchange.accepted?).length
  releases : (Event.releases (record log)).length = pageTotal freed.flatten

theorem grants_releaseDeeds (ts : List Transfer) :
    Event.grants (ts.flatMap Transfer.releaseDeeds) = [] := by
  rw [Event.grants, List.filterMap_eq_nil_iff]
  intro e he
  have hrelease := isRelease_of_mem_releaseDeeds e he
  cases e with
  | unpinned page dirty => rfl
  | loaded | stored | pinned | noted => simp [Event.isRelease] at hrelease

theorem Exchange.Settles.unfailed {P : Type} {config : Config} {x : Exchange P R}
    {freed : List Transfer} (h : x.Settles config freed) (hok : x.failed = false) :
    Unfailed [x] [freed] := by
  have hgrants := Event.grants_pinnerCalls x.outcome.events
  have hreleases := Event.releases_pinnerCalls x.outcome.events
  cases h with
  | rejected | rolledBack => simp [Exchange.failed] at hok
  | @queued request admitted source dest freed state events hadmitted hwhole hcalls =>
    simp only [hcalls, Event.grants_append, grants_releaseDeeds] at hgrants
    simp only [hcalls, Event.releases_append] at hreleases
    constructor
    case accepted | rejected | rolledBack => rfl
    case grants =>
      rw [record_singleton, ← hgrants]
      rfl
    case releases =>
      rw [record_singleton, ← hreleases, List.length_append, Event.length_releases_flatMap,
        List.flatten_singleton]
      exact Nat.zero_add _
  | @polled busy freed state events hcalls =>
    rw [hcalls, grants_releaseDeeds] at hgrants
    rw [hcalls] at hreleases
    constructor
    case accepted | rejected | rolledBack => rfl
    case grants =>
      rw [record_singleton, ← hgrants]
      rfl
    case releases =>
      rw [record_singleton, ← hreleases, Event.length_releases_flatMap, List.flatten_singleton]
  | changed => exact ⟨rfl, rfl, rfl, rfl, rfl⟩

theorem Unfailed.append {P : Type} {log later : List (Exchange P R)}
    {freed more : List (List Transfer)} (h : Unfailed log freed) (h' : Unfailed later more) :
    Unfailed (log ++ later) (freed ++ more) := by
  constructor
  case accepted =>
    rw [List.filterMap_append, List.filterMap_append, h.accepted, h'.accepted]
  case rejected => rw [List.countP_append, h.rejected, h'.rejected]
  case rolledBack => rw [List.countP_append, h.rolledBack, h'.rolledBack]
  case grants =>
    rw [record_append, Event.grants_append, List.length_append, h.grants, h'.grants,
      List.filterMap_append, List.length_append, Nat.mul_add]
  case releases =>
    rw [record_append, Event.releases_append, List.length_append, h.releases, h'.releases,
      List.flatten_append, Transfer.pageTotal_append]

theorem unfailed_of_settles {P : Type} {config : Config} {log : List (Exchange P R)}
    {freed : List (List Transfer)} (h : List.Forall₂ (Exchange.Settles config) log freed)
    (hok : ∀ x ∈ log, x.failed = false) : Unfailed log freed := by
  induction h with
  | nil => exact ⟨rfl, rfl, rfl, rfl, rfl⟩
  | @cons x ts log freed hx _ ih =>
    have hone := hx.unfailed (hok x (List.mem_cons_self ..))
    exact hone.append (ih fun y hy => hok y (List.mem_cons_of_mem _ hy))

/-! ## Engines at rest -/

/-- What is counted, besides stalls, where requests were queued, transfers reclaimed and descriptors
written. -/
def restCounts (queued freed : List Transfer) (pushed : List (Side × Descriptor)) : Counter → Nat
  | .submitted => queued.length
  | .rejected => 0
  | .rollbacks => 0
  | .descriptors side => (side.part pushed).length
  | .stalls => 0
  | .reclaimedTransfers => freed.length
  | .reclaimedPages => pageTotal freed

/-- The engine has come to rest from `start`.  Before that the table was once `before`, and since
then some transfers had been `reclaimed` and some descriptors `pushed`; what the history added to
these are the transfers `freed` and the descriptors `more`, and they follow from the requests that
were `queued`. -/
structure Rests (start : Engine RegionTable R) (before : RegionTable) (reclaimed : List Transfer)
    (pushed : List (Side × Descriptor)) (queued freed : List Transfer)
    (more : List (Side × Descriptor)) (final : Engine RegionTable R) : Prop where
  order : freed.map Transfer.fresh =
    (start.inFlight ++ start.pending).map Transfer.fresh ++ queued
  sent : ∀ t ∈ freed, t.progress = .sent
  stream : (pushed ++ more).map (fun push => (push.1, Except.ok push.2)) =
    (reclaimed ++ freed).flatMap (·.stream start.config.pageSize)
  held : final.pinner.held = before.held
  dirty : ∀ q, q ∈ final.pinner.dirty.pages ↔
    q ∈ before.dirty.pages ∨ ∃ t ∈ reclaimed ++ freed, q ∈ PinnedPage.virts t.dest.pages
  called : start.pinner.Called (2 * queued.length) (pageTotal freed) final.pinner
  tally : ∀ c, c ≠ .stalls →
    final.tally.counter c =
      Word.saturatingAdd (start.tally.counter c) (restCounts queued freed more c)

variable [Registers R] {start final : Engine RegionTable R} {before : RegionTable}
  {accepted reclaimed : List Transfer} {pushed : List (Side × Descriptor)}
  {calls : List (Call R)} {log : List (Exchange RegionTable R)}

/-- A history without failures that ends with nothing to do brings the engine to rest. -/
theorem rests_of_play (hconfig : start.config.Sound) (hbooks : Books accepted reclaimed start)
    (hissued : Issued reclaimed start pushed) (hcustody : Custody before reclaimed start)
    (hplay : play calls start = ⟨.ok (), final, log⟩) (hok : ∀ x ∈ log, x.failed = false)
    (hidle : final.hasWork = false) :
    ∃ freed more, Event.writes (record log) = more.flatMap halves ∧
      Rests start before reclaimed pushed (queuedTransfers start.config log) freed more final := by
  obtain ⟨freed, hmoves, hsettles, htally⟩ := settled_of_history hplay
  obtain ⟨-, hrequests⟩ := moves_of_play hplay
  have hunfailed := unfailed_of_settles hsettles hok
  have hfinal := hbooks.moves hconfig hmoves
  obtain ⟨more, hstream, hwrites⟩ := hissued.moves hbooks hconfig hmoves
  rw [Event.writes_deeds] at hwrites
  have hlast := hcustody.moves hmoves
  have hcalled := hmoves.called
  rw [Event.grants_deeds, Event.releases_deeds, hunfailed.grants, hunfailed.releases, ← hrequests,
    List.length_map] at hcalled
  obtain ⟨hpending, hinFlight⟩ : final.pending = [] ∧ final.inFlight = [] := by
    simpa [hasWork] using hidle
  refine ⟨freed.flatten, more, hwrites, ?_⟩
  constructor
  case order =>
    have horder := hfinal.order
    rw [hpending, hinFlight, List.append_nil, List.append_nil, hbooks.order] at horder
    simp only [List.map_append, List.append_assoc] at horder ⊢
    exact (List.append_cancel_left horder).symm
  case sent => exact fun t ht => (hfinal.left t (List.mem_append_right _ ht)).2
  case stream =>
    unfold Issued at hstream
    rw [hpending, hinFlight, List.append_nil, hmoves.config_eq] at hstream
    rw [hstream]
    exact List.append_nil _
  case held =>
    apply PageBag.ext_count
    intro q
    rw [hlast.held, livePages, hpending, hinFlight]
    rfl
  case dirty => exact hlast.dirty
  case called => exact hcalled
  case tally =>
    intro c hc
    have hcount : counts log freed.flatten c =
        restCounts (queuedTransfers start.config log) freed.flatten more c := by
      have hlength := congrArg List.length hrequests
      rw [List.length_map, List.length_filterMap_eq_countP] at hlength
      cases c with
      | submitted => exact hlength.symm
      | rejected => exact hunfailed.rejected
      | rollbacks => exact hunfailed.rolledBack
      | descriptors side => exact Event.descriptorsTo_of_halves hwrites side
      | stalls => exact absurd rfl hc
      | reclaimedTransfers | reclaimedPages => rfl
    rw [htally, Tally.counter_plus, hcount]

/-- For given regions, requests that can be queued make the same transfers. -/
theorem eq_of_map_request {config : Config} {regions : List Region} {ts us : List Transfer}
    (hconfig : config.Sound) (hsize : config.pageSize = Page.standardSize)
    (hts : ∀ t ∈ ts, Queueable config regions t) (hus : ∀ u ∈ us, Queueable config regions u)
    (h : ts.map Transfer.request = us.map Transfer.request) : ts = us := by
  induction ts generalizing us with
  | nil => exact (List.map_eq_nil_iff.1 h.symm).symm
  | cons t rest ih =>
    cases us with
    | nil => simp at h
    | cons u others =>
      rw [List.map_cons, List.map_cons, List.cons.injEq] at h
      obtain ⟨ht, hrest⟩ := List.forall_mem_cons.1 hts
      obtain ⟨hu, hothers⟩ := List.forall_mem_cons.1 hus
      rw [ht.eq_of_request hu hconfig hsize h.1, ih hrest hothers h.2]

/-- Without failures, what a history queues follows from the requests that it submits. -/
theorem queued_of_play (hplay : play calls start = ⟨.ok (), final, log⟩)
    (hok : ∀ x ∈ log, x.failed = false) :
    (∀ t ∈ queuedTransfers start.config log, Queueable start.config start.pinner.regions t) ∧
      (queuedTransfers start.config log).map Transfer.request =
        calls.filterMap Call.request? := by
  obtain ⟨freed, hmoves, hsettles, -⟩ := settled_of_history hplay
  obtain ⟨-, hrequests⟩ := moves_of_play hplay
  refine ⟨queueable_of_moves hmoves, ?_⟩
  rw [hrequests, (unfailed_of_settles hsettles hok).accepted, ← calls_eq_of_play hplay,
    List.filterMap_map]
  rfl

/-! ## Timing makes no difference -/

/-- Take an engine that a history has led to, and two ways to go on from it, over any two control
blocks.  Both submit the same requests in the same order; they may poll when they like, and the
device side may do what it likes.  If no submission fails and both end with nothing to do, then both
have written the same descriptors and leave the same region table, and all their counters but the
stalls are the same. -/
theorem same_rest_of_play {R' : Type} [Registers R'] {config : Config} {pinner : RegionTable}
    {registers : R} {registers' : R'} {notes : List Note} {fresh : Engine RegionTable R}
    {final' : Engine RegionTable R'} {earlier : List (Call R)} {calls' : List (Call R')}
    {past : List (Exchange RegionTable R)} {log' : List (Exchange RegionTable R')}
    (hcreate : create config pinner registers = (notes, .ok fresh))
    (hearlier : play earlier fresh = ⟨.ok (), start, past⟩)
    (hplay : play calls start = ⟨.ok (), final, log⟩)
    (hplay' : play calls' { start with registers := registers' } = ⟨.ok (), final', log'⟩)
    (hsame : calls.filterMap Call.request? = calls'.filterMap Call.request?)
    (hok : ∀ x ∈ log, x.failed = false) (hok' : ∀ x ∈ log', x.failed = false)
    (hidle : final.hasWork = false) (hidle' : final'.hasWork = false) :
    (∃ pushed : List (Side × Descriptor),
      Event.writes (record log) = pushed.flatMap halves ∧
        Event.writes (record log') = pushed.flatMap halves) ∧
      final.pinner = final'.pinner ∧
      ∀ c, c ≠ .stalls → final.tally.counter c = final'.tally.counter c := by
  obtain ⟨hflaw, hgranule, rfl⟩ := create_eq_ok hcreate
  obtain ⟨⟨reclaimed, hmoves⟩, -⟩ := moves_of_play hearlier
  have hconfig : start.config = config := hmoves.config_eq
  have hsound : start.config.Sound := hconfig ▸ Config.sound_of_flaw? hflaw
  have hsize : start.config.pageSize = Page.standardSize := hconfig ▸ hgranule.symm
  have hbooks := books_of_moves hmoves (Config.sound_of_flaw? hflaw) rfl rfl
  obtain ⟨pushed, hissued, -⟩ := issued_of_moves hmoves (Config.sound_of_flaw? hflaw) rfl rfl
  have hcustody := custody_of_moves hmoves rfl rfl
  -- The control block has no part in what is known of the engine.
  let start' : Engine RegionTable R' := { start with registers := registers' }
  have hsound' : start'.config.Sound := hsound
  have hbooks' : Books _ reclaimed start' := hbooks.of_queues_eq rfl rfl
  have hissued' : Issued reclaimed start' pushed := hissued
  have hcustody' : Custody pinner reclaimed start' := ⟨hcustody.held, hcustody.dirty⟩
  obtain ⟨hqueueable, hrequests⟩ := queued_of_play hplay hok
  obtain ⟨hqueueable', hrequests'⟩ := queued_of_play hplay' hok'
  have hqueued : queuedTransfers start.config log = queuedTransfers start'.config log' := by
    apply eq_of_map_request hsound hsize hqueueable hqueueable'
    rw [hrequests, hrequests', hsame]
  obtain ⟨freed, more, hwrites, hrests⟩ :=
    rests_of_play hsound hbooks hissued hcustody hplay hok hidle
  obtain ⟨freed', more', hwrites', hrests'⟩ :=
    rests_of_play hsound' hbooks' hissued' hcustody' hplay' hok' hidle'
  have hfreed : freed = freed' := by
    apply Transfer.eq_of_map_fresh _ hrests.sent hrests'.sent
    rw [hrests.order, hrests'.order, hqueued]
  subst hfreed
  have hmore : more = more' :=
    List.append_cancel_left (map_ok_injective (hrests.stream.trans hrests'.stream.symm))
  subst hmore
  refine ⟨⟨more, hwrites, hwrites'⟩, ?_, ?_⟩
  · have hcalled := hrests.called
    rw [hqueued] at hcalled
    apply hcalled.unique hrests'.called
    · rw [hrests.held, hrests'.held]
    · apply PageSet.ext_mem
      intro page
      rw [hrests.dirty, hrests'.dirty]
  · intro c hc
    rw [hrests.tally c hc, hrests'.tally c hc, hqueued]

/-- A request to come after the first one of the small history. -/
def lateRequest : Request :=
  { source := 0x11000, dest := 0x13000, length := 0x2000, opcode := 0, attr := 0 }

/-- The first request is done before the late one is submitted. -/
def patientHistory : List (Call FifoPair) :=
  [ .hardware FifoPair.drained, .poll, .hardware FifoPair.drained, .submit lateRequest,
    .hardware FifoPair.drained, .poll, .hardware FifoPair.drained, .poll ]

/-- The late request is submitted while the first one waits. -/
def hastyHistory : List (Call FifoPair) :=
  [.submit lateRequest, .hardware FifoPair.drained, .poll]

/-- The patient way has to wait for the FIFOs, which are never full on the hasty one. -/
theorem same_rest_of_lateRequest :
    let start := (play (smallHistory.take 1) smallEngine).state
    let patient := (play patientHistory start).state
    let hasty :=
      (play hastyHistory { start with registers := ({ capacity := 1 } : FifoPair) }).state
    start.hasWork = true ∧ patient.pinner = hasty.pinner ∧
      patient.tally.sourceDescriptors = hasty.tally.sourceDescriptors ∧
      patient.tally.stalls = 3 ∧ hasty.tally.stalls = 1 := by
  intro start patient hasty
  have hplay : play patientHistory start = ⟨.ok (), patient, (play patientHistory start).events⟩ :=
    Outcome.eq_of_isOk (by decide +kernel)
  have hplay' : play hastyHistory { start with registers := ({ capacity := 1 } : FifoPair) } =
      ⟨.ok (), hasty, (play hastyHistory
        { start with registers := ({ capacity := 1 } : FifoPair) }).events⟩ :=
    Outcome.eq_of_isOk (by decide +kernel)
  obtain ⟨-, htable, hcounters⟩ := same_rest_of_play create_smallEngine play_smallSubmission hplay
    hplay' rfl (by decide +kernel) (by decide +kernel) (by decide +kernel) (by decide +kernel)
  exact ⟨by decide +kernel, htable, hcounters (.descriptors .source) (by decide),
    by decide +kernel, by decide +kernel⟩

end Engine

end DmaQueue
