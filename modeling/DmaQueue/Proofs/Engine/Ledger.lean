/-
  DmaQueue.Proofs.Engine.Ledger

  The account of the pages of an engine, whatever its memory manager does: every
  page that a pin call answered has been released since, or belongs to a transfer
  that is queued or in flight.  So a page of such a transfer is still pinned.
-/
import DmaQueue.Proofs.Engine.History

namespace DmaQueue

/-- The pages of both sides, as the memory manager answered them. -/
def Transfer.handles (t : Transfer) : List PinnedPage :=
  t.source.pages ++ t.dest.pages

/-- A transfer that is released gives its pages back, each as often as it has it. -/
theorem Event.count_releases_flatMap (ts : List Transfer) (page : PinnedPage) :
    (releases (ts.flatMap Transfer.releaseDeeds)).count page =
      (ts.flatMap Transfer.handles).count page := by
  induction ts with
  | nil => rfl
  | cons t rest ih =>
    rw [List.flatMap_cons, List.flatMap_cons, releases_append, List.count_append, ih,
      List.count_append, Transfer.releaseDeeds, releases_append, releases_unpinned,
      releases_unpinned, Transfer.handles, List.count_append, List.count_append]
    omega

namespace Engine

variable {P R : Type} {engine engine' : Engine P R} {depths : Depths} {events : List Event}

/-- Each page was answered as often as it was released and as it belongs to a live transfer. -/
def Ledger (past : List Event) (engine : Engine P R) : Prop :=
  ∀ page, (Event.grants past).flatten.count page =
    (Event.releases past).count page + (engine.live.flatMap Transfer.handles).count page

variable {past : List Event}

/-- Each page of a live transfer was answered more often than it was released. -/
theorem Ledger.released_lt (h : Ledger past engine) {t : Transfer} {page : PinnedPage}
    (ht : t ∈ engine.live) (hpage : page ∈ t.handles) :
    (Event.releases past).count page < (Event.grants past).flatten.count page := by
  have hlive : 0 < (engine.live.flatMap Transfer.handles).count page :=
    List.count_pos_iff.2 (List.mem_flatMap.2 ⟨t, ht, hpage⟩)
  rw [h page]
  omega

/-- The account stays in balance if what is answered anew is released or belongs to live transfers
anew, and what is released did so before. -/
theorem Ledger.append (h : Ledger past engine)
    (hnew : ∀ page, (Event.grants events).flatten.count page +
        (engine.live.flatMap Transfer.handles).count page =
      (Event.releases events).count page + (engine'.live.flatMap Transfer.handles).count page) :
    Ledger (past ++ events) engine' := by
  intro page
  have hpast := h page
  have hpage := hnew page
  rw [Event.grants_append, Event.releases_append, List.flatten_append, List.count_append,
    List.count_append]
  omega

theorem Ledger.reclaims [Pinner P] (h : Ledger past engine)
    (hreclaim : Reclaims depths engine engine' events) : Ledger (past ++ events) engine' := by
  have hgrants := hreclaim.grants_eq
  refine h.append fun page => ?_
  rw [hgrants]
  cases hreclaim with
  | kept => rfl
  | freed =>
    -- What was in flight is released now.
    rw [Event.count_releases_flatMap]
    simp only [live, List.flatMap_append, List.count_append, List.flatten_nil, List.count_nil,
      List.flatMap_nil]
    omega

theorem Ledger.serves [Registers R] {pause? : Option Pause} (h : Ledger past engine)
    (hserve : Serves depths engine pause? engine' events) : Ledger (past ++ events) engine' := by
  have hreleases : Event.releases events = [] := by cases hserve <;> rfl
  refine h.append fun page => ?_
  rw [hserve.grants_eq, hreleases, (hserve.perm_live (f := Transfer.handles) fun _ => rfl).count_eq]
  rfl

variable [Pinner P] [Registers R] {device : (R → R) → Prop}

/-- Every move keeps the account in balance. -/
theorem Ledger.move {queued freed : List Transfer} (h : Ledger past engine)
    (hmove : Move device engine queued freed events engine') : Ledger (past ++ events) engine' := by
  cases hmove with
  | turned _ hreclaim hserve =>
    rename_i depths registers _ _ _ _ _
    have hread : Ledger (past ++ depths.reads) { engine with registers } := h.append fun _ => rfl
    rw [← List.append_assoc, ← List.append_assoc]
    exact (hread.reclaims hreclaim).serves hserve
  | hardware | rejected => exact h.append fun _ => rfl
  | rolledBack =>
    rename_i request admitted source dest _ _ _ _ _
    -- The pages that the two calls answered are released at once.
    refine h.append fun page => ?_
    have hanswered : Event.grants (pinDeeds request admitted source dest) = [source, dest] := rfl
    have hnone : Event.releases (pinDeeds request admitted source dest) = [] := rfl
    rw [Event.grants_append, Event.releases_append, Event.grants_unpinned,
      Event.releases_unpinned, hanswered, hnone]
    simp [live]
  | queued =>
    rename_i request admitted source dest _ _ _ _
    -- They belong to the transfer that joins the queue.
    refine h.append fun page => ?_
    have hanswered : Event.grants (pinDeeds request admitted source dest) = [source, dest] := rfl
    have hnone : Event.releases (pinDeeds request admitted source dest) = [] := rfl
    have hhandles : (Transfer.ofAdmitted request admitted source dest).handles = source ++ dest :=
      rfl
    rw [hanswered, hnone]
    simp only [live, List.flatten_cons, List.flatten_nil, List.append_nil, List.flatMap_append,
      List.flatMap_singleton, List.count_append, List.count_nil, hhandles]
    omega

/-- The account after moves from an engine with nothing queued. -/
theorem ledger_of_moves {start : Engine P R} {ts reclaimed : List Transfer}
    (hmoves : Moves device start ts reclaimed events engine) (hpending : start.pending = [])
    (hinFlight : start.inFlight = []) : Ledger events engine := by
  induction hmoves with
  | refl =>
    intro page
    rw [live, hpending, hinFlight]
    rfl
  | step _ hmove ih => exact ih.move hmove

end Engine

end DmaQueue
