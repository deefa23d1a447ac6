/-
  DmaQueue.Proofs.Engine.Custody

  Which references an engine holds on the pages of a region table: exactly those
  of the transfers that are queued or in flight.  Every move keeps the account
  in balance (`Custody.move`), so a reference is neither lost nor given back
  early, and a page becomes dirty only when a transfer that wrote to it is
  reclaimed.
-/
import DmaQueue.Proofs.Engine.Books
import DmaQueue.Proofs.Pinner.RegionTable

namespace DmaQueue

/-- The pages that a transfer holds, those of both sides. -/
def Transfer.pages (t : Transfer) : List UInt64 :=
  PinnedPage.virts t.source.pages ++ PinnedPage.virts t.dest.pages

namespace RegionTable

variable {table table' : RegionTable}

/-- The release of a transfer whose pages are held succeeds. -/
theorem release_eq {t : Transfer} (hheld : ∀ q, t.pages.count q ≤ table.held.count q) :
    ∃ events, t.release table =
      ⟨.ok (), (table.released true t.dest.pages).released false t.source.pages, events⟩ := by
  have hdest : ∀ q, (PinnedPage.virts t.dest.pages).count q ≤ table.held.count q := by
    intro q
    have hq := hheld q
    rw [Transfer.pages, List.count_append] at hq
    omega
  have hsource : ∀ q, (PinnedPage.virts t.source.pages).count q ≤
      (table.released true t.dest.pages).held.count q := by
    intro q
    have hq := hheld q
    rw [Transfer.pages, List.count_append] at hq
    rw [released, PageBag.count_eraseAll]
    omega
  obtain ⟨_, hfirst⟩ := unpinAll_eq (d := true) hdest
  obtain ⟨_, hsecond⟩ := unpinAll_eq (d := false) hsource
  exact ⟨_, Act.bind_ok hfirst hsecond⟩

theorem released_eq_ok {t : Transfer} {events : List Event}
    (h : t.release table = ⟨.ok (), table', events⟩)
    (hheld : ∀ q, t.pages.count q ≤ table.held.count q) :
    table' = (table.released true t.dest.pages).released false t.source.pages := by
  obtain ⟨_, hrelease⟩ := release_eq hheld
  rw [h, Outcome.mk.injEq] at hrelease
  exact hrelease.2.1

/-- Releasing transfers whose pages are held gives those references back, and makes dirty the
destination pages and no others. -/
theorem releaseAll_eq_ok {ts : List Transfer} {events : List Event}
    (h : Engine.releaseAll ts table = ⟨.ok (), table', events⟩)
    (hheld : ∀ q, (ts.flatMap Transfer.pages).count q ≤ table.held.count q) :
    (∀ q, table'.held.count q + (ts.flatMap Transfer.pages).count q = table.held.count q) ∧
      ∀ q, q ∈ table'.dirty.pages ↔
        q ∈ table.dirty.pages ∨ ∃ t ∈ ts, q ∈ PinnedPage.virts t.dest.pages := by
  induction ts generalizing table events with
  | nil =>
    obtain ⟨-, rfl, -⟩ := Act.pure_eq_ok_iff.1 h
    simp
  | cons t rest ih =>
    obtain ⟨_, table₁, _, _, hone, hrest, -⟩ := Act.bind_eq_ok_iff.1 h
    have hsplit : ∀ q, ((t :: rest).flatMap Transfer.pages).count q =
        t.pages.count q + (rest.flatMap Transfer.pages).count q := by
      intro q
      rw [List.flatMap_cons, List.count_append]
    have htable := released_eq_ok hone fun q => by
      have hq := hheld q
      rw [hsplit] at hq
      omega
    have hcount : ∀ q, table₁.held.count q = table.held.count q - t.pages.count q := by
      intro q
      rw [htable, released, released, PageBag.count_eraseAll, PageBag.count_eraseAll,
        Transfer.pages, List.count_append]
      omega
    -- What the first release takes away is what the first transfer held: the rest is still held.
    obtain ⟨hheldRest, hdirtyRest⟩ := ih hrest fun q => by
      have hq := hheld q
      rw [hsplit] at hq
      rw [hcount]
      omega
    constructor
    · intro q
      have hq := hheld q
      have hrestq := hheldRest q
      rw [hsplit] at hq ⊢
      rw [hcount] at hrestq
      omega
    · intro q
      have hdirty : q ∈ table₁.dirty.pages ↔
          q ∈ table.dirty.pages ∨ q ∈ PinnedPage.virts t.dest.pages := by
        rw [htable]
        exact PageSet.mem_insertAll
      rw [hdirtyRest, hdirty, or_assoc]
      simp only [List.mem_cons, exists_eq_or_imp]

end RegionTable

namespace Engine

variable {R : Type}

/-- The pages of the transfers that are queued or in flight, each as often as they hold it. -/
def livePages {P : Type} (engine : Engine P R) : List UInt64 :=
  (engine.pending ++ engine.inFlight).flatMap Transfer.pages

/-- On top of the references held `before`, the table holds those of the live transfers; on top of
the pages dirty `before`, the destination pages of the `reclaimed` ones are dirty. -/
structure Custody (before : RegionTable) (reclaimed : List Transfer)
    (engine : Engine RegionTable R) : Prop where
  held : ∀ q, engine.pinner.held.count q = before.held.count q + engine.livePages.count q
  dirty : ∀ q, q ∈ engine.pinner.dirty.pages ↔
    q ∈ before.dirty.pages ∨ ∃ t ∈ reclaimed, q ∈ PinnedPage.virts t.dest.pages

variable {before : RegionTable} {accepted reclaimed : List Transfer}
  {engine engine' : Engine RegionTable R} {depths : Depths} {events : List Event}

theorem count_livePages {P : Type} (engine : Engine P R) (q : UInt64) :
    engine.livePages.count q =
      (engine.pending.flatMap Transfer.pages).count q +
        (engine.inFlight.flatMap Transfer.pages).count q := by
  rw [livePages, List.flatMap_append, List.count_append]

theorem Custody.reclaims (h : Custody before reclaimed engine)
    (hreclaim : Reclaims depths engine engine' events) :
    Custody before (reclaimed ++ returned depths engine) engine' := by
  cases hreclaim with
  | kept hbusy =>
    rw [returned, if_neg hbusy, List.append_nil]
    exact h
  | @freed pinner _ hdrained hrelease =>
    rw [returned, if_pos hdrained]
    have hlive := count_livePages engine
    obtain ⟨hheld, hdirty⟩ := RegionTable.releaseAll_eq_ok hrelease fun q => by
      rw [h.held, hlive]
      omega
    constructor
    case held =>
      intro q
      have hq := hheld q
      rw [h.held, hlive] at hq
      rw [count_livePages, List.flatMap_nil, List.count_nil]
      show pinner.held.count q = _ + ((engine.pending.flatMap Transfer.pages).count q + 0)
      omega
    case dirty =>
      intro q
      rw [hdirty, h.dirty, or_assoc]
      simp only [List.mem_append, or_and_right, exists_or]

/-- Serving the head of the queue leaves the live transfers and the table as they are. -/
theorem Custody.serves [Registers R] {pause? : Option Pause} (h : Custody before reclaimed engine)
    (hserve : Serves depths engine pause? engine' events) : Custody before reclaimed engine' := by
  have hlive : ∀ q, engine'.livePages.count q = engine.livePages.count q := fun q =>
    (hserve.perm_live (f := Transfer.pages) fun _ => rfl).count_eq q
  constructor
  case held =>
    intro q
    rw [hserve.pinner_eq, hlive]
    exact h.held q
  case dirty =>
    rw [hserve.pinner_eq]
    exact h.dirty

/-- Every move keeps the account in balance. -/
theorem Custody.move [Registers R] {device : (R → R) → Prop} {queued freed : List Transfer}
    (h : Custody before reclaimed engine) (hmove : Move device engine queued freed events engine') :
    Custody before (reclaimed ++ freed) engine' := by
  cases hmove with
  | turned _ hreclaim hserve =>
    rename_i depths registers _ _ _ _ _
    have hread : Custody before reclaimed { engine with registers } := ⟨h.held, h.dirty⟩
    exact (hread.reclaims hreclaim).serves hserve
  | hardware | rejected =>
    rw [List.append_nil]
    exact ⟨h.held, h.dirty⟩
  | rolledBack hpins hrelease =>
    -- The references are back where they were, and a rollback makes no page dirty.
    rw [List.append_nil, hpins.rollBack_eq hrelease]
    exact ⟨h.held, h.dirty⟩
  | queued _ hpins _ =>
    rename_i request admitted source dest p _ _
    rw [List.append_nil, hpins.table_eq]
    refine ⟨fun q => ?_, h.dirty⟩
    have hheld := h.held q
    rw [count_livePages] at hheld
    rw [count_livePages]
    -- The references that the two calls took are those of the new transfer.
    have hpages : (Transfer.ofAdmitted request admitted source dest).pages =
        PinnedPage.virts (source ++ dest) := List.map_append.symm
    simp only [List.flatMap_append, List.flatMap_singleton, List.count_append, hpages,
      RegionTable.holding, PageBag.count_insertAll] at hheld ⊢
    omega

variable [Registers R]

theorem Custody.moves {device : (R → R) → Prop} {start : Engine RegionTable R}
    {queued freed : List Transfer} (h : Custody before reclaimed start)
    (hmoves : Moves device start queued freed events engine) :
    Custody before (reclaimed ++ freed) engine := by
  induction hmoves with
  | refl =>
    rw [List.append_nil]
    exact h
  | step _ hmove ih =>
    rw [← List.append_assoc]
    exact ih.move hmove

theorem custody_of_moves {device : (R → R) → Prop} {start : Engine RegionTable R}
    (hmoves : Moves device start accepted reclaimed events engine) (hpending : start.pending = [])
    (hinFlight : start.inFlight = []) : Custody start.pinner reclaimed engine := by
  have hstart : Custody start.pinner [] start := by
    refine ⟨fun q => ?_, by simp⟩
    rw [livePages, hpending, hinFlight]
    rfl
  exact hstart.moves hmoves

/-! ## The account at the end of a history -/

/-- Let `accepted` be the transfers of the accepted submissions.  Those that are neither pending nor
in flight are a first part of them, `reclaimed`.  Every page is then held as often as before the
history, and once more for each time that a live transfer has it among its pages; and the pages that
became dirty are the destination pages of `reclaimed`.  With nothing live, the references are those
of before. -/
theorem pins_of_play {config : Config} {pinner : RegionTable} {registers : R} {notes : List Note}
    {start final : Engine RegionTable R} {calls : List (Call R)}
    {log : List (Exchange RegionTable R)}
    (hcreate : create config pinner registers = (notes, .ok start))
    (hplay : play calls start = ⟨.ok (), final, log⟩) :
    (queuedTransfers config log).map Transfer.request = log.filterMap Exchange.accepted? ∧
      ∃ reclaimed : List Transfer,
        queuedTransfers config log =
          reclaimed ++ (final.inFlight ++ final.pending).map Transfer.fresh ∧
        (∀ page, final.pinner.held.count page =
          pinner.held.count page + final.livePages.count page) ∧
        (∀ addr, ∃ page, Page.alignDown addr Page.standardSize = .ok page ∧
          final.pinner.pinCount addr =
            .ok (pinner.held.count page + final.livePages.count page)) ∧
        (∀ page, page ∈ final.pinner.dirty.pages ↔
          page ∈ pinner.dirty.pages ∨ ∃ t ∈ reclaimed, page ∈ PinnedPage.virts t.dest.pages) ∧
        (final.hasWork = false → final.pinner.held = pinner.held) := by
  obtain ⟨hflaw, -, rfl⟩ := create_eq_ok hcreate
  obtain ⟨⟨reclaimed, hmoves⟩, hrequests⟩ := moves_of_play hplay
  have hbooks := books_of_moves hmoves (Config.sound_of_flaw? hflaw) rfl rfl
  have hcustody := custody_of_moves hmoves rfl rfl
  refine ⟨hrequests, reclaimed.map Transfer.fresh, ?_, hcustody.held, ?_, ?_, ?_⟩
  · rw [← List.map_append, ← List.append_assoc]
    exact hbooks.order
  · intro addr
    have halign : Page.alignDown addr Page.standardSize = .ok (addr - addr % Page.standardSize) :=
      Page.alignDown_of_isPowerOfTwo (by decide) addr
    refine ⟨_, halign, ?_⟩
    unfold RegionTable.pinCount
    rw [halign, ← hcustody.held]
    rfl
  · intro page
    have hfresh : (∃ t ∈ reclaimed.map Transfer.fresh, page ∈ PinnedPage.virts t.dest.pages) ↔
        ∃ t ∈ reclaimed, page ∈ PinnedPage.virts t.dest.pages := by
      constructor
      · rintro ⟨_, hmem, hpage⟩
        obtain ⟨t, ht, rfl⟩ := List.mem_map.1 hmem
        exact ⟨t, ht, hpage⟩
      · rintro ⟨t, ht, hpage⟩
        exact ⟨t.fresh, List.mem_map_of_mem ht, hpage⟩
    rw [hfresh]
    exact hcustody.dirty page
  · intro hidle
    have hnone : final.pending = [] ∧ final.inFlight = [] := by
      simpa [hasWork] using hidle
    apply PageBag.ext_count
    intro page
    rw [hcustody.held, livePages, hnone.1, hnone.2]
    rfl

/-- In the small history the first transfer is reclaimed and the last one is live: its four pages
are held, and the four destination pages of the first are dirty. -/
theorem pins_of_smallHistory :
    let final := (play smallHistory smallEngine).state
    let log := (play smallHistory smallEngine).events
    final.inFlight.length = 1 ∧ final.pending = [] ∧ final.pinner.held.size = 4 ∧
      final.pinner.dirty.pages = [0x10000, 0x11000, 0x12000, 0x13000] ∧
      ∃ reclaimed : List Transfer, reclaimed.length = 1 ∧
        queuedTransfers smallEngine.config log =
          reclaimed ++ (final.inFlight ++ final.pending).map Transfer.fresh ∧
        (∀ page, final.pinner.held.count page =
          smallTable.held.count page + final.livePages.count page) ∧
        (∀ page, page ∈ final.pinner.dirty.pages ↔
          page ∈ smallTable.dirty.pages ∨
            ∃ t ∈ reclaimed, page ∈ PinnedPage.virts t.dest.pages) := by
  intro final log
  have hlive : final.inFlight.length = 1 ∧ final.pending = [] := by decide +kernel
  have haccepted : (queuedTransfers smallEngine.config log).length = 2 := by decide +kernel
  obtain ⟨-, reclaimed, horder, hheld, -, hdirty, -⟩ :=
    pins_of_play create_smallEngine play_smallHistory
  rw [horder, List.length_append, List.length_map, List.length_append, hlive.1,
    hlive.2] at haccepted
  exact ⟨hlive.1, hlive.2, by decide +kernel, by decide +kernel, reclaimed,
    Nat.succ_injective haccepted, horder, hheld, hdirty⟩

end Engine

end DmaQueue
