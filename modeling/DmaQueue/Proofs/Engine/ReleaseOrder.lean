/-
  DmaQueue.Proofs.Engine.ReleaseOrder

  The order of releases is a free choice.  Releases of pages that are held, each
  at most as often as it is held, lead to one and the same table in any order
  (`releaseEach_eq`, `releasedEach_perm`); so a transfer may release its sides,
  and a reclaim the transfers in flight, as it likes.  Without that bound the
  order can show: a release that finds its page gone does not make it dirty.
-/
import DmaQueue.Proofs.Engine.Custody

namespace DmaQueue

/-- The releases of a transfer, in the order in which it makes them: the destination pages as
written to, then the source pages. -/
def Transfer.releases (t : Transfer) : List (PinnedPage × Bool) :=
  t.dest.pages.map (·, true) ++ t.source.pages.map (·, false)

namespace RegionTable

variable {table : RegionTable} {releases order : List (PinnedPage × Bool)}

/-! ## Releases one after the other -/

/-- Releases pages one after the other, each with what is said of it: whether it was written to. -/
def releaseEach : List (PinnedPage × Bool) → Act Note RegionTable Unit
  | [] => return ()
  | (page, dirty) :: rest => do
    unpin page dirty
    releaseEach rest

/-- The pages of some releases, each as often as it is released. -/
def releasedPages (releases : List (PinnedPage × Bool)) : List UInt64 :=
  PinnedPage.virts (releases.map (·.1))

/-- The table holds every page of the releases as often as they release it. -/
def Covers (table : RegionTable) (releases : List (PinnedPage × Bool)) : Prop :=
  ∀ page, (releasedPages releases).count page ≤ table.held.count page

/-- The table after releases that all found their page held. -/
def releasedEach (table : RegionTable) (releases : List (PinnedPage × Bool)) : RegionTable :=
  { table with
    held := table.held.eraseAll (releasedPages releases)
    dirty := table.dirty.insertAll (releasedPages (releases.filter (·.2)))
    unpinCalls := table.unpinCalls + releases.length }

theorem releasedPages_append (first second : List (PinnedPage × Bool)) :
    releasedPages (first ++ second) = releasedPages first ++ releasedPages second := by
  rw [releasedPages, List.map_append]
  exact List.map_append

theorem releasedPages_map (pages : List PinnedPage) (dirty : Bool) :
    releasedPages (pages.map (·, dirty)) = PinnedPage.virts pages := by
  rw [releasedPages, List.map_map]
  exact congrArg PinnedPage.virts (List.map_id pages)

theorem releasedEach_append (table : RegionTable) (first second : List (PinnedPage × Bool)) :
    table.releasedEach (first ++ second) = (table.releasedEach first).releasedEach second := by
  simp only [releasedEach, List.filter_append, releasedPages_append, PageBag.eraseAll_append,
    PageSet.insertAll_append, List.length_append, Nat.add_assoc]

/-- Pages that are all released alike. -/
theorem releasedEach_map (table : RegionTable) (pages : List PinnedPage) (dirty : Bool) :
    table.releasedEach (pages.map (·, dirty)) = table.released dirty pages := by
  have hdirty :
      (pages.map (·, dirty)).filter (·.2) = if dirty then pages.map (·, true) else [] := by
    cases dirty <;> simp
  unfold releasedEach released
  rw [hdirty, releasedPages_map, List.length_map]
  cases dirty with
  | false => rfl
  | true => rw [if_pos rfl, releasedPages_map, if_pos rfl]

/-- Of releases that are covered the first ones are, and the others still are after those. -/
theorem Covers.append {first second : List (PinnedPage × Bool)}
    (h : table.Covers (first ++ second)) :
    table.Covers first ∧ (table.releasedEach first).Covers second := by
  have hboth : ∀ page, (releasedPages first).count page + (releasedPages second).count page ≤
      table.held.count page := by
    intro page
    have hpage := h page
    rwa [releasedPages_append, List.count_append] at hpage
  refine ⟨fun page => Nat.le_trans (Nat.le_add_right ..) (hboth page), fun page => ?_⟩
  rw [releasedEach, PageBag.count_eraseAll]
  exact Nat.le_sub_of_add_le (Nat.add_comm _ _ ▸ hboth page)

/-- A release that is covered finds its page held. -/
theorem unpin_of_covers {page : PinnedPage} {dirty : Bool} (h : table.Covers [(page, dirty)]) :
    unpin page dirty table = ⟨.ok (), table.releasedEach [(page, dirty)], []⟩ := by
  have hpage := h page.virt
  rw [show releasedPages [(page, dirty)] = [page.virt] from rfl, List.count_singleton_self] at hpage
  rw [unpin_eq hpage, ← releasedEach_map]
  rfl

/-- Releases that are covered find every page held. -/
theorem releaseEach_eq (h : table.Covers releases) :
    releaseEach releases table = ⟨.ok (), table.releasedEach releases, []⟩ := by
  induction releases generalizing table with
  | nil => rfl
  | cons release rest ih =>
    rw [← List.singleton_append] at h
    obtain ⟨hfirst, hrest⟩ := h.append
    rw [← List.singleton_append, releasedEach_append]
    exact Act.bind_ok (unpin_of_covers hfirst) (ih hrest)

/-- Covered releases leave the same table in any order. -/
theorem releasedEach_perm (h : order.Perm releases) :
    table.releasedEach order = table.releasedEach releases := by
  have hpages : (releasedPages order).Perm (releasedPages releases) := (h.map _).map _
  have hsoiled : (releasedPages (order.filter (·.2))).Perm
      (releasedPages (releases.filter (·.2))) := ((h.filter _).map _).map _
  have hheld : table.held.eraseAll (releasedPages order) =
      table.held.eraseAll (releasedPages releases) := by
    apply PageBag.ext_count
    intro page
    rw [PageBag.count_eraseAll, PageBag.count_eraseAll, hpages.count_eq]
  have hdirty : table.dirty.insertAll (releasedPages (order.filter (·.2))) =
      table.dirty.insertAll (releasedPages (releases.filter (·.2))) := by
    apply PageSet.ext_mem
    intro page
    rw [PageSet.mem_insertAll, PageSet.mem_insertAll, hsoiled.mem_iff]
  rw [releasedEach, hheld, hdirty, h.length_eq]
  rfl

theorem Covers.perm (h : table.Covers releases) (hperm : order.Perm releases) :
    table.Covers order := by
  have hpages : (releasedPages order).Perm (releasedPages releases) := (hperm.map _).map _
  intro page
  rw [hpages.count_eq]
  exact h page

/-- Covered releases do the same in any order. -/
theorem releaseEach_perm (h : table.Covers releases) (hperm : order.Perm releases) :
    releaseEach order table = ⟨.ok (), table.releasedEach releases, []⟩ := by
  rw [releaseEach_eq (h.perm hperm), releasedEach_perm hperm]

/-! ## What a pin call took -/

/-- Releasing what a pin call answered, in any order, takes back what it did, but for the counts of
calls. -/
theorem releaseEach_of_pin {address length : UInt64} {writable : Bool} {pages : List PinnedPage}
    {pinned : RegionTable} {notes : List Note}
    (hpin : pin address length writable table = ⟨.ok (.ok pages), pinned, notes⟩)
    (hperm : order.Perm (pages.map (·, false))) :
    releaseEach order pinned = ⟨.ok (), { table with
      pinCalls := table.pinCalls + 1
      unpinCalls := table.unpinCalls + pages.length }, []⟩ := by
  have hpinned : pinned = { table.holding pages with pinCalls := table.pinCalls + 1 } :=
    (pin_eq_ok hpin).table_eq
  -- The call took a reference on every page that it answered, as often as it answered it.
  have hcovers : pinned.Covers (pages.map (·, false)) := by
    intro page
    rw [releasedPages_map, hpinned]
    show _ ≤ (table.held.insertAll (PinnedPage.virts pages)).count page
    rw [PageBag.count_insertAll]
    exact Nat.le_add_left ..
  rw [releaseEach_perm hcovers hperm, releasedEach_map, hpinned]
  simp only [released, holding, PageBag.eraseAll_insertAll, Bool.false_eq_true, ↓reduceIte]

/-! ## Transfers -/

theorem covers_releases_iff {t : Transfer} :
    table.Covers t.releases ↔ ∀ page, t.pages.count page ≤ table.held.count page := by
  refine forall_congr' fun page => ?_
  rw [Transfer.releases, Transfer.pages, releasedPages_append, releasedPages_map,
    releasedPages_map, List.count_append, List.count_append, Nat.add_comm]

/-- A transfer whose pages are held releases them. -/
theorem release_eq_each {t : Transfer} (h : table.Covers t.releases) :
    ∃ events, t.release table = ⟨.ok (), table.releasedEach t.releases, events⟩ := by
  rw [Transfer.releases, releasedEach_append, releasedEach_map, releasedEach_map]
  exact release_eq (covers_releases_iff.1 h)

theorem releaseAll_eq {ts : List Transfer} (h : table.Covers (ts.flatMap Transfer.releases)) :
    ∃ events, Engine.releaseAll ts table =
      ⟨.ok (), table.releasedEach (ts.flatMap Transfer.releases), events⟩ := by
  induction ts generalizing table with
  | nil => exact ⟨[], rfl⟩
  | cons t rest ih =>
    rw [List.flatMap_cons] at h
    obtain ⟨hfirst, hrest⟩ := h.append
    obtain ⟨_, hone⟩ := release_eq_each hfirst
    obtain ⟨_, hall⟩ := ih hrest
    rw [List.flatMap_cons, releasedEach_append]
    exact ⟨_, Act.bind_ok hone hall⟩

/-- On any table: releases of pages that are held, each at most as often as it is held, all answer
and lead to the same table in any order.  Releasing the pages that a pin call answered, in any order
and none as written to, leaves the references and the dirty pages as they were before the call, and
nothing else changed but the counts of calls.  A transfer whose pages are held comes to the table
that its releases lead to in any order, and so does an engine that reclaims the transfers in
flight. -/
theorem releases_in_any_order (table : RegionTable) :
    (∀ releases order, order.Perm releases → table.Covers releases →
      releaseEach releases table = ⟨.ok (), table.releasedEach releases, []⟩ ∧
        releaseEach order table = ⟨.ok (), table.releasedEach releases, []⟩) ∧
    (∀ address length writable pages pinned notes order,
      pin address length writable table = ⟨.ok (.ok pages), pinned, notes⟩ →
      order.Perm (pages.map (·, false)) →
        releaseEach order pinned = ⟨.ok (), { table with
          pinCalls := table.pinCalls + 1
          unpinCalls := table.unpinCalls + pages.length }, []⟩) ∧
    (∀ (t : Transfer) order, order.Perm t.releases → table.Covers t.releases →
      ∃ after events, t.release table = ⟨.ok (), after, events⟩ ∧
        releaseEach order table = ⟨.ok (), after, []⟩) ∧
    ∀ {R : Type} (engine : Engine RegionTable R) order, engine.pinner = table →
      order.Perm (engine.inFlight.flatMap Transfer.releases) →
      table.Covers (engine.inFlight.flatMap Transfer.releases) →
        ∃ engine' events, Engine.reclaim engine = ⟨.ok (), engine', events⟩ ∧
          releaseEach order table = ⟨.ok (), engine'.pinner, []⟩ := by
  refine ⟨fun releases order hperm hcovers =>
      ⟨releaseEach_eq hcovers, releaseEach_perm hcovers hperm⟩,
    fun _ _ _ _ _ _ order hpin hperm => releaseEach_of_pin hpin hperm,
    fun t order hperm hcovers => ?_, ?_⟩
  · obtain ⟨events, hrelease⟩ := release_eq_each hcovers
    exact ⟨_, events, hrelease, releaseEach_perm hcovers hperm⟩
  · rintro R engine order rfl hperm hcovers
    obtain ⟨_, hrelease⟩ := releaseAll_eq hcovers
    obtain ⟨engine', hreclaim, hpinner⟩ := Engine.reclaimAll_of_releaseAll hrelease
    refine ⟨engine', _, Act.get_bind_eq_ok_iff.2 (Act.bind_ok hreclaim rfl), ?_⟩
    rw [hpinner]
    exact releaseEach_perm hcovers hperm

/-- A region with one reference on its first page and two on its second. -/
def heldTable : RegionTable :=
  ({ empty with regions := [Region.identity 0x10000 0x4000] } : RegionTable).holding
    [⟨0x10000, 0x10000⟩, ⟨0x11000, 0x11000⟩, ⟨0x11000, 0x11000⟩]

/-- A transfer from the first page of the region to the second. -/
def heldTransfer : Transfer :=
  { request := ⟨0x10000, 0x11000, 0x40, 0, 0⟩
    outputLength := 0x40
    source := ⟨[⟨0x10000, 0x10000⟩], 0, 0x40, 0x40⟩
    dest := ⟨[⟨0x11000, 0x11000⟩], 0, 0x40, 0x40⟩ }

/-- An engine with that transfer in flight. -/
def heldEngine : Engine RegionTable Unit :=
  { config := {}
    pinner := heldTable
    registers := ()
    inFlight := [heldTransfer] }

/-- Both references on the second page, one of them dirty, can be released before that on the first
or around it; two pages that are pinned can be released from the upper one down; and the transfer
can release its source first. -/
theorem releases_of_heldTable :
    let clean := ((⟨0x11000, 0x11000⟩ : PinnedPage), false)
    let soiled := ((⟨0x11000, 0x11000⟩ : PinnedPage), true)
    let first := ((⟨0x10000, 0x10000⟩ : PinnedPage), false)
    releaseEach [soiled, first, clean] heldTable = releaseEach [clean, soiled, first] heldTable ∧
      (∃ pinned notes, pin 0x11800 0x1000 true heldTable =
          ⟨.ok (.ok [⟨0x11000, 0x11000⟩, ⟨0x12000, 0x12000⟩]), pinned, notes⟩ ∧
        releaseEach [(⟨0x12000, 0x12000⟩, false), clean] pinned =
          ⟨.ok (), { heldTable with pinCalls := 1, unpinCalls := 2 }, []⟩) ∧
      (∃ after events, heldTransfer.release heldTable = ⟨.ok (), after, events⟩ ∧
        releaseEach [first, soiled] heldTable = ⟨.ok (), after, []⟩) ∧
      ∃ engine' events,
        Engine.reclaim heldEngine = ⟨.ok (), engine', events⟩ ∧
        releaseEach [first, soiled] heldTable = ⟨.ok (), engine'.pinner, []⟩ := by
  intro clean soiled first
  obtain ⟨hreleases, hpins, htransfer, hreclaim⟩ := releases_in_any_order heldTable
  have hcovers : heldTable.Covers [soiled, first, clean] := fun page =>
    Nat.le_of_eq (List.Perm.count_eq (by decide) page)
  have hheld : heldTable.Covers heldTransfer.releases := fun page =>
    List.Subperm.count_le (by decide) page
  obtain ⟨hthis, hthat⟩ :=
    hreleases [soiled, first, clean] [clean, soiled, first] (by decide) hcovers
  have hpin := Outcome.eq_of_result (o := pin 0x11800 0x1000 true heldTable)
    (show _ = .ok (.ok [⟨0x11000, 0x11000⟩, ⟨0x12000, 0x12000⟩]) by decide +kernel)
  exact ⟨hthis.trans hthat.symm, ⟨_, _, hpin, hpins _ _ _ _ _ _ _ hpin (by decide)⟩,
    htransfer heldTransfer [first, soiled] (by decide) hheld,
    hreclaim heldEngine [first, soiled] rfl (by decide) hheld⟩

/-- With one reference on a page and two releases of it, the page becomes dirty only if the dirty
one comes first. -/
example :
    let page : PinnedPage := ⟨0x10000, 0x10000⟩
    (releaseEach [(page, true), (page, false)] heldTable).state.dirty.pages = [0x10000] ∧
      (releaseEach [(page, false), (page, true)] heldTable).state.dirty.pages = [] := by
  decide +kernel

end RegionTable

end DmaQueue
