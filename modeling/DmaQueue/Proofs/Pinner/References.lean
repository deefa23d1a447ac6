/-
  DmaQueue.Proofs.Pinner.References

  The references, the dirty pages and the limit of a region table after any
  history, read off its log.  Each call keeps the table `Referenced`, whatever its
  arguments are: pages that were never pinned, or released too often, or do not
  begin on a page boundary.  It keeps it `Limited` too, by the limit that was set
  last.  The counts themselves are those of the `CountedTable`, which has come to
  the same all along.
-/
import DmaQueue.Proofs.Pinner.CountedTable

namespace DmaQueue.RegionTable

/-- The table holds what its log says: pages of mapped regions, each as often as it was answered and
not released since, and as dirty those that were released dirty since they were last taken. -/
structure Referenced (log : List Exchange) (table : RegionTable) : Prop where
  placed : ∀ page ∈ table.held.pages,
    page.toNat % 4096 = 0 ∧ ∃ region ∈ table.regions, region.contains page = true
  counted : ∀ page, table.held.count page + log.countP (·.releases page) =
    (log.flatMap Exchange.answered).count page
  dirty : ∀ page, page ∈ table.dirty.pages ↔ ∃ x ∈ sinceTaken log, x.soils page = true

variable {log : List Exchange} {table table' : RegionTable}

theorem referenced_empty : Referenced [] empty := by
  constructor
  case placed => simp [empty, PageBag.empty]
  case counted => exact fun page => rfl
  case dirty => simp [empty, PageSet.empty, sinceTaken]

/-! ## What each call does -/

/-- One more call: the references change by what it answers and by what it releases. -/
theorem Referenced.concat {x : Exchange} (h : Referenced log table)
    (hplaced : ∀ page ∈ table'.held.pages,
      page.toNat % 4096 = 0 ∧ ∃ region ∈ table'.regions, region.contains page = true)
    (hcounted : ∀ page, table'.held.count page + (if x.releases page then 1 else 0) =
      table.held.count page + x.answered.count page)
    (hdirty : ∀ page, page ∈ table'.dirty.pages ↔
      ∃ y ∈ sinceTaken (log ++ [x]), y.soils page = true) : Referenced (log ++ [x]) table' := by
  constructor
  case placed => exact hplaced
  case counted =>
    intro page
    have hbefore := h.counted page
    have hnow := hcounted page
    rw [List.countP_append, List.countP_singleton, List.flatMap_append, List.flatMap_singleton,
      List.count_append]
    omega
  case dirty => exact hdirty

/-- A call that does not take the dirty pages adds those that it makes dirty. -/
theorem Referenced.dirty_concat {x : Exchange} (h : Referenced log table) (htakes : x.takes = false)
    (page : UInt64) :
    (∃ y ∈ sinceTaken (log ++ [x]), y.soils page = true) ↔
      page ∈ table.dirty.pages ∨ x.soils page = true := by
  rw [sinceTaken_concat log htakes, h.dirty]
  simp only [List.mem_append, List.mem_singleton, or_and_right, exists_or, exists_eq_left]

theorem Referenced.pin {address length : UInt64} {writable : Bool}
    {result : Except PinFailure (List PinnedPage)} {notes seen : List Note}
    (h : Referenced log table)
    (hpin : RegionTable.pin address length writable table = ⟨.ok result, table', notes⟩) :
    Referenced
      (log ++ [⟨.pin address length writable, table, ⟨.ok (.pinned result), table', seen⟩⟩])
      table' := by
  have hpinned := pin_eq_ok hpin
  have hheld : ∀ page, table'.held.count page = table.held.count page +
      (PinnedPage.virts (result.toOption.getD [])).count page := by
    intro page
    rw [hpinned.table_eq]
    exact PageBag.count_insertAll ..
  have hregions : table'.regions = table.regions := by rw [hpinned.table_eq]; rfl
  have hdirtySame : table'.dirty = table.dirty := by rw [hpinned.table_eq]; rfl
  apply h.concat
  · intro page hpage
    rw [hregions]
    rw [PageBag.mem_pages_iff, hheld] at hpage
    by_cases hold : page ∈ table.held.pages
    · exact h.placed page hold
    · -- The page is one of those that the call answered.
      have hnew : page ∈ PinnedPage.virts (result.toOption.getD []) := by
        rw [PageBag.mem_pages_iff] at hold
        apply List.count_pos_iff.1
        omega
      obtain ⟨pinned, hmem, rfl⟩ := List.mem_map.1 hnew
      obtain ⟨i, hi⟩ := List.mem_iff_getElem?.1 hmem
      have hvirt : pinned.virt.toNat = 4096 * (address.toNat / 4096) + i * 4096 :=
        hpinned.upwards i pinned hi
      obtain ⟨region, hfind, -⟩ := hpinned.maps pinned hmem
      have hcontains : region.contains pinned.virt = true := by simpa using List.find?_some hfind
      exact ⟨by omega, region, List.mem_of_find?_eq_some hfind, hcontains⟩
  · intro page
    exact hheld page
  · intro page
    rw [h.dirty_concat rfl, hdirtySame]
    simp [Exchange.soils]

/-- A release that finds its page pinned is one of that page, and of no other. -/
theorem Exchange.releases_unpin (handle : PinnedPage) (dirty : Bool) (table : RegionTable)
    (outcome : Outcome Note RegionTable Answer) (page : UInt64) :
    (⟨.unpin handle dirty, table, outcome⟩ : Exchange).releases page =
      (handle.virt == page && decide (0 < table.held.count handle.virt)) := by
  by_cases hpage : handle.virt = page
  · rw [← hpage]
    rfl
  · have hother : (handle.virt == page) = false := beq_false_of_ne hpage
    simp only [Exchange.releases, hother, Bool.false_and]

theorem Referenced.unpin {handle : PinnedPage} {dirty : Bool} {notes seen : List Note}
    (h : Referenced log table)
    (hunpin : RegionTable.unpin handle dirty table = ⟨.ok (), table', notes⟩) :
    Referenced (log ++ [⟨.unpin handle dirty, table, ⟨.ok .unpinned, table', seen⟩⟩]) table' := by
  have hreleases := fun page =>
    Exchange.releases_unpin handle dirty table ⟨.ok .unpinned, table', seen⟩ page
  rcases unpin_eq_ok hunpin with ⟨hnone, rfl⟩ | ⟨hheld, rfl⟩
  · -- Nothing was held, so the release is none of any page.
    simp only [hnone, Nat.lt_irrefl, decide_false, Bool.and_false] at hreleases
    apply h.concat
    · exact h.placed
    · intro page
      rw [hreleases]
      rfl
    · intro page
      rw [h.dirty_concat rfl]
      simp [Exchange.soils, hreleases]
  · simp only [decide_eq_true hheld, Bool.and_true] at hreleases
    have hcount : ∀ page, (table.released dirty [handle]).held.count page =
        table.held.count page - if handle.virt = page then 1 else 0 :=
      fun page => PageBag.count_erase table.held handle.virt page
    apply h.concat
    · intro page hpage
      rw [PageBag.mem_pages_iff, hcount] at hpage
      apply h.placed
      rw [PageBag.mem_pages_iff]
      omega
    · intro page
      rw [hreleases, hcount]
      show _ = table.held.count page + 0
      by_cases hpage : handle.virt = page
      · rw [if_pos hpage, if_pos (beq_iff_eq.2 hpage), ← hpage]
        omega
      · rw [if_neg hpage, if_neg (mt beq_iff_eq.1 hpage)]
        rfl
    · intro page
      rw [h.dirty_concat rfl]
      cases dirty with
      | false => simp [released, Exchange.soils]
      | true =>
        show page ∈ (table.dirty.insertAll [handle.virt]).pages ↔ _
        rw [PageSet.mem_insertAll, List.mem_singleton]
        apply or_congr_right
        simp only [Exchange.soils, hreleases, Bool.true_and, beq_iff_eq]
        exact eq_comm

theorem Referenced.addRegion {region : Region} {result : Except PinFailure Unit}
    {notes seen : List Note} (h : Referenced log table)
    (hadd : RegionTable.addRegion region table = ⟨.ok result, table', notes⟩) :
    Referenced (log ++ [⟨.addRegion region, table, ⟨.ok (.added result), table', seen⟩⟩])
      table' := by
  have hdirty : ∀ page, page ∈ table.dirty.pages ↔ ∃ y ∈ sinceTaken
      (log ++ [⟨.addRegion region, table, ⟨.ok (.added result), table', seen⟩⟩]),
        y.soils page = true := by
    intro page
    rw [h.dirty_concat rfl]
    simp [Exchange.soils]
  rcases addRegion_answers hadd with ⟨_, -, rfl⟩ | ⟨-, -, rfl⟩
  · exact h.concat h.placed (fun _ => rfl) hdirty
  · refine h.concat (fun page hpage => ?_) (fun _ => rfl) hdirty
    obtain ⟨haligned, other, hmem, hcontains⟩ := h.placed page hpage
    exact ⟨haligned, other, List.mem_append_left _ hmem, hcontains⟩

/-- Every call that answers keeps the table referenced. -/
theorem Referenced.call {call : Call} {answer : Answer} {notes : List Note}
    (h : Referenced log table) (hact : call.act table = ⟨.ok answer, table', notes⟩) :
    Referenced (log ++ [⟨call, table, ⟨.ok answer, table', notes⟩⟩]) table' := by
  cases acts_of_act hact with
  | pinned hpin => exact h.pin hpin
  | unpinned hunpin => exact h.unpin hunpin
  | added hadd => exact h.addRegion hadd
  | limited =>
    refine h.concat h.placed (fun _ => rfl) fun page => ?_
    rw [h.dirty_concat rfl]
    simp [Exchange.soils, setLimit]
  | taken =>
    refine h.concat h.placed (fun _ => rfl) fun page => ?_
    rw [sinceTaken_concat_of_takes log rfl]
    simp [PageSet.empty]

/-! ## The limit -/

/-- If the call pins, it takes the references held in all no higher than this limit, or than they
were before it. -/
def Exchange.Heeds (x : Exchange) (limit? : Option UInt64) : Prop :=
  ∀ address length writable limit, x.call = .pin address length writable → limit? = some limit →
    x.outcome.state.pinnedPages ≤ max limit.toNat x.before.pinnedPages

/-- The limit is the one that the log says, and every call of the log has heeded the one that was in
force before it. -/
structure Limited (log : List Exchange) (table : RegionTable) : Prop where
  limit_eq : table.limit = limitAfter log
  heeds : ∀ i (x : Exchange), log[i]? = some x → x.Heeds (limitAfter (log.take i))

theorem limited_empty : Limited [] empty := by
  constructor
  case limit_eq => rfl
  case heeds => simp

/-- Only the calls that set the limit change it. -/
theorem limit_of_act {call : Call} {answer : Answer} {notes : List Note}
    (hact : call.act table = ⟨.ok answer, table', notes⟩) :
    table'.limit =
      (⟨call, table, ⟨.ok answer, table', notes⟩⟩ : Exchange).limited?.getD table.limit := by
  cases acts_of_act hact with
  | pinned hpin =>
    rw [(pin_eq_ok hpin).table_eq]
    rfl
  | unpinned hunpin => exact (called_of_unpin hunpin).limit
  | added hadd => rcases addRegion_answers hadd with ⟨_, -, rfl⟩ | ⟨-, -, rfl⟩ <;> rfl
  | limited | taken => rfl

/-- A call heeds the limit of the table that it finds. -/
theorem heeds_of_act {call : Call} {answer : Answer} {notes : List Note}
    (hact : call.act table = ⟨.ok answer, table', notes⟩) :
    (⟨call, table, ⟨.ok answer, table', notes⟩⟩ : Exchange).Heeds table.limit := by
  rintro address length writable limit rfl hlimit
  cases acts_of_act hact with
  | pinned hpin => exact (pin_eq_ok hpin).within limit hlimit

theorem Limited.call {call : Call} {answer : Answer} {notes : List Note} (h : Limited log table)
    (hact : call.act table = ⟨.ok answer, table', notes⟩) :
    Limited (log ++ [⟨call, table, ⟨.ok answer, table', notes⟩⟩]) table' := by
  constructor
  case limit_eq => rw [limitAfter_concat, ← h.limit_eq, limit_of_act hact]
  case heeds =>
    intro i x hx
    rcases Nat.lt_or_ge i log.length with hlt | hge
    · rw [List.getElem?_append_left hlt] at hx
      rw [List.take_append_of_le_length (Nat.le_of_lt hlt)]
      exact h.heeds i x hx
    · -- The call is the last one, and the limit before it is that of the table.
      rw [List.getElem?_append_right hge, List.getElem?_singleton] at hx
      split at hx
      · obtain rfl := Option.some.inj hx
        rw [show i = log.length by omega, List.take_left, ← h.limit_eq]
        exact heeds_of_act hact
      · exact nomatch hx

/-! ## References after any history -/

/-- Any calls on a new table come to the same, faults included, if the references are kept in a map
of counts.  After calls in which none faulted: the pages that have an entry in the map are pages of
mapped regions, each entry counts at least one reference, and the references held in all are the sum
of the counts.  Each page is held as often as pin calls answered it and no release of exactly that
page has found it pinned since.  A release then always answers, with the map too, where nothing is
taken off a count of zero; where nothing is held it changes the count of calls only, and elsewhere
it takes one reference away.  The limit is the one that was set last, and every pin call has taken
the references held in all no higher than the limit that was in force, or than they were.  The pages
taken as dirty come in strictly ascending order, and are those that some dirty release found pinned
since they were last taken. -/
theorem references_of_play (calls : List Call) :
    (CountedTable.play calls .empty).result = (play calls empty).result ∧
    ∀ table log, play calls empty = ⟨.ok (), table, log⟩ →
      ∃ counted, CountedTable.play calls .empty = ⟨.ok (), counted, log.map Exchange.shown⟩ ∧
        counted.Mirrors table ∧
        (∀ page count, counted.pins.lookup page = some count →
          page.toNat % 4096 = 0 ∧ (∃ region ∈ table.regions, region.contains page = true) ∧
            1 ≤ count) ∧
        table.pinnedPages = counted.pins.total ∧
        (∀ page, counted.references page + log.countP (·.releases page) =
          (log.flatMap Exchange.answered).count page) ∧
        (∀ addr, table.pinCount addr =
          .ok (counted.references (addr - addr % Page.standardSize))) ∧
        (∀ handle dirty, ∃ table' counted' notes,
          RegionTable.unpin handle dirty table = ⟨.ok (), table', notes⟩ ∧
            CountedTable.unpin handle dirty counted = ⟨.ok (), counted', notes⟩ ∧
            (counted.references handle.virt = 0 →
              table' = { table with unpinCalls := table.unpinCalls + 1 } ∧
                counted' = { counted with unpinCalls := counted.unpinCalls + 1 }) ∧
            (1 ≤ counted.references handle.virt →
              counted'.references handle.virt + 1 = counted.references handle.virt)) ∧
        table.limit = limitAfter log ∧
        (∀ i (x : Exchange), log[i]? = some x → x.Heeds (limitAfter (log.take i))) ∧
        ∃ pages, takeDirty table = ⟨.ok pages, { table with dirty := .empty }, []⟩ ∧
          pages.Pairwise (· < ·) ∧
          ∀ page, page ∈ pages ↔ ∃ x ∈ sinceTaken log, x.soils page = true := by
  -- The map answers the same all along, so only the table itself is followed through the log.
  have halike := (CountedTable.simulates_play calls).alike CountedTable.mirrors_empty
  refine ⟨halike.result, fun table log hplay => ?_⟩
  have hshown : Act.mapEvents Exchange.shown (play calls) empty =
      ⟨.ok (), table, log.map Exchange.shown⟩ :=
    Act.mapEvents_eq_ok_iff.2 ⟨log, hplay, rfl⟩
  rw [hshown] at halike
  have h : Referenced log table :=
    play_induction (I := Referenced) (fun hpast hact => hpast.call hact) referenced_empty hplay
  have hlimited : Limited log table :=
    play_induction (I := Limited) (fun hpast hact => hpast.call hact) limited_empty hplay
  have hmirrors := halike.state
  refine ⟨_, halike.eq_mk, hmirrors, fun page count hlookup => ?_, hmirrors.pinnedPages_eq.symm,
    fun page => ?_, fun addr => ?_, hmirrors.unpin_answers, hlimited.limit_eq, hlimited.heeds,
    table.dirty.pages, rfl, table.dirty.ascending, h.dirty⟩
  · obtain ⟨hcount, hpos⟩ := hmirrors.pins.lookup_eq_some_iff.1 hlookup
    obtain ⟨haligned, hregion⟩ := h.placed page (PageBag.mem_pages_iff.2 (hcount ▸ hpos))
    exact ⟨haligned, hregion, hpos⟩
  · rw [hmirrors.references_eq]
    exact h.counted page
  · rw [pinCount, Page.alignDown_of_isPowerOfTwo (by decide), hmirrors.references_eq]
    rfl

/-- Three references on two pages, a pin call that the limit cuts short, releases of pages that were
never pinned, dirty pages taken in between, a limit lowered below what is held, and a pin call that
is refused for it. -/
def smallCalls : List Call :=
  [ .addRegion (Region.identity 0x10000 0x4000),
    .setLimit (some 3),
    .pin 0x10800 0x1000 false,
    .pin 0x11000 0x3000 true,
    .unpin { virt := 0x11040, phys := 0 } true,
    .unpin { virt := 0x13000, phys := 0x13000 } true,
    .unpin { virt := 0x11000, phys := 0x11000 } true,
    .takeDirty,
    .setLimit (some 1),
    .pin 0x12000 0x1000 false,
    .unpin { virt := 0x10000, phys := 0x10000 } true ]

/-- What a call has done to the references: the pages that it answered, and how many references were
held before it and after it. -/
def Exchange.effect (x : Exchange) : List UInt64 × Nat × Nat :=
  (x.answered, x.before.pinnedPages, x.outcome.state.pinnedPages)

/-- The page at `0x11000` was answered twice and released once, and its entry is the one that is
left.  Under a limit of three the second pin call is answered one page of three, and once the limit
is lowered to one the third is answered none and leaves the two references that are held. -/
theorem references_of_smallCalls :
    let table := (play smallCalls empty).state
    let log := (play smallCalls empty).events
    (log.flatMap Exchange.answered).count 0x11000 = 2 ∧ log.countP (·.releases 0x11000) = 1 ∧
      (∃ counted, CountedTable.play smallCalls .empty =
          ⟨.ok (), counted, log.map Exchange.shown⟩ ∧
        counted.references 0x11000 = 1 ∧ counted.pins.total = 1) ∧
      (limitAfter (log.take 3) = some 3 ∧ ∃ x, log[3]? = some x ∧
        x.call = .pin 0x11000 0x3000 true ∧ x.effect = ([0x11000], 2, 3) ∧ x.Heeds (some 3)) ∧
      (limitAfter (log.take 9) = some 1 ∧ ∃ x, log[9]? = some x ∧
        x.call = .pin 0x12000 0x1000 false ∧ x.effect = ([], 2, 2) ∧ x.Heeds (some 1)) ∧
      ∃ pages, takeDirty table = ⟨.ok pages, { table with dirty := .empty }, []⟩ ∧
        pages.Pairwise (· < ·) ∧
        ∀ page, page ∈ pages ↔ ∃ x ∈ sinceTaken log, x.soils page = true := by
  intro table log
  have hplay : play smallCalls empty = ⟨.ok (), table, log⟩ :=
    Outcome.eq_of_isOk (by decide +kernel)
  obtain ⟨counted, hcounted, -, -, hsum, hreferences, -, -, -, hheeds, hdirty⟩ :=
    (references_of_play smallCalls).2 table log hplay
  have hanswered : (log.flatMap Exchange.answered).count 0x11000 = 2 := by decide +kernel
  have hreleased : log.countP (·.releases 0x11000) = 1 := by decide +kernel
  have hlimits : limitAfter (log.take 3) = some 3 ∧ limitAfter (log.take 9) = some 1 := by
    decide +kernel
  -- The two pin calls, as they stand in the log.
  have hcut : log[3]?.map (fun x => (x.call, x.effect)) =
      some (.pin 0x11000 0x3000 true, [0x11000], 2, 3) := by
    decide +kernel
  have hrefused : log[9]?.map (fun x => (x.call, x.effect)) =
      some (.pin 0x12000 0x1000 false, [], 2, 2) := by
    decide +kernel
  obtain ⟨cut, hcutAt, hcutIs⟩ := Option.map_eq_some_iff.1 hcut
  obtain ⟨refused, hrefusedAt, hrefusedIs⟩ := Option.map_eq_some_iff.1 hrefused
  have hpage := hreferences 0x11000
  rw [hanswered, hreleased] at hpage
  have hone : table.pinnedPages = 1 := by decide +kernel
  refine ⟨hanswered, hreleased, ⟨counted, hcounted, Nat.succ_injective hpage, hsum ▸ hone⟩,
    ⟨hlimits.1, cut, hcutAt, (Prod.mk.inj hcutIs).1, (Prod.mk.inj hcutIs).2, ?_⟩,
    ⟨hlimits.2, refused, hrefusedAt, (Prod.mk.inj hrefusedIs).1, (Prod.mk.inj hrefusedIs).2, ?_⟩,
    hdirty⟩
  · exact hlimits.1 ▸ hheeds 3 cut hcutAt
  · exact hlimits.2 ▸ hheeds 9 refused hrefusedAt

end DmaQueue.RegionTable
