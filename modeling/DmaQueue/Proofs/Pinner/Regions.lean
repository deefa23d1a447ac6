/-
  DmaQueue.Proofs.Pinner.Regions

  The regions of a table after any history.  They are the regions that were
  added, in that order, and they lie apart from each other, so every page is
  mapped by one of them at most.  A table never gives a region up, and so a page
  that is pinned twice, however far apart in time, has one physical address.
-/
import DmaQueue.Proofs.Page.Overlap
import DmaQueue.Proofs.Pinner.History

namespace DmaQueue.RegionTable

variable {table table' : RegionTable} {region : Region} {log : List Exchange}

/-! ## Adding a region -/

/-- The regions are usable, lie apart from each other, and are not more than a table can hold. -/
structure Laid (regions : List Region) : Prop where
  usable : ∀ r ∈ regions, r.Usable
  apart : regions.Pairwise Region.Apart
  room : regions.length ≤ capacity

/-- The region is usable, and lies apart from each of these. -/
def Fits (regions : List Region) (region : Region) : Prop :=
  region.Usable ∧ ∀ r ∈ regions, r.Apart region

theorem laid_empty : Laid empty.regions := by
  constructor
  case usable => simp [empty]
  case apart => exact .nil
  case room => exact Nat.zero_le _

theorem Laid.append (h : Laid table.regions) (hfits : Fits table.regions region)
    (hroom : table.regions.length < capacity) : Laid (table.regions ++ [region]) := by
  constructor
  case usable =>
    rintro r hr
    rcases List.mem_append.1 hr with hr | hr
    · exact h.usable r hr
    · rw [List.mem_singleton.1 hr]
      exact hfits.1
  case apart =>
    rw [List.pairwise_append]
    refine ⟨h.apart, List.pairwise_singleton .., fun r hr s hs => ?_⟩
    rw [List.mem_singleton.1 hs]
    exact hfits.2 r hr
  case room =>
    rw [List.length_append, List.length_singleton]
    exact hroom

/-- What becomes of a region that is to be added: the answer, and the table afterwards. -/
inductive Adds (region : Region) (table : RegionTable) : Except PinFailure Unit → RegionTable → Prop
  | unfit (hunfit : ¬Fits table.regions region) :
      Adds region table (.error .invalidRegion) table
  | full (hfits : Fits table.regions region) (hfull : capacity ≤ table.regions.length) :
      Adds region table (.error .tableFull) table
  | added (hfits : Fits table.regions region) (hroom : table.regions.length < capacity) :
      Adds region table (.ok ()) { table with regions := table.regions ++ [region] }

section Adds

variable {answer : Except PinFailure Unit}

theorem Adds.eq_ok_iff (h : Adds region table answer table') :
    answer = .ok () ↔ Fits table.regions region ∧ table.regions.length < capacity := by
  cases h with
  | unfit hunfit => simp [hunfit]
  | full _ hfull => simp [Nat.not_lt.2 hfull]
  | added hfits hroom => simp [hfits, hroom]

theorem Adds.eq_tableFull_iff (h : Adds region table answer table') :
    answer = .error .tableFull ↔ Fits table.regions region ∧ capacity ≤ table.regions.length := by
  cases h with
  | unfit hunfit => simp [hunfit]
  | full hfits hfull => simp [hfits, hfull]
  | added _ hroom => simp [Nat.not_le.2 hroom]

/-- Only a region that is added changes the table. -/
theorem Adds.table_eq (h : Adds region table answer table') :
    (answer = .ok () → table' = { table with regions := table.regions ++ [region] }) ∧
      (answer ≠ .ok () → table' = table) := by
  cases h with
  | unfit | full => exact ⟨nofun, fun _ => rfl⟩
  | added => exact ⟨fun _ => rfl, fun hne => absurd rfl hne⟩

end Adds

/-- The search for an overlap in a table of usable regions cannot fault, so adding a region always
answers. -/
theorem addRegion_adds (h : Laid table.regions) (region : Region) :
    ∃ answer table', addRegion region table = ⟨.ok answer, table', []⟩ ∧
      Adds region table answer table' := by
  by_cases husable : region.Usable
  · have hchecked := Region.usable_iff.2 husable
    obtain ⟨shared, hshared, hiff⟩ := Region.anyOverlaps_of_usable husable h.usable
    cases shared with
    | true =>
      have hunfit : ¬Fits table.regions region := fun hfits => by simpa using hiff.2 hfits.2
      refine ⟨_, _, Act.get_bind_eq_ok_iff.2 ?_, .unfit hunfit⟩
      simp only [hchecked, hshared, Bool.not_true, Bool.false_eq_true, ↓reduceIte]
      rfl
    | false =>
      have hfits : Fits table.regions region := ⟨husable, hiff.1 rfl⟩
      by_cases hfull : capacity ≤ table.regions.length
      · refine ⟨_, _, Act.get_bind_eq_ok_iff.2 ?_, .full hfits hfull⟩
        simp only [hchecked, hshared, hfull, Bool.not_true, Bool.false_eq_true, ↓reduceIte]
        rfl
      · refine ⟨_, _, Act.get_bind_eq_ok_iff.2 ?_, .added hfits (Nat.lt_of_not_le hfull)⟩
        simp only [hchecked, hshared, hfull, Bool.not_true, Bool.false_eq_true, ↓reduceIte]
        rfl
  · have hchecked := mt Region.usable_iff.1 husable
    refine ⟨_, _, Act.get_bind_eq_ok_iff.2 ?_, .unfit fun hfits => husable hfits.1⟩
    simp only [hchecked, Bool.not_false, ↓reduceIte]
    rfl

theorem adds_of_addRegion (h : Laid table.regions) {answer : Except PinFailure Unit}
    {notes : List Note} (hadd : addRegion region table = ⟨.ok answer, table', notes⟩) :
    Adds region table answer table' := by
  obtain ⟨_, _, hanswer, hadds⟩ := addRegion_adds h region
  rw [hanswer] at hadd
  simp only [Outcome.mk.injEq, Except.ok.injEq] at hadd
  obtain ⟨rfl, rfl, -⟩ := hadd
  exact hadds

/-! ## What a log tells of the regions -/

namespace Exchange

/-- The region that the call has added, if it is such a call. -/
def added? (x : Exchange) : Option Region :=
  match x.call, x.outcome.result with
  | .addRegion region, .ok (.added (.ok ())) => some region
  | _, _ => none

/-- The pages that the call pinned, if it is a pin call. -/
def handles (x : Exchange) : List PinnedPage :=
  match x.outcome.result with
  | .ok (.pinned result) => result.toOption.getD []
  | _ => []

end Exchange

/-- The page lies in one of the regions, and as far into its physical memory as into the region. -/
def Places (regions : List Region) (page : PinnedPage) : Prop :=
  ∃ r ∈ regions, r.covers page.virt.toNat = true ∧
    page.phys.toNat = r.phys.toNat + (page.virt.toNat - r.virt.toNat)

theorem Maps.places {regions : List Region} {writable : Bool} {page : PinnedPage}
    (h : Maps regions writable page) : Places regions page := by
  obtain ⟨r, hfind, hphys, -⟩ := h
  exact ⟨r, List.mem_of_find?_eq_some hfind, Region.physOf_eq_ok hphys⟩

theorem Places.append {regions : List Region} {page : PinnedPage} (h : Places regions page)
    (more : List Region) : Places (regions ++ more) page := by
  obtain ⟨r, hr, hplace⟩ := h
  exact ⟨r, List.mem_append_left _ hr, hplace⟩

/-- Regions that lie apart have one physical address for a page. -/
theorem Places.phys_eq {regions : List Region} {page page' : PinnedPage}
    (hapart : regions.Pairwise Region.Apart) (h : Places regions page) (h' : Places regions page')
    (hvirt : page.virt = page'.virt) : page.phys = page'.phys := by
  obtain ⟨r, hr, hcovers, hphys⟩ := h
  obtain ⟨s, hs, hcovers', hphys'⟩ := h'
  rw [← hvirt] at hcovers' hphys'
  obtain rfl := Region.eq_of_covers hapart hr hs hcovers hcovers'
  exact UInt64.toNat_inj.1 (hphys.trans hphys'.symm)

/-- The regions of the table are those that were added, and every page that was ever pinned lies
where they place it. -/
structure Charted (log : List Exchange) (table : RegionTable) : Prop where
  laid : Laid table.regions
  added : table.regions = log.filterMap Exchange.added?
  placed : ∀ x ∈ log, ∀ page ∈ x.handles, Places table.regions page

theorem charted_empty : Charted [] empty := by
  constructor
  case laid => exact laid_empty
  case added => rfl
  case placed => simp

theorem Charted.concat {x : Exchange} (h : Charted log table) (hlaid : Laid table'.regions)
    (hadded : table'.regions = table.regions ++ x.added?.toList)
    (hplaced : ∀ page ∈ x.handles, Places table.regions page) :
    Charted (log ++ [x]) table' := by
  constructor
  case laid => exact hlaid
  case added =>
    rw [hadded, h.added, List.filterMap_append, List.filterMap_cons]
    cases x.added? <;> rfl
  case placed =>
    intro y hy page hpage
    rw [hadded]
    rcases List.mem_append.1 hy with hy | hy
    · exact (h.placed y hy page hpage).append _
    · rw [List.mem_singleton.1 hy] at hpage
      exact (hplaced page hpage).append _

/-- Every call that answers keeps the table charted. -/
theorem Charted.call {call : Call} {answer : Answer} {notes : List Note} (h : Charted log table)
    (hact : call.act table = ⟨.ok answer, table', notes⟩) :
    Charted (log ++ [⟨call, table, ⟨.ok answer, table', notes⟩⟩]) table' := by
  -- Only one kind of call touches the regions, and only another one pins pages.
  have hsame : table'.regions = table.regions →
      (⟨call, table, ⟨.ok answer, table', notes⟩⟩ : Exchange).added? = none →
      (∀ page ∈ (⟨call, table, ⟨.ok answer, table', notes⟩⟩ : Exchange).handles,
        Places table.regions page) →
      Charted (log ++ [⟨call, table, ⟨.ok answer, table', notes⟩⟩]) table' := by
    intro hregions hnone hplaced
    refine h.concat (hregions ▸ h.laid) ?_ hplaced
    rw [hregions, hnone, Option.toList_none, List.append_nil]
  cases acts_of_act hact with
  | pinned hpin =>
    have hpinned := pin_eq_ok hpin
    refine hsame ?_ rfl fun page hpage => (hpinned.maps page hpage).places
    rw [hpinned.table_eq]
    rfl
  | unpinned hunpin =>
    exact hsame (called_of_unpin hunpin).regions rfl (by simp [Exchange.handles])
  | added hadd =>
    cases adds_of_addRegion h.laid hadd with
    | unfit | full => exact hsame rfl rfl (by simp [Exchange.handles])
    | added hfits hroom =>
      exact h.concat (h.laid.append hfits hroom) rfl (by simp [Exchange.handles])
  | limited | taken => exact hsame rfl rfl (by simp [Exchange.handles])

/-! ## Regions after any history -/

/-- A history does not end at a region that is added: where every other call answers, all do. -/
theorem result_play {calls : List Call} {past : List Exchange} (h : Charted past table)
    (hothers : ∀ x ∈ (play calls table).events,
      (∀ region, x.call ≠ .addRegion region) → x.outcome.result.isOk = true) :
    (play calls table).result = .ok () := by
  induction calls generalizing past table with
  | nil => rfl
  | cons call rest ih =>
    have hfirst := hothers _ (mem_play_cons call rest table)
    cases hact : call.act table with
    | mk result mid notes =>
      cases result with
      | ok answer =>
        rw [play_cons_of_ok hact] at hothers ⊢
        exact ih (h.call hact) fun x hx => hothers x (List.mem_cons_of_mem _ hx)
      | error fault =>
        rw [hact] at hfirst
        cases call with
        | addRegion region =>
          obtain ⟨_, _, hanswer, -⟩ := addRegion_adds h.laid region
          have hok : (Call.addRegion region).act table = Outcome.after [] _ :=
            Act.bind_of_ok hanswer
          exact absurd (hok.symm.trans hact) (by simp [Outcome.after, Act.pure_apply])
        | pin | unpin | setLimit | takeDirty => exact absurd (hfirst (by simp)) Bool.false_ne_true

theorem charted_of_play {calls : List Call} (hplay : play calls empty = ⟨.ok (), table, log⟩) :
    Charted log table :=
  play_induction (I := Charted) (fun hpast hact => hpast.call hact) charted_empty hplay

theorem Charted.find?_eq (h : Charted log table) {addr addr' : UInt64}
    (hpage : addr.toNat / 4096 = addr'.toNat / 4096) : table.find? addr = table.find? addr' := by
  rw [find?, find?, find?_contains, find?_contains]
  refine find?_congr fun r hr => ?_
  have husable := h.laid.usable r hr
  -- Both addresses lie in the region exactly if the base of their page does.
  have hbase : 4096 * (addr.toNat / 4096) % 4096 = 0 := Nat.mul_mod_right ..
  have hoffset := husable.covers_add hbase (Nat.mod_lt addr.toNat (by decide))
  have hoffset' := husable.covers_add hbase (Nat.mod_lt addr'.toNat (by decide))
  rw [Nat.div_add_mod] at hoffset
  rw [hpage, Nat.div_add_mod] at hoffset'
  rw [hoffset, hoffset', hpage]

/-- Regions are added to a new table while pages are pinned and released in between, the limit is
moved and dirty pages are taken.  As long as those other calls answer, every call does.  The regions
are then the ones that were added, in that order.  A further region is added exactly if it is
usable, lies apart from all of them and there are fewer than sixteen; it is refused for want of room
only if it is usable and apart, and a refusal leaves the table as it was.  The regions lie apart
from each other, no address is in two of them, and the addresses of a page are all found in the same
one.  A page that was pinned at two moments of the history had the same physical address at both. -/
theorem regions_of_play {calls : List Call}
    (hothers : ∀ x ∈ (play calls empty).events,
      (∀ region, x.call ≠ .addRegion region) → x.outcome.result.isOk = true) :
    let table := (play calls empty).state
    let log := (play calls empty).events
    (play calls empty).result = .ok () ∧
    table.regions = log.filterMap Exchange.added? ∧
    (∀ region, ∃ answer table', addRegion region table = ⟨.ok answer, table', []⟩ ∧
      (answer = .ok () ↔ Fits table.regions region ∧ table.regions.length < 16) ∧
      (answer = .error .tableFull ↔ Fits table.regions region ∧ table.regions.length = 16) ∧
      (answer = .ok () → table' = { table with regions := table.regions ++ [region] }) ∧
      (answer ≠ .ok () → table' = table)) ∧
    table.regions.Pairwise Region.Apart ∧
    (∀ addr, table.regions.countP (·.contains addr) ≤ 1) ∧
    (∀ addr addr' : UInt64, addr.toNat / 4096 = addr'.toNat / 4096 →
      table.find? addr = table.find? addr') ∧
    ∀ x ∈ log, ∀ y ∈ log, ∀ page ∈ x.handles, ∀ page' ∈ y.handles,
      page.virt = page'.virt → page.phys = page'.phys := by
  intro table log
  have hresult := result_play charted_empty hothers
  have h : Charted log table := charted_of_play (Outcome.eq_of_result hresult)
  refine ⟨hresult, h.added, fun region => ?_, h.laid.apart, fun addr => ?_,
    fun _ _ => h.find?_eq, fun x hx y hy page hpage page' hpage' hvirt => ?_⟩
  · obtain ⟨answer, table', hanswer, hadds⟩ := addRegion_adds h.laid region
    have hfull : capacity ≤ table.regions.length ↔ table.regions.length = 16 :=
      ⟨fun hle => Nat.le_antisymm h.laid.room hle, fun heq => Nat.le_of_eq heq.symm⟩
    refine ⟨answer, table', hanswer, hadds.eq_ok_iff, ?_, hadds.table_eq⟩
    rw [hadds.eq_tableFull_iff, hfull]
  · simp only [Region.contains_eq_covers]
    exact Region.countP_covers_le_one h.laid.apart addr.toNat
  · exact (h.placed x hx page hpage).phys_eq h.laid.apart (h.placed y hy page' hpage') hvirt

/-- Two regions are added, the second one right above the first, with its physical memory elsewhere.
One that reaches into the first, one that is not made of whole pages and one that ends at the top of
the address space are refused.  The page at `0x13000` is pinned before and after. -/
def mixedCalls : List Call :=
  [ .addRegion { virt := 0x10000, phys := 0x80000, size := 0x4000, writable := true },
    .pin 0x13800 0x800 true,
    .addRegion { virt := 0x13000, phys := 0x90000, size := 0x2000, writable := true },
    .addRegion { virt := 0x14000, phys := 0x20000, size := 0x1000, writable := false },
    .unpin { virt := 0x13000, phys := 0x83000 } true,
    .addRegion { virt := 0x30000, phys := 0x30000, size := 0x1800, writable := true },
    .addRegion (Region.identity 0xfffffffffffff000 0x1000),
    .setLimit (some 2),
    .pin 0x13000 0x2000 false,
    .takeDirty ]

/-- Both pin calls answer the page at `0x13000`, and with the same physical address. -/
theorem regions_of_mixedCalls :
    let table := (play mixedCalls empty).state
    let log := (play mixedCalls empty).events
    table.regions.map (·.virt) = [0x10000, 0x14000] ∧
      log.map Exchange.handles =
        [[], [⟨0x13000, 0x83000⟩], [], [], [], [], [], [],
          [⟨0x13000, 0x83000⟩, ⟨0x14000, 0x20000⟩], []] ∧
      table.regions.Pairwise Region.Apart ∧
      (∀ addr, table.regions.countP (·.contains addr) ≤ 1) ∧
      ∀ x ∈ log, ∀ y ∈ log, ∀ page ∈ x.handles, ∀ page' ∈ y.handles,
        page.virt = page'.virt → page.phys = page'.phys := by
  have hall : (play mixedCalls empty).events.all (·.outcome.result.isOk) = true := by
    decide +kernel
  have hothers := fun x hx (_ : ∀ region, Exchange.call x ≠ .addRegion region) =>
    List.all_eq_true.1 hall x hx
  obtain ⟨-, -, -, hapart, hone, -, hsame⟩ := regions_of_play hothers
  exact ⟨by decide +kernel, by decide +kernel, hapart, hone, hsame⟩

end DmaQueue.RegionTable
