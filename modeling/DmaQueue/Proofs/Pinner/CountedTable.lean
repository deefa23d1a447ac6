/-
  DmaQueue.Proofs.Pinner.CountedTable

  The region table once more, with a map from pages to counts in place of the
  bag: a page has an entry as long as references are held on it, a release takes
  one off the count, which faults if there is none left to take, and the entry
  goes with the last of them.  Every call on the two tables comes to the same
  (`simulates_act`), and so does every history (`simulates_play`).
-/
import DmaQueue.Proofs.Act.Simulates
import DmaQueue.Proofs.Pinner.History
import Mathlib.Algebra.BigOperators.Group.List.Lemmas
import Mathlib.Data.List.AList

namespace DmaQueue

/-! ## Maps of counts -/

/-- A map from pages to counts. -/
abbrev PageCounts : Type :=
  AList fun _ : UInt64 => Nat

namespace PageCounts

/-- The counts, added up. -/
def total (counts : PageCounts) : Nat :=
  counts.entries.foldr (fun entry sum => entry.2 + sum) 0

/-- Counts the page once more; a page without an entry is given one. -/
def increment (counts : PageCounts) (page : UInt64) : PageCounts :=
  counts.insert page ((counts.lookup page).getD 0 + 1)

/-- A count less one; a fault if there is nothing to take one off. -/
def decrement : Nat → Except Fault Nat
  | 0 => .error .overflow
  | count + 1 => .ok count

/-- Writes back what is left of a count; an entry with nothing left is removed. -/
def settle (counts : PageCounts) (page : UInt64) (left : Nat) : PageCounts :=
  if left = 0 then counts.erase page else counts.insert page left

/-- The map has an entry for each page of the bag, which says how often it is in it, and for no
other page. -/
def Matches (counts : PageCounts) (bag : PageBag) : Prop :=
  ∀ page, counts.lookup page = if bag.count page = 0 then none else some (bag.count page)

variable {counts : PageCounts} {bag : PageBag} {page : UInt64} {count : Nat}

theorem matches_empty : Matches ∅ .empty := fun _ => rfl

theorem Matches.lookup_eq_none_iff (h : counts.Matches bag) :
    counts.lookup page = none ↔ bag.count page = 0 := by
  rw [h page, ite_eq_left_iff]
  simp only [reduceCtorEq, imp_false, not_not]

theorem Matches.lookup_eq_some_iff (h : counts.Matches bag) :
    counts.lookup page = some count ↔ bag.count page = count ∧ 1 ≤ count := by
  rw [h page]
  split
  · simp only [reduceCtorEq, false_iff]
    omega
  · rw [Option.some.injEq]
    omega

theorem Matches.getD_lookup (h : counts.Matches bag) (page : UInt64) :
    (counts.lookup page).getD 0 = bag.count page := by
  rw [h page]
  split
  · rename_i hnone
    exact hnone.symm
  · rfl

theorem Matches.increment (h : counts.Matches bag) (page : UInt64) :
    (counts.increment page).Matches (bag.insert page) := by
  intro q
  rw [PageCounts.increment, h.getD_lookup, PageBag.count_insert]
  by_cases hpage : page = q
  · subst hpage
    rw [AList.lookup_insert, if_pos rfl, if_neg (Nat.succ_ne_zero _)]
  · rw [AList.lookup_insert_ne (Ne.symm hpage), if_neg hpage, Nat.add_zero, h q]

/-- What is left after one was taken off the count. -/
theorem Matches.settle (h : counts.Matches bag) (hcount : bag.count page = count + 1) :
    (counts.settle page count).Matches (bag.erase page) := by
  intro q
  rw [PageBag.count_erase, PageCounts.settle]
  by_cases hpage : page = q
  · subst hpage
    rw [if_pos rfl, hcount, Nat.add_sub_cancel]
    split
    · rw [AList.lookup_erase]
    · rw [AList.lookup_insert]
  · rw [if_neg hpage, Nat.sub_zero, ← h q]
    split
    · rw [AList.lookup_erase_ne (Ne.symm hpage)]
    · rw [AList.lookup_insert_ne (Ne.symm hpage)]

/-- The counts of all entries are the size of the bag. -/
theorem Matches.total_eq (h : counts.Matches bag) : counts.total = bag.size := by
  -- The keys are the pages of the bag, each once, so its size is the sum over them.
  have hentry : ∀ entry ∈ counts.entries, entry.2 = bag.pages.count entry.1 := by
    intro entry hentry
    exact (h.lookup_eq_some_iff.1 (AList.mem_lookup_iff.2 hentry)).1.symm
  have hkeys : counts.keys.Perm bag.pages.dedup := by
    rw [List.perm_ext_iff_of_nodup counts.keys_nodup (List.nodup_dedup _)]
    intro page
    rw [← AList.mem_keys, ← not_iff_not, ← AList.lookup_eq_none, h.lookup_eq_none_iff,
      List.mem_dedup, PageBag.mem_pages_iff]
    omega
  have hcounts : counts.entries.map (·.2) = counts.keys.map (bag.pages.count ·) := by
    rw [AList.keys, List.keys, List.map_map]
    exact List.map_congr_left hentry
  have hsum : counts.total = (counts.entries.map (·.2)).sum := by
    rw [List.sum_eq_foldr, List.foldr_map]
    rfl
  rw [hsum, hcounts, (hkeys.map _).sum_eq, List.sum_map_count_dedup_eq_length]
  rfl

end PageCounts

/-! ## The table -/

/-- A region table that keeps its references in a map of counts. -/
structure CountedTable where
  /-- The mapped regions, oldest first. -/
  regions : List Region
  /-- How many references are held on each page on which some are. -/
  pins : PageCounts
  /-- The pages released dirty since the set was last taken. -/
  dirty : PageSet
  /-- How many references may be held in all. -/
  limit : Option UInt64
  /-- How often a range was pinned, or tried to be. -/
  pinCalls : Nat
  /-- How often a page was released, or tried to be. -/
  unpinCalls : Nat

/-- What a call shows from outside: its answer or its fault, and its notes. -/
def RegionTable.Exchange.shown (x : Exchange) : Except Fault Answer × List Note :=
  (x.outcome.result, x.outcome.events)

namespace CountedTable

open RegionTable (Answer Call Exchange)

/-- The table that maps nothing. -/
def empty : CountedTable :=
  { regions := [], pins := ∅, dirty := .empty, limit := none, pinCalls := 0, unpinCalls := 0 }

/-- The references held in all. -/
def pinnedPages (table : CountedTable) : Nat :=
  table.pins.total

/-- The references held on a page. -/
def references (table : CountedTable) (page : UInt64) : Nat :=
  (table.pins.lookup page).getD 0

/-- Maps another region. -/
def addRegion (region : Region) : Act Note CountedTable (Except PinFailure Unit) := do
  let table ← Act.get
  if !region.usable then
    return .error .invalidRegion
  else if ← Act.ofExcept (region.anyOverlaps table.regions) then
    return .error .invalidRegion
  else if RegionTable.capacity ≤ table.regions.length then
    return .error .tableFull
  else do
    Act.modify fun t => { t with regions := t.regions ++ [region] }
    return .ok ()

/-- Sets or lifts the limit on references. -/
def setLimit (limit : Option UInt64) (table : CountedTable) : CountedTable :=
  { table with limit }

/-- Answers the pages released dirty and forgets them. -/
def takeDirty : Act Note CountedTable (List UInt64) := do
  let table ← Act.get
  Act.modify fun t => { t with dirty := .empty }
  return table.dirty.pages

/-- The reason for which no reference may be added at present. -/
def exhausted? (table : CountedTable) : Option PinFailure :=
  match table.limit with
  | none => none
  | some limit => if limit.toNat ≤ table.pinnedPages then some (.limitReached limit) else none

/-- What a page would be pinned as. -/
def lookup (table : CountedTable) (page : UInt64) (writable : Bool) :
    Except Fault (Except PinFailure PinnedPage) :=
  match table.exhausted? with
  | some failure => return .error failure
  | none =>
    match table.regions.find? (·.contains page) with
    | none => return .error (.unmapped page)
    | some region =>
      if writable && !region.writable then
        return .error (.readOnly page)
      else do
        match ← region.physOf page with
        | none => return .error (.unmapped page)
        | some phys => return .ok { virt := page, phys }

/-- Takes one reference on a page. -/
def pinPage (page : UInt64) (writable : Bool) :
    Act Note CountedTable (Except PinFailure PinnedPage) := do
  let table ← Act.get
  match ← Act.ofExcept (table.lookup page writable) with
  | .error failure => return .error failure
  | .ok pinned =>
    Act.modify fun t => { t with pins := t.pins.increment page }
    return .ok pinned

/-- Takes a reference on `page` and on each of the `further` pages above it, until one cannot be
pinned. -/
def pinUpwards (page : UInt64) (writable : Bool) :
    (further : Nat) → Act Note CountedTable (List PinnedPage × Option PinFailure)
  | 0 => do
    match ← pinPage page writable with
    | .error failure => return ([], some failure)
    | .ok pinned => return ([pinned], none)
  | further + 1 => do
    match ← pinPage page writable with
    | .error failure => return ([], some failure)
    | .ok pinned =>
      let above ← Act.ofExcept (Word.checkedAdd page Page.standardSize)
      let (rest, stopped) ← pinUpwards above writable further
      return (pinned :: rest, stopped)

/-- Pins a range. -/
def pin (address length : UInt64) (writable : Bool) :
    Act Note CountedTable (Except PinFailure (List PinnedPage)) := do
  Act.modify fun t => { t with pinCalls := t.pinCalls + 1 }
  if length = 0 then
    return .ok []
  else if (Word.add? address length).isNone then
    return .error .overflow
  else do
    let first ← Act.ofExcept (Page.alignDown address Page.standardSize)
    let count ← Act.ofExcept (Page.touched address length Page.standardSize)
    let range := s!"{Hex.marked address.toNat}+{Hex.marked length.toNat}"
    match ← pinUpwards first writable (count.toNat - 1) with
    | ([], some failure) => return .error failure
    | (pages, some failure) =>
      Act.emit
        ⟨.trace, s!"[PIN] partial pin {range}: {pages.length} page(s), stopped: {failure.message}"⟩
      return .ok pages
    | (pages, none) =>
      Act.emit ⟨.trace, s!"[PIN] pinned {range}: {pages.length} page(s)"⟩
      return .ok pages

/-- Releases one reference on the page.  Where there is no entry, nothing but the call is
counted. -/
def unpin (page : PinnedPage) (dirty : Bool) : Act Note CountedTable Unit := do
  Act.modify fun t => { t with unpinCalls := t.unpinCalls + 1 }
  let table ← Act.get
  match table.pins.lookup page.virt with
  | none =>
    Act.emit ⟨.warn, s!"[PIN] unpin of page {Hex.marked page.virt.toNat} which is not pinned"⟩
  | some count =>
    Act.modify fun t => { t with dirty := if dirty then t.dirty.insert page.virt else t.dirty }
    let left ← Act.ofExcept (PageCounts.decrement count)
    Act.modify fun t => { t with pins := t.pins.settle page.virt left }

/-- Carries out a call. -/
def act : Call → Act Note CountedTable Answer
  | .pin address length writable => do
    let result ← pin address length writable
    return .pinned result
  | .unpin page dirty => do
    unpin page dirty
    return .unpinned
  | .addRegion region => do
    let result ← addRegion region
    return .added result
  | .setLimit limit => do
    Act.modify (setLimit limit)
    return .limited
  | .takeDirty => do
    let pages ← takeDirty
    return .taken pages

/-- Carries out a call and keeps what it shows. -/
def perform (call : Call) : Act (Except Fault Answer × List Note) CountedTable Unit := fun table =>
  let outcome := act call table
  ⟨outcome.result.map fun _ => (), outcome.state, [(outcome.result, outcome.events)]⟩

/-- Carries out calls one after the other, until one of them faults. -/
def play : List Call → Act (Except Fault Answer × List Note) CountedTable Unit
  | [] => return ()
  | call :: rest => do
    perform call
    play rest

/-! ## The two tables -/

/-- The map says what the bag says, and the rest is the same. -/
structure Mirrors (counted : CountedTable) (table : RegionTable) : Prop where
  regions : counted.regions = table.regions
  pins : counted.pins.Matches table.held
  dirty : counted.dirty = table.dirty
  limit : counted.limit = table.limit
  pinCalls : counted.pinCalls = table.pinCalls
  unpinCalls : counted.unpinCalls = table.unpinCalls

variable {counted : CountedTable} {table : RegionTable}

theorem mirrors_empty : empty.Mirrors .empty :=
  ⟨rfl, PageCounts.matches_empty, rfl, rfl, rfl, rfl⟩

theorem Mirrors.pinnedPages_eq (h : counted.Mirrors table) :
    counted.pinnedPages = table.pinnedPages :=
  h.pins.total_eq

theorem Mirrors.references_eq (h : counted.Mirrors table) (page : UInt64) :
    counted.references page = table.held.count page :=
  h.pins.getD_lookup page

theorem Mirrors.lookup_eq (h : counted.Mirrors table) (page : UInt64) (writable : Bool) :
    counted.lookup page writable = table.lookup page writable := by
  have hexhausted : counted.exhausted? = table.exhausted? := by
    rw [exhausted?, h.limit, h.pinnedPages_eq]
    rfl
  rw [lookup, hexhausted, h.regions]
  rfl

open Act (Simulates)

theorem simulates_addRegion (region : Region) :
    Simulates Mirrors (addRegion region) (RegionTable.addRegion region) := by
  refine .get_bind fun counted table h => Simulates.alike ?_ h
  rw [h.regions]
  split
  · exact .pure _
  · refine .bind (.ofExcept _) fun overlaps => ?_
    split
    · exact .pure _
    · split
      · exact .pure _
      · exact .bind (.modify fun counted table h => { h with regions := by simp only [h.regions] })
          fun _ => .pure _

theorem simulates_pinPage (page : UInt64) (writable : Bool) :
    Simulates Mirrors (pinPage page writable) (RegionTable.pinPage page writable) := by
  refine .get_bind fun counted table h => Simulates.alike ?_ h
  rw [h.lookup_eq]
  refine .bind (.ofExcept _) fun found => ?_
  cases found with
  | error failure => exact .pure _
  | ok pinned =>
    exact .bind (.modify fun counted table h => { h with pins := h.pins.increment page })
      fun _ => .pure _

theorem simulates_pinUpwards (page : UInt64) (writable : Bool) (further : Nat) :
    Simulates Mirrors (pinUpwards page writable further)
      (RegionTable.pinUpwards page writable further) := by
  induction further generalizing page with
  | zero =>
    refine .bind (simulates_pinPage page writable) fun answer => ?_
    cases answer <;> exact .pure _
  | succ further ih =>
    refine .bind (simulates_pinPage page writable) fun answer => ?_
    cases answer with
    | error failure => exact .pure _
    | ok pinned =>
      exact .bind (.ofExcept _) fun above => .bind (ih above) fun _ => .pure _

theorem simulates_pin (address length : UInt64) (writable : Bool) :
    Simulates Mirrors (pin address length writable) (RegionTable.pin address length writable) := by
  refine .bind (.modify fun counted table h => { h with pinCalls := by simp only [h.pinCalls] })
    fun _ => ?_
  split
  · exact .pure _
  split
  · exact .pure _
  refine .bind (.ofExcept _) fun first => .bind (.ofExcept _) fun count =>
    .bind (simulates_pinUpwards first writable _) fun walk => ?_
  obtain ⟨pages, stopped⟩ := walk
  cases stopped with
  | none => cases pages <;> exact .bind (.emit _) fun _ => .pure _
  | some failure =>
    cases pages with
    | nil => exact .pure _
    | cons => exact .bind (.emit _) fun _ => .pure _

/-- A count that is found in the map is not zero, so one can be taken off. -/
theorem simulates_unpin (page : PinnedPage) (dirty : Bool) :
    Simulates Mirrors (unpin page dirty) (RegionTable.unpin page dirty) := by
  refine .bind (.modify fun counted table h => { h with unpinCalls := by simp only [h.unpinCalls] })
    fun _ => .get_bind fun counted table h => ?_
  by_cases hheld : table.held.count page.virt = 0
  · -- There is no entry, so both tables only warn.
    rw [h.pins.lookup_eq_none_iff.2 hheld, if_pos hheld]
    exact ⟨rfl, h, rfl⟩
  · -- The entry is a successor, so the decrement cannot fault.
    obtain ⟨left, hleft⟩ := Nat.exists_eq_succ_of_ne_zero hheld
    have hfound : counted.pins.lookup page.virt = some (left + 1) :=
      h.pins.lookup_eq_some_iff.2 ⟨hleft, Nat.le_add_left ..⟩
    rw [hfound, if_neg hheld]
    have hdirty := congrArg (fun set => if dirty then PageSet.insert set page.virt else set) h.dirty
    exact ⟨rfl, { h with pins := h.pins.settle hleft, dirty := hdirty }, rfl⟩

theorem unpin_of_none {page : PinnedPage} (dirty : Bool)
    (h : counted.pins.lookup page.virt = none) :
    unpin page dirty counted = ⟨.ok (), { counted with unpinCalls := counted.unpinCalls + 1 },
      [⟨.warn, s!"[PIN] unpin of page {Hex.marked page.virt.toNat} which is not pinned"⟩]⟩ := by
  refine Act.modify_bind_eq_ok_iff.2 (Act.get_bind_eq_ok_iff.2 ?_)
  simp only [h]
  rfl

/-- A release answers on both tables, whatever is released.  Where nothing is held it changes the
count of calls only, and elsewhere it takes one reference away. -/
theorem Mirrors.unpin_answers (h : counted.Mirrors table) (handle : PinnedPage) (dirty : Bool) :
    ∃ table' counted' notes,
      RegionTable.unpin handle dirty table = ⟨.ok (), table', notes⟩ ∧
        unpin handle dirty counted = ⟨.ok (), counted', notes⟩ ∧
        (counted.references handle.virt = 0 →
          table' = { table with unpinCalls := table.unpinCalls + 1 } ∧
            counted' = { counted with unpinCalls := counted.unpinCalls + 1 }) ∧
        (1 ≤ counted.references handle.virt →
          counted'.references handle.virt + 1 = counted.references handle.virt) := by
  obtain ⟨table', notes, hunpin, hcases⟩ := RegionTable.unpin_answers handle dirty table
  have halike := (simulates_unpin handle dirty).alike h
  rw [hunpin] at halike
  refine ⟨table', (unpin handle dirty counted).state, notes, hunpin, halike.eq_mk, ?_⟩
  rw [h.references_eq]
  rcases hcases with ⟨hnone, rfl⟩ | ⟨hheld, rfl⟩
  · have hsame := unpin_of_none dirty (h.pins.lookup_eq_none_iff.2 hnone)
    exact ⟨fun _ => ⟨rfl, congrArg Outcome.state hsame⟩,
      fun hheld => absurd hnone (Nat.ne_of_gt hheld)⟩
  · refine ⟨fun hnone => absurd hnone (Nat.ne_of_gt hheld), fun _ => ?_⟩
    rw [halike.state.references_eq]
    show (table.held.erase handle.virt).count handle.virt + 1 = _
    rw [PageBag.count_erase, if_pos rfl]
    omega

/-- Every call comes to the same on both tables. -/
theorem simulates_act (call : Call) : Simulates Mirrors (act call) call.act := by
  cases call with
  | pin address length writable =>
    exact .bind (simulates_pin address length writable) fun _ => .pure _
  | unpin page dirty => exact .bind (simulates_unpin page dirty) fun _ => .pure _
  | addRegion region => exact .bind (simulates_addRegion region) fun _ => .pure _
  | setLimit limit =>
    exact .bind (.modify fun counted table h => { h with limit := rfl }) fun _ => .pure _
  | takeDirty =>
    have htake : Simulates Mirrors takeDirty RegionTable.takeDirty := by
      refine .get_bind fun counted table h => Simulates.alike ?_ h
      rw [h.dirty]
      exact .bind (.modify fun counted table h => { h with dirty := rfl }) fun _ => .pure _
    exact .bind htake fun _ => .pure _

/-- So does every history. -/
theorem simulates_play (calls : List Call) :
    Simulates Mirrors (play calls) (Act.mapEvents Exchange.shown (RegionTable.play calls)) := by
  induction calls with
  | nil => exact .pure _
  | cons call rest ih =>
    have hperform : Simulates Mirrors (perform call)
        (Act.mapEvents Exchange.shown (RegionTable.perform call)) := by
      intro counted table h
      obtain ⟨hresult, hstate, hevents⟩ := simulates_act call counted table h
      have hentry := congrArg₂ (fun result notes => [(result, notes)]) hresult hevents
      exact ⟨congrArg (Except.map fun _ => ()) hresult, hstate, hentry⟩
    rw [RegionTable.play, Act.mapEvents_bind]
    exact .bind hperform fun _ => ih

end CountedTable

end DmaQueue
