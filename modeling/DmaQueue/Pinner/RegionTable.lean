/-
  DmaQueue.Pinner.RegionTable

  A memory manager over a table of mapped regions.  It counts the references
  held on every page, remembers the pages released dirty, and can be given a
  limit on the references held in all.

  A range is pinned from its lowest page up, and the first page that cannot be
  pinned ends the call.
-/
import DmaQueue.Page.Ascending
import DmaQueue.Page.Region
import DmaQueue.Pinner.Basic

namespace DmaQueue

/-- A memory manager over a table of regions. -/
structure RegionTable where
  /-- The mapped regions, oldest first. -/
  regions : List Region
  /-- The references held on pages, one entry for each reference. -/
  held : PageBag
  /-- The pages released dirty since the set was last taken. -/
  dirty : PageSet
  /-- How many references may be held in all. -/
  limit : Option UInt64
  /-- How often a range was pinned, or tried to be. -/
  pinCalls : Nat
  /-- How often a page was released, or tried to be. -/
  unpinCalls : Nat
  deriving DecidableEq, Repr

namespace RegionTable

open Word

/-! ## Regions -/

/-- How many regions a table can hold. -/
def capacity : Nat := 16

/-- The table that maps nothing. -/
def empty : RegionTable :=
  { regions := [], held := .empty, dirty := .empty, limit := none, pinCalls := 0, unpinCalls := 0 }

/-- Maps another region, if it is usable, overlaps no other one, and there is room. -/
def addRegion (region : Region) : Act Note RegionTable (Except PinFailure Unit) := do
  let table ← Act.get
  if !region.usable then
    return .error .invalidRegion
  else if ← Act.ofExcept (region.anyOverlaps table.regions) then
    return .error .invalidRegion
  else if capacity ≤ table.regions.length then
    return .error .tableFull
  else do
    Act.modify fun t => { t with regions := t.regions ++ [region] }
    return .ok ()

/-- Maps the regions in order; the first that is refused ends it. -/
def addRegions : List Region → Act Note RegionTable (Except PinFailure Unit)
  | [] => return .ok ()
  | region :: rest => do
    match ← addRegion region with
    | .error failure => return .error failure
    | .ok () => addRegions rest

/-- Sets or lifts the limit on references. -/
def setLimit (limit : Option UInt64) (table : RegionTable) : RegionTable :=
  { table with limit }

/-- The region that maps `addr`. -/
def find? (table : RegionTable) (addr : UInt64) : Option Region :=
  table.regions.find? (·.contains addr)

/-! ## Pages -/

/-- The references held in all. -/
def pinnedPages (table : RegionTable) : Nat :=
  table.held.size

/-- The references held on the page of `addr`. -/
def pinCount (table : RegionTable) (addr : UInt64) : Except Fault Nat := do
  let page ← Page.alignDown addr Page.standardSize
  return table.held.count page

/-- Whether the page of `addr` was released dirty. -/
def isDirty (table : RegionTable) (addr : UInt64) : Except Fault Bool := do
  let page ← Page.alignDown addr Page.standardSize
  return table.dirty.contains page

/-- Answers the pages released dirty, lowest first, and forgets them. -/
def takeDirty : Act Note RegionTable (List UInt64) := do
  let table ← Act.get
  Act.modify fun t => { t with dirty := .empty }
  return table.dirty.pages

/-- The reason for which no reference may be added at present. -/
def exhausted? (table : RegionTable) : Option PinFailure :=
  match table.limit with
  | none => none
  | some limit => if limit.toNat ≤ table.pinnedPages then some (.limitReached limit) else none

/-- What a page would be pinned as.  The limit is looked at first, then the mapping, then whether
the page may be written to. -/
def lookup (table : RegionTable) (page : UInt64) (writable : Bool) :
    Except Fault (Except PinFailure PinnedPage) :=
  match table.exhausted? with
  | some failure => return .error failure
  | none =>
    match table.find? page with
    | none => return .error (.unmapped page)
    | some region =>
      if writable && !region.writable then
        return .error (.readOnly page)
      else do
        match ← region.physOf page with
        | none => return .error (.unmapped page)
        | some phys => return .ok { virt := page, phys }

/-- Takes one reference on a page. -/
def pinPage (page : UInt64) (writable : Bool) :
    Act Note RegionTable (Except PinFailure PinnedPage) := do
  let table ← Act.get
  match ← Act.ofExcept (table.lookup page writable) with
  | .error failure => return .error failure
  | .ok pinned =>
    Act.modify fun t => { t with held := t.held.insert page }
    return .ok pinned

/-- Takes a reference on `page` and on each of the `further` pages above it, until one cannot be
pinned.  Answers the pages pinned, and what stopped it. -/
def pinUpwards (page : UInt64) (writable : Bool) :
    (further : Nat) → Act Note RegionTable (List PinnedPage × Option PinFailure)
  | 0 => do
    match ← pinPage page writable with
    | .error failure => return ([], some failure)
    | .ok pinned => return ([pinned], none)
  | further + 1 => do
    match ← pinPage page writable with
    | .error failure => return ([], some failure)
    | .ok pinned =>
      let above ← Act.ofExcept (checkedAdd page Page.standardSize)
      let (rest, stopped) ← pinUpwards above writable further
      return (pinned :: rest, stopped)

/-- Pins a range.  It is refused as a whole only if its first page cannot be pinned. -/
def pin (address length : UInt64) (writable : Bool) :
    Act Note RegionTable (Except PinFailure (List PinnedPage)) := do
  Act.modify fun t => { t with pinCalls := t.pinCalls + 1 }
  if length = 0 then
    return .ok []
  else if (add? address length).isNone then
    return .error .overflow
  else do
    let first ← Act.ofExcept (Page.alignDown address Page.standardSize)
    -- The range is not empty, so it touches its first page and `count - 1` further ones.
    let count ← Act.ofExcept (Page.touched address length Page.standardSize)
    let range := s!"{Hex.marked address.toNat}+{Hex.marked length.toNat}"
    match ← pinUpwards first writable (count.toNat - 1) with
    | ([], some failure) => return .error failure
    | (pages, some failure) =>
      Act.emit
        ⟨.trace, s!"[PIN] partial pin {range}: {pages.length} page(s), stopped: {failure.message}"⟩
      return .ok pages
    | (pages, none) =>
      Act.emit ⟨.trace, s!"[PIN] pinned {range}: {pages.length} page(s)"⟩
      return .ok pages

/-- Releases one reference on the page; where none is held, nothing but the call is counted. -/
def unpin (page : PinnedPage) (dirty : Bool) : Act Note RegionTable Unit := do
  Act.modify fun t => { t with unpinCalls := t.unpinCalls + 1 }
  let table ← Act.get
  if table.held.count page.virt = 0 then
    Act.emit ⟨.warn, s!"[PIN] unpin of page {Hex.marked page.virt.toNat} which is not pinned"⟩
  else
    -- A page counts as dirty from the first dirty release on, even while others still hold it.
    Act.modify fun t =>
      { t with
        held := t.held.erase page.virt
        dirty := if dirty then t.dirty.insert page.virt else t.dirty }

instance : Pinner RegionTable where
  pin := pin
  unpin := unpin
  granule _ := Page.standardSize

end RegionTable

end DmaQueue
