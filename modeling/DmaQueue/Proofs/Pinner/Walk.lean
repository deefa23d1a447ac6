/-
  DmaQueue.Proofs.Pinner.Walk

  What a pin call comes to, whatever the table, the range and the flag.  The walk
  up the pages of the range takes a reference on one after the other until a page
  is refused or has no physical address in the word (`pinUpwards_walks`).  So the
  call gets the longest row of pages that can be pinned, and the cursor of its
  loop ends on the last page of the range (`pin_longest`).
-/
import DmaQueue.Proofs.Pinner.Leading

namespace DmaQueue

namespace RegionTable

open Region (translate)
open Word

variable {table : RegionTable} {writable : Bool}

/-! ## A walk up the pages -/

/-- The pages lie one above the other from the virtual address `page` on, each at the physical
address that the regions map it to. -/
structure Row (regions : List Region) (page : Nat) (pages : List PinnedPage) : Prop where
  upwards : Upwards page pages
  translated : ∀ pinned ∈ pages, translate regions pinned.virt.toNat = some pinned.phys.toNat

/-- No page of the row has a physical address outside the word. -/
theorem Row.not_strays {regions : List Region} {page : Nat} {pages : List PinnedPage}
    (h : Row regions page pages) {i : Nat} (hi : i < pages.length) :
    ¬Strays regions (page + 4096 * i) := by
  rintro ⟨image, himage, hout⟩
  have hvirt := h.upwards i pages[i] (List.getElem?_eq_getElem hi)
  have hphys := h.translated pages[i] (List.getElem_mem hi)
  rw [hvirt, Nat.mul_comm i, show Page.standardSize.toNat = 4096 from rfl, himage,
    Option.some.injEq] at hphys
  have hfits := pages[i].phys.toNat_lt_size
  omega

theorem Row.nil (regions : List Region) (page : Nat) : Row regions page [] :=
  ⟨by simp [Upwards], by simp⟩

theorem Row.cons {regions : List Region} {page phys : UInt64} {rest : List PinnedPage}
    (hphys : translate regions page.toNat = some phys.toNat)
    (h : Row regions (page.toNat + 4096) rest) : Row regions page.toNat (⟨page, phys⟩ :: rest) := by
  constructor
  case upwards => exact .cons rfl h.upwards
  case translated =>
    rintro pinned hpinned
    rcases List.mem_cons.1 hpinned with rfl | hrest
    · exact hphys
    · exact h.translated pinned hrest

/-- What comes of a walk up `n` pages: the first page is refused, or the walk ends after a row of
pages, or it comes to a page whose physical address does not fit the word.  A fault leaves the
references that were taken before it. -/
inductive Walks (table : RegionTable) (writable : Bool) (page : UInt64) (n : Nat) :
    Outcome Note RegionTable (List PinnedPage × Option PinFailure) → Prop
  | refused {failure : PinFailure} (hrefuses : Refuses table writable page failure) :
      Walks table writable page n ⟨.ok ([], some failure), table, []⟩
  | ended {pinned : PinnedPage} {rest : List PinnedPage} {stopped : Option PinFailure}
      (hrow : Row table.regions page.toNat (pinned :: rest))
      (hlength : (pinned :: rest).length = table.reach writable page.toNat n) :
      Walks table writable page n
        ⟨.ok (pinned :: rest, stopped), table.holding (pinned :: rest), []⟩
  | strayed {pages : List PinnedPage} (hrow : Row table.regions page.toNat pages)
      (hlength : pages.length < table.reach writable page.toNat n)
      (hstrays : Strays table.regions (page.toNat + 4096 * pages.length)) :
      Walks table writable page n ⟨.error .overflow, table.holding pages, []⟩

/-- A page that is taken comes before whatever the walk above it comes to. -/
theorem Walks.cons {page above phys : UInt64} {n : Nat}
    {o : Outcome Note RegionTable (List PinnedPage × Option PinFailure)} (hroom : table.HasRoom)
    (hmapped : mapped table.regions writable page.toNat = true)
    (hphys : translate table.regions page.toNat = some phys.toNat)
    (habove : above.toNat = page.toNat + 4096)
    (h : Walks (table.holding [⟨page, phys⟩]) writable above (n + 1) o) :
    Walks table writable page (n + 2) (o.map fun walk => (⟨page, phys⟩ :: walk.1, walk.2)) := by
  have hreach := reach_succ hroom hmapped ⟨page, phys⟩ (n + 1)
  rw [← habove] at hreach
  cases h with
  | refused hrefuses =>
    refine .ended (.cons hphys (.nil ..)) ?_
    rw [hreach, hrefuses.reach_eq_zero]
    rfl
  | ended hrow hlength =>
    refine .ended (.cons hphys (habove ▸ hrow)) ?_
    rw [hreach, ← hlength]
    rfl
  | strayed hrow hlength hstrays =>
    refine .strayed (.cons hphys (habove ▸ hrow)) ?_ ?_
    · rw [hreach]
      exact Nat.succ_lt_succ hlength
    · rw [habove] at hstrays
      rw [List.length_cons, Nat.mul_succ, Nat.add_comm (4096 * _), ← Nat.add_assoc]
      exact hstrays

section Steps

variable {page : UInt64}

theorem pinUpwards_of_refused {failure : PinFailure}
    (h : pinPage page writable table = ⟨.ok (.error failure), table, []⟩) (further : Nat) :
    pinUpwards page writable further table = ⟨.ok ([], some failure), table, []⟩ := by
  cases further <;> exact Act.bind_of_ok h

theorem pinUpwards_of_strayed {fault : Fault}
    (h : pinPage page writable table = ⟨.error fault, table, []⟩) (further : Nat) :
    pinUpwards page writable further table = ⟨.error fault, table, []⟩ := by
  cases further <;> exact Act.bind_of_error h

theorem pinUpwards_zero_of_taken {pinned : PinnedPage} {mid : RegionTable}
    (h : pinPage page writable table = ⟨.ok (.ok pinned), mid, []⟩) :
    pinUpwards page writable 0 table = ⟨.ok ([pinned], none), mid, []⟩ :=
  Act.bind_of_ok h

theorem pinUpwards_succ_of_taken {pinned : PinnedPage} {mid : RegionTable} {above : UInt64}
    (h : pinPage page writable table = ⟨.ok (.ok pinned), mid, []⟩)
    (habove : checkedAdd page Page.standardSize = .ok above) (further : Nat) :
    pinUpwards page writable (further + 1) table =
      (pinUpwards above writable further mid).map fun walk => (pinned :: walk.1, walk.2) := by
  have hcursor : (Act.ofExcept (checkedAdd page Page.standardSize) : Act Note RegionTable _) mid =
      ⟨.ok above, mid, []⟩ := congrArg (Outcome.mk · mid []) habove
  have hrest := Act.bind_pure_apply (pinUpwards above writable further)
    (fun walk => (pinned :: walk.1, walk.2)) mid
  rw [← hrest]
  exact (Act.bind_of_ok h).trans (congrArg (Outcome.after []) (Act.bind_of_ok hcursor))

/-- A walk is over at its first page, or takes it. -/
theorem walks_or_takes (table : RegionTable) (writable : Bool) (page : UInt64) (further : Nat) :
    Walks table writable page (further + 1) (pinUpwards page writable further table) ∨
      ∃ phys : UInt64, table.HasRoom ∧ mapped table.regions writable page.toNat = true ∧
        translate table.regions page.toNat = some phys.toNat ∧
        pinPage page writable table =
          ⟨.ok (.ok ⟨page, phys⟩), table.holding [⟨page, phys⟩], []⟩ := by
  have htakes := pinPage_takes table writable page
  generalize hpage : pinPage page writable table = o at htakes
  cases htakes with
  | refused hrefuses =>
    rw [pinUpwards_of_refused hpage]
    exact .inl (.refused hrefuses)
  | strayed hroom hmapped hstrays =>
    rw [pinUpwards_of_strayed hpage]
    refine .inl (.strayed (.nil ..) ?_ hstrays)
    rw [reach_succ hroom hmapped ⟨page, 0⟩]
    exact Nat.succ_pos _
  | taken hroom hmapped hphys => exact .inr ⟨_, hroom, hmapped, hphys, rfl⟩

end Steps

/-- A walk whose last page begins in the address space. -/
theorem pinUpwards_walks (table : RegionTable) (writable : Bool) {page : UInt64} {further : Nat}
    (hfits : page.toNat + further * 4096 < UInt64.size) :
    Walks table writable page (further + 1) (pinUpwards page writable further table) := by
  induction further generalizing page table with
  | zero =>
    obtain hover | ⟨phys, hroom, hmapped, hphys, hpage⟩ := walks_or_takes table writable page 0
    · exact hover
    rw [pinUpwards_zero_of_taken hpage]
    refine .ended (.cons hphys (.nil ..)) ?_
    rw [reach_succ hroom hmapped ⟨page, phys⟩]
    exact congrArg (· + 1) (capped_zero ..).symm
  | succ further ih =>
    obtain hover | ⟨phys, hroom, hmapped, hphys, hpage⟩ :=
      walks_or_takes table writable page (further + 1)
    · exact hover
    -- The walk above is one page shorter, over a table that holds one page more.
    have hstep : page.toNat + 4096 < UInt64.size := by omega
    have habove : (page + Page.standardSize).toNat = page.toNat + 4096 := toNat_add_of_lt hstep
    rw [pinUpwards_succ_of_taken hpage (checkedAdd_of_lt hstep)]
    exact .cons hroom hmapped hphys habove (ih _ (by omega))

/-! ## A pin call -/

/-- What a pin call of `count` pages from `first` on comes to: its answer or its fault, and the
table afterwards. -/
inductive Pinning (table : RegionTable) (writable : Bool) (first count : UInt64) :
    Except Fault (Except PinFailure (List PinnedPage)) → RegionTable → Prop
  | refused {failure : PinFailure} (hrefuses : Refuses table writable first failure) :
      Pinning table writable first count (.ok (.error failure)) table.asked
  | ended {pages : List PinnedPage} (hrow : Row table.regions first.toNat pages)
      (hpages : pages ≠ [])
      (hlength : pages.length = table.reach writable first.toNat count.toNat) :
      Pinning table writable first count (.ok (.ok pages)) (table.asked.holding pages)
  | strayed {pages : List PinnedPage} (hrow : Row table.regions first.toNat pages)
      (hlength : pages.length < table.reach writable first.toNat count.toNat)
      (hstrays : Strays table.regions (first.toNat + 4096 * pages.length)) :
      Pinning table writable first count (.error .overflow) (table.asked.holding pages)

/-- The limit and the regions do not depend on how often the table was asked. -/
theorem Refuses.of_asked {page : UInt64} {failure : PinFailure}
    (h : Refuses table.asked writable page failure) : Refuses table writable page failure := by
  cases h with
  | exhausted hlimit hheld => exact .exhausted hlimit hheld
  | unmapped hroom hnone => exact .unmapped hroom hnone
  | readOnly hroom hfind hwritable hreadOnly => exact .readOnly hroom hfind hwritable hreadOnly

variable {address length first last count : UInt64}

theorem pin_pinning (table : RegionTable) (writable : Bool) (hlength : length ≠ 0)
    (hfits : address.toNat + length.toNat < UInt64.size)
    (htouches : Touches address length first last count) :
    Pinning table writable first count (pin address length writable table).result
      (pin address length writable table).state := by
  obtain ⟨hresult, hstate⟩ := pin_eq_walk table writable hlength hfits htouches
  have hcount : count.toNat - 1 + 1 = count.toNat := by
    rw [htouches.count_eq]
    rfl
  have hlast : first.toNat + (count.toNat - 1) * 4096 < UInt64.size :=
    htouches.last_eq ▸ last.toNat_lt_size
  have hwalks := pinUpwards_walks table.asked writable hlast
  rw [hcount] at hwalks
  rw [hresult, hstate]
  generalize pinUpwards first writable (count.toNat - 1) table.asked = walk at hwalks
  cases hwalks with
  | refused hrefuses => exact .refused hrefuses.of_asked
  | @ended pinned rest stopped hrow hlength =>
    have hpages : pinned :: rest ≠ [] := List.cons_ne_nil _ _
    cases stopped <;> exact .ended hrow hpages hlength
  | strayed hrow hlength hstrays => exact .strayed hrow hlength hstrays

/-- It faults exactly if one of the pages that it would otherwise pin strays. -/
theorem Pinning.error_iff {result : Except Fault (Except PinFailure (List PinnedPage))}
    {table' : RegionTable} (h : Pinning table writable first count result table') :
    (∃ fault, result = .error fault) ↔
      ∃ i < table.reach writable first.toNat count.toNat,
        Strays table.regions (first.toNat + 4096 * i) := by
  cases h with
  | refused hrefuses => simp [hrefuses.reach_eq_zero]
  | ended hrow _ hlength =>
    simp only [reduceCtorEq, exists_false, false_iff, not_exists, not_and, ← hlength]
    exact fun i hi => hrow.not_strays hi
  | strayed _ hlength hstrays => exact ⟨fun _ => ⟨_, hlength, hstrays⟩, fun _ => ⟨_, rfl⟩⟩

/-! ## Faults of a pin call -/

variable {fault : Fault}

/-- Where every region ends inside the physical address space, no page strays. -/
theorem not_strays_of_below {regions : List Region} (hbelow : Below UInt64.size regions)
    (addr : Nat) : ¬Strays regions addr := by
  rintro ⟨image, himage, hout⟩
  obtain ⟨region, hfind, rfl⟩ := Option.map_eq_some_iff.1 himage
  have hend := (hbelow region (List.mem_of_find?_eq_some hfind)).2
  have hcovers := covers_of_find? hfind
  simp only [Region.covers, Bool.and_eq_true, decide_eq_true_eq] at hcovers
  omega

/-- A pin call faults at a page that strays, with the pages below it pinned. -/
theorem strays_of_pin (h : (pin address length writable table).result = .error fault) :
    fault = .overflow ∧ ∃ first last count pages, Touches address length first last count ∧
      Row table.regions first.toNat pages ∧
      pages.length < table.reach writable first.toNat count.toNat ∧
      Strays table.regions (first.toNat + 4096 * pages.length) ∧
      (pin address length writable table).state = table.asked.holding pages := by
  by_cases hlength : length = 0
  · simp [hlength, pin_of_empty] at h
  by_cases hfits : address.toNat + length.toNat < UInt64.size
  · obtain ⟨first, last, count, htouches⟩ := exists_touches hlength hfits
    have hpinning := pin_pinning table writable hlength hfits htouches
    rw [h] at hpinning
    generalize (pin address length writable table).state = table' at hpinning
    cases hpinning with
    | strayed hrow hlength hstrays =>
      exact ⟨rfl, _, _, _, _, htouches, hrow, hlength, hstrays, rfl⟩
  · simp [pin_of_outside (Nat.not_lt.1 hfits)] at h

/-- On addressable regions a pin call always answers. -/
theorem pin_ne_error (hbelow : Below UInt64.size table.regions) (address length : UInt64) :
    (pin address length writable table).result ≠ .error fault := by
  intro h
  obtain ⟨-, _, _, _, _, -, -, -, hstrays, -⟩ := strays_of_pin h
  exact not_strays_of_below hbelow _ hstrays

/-! ## The longest row -/

/-- A pin call gets as many pages of the range as are mapped in a row, within the limit. -/
theorem length_of_pin {table' : RegionTable} {extent : Extent}
    {answer : Except PinFailure (List PinnedPage)} {notes : List Note}
    (hspans : extent.Spans address.toNat length.toNat 4096)
    (h : pin address length writable table = ⟨.ok answer, table', notes⟩) :
    (answer.toOption.getD []).length =
      table.reach writable extent.firstPage.toNat extent.pages.toNat := by
  have hlength : length ≠ 0 := by
    rintro rfl
    exact absurd hspans.pos (Nat.lt_irrefl 0)
  obtain ⟨first, last, count, htouches⟩ := exists_touches hlength hspans.fits
  have hfirst : extent.firstPage.toNat = first.toNat := by
    rw [hspans.firstPage, htouches.first_eq]
  have hcount : extent.pages.toNat = count.toNat := by rw [hspans.pages, htouches.count_eq]
  have hpinning := pin_pinning table writable hlength hspans.fits htouches
  rw [hfirst, hcount]
  rw [h] at hpinning
  cases hpinning with
  | refused hrefuses => exact (hrefuses.reach_eq_zero _).symm
  | ended _ _ hlength => exact hlength

/-- The first `k` pages are mapped as they have to be, and the limit leaves room for them. -/
def Pinnable (table : RegionTable) (writable : Bool) (first k : Nat) : Prop :=
  (∀ i < k, mapped table.regions writable (first + 4096 * i) = true) ∧
    ∀ limit, table.limit = some limit → table.pinnedPages + k ≤ limit.toNat

/-- `k` is the largest positive number of the `n` pages that can be pinned, and 0 if there is
none. -/
structure Longest (table : RegionTable) (writable : Bool) (first n k : Nat) : Prop where
  le : k ≤ n
  pinnable : 0 < k → table.Pinnable writable first k
  maximal : ∀ j, k < j → j ≤ n → ¬table.Pinnable writable first j

theorem le_reach_iff {first n k : Nat} (hpos : 0 < k) :
    k ≤ table.reach writable first n ↔ k ≤ n ∧ table.Pinnable writable first k := by
  rw [reach, le_capped_iff _ _ hpos, le_leading_iff, and_assoc]
  rfl

theorem longest_reach (table : RegionTable) (writable : Bool) (first n : Nat) :
    table.Longest writable first n (table.reach writable first n) := by
  constructor
  case le => exact Nat.le_trans (capped_le ..) (leading_le ..)
  case pinnable => exact fun hpos => ((le_reach_iff hpos).1 (Nat.le_refl _)).2
  case maximal =>
    intro j hlt hle hpinnable
    exact Nat.not_le.2 hlt ((le_reach_iff (Nat.zero_lt_of_lt hlt)).2 ⟨hle, hpinnable⟩)

/-! ## The loop -/

/-- The walk as a loop: a cursor goes up page by page until it has come to the last one; a cursor
that leaves the word is a fault. -/
def pinThrough (last : UInt64) (writable : Bool) (cursor : UInt64) :
    Act Note RegionTable (List PinnedPage × Option PinFailure) := do
  match ← pinPage cursor writable with
  | .error failure => return ([], some failure)
  | .ok pinned =>
    if cursor = last then
      return ([pinned], none)
    else if _ : cursor.toNat + Page.standardSize.toNat < UInt64.size then do
      let (rest, stopped) ← pinThrough last writable (cursor + Page.standardSize)
      return (pinned :: rest, stopped)
    else
      Act.ofExcept (.error .overflow)
termination_by UInt64.size - cursor.toNat
decreasing_by
  rw [toNat_add_of_lt ‹_›]
  exact Nat.sub_lt_sub_left cursor.toNat_lt_size (Nat.lt_add_of_pos_right (by decide))

/-- The cursor comes to the last page, and never leaves the word. -/
theorem pinThrough_eq_pinUpwards {last cursor : UInt64} {further : Nat}
    (hlast : last.toNat = cursor.toNat + further * 4096) :
    pinThrough last writable cursor = pinUpwards cursor writable further := by
  have hbound := last.toNat_lt_size
  induction further generalizing cursor with
  | zero =>
    obtain rfl : cursor = last := UInt64.toNat_inj.1 (by omega)
    rw [pinThrough, pinUpwards]
    refine congrArg (pinPage cursor writable >>= ·) (funext fun found => ?_)
    cases found with
    | error failure => rfl
    | ok pinned => exact if_pos rfl
  | succ further ih =>
    have hne : cursor ≠ last := by
      rintro rfl
      omega
    have hstep : cursor.toNat + Page.standardSize.toNat < UInt64.size := by
      show cursor.toNat + 4096 < _
      omega
    have habove : (cursor + Page.standardSize).toNat = cursor.toNat + 4096 := toNat_add_of_lt hstep
    have hahead : last.toNat = (cursor + Page.standardSize).toNat + further * 4096 := by omega
    rw [pinThrough, pinUpwards]
    refine congrArg (pinPage cursor writable >>= ·) (funext fun found => ?_)
    cases found with
    | error failure => rfl
    | ok pinned =>
      simp only [if_neg hne, dif_pos hstep, checkedAdd_of_lt hstep, ih hahead]
      rfl

/-! ## Every pin call -/

/-- Pages that lie one above the other are different pages. -/
theorem Upwards.nodup {page : Nat} {pages : List PinnedPage} (h : Upwards page pages) :
    (PinnedPage.virts pages).Nodup := by
  rw [PinnedPage.virts, List.nodup_iff_getElem?_ne_getElem?]
  intro i j hij hj heq
  rw [List.length_map] at hj
  have hi := Nat.lt_trans hij hj
  have hvirt := h i pages[i] (List.getElem?_eq_getElem hi)
  have hvirt' := h j pages[j] (List.getElem?_eq_getElem hj)
  rw [List.getElem?_map, List.getElem?_map, List.getElem?_eq_getElem hi,
    List.getElem?_eq_getElem hj, Option.map_some, Option.map_some, Option.some.injEq] at heq
  have hsize : Page.standardSize.toNat = 4096 := rfl
  rw [heq, hvirt', hsize] at hvirt
  omega

theorem Row.count_holding {page : Nat} {pages : List PinnedPage} (table : RegionTable)
    (h : Row table.regions page pages) (q : UInt64) :
    (table.holding pages).held.count q =
      table.held.count q + if q ∈ PinnedPage.virts pages then 1 else 0 := by
  show (table.held.insertAll (PinnedPage.virts pages)).count q = _
  rw [PageBag.count_insertAll, h.upwards.nodup.count]

/-- An empty range gives no pages, and one that reaches the end of the address space overflows.  Any
other touches `count` pages from `first` to `last`, and `k` of them are the longest row from the
first one on that is mapped as it has to be and within the limit.  A call that answers pins exactly
these, each once and at the address that the regions map it to, and changes nothing else but the
count of calls; if there are none, it says why the first page was refused.  A call faults exactly if
the physical address of a page among them does not fit the word.  The loop of the call goes up to
the last page and no further. -/
theorem pin_longest (table : RegionTable) (address length : UInt64) (writable : Bool) :
    (length = 0 → pin address length writable table = ⟨.ok (.ok []), table.asked, []⟩) ∧
    (UInt64.size ≤ address.toNat + length.toNat →
      pin address length writable table = ⟨.ok (.error .overflow), table.asked, []⟩) ∧
    (length ≠ 0 → address.toNat + length.toNat < UInt64.size →
      ∃ first last count k, Touches address length first last count ∧
        table.Longest writable first.toNat count.toNat k ∧
        (∀ answer, (pin address length writable table).result = .ok answer →
          (k = 0 → (∃ failure, answer = .error failure ∧ Refuses table writable first failure) ∧
            (pin address length writable table).state = table.asked) ∧
          (1 ≤ k → ∃ pages, answer = .ok pages ∧ pages.length = k ∧
            Row table.regions first.toNat pages ∧
            (pin address length writable table).state = table.asked.holding pages ∧
            ∀ page, (pin address length writable table).state.held.count page =
              table.held.count page + if page ∈ PinnedPage.virts pages then 1 else 0)) ∧
        ((∃ fault, (pin address length writable table).result = .error fault) ↔
          ∃ i < k, Strays table.regions (first.toNat + 4096 * i)) ∧
        pinThrough last writable first = pinUpwards first writable (count.toNat - 1)) := by
  refine ⟨?_, pin_of_outside, fun hlength hfits => ?_⟩
  · rintro rfl
    exact pin_of_empty ..
  obtain ⟨first, last, count, htouches⟩ := exists_touches hlength hfits
  have hpinning := pin_pinning table writable hlength hfits htouches
  refine ⟨first, last, count, _, htouches, table.longest_reach .., fun answer hanswer => ?_,
    hpinning.error_iff, pinThrough_eq_pinUpwards htouches.last_eq⟩
  rw [hanswer] at hpinning
  generalize (pin address length writable table).state = table' at hpinning
  cases hpinning with
  | refused hrefuses =>
    rw [hrefuses.reach_eq_zero]
    exact ⟨fun _ => ⟨⟨_, rfl, hrefuses⟩, rfl⟩, nofun⟩
  | ended hrow hpages hlength =>
    rw [← hlength]
    exact ⟨fun hnone => absurd (List.length_eq_zero_iff.1 hnone) hpages,
      fun _ => ⟨_, rfl, rfl, hrow, rfl, hrow.count_holding table.asked⟩⟩

/-- Two pages that may be written to, and a third one above them that may not. -/
def splitTable : RegionTable :=
  { empty with
    regions := [Region.identity 0x10000 0x2000, ⟨0x12000, 0x80000, 0x1000, false⟩] }

/-- Of the three pages of a range that is to be written to, a pin call gets the first two. -/
theorem longest_of_splitTable :
    (pin 0x10800 0x2000 true splitTable).result =
        .ok (.ok [⟨0x10000, 0x10000⟩, ⟨0x11000, 0x11000⟩]) ∧
      splitTable.Longest true 0x10000 3 2 := by
  have hresult : (pin 0x10800 0x2000 true splitTable).result =
      .ok (.ok [⟨0x10000, 0x10000⟩, ⟨0x11000, 0x11000⟩]) := by decide +kernel
  obtain ⟨-, -, hinside⟩ := pin_longest splitTable 0x10800 0x2000 true
  obtain ⟨first, last, count, k, htouches, hlongest, hanswers, -⟩ :=
    hinside (by decide) (by decide)
  obtain ⟨hnone, hsome⟩ := hanswers _ hresult
  have hpos : 1 ≤ k := by
    by_contra hzero
    obtain ⟨⟨failure, hfailure, -⟩, -⟩ := hnone (by omega)
    exact nomatch hfailure
  obtain ⟨pages, hpages, hlength, -⟩ := hsome hpos
  have hk : k = 2 := by rw [← hlength, ← Except.ok.inj hpages]; rfl
  rw [hk, htouches.first_eq, htouches.count_eq] at hlongest
  exact ⟨hresult, hlongest⟩

end RegionTable

end DmaQueue
