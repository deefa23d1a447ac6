/-
  DmaQueue.Proofs.Pinner.RegionTable

  What the calls on a region table do to it.  A pin call takes one reference on
  each page that it answers, and on no other (`pin_eq_ok`); a release gives one
  back (`unpin_eq`).  Neither touches the regions or the limit.
-/
import DmaQueue.Pinner.RegionTable
import DmaQueue.Proofs.Engine.Submission
import DmaQueue.Proofs.Page.Ascending
import DmaQueue.Proofs.Page.Granule

namespace DmaQueue

/-- The virtual addresses of pinned pages. -/
def PinnedPage.virts (pages : List PinnedPage) : List UInt64 :=
  pages.map (·.virt)

namespace RegionTable

variable {table table' : RegionTable} {writable : Bool}

/-! ## Pinning -/

/-- The regions map the pinned page as it says; if it is to be written to, its region allows
that. -/
def Maps (regions : List Region) (writable : Bool) (page : PinnedPage) : Prop :=
  ∃ region, regions.find? (·.contains page.virt) = some region ∧
    region.physOf page.virt = .ok (some page.phys) ∧
    (writable = true → region.writable = true)

/-- The table with one reference more on each of the pages. -/
def holding (table : RegionTable) (pages : List PinnedPage) : RegionTable :=
  { table with held := table.held.insertAll (PinnedPage.virts pages) }

theorem pinnedPages_holding (table : RegionTable) (pages : List PinnedPage) :
    (table.holding pages).pinnedPages = table.pinnedPages + pages.length := by
  show (table.held.insertAll (PinnedPage.virts pages)).size = _
  rw [PageBag.size_insertAll, PinnedPage.virts, List.length_map]
  rfl

/-- References may have been added as long as there were fewer than the limit, if there is one. -/
def Within (table table' : RegionTable) : Prop :=
  ∀ limit, table.limit = some limit → table'.pinnedPages ≤ max limit.toNat table.pinnedPages

theorem Within.refl (table : RegionTable) : table.Within table :=
  fun _ _ => Nat.le_max_right ..

theorem lt_of_exhausted? (h : table.exhausted? = none) {limit : UInt64}
    (hlimit : table.limit = some limit) : table.pinnedPages < limit.toNat := by
  unfold exhausted? at h
  rw [hlimit] at h
  simp only at h
  split at h
  · simp at h
  · omega

/-- Where one reference may be added, what is within the limit after it is so before it. -/
theorem Within.pinned {pinned : PinnedPage} (hroom : table.exhausted? = none)
    (h : (table.holding [pinned]).Within table') : table.Within table' := by
  intro limit hlimit
  have hlt := lt_of_exhausted? hroom hlimit
  have hrest := h limit hlimit
  rw [pinnedPages_holding, List.length_singleton] at hrest
  omega

theorem lookup_eq_ok {page : UInt64} {pinned : PinnedPage}
    (h : table.lookup page writable = .ok (.ok pinned)) :
    pinned.virt = page ∧ Maps table.regions writable pinned ∧ table.exhausted? = none := by
  unfold lookup at h
  cases hexhausted : table.exhausted? with
  | some failure => simp [hexhausted, pure, Except.pure] at h
  | none =>
    cases hfind : table.find? page with
    | none => simp [hexhausted, hfind, pure, Except.pure] at h
    | some region =>
      simp only [hexhausted, hfind] at h
      split at h
      · simp [pure, Except.pure] at h
      · rename_i hwritable
        cases hphys : region.physOf page with
        | error fault => simp [hphys, bind, Except.bind] at h
        | ok phys? =>
          cases phys? with
          | none => simp [hphys, bind, Except.bind, pure, Except.pure] at h
          | some phys =>
            simp only [hphys, bind, Except.bind, pure, Except.pure, Except.ok.injEq] at h
            subst h
            exact ⟨rfl, ⟨region, hfind, hphys, by simpa using hwritable⟩, rfl⟩

theorem pinPage_eq_ok {page : UInt64} {answer : Except PinFailure PinnedPage} {notes : List Note}
    (h : pinPage page writable table = ⟨.ok answer, table', notes⟩) :
    notes = [] ∧
      ((∃ failure, answer = .error failure ∧ table' = table) ∨
        ∃ pinned, answer = .ok pinned ∧ pinned.virt = page ∧
          Maps table.regions writable pinned ∧ table.exhausted? = none ∧
          table' = table.holding [pinned]) := by
  have h₁ := Act.get_bind_eq_ok_iff.1 h
  obtain ⟨found, t₁, _, _, hfound, h₂, rfl⟩ := Act.bind_eq_ok_iff.1 h₁
  obtain ⟨hlookup, rfl, rfl⟩ := Act.ofExcept_eq_ok_iff.1 hfound
  cases found with
  | error failure =>
    obtain ⟨rfl, rfl, rfl⟩ := Act.pure_eq_ok_iff.1 h₂
    exact ⟨rfl, .inl ⟨failure, rfl, rfl⟩⟩
  | ok pinned =>
    have hpure := Act.modify_bind_eq_ok_iff.1 h₂
    obtain ⟨rfl, rfl, rfl⟩ := Act.pure_eq_ok_iff.1 hpure
    obtain ⟨rfl, hmaps, hroom⟩ := lookup_eq_ok hlookup
    exact ⟨rfl, .inr ⟨pinned, rfl, rfl, hmaps, hroom, rfl⟩⟩

/-- The pages lie one above the other from the virtual address `page` on. -/
def Upwards (page : Nat) (pages : List PinnedPage) : Prop :=
  ∀ i pinned, pages[i]? = some pinned →
    pinned.virt.toNat = page + i * Page.standardSize.toNat

theorem Upwards.cons {page : Nat} {pinned : PinnedPage} {rest : List PinnedPage}
    (hvirt : pinned.virt.toNat = page) (h : Upwards (page + Page.standardSize.toNat) rest) :
    Upwards page (pinned :: rest) := by
  intro i other hother
  cases i with
  | zero =>
    simp only [List.getElem?_cons_zero, Option.some.injEq] at hother
    rw [← hother, hvirt, Nat.zero_mul, Nat.add_zero]
  | succ i =>
    rw [h i other (by simpa using hother), Nat.succ_mul]
    omega

theorem pinUpwards_eq_ok {page : UInt64} {further : Nat} {pages : List PinnedPage}
    {stopped : Option PinFailure} {notes : List Note}
    (h : pinUpwards page writable further table = ⟨.ok (pages, stopped), table', notes⟩) :
    notes = [] ∧ table' = table.holding pages ∧ Upwards page.toNat pages ∧
      (∀ pinned ∈ pages, Maps table.regions writable pinned) ∧ table.Within table' := by
  induction further generalizing page table pages stopped notes with
  | zero =>
    obtain ⟨answer, t₁, _, _, hpage, h₁, rfl⟩ := Act.bind_eq_ok_iff.1 h
    obtain ⟨rfl, ⟨failure, rfl, rfl⟩ | ⟨pinned, rfl, hvirt, hmaps, hroom, rfl⟩⟩ :=
      pinPage_eq_ok hpage
    · obtain ⟨hanswer, rfl, rfl⟩ := Act.pure_eq_ok_iff.1 h₁
      obtain ⟨rfl, rfl⟩ := Prod.mk.inj hanswer
      exact ⟨rfl, rfl, by simp [Upwards], by simp, .refl _⟩
    · obtain ⟨hanswer, rfl, rfl⟩ := Act.pure_eq_ok_iff.1 h₁
      obtain ⟨rfl, rfl⟩ := Prod.mk.inj hanswer
      exact ⟨rfl, rfl, .cons (by rw [hvirt]) (by simp [Upwards]), by simpa using hmaps,
        .pinned hroom (.refl _)⟩
  | succ further ih =>
    obtain ⟨answer, t₁, _, _, hpage, h₁, rfl⟩ := Act.bind_eq_ok_iff.1 h
    obtain ⟨rfl, ⟨failure, rfl, rfl⟩ | ⟨pinned, rfl, hvirt, hmaps, hroom, rfl⟩⟩ :=
      pinPage_eq_ok hpage
    · obtain ⟨hanswer, rfl, rfl⟩ := Act.pure_eq_ok_iff.1 h₁
      obtain ⟨rfl, rfl⟩ := Prod.mk.inj hanswer
      exact ⟨rfl, rfl, by simp [Upwards], by simp, .refl _⟩
    · obtain ⟨above, t₂, _, _, habove, h₂, rfl⟩ := Act.bind_eq_ok_iff.1 h₁
      obtain ⟨hsum, rfl, rfl⟩ := Act.ofExcept_eq_ok_iff.1 habove
      obtain ⟨⟨rest, later⟩, t₃, _, _, hrest, hpure, rfl⟩ := Act.bind_eq_ok_iff.1 h₂
      obtain ⟨hanswer, rfl, rfl⟩ := Act.pure_eq_ok_iff.1 hpure
      obtain ⟨rfl, rfl⟩ := Prod.mk.inj hanswer
      obtain ⟨rfl, rfl, hupwards, hrestMaps, hwithin⟩ := ih hrest
      rw [Word.checkedAdd_eq_ok_iff.1 hsum] at hupwards
      refine ⟨rfl, rfl, .cons (by rw [hvirt]) hupwards, ?_, .pinned hroom hwithin⟩
      intro other hother
      rcases List.mem_cons.1 hother with rfl | hother
      · exact hmaps
      · exact hrestMaps other hother

/-- The table after one more pin call. -/
def asked (table : RegionTable) : RegionTable :=
  { table with pinCalls := table.pinCalls + 1 }

/-- What a pin call answers after a walk up the pages: it is refused only if the walk stopped before
the first one. -/
def verdict : List PinnedPage → Option PinFailure → Except PinFailure (List PinnedPage)
  | [], some failure => .error failure
  | pages, _ => .ok pages

theorem pages_verdict (pages : List PinnedPage) (stopped : Option PinFailure) :
    (verdict pages stopped).toOption.getD [] = pages := by
  cases pages <;> cases stopped <;> rfl

/-- The pages that a range touches: the first one, the last one, and how many they are. -/
structure Touches (address length first last count : UInt64) : Prop where
  alignDown_first : Page.alignDown address Page.standardSize = .ok first
  alignDown_last : Page.alignDown (address + length - 1) Page.standardSize = .ok last
  touched : Page.touched address length Page.standardSize = .ok count
  first_eq : first.toNat = 4096 * (address.toNat / 4096)
  last_eq : last.toNat = first.toNat + (count.toNat - 1) * 4096
  count_eq : count.toNat = (address.toNat + length.toNat - 1) / 4096 - address.toNat / 4096 + 1

/-- A range that is not empty and does not reach the end of the address space touches pages that
begin in the address space. -/
theorem exists_touches {address length : UInt64} (hlength : length ≠ 0)
    (hfits : address.toNat + length.toNat < UInt64.size) :
    ∃ first last count, Touches address length first last count := by
  have hpower : Word.isPowerOfTwo Page.standardSize = true := by decide
  have hpos := Word.toNat_pos_of_ne_zero hlength
  obtain ⟨count, htouched, hcount⟩ := Page.touched_of_isPowerOfTwo hpower hpos (Nat.le_of_lt hfits)
  have hone : (1 : UInt64).toNat ≤ (address + length).toNat := by
    rw [Word.toNat_add_of_lt hfits]
    exact Nat.le_trans hpos (Nat.le_add_left ..)
  have hreach : (address + length - 1).toNat = address.toNat + length.toNat - 1 := by
    rw [Word.toNat_sub_of_le hone, Word.toNat_add_of_lt hfits]
    rfl
  have hfirst := Page.toNat_sub_mod address Page.standardSize
  have hlast := Page.toNat_sub_mod (address + length - 1) Page.standardSize
  rw [hreach] at hlast
  refine ⟨_, _, count, Page.alignDown_of_isPowerOfTwo hpower _,
    Page.alignDown_of_isPowerOfTwo hpower _, htouched, hfirst, ?_, hcount⟩
  rw [hfirst, hlast, hcount]
  show 4096 * ((address.toNat + length.toNat - 1) / 4096) =
    4096 * (address.toNat / 4096) +
      ((address.toNat + length.toNat - 1) / 4096 - address.toNat / 4096 + 1 - 1) * 4096
  omega

/-- A pin call of such a range walks up its pages and answers what the walk has found. -/
theorem pin_eq_walk (table : RegionTable) (writable : Bool)
    {address length first last count : UInt64} (hlength : length ≠ 0)
    (hfits : address.toNat + length.toNat < UInt64.size)
    (htouches : Touches address length first last count) :
    let walk := pinUpwards first writable (count.toNat - 1) table.asked
    (pin address length writable table).result =
        walk.result.map (fun found => verdict found.1 found.2) ∧
      (pin address length writable table).state = walk.state := by
  have hinside : ¬(Word.add? address length).isNone = true :=
    mt Word.isNone_add?_iff.1 (Nat.not_le.2 hfits)
  have hfirst : (Act.ofExcept (Page.alignDown address Page.standardSize) : Act Note RegionTable _)
      table.asked = ⟨.ok first, table.asked, []⟩ :=
    congrArg (Outcome.mk · table.asked []) htouches.alignDown_first
  have hcount : (Act.ofExcept (Page.touched address length Page.standardSize) :
      Act Note RegionTable _) table.asked = ⟨.ok count, table.asked, []⟩ :=
    congrArg (Outcome.mk · table.asked []) htouches.touched
  -- Counting the call, finding the first page and counting the pages cannot fault.
  have hcounted : (Act.modify fun t => { t with pinCalls := t.pinCalls + 1 } :
      Act Note RegionTable Unit) table = ⟨.ok (), table.asked, []⟩ := rfl
  intro walk
  unfold pin
  rw [if_neg hlength, if_neg hinside, Act.bind_of_ok hcounted, Act.bind_of_ok hfirst,
    Act.bind_of_ok hcount]
  cases hwalk : pinUpwards first writable (count.toNat - 1) table.asked with
  | mk result state events =>
    cases result with
    | error fault =>
      simp only [walk, Act.bind_of_error hwalk, hwalk]
      exact ⟨rfl, rfl⟩
    | ok found =>
      obtain ⟨pages, stopped⟩ := found
      simp only [walk, Act.bind_of_ok hwalk, hwalk]
      cases pages <;> cases stopped <;> exact ⟨rfl, rfl⟩

theorem pin_of_empty (address : UInt64) (writable : Bool) (table : RegionTable) :
    pin address 0 writable table = ⟨.ok (.ok []), table.asked, []⟩ := rfl

theorem pin_of_outside {address length : UInt64}
    (houtside : UInt64.size ≤ address.toNat + length.toNat) :
    pin address length writable table = ⟨.ok (.error .overflow), table.asked, []⟩ := by
  have hlength : length ≠ 0 := by
    rintro rfl
    exact Nat.not_le.2 address.toNat_lt_size houtside
  unfold pin
  rw [if_neg hlength, if_pos (Word.isNone_add?_iff.2 houtside)]
  rfl

/-- What a pin call that answers these pages has done. -/
structure Pinned (table : RegionTable) (address : UInt64) (writable : Bool)
    (pages : List PinnedPage) (table' : RegionTable) : Prop where
  table_eq : table' = { table.holding pages with pinCalls := table.pinCalls + 1 }
  upwards : Upwards (Page.standardSize.toNat * (address.toNat / Page.standardSize.toNat)) pages
  maps : ∀ pinned ∈ pages, Maps table.regions writable pinned
  within : table.Within table'

theorem pin_eq_ok {address length : UInt64} {answer : Except PinFailure (List PinnedPage)}
    {notes : List Note} (h : pin address length writable table = ⟨.ok answer, table', notes⟩) :
    Pinned table address writable (answer.toOption.getD []) table' := by
  -- A call that is refused at once has counted itself and done nothing else.
  have hnone : Pinned table address writable [] table.asked :=
    ⟨rfl, by simp [Upwards], by simp, .refl _⟩
  by_cases hlength : length = 0
  · rw [hlength, pin_of_empty] at h
    cases h
    exact hnone
  by_cases hfits : address.toNat + length.toNat < UInt64.size
  · obtain ⟨first, last, count, htouches⟩ := exists_touches hlength hfits
    obtain ⟨hresult, hstate⟩ := pin_eq_walk table writable hlength hfits htouches
    rw [h] at hresult hstate
    cases hwalk : pinUpwards first writable (count.toNat - 1) table.asked with
    | mk result state seen =>
      rw [hwalk] at hresult hstate
      obtain rfl : table' = state := hstate
      cases result with
      | error fault => simp [Except.map] at hresult
      | ok found =>
        simp only [Except.map, Except.ok.injEq] at hresult
        obtain ⟨-, rfl, hupwards, hmaps, hwithin⟩ := pinUpwards_eq_ok hwalk
        rw [htouches.first_eq] at hupwards
        rw [hresult, pages_verdict]
        exact ⟨rfl, hupwards, hmaps, hwithin⟩
  · rw [pin_of_outside (Nat.not_lt.1 hfits)] at h
    cases h
    exact hnone

/-! ## Releasing -/

/-- The table after the pages were released. -/
def released (table : RegionTable) (dirty : Bool) (pages : List PinnedPage) : RegionTable :=
  { table with
    held := table.held.eraseAll (PinnedPage.virts pages)
    dirty := if dirty then table.dirty.insertAll (PinnedPage.virts pages) else table.dirty
    unpinCalls := table.unpinCalls + pages.length }

theorem released_append (table : RegionTable) (dirty : Bool) (first second : List PinnedPage) :
    table.released dirty (first ++ second) =
      (table.released dirty first).released dirty second := by
  unfold released PinnedPage.virts
  rw [List.map_append, List.length_append, PageBag.eraseAll_append, PageSet.insertAll_append,
    Nat.add_assoc]
  cases dirty <;> rfl

/-- Releasing a page that is held takes one reference off it, and there is nothing to note. -/
theorem unpin_eq {page : PinnedPage} {d : Bool} (hheld : 0 < table.held.count page.virt) :
    unpin page d table = ⟨.ok (), table.released d [page], []⟩ := by
  refine Act.modify_bind_eq_ok_iff.2 (Act.get_bind_eq_ok_iff.2 ?_)
  have hcount : ¬ table.held.count page.virt = 0 := Nat.ne_of_gt hheld
  simp only [hcount, ↓reduceIte]
  cases d <;> rfl

/-- A release always answers.  Where nothing is held it changes only the count of calls. -/
theorem unpin_answers (page : PinnedPage) (dirty : Bool) (table : RegionTable) :
    ∃ table' notes, unpin page dirty table = ⟨.ok (), table', notes⟩ ∧
      (table.held.count page.virt = 0 ∧
          table' = { table with unpinCalls := table.unpinCalls + 1 } ∨
        0 < table.held.count page.virt ∧ table' = table.released dirty [page]) := by
  by_cases hheld : table.held.count page.virt = 0
  · refine ⟨_, [⟨.warn, s!"[PIN] unpin of page {Hex.marked page.virt.toNat} which is not pinned"⟩],
      ?_, .inl ⟨hheld, rfl⟩⟩
    refine Act.modify_bind_eq_ok_iff.2 (Act.get_bind_eq_ok_iff.2 ?_)
    simp only [hheld, ↓reduceIte]
    rfl
  · have hpos := Nat.pos_of_ne_zero hheld
    exact ⟨_, [], unpin_eq hpos, .inr ⟨hpos, rfl⟩⟩

/-- What a release has done. -/
theorem unpin_eq_ok {page : PinnedPage} {dirty : Bool} {notes : List Note}
    (h : unpin page dirty table = ⟨.ok (), table', notes⟩) :
    table.held.count page.virt = 0 ∧ table' = { table with unpinCalls := table.unpinCalls + 1 } ∨
      0 < table.held.count page.virt ∧ table' = table.released dirty [page] := by
  obtain ⟨_, _, hanswer, hcases⟩ := unpin_answers page dirty table
  rw [hanswer] at h
  simp only [Outcome.mk.injEq, true_and] at h
  rw [← h.1]
  exact hcases

/-- Releasing pages that are held, as often as they are released, takes the references off them. -/
theorem unpinAll_eq {pages : List PinnedPage} {d : Bool}
    (hheld : ∀ q, (PinnedPage.virts pages).count q ≤ table.held.count q) :
    ∃ events, Pinner.unpinAll d pages table = ⟨.ok (), table.released d pages, events⟩ := by
  induction pages generalizing table with
  | nil =>
    refine ⟨[], ?_⟩
    cases d <;> rfl
  | cons page rest ih =>
    have hhead : 0 < table.held.count page.virt := by
      have hpage := hheld page.virt
      rw [PinnedPage.virts, List.map_cons, List.count_cons_self] at hpage
      omega
    -- The first release takes one reference off its own page, and none off the others.
    have hrest : ∀ q, (PinnedPage.virts rest).count q ≤
        (table.released d [page]).held.count q := by
      intro q
      have hq := hheld q
      rw [PinnedPage.virts, List.map_cons, List.count_cons] at hq
      show _ ≤ (table.held.erase page.virt).count q
      rw [PageBag.count_erase]
      by_cases hpage : page.virt = q
      · simp only [hpage, beq_self_eq_true, if_true] at hq ⊢
        exact Nat.le_sub_of_add_le hq
      · simpa [hpage, PinnedPage.virts] using hq
    obtain ⟨events, hall⟩ := ih hrest
    have hnoted : Act.mapEvents Event.noted (Pinner.unpin page d) table =
        ⟨.ok (), table.released d [page], []⟩ :=
      Act.mapEvents_eq_ok_iff.2 ⟨[], unpin_eq hhead, rfl⟩
    rw [← List.singleton_append, released_append]
    exact ⟨_, Act.bind_ok (Act.bind_ok hnoted rfl) hall⟩

/-! ## Calls are counted -/

/-- The table after so many pin calls and so many releases: its regions and its limit are as they
were. -/
structure Called (table : RegionTable) (pins unpins : Nat) (table' : RegionTable) : Prop where
  regions : table'.regions = table.regions
  limit : table'.limit = table.limit
  pinCalls : table'.pinCalls = table.pinCalls + pins
  unpinCalls : table'.unpinCalls = table.unpinCalls + unpins

theorem Called.refl (table : RegionTable) : table.Called 0 0 table :=
  ⟨rfl, rfl, rfl, rfl⟩

theorem Called.trans {table'' : RegionTable} {pins unpins pins' unpins' : Nat}
    (h : table.Called pins unpins table') (h' : table'.Called pins' unpins' table'') :
    table.Called (pins + pins') (unpins + unpins') table'' := by
  constructor
  case regions => rw [h'.regions, h.regions]
  case limit => rw [h'.limit, h.limit]
  case pinCalls => rw [h'.pinCalls, h.pinCalls, Nat.add_assoc]
  case unpinCalls => rw [h'.unpinCalls, h.unpinCalls, Nat.add_assoc]

/-- The calls, the references and the dirty pages are all that can change. -/
theorem Called.unique {other : RegionTable} {pins unpins : Nat}
    (h : table.Called pins unpins table') (h' : table.Called pins unpins other)
    (hheld : table'.held = other.held) (hdirty : table'.dirty = other.dirty) : table' = other := by
  have hregions := h.regions.trans h'.regions.symm
  have hlimit := h.limit.trans h'.limit.symm
  have hpins := h.pinCalls.trans h'.pinCalls.symm
  have hunpins := h.unpinCalls.trans h'.unpinCalls.symm
  obtain ⟨_, _, _, _, _, _⟩ := table'
  obtain ⟨_, _, _, _, _, _⟩ := other
  rw [RegionTable.mk.injEq]
  exact ⟨hregions, hheld, hdirty, hlimit, hpins, hunpins⟩

theorem called_of_unpin {page : PinnedPage} {dirty : Bool} {notes : List Note}
    (h : unpin page dirty table = ⟨.ok (), table', notes⟩) : table.Called 0 1 table' := by
  rcases unpin_eq_ok h with ⟨-, rfl⟩ | ⟨-, rfl⟩
  · exact ⟨rfl, rfl, rfl, rfl⟩
  · exact ⟨rfl, rfl, rfl, rfl⟩

/-- Every release is counted, whether or not anything is held. -/
theorem called_of_unpinAll {pages : List PinnedPage} {d : Bool} {events : List Event}
    (h : Pinner.unpinAll d pages table = ⟨.ok (), table', events⟩) :
    table.Called 0 pages.length table' := by
  induction pages generalizing table events with
  | nil =>
    obtain ⟨-, rfl, -⟩ := Act.pure_eq_ok_iff.1 h
    exact .refl table
  | cons page rest ih =>
    obtain ⟨_, mid, _, _, hpage, hrest, -⟩ := Act.bind_eq_ok_iff.1 h
    obtain ⟨⟨_, hunpin⟩, -⟩ := Pinner.unpinPage_eq_ok hpage
    rw [List.length_cons, Nat.add_comm]
    exact (called_of_unpin hunpin).trans (ih hrest)

end RegionTable

/-! ## The pin calls of a submission -/

namespace Engine

variable {request : Request} {admitted : Admitted} {table table' table'' : RegionTable}
  {source dest : List PinnedPage} {events : List Event}

/-- Both calls leave a reference on each of the pages that they answer. -/
theorem PinsBoth.table_eq (h : PinsBoth request admitted table source dest table') :
    table' = { table.holding (source ++ dest) with pinCalls := table.pinCalls + 2 } := by
  obtain ⟨mid, ⟨_, _, hsource, rfl⟩, ⟨_, _, hdest, rfl⟩⟩ := h
  have hfirst := (RegionTable.pin_eq_ok hsource).table_eq
  have hsecond := (RegionTable.pin_eq_ok hdest).table_eq
  rw [hsecond, hfirst]
  simp only [RegionTable.holding, PinnedPage.virts, List.map_append, PageBag.insertAll_append]

theorem PinsBoth.called (h : PinsBoth request admitted table source dest table') :
    table.Called 2 0 table' := by
  rw [h.table_eq]
  exact ⟨rfl, rfl, rfl, rfl⟩

/-- Rolling the calls back restores the references; only the counts of calls have moved. -/
theorem PinsBoth.rollBack_eq (h : PinsBoth request admitted table source dest table')
    (hrelease : Pinner.unpinAll false (source ++ dest) table' = ⟨.ok (), table'', events⟩) :
    table'' = { table with
      pinCalls := table.pinCalls + 2
      unpinCalls := table.unpinCalls + (source.length + dest.length) } := by
  have hheld : ∀ q, (PinnedPage.virts (source ++ dest)).count q ≤ table'.held.count q := by
    intro q
    rw [h.table_eq]
    show _ ≤ (table.held.insertAll _).count q
    rw [PageBag.count_insertAll]
    omega
  obtain ⟨_, hreleased⟩ := RegionTable.unpinAll_eq (d := false) hheld
  rw [hreleased] at hrelease
  simp only [Outcome.mk.injEq, true_and] at hrelease
  rw [← hrelease.1, h.table_eq]
  simp only [RegionTable.released, RegionTable.holding, PageBag.eraseAll_insertAll,
    List.length_append, Bool.false_eq_true, ↓reduceIte]

end Engine

end DmaQueue
