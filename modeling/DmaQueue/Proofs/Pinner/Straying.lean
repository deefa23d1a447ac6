/-
  DmaQueue.Proofs.Pinner.Straying

  Regions whose physical memory does not fit the word.  A usable region ends
  inside the virtual address space, and nothing is asked of where it ends in the
  physical one.  So the sum that translates an address can leave the word, and a
  pin call that comes to such an address stops there, with the pages below it
  pinned and no answer.  As long as every region fits on the physical side too,
  every call answers, and otherwise some call does not (`straying_of_play`).
-/
import DmaQueue.Proofs.Pinner.Regions
import DmaQueue.Proofs.Pinner.Walk

namespace DmaQueue

/-! ## Translating an address -/

namespace Region

variable {r : Region}

/-- A usable region can translate every address exactly if its physical end fits the word. -/
theorem physOf_isOk_iff (h : r.Usable) :
    (∀ addr, (r.physOf addr).isOk = true) ↔ r.phys.toNat + r.size.toNat ≤ UInt64.size := by
  constructor
  · intro hall
    -- The last address of the region has the largest sum.
    have hone : (1 : UInt64).toNat ≤ r.size.toNat := h.size_pos
    have hfits := h.fits
    have hpred : (r.size - 1).toNat = r.size.toNat - 1 := Word.toNat_sub_of_le hone
    have hlast : (r.virt + (r.size - 1)).toNat = r.virt.toNat + (r.size.toNat - 1) := by
      rw [Word.toNat_add_of_lt (by omega), hpred]
    have hcovers : r.covers (r.virt + (r.size - 1)).toNat = true := by
      simp only [covers, hlast, Bool.and_eq_true, decide_eq_true_eq]
      have hpos := h.size_pos
      omega
    by_contra hout
    have hphys := physOf_of_covers_of_le hcovers (by omega)
    simpa [hphys, Except.isOk, Except.toBool] using hall (r.virt + (r.size - 1))
  · intro hend addr
    cases hcovers : r.covers addr.toNat with
    | false => rw [physOf_of_not_covers hcovers]; rfl
    | true =>
      have hbounds := hcovers
      simp only [covers, Bool.and_eq_true, decide_eq_true_eq] at hbounds
      obtain ⟨phys, hphys, -⟩ := physOf_of_covers hcovers (by omega)
      rw [hphys]
      rfl

/-- The last page of a usable region, asked for by its first byte. -/
theorem Usable.exists_last_page (h : r.Usable) :
    ∃ page : UInt64, page.toNat = r.virt.toNat + (r.size.toNat - 4096) ∧
      page.toNat % 4096 = 0 ∧ page.toNat + (1 : UInt64).toNat < UInt64.size ∧
      r.covers page.toNat = true := by
  have hvirt := h.virt_mod
  have hsize := h.size_mod
  have hpos := h.size_pos
  have hfits := h.fits
  have hone : (1 : UInt64).toNat = 1 := rfl
  have hle : Page.standardSize.toNat ≤ r.size.toNat := by
    show 4096 ≤ _
    omega
  have hrest : (r.size - Page.standardSize).toNat = r.size.toNat - 4096 :=
    Word.toNat_sub_of_le hle
  have hpage : (r.virt + (r.size - Page.standardSize)).toNat =
      r.virt.toNat + (r.size.toNat - 4096) := by
    rw [Word.toNat_add_of_lt (by omega), hrest]
  refine ⟨_, hpage, by omega, by omega, ?_⟩
  simp only [covers, hpage, Bool.and_eq_true, decide_eq_true_eq]
  omega

end Region

namespace RegionTable

open Region (translate)

variable {table : RegionTable} {regions : List Region} {region : Region} {log : List Exchange}

/-- Of regions that lie apart, the one that covers an address is the one that is found. -/
theorem Laid.find?_covers (h : Laid regions) (hmem : region ∈ regions) {addr : Nat}
    (hcovers : region.covers addr = true) :
    regions.find? (·.covers addr) = some region := by
  cases hfind : regions.find? (·.covers addr) with
  | none => exact absurd hcovers (List.find?_eq_none.1 hfind region hmem)
  | some found =>
    rw [Region.eq_of_covers h.apart (List.mem_of_find?_eq_some hfind) hmem (covers_of_find? hfind)
      hcovers]

/-! ## Pinning the last page of a region -/

/-- A region that does not fit on the physical side has a page that can be asked for and strays. -/
theorem pin_last_page (hlaid : Laid table.regions) (hroom : table.HasRoom)
    (hmem : region ∈ table.regions) (hout : UInt64.size < region.phys.toNat + region.size.toNat) :
    ∃ address fault, (pin address 1 false table).result = .error fault := by
  have husable := hlaid.usable region hmem
  have hphys := husable.phys_mod
  have hsize := husable.size_mod
  have hword : UInt64.size % 4096 = 0 := by decide
  obtain ⟨page, hpage, haligned, hinside, hcovers⟩ := husable.exists_last_page
  obtain ⟨first, last, count, htouches⟩ := exists_touches (by decide) hinside
  have hfirst : first.toNat = page.toNat := by
    rw [htouches.first_eq]
    omega
  have hfind := hlaid.find?_covers hmem hcovers
  have hpinnable : table.Pinnable false first.toNat 1 := by
    refine ⟨fun i hi => ?_, hroom⟩
    rw [Nat.lt_one_iff.1 hi, hfirst]
    exact congrArg (Option.any _) hfind
  -- Both ends are whole pages, so what does not fit is the whole last page.
  have hstrays : Strays table.regions (first.toNat + 4096 * 0) := by
    refine ⟨region.phys.toNat + (page.toNat - region.virt.toNat), ?_, by omega⟩
    rw [hfirst]
    exact congrArg (Option.map _) hfind
  have hcount : 1 ≤ count.toNat := by
    rw [htouches.count_eq]
    exact Nat.succ_pos _
  refine ⟨page, ((pin_pinning _ _ (by decide) hinside htouches).error_iff).2 ⟨0, ?_, hstrays⟩⟩
  exact (le_reach_iff Nat.one_pos).2 ⟨hcount, hpinnable⟩

/-! ## Tables after any history -/

/-- A usable region has no physical address for an address outside it.  For one inside, it has the
sum of its physical base and the distance if that fits the word, and overflows otherwise; every
address is fine exactly if the physical end of the region fits.  After any calls on a new table in
which none faulted, every region is usable.  A pin call then faults only with an overflow, at a page
that strays, and leaves the pages below it pinned.  If the physical end of every region fits, every
pin call answers; and as long as the limit leaves room, every pin call answers only then. -/
theorem straying_of_play {calls : List Call} (hplay : play calls empty = ⟨.ok (), table, log⟩) :
    (∀ region : Region, region.usable = true →
      (∀ addr, region.contains addr = false → region.physOf addr = .ok none) ∧
      (∀ addr, region.contains addr = true →
        (region.phys.toNat + (addr.toNat - region.virt.toNat) < UInt64.size →
          ∃ phys, region.physOf addr = .ok (some phys) ∧
            phys.toNat = region.phys.toNat + (addr.toNat - region.virt.toNat)) ∧
        (UInt64.size ≤ region.phys.toNat + (addr.toNat - region.virt.toNat) →
          region.physOf addr = .error .overflow)) ∧
      ((∀ addr, (region.physOf addr).isOk = true) ↔
        region.phys.toNat + region.size.toNat ≤ UInt64.size)) ∧
    (∀ region ∈ table.regions, region.usable = true) ∧
    (∀ address length writable fault,
      (pin address length writable table).result = .error fault →
        fault = .overflow ∧ ∃ first last count pages, Touches address length first last count ∧
          Row table.regions first.toNat pages ∧
          pages.length < table.reach writable first.toNat count.toNat ∧
          Strays table.regions (first.toNat + 4096 * pages.length) ∧
          (pin address length writable table).state = table.asked.holding pages) ∧
    ((∀ region ∈ table.regions, region.phys.toNat + region.size.toNat ≤ UInt64.size) →
      ∀ address length writable, ∃ answer,
        (pin address length writable table).result = .ok answer) ∧
    (table.HasRoom →
      (∀ address length writable, ∃ answer,
        (pin address length writable table).result = .ok answer) →
      ∀ region ∈ table.regions, region.phys.toNat + region.size.toNat ≤ UInt64.size) := by
  have hlaid := (charted_of_play hplay).laid
  refine ⟨fun region husable => ⟨fun addr hcontains => ?_, fun addr hcontains => ?_, ?_⟩,
    fun region hmem => Region.usable_iff.2 (hlaid.usable region hmem),
    fun _ _ _ _ h => strays_of_pin h, fun hends address length writable => ?_,
    fun hroom hanswers region hmem => ?_⟩
  · rw [Region.contains_eq_covers] at hcontains
    exact Region.physOf_of_not_covers hcontains
  · rw [Region.contains_eq_covers] at hcontains
    exact ⟨Region.physOf_of_covers hcontains, Region.physOf_of_covers_of_le hcontains⟩
  · exact Region.physOf_isOk_iff (Region.usable_iff.1 husable)
  · have hbelow : Below UInt64.size table.regions :=
      fun r hr => ⟨hlaid.usable r hr, hends r hr⟩
    cases hresult : (pin address length writable table).result with
    | ok answer => exact ⟨answer, rfl⟩
    | error fault => exact absurd hresult (pin_ne_error hbelow address length)
  · by_contra hout
    obtain ⟨address, fault, hfault⟩ := pin_last_page hlaid hroom hmem (Nat.not_le.1 hout)
    obtain ⟨answer, hanswer⟩ := hanswers address 1 false
    rw [hfault] at hanswer
    exact absurd hanswer nofun

/-- Two virtual pages on the last page of the physical address space. -/
def highRegion : Region :=
  { virt := 0, phys := 0xfffffffffffff000, size := 0x2000, writable := true }

/-- It is usable and taken into a new table, and its second page cannot be translated.  A pin call
for both pages stops at the second one and leaves the first one pinned. -/
theorem usable_and_straying :
    highRegion.usable = true ∧ highRegion.contains 0x1000 = true ∧
      highRegion.physOf 0x1000 = .error .overflow ∧
      (addRegion highRegion empty).result = .ok (.ok ()) ∧
      let outcome := pin 0 0x2000 false (addRegion highRegion empty).state
      outcome.result = .error .overflow ∧ outcome.state.held.count 0 = 1 := by
  decide +kernel

/-- A region that fits on both sides, and the one that does not. -/
def highCalls : List Call :=
  [ .addRegion (Region.identity 0x10000 0x4000),
    .addRegion highRegion,
    .pin 0x10000 0x3000 true,
    .pin 0 0x1000 false ]

/-- Every call of this history answers, but some further pin call does not. -/
theorem straying_of_highCalls :
    let table := (play highCalls empty).state
    (∀ region ∈ table.regions, region.usable = true) ∧
      ¬∀ address length writable, ∃ answer,
        (pin address length writable table).result = .ok answer := by
  have hplay : play highCalls empty =
      ⟨.ok (), (play highCalls empty).state, (play highCalls empty).events⟩ :=
    Outcome.eq_of_isOk (by decide +kernel)
  obtain ⟨-, husable, -, -, hends⟩ := straying_of_play hplay
  have hunlimited : (play highCalls empty).state.limit = none := by decide +kernel
  have hroom : (play highCalls empty).state.HasRoom := by
    intro limit hlimit
    exact absurd (hunlimited.symm.trans hlimit) nofun
  have hmem : highRegion ∈ (play highCalls empty).state.regions := by decide +kernel
  exact ⟨husable, fun hanswers => absurd (hends hroom hanswers highRegion hmem) (by decide)⟩

end RegionTable

end DmaQueue
