/-
  DmaQueue.Proofs.Pinner.Leading

  Which pages can be pinned: those that are mapped as they have to be, from the
  first one up to the first that is not, as far as the limit on references leaves
  room (`reach`).  A single page is refused, or has no physical address in the
  word, or is taken (`pinPage_takes`).
-/
import DmaQueue.Proofs.Page.Extent
import DmaQueue.Proofs.Pinner.Mapping
import Mathlib.Data.List.TakeWhile

namespace DmaQueue

namespace RegionTable

variable {table table' : RegionTable} {writable : Bool}

/-! ## Pages in a row -/

/-- Whether a region maps the page, and may be written to if the page is to be. -/
def mapped (regions : List Region) (writable : Bool) (page : Nat) : Bool :=
  (regions.find? (·.covers page)).any fun region => !writable || region.writable

/-- How many of `n` pages are mapped, from the one at `first` up to the first one that is not. -/
def leading (regions : List Region) (writable : Bool) (first n : Nat) : Nat :=
  ((List.range' first n 4096).takeWhile (mapped regions writable)).length

theorem leading_succ (regions : List Region) (writable : Bool) (first n : Nat) :
    leading regions writable first (n + 1) =
      if mapped regions writable first then
        leading regions writable (first + 4096) n + 1
      else
        0 := by
  rw [leading, List.range'_succ, List.takeWhile_cons]
  split <;> rfl

theorem leading_le (regions : List Region) (writable : Bool) (first n : Nat) :
    leading regions writable first n ≤ n := by
  have hprefix := (List.takeWhile_prefix (mapped regions writable)
    (l := List.range' first n 4096)).length_le
  rwa [List.length_range'] at hprefix

theorem le_leading_iff {regions : List Region} {first n k : Nat} :
    k ≤ leading regions writable first n ↔
      k ≤ n ∧ ∀ i < k, mapped regions writable (first + 4096 * i) = true := by
  induction n generalizing first k with
  | zero =>
    rw [Nat.le_zero.1 (leading_le regions writable first 0)]
    exact ⟨fun h => ⟨h, fun i hi => by omega⟩, And.left⟩
  | succ n ih =>
    cases k with
    | zero => simp
    | succ k =>
      rw [leading_succ]
      split
      · rename_i hmapped
        rw [Nat.succ_le_succ_iff, Nat.succ_le_succ_iff, ih]
        refine and_congr_right fun _ => ⟨fun h i hi => ?_, fun h i hi => ?_⟩
        · cases i with
          | zero => exact hmapped
          | succ i =>
            have hpage : first + 4096 + 4096 * i = first + 4096 * (i + 1) := by omega
            exact hpage ▸ h i (Nat.lt_of_succ_lt_succ hi)
        · have hpage : first + 4096 * (i + 1) = first + 4096 + 4096 * i := by omega
          exact hpage ▸ h (i + 1) (Nat.succ_lt_succ hi)
      · rename_i hunmapped
        simp only [Nat.le_zero, Nat.add_eq_zero_iff, Nat.one_ne_zero, and_false, false_iff]
        exact fun h => hunmapped (h.2 0 (Nat.succ_pos k))

theorem leading_eq_iff {regions : List Region} {first n : Nat} :
    leading regions writable first n = n ↔
      ∀ i < n, mapped regions writable (first + 4096 * i) = true := by
  rw [Nat.eq_iff_le_and_ge, le_leading_iff]
  simp only [leading_le, Nat.le_refl, true_and]

/-! ## Room under the limit -/

/-- The limit leaves room for one more reference. -/
def HasRoom (table : RegionTable) : Prop :=
  ∀ limit, table.limit = some limit → table.pinnedPages < limit.toNat

theorem exhausted?_cases (table : RegionTable) :
    (∃ limit, table.limit = some limit ∧ limit.toNat ≤ table.pinnedPages ∧
        table.exhausted? = some (.limitReached limit)) ∨
      table.HasRoom ∧ table.exhausted? = none := by
  unfold exhausted? HasRoom
  cases table.limit with
  | none => exact .inr ⟨nofun, rfl⟩
  | some limit =>
    by_cases hheld : limit.toNat ≤ table.pinnedPages
    · exact .inl ⟨limit, rfl, hheld, if_pos hheld⟩
    · refine .inr ⟨fun other hother => ?_, if_neg hheld⟩
      rw [← Option.some.inj hother]
      exact Nat.lt_of_not_le hheld

/-- How many of `n` references the limit leaves room for where `held` are held already. -/
def capped (limit : Option UInt64) (held n : Nat) : Nat :=
  match limit with
  | none => n
  | some limit => min n (limit.toNat - held)

theorem capped_le (limit : Option UInt64) (held n : Nat) : capped limit held n ≤ n := by
  cases limit with
  | none => exact Nat.le_refl n
  | some limit => exact Nat.min_le_left ..

theorem capped_zero (limit : Option UInt64) (held : Nat) : capped limit held 0 = 0 :=
  Nat.le_zero.1 (capped_le ..)

theorem capped_eq_iff (limit : Option UInt64) (held : Nat) {n k : Nat} (hpos : 0 < n)
    (hle : k ≤ n) :
    capped limit held k = n ↔ k = n ∧ ∀ l, limit = some l → held + n ≤ l.toNat := by
  cases limit with
  | none => simp [capped]
  | some limit =>
    simp only [capped, Option.some.injEq, forall_eq']
    omega

theorem capped_of_le {limit : UInt64} (hlimit : table.limit = some limit)
    (hheld : limit.toNat ≤ table.pinnedPages) (n : Nat) :
    capped table.limit table.pinnedPages n = 0 := by
  rw [hlimit, capped]
  omega

theorem capped_succ (hroom : table.HasRoom) (n : Nat) :
    capped table.limit table.pinnedPages (n + 1) =
      capped table.limit (table.pinnedPages + 1) n + 1 := by
  cases hlimit : table.limit with
  | none => rfl
  | some limit =>
    have hlt := hroom limit hlimit
    simp only [capped]
    omega

theorem le_capped_iff (limit : Option UInt64) (held : Nat) {n k : Nat} (hpos : 0 < k) :
    k ≤ capped limit held n ↔ k ≤ n ∧ ∀ l, limit = some l → held + k ≤ l.toNat := by
  cases limit with
  | none => simp [capped]
  | some limit =>
    simp only [capped, Option.some.injEq, forall_eq']
    omega

/-- How many pages a walk of `n` pages gets from this one on. -/
def reach (table : RegionTable) (writable : Bool) (page n : Nat) : Nat :=
  capped table.limit table.pinnedPages (leading table.regions writable page n)

theorem reach_succ {page : Nat} (hroom : table.HasRoom)
    (hmapped : mapped table.regions writable page = true) (pinned : PinnedPage) (n : Nat) :
    table.reach writable page (n + 1) =
      (table.holding [pinned]).reach writable (page + 4096) n + 1 := by
  rw [reach, leading_succ, hmapped, if_pos rfl, capped_succ hroom, reach, pinnedPages_holding]
  rfl

/-! ## One page -/

open Region (translate)

/-- Why no reference is taken on a page: the limit is looked at first, then whether a region maps
the page, then whether it may be written to. -/
inductive Refuses (table : RegionTable) (writable : Bool) (page : UInt64) : PinFailure → Prop
  | exhausted {limit : UInt64} (hlimit : table.limit = some limit)
      (hheld : limit.toNat ≤ table.pinnedPages) :
      Refuses table writable page (.limitReached limit)
  | unmapped (hroom : table.HasRoom) (hnone : table.find? page = none) :
      Refuses table writable page (.unmapped page)
  | readOnly {region : Region} (hroom : table.HasRoom) (hfind : table.find? page = some region)
      (hwritable : writable = true) (hreadOnly : region.writable = false) :
      Refuses table writable page (.readOnly page)

/-- The regions map the address to one that does not fit the word. -/
def Strays (regions : List Region) (addr : Nat) : Prop :=
  ∃ image, translate regions addr = some image ∧ UInt64.size ≤ image

/-- What comes of a reference that is to be taken on a page. -/
inductive Takes (table : RegionTable) (writable : Bool) (page : UInt64) :
    Outcome Note RegionTable (Except PinFailure PinnedPage) → Prop
  | refused {failure : PinFailure} (hrefuses : Refuses table writable page failure) :
      Takes table writable page ⟨.ok (.error failure), table, []⟩
  | strayed (hroom : table.HasRoom) (hmapped : mapped table.regions writable page.toNat = true)
      (hstrays : Strays table.regions page.toNat) :
      Takes table writable page ⟨.error .overflow, table, []⟩
  | taken {phys : UInt64} (hroom : table.HasRoom)
      (hmapped : mapped table.regions writable page.toNat = true)
      (hphys : translate table.regions page.toNat = some phys.toNat) :
      Takes table writable page ⟨.ok (.ok ⟨page, phys⟩), table.holding [⟨page, phys⟩], []⟩

section Page

variable {page : UInt64}

/-- A page that is refused ends the walk. -/
theorem Refuses.reach_eq_zero {failure : PinFailure} (h : Refuses table writable page failure)
    (n : Nat) : table.reach writable page.toNat n = 0 := by
  have hzero (hunmapped : mapped table.regions writable page.toNat = false) :
      table.reach writable page.toNat n = 0 := by
    cases n with
    | zero => exact capped_zero ..
    | succ n =>
      rw [reach, leading_succ, hunmapped]
      exact capped_zero ..
  cases h with
  | exhausted hlimit hheld => exact capped_of_le hlimit hheld _
  | unmapped _ hnone =>
    rw [find?, find?_contains] at hnone
    exact hzero (by rw [mapped, hnone, Option.any_none])
  | readOnly _ hfind hwritable hreadOnly =>
    rw [find?, find?_contains] at hfind
    exact hzero (by rw [mapped, hfind, Option.any_some, hwritable, hreadOnly]; rfl)

theorem pinPage_of_lookup_fault {fault : Fault} (h : table.lookup page writable = .error fault) :
    pinPage page writable table = ⟨.error fault, table, []⟩ :=
  Act.bind_of_error (m := Act.ofExcept _) (congrArg (Outcome.mk · table []) h)

theorem pinPage_of_lookup_error {failure : PinFailure}
    (h : table.lookup page writable = .ok (.error failure)) :
    pinPage page writable table = ⟨.ok (.error failure), table, []⟩ :=
  Act.bind_of_ok (m := Act.ofExcept _) (congrArg (Outcome.mk · table []) h)

theorem pinPage_of_lookup_ok {phys : UInt64}
    (h : table.lookup page writable = .ok (.ok ⟨page, phys⟩)) :
    pinPage page writable table = ⟨.ok (.ok ⟨page, phys⟩), table.holding [⟨page, phys⟩], []⟩ :=
  Act.bind_of_ok (m := Act.ofExcept _) (congrArg (Outcome.mk · table []) h)

/-- One page, taken apart into everything that can happen. -/
theorem pinPage_takes (table : RegionTable) (writable : Bool) (page : UInt64) :
    Takes table writable page (pinPage page writable table) := by
  rcases exhausted?_cases table with ⟨limit, hlimit, hheld, hexhausted⟩ | ⟨hroom, hexhausted⟩
  · have hlookup : table.lookup page writable = .ok (.error (.limitReached limit)) := by
      simp only [lookup, hexhausted]
      rfl
    rw [pinPage_of_lookup_error hlookup]
    exact .refused (.exhausted hlimit hheld)
  cases hfind : table.find? page with
  | none =>
    have hlookup : table.lookup page writable = .ok (.error (.unmapped page)) := by
      simp only [lookup, hexhausted, hfind]
      rfl
    rw [pinPage_of_lookup_error hlookup]
    exact .refused (.unmapped hroom hfind)
  | some region =>
    have hcovers := hfind
    rw [find?, find?_contains] at hcovers
    cases hreadOnly : writable && !region.writable with
    | true =>
      have hlookup : table.lookup page writable = .ok (.error (.readOnly page)) := by
        simp only [lookup, hexhausted, hfind, hreadOnly, ↓reduceIte]
        rfl
      simp only [Bool.and_eq_true, Bool.not_eq_true'] at hreadOnly
      rw [pinPage_of_lookup_error hlookup]
      exact .refused (.readOnly hroom hfind hreadOnly.1 hreadOnly.2)
    | false =>
      have hmapped : mapped table.regions writable page.toNat = true := by
        rw [mapped, hcovers, Option.any_some, ← Bool.not_eq_false', Bool.not_or, Bool.not_not]
        exact hreadOnly
      have himage : translate table.regions page.toNat =
          some (region.phys.toNat + (page.toNat - region.virt.toNat)) := by
        rw [Region.translate, hcovers]
        rfl
      -- The page lies in the region; what is left to chance is the sum of base and distance.
      by_cases hfits : region.phys.toNat + (page.toNat - region.virt.toNat) < UInt64.size
      · obtain ⟨phys, hphys, hsum⟩ := Region.physOf_of_covers (covers_of_find? hcovers) hfits
        have hlookup : table.lookup page writable = .ok (.ok ⟨page, phys⟩) := by
          simp only [lookup, hexhausted, hfind, hreadOnly, Bool.false_eq_true, ↓reduceIte, hphys]
          rfl
        rw [pinPage_of_lookup_ok hlookup]
        exact .taken hroom hmapped (hsum ▸ himage)
      · have hphys := Region.physOf_of_covers_of_le (covers_of_find? hcovers) (Nat.not_lt.1 hfits)
        have hlookup : table.lookup page writable = .error .overflow := by
          simp only [lookup, hexhausted, hfind, hreadOnly, Bool.false_eq_true, ↓reduceIte, hphys]
          rfl
        rw [pinPage_of_lookup_fault hlookup]
        exact .strayed hroom hmapped ⟨_, himage, Nat.not_lt.1 hfits⟩

end Page

end RegionTable

end DmaQueue
