/-
  DmaQueue.Proofs.Pinner.Mapping

  A region table as a map from virtual to physical addresses.  Every region of a
  table is usable, so a pinned page is translated as one piece.
-/
import DmaQueue.Proofs.Page.Region
import DmaQueue.Proofs.Pinner.RegionTable

namespace DmaQueue

namespace RegionTable

open Region (translate)

variable {table table' : RegionTable} {writable : Bool}

/-! ## Building a table -/

/-- A region that is refused leaves the table alone; one that is taken comes last. -/
theorem addRegion_answers {region : Region} {answer : Except PinFailure Unit} {notes : List Note}
    (h : addRegion region table = ⟨.ok answer, table', notes⟩) :
    (∃ failure, answer = .error failure ∧ table' = table) ∨
      answer = .ok () ∧ region.Usable ∧
        table' = { table with regions := table.regions ++ [region] } := by
  have h₁ := Act.get_bind_eq_ok_iff.1 h
  split at h₁
  · obtain ⟨rfl, rfl, -⟩ := Act.pure_eq_ok_iff.1 h₁
    exact .inl ⟨_, rfl, rfl⟩
  rename_i husable
  obtain ⟨overlaps, t₁, _, _, hoverlaps, h₂, rfl⟩ := Act.bind_eq_ok_iff.1 h₁
  obtain ⟨-, rfl, rfl⟩ := Act.ofExcept_eq_ok_iff.1 hoverlaps
  split at h₂
  · obtain ⟨rfl, rfl, -⟩ := Act.pure_eq_ok_iff.1 h₂
    exact .inl ⟨_, rfl, rfl⟩
  split at h₂
  · obtain ⟨rfl, rfl, -⟩ := Act.pure_eq_ok_iff.1 h₂
    exact .inl ⟨_, rfl, rfl⟩
  have hpure := Act.modify_bind_eq_ok_iff.1 h₂
  obtain ⟨rfl, rfl, -⟩ := Act.pure_eq_ok_iff.1 hpure
  exact .inr ⟨rfl, Region.usable_iff.1 (by simpa using husable), rfl⟩

theorem addRegion_eq_ok {region : Region} {notes : List Note}
    (h : addRegion region table = ⟨.ok (.ok ()), table', notes⟩) :
    region.Usable ∧ table'.regions = table.regions ++ [region] := by
  rcases addRegion_answers h with ⟨_, hrefused, -⟩ | ⟨-, husable, rfl⟩
  · simp at hrefused
  · exact ⟨husable, rfl⟩

/-- A table takes only usable regions. -/
theorem addRegions_eq_ok {regions : List Region} {notes : List Note}
    (h : addRegions regions table = ⟨.ok (.ok ()), table', notes⟩) :
    (∀ r ∈ regions, r.Usable) ∧ table'.regions = table.regions ++ regions := by
  induction regions generalizing table notes with
  | nil =>
    obtain ⟨-, rfl, -⟩ := Act.pure_eq_ok_iff.1 h
    exact ⟨by simp, (List.append_nil _).symm⟩
  | cons region rest ih =>
    obtain ⟨answer, t₁, _, _, hadd, h₁, -⟩ := Act.bind_eq_ok_iff.1 h
    cases answer with
    | error failure => simpa using (Act.pure_eq_ok_iff.1 h₁).1
    | ok =>
      obtain ⟨husable, hregion⟩ := addRegion_eq_ok hadd
      obtain ⟨hrest, hregions⟩ := ih h₁
      refine ⟨?_, ?_⟩
      · intro r hr
        rcases List.mem_cons.1 hr with rfl | hr
        · exact husable
        · exact hrest r hr
      · rw [hregions, hregion, List.append_assoc]
        rfl

/-! ## Translating pinned pages -/

/-- Every region is usable and ends below the physical address `top`. -/
def Below (top : Nat) (regions : List Region) : Prop :=
  ∀ r ∈ regions, r.Usable ∧ r.phys.toNat + r.size.toNat ≤ top

theorem Below.mono {low high : Nat} {regions : List Region} (h : Below low regions)
    (hle : low ≤ high) : Below high regions :=
  fun r hr => ⟨(h r hr).1, Nat.le_trans (h r hr).2 hle⟩

theorem find?_congr {p q : Region → Bool} {regions : List Region}
    (h : ∀ r ∈ regions, p r = q r) : regions.find? p = regions.find? q := by
  induction regions with
  | nil => rfl
  | cons r rest ih =>
    rw [List.find?_cons, List.find?_cons, h r (List.mem_cons_self ..),
      ih fun r hr => h r (List.mem_cons_of_mem _ hr)]

theorem find?_contains (regions : List Region) (addr : UInt64) :
    regions.find? (·.contains addr) = regions.find? (·.covers addr.toNat) :=
  congrArg regions.find? (funext fun r => Region.contains_eq_covers r addr)

theorem covers_of_find? {regions : List Region} {addr : Nat} {region : Region}
    (h : regions.find? (·.covers addr) = some region) : region.covers addr = true :=
  List.find?_some (p := fun r : Region => r.covers addr) h

/-- The regions map a virtual page to one physical page. -/
theorem Maps.eq_of_virt {regions : List Region} {writable' : Bool} {page page' : PinnedPage}
    (h : Maps regions writable page) (h' : Maps regions writable' page')
    (hvirt : page.virt = page'.virt) : page = page' := by
  obtain ⟨virt, phys⟩ := page
  obtain ⟨virt', phys'⟩ := page'
  obtain ⟨region, hfind, hphys, -⟩ := h
  obtain ⟨region', hfind', hphys', -⟩ := h'
  obtain rfl : virt = virt' := hvirt
  rw [hfind, Option.some.injEq] at hfind'
  subst hfind'
  rw [hphys] at hphys'
  simpa using hphys'

/-- A pinned page begins on a physical page boundary. -/
theorem Maps.phys_mod {regions : List Region} {page : PinnedPage} (h : Maps regions writable page)
    (husable : ∀ r ∈ regions, r.Usable) (hpage : page.virt.toNat % 4096 = 0) :
    page.phys.toNat % 4096 = 0 := by
  obtain ⟨region, hfind, hphys, -⟩ := h
  obtain ⟨hcovers, hsum⟩ := Region.physOf_eq_ok hphys
  have hregion := husable region (List.mem_of_find?_eq_some hfind)
  have hvirt := hregion.virt_mod
  have hphysMod := hregion.phys_mod
  simp only [Region.covers, Bool.and_eq_true, decide_eq_true_eq] at hcovers
  omega

/-- A pinned page lies below the top, and is translated as one piece. -/
theorem Maps.translate {top : Nat} {regions : List Region} {page : PinnedPage}
    (h : Maps regions writable page) (hbelow : Below top regions)
    (hpage : page.virt.toNat % 4096 = 0) :
    page.phys.toNat + 4096 ≤ top ∧
      ∀ k < 4096, translate regions (page.virt.toNat + k) = some (page.phys.toNat + k) := by
  obtain ⟨region, hfind, hphys, -⟩ := h
  rw [find?_contains] at hfind
  obtain ⟨husable, hend⟩ := hbelow region (List.mem_of_find?_eq_some hfind)
  obtain ⟨hcovers, hsum⟩ := Region.physOf_eq_ok hphys
  simp only [Region.covers, Bool.and_eq_true, decide_eq_true_eq] at hcovers
  have hvirt := husable.virt_mod
  have hsize := husable.size_mod
  refine ⟨by omega, fun k hk => ?_⟩
  -- Whether a region covers an address depends on its page only, so the same region is found.
  have hpiece : regions.find? (·.covers (page.virt.toNat + k)) = some region := by
    rw [← hfind]
    exact find?_congr fun r hr => (hbelow r hr).1.covers_add hpage hk
  rw [Region.translate, hpiece, hsum]
  simp only [Option.map_some, Option.some.injEq]
  omega

end RegionTable

end DmaQueue
