/-
  DmaQueue.Page.Ascending

  Collections of page addresses kept in ascending order, so that two of them
  with the same contents are the same value.  A `PageBag` counts how often a
  page is in it; a `PageSet` holds a page once.
-/

namespace DmaQueue

/-! ## Bags -/

namespace Ascending

/-- Puts `page` before the first page that is not below it. -/
def insert (page : UInt64) : List UInt64 → List UInt64
  | [] => [page]
  | p :: rest => if page ≤ p then page :: p :: rest else p :: insert page rest

theorem insert_perm (page : UInt64) (pages : List UInt64) :
    (insert page pages).Perm (page :: pages) := by
  induction pages with
  | nil => exact List.Perm.refl _
  | cons p rest ih =>
    simp only [insert]
    split
    · exact List.Perm.refl _
    · exact (ih.cons p).trans (List.Perm.swap page p rest)

theorem mem_insert {x page : UInt64} {pages : List UInt64} :
    x ∈ insert page pages ↔ x = page ∨ x ∈ pages := by
  rw [(insert_perm page pages).mem_iff, List.mem_cons]

theorem insert_pairwise_le {page : UInt64} {pages : List UInt64}
    (h : pages.Pairwise (· ≤ ·)) : (insert page pages).Pairwise (· ≤ ·) := by
  induction pages with
  | nil => exact List.pairwise_singleton _ _
  | cons p rest ih =>
    obtain ⟨hp, hrest⟩ := List.pairwise_cons.1 h
    simp only [insert]
    split
    · rename_i hle
      refine List.pairwise_cons.2 ⟨fun q hq => ?_, h⟩
      rcases List.mem_cons.1 hq with rfl | hq
      · exact hle
      · exact UInt64.le_trans hle (hp q hq)
    · rename_i hle
      refine List.pairwise_cons.2 ⟨fun q hq => ?_, ih hrest⟩
      rcases mem_insert.1 hq with rfl | hq
      · exact UInt64.le_of_lt (UInt64.not_le.1 hle)
      · exact hp q hq

theorem insert_pairwise_lt {page : UInt64} {pages : List UInt64}
    (h : pages.Pairwise (· < ·)) (hnew : page ∉ pages) :
    (insert page pages).Pairwise (· < ·) := by
  induction pages with
  | nil => exact List.pairwise_singleton _ _
  | cons p rest ih =>
    obtain ⟨hp, hrest⟩ := List.pairwise_cons.1 h
    rw [List.mem_cons, not_or] at hnew
    simp only [insert]
    split
    · rename_i hle
      -- The page is new, so the comparison is strict.
      have hlt : page < p := UInt64.lt_of_le_of_ne hle hnew.1
      refine List.pairwise_cons.2 ⟨fun q hq => ?_, h⟩
      rcases List.mem_cons.1 hq with rfl | hq
      · exact hlt
      · exact UInt64.lt_trans hlt (hp q hq)
    · rename_i hle
      refine List.pairwise_cons.2 ⟨fun q hq => ?_, ih hrest hnew.2⟩
      rcases mem_insert.1 hq with rfl | hq
      · exact UInt64.not_le.1 hle
      · exact hp q hq

end Ascending

/-- Page addresses in ascending order, each as often as it was put in. -/
structure PageBag where
  /-- The addresses. -/
  pages : List UInt64
  /-- The addresses ascend. -/
  ascending : pages.Pairwise (· ≤ ·)
  deriving DecidableEq, Repr

namespace PageBag

/-- The bag with nothing in it. -/
def empty : PageBag := ⟨[], .nil⟩

/-- How often `page` is in the bag. -/
def count (bag : PageBag) (page : UInt64) : Nat := bag.pages.count page

/-- How many pages are in the bag, each counted as often as it is in it. -/
def size (bag : PageBag) : Nat := bag.pages.length

/-- The bag with `page` once more in it. -/
def insert (bag : PageBag) (page : UInt64) : PageBag :=
  ⟨Ascending.insert page bag.pages, Ascending.insert_pairwise_le bag.ascending⟩

/-- The bag with `page` once less in it. -/
def erase (bag : PageBag) (page : UInt64) : PageBag :=
  ⟨bag.pages.erase page, bag.ascending.sublist List.erase_sublist⟩

theorem count_empty (page : UInt64) : empty.count page = 0 := rfl

theorem count_insert (bag : PageBag) (page q : UInt64) :
    (bag.insert page).count q = bag.count q + if page = q then 1 else 0 := by
  unfold count insert
  rw [(Ascending.insert_perm page bag.pages).count_eq, List.count_cons]
  simp

theorem count_erase (bag : PageBag) (page q : UInt64) :
    (bag.erase page).count q = bag.count q - if page = q then 1 else 0 := by
  unfold count erase
  rw [List.count_erase]
  simp

theorem size_insert (bag : PageBag) (page : UInt64) :
    (bag.insert page).size = bag.size + 1 := by
  unfold size insert
  rw [(Ascending.insert_perm page bag.pages).length_eq, List.length_cons]

end PageBag

/-! ## Sets -/

/-- Page addresses in ascending order, each at most once. -/
structure PageSet where
  /-- The addresses. -/
  pages : List UInt64
  /-- The addresses ascend, and none repeats. -/
  ascending : pages.Pairwise (· < ·)
  deriving DecidableEq, Repr

namespace PageSet

/-- The set with nothing in it. -/
def empty : PageSet := ⟨[], .nil⟩

/-- Whether `page` is in the set. -/
def contains (set : PageSet) (page : UInt64) : Bool := set.pages.contains page

/-- The set together with `page`. -/
def insert (set : PageSet) (page : UInt64) : PageSet :=
  if h : page ∈ set.pages then
    set
  else
    ⟨Ascending.insert page set.pages, Ascending.insert_pairwise_lt set.ascending h⟩

theorem mem_insert {set : PageSet} {page q : UInt64} :
    q ∈ (set.insert page).pages ↔ q = page ∨ q ∈ set.pages := by
  unfold insert
  split
  · rename_i h
    constructor
    · exact Or.inr
    · rintro (rfl | hq)
      · exact h
      · exact hq
  · exact Ascending.mem_insert

end PageSet

end DmaQueue
