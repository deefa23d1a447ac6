/-
  DmaQueue.Proofs.Page.Ascending

  Bags and sets of pages under many insertions and removals.  A bag is known by
  its counts, so what balances in the counts balances in the bag.
-/
import DmaQueue.Page.Ascending

namespace DmaQueue

namespace PageBag

/-- Two bags with the same counts are the same bag. -/
theorem ext_count {a b : PageBag} (h : ∀ page, a.count page = b.count page) : a = b := by
  obtain ⟨as, hascending⟩ := a
  obtain ⟨bs, hascending'⟩ := b
  have hperm : as.Perm bs := List.perm_iff_count.2 h
  have hpages : as = bs :=
    hperm.eq_of_pairwise (fun _ _ _ _ => UInt64.le_antisymm) hascending hascending'
  subst hpages
  rfl

/-- The bag with each of the pages once more in it. -/
def insertAll (bag : PageBag) (pages : List UInt64) : PageBag :=
  pages.foldl insert bag

/-- The bag with each of the pages once less in it. -/
def eraseAll (bag : PageBag) (pages : List UInt64) : PageBag :=
  pages.foldl erase bag

theorem insertAll_append (bag : PageBag) (first second : List UInt64) :
    bag.insertAll (first ++ second) = (bag.insertAll first).insertAll second :=
  List.foldl_append

theorem eraseAll_append (bag : PageBag) (first second : List UInt64) :
    bag.eraseAll (first ++ second) = (bag.eraseAll first).eraseAll second :=
  List.foldl_append

theorem count_insertAll (bag : PageBag) (pages : List UInt64) (q : UInt64) :
    (bag.insertAll pages).count q = bag.count q + pages.count q := by
  induction pages generalizing bag with
  | nil => rfl
  | cons page rest ih =>
    have hstep : bag.insertAll (page :: rest) = (bag.insert page).insertAll rest := rfl
    rw [hstep, ih, count_insert, List.count_cons]
    by_cases hpage : page = q
    · simp only [hpage, if_true, beq_self_eq_true]
      omega
    · simp [hpage]

theorem count_eraseAll (bag : PageBag) (pages : List UInt64) (q : UInt64) :
    (bag.eraseAll pages).count q = bag.count q - pages.count q := by
  induction pages generalizing bag with
  | nil => rfl
  | cons page rest ih =>
    have hstep : bag.eraseAll (page :: rest) = (bag.erase page).eraseAll rest := rfl
    rw [hstep, ih, count_erase, List.count_cons]
    by_cases hpage : page = q
    · simp only [hpage, if_true, beq_self_eq_true]
      omega
    · simp [hpage]

theorem size_insertAll (bag : PageBag) (pages : List UInt64) :
    (bag.insertAll pages).size = bag.size + pages.length := by
  induction pages generalizing bag with
  | nil => rfl
  | cons page rest ih =>
    have hstep : bag.insertAll (page :: rest) = (bag.insert page).insertAll rest := rfl
    rw [hstep, ih, size_insert, List.length_cons, Nat.add_assoc, Nat.add_comm 1]

/-- Taking out what was put in restores the bag. -/
theorem eraseAll_insertAll (bag : PageBag) (pages : List UInt64) :
    (bag.insertAll pages).eraseAll pages = bag := by
  apply ext_count
  intro q
  rw [count_eraseAll, count_insertAll, Nat.add_sub_cancel]

theorem mem_pages_iff {bag : PageBag} {page : UInt64} : page ∈ bag.pages ↔ 1 ≤ bag.count page :=
  List.count_pos_iff.symm

end PageBag

namespace PageSet

/-- Sets with the same pages are the same set. -/
theorem ext_mem {a b : PageSet} (h : ∀ page, page ∈ a.pages ↔ page ∈ b.pages) : a = b := by
  obtain ⟨as, hascending⟩ := a
  obtain ⟨bs, hascending'⟩ := b
  have hperm : as.Perm bs := by
    rw [List.perm_ext_iff_of_nodup]
    · exact h
    · exact hascending.imp UInt64.ne_of_lt
    · exact hascending'.imp UInt64.ne_of_lt
  have hpages : as = bs :=
    hperm.eq_of_pairwise (fun _ _ _ _ hab hba => absurd hab (UInt64.lt_asymm hba)) hascending
      hascending'
  subst hpages
  rfl

/-- The set together with the pages. -/
def insertAll (set : PageSet) (pages : List UInt64) : PageSet :=
  pages.foldl insert set

theorem insertAll_append (set : PageSet) (first second : List UInt64) :
    set.insertAll (first ++ second) = (set.insertAll first).insertAll second :=
  List.foldl_append

theorem mem_insertAll {set : PageSet} {pages : List UInt64} {q : UInt64} :
    q ∈ (set.insertAll pages).pages ↔ q ∈ set.pages ∨ q ∈ pages := by
  induction pages generalizing set with
  | nil => simp [insertAll]
  | cons page rest ih =>
    have hstep : set.insertAll (page :: rest) = (set.insert page).insertAll rest := rfl
    rw [hstep, ih, mem_insert, List.mem_cons, or_comm (a := q = page), or_assoc]

end PageSet

end DmaQueue
