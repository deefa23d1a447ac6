/-
  DmaQueue.Pinner.GrantList

  A memory manager that follows a list of grants, one for each pin call: the
  pages that the range touches, a number of pages whether or not the range
  touches that many, or a refusal.  It keeps no account of the pages it gave
  out.  With it an engine can be shown every way in which pinning goes wrong.
-/
import DmaQueue.Page.Granule
import DmaQueue.Pinner.Basic

namespace DmaQueue

/-- How one pin call is answered. -/
inductive Grant where
  /-- With the pages that the range touches. -/
  | touched
  /-- With this many pages. -/
  | pages (count : Nat)
  /-- With a refusal. -/
  | refused
  deriving DecidableEq, Repr

/-- A memory manager that follows a list of grants. -/
structure GrantList where
  /-- The size of a page. -/
  pageSize : UInt64
  /-- How far the physical address of a page lies above its virtual one. -/
  physOffset : UInt64
  /-- How the next pin calls are answered; after the last, with the pages touched. -/
  grants : List Grant
  deriving DecidableEq, Repr

namespace GrantList

open Word

/-- The `count` pages upwards from number `index` above `base`. -/
def pagesFrom (pinner : GrantList) (base : UInt64) (index : Nat) :
    Nat → Except Fault (List PinnedPage)
  | 0 => return []
  | count + 1 => do
    let above ← checkedMul (UInt64.ofNat index) pinner.pageSize
    let virt ← checkedAdd base above
    let phys ← checkedAdd virt pinner.physOffset
    let rest ← pinner.pagesFrom base (index + 1) count
    return { virt, phys } :: rest

/-- With how many pages the next pin call is answered; none if it is refused. -/
def granted? (pinner : GrantList) (address length : UInt64) : Except Fault (Option Nat) :=
  match pinner.grants.headD .touched with
  | .refused => return none
  | .pages count => return some count
  | .touched => do
    let count ← Page.touched address length pinner.pageSize
    return some count.toNat

/-- Answers as the next grant says. -/
def pin (address length : UInt64) (_writable : Bool) :
    Act Note GrantList (Except PinFailure (List PinnedPage)) := do
  let pinner ← Act.get
  Act.modify fun p => { p with grants := p.grants.tail }
  match ← Act.ofExcept (pinner.granted? address length) with
  | none => return .error (.unmapped address)
  | some count => do
    let base ← Act.ofExcept (Page.alignDown address pinner.pageSize)
    let pages ← Act.ofExcept (pinner.pagesFrom base 0 count)
    return .ok pages

instance : Pinner GrantList where
  pin := pin
  unpin _ _ := return ()
  granule pinner := pinner.pageSize

end GrantList

end DmaQueue
