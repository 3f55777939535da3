import Mathlib.Data.Nat.Bitwise
import Mathlib.Tactic

/-! # DMA descriptors of the Ethernet driver

`drivers/net/bcm63xx_enet.h`. The status word of a descriptor has a length, an owner bit that the driver sets and the
hardware clears, a bit that marks the last descriptor of the ring, and the flags of a frame. -/
namespace Neufbox.Enet
set_option autoImplicit false
set_option maxHeartbeats 250000
set_option maxRecDepth 120000

def dmadescLengthShift : ℕ := 16
def dmadescLengthMask : ℕ := 0xfff <<< dmadescLengthShift
def dmadescOwnerMask : ℕ := 1 <<< 15
def dmadescEopMask : ℕ := 1 <<< 14
def dmadescSopMask : ℕ := 1 <<< 13
def dmadescEsopMask : ℕ := dmadescEopMask ||| dmadescSopMask
def dmadescWrapMask : ℕ := 1 <<< 12
def dmadescUnderMask : ℕ := 1 <<< 9
def dmadescAppendCrc : ℕ := 1 <<< 8
def dmadescOvsizeMask : ℕ := 1 <<< 4
def dmadescRxerMask : ℕ := 1 <<< 2
def dmadescCrcMask : ℕ := 1 <<< 1
def dmadescOvMask : ℕ := 1 <<< 0

def dmadescErrMask : ℕ :=
  dmadescUnderMask ||| dmadescOvsizeMask ||| dmadescRxerMask ||| dmadescCrcMask ||| dmadescOvMask

/-- The hardware owns the descriptor. -/
def owned (lenStat : ℕ) : Bool := lenStat &&& dmadescOwnerMask ≠ 0

def wraps (lenStat : ℕ) : Bool := lenStat &&& dmadescWrapMask ≠ 0

def clearOwner (lenStat : ℕ) : ℕ := lenStat &&& (0xffffffff ^^^ dmadescOwnerMask)

theorem mask_iff_testBit (n k : ℕ) : n &&& 1 <<< k ≠ 0 ↔ n.testBit k := by
  rw [Nat.shiftLeft_eq, Nat.one_mul, Nat.and_two_pow]
  cases n.testBit k <;> simp

theorem owned_eq_testBit (n : ℕ) : owned n = n.testBit 15 := by
  rw [Bool.eq_iff_iff, owned, decide_eq_true_iff, dmadescOwnerMask, mask_iff_testBit]

theorem wraps_eq_testBit (n : ℕ) : wraps n = n.testBit 12 := by
  rw [Bool.eq_iff_iff, wraps, decide_eq_true_iff, dmadescWrapMask, mask_iff_testBit]

@[simp] theorem owned_clearOwner (n : ℕ) : owned (clearOwner n) = false := by
  have hbit : (0xffffffff ^^^ dmadescOwnerMask).testBit 15 = false := by decide
  rw [owned_eq_testBit, clearOwner, Nat.testBit_and, hbit, Bool.and_false]

@[simp] theorem wraps_clearOwner (n : ℕ) : wraps (clearOwner n) = wraps n := by
  have hbit : (0xffffffff ^^^ dmadescOwnerMask).testBit 12 = true := by decide
  rw [wraps_eq_testBit, wraps_eq_testBit, clearOwner, Nat.testBit_and, hbit, Bool.and_true]

end Neufbox.Enet
