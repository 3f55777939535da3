import Neufbox.Library.RunAlong
import Neufbox.Library.Ring
import Neufbox.Enet.Descriptor

/-! # The transmit ring of the Ethernet driver

`drivers/net/bcm63xx_enet.c`. `bcm_enet_start_xmit` puts packets into a ring of descriptors, the DMA engine sends
them and clears the owner bits, `bcm_enet_tx_reclaim` frees what was sent. The lock makes `start_xmit` and one round
of the loop of `tx_reclaim` atomic; the test of the loop, the freeing, the test of the stopped queue and the wake-up
are outside of it, so they are steps of their own.

Packets are numbered in the order of their acceptance. -/
namespace Neufbox.Enet
open RunAlong Neufbox.Ring
set_option autoImplicit false
set_option maxHeartbeats 250000
set_option maxRecDepth 120000

/-! ## State -/

/-- The status word of a packet that is handed to the hardware. -/
def xmitLenStat (len : ℕ) (last : Bool) : ℕ :=
  (len <<< dmadescLengthShift &&& dmadescLengthMask ||| (dmadescEsopMask ||| dmadescAppendCrc ||| dmadescOwnerMask)) |||
    if last then dmadescWrapMask else 0

@[simp] theorem owned_xmitLenStat (len : ℕ) (last : Bool) : owned (xmitLenStat len last) = true := by
  have hbit : (dmadescEsopMask ||| dmadescAppendCrc ||| dmadescOwnerMask).testBit 15 = true := by decide
  rw [owned_eq_testBit, xmitLenStat, Nat.testBit_or, Nat.testBit_or, hbit, Bool.or_true, Bool.true_or]

@[simp] theorem wraps_xmitLenStat (len : ℕ) (last : Bool) : wraps (xmitLenStat len last) = last := by
  have hmask : dmadescLengthMask.testBit 12 = false := by decide
  have hflags : (dmadescEsopMask ||| dmadescAppendCrc ||| dmadescOwnerMask).testBit 12 = false := by decide
  rw [wraps_eq_testBit, xmitLenStat, Nat.testBit_or, Nat.testBit_or, Nat.testBit_and, hmask, hflags, Bool.and_false,
    Bool.or_false, Bool.false_or]
  cases last <;> decide

/-- Where a call of `bcm_enet_tx_reclaim` is: before the test of its loop, before the lock, before it frees what it
took out of the ring, before the test of the queue, before the wake-up. -/
inductive Reclaim where
  | idle
  | test (force : Bool) (released : ℕ)
  | lock (force : Bool) (released : ℕ)
  | free (force : Bool) (released : ℕ) (skb : ℕ)
  | testStopped (released : ℕ)
  | wake
  deriving DecidableEq

/-- The transmit fields of `struct bcm_enet_priv`, the queue, the position of the DMA engine and the record: packets
accepted, freed, freed by force, and released by the hardware; whether `NETDEV_TX_BUSY` was returned, and whether a
slot without a packet was taken for one. -/
structure TxRing where
  txDesc : ℕ → ℕ
  txSkb : ℕ → Option ℕ
  txCurrDesc : ℕ
  txDirtyDesc : ℕ
  txDescCount : ℕ
  stopped : Bool
  dmaNext : ℕ
  reclaim : Reclaim
  accepted : ℕ
  freed : List ℕ
  forced : List ℕ
  released : List ℕ
  busy : Bool
  oops : Bool

section Model
variable (txRingSize : ℕ)

/-- The ring as `bcm_enet_open` sets it up, with the queue started. -/
def txOpen : TxRing :=
  ⟨fun _ => 0, fun _ => none, 0, 0, txRingSize, false, 0, .idle, 0, [], [], [], false, false⟩

/-! ## Steps -/

/-- `bcm_enet_start_xmit` of a packet of `len` bytes. -/
def startXmit (len : ℕ) (s : TxRing) : TxRing :=
  if s.txDescCount = 0 then { s with stopped := true, busy := true }
  else
    { s with
      txSkb := Function.update s.txSkb s.txCurrDesc (some s.accepted)
      txDesc := Function.update s.txDesc s.txCurrDesc (xmitLenStat len (s.txCurrDesc + 1 = txRingSize))
      txCurrDesc := next txRingSize s.txCurrDesc
      txDescCount := s.txDescCount - 1
      stopped := s.stopped || s.txDescCount - 1 = 0
      accepted := s.accepted + 1 }

/-- The locked section of a round. -/
def reclaimLocked (force : Bool) (released : ℕ) (s : TxRing) : TxRing :=
  if !force && owned (s.txDesc s.txDirtyDesc) then { s with reclaim := .testStopped released }
  else match s.txSkb s.txDirtyDesc with
    | none => { s with oops := true }
    | some skb =>
        { s with
          txSkb := Function.update s.txSkb s.txDirtyDesc none
          txDirtyDesc := next txRingSize s.txDirtyDesc
          txDescCount := s.txDescCount + 1
          reclaim := .free force released skb }

/-- One step of the call of `bcm_enet_tx_reclaim` in progress. -/
def reclaimStep (s : TxRing) : TxRing :=
  match s.reclaim with
  | .idle => s
  | .test force released =>
      { s with reclaim := if s.txDescCount < txRingSize then .lock force released else .testStopped released }
  | .lock force released => reclaimLocked txRingSize force released s
  | .free force released skb =>
      { s with
        freed := s.freed ++ [skb]
        forced := if force then s.forced ++ [skb] else s.forced
        reclaim := .test force (released + 1) }
  | .testStopped released => { s with reclaim := if s.stopped = true ∧ released ≠ 0 then .wake else .idle }
  | .wake => { s with stopped := false, reclaim := .idle }

/-- The DMA engine is done with its next descriptor. -/
def dmaSend (s : TxRing) : TxRing :=
  if owned (s.txDesc s.dmaNext) then
    { s with
      txDesc := Function.update s.txDesc s.dmaNext (clearOwner (s.txDesc s.dmaNext))
      released := s.released ++ (s.txSkb s.dmaNext).toList
      dmaNext := next txRingSize s.dmaNext }
  else s

inductive TxOp where
  | startXmit (len : ℕ)
  /-- A call of `bcm_enet_tx_reclaim`, when none is in progress. -/
  | txReclaim (force : Bool)
  | reclaimStep
  | dmaSend
  deriving DecidableEq

def txStep (s : TxRing) : TxOp → TxRing
  | .startXmit len => startXmit txRingSize len s
  | .txReclaim force => if s.reclaim = .idle then { s with reclaim := .test force 0 } else s
  | .reclaimStep => reclaimStep txRingSize s
  | .dmaSend => dmaSend txRingSize s

/-- The forced reclaim of `bcm_enet_stop`, from its call to its end. -/
def txStop : List TxOp := .txReclaim true :: List.replicate (3 * txRingSize + 3) .reclaimStep

end Model

end Neufbox.Enet
