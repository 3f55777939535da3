import Neufbox.Library.RunAlong
import Neufbox.Library.Ring
import Neufbox.Library.WrapArith
import Neufbox.Enet.Descriptor

/-! # The receive ring of the Ethernet driver

`drivers/net/bcm63xx_enet.c`. The driver arms descriptors with empty buffers, the DMA engine puts frames into them in
ring order and clears the owner bits, a poll takes the frames out and arms the descriptors again. When no buffer is
to be had and the ring runs empty, a timer tries again.

Polls and refills hold the lock, the hardware does not: it may complete descriptors before every look at a
descriptor and after every arming. Frames are numbered as the hardware receives them. -/
namespace Neufbox.Enet
open RunAlong Neufbox.Ring WrapArith
set_option autoImplicit false
set_option maxHeartbeats 250000
set_option maxRecDepth 120000

/-! ## State -/

/-- `ETH_FRAME_LEN + 4`. -/
def bcmenetMaxRxSize : ℕ := 1518

/-- The receive fields of `struct bcm_enet_priv`, of `rx_skb` only which buffers are there; the timer; the position of
the DMA engine, the frame last received into each buffer, and how many were received; and the record: descriptors
armed since they were last processed, frames delivered, whether a pending timer was added or a missing buffer used. -/
structure RxRing where
  rxDesc : ℕ → ℕ
  rxSkb : ℕ → Bool
  rxCurrDesc : ℕ
  rxDirtyDesc : ℕ
  rxDescCount : ℤ
  timerPending : Bool
  dmaNext : ℕ
  frame : ℕ → ℕ
  frames : ℕ
  armed : ℕ → Bool
  delivered : List ℕ
  addedPending : Bool
  oops : Bool

/-- The status word of a received frame. -/
structure Completion where
  lenStat : ℕ
  released : owned lenStat = false

/-- One round of the refill loop: whether `netdev_alloc_skb` gives a buffer, and what the hardware does then. -/
structure RefillTick where
  alloc : Bool
  dma : List Completion

/-- One round of the receive loop: what the hardware does before, and whether there is a buffer for a copy. -/
structure ReceiveTick where
  dma : List Completion
  alloc : Bool

section Model
variable (rxRingSize copybreak : ℕ)

/-! ## Hardware -/

/-- The DMA engine receives a frame into its next descriptor. -/
def dmaReceive (s : RxRing) (c : Completion) : RxRing :=
  if owned (s.rxDesc s.dmaNext) then
    { s with
      rxDesc := Function.update s.rxDesc s.dmaNext c.lenStat
      frame := Function.update s.frame s.dmaNext s.frames
      frames := s.frames + 1
      dmaNext := next rxRingSize s.dmaNext }
  else s

/-! ## Refill -/

def armLenStat (last : Bool) : ℕ :=
  bcmenetMaxRxSize <<< dmadescLengthShift ||| dmadescOwnerMask ||| if last then dmadescWrapMask else 0

/-- The next descriptor is armed; it has a buffer by now. -/
def armDesc (s : RxRing) : RxRing :=
  { s with
    rxSkb := Function.update s.rxSkb s.rxDirtyDesc true
    rxDesc := Function.update s.rxDesc s.rxDirtyDesc (armLenStat (s.rxDirtyDesc + 1 = rxRingSize))
    rxDirtyDesc := next rxRingSize s.rxDirtyDesc
    rxDescCount := s.rxDescCount + 1
    armed := Function.update s.armed s.rxDirtyDesc true }

/-- The loop of `bcm_enet_refill_rx`; the first argument counts the rounds down. -/
def refillLoop : ℕ → List RefillTick → RxRing → RxRing
  | 0, _, s => s
  | n + 1, ticks, s =>
      let tick := ticks.headD ⟨false, []⟩
      if s.rxDescCount < rxRingSize then
        if s.rxSkb s.rxDirtyDesc = false ∧ tick.alloc = false then s
        else refillLoop n ticks.tail (tick.dma.foldl (dmaReceive rxRingSize) (armDesc rxRingSize s))
      else s

def addTimer (s : RxRing) : RxRing :=
  { s with timerPending := true, addedPending := s.addedPending || s.timerPending }

/-- `bcm_enet_refill_rx`; `running` is `netif_running`. -/
def refillRx (running : Bool) (ticks : List RefillTick) (s : RxRing) : RxRing :=
  let s := refillLoop rxRingSize (rxRingSize - s.rxDescCount).toNat ticks s
  if s.rxDescCount = 0 ∧ running then addTimer s else s

/-- The timer expires. -/
def refillRxTimer (running : Bool) (ticks : List RefillTick) (s : RxRing) : RxRing :=
  refillRx rxRingSize running ticks { s with timerPending := false }

/-! ## Receive -/

/-- The frame of the descriptor `i` goes up the stack; a buffer that is not there faults. -/
def deliver (i : ℕ) (s : RxRing) : RxRing :=
  if s.rxSkb i = false then { s with oops := true } else { s with delivered := s.delivered ++ [s.frame i] }

/-- A descriptor that the hardware released; the length is without the checksum of the frame. -/
def receiveDesc (alloc : Bool) (s : RxRing) : RxRing :=
  let i := s.rxCurrDesc
  let lenStat := s.rxDesc i
  let s := { s with
    rxCurrDesc := next rxRingSize i
    rxDescCount := s.rxDescCount - 1
    armed := Function.update s.armed i false }
  if lenStat &&& dmadescEsopMask ≠ dmadescEsopMask then s
  else if lenStat &&& dmadescErrMask ≠ 0 then s
  else if wrapSub 32 ((lenStat &&& dmadescLengthMask) >>> dmadescLengthShift) 4 < copybreak then
    if alloc then deliver i s else s
  else
    let s := deliver i s
    { s with rxSkb := Function.update s.rxSkb i false }

/-- The loop of `bcm_enet_receive_queue`, at most the given number of rounds; with the number of descriptors
processed. -/
def receiveLoop : ℕ → List ReceiveTick → RxRing → ℕ → RxRing × ℕ
  | 0, _, s, processed => (s, processed)
  | n + 1, ticks, s, processed =>
      let tick := ticks.headD ⟨[], false⟩
      let s := tick.dma.foldl (dmaReceive rxRingSize) s
      if owned (s.rxDesc s.rxCurrDesc) then (s, processed)
      else receiveLoop n ticks.tail (receiveDesc rxRingSize copybreak tick.alloc s) (processed + 1)

/-- The rounds of the loop: it tests its budget behind the body. -/
def rounds (budget : ℕ) (count : ℤ) : ℕ := max 1 (min (budget : ℤ) count).toNat

def receiveQueue (budget : ℕ) (running : Bool) (rx : List ReceiveTick) (refill : List RefillTick) (s : RxRing) :
    RxRing :=
  let r := receiveLoop rxRingSize copybreak (rounds budget s.rxDescCount) rx s 0
  if r.2 ≠ 0 ∨ r.1.rxDescCount = 0 then refillRx rxRingSize running refill r.1 else r.1

/-! ## Runs -/

/-- The ring as `bcm_enet_open` sets it up. -/
def rxOpen (running : Bool) (ticks : List RefillTick) : RxRing :=
  refillRx rxRingSize running ticks
    ⟨fun _ => 0, fun _ => false, 0, 0, 0, false, 0, fun _ => 0, 0, fun _ => false, [], false, false⟩

inductive RxOp where
  | dma (c : Completion)
  | poll (budget : ℕ) (running : Bool) (rx : List ReceiveTick) (refill : List RefillTick)
  | timer (running : Bool) (ticks : List RefillTick)

def rxStep (s : RxRing) : RxOp → RxRing
  | .dma c => dmaReceive rxRingSize s c
  | .poll budget running rx refill => receiveQueue rxRingSize copybreak budget running rx refill s
  | .timer running ticks => refillRxTimer rxRingSize running ticks s

/-- A poll has a budget, and the timer runs when it is pending. -/
def RxLegal (s : RxRing) : RxOp → Prop
  | .poll budget _ _ _ => 1 ≤ budget
  | .timer _ _ => s.timerPending = true
  | .dma _ => True

end Model

end Neufbox.Enet
