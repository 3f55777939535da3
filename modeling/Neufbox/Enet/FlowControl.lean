import Neufbox.Enet.TransmitRing

/-! # The flow control of the transmit queue

The network core calls `start_xmit` only while the queue is not stopped. `start_xmit` stops it when it takes the last
descriptor; `tx_reclaim` wakes it when it returned descriptors and finds it stopped. The descriptors it returned may
have been taken again by then, and the queue that it wakes is the one that was stopped for it. -/
namespace Neufbox.Enet
open RunAlong
set_option autoImplicit false
set_option maxHeartbeats 250000
set_option maxRecDepth 120000

/-- The network core leaves a stopped queue alone. -/
def CoreWaits (s : TxRing) : TxOp → Prop
  | .startXmit _ => s.stopped = false
  | _ => True

/-- The queue is not woken while the ring is full. -/
def WakesWithRoom (s : TxRing) : TxOp → Prop
  | .reclaimStep => s.reclaim = .wake → s.txDescCount ≠ 0
  | _ => True

instance CoreWaits.decidable (s : TxRing) : ∀ op, Decidable (CoreWaits s op)
  | .startXmit _ => inferInstanceAs (Decidable (_ = _))
  | .txReclaim _ => isTrue trivial
  | .reclaimStep => isTrue trivial
  | .dmaSend => isTrue trivial

instance WakesWithRoom.decidable (s : TxRing) : ∀ op, Decidable (WakesWithRoom s op)
  | .reclaimStep => inferInstanceAs (Decidable (_ → _))
  | .startXmit _ => isTrue trivial
  | .txReclaim _ => isTrue trivial
  | .dmaSend => isTrue trivial

/-- The call in progress has returned a descriptor, so it will look at the queue and wake it. -/
def Reclaim.willWake : Reclaim → Prop
  | .idle => False
  | .test _ released => released ≠ 0
  | .lock _ released => released ≠ 0
  | .free _ _ _ => True
  | .testStopped released => released ≠ 0
  | .wake => True

/-- A queue that is stopped though there is room will be woken. -/
def WakeComes (s : TxRing) : Prop := s.stopped = true → s.txDescCount = 0 ∨ s.reclaim.willWake

section Steps
variable {size : ℕ} {s : TxRing}

theorem startXmit_wakeComes (hstarted : s.stopped = false) (len : ℕ) : WakeComes (startXmit size len s) := by
  unfold startXmit
  split
  next hfull => exact fun _ => Or.inl hfull
  next hroom =>
    intro hstopped
    left
    simpa [hstarted] using hstopped

theorem reclaimLocked_wakeComes (h : WakeComes s) {force : Bool} {released : ℕ}
    (hpc : s.reclaim = .lock force released) : WakeComes (reclaimLocked size force released s) := by
  unfold reclaimLocked
  split
  · intro hstopped
    obtain hfull | hwake := h hstopped
    · exact Or.inl hfull
    · rw [hpc] at hwake
      exact Or.inr hwake
  · split
    · exact h
    · exact fun _ => Or.inr trivial

theorem reclaimStep_wakeComes (h : WakeComes s) : WakeComes (reclaimStep size s) := by
  unfold reclaimStep
  split
  next hpc => exact h
  next force released hpc =>
    intro hstopped
    obtain hfull | hwake := h hstopped
    · exact Or.inl hfull
    · right
      rw [hpc] at hwake
      show (if s.txDescCount < size then Reclaim.lock force released else .testStopped released).willWake
      split <;> exact hwake
  next force released hpc => exact reclaimLocked_wakeComes h hpc
  next force released skb hpc => exact fun _ => Or.inr (Nat.succ_ne_zero released)
  next released hpc =>
    intro hstopped
    obtain hfull | hwake := h hstopped
    · exact Or.inl hfull
    · right
      rw [hpc] at hwake
      show (if s.stopped = true ∧ released ≠ 0 then Reclaim.wake else .idle).willWake
      rw [if_pos ⟨hstopped, hwake⟩]
      trivial
  next hpc =>
    intro hstopped
    cases hstopped

theorem txStep_wakeComes (h : WakeComes s) {op : TxOp} (hop : CoreWaits s op) : WakeComes (txStep size s op) := by
  cases op with
  | startXmit len => exact startXmit_wakeComes hop len
  | reclaimStep => exact reclaimStep_wakeComes h
  | dmaSend =>
    show WakeComes (dmaSend size s)
    unfold dmaSend
    split
    · exact h
    · exact h
  | txReclaim force =>
    show WakeComes (if s.reclaim = .idle then { s with reclaim := .test force 0 } else s)
    split
    next hidle =>
      intro hstopped
      obtain hfull | hwake := h hstopped
      · exact Or.inl hfull
      · rw [hidle] at hwake
        exact hwake.elim
    · exact h

/-- A queue that is not stopped has room, and nobody was turned away. -/
def RoomOk (s : TxRing) : Prop := (s.stopped = false → s.txDescCount ≠ 0) ∧ s.busy = false

theorem reclaimStep_roomOk (h : RoomOk s) (hop : WakesWithRoom s .reclaimStep) : RoomOk (reclaimStep size s) := by
  unfold reclaimStep
  split
  next hpc => exact h
  next hpc => exact h
  next force released hpc =>
    unfold reclaimLocked
    split
    · exact h
    · split
      · exact h
      · exact ⟨fun _ => Nat.succ_ne_zero _, h.2⟩
  next hpc => exact h
  next hpc => exact h
  next hpc => exact ⟨fun _ => hop hpc, h.2⟩

theorem txStep_roomOk (h : RoomOk s) {op : TxOp} (hop : CoreWaits s op ∧ WakesWithRoom s op) :
    RoomOk (txStep size s op) := by
  cases op with
  | startXmit len =>
    have hroom := h.1 hop.1
    show RoomOk (startXmit size len s)
    rw [startXmit, if_neg hroom]
    refine ⟨fun hstarted => ?_, h.2⟩
    have hlast : (s.stopped || decide (s.txDescCount - 1 = 0)) = false := hstarted
    rw [Bool.or_eq_false_iff, decide_eq_false_iff_not] at hlast
    exact hlast.2
  | reclaimStep => exact reclaimStep_roomOk h hop.2
  | dmaSend =>
    show RoomOk (dmaSend size s)
    unfold dmaSend
    split
    · exact h
    · exact h
  | txReclaim force =>
    show RoomOk (if s.reclaim = .idle then { s with reclaim := .test force 0 } else s)
    split
    · exact h
    · exact h

end Steps

/-- No wake-up is lost; and where no full ring is woken, `start_xmit` always finds a descriptor. -/
theorem bcm_enet_tx_flow_control (size : ℕ) (hsize : 0 < size) (ops : List TxOp)
    (hcore : Along (txStep size) CoreWaits (txOpen size) ops) :
    ((runSteps (txStep size) (txOpen size) ops).reclaim = .idle →
      (runSteps (txStep size) (txOpen size) ops).stopped = true →
        (runSteps (txStep size) (txOpen size) ops).txDescCount = 0) ∧
      (Along (txStep size) WakesWithRoom (txOpen size) ops →
        (runSteps (txStep size) (txOpen size) ops).busy = false) := by
  constructor
  · intro hidle hstopped
    have hwake : WakeComes (runSteps (txStep size) (txOpen size) ops) :=
      Along.preserves (fun s op h hop => txStep_wakeComes h hop) (fun h => by cases h) hcore
    obtain hfull | hwill := hwake hstopped
    · exact hfull
    · rw [hidle] at hwill
      exact hwill.elim
  · intro hroom
    have hstart : RoomOk (txOpen size) := ⟨fun _ => hsize.ne', rfl⟩
    have hend : RoomOk (runSteps (txStep size) (txOpen size) ops) :=
      Along.preserves (fun s op h hop => txStep_roomOk h hop) hstart (hcore.and hroom)
    exact hend.2

/-- A full ring: one packet is sent and reclaimed, and the queue is woken for the next. -/
def fullRing : List TxOp :=
  [.startXmit 60, .startXmit 60, .dmaSend, .txReclaim false, .reclaimStep, .reclaimStep, .reclaimStep, .reclaimStep,
    .reclaimStep, .reclaimStep, .reclaimStep, .startXmit 60]

theorem bcm_enet_tx_flow_control_full : (runSteps (txStep 2) (txOpen 2) fullRing).busy = false :=
  (bcm_enet_tx_flow_control 2 (by norm_num) fullRing (by decide)).2 (by decide)

/-- The ring is filled between the last test of the loop and the test of the queue. -/
def filledBehind : List TxOp :=
  [.startXmit 60, .dmaSend, .txReclaim false, .reclaimStep, .reclaimStep, .reclaimStep, .reclaimStep, .startXmit 60,
    .startXmit 60, .reclaimStep, .reclaimStep, .startXmit 60]

theorem bcm_enet_tx_wakes_full_ring :
    Along (txStep 2) CoreWaits (txOpen 2) filledBehind ∧ (runSteps (txStep 2) (txOpen 2) filledBehind).busy = true := by
  constructor
  · decide
  · decide

end Neufbox.Enet
