import Neufbox.Enet.Transmit

/-! # The packets in the transmit ring

Whatever the order of the steps, the packets that were accepted are those that were freed, the one that is about to
be, and those in the ring, in this order. -/
namespace Neufbox.Enet
open RunAlong Neufbox.Ring
set_option autoImplicit false
set_option maxHeartbeats 250000
set_option maxRecDepth 120000

/-- The packet that was taken out of the ring and is not freed yet. -/
def Reclaim.held : Reclaim → List ℕ
  | .free _ _ skb => [skb]
  | _ => []

/-- The packets on their way: those in the ring are in the slots from `txDirtyDesc` on. -/
def TxRing.packets (size : ℕ) (s : TxRing) : List (Option ℕ) :=
  (s.freed ++ s.reclaim.held).map some ++ window size s.txDirtyDesc (size - s.txDescCount) s.txSkb

/-- The accounting of the ring. -/
structure TxAccounted (size : ℕ) (s : TxRing) : Prop where
  count_le : s.txDescCount ≤ size
  curr : s.txCurrDesc = (s.txDirtyDesc + (size - s.txDescCount)) % size
  slots : ∀ i < size, (s.txSkb i).isSome ↔ ∃ k < size - s.txDescCount, i = (s.txDirtyDesc + k) % size
  vacant : 0 < s.txDescCount → s.txSkb s.txCurrDesc = none
  wrap : ∀ i < size, wraps (s.txDesc i) → i + 1 = size
  packets : s.packets size = (List.range s.accepted).map some
  done : ∀ p ∈ s.freed, p ∈ s.forced ∨ p ∈ s.released

/-- What holds besides. -/
structure TxInv (size : ℕ) (s : TxRing) : Prop where
  count_le : s.txDescCount ≤ size
  dirty_lt : s.txDirtyDesc < size
  curr : s.txCurrDesc = (s.txDirtyDesc + (size - s.txDescCount)) % size
  slots : ∀ i < size, (s.txSkb i).isSome ↔ dist size s.txDirtyDesc i < size - s.txDescCount
  wrap : ∀ i < size, wraps (s.txDesc i) → i + 1 = size
  packets : s.packets size = (List.range s.accepted).map some
  done : ∀ p ∈ s.freed, p ∈ s.forced ∨ p ∈ s.released
  handed : ∀ i < size, ∀ p, s.txSkb i = some p → owned (s.txDesc i) = false → p ∈ s.released
  holding : ∀ force released p, s.reclaim = .free force released p → force = true ∨ p ∈ s.released
  locked : ∀ force released, s.reclaim = .lock force released → s.txDescCount < size
  sound : s.oops = false

section Ring
variable {size : ℕ} {s : TxRing}

theorem TxInv.curr_lt (h : TxInv size s) : s.txCurrDesc < size := by
  have hd := h.dirty_lt
  rw [h.curr]
  exact Nat.mod_lt _ (by omega)

theorem TxInv.vacant (h : TxInv size s) (hcount : 0 < s.txDescCount) : s.txSkb s.txCurrDesc = none := by
  have hle := h.count_le
  have hslot := h.slots s.txCurrDesc h.curr_lt
  rw [h.curr, dist_add h.dirty_lt (by omega)] at hslot
  rw [← Option.not_isSome_iff_eq_none, h.curr, hslot]
  omega

theorem TxInv.accounted (h : TxInv size s) : TxAccounted size s where
  count_le := h.count_le
  curr := h.curr
  slots := fun i hi => (h.slots i hi).trans (exists_slot_iff h.dirty_lt hi (Nat.sub_le _ _)).symm
  vacant := h.vacant
  wrap := h.wrap
  packets := h.packets
  done := h.done

theorem txOpen_inv (hsize : 0 < size) : TxInv size (txOpen size) where
  count_le := le_refl _
  dirty_lt := hsize
  curr := by simp [txOpen]
  slots := by simp [txOpen]
  wrap := by simp [txOpen, wraps]
  packets := by simp [txOpen, TxRing.packets, Reclaim.held]
  done := by simp [txOpen]
  handed := by simp [txOpen]
  holding := by simp [txOpen]
  locked := by simp [txOpen]
  sound := rfl

/-! ## Steps -/

theorem startXmit_inv (h : TxInv size s) (len : ℕ) : TxInv size (startXmit size len s) := by
  unfold startXmit
  split
  · exact { h with }
  next hcount =>
  have hle := h.count_le
  have hdirty := h.dirty_lt
  have hlt := h.curr_lt
  have hused : size - (s.txDescCount - 1) = (size - s.txDescCount) + 1 := by omega
  have hroom : size - s.txDescCount < size := by omega
  have hcurr := h.curr
  constructor
  · show s.txDescCount - 1 ≤ size
    omega
  · exact hdirty
  · show next size s.txCurrDesc = (s.txDirtyDesc + (size - (s.txDescCount - 1))) % size
    rw [hused, hcurr, next_add_mod (by omega)]
  · intro i hi
    show (Function.update s.txSkb s.txCurrDesc (some s.accepted) i).isSome ↔
      dist size s.txDirtyDesc i < size - (s.txDescCount - 1)
    rw [hused, dist_push hdirty hi hroom, ← hcurr]
    by_cases hic : i = s.txCurrDesc
    · simp [hic]
    · simp [hic, h.slots i hi]
  · intro i hi
    show wraps (Function.update s.txDesc s.txCurrDesc _ i) = true → i + 1 = size
    by_cases hic : i = s.txCurrDesc
    · simp [hic]
    · simpa [hic] using h.wrap i hi
  · show _ ++ window size s.txDirtyDesc (size - (s.txDescCount - 1)) (Function.update s.txSkb s.txCurrDesc _) = _
    have hkeep : window size s.txDirtyDesc (size - s.txDescCount)
        (Function.update s.txSkb s.txCurrDesc (some s.accepted)) =
        window size s.txDirtyDesc (size - s.txDescCount) s.txSkb := by
      apply window_congr hdirty hroom.le
      intro i _ hi
      exact Function.update_of_ne (hcurr ▸ ne_of_dist_lt hdirty hroom hi) _ _
    rw [hused, window_push, hkeep, ← hcurr, Function.update_self, ← List.append_assoc]
    show s.packets size ++ [some s.accepted] = _
    rw [h.packets, List.range_succ, List.map_append, List.map_singleton]
  · exact h.done
  · intro i hi p
    show Function.update s.txSkb s.txCurrDesc (some s.accepted) i = some p →
      owned (Function.update s.txDesc s.txCurrDesc _ i) = false → p ∈ s.released
    by_cases hic : i = s.txCurrDesc
    · simp [hic]
    · simpa [hic] using h.handed i hi p
  · exact h.holding
  · intro force released hlock
    have hlt := h.locked force released hlock
    show s.txDescCount - 1 < size
    omega
  · exact h.sound

theorem dmaSend_inv (h : TxInv size s) : TxInv size (dmaSend size s) := by
  unfold dmaSend
  split
  swap
  · exact h
  refine { h with wrap := ?_, done := ?_, handed := ?_, holding := ?_ }
  · intro i hi
    show wraps (Function.update s.txDesc s.dmaNext _ i) = true → _
    by_cases hid : i = s.dmaNext
    · simpa [hid] using h.wrap s.dmaNext (hid ▸ hi)
    · simpa [hid] using h.wrap i hi
  · intro p hp
    obtain hf | hr := h.done p hp
    · exact Or.inl hf
    · exact Or.inr (List.mem_append_left _ hr)
  · intro i hi p
    show s.txSkb i = some p → owned (Function.update s.txDesc s.dmaNext _ i) = false →
      p ∈ s.released ++ (s.txSkb s.dmaNext).toList
    intro hp ho
    by_cases hid : i = s.dmaNext
    · rw [← hid, hp]
      simp
    · rw [Function.update_of_ne hid] at ho
      exact List.mem_append_left _ (h.handed i hi p hp ho)
  · intro force released p hfree
    obtain hf | hr := h.holding force released p hfree
    · exact Or.inl hf
    · exact Or.inr (List.mem_append_left _ hr)

/-- A round of the loop finds the oldest packet in the ring. -/
theorem TxInv.oldest (h : TxInv size s) (hlt : s.txDescCount < size) : ∃ skb, s.txSkb s.txDirtyDesc = some skb := by
  have hslot := h.slots s.txDirtyDesc h.dirty_lt
  rw [dist_self] at hslot
  exact Option.isSome_iff_exists.mp (hslot.mpr (by omega))

/-- The call of `tx_reclaim` gets to a place where it holds no packet and no lock. -/
theorem TxInv.of_reclaim (h : TxInv size s) {pc : Reclaim} (hheld : s.reclaim.held = []) (hpc : pc.held = [])
    (hlock : ∀ force released, pc = .lock force released → s.txDescCount < size) :
    TxInv size { s with reclaim := pc } := by
  refine { h with packets := ?_, holding := ?_, locked := hlock }
  · have hp := h.packets
    rw [TxRing.packets, hheld] at hp
    show (s.freed ++ pc.held).map some ++ _ = _
    rw [hpc]
    exact hp
  · intro force released p hfree
    have hfree : pc = .free force released p := hfree
    rw [hfree] at hpc
    cases hpc

theorem reclaimLocked_inv (h : TxInv size s) {force : Bool} {released : ℕ} (hlock : s.reclaim = .lock force released) :
    TxInv size (reclaimLocked size force released s) := by
  have hlt := h.locked force released hlock
  have hheld : s.reclaim.held = [] := by rw [hlock]; rfl
  unfold reclaimLocked
  split
  · exact h.of_reclaim hheld rfl (by simp)
  next howner =>
  obtain ⟨skb, hskb⟩ := h.oldest hlt
  rw [hskb]
  dsimp only
  have hdirty := h.dirty_lt
  have hused : size - s.txDescCount = (size - (s.txDescCount + 1)) + 1 := by omega
  constructor
  · show s.txDescCount + 1 ≤ size
    omega
  · exact next_lt hdirty
  · show s.txCurrDesc = (next size s.txDirtyDesc + (size - (s.txDescCount + 1))) % size
    rw [h.curr, add_next_mod hdirty, hused]
  · intro i hi
    show (Function.update s.txSkb s.txDirtyDesc none i).isSome ↔
      dist size (next size s.txDirtyDesc) i < size - (s.txDescCount + 1)
    rw [dist_pop hdirty hi (by omega), ← hused, ← h.slots i hi]
    by_cases hid : i = s.txDirtyDesc
    · simp [hid]
    · simp [hid]
  · exact h.wrap
  · have hp := h.packets
    rw [TxRing.packets, hheld, List.append_nil, hused, window_pop hdirty, hskb] at hp
    have hkeep : window size (next size s.txDirtyDesc) (size - (s.txDescCount + 1))
        (Function.update s.txSkb s.txDirtyDesc none) =
        window size (next size s.txDirtyDesc) (size - (s.txDescCount + 1)) s.txSkb := by
      apply window_congr (next_lt hdirty) (Nat.sub_le _ _)
      intro i hi hdist
      exact Function.update_of_ne ((dist_pop hdirty hi (by omega)).mp hdist).2 _ _
    show (s.freed ++ [skb]).map some ++ window size (next size s.txDirtyDesc) (size - (s.txDescCount + 1)) _ = _
    rw [hkeep, List.map_append, List.append_assoc]
    exact hp
  · exact h.done
  · intro i hi p
    show Function.update s.txSkb s.txDirtyDesc none i = some p → _
    by_cases hid : i = s.txDirtyDesc
    · simp [hid]
    · simpa [hid] using h.handed i hi p
  · intro force' released' p hfree
    have hfree : Reclaim.free force released skb = .free force' released' p := hfree
    cases hfree
    -- the owner bit was tested, unless the reclaim is forced
    cases force with
    | true => exact Or.inl rfl
    | false =>
      rw [Bool.not_false, Bool.true_and, Bool.not_eq_true] at howner
      exact Or.inr (h.handed s.txDirtyDesc hdirty skb hskb howner)
  · intro force' released' hlock'
    cases hlock'
  · exact h.sound

theorem reclaimFree_inv (h : TxInv size s) {force : Bool} {released skb : ℕ}
    (hfree : s.reclaim = .free force released skb) :
    TxInv size { s with
      freed := s.freed ++ [skb], forced := if force then s.forced ++ [skb] else s.forced
      reclaim := .test force (released + 1) } := by
  refine { h with packets := ?_, done := ?_, holding := ?_, locked := ?_ }
  · have hp := h.packets
    rw [TxRing.packets, hfree] at hp
    show (s.freed ++ [skb] ++ []).map some ++ _ = _
    rw [List.append_nil]
    exact hp
  · intro p hp
    show p ∈ (if force then s.forced ++ [skb] else s.forced) ∨ p ∈ s.released
    obtain hold | hnew := List.mem_append.mp hp
    · obtain hf | hr := h.done p hold
      · left
        split
        · exact List.mem_append_left _ hf
        · exact hf
      · exact Or.inr hr
    · rw [List.mem_singleton] at hnew
      obtain hf | hr := h.holding force released skb hfree
      · left
        rw [hf, hnew]
        simp
      · exact Or.inr (hnew ▸ hr)
  · intro force' released' p hpc
    cases hpc
  · intro force' released' hpc
    cases hpc

theorem reclaimStep_inv (h : TxInv size s) : TxInv size (reclaimStep size s) := by
  unfold reclaimStep
  split
  · exact h
  next force released hpc =>
    apply h.of_reclaim (by rw [hpc]; rfl)
    · split <;> rfl
    · intro force' released' he
      split at he
      · assumption
      · cases he
  next force released hpc => exact reclaimLocked_inv h hpc
  next force released skb hpc => exact reclaimFree_inv h hpc
  next released hpc =>
    apply h.of_reclaim (by rw [hpc]; rfl)
    · split <;> rfl
    · intro force' released' he
      split at he <;> cases he
  next hpc =>
    have hidle := @TxInv.of_reclaim size s h .idle (by rw [hpc]; rfl) rfl (by simp)
    exact { hidle with }

theorem txStep_inv (h : TxInv size s) (op : TxOp) : TxInv size (txStep size s op) := by
  cases op with
  | startXmit len => exact startXmit_inv h len
  | reclaimStep => exact reclaimStep_inv h
  | dmaSend => exact dmaSend_inv h
  | txReclaim force =>
    show TxInv size (if s.reclaim = .idle then { s with reclaim := .test force 0 } else s)
    split
    next hidle => exact h.of_reclaim (by rw [hidle]; rfl) rfl (by simp)
    · exact h

/-! ## The forced reclaim -/

theorem runSteps_idle (hidle : s.reclaim = .idle) (n : ℕ) :
    runSteps (txStep size) s (List.replicate n .reclaimStep) = s := by
  induction n with
  | zero => rfl
  | succ n ih =>
    have hstep : txStep size s .reclaimStep = s := by
      rw [txStep, reclaimStep, hidle]
    rw [List.replicate_succ, runSteps_cons, hstep, ih]

/-- The state at the end of a forced reclaim: the ring is empty, and nothing was accepted since `s`. -/
structure Emptied (size : ℕ) (s t : TxRing) : Prop where
  idle : t.reclaim = .idle
  count : t.txDescCount = size
  accepted : t.accepted = s.accepted

/-- Behind the last packet the call ends, with or without a wake-up. -/
theorem forced_end {released : ℕ} (hpc : s.reclaim = .test true released) (hcount : s.txDescCount = size) (n : ℕ) :
    Emptied size s (runSteps (txStep size) s (List.replicate (n + 3) .reclaimStep)) := by
  have htest : txStep size s .reclaimStep = { s with reclaim := .testStopped released } := by
    simp only [txStep, reclaimStep, hpc, hcount, lt_irrefl, if_false]
  rw [List.replicate_succ, runSteps_cons, htest, List.replicate_succ, runSteps_cons]
  by_cases hwake : s.stopped = true ∧ released ≠ 0
  · have hnext : txStep size { s with reclaim := .testStopped released } .reclaimStep = { s with reclaim := .wake } := by
      simp only [txStep, reclaimStep, if_pos hwake]
    rw [hnext, List.replicate_succ, runSteps_cons]
    show Emptied size s (runSteps (txStep size) { s with stopped := false, reclaim := .idle } _)
    rw [runSteps_idle rfl]
    exact ⟨rfl, hcount, rfl⟩
  · have hnext : txStep size { s with reclaim := .testStopped released } .reclaimStep = { s with reclaim := .idle } := by
      simp only [txStep, reclaimStep, if_neg hwake]
    rw [hnext, runSteps_idle rfl]
    exact ⟨rfl, hcount, rfl⟩

/-- One round takes the oldest packet out of the ring and frees it. -/
theorem forced_round (h : TxInv size s) {released : ℕ} (hpc : s.reclaim = .test true released)
    (hlt : s.txDescCount < size) :
    ∃ t, runSteps (txStep size) s (List.replicate 3 .reclaimStep) = t ∧ TxInv size t ∧
      t.reclaim = .test true (released + 1) ∧ t.txDescCount = s.txDescCount + 1 ∧ t.accepted = s.accepted := by
  obtain ⟨skb, hskb⟩ := h.oldest hlt
  have hinv : TxInv size (runSteps (txStep size) s (List.replicate 3 .reclaimStep)) :=
    run_preserves (TxInv size) _ (fun s op hs => txStep_inv hs op) h
  refine ⟨_, rfl, hinv, ?_, ?_, ?_⟩ <;>
    simp only [List.replicate_succ, List.replicate_zero, runSteps_cons, runSteps_nil, txStep, reclaimStep, hpc, hlt,
      if_true, reclaimLocked, Bool.not_true, Bool.false_and, Bool.false_eq_true, if_false, hskb]

theorem forced_run (h : TxInv size s) {m released : ℕ} (hpc : s.reclaim = .test true released)
    (hm : size - s.txDescCount = m) (n : ℕ) :
    Emptied size s (runSteps (txStep size) s (List.replicate (3 * m + 3 + n) .reclaimStep)) := by
  induction m generalizing s released with
  | zero =>
    have hle := h.count_le
    have he : 3 * 0 + 3 + n = n + 3 := by omega
    rw [he]
    exact forced_end hpc (by omega) n
  | succ m ih =>
    obtain ⟨t, hrun, hinv, htest, hcount, haccepted⟩ := forced_round h hpc (by omega)
    have he : 3 * (m + 1) + 3 + n = 3 + (3 * m + 3 + n) := by omega
    rw [he, List.replicate_add, runSteps_append, hrun]
    obtain ⟨hidle, hfull, hsame⟩ := ih hinv htest (by omega)
    exact ⟨hidle, hfull, hsame.trans haccepted⟩

theorem txStop_frees (h : TxInv size s) (hidle : s.reclaim = .idle) :
    (runSteps (txStep size) s (txStop size)).freed = List.range s.accepted := by
  have hcall : txStep size s (.txReclaim true) = { s with reclaim := .test true 0 } := by
    simp only [txStep, hidle, if_true]
  have hinv := txStep_inv h (.txReclaim true)
  rw [hcall] at hinv
  have hsteps : 3 * size + 3 = 3 * (size - s.txDescCount) + 3 + 3 * s.txDescCount := by
    have hle := h.count_le
    omega
  have hend : Emptied size { s with reclaim := .test true 0 } (runSteps (txStep size) s (txStop size)) := by
    rw [txStop, runSteps_cons, hcall, hsteps]
    exact forced_run hinv rfl rfl _
  have hlast : TxInv size (runSteps (txStep size) s (txStop size)) :=
    run_preserves (TxInv size) _ (fun s op hs => txStep_inv hs op) h
  have hpackets := hlast.packets
  have hheld : Reclaim.idle.held = [] := rfl
  rw [TxRing.packets, hend.idle, hend.count, hend.accepted, Nat.sub_self, window_zero, hheld, List.append_nil,
    List.append_nil] at hpackets
  exact List.map_injective_iff.mpr (Option.some_injective _) hpackets

end Ring

/-- In every order of calls, rounds and completions the ring holds the packets that were accepted and not yet freed,
no slot of them is overwritten, and packets are freed once, in order, when the hardware is done with them or by
force; stopping the device frees all. -/
theorem bcm_enet_tx_accounting (size : ℕ) (hsize : 0 < size) (ops : List TxOp) :
    TxAccounted size (runSteps (txStep size) (txOpen size) ops) ∧
      ((runSteps (txStep size) (txOpen size) ops).reclaim = .idle →
        (runSteps (txStep size) (txOpen size) (ops ++ txStop size)).freed =
          List.range (runSteps (txStep size) (txOpen size) ops).accepted) := by
  have hinv : TxInv size (runSteps (txStep size) (txOpen size) ops) :=
    run_preserves (TxInv size) ops (fun s op hs => txStep_inv hs op) (txOpen_inv hsize)
  refine ⟨hinv.accounted, fun hidle => ?_⟩
  rw [runSteps_append]
  exact txStop_frees hinv hidle

/-- A ring of one slot: a packet is sent and reclaimed, a second one is still in the ring. -/
theorem bcm_enet_tx_accounting_one :
    TxAccounted 1 (runSteps (txStep 1) (txOpen 1)
      [.startXmit 60, .dmaSend, .txReclaim false, .reclaimStep, .reclaimStep, .reclaimStep, .startXmit 1514]) :=
  (bcm_enet_tx_accounting 1 (by norm_num) _).1

end Neufbox.Enet
