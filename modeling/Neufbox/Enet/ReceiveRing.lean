import Neufbox.Enet.Receive

/-! # The frames in the receive ring

The ring keeps its account as long as no poll runs while it is empty: the loop of `bcm_enet_receive_queue` looks at a
descriptor before it tests its budget, and in an empty ring that is one which was processed before. -/
namespace Neufbox.Enet
open RunAlong Neufbox.Ring
set_option autoImplicit false
set_option maxHeartbeats 250000
set_option maxRecDepth 120000

/-! ## Statements -/

/-- The account of the ring: the descriptors armed and not yet processed are the `rxDescCount` ones from
`rxCurrDesc` on, each with a buffer; frames are delivered once; no pending timer is added. -/
structure RxAccounted (size : ℕ) (s : RxRing) : Prop where
  nonneg : 0 ≤ s.rxDescCount
  le_size : s.rxDescCount ≤ size
  armed : ∀ i < size, s.armed i = true ↔ ∃ k < s.rxDescCount.toNat, i = (s.rxCurrDesc + k) % size
  buffers : ∀ i < size, s.armed i = true → s.rxSkb i = true
  dirty : s.rxDirtyDesc = (s.rxCurrDesc + s.rxDescCount.toNat) % size
  once : s.delivered.Nodup
  timer : s.addedPending = false

/-- No poll runs while the ring is empty. -/
def PollsArmed (s : RxRing) : RxOp → Prop
  | .poll _ _ _ _ => s.rxDescCount ≠ 0
  | _ => True

instance PollsArmed.decidable (s : RxRing) : ∀ op, Decidable (PollsArmed s op)
  | .poll _ _ _ _ => inferInstanceAs (Decidable (_ ≠ _))
  | .dma _ => isTrue trivial
  | .timer _ _ => isTrue trivial

/-- The ring while `n` descriptors are armed. A descriptor that the hardware released has a frame of its own, which
was not delivered. -/
structure RxCore (size n : ℕ) (s : RxRing) : Prop where
  count : s.rxDescCount = n
  le_size : n ≤ size
  curr_lt : s.rxCurrDesc < size ∨ size = 0
  dirty : s.rxDirtyDesc = (s.rxCurrDesc + n) % size
  armed : ∀ i < size, s.armed i = true ↔ dist size s.rxCurrDesc i < n
  buffers : ∀ i < size, s.armed i = true → s.rxSkb i = true
  unarmed : ∀ i < size, s.armed i = false → owned (s.rxDesc i) = false
  fresh : ∀ i < size, s.armed i = true → owned (s.rxDesc i) = false → s.frame i < s.frames ∧ s.frame i ∉ s.delivered
  distinct : ∀ i < size, ∀ j < size, s.armed i = true → s.armed j = true → owned (s.rxDesc i) = false →
    owned (s.rxDesc j) = false → s.frame i = s.frame j → i = j
  known : ∀ p ∈ s.delivered, p < s.frames
  once : s.delivered.Nodup
  sound : s.oops = false

/-- Between the operations a pending timer means an empty ring. -/
structure RxInv (size : ℕ) (s : RxRing) : Prop where
  core : ∃ n, RxCore size n s
  pending : s.timerPending = true → s.rxDescCount = 0
  timer : s.addedPending = false

section Ring
variable {size copybreak n : ℕ} {s : RxRing}

theorem RxInv.accounted (h : RxInv size s) : RxAccounted size s := by
  obtain ⟨n, hc⟩ := h.core
  have hn : s.rxDescCount.toNat = n := by rw [hc.count, Int.toNat_natCast]
  refine ⟨?_, ?_, ?_, hc.buffers, ?_, hc.once, h.timer⟩
  · rw [hc.count]
    omega
  · rw [hc.count]
    exact_mod_cast hc.le_size
  · intro i hi
    obtain hlt | hzero := hc.curr_lt
    · rw [hn, hc.armed i hi, exists_slot_iff hlt hi hc.le_size]
    · omega
  · rw [hn]
    exact hc.dirty

/-! ## Hardware -/

theorem dmaReceive_core (h : RxCore size n s) (c : Completion) : RxCore size n (dmaReceive size s c) := by
  unfold dmaReceive
  split
  swap
  · exact h
  refine { h with unarmed := ?_, fresh := ?_, distinct := ?_, known := ?_ }
  · intro i hi ha
    show owned (Function.update s.rxDesc s.dmaNext c.lenStat i) = false
    by_cases hid : i = s.dmaNext
    · rw [hid, Function.update_self]
      exact c.released
    · rw [Function.update_of_ne hid]
      exact h.unarmed i hi ha
  · intro i hi ha
    show owned (Function.update s.rxDesc s.dmaNext c.lenStat i) = false →
      Function.update s.frame s.dmaNext s.frames i < s.frames + 1 ∧
        Function.update s.frame s.dmaNext s.frames i ∉ s.delivered
    by_cases hid : i = s.dmaNext
    · intro _
      rw [hid, Function.update_self]
      exact ⟨Nat.lt_succ_self _, fun hmem => absurd (h.known _ hmem) (lt_irrefl _)⟩
    · rw [Function.update_of_ne hid, Function.update_of_ne hid]
      intro ho
      have hf := h.fresh i hi ha ho
      exact ⟨Nat.lt_succ_of_lt hf.1, hf.2⟩
  · intro i hi j hj hai haj
    show owned (Function.update s.rxDesc s.dmaNext c.lenStat i) = false →
      owned (Function.update s.rxDesc s.dmaNext c.lenStat j) = false →
        Function.update s.frame s.dmaNext s.frames i = Function.update s.frame s.dmaNext s.frames j → i = j
    by_cases hid : i = s.dmaNext
    · by_cases hjd : j = s.dmaNext
      · exact fun _ _ _ => hid.trans hjd.symm
      · rw [hid, Function.update_self, Function.update_self, Function.update_of_ne hjd, Function.update_of_ne hjd]
        intro _ hoj he
        have hf := (h.fresh j hj haj hoj).1
        omega
    · by_cases hjd : j = s.dmaNext
      · rw [hjd, Function.update_self, Function.update_self, Function.update_of_ne hid, Function.update_of_ne hid]
        intro hoi _ he
        have hf := (h.fresh i hi hai hoi).1
        omega
      · rw [Function.update_of_ne hid, Function.update_of_ne hjd, Function.update_of_ne hid, Function.update_of_ne hjd]
        exact h.distinct i hi j hj hai haj
  · intro p hp
    exact Nat.lt_succ_of_lt (h.known p hp)

theorem dmaReceive_timer (s : RxRing) (c : Completion) :
    (dmaReceive size s c).timerPending = s.timerPending ∧ (dmaReceive size s c).addedPending = s.addedPending := by
  unfold dmaReceive
  split
  · exact ⟨rfl, rfl⟩
  · exact ⟨rfl, rfl⟩

/-- What the loops keep: the account, and the timer as it is. -/
structure RxKept (size : ℕ) (s t : RxRing) : Prop where
  core : ∃ n, RxCore size n t
  pending : t.timerPending = s.timerPending
  timer : t.addedPending = s.addedPending

theorem dma_core (h : RxCore size n s) (cs : List Completion) :
    RxCore size n (cs.foldl (dmaReceive size) s) ∧
      (cs.foldl (dmaReceive size) s).timerPending = s.timerPending ∧
      (cs.foldl (dmaReceive size) s).addedPending = s.addedPending := by
  induction cs generalizing s with
  | nil => exact ⟨h, rfl, rfl⟩
  | cons c cs ih =>
    obtain ⟨hcore, hpending, htimer⟩ := ih (dmaReceive_core h c)
    obtain ⟨hp, ht⟩ := @dmaReceive_timer size s c
    exact ⟨hcore, hpending.trans hp, htimer.trans ht⟩

/-! ## Refill -/

theorem owned_armLenStat (last : Bool) : owned (armLenStat last) = true := by
  cases last <;> decide

theorem armDesc_core (h : RxCore size n s) (hn : n < size) : RxCore size (n + 1) (armDesc size s) := by
  have hcurr : s.rxCurrDesc < size := by
    obtain hlt | hzero := h.curr_lt <;> omega
  have hdirty := h.dirty
  have hown : ∀ i, owned (Function.update s.rxDesc s.rxDirtyDesc (armLenStat (s.rxDirtyDesc + 1 = size)) i) = false →
      i ≠ s.rxDirtyDesc := by
    intro i ho hid
    rw [hid, Function.update_self, owned_armLenStat] at ho
    cases ho
  constructor
  · show s.rxDescCount + 1 = ((n + 1 : ℕ) : ℤ)
    rw [h.count]
    rfl
  · exact hn
  · exact Or.inl hcurr
  · show next size s.rxDirtyDesc = (s.rxCurrDesc + (n + 1)) % size
    rw [hdirty, next_add_mod (by omega)]
  · intro i hi
    show Function.update s.armed s.rxDirtyDesc true i = true ↔ dist size s.rxCurrDesc i < n + 1
    rw [dist_push hcurr hi hn, ← hdirty]
    by_cases hid : i = s.rxDirtyDesc
    · simp [hid]
    · simp [hid, h.armed i hi]
  · intro i hi
    show Function.update s.armed s.rxDirtyDesc true i = true → Function.update s.rxSkb s.rxDirtyDesc true i = true
    by_cases hid : i = s.rxDirtyDesc
    · simp [hid]
    · simpa [hid] using h.buffers i hi
  · intro i hi
    show Function.update s.armed s.rxDirtyDesc true i = false → owned (Function.update s.rxDesc s.rxDirtyDesc _ i) = false
    by_cases hid : i = s.rxDirtyDesc
    · simp [hid]
    · simpa [hid] using h.unarmed i hi
  · intro i hi ha ho
    have hid := hown i ho
    have ha : Function.update s.armed s.rxDirtyDesc true i = true := ha
    have ho : owned (Function.update s.rxDesc s.rxDirtyDesc _ i) = false := ho
    rw [Function.update_of_ne hid] at ha ho
    exact h.fresh i hi ha ho
  · intro i hi j hj hai haj hoi hoj
    have hid := hown i hoi
    have hjd := hown j hoj
    have hai : Function.update s.armed s.rxDirtyDesc true i = true := hai
    have haj : Function.update s.armed s.rxDirtyDesc true j = true := haj
    have hoi : owned (Function.update s.rxDesc s.rxDirtyDesc _ i) = false := hoi
    have hoj : owned (Function.update s.rxDesc s.rxDirtyDesc _ j) = false := hoj
    rw [Function.update_of_ne hid] at hai hoi
    rw [Function.update_of_ne hjd] at haj hoj
    exact h.distinct i hi j hj hai haj hoi hoj
  · exact h.known
  · exact h.once
  · exact h.sound

theorem refillLoop_kept (h : RxCore size n s) (k : ℕ) (ticks : List RefillTick) :
    RxKept size s (refillLoop size k ticks s) := by
  induction k generalizing n s ticks with
  | zero => exact ⟨⟨n, h⟩, rfl, rfl⟩
  | succ k ih =>
    unfold refillLoop
    dsimp only
    split
    next hlt =>
      split
      · exact ⟨⟨n, h⟩, rfl, rfl⟩
      · rw [h.count] at hlt
        have harm := armDesc_core h (by exact_mod_cast hlt)
        obtain ⟨hcore, hpending, htimer⟩ := dma_core harm (ticks.headD ⟨false, []⟩).dma
        obtain ⟨hres, hp, ht⟩ := ih hcore ticks.tail
        exact ⟨hres, hp.trans hpending, ht.trans htimer⟩
    · exact ⟨⟨n, h⟩, rfl, rfl⟩

/-- A refill without a pending timer. -/
theorem refillRx_inv (h : RxCore size n s) (hpending : s.timerPending = false) (htimer : s.addedPending = false)
    (running : Bool) (ticks : List RefillTick) : RxInv size (refillRx size running ticks s) := by
  obtain ⟨⟨m, hcore⟩, hp, ht⟩ := refillLoop_kept h (size - s.rxDescCount).toNat ticks
  rw [hpending] at hp
  rw [htimer] at ht
  unfold refillRx
  dsimp only
  split
  next hzero =>
    refine ⟨⟨m, { hcore with }⟩, fun _ => hzero.1, ?_⟩
    show (_ || _) = false
    rw [hp, ht]
    rfl
  · exact ⟨⟨m, hcore⟩, fun hpend => absurd (hp.symm.trans hpend) (by simp), ht⟩

/-! ## Receive -/

/-- The frame of the first armed descriptor is new, and then known. -/
theorem RxCore.deliver_core {i : ℕ} (h : RxCore size n s) (hi : i < size) (hskb : s.rxSkb i = true)
    (hout : s.armed i = false) (hlt : s.frame i < s.frames) (hnew : s.frame i ∉ s.delivered)
    (hown : ∀ j < size, s.armed j = true → owned (s.rxDesc j) = false → s.frame j ≠ s.frame i) (drop : Bool) :
    RxCore size n { s with
      delivered := s.delivered ++ [s.frame i]
      rxSkb := if drop then Function.update s.rxSkb i false else s.rxSkb } := by
  refine { h with buffers := ?_, fresh := ?_, known := ?_, once := ?_ }
  · intro j hj ha
    have ha : s.armed j = true := ha
    have hji : j ≠ i := by
      rintro rfl
      rw [hout] at ha
      cases ha
    show (if drop then Function.update s.rxSkb i false else s.rxSkb) j = true
    split
    · rw [Function.update_of_ne hji]
      exact h.buffers j hj ha
    · exact h.buffers j hj ha
  · intro j hj ha ho
    refine ⟨(h.fresh j hj ha ho).1, ?_⟩
    show s.frame j ∉ s.delivered ++ [s.frame i]
    rw [List.mem_append, List.mem_singleton, not_or]
    exact ⟨(h.fresh j hj ha ho).2, hown j hj ha ho⟩
  · intro p hp
    obtain hold | hp := List.mem_append.mp hp
    · exact h.known p hold
    · rw [List.mem_singleton.mp hp]
      exact hlt
  · show (s.delivered ++ [s.frame i]).Nodup
    rw [List.nodup_append]
    refine ⟨h.once, List.nodup_singleton _, ?_⟩
    intro a ha b hb
    rw [List.mem_singleton] at hb
    rintro rfl
    exact hnew (hb ▸ ha)

/-- The first armed descriptor is processed: it is armed no more. -/
theorem process_core (h : RxCore size (n + 1) s) (howned : owned (s.rxDesc s.rxCurrDesc) = false) :
    RxCore size n { s with
      rxCurrDesc := next size s.rxCurrDesc
      rxDescCount := s.rxDescCount - 1
      armed := Function.update s.armed s.rxCurrDesc false } := by
  have hle := h.le_size
  have hcurr : s.rxCurrDesc < size := by
    obtain hlt | hzero := h.curr_lt <;> omega
  have harmed : ∀ i, Function.update s.armed s.rxCurrDesc false i = true → s.armed i = true := by
    intro i
    by_cases hic : i = s.rxCurrDesc
    · simp [hic]
    · simp [hic]
  constructor
  · show s.rxDescCount - 1 = (n : ℤ)
    rw [h.count]
    push_cast
    ring
  · omega
  · exact Or.inl (next_lt hcurr)
  · show s.rxDirtyDesc = (next size s.rxCurrDesc + n) % size
    rw [h.dirty, add_next_mod hcurr]
  · intro i hi
    show Function.update s.armed s.rxCurrDesc false i = true ↔ dist size (next size s.rxCurrDesc) i < n
    rw [dist_pop hcurr hi (by omega), ← h.armed i hi]
    by_cases hic : i = s.rxCurrDesc
    · simp [hic]
    · simp [hic]
  · exact fun i hi ha => h.buffers i hi (harmed i ha)
  · intro i hi
    show Function.update s.armed s.rxCurrDesc false i = false → owned (s.rxDesc i) = false
    by_cases hic : i = s.rxCurrDesc
    · simp [hic, howned]
    · simpa [hic] using h.unarmed i hi
  · exact fun i hi ha => h.fresh i hi (harmed i ha)
  · exact fun i hi j hj hai haj => h.distinct i hi j hj (harmed i hai) (harmed j haj)
  · exact h.known
  · exact h.once
  · exact h.sound

theorem receiveDesc_core (h : RxCore size (n + 1) s) (howned : owned (s.rxDesc s.rxCurrDesc) = false) (alloc : Bool) :
    RxCore size n (receiveDesc size copybreak alloc s) := by
  have hle := h.le_size
  have hcurr : s.rxCurrDesc < size := by
    obtain hlt | hzero := h.curr_lt <;> omega
  have hfirst : s.armed s.rxCurrDesc = true := by
    rw [h.armed _ hcurr, dist_self]
    omega
  have hskb := h.buffers _ hcurr hfirst
  have hprocess := process_core h howned
  -- the frame delivered, where one is
  have hdeliver := fun drop => hprocess.deliver_core hcurr hskb (Function.update_self _ _ _)
    (h.fresh _ hcurr hfirst howned).1 (h.fresh _ hcurr hfirst howned).2
    (by
      intro j hj ha ho he
      have ha : Function.update s.armed s.rxCurrDesc false j = true := ha
      by_cases hjc : j = s.rxCurrDesc
      · simp [hjc] at ha
      · rw [Function.update_of_ne hjc] at ha
        exact hjc (h.distinct j hj _ hcurr ha hfirst ho howned he)) drop
  unfold receiveDesc deliver
  dsimp only
  simp only [hskb, Bool.true_eq_false, if_false]
  split
  · exact hprocess
  · split
    · exact hprocess
    · split
      · split
        · exact hdeliver false
        · exact hprocess
      · exact hdeliver true

theorem receiveDesc_timer (alloc : Bool) (s : RxRing) :
    (receiveDesc size copybreak alloc s).timerPending = s.timerPending ∧
      (receiveDesc size copybreak alloc s).addedPending = s.addedPending := by
  unfold receiveDesc deliver
  dsimp only
  split_ifs <;> exact ⟨rfl, rfl⟩

theorem receiveLoop_kept (h : RxCore size n s) {k : ℕ} (hk : k ≤ n) (ticks : List ReceiveTick) (processed : ℕ) :
    RxKept size s (receiveLoop size copybreak k ticks s processed).1 := by
  induction k generalizing n s ticks processed with
  | zero => exact ⟨⟨n, h⟩, rfl, rfl⟩
  | succ k ih =>
    obtain ⟨hcore, hpending, htimer⟩ := dma_core h (ticks.headD ⟨[], false⟩).dma
    unfold receiveLoop
    dsimp only
    generalize (ticks.headD ⟨[], false⟩).dma.foldl (dmaReceive size) s = t at hcore hpending htimer ⊢
    split
    · exact ⟨⟨n, hcore⟩, hpending, htimer⟩
    next howned =>
      obtain ⟨m, rfl⟩ : ∃ m, n = m + 1 := ⟨n - 1, by omega⟩
      have hone := @receiveDesc_core size copybreak m t hcore (by simpa using howned)
        (ticks.headD ⟨[], false⟩).alloc
      obtain ⟨hp, ht⟩ := @receiveDesc_timer size copybreak (ticks.headD ⟨[], false⟩).alloc t
      obtain ⟨hres, hp', ht'⟩ := ih hone (by omega) ticks.tail (processed + 1)
      exact ⟨hres, (hp'.trans hp).trans hpending, (ht'.trans ht).trans htimer⟩

theorem receiveQueue_inv (h : RxInv size s) (harmed : s.rxDescCount ≠ 0) (budget : ℕ) (running : Bool)
    (rx : List ReceiveTick) (refill : List RefillTick) :
    RxInv size (receiveQueue size copybreak budget running rx refill s) := by
  obtain ⟨n, hcore⟩ := h.core
  have hpending : s.timerPending = false := by
    by_contra hp
    exact harmed (h.pending (by simpa using hp))
  have hcount := hcore.count
  have hrounds : rounds budget s.rxDescCount ≤ n := by
    rw [rounds, hcount]
    omega
  obtain ⟨⟨m, hloop⟩, hp, ht⟩ := @receiveLoop_kept size copybreak n s hcore _ hrounds rx 0
  rw [hpending] at hp
  rw [h.timer] at ht
  unfold receiveQueue
  dsimp only
  split
  · exact refillRx_inv hloop hp ht running refill
  · exact ⟨⟨m, hloop⟩, fun hpend => absurd (hp.symm.trans hpend) (by simp), ht⟩

theorem dmaReceive_inv (h : RxInv size s) (c : Completion) : RxInv size (dmaReceive size s c) := by
  obtain ⟨n, hcore⟩ := h.core
  obtain ⟨hp, ht⟩ := @dmaReceive_timer size s c
  have hnew := dmaReceive_core hcore c
  refine ⟨⟨n, hnew⟩, fun hpend => ?_, ht.trans h.timer⟩
  rw [hnew.count, ← hcore.count]
  exact h.pending (hp.symm.trans hpend)

theorem refillRxTimer_inv (h : RxInv size s) (running : Bool) (ticks : List RefillTick) :
    RxInv size (refillRxTimer size running ticks s) := by
  obtain ⟨n, hcore⟩ := h.core
  have hcore' : RxCore size n { s with timerPending := false } := { hcore with }
  exact refillRx_inv hcore' rfl h.timer running ticks

theorem rxStep_inv (h : RxInv size s) {op : RxOp} (hop : PollsArmed s op) : RxInv size (rxStep size copybreak s op) := by
  cases op with
  | dma c => exact dmaReceive_inv h c
  | poll budget running rx refill => exact receiveQueue_inv h hop budget running rx refill
  | timer running ticks => exact refillRxTimer_inv h running ticks

theorem rxOpen_inv (size : ℕ) (running : Bool) (ticks : List RefillTick) : RxInv size (rxOpen size running ticks) := by
  refine @refillRx_inv size 0 _ ?_ rfl rfl running ticks
  constructor
  · rfl
  · exact Nat.zero_le _
  · show 0 < size ∨ size = 0
    omega
  · simp
  · simp
  · simp
  · simp [owned]
  · simp
  · simp
  · simp
  · exact List.nodup_nil
  · rfl

/-- A poll of an empty ring goes on to a descriptor that is not armed, and the count gets negative. -/
theorem receiveLoop_empty (hsize : 0 < size) (h : RxCore size 0 s) (budget : ℕ) (ticks : List ReceiveTick) :
    receiveLoop size copybreak (rounds budget s.rxDescCount) ticks s 0 =
      (receiveDesc size copybreak (ticks.headD ⟨[], false⟩).alloc
        ((ticks.headD ⟨[], false⟩).dma.foldl (dmaReceive size) s), 1) ∧
    (receiveLoop size copybreak (rounds budget s.rxDescCount) ticks s 0).1.rxDescCount = -1 := by
  have hone : rounds budget s.rxDescCount = 1 := by
    rw [rounds, h.count]
    omega
  obtain ⟨hcore, -, -⟩ := dma_core h (ticks.headD ⟨[], false⟩).dma
  generalize ht : (ticks.headD ⟨[], false⟩).dma.foldl (dmaReceive size) s = t at hcore ⊢
  have hcurr : t.rxCurrDesc < size := by
    obtain hlt | hzero := hcore.curr_lt <;> omega
  have hfree : owned (t.rxDesc t.rxCurrDesc) = false := by
    apply hcore.unarmed _ hcurr
    rw [← Bool.not_eq_true, hcore.armed _ hcurr]
    omega
  have hloop : receiveLoop size copybreak (rounds budget s.rxDescCount) ticks s 0 =
      (receiveDesc size copybreak (ticks.headD ⟨[], false⟩).alloc t, 1) := by
    rw [hone, receiveLoop]
    rw [ht, hfree]
    rfl
  refine ⟨hloop, ?_⟩
  have hcount : (receiveDesc size copybreak (ticks.headD ⟨[], false⟩).alloc t).rxDescCount = t.rxDescCount - 1 := by
    unfold receiveDesc deliver
    dsimp only
    split_ifs <;> rfl
  rw [hloop, hcount, hcore.count]
  rfl

end Ring

/-- In every sequence of receptions, polls and timer runs without a poll of the empty ring the account holds. -/
theorem bcm_enet_rx_accounting (size copybreak : ℕ) (running : Bool) (ticks : List RefillTick) (ops : List RxOp)
    (harmed : Along (rxStep size copybreak) PollsArmed (rxOpen size running ticks) ops) :
    RxAccounted size (runSteps (rxStep size copybreak) (rxOpen size running ticks) ops) := by
  have hinv : RxInv size (runSteps (rxStep size copybreak) (rxOpen size running ticks) ops) :=
    Along.preserves (fun s op h hop => rxStep_inv h hop) (rxOpen_inv size running ticks) harmed
  exact hinv.accounted

/-- A frame of 64 bytes. -/
def smallFrame : Completion := ⟨64 <<< dmadescLengthShift ||| dmadescEsopMask, by decide⟩

/-- Two descriptors are armed, a frame comes in and is copied, and its descriptor is armed again. -/
theorem bcm_enet_rx_accounting_copy :
    RxAccounted 2 (runSteps (rxStep 2 128) (rxOpen 2 true [⟨true, []⟩, ⟨true, []⟩])
      [.dma smallFrame, .poll 64 true [⟨[], true⟩] []]) :=
  bcm_enet_rx_accounting 2 128 true _ _ (by decide)

/-- There was no memory when the device was opened, and a sent packet makes it poll before there is. -/
theorem bcm_enet_rx_polls_empty_ring :
    Along (rxStep 2 128) RxLegal (rxOpen 2 true []) [.poll 64 true [] []] ∧
      ¬ RxAccounted 2 (runSteps (rxStep 2 128) (rxOpen 2 true []) [.poll 64 true [] []]) := by
  refine ⟨⟨by unfold RxLegal; decide, trivial⟩, ?_⟩
  intro h
  exact absurd h.nonneg (by decide)

end Neufbox.Enet
