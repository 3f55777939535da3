import Neufbox.RingBuffer.RetainedLog

/-! # When a read returns exactly what is still in the log

`ring_buffer_read` never compares the cursor `pos` with the retained part `out .. in`. `ReadExact`
is what a reader may expect of one read, and `ReadCondition` is where the code delivers it: the
cursor has to lie in the retained part, apart from reads that come out empty by accident of the
32-bit arithmetic. Writes and resets move `out` and `in` without the cursor, so the condition can
fail in reachable states.

Positions are 64-bit counters that wrap; a position is at or after the cursor when it is less than
`2 ^ 63` ahead of it. -/
namespace Neufbox.RingBuffer
open WrapArith ByteStore RunAlong
set_option autoImplicit false
set_option maxHeartbeats 250000
set_option maxRecDepth 120000

/-! ## What a read should return -/

def streamByte (dev : RingBufferDevice) (log : List UInt8) (q : ℕ) : Option UInt8 :=
  (retained dev.size log)[wrapSub 64 q dev.outPos]?

/-- The number of retained stream positions at or after the cursor. -/
def retainedAfter (dev : RingBufferDevice) : ℕ :=
  ((List.range (wrapSub 64 dev.inPos dev.outPos)).filter fun i =>
    wrapSub 64 (dev.outPos + i) dev.pos < 2 ^ 63).length

/-- A read of `count` bytes stays inside the buffer and returns the retained bytes at the stream
positions from the cursor on. -/
structure ReadExact (s : System) (log : List UInt8) (f count : ℕ) : Prop where
  inside : ∀ i ∈ (ringBufferGet s.dev count).touched, i < s.dev.size
  ret : (exec s (.read f count)).2.bytes.length = min count (retainedAfter s.dev)
  bytes : ∀ j < (exec s (.read f count)).2.bytes.length,
    ∃ b, streamByte s.dev log ((s.dev.pos + j) % 2 ^ 64) = some b ∧
      (exec s (.read f count)).2.bytes[j]? = some (some b)

def CursorInWindow (dev : RingBufferDevice) : Prop :=
  wrapSub 64 dev.pos dev.outPos ≤ wrapSub 64 dev.inPos dev.outPos

/-- Nothing is asked for, or the cursor is in the retained part, or nothing retained is at or after
the cursor and the cursor agrees with `in` in its low 32 bits. -/
def ReadCondition (dev : RingBufferDevice) (count : ℕ) : Prop :=
  count = 0 ∨ CursorInWindow dev ∨
    (retainedAfter dev = 0 ∧ dev.pos % 2 ^ 32 = dev.inPos % 2 ^ 32)

instance (dev : RingBufferDevice) : Decidable (CursorInWindow dev) :=
  inferInstanceAs (Decidable (wrapSub 64 dev.pos dev.outPos ≤ wrapSub 64 dev.inPos dev.outPos))

instance (dev : RingBufferDevice) (count : ℕ) : Decidable (ReadCondition dev count) :=
  inferInstanceAs (Decidable (count = 0 ∨ CursorInWindow dev ∨
    (retainedAfter dev = 0 ∧ dev.pos % 2 ^ 32 = dev.inPos % 2 ^ 32)))

/-! ## Counting the retained positions -/

theorem range_filter_ge (n k : ℕ) :
    ((List.range n).filter fun i => decide (k ≤ i)).length = n - k := by
  induction n with
  | zero => simp
  | succ n ih =>
    rw [List.range_succ, List.filter_append, List.length_append, ih]
    by_cases hk : k ≤ n
    · simp [hk]; omega
    · simp [hk]; omega

variable {s : System} {log : List UInt8}

theorem retainedAfter_in_window (h : Rep s.dev log) (hwin : CursorInWindow s.dev) :
    retainedAfter s.dev = min log.length s.dev.size - wrapSub 64 s.dev.pos s.dev.outPos := by
  have hlt := h.valid.lt
  have hpos := h.pos
  have hout : s.dev.outPos < 2 ^ 64 := by rw [h.outPos]; exact Nat.mod_lt _ (by norm_num)
  have hdiff := h.difference
  simp only [CursorInWindow, hdiff] at hwin
  rw [retainedAfter, hdiff, ← range_filter_ge]
  congr 1
  apply List.filter_congr
  intro i hi
  have hi' := List.mem_range.mp hi
  apply decide_eq_decide.mpr
  simp only [wrapSub] at hwin ⊢
  omega

/-! ## The length a read returns -/

theorem read_bytes_length (s : System) (f count : ℕ) :
    (exec s (.read f count)).2.bytes.length = (ringBufferGet s.dev count).len := by
  have hlen := get_touched_length s.dev count
  simpa [exec, ringBufferRead, Reply.bytes, GetResult.data] using hlen

theorem room_eq_zero_iff (h : Rep s.dev log) :
    wrapSub 32 (ringBufferLen s.dev) (wrapSub 64 s.dev.pos s.dev.outPos % 2 ^ 32) = 0 ↔
      s.dev.pos % 2 ^ 32 = s.dev.inPos % 2 ^ 32 := by
  have hpos := h.pos
  have hin : s.dev.inPos < 2 ^ 64 := by rw [h.inPos]; exact Nat.mod_lt _ (by norm_num)
  have hout : s.dev.outPos < 2 ^ 64 := by rw [h.outPos]; exact Nat.mod_lt _ (by norm_num)
  simp only [ringBufferLen, wrapSub]
  omega

theorem get_len_eq_zero_iff (h : Rep s.dev log) (count : ℕ) :
    (ringBufferGet s.dev count).len = 0 ↔
      count = 0 ∨ s.dev.pos % 2 ^ 32 = s.dev.inPos % 2 ^ 32 := by
  rw [← room_eq_zero_iff h]
  simp only [ringBufferGet]
  omega

/-! ## The exact condition -/

theorem readExact_of_empty {f count : ℕ} (hlen : (ringBufferGet s.dev count).len = 0)
    (hafter : min count (retainedAfter s.dev) = 0) : ReadExact s log f count := by
  have hnil := List.length_eq_zero_iff.mp ((get_touched_length s.dev count).trans hlen)
  refine ⟨by simp [hnil], by rw [read_bytes_length, hlen, hafter], ?_⟩
  intro j hj
  rw [read_bytes_length, hlen] at hj
  omega

theorem readExact_of_window (h : Rep s.dev log) (hwin : CursorInWindow s.dev) (f count : ℕ) :
    ReadExact s log f count := by
  have hlt := h.valid.lt
  obtain ⟨k, hk⟩ : ∃ k, wrapSub 64 s.dev.pos s.dev.outPos = k := ⟨_, rfl⟩
  have hkle : k ≤ min log.length s.dev.size := by
    rw [CursorInWindow, h.difference, hk] at hwin
    exact hwin
  have hafter := retainedAfter_in_window h hwin
  rw [hk] at hafter
  have hbytes : (exec s (.read f count)).2.bytes =
      (((retained s.dev.size log).drop k).take count).map some := h.get_data hk hkle count
  refine ⟨?_, ?_, ?_⟩
  · intro i hi
    rw [h.get_touched hk hkle] at hi
    obtain ⟨j, hj, rfl⟩ := List.mem_map.mp hi
    have hj' := List.mem_range.mp hj
    exact Nat.mod_lt _ (by omega)
  · rw [hafter, hbytes]
    simp
  · intro j hj
    rw [hbytes, List.length_map, List.length_take, List.length_drop, retained_length] at hj
    have hpos : wrapSub 64 ((s.dev.pos + j) % 2 ^ 64) s.dev.outPos = k + j := by
      rw [wrapSub_add, hk, Nat.mod_eq_of_lt (by omega)]
    have hget : (retained s.dev.size log)[k + j]? =
        some ((retained s.dev.size log).get ⟨k + j, by rw [retained_length]; omega⟩) :=
      List.getElem?_eq_getElem _
    refine ⟨_, by rw [streamByte, hpos]; exact hget, ?_⟩
    rw [hbytes, List.getElem?_map, List.getElem?_take_of_lt (by omega), List.getElem?_drop, hget]
    rfl

theorem readExact_iff (h : Rep s.dev log) (f count : ℕ) :
    ReadExact s log f count ↔ ReadCondition s.dev count := by
  constructor
  · intro hex
    by_cases hcount : count = 0
    · exact Or.inl hcount
    by_cases hwin : CursorInWindow s.dev
    · exact Or.inr (Or.inl hwin)
    -- outside the window the first byte handed out is not retained, so the read must be empty
    have hlen : (ringBufferGet s.dev count).len = 0 := by
      by_contra hne
      obtain ⟨b, hb, -⟩ := hex.bytes 0 (by rw [read_bytes_length]; omega)
      have hpos : (s.dev.pos + 0) % 2 ^ 64 = s.dev.pos := Nat.mod_eq_of_lt h.pos
      rw [streamByte, hpos] at hb
      have hlt := (List.getElem?_eq_some_iff.mp hb).1
      rw [retained_length] at hlt
      rw [CursorInWindow, h.difference] at hwin
      omega
    have hret := hex.ret
    rw [read_bytes_length, hlen] at hret
    have hagree := (get_len_eq_zero_iff h count).mp hlen
    exact Or.inr (Or.inr ⟨by omega, by omega⟩)
  · rintro (hcount | hwin | ⟨hafter, hagree⟩)
    · subst hcount
      exact readExact_of_empty ((get_len_eq_zero_iff h 0).mpr (Or.inl rfl)) (Nat.zero_min _)
    · exact readExact_of_window h hwin f count
    · exact readExact_of_empty ((get_len_eq_zero_iff h count).mpr (Or.inr hagree))
        (by rw [hafter, Nat.min_zero])

/-- In every run of the device, each read returns exactly the retained bytes from the cursor on if
and only if the state it starts in meets `ReadCondition`. -/
theorem ring_buffer_read_exact_iff (mem : List UInt8) (hsize : ValidSize mem.length) (ops : List Op) :
    ∀ (before after : List Op) (f count : ℕ), ops = before ++ .read f count :: after →
      (ReadExact (runSteps step (ringBufferSetupCdev mem) before)
          (acceptedLog mem.length before) f count ↔
        ReadCondition (runSteps step (ringBufferSetupCdev mem) before).dev count) :=
  fun before _ f count _ => readExact_iff (run_rep hsize before).1 f count

theorem ring_buffer_read_exact_after_open :
    ReadExact (runSteps step (ringBufferSetupCdev [0, 0, 0, 0])
      [.write 0 [1, 2, 3], .write 0 [4, 5, 6], .open 0])
      (acceptedLog 4 [.write 0 [1, 2, 3], .write 0 [4, 5, 6], .open 0]) 0 9 :=
  (ring_buffer_read_exact_iff [0, 0, 0, 0] (by decide)
    [.write 0 [1, 2, 3], .write 0 [4, 5, 6], .open 0, .read 0 9]
    [.write 0 [1, 2, 3], .write 0 [4, 5, 6], .open 0] [] 0 9 rfl).mpr (by decide)

/-- A device of 4096 bytes is reset after one byte was read from it: the next read returns 4096
bytes although the log is empty. -/
theorem ring_buffer_read_after_reset :
    ¬ ∀ (mem : List UInt8), PowTwoSize mem.length → ∀ (before : List Op) (f count : ℕ),
      ReadExact (runSteps step (ringBufferSetupCdev mem) before)
        (acceptedLog mem.length before) f count := by
  intro h
  have hsize : PowTwoSize (List.replicate 4096 (0 : UInt8)).length :=
    ⟨12, by norm_num, by rw [List.length_replicate]; norm_num⟩
  have hread := h (List.replicate 4096 0) hsize [.open 0, .write 0 [97], .read 0 1, .reset] 0 4096
  have hcond := (readExact_iff (run_rep (Or.inr hsize) _).1 0 4096).mp hread
  revert hcond
  decide

end Neufbox.RingBuffer
