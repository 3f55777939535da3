import Neufbox.RingBuffer.Device

/-! # What the ring buffer holds

The abstract device is the log of the bytes accepted since the last reset, of which the last
`size` bytes are retained. `Rep dev log` ties the C fields to it: `in` and `out` are the ends of
the retained part, modulo `2 ^ 64`, and cell `i % size` holds byte `i` of the log. Every operation
keeps `Rep`, so it holds in every run. -/
namespace Neufbox.RingBuffer
open WrapArith ByteStore RunAlong
set_option autoImplicit false
set_option maxHeartbeats 250000

/-! ## The abstract log -/

/-- The log after an operation on a device of `size` bytes: a write accepts the first
`min count size` bytes of its buffer. -/
def acceptOp (size : ℕ) (log : List UInt8) : Op → List UInt8
  | .write _ buf => log ++ buf.take (min buf.length size)
  | .reset => []
  | _ => log

/-- The bytes accepted since the last reset. -/
def acceptedLog (size : ℕ) (ops : List Op) : List UInt8 := ops.foldl (acceptOp size) []

def retained (size : ℕ) (log : List UInt8) : List UInt8 := log.drop (log.length - size)

@[simp] theorem retained_length (size : ℕ) (log : List UInt8) :
    (retained size log).length = min log.length size := by
  simp only [retained, List.length_drop]
  omega

structure Rep (dev : RingBufferDevice) (log : List UInt8) : Prop where
  valid : ValidSize dev.size
  length : dev.buffer.length = dev.size
  inPos : dev.inPos = log.length % 2 ^ 64
  outPos : dev.outPos = (log.length - dev.size) % 2 ^ 64
  pos : dev.pos < 2 ^ 64
  cells : ∀ i, log.length - dev.size ≤ i → i < log.length →
    dev.buffer[i % dev.size]? = log[i]?

/-! ## Sizes and masks -/

theorem ValidSize.lt {size : ℕ} (h : ValidSize size) : size < 2 ^ 31 := by
  rcases h with rfl | ⟨k, hk, rfl⟩
  · norm_num
  · exact Nat.pow_lt_pow_right (by norm_num) hk

theorem ValidSize.dvd {size : ℕ} (h : ValidSize size) (hpos : 0 < size) : size ∣ 2 ^ 64 := by
  rcases h with rfl | ⟨k, hk, rfl⟩
  · omega
  · exact Nat.pow_dvd_pow 2 (by omega)

theorem maskedOffset_eq {dev : RingBufferDevice} (h : ValidSize dev.size) (hpos : 0 < dev.size)
    (p : ℕ) : maskedOffset dev p = p % dev.size := by
  rcases h with h0 | ⟨k, hk, hsize⟩
  · omega
  · rw [maskedOffset, hsize, and_wrapSub_one (by omega)]

theorem wrapSub_offset {size off : ℕ} (h : ValidSize size) (hoff : off < size) :
    wrapSub 32 size (off % 2 ^ 32) = size - off := by
  have hlt := h.lt
  rw [Nat.mod_eq_of_lt (by omega), wrapSub_of_le hoff.le (by omega)]

theorem get_touched_length (dev : RingBufferDevice) (count : ℕ) :
    (ringBufferGet dev count).touched.length = (ringBufferGet dev count).len := by
  simp only [ringBufferGet, List.length_append, List.length_map, List.length_range]
  omega

namespace Rep
variable {dev : RingBufferDevice} {log : List UInt8}

theorem difference (h : Rep dev log) : wrapSub 64 dev.inPos dev.outPos = min log.length dev.size := by
  have hlt := h.valid.lt
  rw [h.inPos, h.outPos, wrapSub_mod_right, wrapSub_mod (by omega), Nat.mod_eq_of_lt (by omega)]
  omega

theorem ringBufferLen_eq (h : Rep dev log) : ringBufferLen dev = min log.length dev.size := by
  have hlt := h.valid.lt
  rw [ringBufferLen, h.difference, Nat.mod_eq_of_lt (by omega)]

/-- The cursor `k` bytes after `out` stands, modulo the size, at byte `k` of the retained part. -/
theorem cursor_mod (h : Rep dev log) (hpos : 0 < dev.size) :
    dev.pos % dev.size = (log.length - dev.size + wrapSub 64 dev.pos dev.outPos) % dev.size := by
  have hback := wrapSub_add_mod 64 dev.pos dev.outPos h.pos
  have hdvd := h.valid.dvd hpos
  rw [← hback, Nat.mod_mod_of_dvd _ hdvd, hback, Nat.add_comm, Nat.add_mod, h.outPos,
    Nat.mod_mod_of_dvd _ hdvd, ← Nat.add_mod]

/-! ## Reading -/

theorem get_len (h : Rep dev log) {k : ℕ} (hk : wrapSub 64 dev.pos dev.outPos = k)
    (hwin : k ≤ min log.length dev.size) (count : ℕ) :
    (ringBufferGet dev count).len = min count (min log.length dev.size - k) := by
  have hlt := h.valid.lt
  have hk32 : k % 2 ^ 32 = k := Nat.mod_eq_of_lt (by omega)
  simp only [ringBufferGet, hk, h.ringBufferLen_eq, hk32]
  rw [wrapSub_of_le hwin (by omega)]

theorem get_touched (h : Rep dev log) {k : ℕ} (hk : wrapSub 64 dev.pos dev.outPos = k)
    (hwin : k ≤ min log.length dev.size) (count : ℕ) :
    (ringBufferGet dev count).touched =
      (List.range (min count (min log.length dev.size - k))).map fun j =>
        (log.length - dev.size + k + j) % dev.size := by
  have hlt := h.valid.lt
  have hlen := h.get_len hk hwin count
  rw [← hlen]
  by_cases hpos : 0 < dev.size
  · have hmask := maskedOffset_eq h.valid hpos dev.pos
    have hoff : dev.pos % dev.size < dev.size := Nat.mod_lt _ hpos
    have hsub := wrapSub_offset h.valid hoff
    have hcur := h.cursor_mod hpos
    rw [hk] at hcur
    have hle : (ringBufferGet dev count).len ≤ dev.size := by omega
    have hsplit : (ringBufferGet dev count).touched =
        (List.range (min (ringBufferGet dev count).len (dev.size - dev.pos % dev.size))).map
            (dev.pos % dev.size + ·) ++
          List.range ((ringBufferGet dev count).len -
            min (ringBufferGet dev count).len (dev.size - dev.pos % dev.size)) := by
      simp only [ringBufferGet, hmask, hsub]
    rw [hsplit, hcur]
    exact circular_indices hle
  · have hzero : (ringBufferGet dev count).len = 0 := by omega
    rw [hzero, List.length_eq_zero_iff.mp ((get_touched_length dev count).trans hzero)]
    rfl

/-- A read whose cursor stands `k` bytes after `out`, inside the retained part, returns the
retained bytes from there on, as many as were asked for. -/
theorem get_data (h : Rep dev log) {k : ℕ} (hk : wrapSub 64 dev.pos dev.outPos = k)
    (hwin : k ≤ min log.length dev.size) (count : ℕ) :
    (ringBufferGet dev count).data dev = (((retained dev.size log).drop k).take count).map some := by
  rw [GetResult.data, h.get_touched hk hwin, List.map_map]
  apply List.ext_getElem?
  intro j
  by_cases hj : j < min count (min log.length dev.size - k)
  · rw [List.getElem?_map, List.getElem?_range hj, Option.map_some, Function.comp_apply,
      h.cells _ (by omega) (by omega), List.getElem?_map, List.getElem?_take_of_lt (by omega),
      List.getElem?_drop, retained, List.getElem?_drop, Nat.add_assoc]
    rw [List.getElem?_eq_getElem (by omega), Option.map_some]
  · rw [List.getElem?_eq_none (by simp; omega), List.getElem?_eq_none (by simp; omega)]

/-! ## Every operation keeps the representation -/

theorem moveCursor (h : Rep dev log) {p : ℕ} (hp : p < 2 ^ 64) : Rep { dev with pos := p } log :=
  { h with pos := hp }

theorem reset (h : Rep dev log) : Rep (ringBufferReset dev) [] where
  valid := h.valid
  length := h.length
  inPos := rfl
  outPos := by simp [ringBufferReset]
  pos := h.pos
  cells := by simp

end Rep

theorem put_buffer {dev : RingBufferDevice} {log : List UInt8} (h : Rep dev log) (buf : List UInt8) :
    (ringBufferPut dev buf).1.buffer =
      circularOverlay dev.buffer log.length (buf.take (min buf.length dev.size)) := by
  have hraw : (ringBufferPut dev buf).1.buffer =
      (let l := min (min buf.length dev.size) (wrapSub 32 dev.size (maskedOffset dev dev.inPos % 2 ^ 32))
       overlay (overlay dev.buffer (maskedOffset dev dev.inPos) (buf.take l)) 0
        ((buf.drop l).take (min buf.length dev.size - l))) := by
    simp only [ringBufferPut]
    split <;> rfl
  rw [hraw]
  by_cases hpos : 0 < dev.size
  · have hin : dev.inPos % dev.size = log.length % dev.size := by
      rw [h.inPos, Nat.mod_mod_of_dvd _ (h.valid.dvd hpos)]
    have hoff : log.length % dev.size < dev.size := Nat.mod_lt _ hpos
    have hlen : (buf.take (min buf.length dev.size)).length = min buf.length dev.size := by
      rw [List.length_take]; omega
    simp only [maskedOffset_eq h.valid hpos, hin, wrapSub_offset h.valid hoff, circularOverlay,
      h.length, hlen, List.take_take, List.drop_take]
    rw [Nat.min_eq_left (Nat.min_le_left (min buf.length dev.size) _)]
  · have h0 : dev.size = 0 := by omega
    simp [h0, circularOverlay]

theorem put_rep {dev : RingBufferDevice} {log : List UInt8} (h : Rep dev log) (buf : List UInt8) :
    Rep (ringBufferPut dev buf).1 (log ++ buf.take (min buf.length dev.size)) := by
  set acc := buf.take (min buf.length dev.size) with hacc
  have hlt := h.valid.lt
  have hlen : acc.length = min buf.length dev.size := by rw [hacc, List.length_take]; omega
  have hbuf := put_buffer h buf
  rw [← hacc] at hbuf
  have hle : acc.length ≤ dev.buffer.length := by rw [h.length]; omega
  have hin : (dev.inPos + min buf.length dev.size) % 2 ^ 64 = (log ++ acc).length % 2 ^ 64 := by
    rw [h.inPos, List.length_append, hlen, Nat.mod_add_mod]
  -- the length after the copy, before old bytes are dropped
  have hdiff : wrapSub 64 ((dev.inPos + min buf.length dev.size) % 2 ^ 64) dev.outPos =
      min log.length dev.size + acc.length := by
    rw [hin, h.outPos, wrapSub_mod_right, wrapSub_mod (by simp; omega), List.length_append,
      Nat.mod_eq_of_lt (by omega)]
    omega
  have hsmall : (min log.length dev.size + acc.length) % 2 ^ 32 =
      min log.length dev.size + acc.length := Nat.mod_eq_of_lt (by omega)
  have hpos : (ringBufferPut dev buf).1.pos = dev.pos := by
    simp only [ringBufferPut]; split <;> rfl
  have hsize : (ringBufferPut dev buf).1.size = dev.size := by
    simp only [ringBufferPut]; split <;> rfl
  have hinPos : (ringBufferPut dev buf).1.inPos = (dev.inPos + min buf.length dev.size) % 2 ^ 64 := by
    simp only [ringBufferPut]; split <;> rfl
  have hout : (ringBufferPut dev buf).1.outPos = ((log ++ acc).length - dev.size) % 2 ^ 64 := by
    simp only [ringBufferPut, ringBufferLen, hdiff, hsmall]
    by_cases hover : min log.length dev.size + acc.length > dev.size
    · rw [if_pos hover]
      dsimp only
      rw [hin, wrapSub_mod (by simp; omega)]
    · rw [if_neg hover, h.outPos, List.length_append]
      congr 1
      omega
  refine ⟨hsize ▸ h.valid, ?_, hinPos.trans hin, ?_, hpos ▸ h.pos, ?_⟩
  · rw [hbuf, circularOverlay_length hle, hsize, h.length]
  · rw [hsize]; exact hout
  · intro i hlo hhi
    rw [hsize] at hlo ⊢
    rw [hbuf, ← h.length]
    rw [List.length_append] at hlo hhi
    by_cases hnew : log.length ≤ i
    · obtain ⟨j, rfl⟩ : ∃ j, i = log.length + j := ⟨i - log.length, by omega⟩
      rw [circularOverlay_get hle (by omega), List.getElem?_append_right (by omega),
        Nat.add_sub_cancel_left]
    · have hbl := h.length
      rw [circularOverlay_get_other hle (Nat.mod_lt _ (by omega))
        (fun j hj => (mod_ne_of_lt (by omega) (by omega)).symm), h.length,
        h.cells i (by omega) (by omega), List.getElem?_append_left (by omega)]

theorem seekPos_lt {dev : RingBufferDevice} {off whence : ℤ} {p : ℕ}
    (h : seekPos dev off whence = some p) : p < 2 ^ 64 := by
  have hmod : ∀ x : ℕ, x % 2 ^ 64 < 2 ^ 64 := fun x => Nat.mod_lt x (by norm_num)
  simp only [seekPos] at h
  split_ifs at h <;> cases h <;> exact hmod _

theorem step_rep {s : System} {log : List UInt8} (h : Rep s.dev log) (op : Op) :
    Rep (step s op).dev (acceptOp s.dev.size log op) := by
  cases op with
  | «open» f => exact h.moveCursor (by rw [h.outPos]; exact Nat.mod_lt _ (by norm_num))
  | read f count => exact h.moveCursor (Nat.mod_lt _ (by norm_num))
  | write f buf => exact put_rep h buf
  | llseek f off whence =>
    simp only [step, exec, ringBufferLlseek]
    cases hp : seekPos s.dev off whence with
    | none => exact h
    | some p => exact h.moveCursor (seekPos_lt hp)
  | reset => exact h.reset

theorem step_size (s : System) (op : Op) : (step s op).dev.size = s.dev.size := by
  cases op with
  | write f buf =>
    simp only [step, exec, ringBufferWrite, ringBufferPut]
    split <;> rfl
  | llseek f off whence =>
    simp only [step, exec, ringBufferLlseek]
    cases seekPos s.dev off whence <;> rfl
  | _ => rfl

theorem run_rep_from {s : System} {log : List UInt8} (h : Rep s.dev log) (ops : List Op) :
    Rep (runSteps step s ops).dev (ops.foldl (acceptOp s.dev.size) log) ∧
      (runSteps step s ops).dev.size = s.dev.size := by
  induction ops generalizing s log with
  | nil => exact ⟨h, rfl⟩
  | cons op ops ih =>
    have hnext := ih (step_rep h op)
    rw [step_size] at hnext
    exact hnext

theorem setup_rep {mem : List UInt8} (hsize : ValidSize mem.length) :
    Rep (ringBufferSetupCdev mem).dev [] where
  valid := hsize
  length := rfl
  inPos := rfl
  outPos := by simp [ringBufferSetupCdev]
  pos := by simp [ringBufferSetupCdev]
  cells := by simp

theorem run_rep {mem : List UInt8} (hsize : ValidSize mem.length) (ops : List Op) :
    Rep (runSteps step (ringBufferSetupCdev mem) ops).dev (acceptedLog mem.length ops) ∧
      (runSteps step (ringBufferSetupCdev mem) ops).dev.size = mem.length :=
  run_rep_from (setup_rep hsize) ops

/-! ## Sequences of reads -/

theorem drop_min_length {α : Type} (l : List α) (k c : ℕ) :
    l.drop (k + min c (l.length - k)) = (l.drop k).drop c := by
  rw [List.drop_drop]
  by_cases hc : c ≤ l.length - k
  · rw [Nat.min_eq_left hc]
  · rw [List.drop_eq_nil_of_le (by omega), List.drop_eq_nil_of_le (by omega)]

theorem read_cursor {s : System} {log : List UInt8} (h : Rep s.dev log) {k : ℕ}
    (hk : wrapSub 64 s.dev.pos s.dev.outPos = k) (hwin : k ≤ min log.length s.dev.size)
    (f count : ℕ) :
    wrapSub 64 (step s (.read f count)).dev.pos (step s (.read f count)).dev.outPos =
      k + min count (min log.length s.dev.size - k) := by
  have hlt := h.valid.lt
  have hlen := h.get_len hk hwin count
  simp only [step, exec, ringBufferRead]
  rw [wrapSub_add, hk, hlen, Nat.mod_eq_of_lt (by omega)]

theorem reads_data {s : System} {log : List UInt8} (h : Rep s.dev log) {k : ℕ}
    (hk : wrapSub 64 s.dev.pos s.dev.outPos = k) (hwin : k ≤ min log.length s.dev.size)
    (f : ℕ) (counts : List ℕ) :
    (replies s (counts.map (Op.read f))).flatMap Reply.bytes =
      (((retained s.dev.size log).drop k).take counts.sum).map some := by
  induction counts generalizing s k with
  | nil => simp [replies]
  | cons c counts ih =>
    have hdata : (exec s (.read f c)).2.bytes =
        (((retained s.dev.size log).drop k).take c).map some := h.get_data hk hwin c
    have hrest := ih (step_rep h (.read f c)) (read_cursor h hk hwin f c)
      (by rw [step_size]; omega)
    rw [step_size] at hrest
    have hdrop := drop_min_length (retained s.dev.size log) k c
    rw [retained_length] at hdrop
    rw [List.map_cons, replies, List.flatMap_cons, hdata, hrest, hdrop, List.sum_cons,
      List.take_add, List.map_append]

theorem reads_log (size f : ℕ) (log : List UInt8) (counts : List ℕ) :
    (counts.map (Op.read f)).foldl (acceptOp size) log = log := by
  induction counts with
  | nil => rfl
  | cons c counts ih => exact ih

theorem reads_cursor {s : System} {log : List UInt8} (h : Rep s.dev log) {k : ℕ}
    (hk : wrapSub 64 s.dev.pos s.dev.outPos = k) (hwin : k ≤ min log.length s.dev.size)
    (f : ℕ) (counts : List ℕ) :
    wrapSub 64 (runSteps step s (counts.map (Op.read f))).dev.pos
        (runSteps step s (counts.map (Op.read f))).dev.outPos =
      k + min counts.sum (min log.length s.dev.size - k) := by
  induction counts generalizing s k with
  | nil => simpa using hk
  | cons c counts ih =>
    have hrest := ih (step_rep h (.read f c)) (read_cursor h hk hwin f c)
      (by rw [step_size]; omega)
    rw [step_size] at hrest
    rw [List.map_cons, runSteps_cons, hrest, List.sum_cons]
    omega

theorem read_at_end {s : System} {log : List UInt8} (h : Rep s.dev log) {k : ℕ}
    (hk : wrapSub 64 s.dev.pos s.dev.outPos = k) (hwin : k ≤ min log.length s.dev.size)
    (f : ℕ) (counts : List ℕ) (hall : min log.length s.dev.size ≤ k + counts.sum) (count : ℕ) :
    (exec (runSteps step s (counts.map (Op.read f))) (.read f count)).2 = .data [] := by
  obtain ⟨hrep, hsize⟩ := run_rep_from h (counts.map (Op.read f))
  rw [reads_log] at hrep
  have hend := reads_cursor h hk hwin f counts
  have hcur : k + min counts.sum (min log.length s.dev.size - k) = min log.length s.dev.size := by omega
  have hdata := hrep.get_data (hend.trans hcur) (by rw [hsize]) count
  rw [List.drop_eq_nil_of_le (by rw [retained_length, hsize])] at hdata
  exact congrArg Reply.data (by simpa using hdata)

theorem open_cursor (s : System) (f : ℕ) (hout : s.dev.outPos < 2 ^ 64) :
    wrapSub 64 (step s (.open f)).dev.pos (step s (.open f)).dev.outPos = 0 :=
  wrapSub_self 64 s.dev.outPos hout

/-! ## Runs that write fewer than `2 ^ 64` bytes -/

/-- The bytes the writes of a run accept, over all resets. -/
def bytesWritten (size : ℕ) (ops : List Op) : ℕ :=
  (ops.map fun
    | .write _ buf => min buf.length size
    | _ => 0).sum

theorem acceptedLog_length_le_from (size : ℕ) (log : List UInt8) (ops : List Op) :
    (ops.foldl (acceptOp size) log).length ≤ log.length + bytesWritten size ops := by
  induction ops generalizing log with
  | nil => simp [bytesWritten]
  | cons op ops ih =>
    have hrest := ih (acceptOp size log op)
    have hop : (acceptOp size log op).length + bytesWritten size ops ≤
        log.length + bytesWritten size (op :: ops) := by
      cases op <;> simp [acceptOp, bytesWritten]
      omega
    exact hrest.trans hop

theorem write_reply (s : System) (f : ℕ) (buf : List UInt8) :
    (exec s (.write f buf)).2 = .wrote (min buf.length s.dev.size) := by
  simp only [exec, ringBufferWrite, ringBufferPut]
  split <;> rfl

/-- The representation invariant of the C fields, for every run from the setup that writes fewer
than `2 ^ 64` bytes, and what a reader gets who opens the device there and reads it. -/
theorem ring_buffer_holds_log (mem : List UInt8) (hsize : ValidSize mem.length) (ops : List Op)
    (hbytes : bytesWritten mem.length ops < 2 ^ 64) :
    let s := runSteps step (ringBufferSetupCdev mem) ops
    let log := acceptedLog mem.length ops
    s.dev.outPos ≤ s.dev.inPos ∧ s.dev.inPos - s.dev.outPos ≤ mem.length ∧
      s.dev.inPos = log.length ∧
      (∀ i, s.dev.outPos ≤ i → i < s.dev.inPos → s.dev.buffer[i % mem.length]? = log[i]?) ∧
      (∀ f buf, (exec s (.write f buf)).2 = .wrote (min buf.length mem.length)) ∧
      ∀ (f : ℕ) (counts : List ℕ),
        (replies (step s (.open f)) (counts.map (Op.read f))).flatMap Reply.bytes =
            ((log.drop s.dev.outPos).take counts.sum).map some ∧
          (s.dev.inPos - s.dev.outPos ≤ counts.sum → ∀ count,
            (exec (runSteps step (step s (.open f)) (counts.map (Op.read f))) (.read f count)).2 =
              .data []) := by
  intro s log
  obtain ⟨h, hs⟩ : Rep s.dev log ∧ s.dev.size = mem.length := run_rep hsize ops
  have hlen : log.length < 2 ^ 64 := by
    have := acceptedLog_length_le_from mem.length [] ops
    exact lt_of_le_of_lt (by simpa [log, acceptedLog] using this) hbytes
  have hin : s.dev.inPos = log.length := by rw [h.inPos, Nat.mod_eq_of_lt hlen]
  have hout : s.dev.outPos = log.length - mem.length := by
    rw [h.outPos, hs, Nat.mod_eq_of_lt (by omega)]
  have hret : retained mem.length log = log.drop s.dev.outPos := by rw [hout, retained]
  refine ⟨by omega, by omega, hin, ?_, ?_, ?_⟩
  · intro i hlo hhi
    rw [← hs]
    exact h.cells i (by rw [hs]; omega) (by omega)
  · intro f buf
    rw [write_reply, hs]
  · intro f counts
    have hopen := step_rep h (.open f)
    have hcur := open_cursor s f (by omega)
    have hdata := reads_data hopen hcur (Nat.zero_le _) f counts
    rw [step_size, hs, List.drop_zero] at hdata
    refine ⟨hdata.trans (congrArg (fun l => (List.take counts.sum l).map some) hret), ?_⟩
    intro hall count
    exact read_at_end hopen hcur (Nat.zero_le _) f counts
      (by rw [step_size, hs]; simp only [acceptOp]; omega) count

theorem ring_buffer_holds_log_wrapped :
    (runSteps step (ringBufferSetupCdev [0, 0, 0, 0])
        [.open 0, .write 0 [1, 2, 3], .write 0 [4, 5, 6]]).dev.buffer[5 % 4]? = some 6 := by
  have h := (ring_buffer_holds_log [0, 0, 0, 0] (by decide)
    [.open 0, .write 0 [1, 2, 3], .write 0 [4, 5, 6]] (by decide)).2.2.2.1 5 (by decide) (by decide)
  exact h

end Neufbox.RingBuffer
