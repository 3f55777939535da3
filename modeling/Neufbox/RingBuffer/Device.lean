import Neufbox.Library.WrapArith
import Neufbox.Library.ByteStore
import Neufbox.Library.RunAlong

/-! # The ring buffer character device

The operations of `drivers/char/neufbox-ring-buffer.c`. `size_t` has 32 bits and
`unsigned long long` 64, as on the boards the driver is built for. Every operation of the driver
takes the device's semaphore for its whole effect on the device, so an operation is one step.
(`ring_buffer_llseek` takes it a second time to compute the offset it returns; no operation reads
that offset.)

A copy out of the buffer is recorded as the list of buffer indices it touches; the byte read at an
index outside the allocated buffer is `none`. -/
namespace Neufbox.RingBuffer
open WrapArith ByteStore RunAlong
set_option autoImplicit false
set_option maxHeartbeats 250000

/-! ## State -/

/-- `struct ring_buffer_device`: `inPos`, `outPos` and `pos` are its `in`, `out` and `pos`. -/
structure RingBufferDevice where
  buffer : List UInt8
  size : ℕ
  inPos : ℕ
  outPos : ℕ
  pos : ℕ
  deriving Repr, DecidableEq

inductive Board where
  | neufbox4
  | cibox
  | neufbox5
  deriving Repr, DecidableEq

def ringBufferSizes : Board → List ℕ
  | .neufbox4 =>
      [64 <<< 10, 64 <<< 10, 64 <<< 10, 64 <<< 10, 16 <<< 10, 64 <<< 10, 16 <<< 10, 16 <<< 10,
        64 <<< 10, 4 <<< 10, 64 <<< 10, 4 <<< 10]
  | .cibox =>
      [32 <<< 10, 32 <<< 10, 32 <<< 10, 32 <<< 10, 16 <<< 10, 16 <<< 10, 16 <<< 10, 16 <<< 10,
        0 <<< 10, 0 <<< 10, 32 <<< 10, 4 <<< 10]
  | .neufbox5 =>
      [128 <<< 10, 128 <<< 10, 128 <<< 10, 128 <<< 10, 128 <<< 10, 128 <<< 10, 128 <<< 10,
        128 <<< 10, 128 <<< 10, 128 <<< 10]

def PowTwoSize (size : ℕ) : Prop := ∃ k < 31, size = 2 ^ k

/-- The sizes a device can have: zero, or a power of two. -/
def ValidSize (size : ℕ) : Prop := size = 0 ∨ PowTwoSize size

instance (size : ℕ) : Decidable (PowTwoSize size) :=
  inferInstanceAs (Decidable (∃ k < 31, size = 2 ^ k))

instance (size : ℕ) : Decidable (ValidSize size) :=
  inferInstanceAs (Decidable (size = 0 ∨ PowTwoSize size))

theorem ringBufferSizes_valid (board : Board) : ∀ size ∈ ringBufferSizes board, ValidSize size := by
  cases board <;> decide

/-! ## Buffer access -/

/-- `__ring_buffer_len`: the 64-bit difference, cut to `size_t`. -/
def ringBufferLen (dev : RingBufferDevice) : ℕ := wrapSub 64 dev.inPos dev.outPos % 2 ^ 32

/-- The masked offset `p & (dev->size - 1)`, where `size - 1` is computed in `size_t`. -/
def maskedOffset (dev : RingBufferDevice) (p : ℕ) : ℕ := p &&& wrapSub 32 dev.size 1

structure GetResult where
  len : ℕ
  touched : List ℕ
  deriving Repr, DecidableEq

def ringBufferGet (dev : RingBufferDevice) (len : ℕ) : GetResult :=
  let len := min len (wrapSub 32 (ringBufferLen dev) (wrapSub 64 dev.pos dev.outPos % 2 ^ 32))
  let off := maskedOffset dev dev.pos
  let l := min len (wrapSub 32 dev.size (off % 2 ^ 32))
  { len := len, touched := (List.range l).map (off + ·) ++ List.range (len - l) }

/-- The bytes a get copies to the user buffer; `none` is a byte from outside the allocation. -/
def GetResult.data (r : GetResult) (dev : RingBufferDevice) : List (Option UInt8) :=
  r.touched.map fun i => dev.buffer[i]?

/-- `__ring_buffer_put`, for a user buffer `buf` of the requested length. -/
def ringBufferPut (dev : RingBufferDevice) (buf : List UInt8) : RingBufferDevice × ℕ :=
  let len := min buf.length dev.size
  let off := maskedOffset dev dev.inPos
  let l := min len (wrapSub 32 dev.size (off % 2 ^ 32))
  let buffer := overlay dev.buffer off (buf.take l)
  let buffer := overlay buffer 0 ((buf.drop l).take (len - l))
  let dev := { dev with buffer := buffer, inPos := (dev.inPos + len) % 2 ^ 64 }
  if ringBufferLen dev > dev.size then
    ({ dev with outPos := wrapSub 64 dev.inPos dev.size }, len)
  else (dev, len)

/-! ## File operations -/

/-- A device with its open files (`file->f_pos` of each handle) and its inode's size. -/
structure System where
  dev : RingBufferDevice
  fPos : ℕ → ℤ
  iSize : ℕ

def toLoff (x : ℕ) : ℤ := if x % 2 ^ 64 < 2 ^ 63 then (x % 2 ^ 64 : ℕ) else (x % 2 ^ 64 : ℕ) - 2 ^ 64

def ofLoff (off : ℤ) : ℕ := (off % 2 ^ 64).toNat

inductive Op where
  | open (h : ℕ)
  | read (h count : ℕ)
  | write (h : ℕ) (buf : List UInt8)
  | llseek (h : ℕ) (off whence : ℤ)
  | reset
  deriving Repr, DecidableEq

inductive Reply where
  | opened
  | data (bytes : List (Option UInt8))
  | wrote (ret : ℕ)
  | sought (ret : ℤ)
  | done
  deriving Repr, DecidableEq

def ringBufferOpen (s : System) (h : ℕ) : System × Reply :=
  ({ s with dev := { s.dev with pos := s.dev.outPos }, fPos := Function.update s.fPos h 0 }, .opened)

def ringBufferRead (s : System) (h count : ℕ) : System × Reply :=
  let r := ringBufferGet s.dev count
  ({ s with
      dev := { s.dev with pos := (s.dev.pos + r.len) % 2 ^ 64 }
      fPos := Function.update s.fPos h (s.fPos h + r.len) }, .data (r.data s.dev))

def ringBufferWrite (s : System) (h : ℕ) (buf : List UInt8) : System × Reply :=
  let p := ringBufferPut s.dev buf
  ({ dev := p.1
     fPos := Function.update s.fPos h (s.fPos h + p.2)
     iSize := wrapSub 64 p.1.inPos p.1.outPos }, .wrote p.2)

/-- The new cursor of `ring_buffer_llseek`; `none` for an unknown `whence`. -/
def seekPos (dev : RingBufferDevice) (off whence : ℤ) : Option ℕ :=
  if whence = 0 then some ((dev.outPos + ofLoff off) % 2 ^ 64)
  else if whence = 1 then some ((dev.pos + ofLoff off) % 2 ^ 64)
  else if whence = 2 then some ((dev.inPos + ofLoff off) % 2 ^ 64)
  else none

def einval : ℤ := -22

def ringBufferLlseek (s : System) (h : ℕ) (off whence : ℤ) : System × Reply :=
  match seekPos s.dev off whence with
  | none => (s, .sought einval)
  | some pos =>
      let fPos := toLoff (wrapSub 64 pos s.dev.outPos)
      ({ s with dev := { s.dev with pos := pos }, fPos := Function.update s.fPos h fPos },
        .sought fPos)

/-- What `ring_buffer_proc_write` does to a device it selects; the cursor is left alone. -/
def ringBufferReset (dev : RingBufferDevice) : RingBufferDevice :=
  { dev with inPos := 0, outPos := 0 }

/-- `ring_buffer_proc_write`: `scan` is the number `sscanf` read, if it read one. -/
def ringBufferProcWrite (devs : List RingBufferDevice) (scan : Option ℤ) : List RingBufferDevice :=
  match scan with
  | some i => if 0 ≤ i ∧ i < devs.length then devs.modify i.toNat ringBufferReset else devs
  | none => devs.map ringBufferReset

theorem procWrite_device (devs : List RingBufferDevice) (scan : Option ℤ) (j : ℕ) :
    (ringBufferProcWrite devs scan)[j]? = devs[j]? ∨
      (ringBufferProcWrite devs scan)[j]? = devs[j]?.map ringBufferReset := by
  cases scan with
  | none => exact Or.inr (List.getElem?_map ..)
  | some i =>
    by_cases hi : 0 ≤ i ∧ i < devs.length
    · rw [ringBufferProcWrite, if_pos hi, List.getElem?_modify]
      by_cases hj : i.toNat = j
      · simp only [hj, if_true]; exact Or.inr rfl
      · simp only [hj, if_false]; exact Or.inl (by simp)
    · rw [ringBufferProcWrite, if_neg hi]; exact Or.inl rfl

def exec (s : System) : Op → System × Reply
  | .open h => ringBufferOpen s h
  | .read h count => ringBufferRead s h count
  | .write h buf => ringBufferWrite s h buf
  | .llseek h off whence => ringBufferLlseek s h off whence
  | .reset => ({ s with dev := ringBufferReset s.dev }, .done)

def step (s : System) (op : Op) : System := (exec s op).1

def replies (s : System) : List Op → List Reply
  | [] => []
  | op :: ops => (exec s op).2 :: replies (step s op) ops

def Reply.bytes : Reply → List (Option UInt8)
  | .data bytes => bytes
  | _ => []

/-- `ring_buffer_setup_cdev` after a successful allocation: the memory of the buffer is what the
allocator returned, and `ring_buffer_init` has cleared the cursor. -/
def ringBufferSetupCdev (buffer : List UInt8) : System where
  dev := { buffer := buffer, size := buffer.length, inPos := 0, outPos := 0, pos := 0 }
  fPos := fun _ => 0
  iSize := 0

end Neufbox.RingBuffer
