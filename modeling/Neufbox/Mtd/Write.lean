import Neufbox.Jffs2.ImageWrite
import Neufbox.Library.Flash

/-! # Writing an image

`mtd_write` without a file for a JFFS2 part, on a flash device. The image comes through calls of `read` that deliver
any part of what was asked for or are interrupted; `trx_check` may have read the first bytes before. -/
namespace Neufbox.Mtd
open Jffs2 ByteStore Flash WrapArith
set_option autoImplicit false
set_option maxHeartbeats 250000
set_option maxRecDepth 120000

/-! ## The device and the calls -/

structure Device where
  size : ℕ
  cells : ℕ → UInt8
  ops : List Op

/-- A call of `read` is interrupted (`EINTR`, `EAGAIN`), fails, or delivers up to `most + 1` bytes. -/
inductive ReadCall
  | interrupted
  | failed
  | delivers (most : ℕ)

/-- `calls` counts the calls of `read`; `w` is also where the next `write` goes. -/
structure Copier where
  reader : Reader
  calls : ℕ
  w : ℕ
  e : ℕ
  device : Device

section Copy
variable (c : Config)

def Device.perform (d : Device) (op : Op) : Device :=
  { d with cells := op.apply c.erasesize d.cells, ops := d.ops ++ [op] }

def mtdEraseBlock (offset : ℕ) (d : Device) : Except String Device :=
  if d.size < offset + c.erasesize then .error "Erasing mtd failed.\n" else .ok (d.perform c (.erase offset))

/-- The `write` of the buffer. -/
def writeDevice (w : ℕ) (data : List UInt8) (d : Device) : Except String Device :=
  if d.size < w + data.length then .error "Insufficient space.\n" else .ok (d.perform c (.write w data))

/-- The loop that fills the buffer, from the call with number `n` on. -/
def fillBuffer (read : ℕ → ReadCall) : ℕ → ℕ → Reader → Option (Reader × ℕ)
  | 0, _, _ => none
  | fuel + 1, n, s =>
      match read n with
      | .interrupted => if s.buflen < c.erasesize then fillBuffer read fuel (n + 1) s else some (s, n + 1)
      | .failed => some (s, n + 1)
      | .delivers most =>
          let s' := readMore c most s
          if s'.buflen = s.buflen then some (s, n + 1)
          else if s'.buflen < c.erasesize then fillBuffer read fuel (n + 1) s' else some (s', n + 1)

/-- The loop that erases ahead of a write which ends at `target`; it has at most that many rounds. -/
def eraseAhead (target : ℕ) : ℕ → ℕ × Device → Except String (ℕ × Device)
  | 0, s => .ok s
  | fuel + 1, (e, d) =>
      if e < target then (mtdEraseBlock c e d).bind fun d => eraseAhead target fuel (e + c.erasesize, d) else .ok (e, d)

/-- The end of a round, with the buffer filled. -/
def copyBuffer (r : Reader) (calls : ℕ) (s : Copier) : Except String Copier :=
  (eraseAhead c (s.w + r.buflen) (s.w + r.buflen) (s.e, s.device)).bind fun (e, d) =>
    (writeDevice c s.w (r.buf.take r.buflen) d).map fun d =>
      { reader := { r with buflen := 0 }, calls := calls, w := s.w + r.buflen, e := e, device := d }

/-- The loop of `mtd_write`; the loop that fills the buffer has `fuel` in every round. -/
def mtdWrite (read : ℕ → ReadCall) (fuel : ℕ) : ℕ → Copier → Option (Except String Copier)
  | 0, _ => none
  | rounds + 1, s =>
      (fillBuffer c read fuel s.calls s.reader).bind fun (r, calls) =>
        if r.buflen = 0 then some (.ok { s with reader := r, calls := calls })
        else
          match copyBuffer c r calls s with
          | .error e => some (.error e)
          | .ok s => mtdWrite read fuel rounds s

/-! ## The check of the image -/

def trxMagic : ℕ := 0x30524448

/-- `trx_check` for the device `linux`: its `read` asks for 32 bytes. -/
def trxCheck (mtdsize : ℕ) (call : ReadCall) (s : Reader) : Option Reader :=
  match call with
  | .delivers most =>
      let data := s.input.take (min 32 (most + 1))
      if data.length < 32 then none
      else if field c.be data 0 ≠ trxMagic ∨ field c.be data 4 < 28 then none
      else if mtdsize < field c.be data 4 then none
      else some ⟨overlay s.buf 0 data, 32, s.input.drop 32⟩
  | _ => none

/-- `image_check`: `trx` for the targets that have the check and the device `linux`. -/
def imageCheck (trx : Bool) (mtdsize : ℕ) (read : ℕ → ReadCall) (s : Reader) : Option (Reader × ℕ) :=
  if trx then (trxCheck c mtdsize (read 0) s).map (·, 1) else some (s, 0)

/-- The command: the check, and then the copy. With `-f` the copy also follows a check that fails, on what this has
read. -/
def writeImage (trx : Bool) (read : ℕ → ReadCall) (fuel : ℕ) (heap image : List UInt8) (d : Device) :
    Option (Except String Copier) :=
  match imageCheck c trx d.size read ⟨heap, 0, image⟩ with
  | none => some (.error "Image check failed.\n")
  | some (r, calls) => mtdWrite c read fuel fuel ⟨r, calls, 0, 0, d⟩

end Copy

end Neufbox.Mtd
