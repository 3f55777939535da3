import Neufbox.Library.ByteStore
import Neufbox.Srec.Format

/-! # The program srec2bin

`srec2bin` reads S-record lines and writes their bytes as binary records. A byte goes into the record
that is open when its address follows `AddressCurrent`; otherwise that record is ended and a new one
started. The length word of a record is written as zero and patched when the record ends. -/
namespace Neufbox.Srec
open Memory ByteStore WrapArith
set_option autoImplicit false
set_option maxHeartbeats 250000
set_option maxRecDepth 120000

/-! ## The output file -/

structure Writer where
  out : List UInt8
  recStart : Bool
  recLength : ℕ
  checkSum : ℕ
  addressCurrent : ℕ

namespace Writer

def binOut32 (w : Writer) (data : ℕ) : Writer := { w with out := w.out ++ leBytes data }

def binOut8 (w : Writer) (data : UInt8) : Writer :=
  { w with out := w.out ++ [data], recLength := (w.recLength + 1) % 2 ^ 32 }

def binRecStart (w : Writer) (address : ℕ) : Writer :=
  ({ w with recLength := 0, checkSum := address, recStart := true }.binOut32 0).binOut32 address

/-- The file position goes back over data, address and length, and returns to the end. -/
def binRecEnd (w : Writer) : Writer :=
  if w.recStart then
    let checkSum := wrapSub 32 0 (w.checkSum + w.recLength)
    { w with
      recStart := false
      checkSum := checkSum
      out := overlay w.out (w.out.length - w.recLength - 4 - 4) (leBytes w.recLength) }.binOut32 checkSum
  else w

/-- The test that data and program start share. -/
def continueAt (w : Writer) (address : ℕ) : Writer :=
  let w' := if address ≠ (w.addressCurrent + 1) % 2 ^ 32 then w.binRecEnd.binRecStart address else w
  { w' with addressCurrent := address }

def binRecOutProgramStart (w : Writer) (address : ℕ) : Writer := w.continueAt address

def binRecOutByte (w : Writer) (address : ℕ) (data : UInt8) : Writer :=
  let w' := w.continueAt address
  { w' with checkSum := (w'.checkSum + data.toNat) % 2 ^ 32 }.binOut8 data

end Writer

/-! ## Hexadecimal digits -/

def isxdigit (c : UInt8) : Bool :=
  (48 ≤ c && c ≤ 57) || (65 ≤ c && c ≤ 70) || (97 ≤ c && c ≤ 102)

/-- What `gh` adds for a character; one that is no digit is reported and adds nothing. -/
def nibble (c : UInt8) : ℕ :=
  let u := if 97 ≤ c ∧ c ≤ 122 then c &&& 0x5f else c
  if 48 ≤ u ∧ u ≤ 57 then u.toNat - 0x30
  else if 65 ≤ u ∧ u ≤ 70 then u.toNat - 0x37
  else 0

def gh (cp : List UInt8) (nibs : ℕ) : ℕ := (cp.take nibs).foldl (fun j c => (j * 16 + nibble c) % 2 ^ 32) 0

def sumPairs : ℕ → List UInt8 → ℕ
  | 0, _ => 0
  | count + 1, cp => gh cp 2 + sumPairs count (cp.drop 2)

def checksum (cp : List UInt8) (count : ℕ) : Bool :=
  cp.all isxdigit && (count + sumPairs count cp) % 256 == 0xff

/-! ## One line -/

structure SrecState where
  writer : Writer
  s1s2s3Total : ℕ

def notForMips (count least : ℕ) : Except String SrecState :=
  if count < least then .error "Invalid Srecord count field" else .error "Srecord Not valid for MIPS"

/-- The loop over the data bytes of an S3 record. -/
def outBytes : ℕ → ℕ → List UInt8 → Writer → Writer
  | 0, _, _, w => w
  | count + 1, adr, p, w =>
      outBytes count ((adr + 1) % 2 ^ 32) (p.drop 2) (w.binRecOutByte adr (UInt8.ofNat (gh p 2)))

def srecType (s : SrecState) (ch : UInt8) (count : ℕ) (p : List UInt8) : Except String SrecState :=
  match Char.ofNat ch.toNat with
  | '0' =>
      if count < 3 then .error "Invalid Srecord count field"
      else if gh p 4 ≠ 0 then .error "Srecord 1 address not zero"
      else .ok s
  | '1' => notForMips count 3
  | '2' => notForMips count 4
  | '3' =>
      if count < 5 then .error "Invalid Srecord count field"
      else .ok {
        writer := outBytes (count - 4 - 1) (gh p 8) (p.drop 8) s.writer
        s1s2s3Total := (s.s1s2s3Total + 1) % 2 ^ 32 }
  | '4' => .error "Invalid Srecord type"
  | '5' =>
      if count < 3 then .error "Invalid Srecord count field"
      -- the source has `itmp |= s1s2s3_total` as the condition
      else if gh p 4 ||| s.s1s2s3Total ≠ 0 then .error "Incorrect number of S3 Record processed"
      else .ok s
  | '6' => .error "Invalid Srecord type"
  | '7' =>
      if count < 5 then .error "Invalid Srecord count field"
      else if count - 4 ≠ 1 then .error "Invalid Srecord count field"
      else .ok { s with writer := s.writer.binRecOutProgramStart (gh p 8) }
  | '8' => notForMips count 4
  | '9' => notForMips count 3
  | _ => .ok s

/-- A line without its line end. The error is the text that is printed. -/
def srecLine (s : SrecState) (line : List UInt8) : Except String SrecState :=
  if Char.ofNat (line.headD 0).toNat ≠ 'S' then .error "Not an Srecord file"
  else if (line.drop 1).length < 4 then .error "Srecord too short"
  else
    let ch := (line.drop 1).headD 0
    let count := gh (line.drop 2) 2
    let p := line.drop 4
    if count * 2 ≠ p.length then .error "Count field larger than record"
    else if checksum p count = false then .error "Bad Checksum"
    else srecType s ch count p

/-! ## The program -/

/-- A line and what follows it in the file; of a line that is too long the rest is skipped, and
carriage returns are skipped everywhere. `none` at the end of the file. -/
def readline : ℕ → ℕ → List UInt8 → List UInt8 → Option (List UInt8 × List UInt8)
  | _, rlen, buf, [] => if rlen = 0 then none else some (buf, [])
  | len, rlen, buf, c :: rest =>
      if c = 10 then some (buf, rest)
      else if 1 < len ∧ c ≠ 13 then readline (len - 1) (rlen + 1) (buf ++ [c]) rest
      else readline len (rlen + 1) buf rest

/-- The line that `strlen` and `srecLine` see in the buffer. -/
def lineOf (buff : List UInt8) : List UInt8 := buff.takeWhile (· ≠ 0)

/-- The loop of `srec2bin`, which ends with the file or at the first line that fails. -/
def srecLoop : ℕ → SrecState → List UInt8 → SrecState
  | 0, s, _ => s
  | fuel + 1, s, input =>
      match readline 256 0 [] input with
      | none => s
      | some (buff, rest) =>
          if lineOf buff = [] then srecLoop fuel s rest
          else
            match srecLine s (lineOf buff) with
            | .error _ => s
            | .ok s' => srecLoop fuel s' rest

def tagOf (bigEndian : Bool) : ℕ := if bigEndian then 0xDEADBE42 else 0xFEEDFA42

def initialState (tag : ℕ) : SrecState where
  writer := Writer.binOut32 ⟨[], false, 0, 0, 0xFFFFFFFF⟩ tag
  s1s2s3Total := 0

def srec2bin (bigEndian : Bool) (input : List UInt8) : List UInt8 :=
  (srecLoop (input.length + 1) (initialState (tagOf bigEndian)) input).writer.binRecEnd.out

end Neufbox.Srec
