import Neufbox.Library.Memory
import Neufbox.Library.Runs
import Neufbox.Library.WrapArith

/-! # The binary format of srec2bin

The head of `srec2bin.c` describes the output: a tag, then records of a length, an address, that many
bytes and a checksum, all words of 32 bits; a record of length zero gives the program start. This module
is that description: the words as `binOut32` writes them, a decoder for files, and what a decoded file
says about its own length. -/
namespace Neufbox.Srec
open Blocks Memory WrapArith
set_option autoImplicit false
set_option maxHeartbeats 250000
set_option maxRecDepth 120000

/-! ## Records -/

structure BinRecord where
  address : ℕ
  data : List UInt8

def byteSum (bs : List UInt8) : ℕ := (bs.map UInt8.toNat).sum

@[simp] theorem byteSum_nil : byteSum [] = 0 := rfl

@[simp] theorem byteSum_cons (b : UInt8) (bs : List UInt8) : byteSum (b :: bs) = b.toNat + byteSum bs := rfl

@[simp] theorem byteSum_append (as bs : List UInt8) : byteSum (as ++ bs) = byteSum as + byteSum bs := by
  simp [byteSum]

/-- `CHECKSUM : 0 - (Sum of Length --> End of Data)`. -/
def binChecksum (length address : ℕ) (data : List UInt8) : ℕ :=
  wrapSub 32 0 (length + address + byteSum data)

theorem binChecksum_lt (length address : ℕ) (data : List UInt8) : binChecksum length address data < 2 ^ 32 :=
  Nat.mod_lt _ (by norm_num)

namespace BinRecord

def encode (r : BinRecord) : List UInt8 :=
  leBytes r.data.length ++ leBytes r.address ++ r.data ++
    leBytes (binChecksum r.data.length r.address r.data)

structure Valid (r : BinRecord) : Prop where
  address : r.address < 2 ^ 32
  data : r.data.length < 2 ^ 32

theorem encode_length (r : BinRecord) : r.encode.length = 12 + r.data.length := by
  simp only [encode, List.length_append, leBytes_length]
  omega

end BinRecord

/-! ## Decoding -/

/-- What a file tells the loader: a byte for an address, or the program start. -/
inductive Item
  | byte (address : ℕ) (value : UInt8)
  | start (address : ℕ)
  deriving DecidableEq

/-- The bytes from an address on; addresses have 32 bits. -/
def bytesAt : ℕ → List UInt8 → List (ℕ × UInt8)
  | _, [] => []
  | a, b :: bs => (a, b) :: bytesAt ((a + 1) % 2 ^ 32) bs

def assignments (bs : List (ℕ × UInt8)) : List Item := bs.map fun p => .byte p.1 p.2

def BinRecord.items (r : BinRecord) : List Item :=
  if r.data = [] then [.start r.address] else assignments (bytesAt r.address r.data)

/-- Each round reads one record; `fuel` bounds the rounds. -/
def decodeRecords : ℕ → List UInt8 → Option (List Item)
  | _, [] => some []
  | 0, _ :: _ => none
  | fuel + 1, b :: tail =>
      let bs := b :: tail
      let length := leWord (bs.take 4)
      let address := leWord ((bs.drop 4).take 4)
      let data := (bs.drop 8).take length
      if bs.length < 12 + length then none
      else if leWord ((bs.drop (8 + length)).take 4) ≠ binChecksum length address data then none
      else (decodeRecords fuel (bs.drop (12 + length))).map ((BinRecord.mk address data).items ++ ·)

def decode (file : List UInt8) : Option (ℕ × List Item) :=
  if file.length < 4 then none
  else (decodeRecords file.length (file.drop 4)).map fun items => (leWord (file.take 4), items)

/-! ## Decoding what was encoded -/

def encodeRecords (rs : List BinRecord) : List UInt8 := rs.flatMap BinRecord.encode

theorem encodeRecords_length (rs : List BinRecord) :
    (encodeRecords rs).length = (rs.map fun r => 12 + r.data.length).sum := by
  simp [encodeRecords, List.length_flatMap, BinRecord.encode_length]

theorem decodeRecords_encode (fuel : ℕ) (r : BinRecord) (hr : r.Valid) (rest : List UInt8) :
    decodeRecords (fuel + 1) (r.encode ++ rest) = (decodeRecords fuel rest).map (r.items ++ ·) := by
  obtain ⟨b, bs, hbs⟩ : ∃ b bs, r.encode ++ rest = b :: bs := by
    apply List.exists_cons_of_length_pos
    rw [List.length_append, r.encode_length]
    omega
  have hcut : r.encode ++ rest = leBytes r.data.length ++ (leBytes r.address ++
      (r.data ++ (leBytes (binChecksum r.data.length r.address r.data) ++ rest))) := by
    simp only [BinRecord.encode, List.append_assoc]
  have hlength : leWord ((r.encode ++ rest).take 4) = r.data.length := by
    rw [hcut, List.take_left' (leBytes_length _), leWord_leBytes hr.data]
  have hbody : (r.encode ++ rest).drop 8 =
      r.data ++ (leBytes (binChecksum r.data.length r.address r.data) ++ rest) := by
    rw [hcut, ← List.append_assoc, List.drop_left' (by simp)]
  have haddress : leWord (((r.encode ++ rest).drop 4).take 4) = r.address := by
    rw [hcut, List.drop_left' (leBytes_length _), List.take_left' (leBytes_length _),
      leWord_leBytes hr.address]
  have hdata : ((r.encode ++ rest).drop 8).take r.data.length = r.data := by
    rw [hbody, List.take_left]
  have hsum : leWord (((r.encode ++ rest).drop (8 + r.data.length)).take 4) =
      binChecksum r.data.length r.address r.data := by
    rw [← List.drop_drop, hbody, List.drop_left, List.take_left' (leBytes_length _),
      leWord_leBytes (binChecksum_lt _ _ _)]
  have hrest : (r.encode ++ rest).drop (12 + r.data.length) = rest := List.drop_left' r.encode_length
  have hroom : ¬ (r.encode ++ rest).length < 12 + r.data.length := by
    rw [List.length_append, r.encode_length]
    omega
  rw [hbs, decodeRecords, ← hbs]
  simp only [hlength, haddress, hdata, hsum, hrest, hroom, if_false, ne_eq, not_true]

theorem decodeRecords_encodeRecords (rs : List BinRecord) (hrs : ∀ r ∈ rs, r.Valid) (fuel : ℕ)
    (hfuel : rs.length ≤ fuel) : decodeRecords fuel (encodeRecords rs) = some (rs.flatMap BinRecord.items) := by
  induction rs generalizing fuel with
  | nil => cases fuel <;> rfl
  | cons r rs ih =>
    obtain ⟨n, rfl⟩ : ∃ n, fuel = n + 1 := ⟨fuel - 1, by rw [List.length_cons] at hfuel; omega⟩
    have htail := ih (fun q hq => hrs q (List.mem_cons_of_mem _ hq)) n
      (by rw [List.length_cons] at hfuel; omega)
    show decodeRecords (n + 1) (r.encode ++ encodeRecords rs) = _
    rw [decodeRecords_encode n r (hrs r List.mem_cons_self), htail, Option.map_some, List.flatMap_cons]

theorem decode_encodeRecords {tag : ℕ} (htag : tag < 2 ^ 32) (rs : List BinRecord)
    (hrs : ∀ r ∈ rs, r.Valid) :
    decode (leBytes tag ++ encodeRecords rs) = some (tag, rs.flatMap BinRecord.items) := by
  have hfuel : rs.length ≤ (leBytes tag ++ encodeRecords rs).length := by
    have hle : rs.length ≤ (rs.map fun r => 12 + r.data.length).sum := by
      simp only [List.sum_map_add, List.map_const', List.sum_replicate, smul_eq_mul]
      omega
    rw [List.length_append, encodeRecords_length]
    omega
  rw [decode, if_neg (by rw [List.length_append, leBytes_length]; omega), List.drop_left' (leBytes_length tag),
    List.take_left' (leBytes_length tag), decodeRecords_encodeRecords rs hrs _ hfuel, leWord_leBytes htag,
    Option.map_some]

/-! ## What a decoded file must look like -/

theorem leWord_take_lt (bs : List UInt8) : leWord (bs.take 4) < 2 ^ 32 := by
  have hlen : (bs.take 4).length ≤ 4 := List.length_take_le 4 bs
  calc leWord (bs.take 4) < 256 ^ (bs.take 4).length := leWord_lt _
    _ ≤ 256 ^ 4 := Nat.pow_le_pow_right (by norm_num) hlen
    _ = 2 ^ 32 := by norm_num

/-- A file that decodes is made of records with data of less than `2 ^ 32` bytes. -/
theorem decodeRecords_sound {fuel : ℕ} {bs : List UInt8} {items : List Item}
    (h : decodeRecords fuel bs = some items) :
    ∃ rs : List BinRecord, items = rs.flatMap BinRecord.items ∧
      bs.length = (rs.map fun r => 12 + r.data.length).sum ∧ ∀ r ∈ rs, r.data.length < 2 ^ 32 := by
  induction fuel generalizing bs items with
  | zero =>
    cases bs with
    | nil =>
      cases h
      exact ⟨[], rfl, rfl, by simp⟩
    | cons b bs => cases h
  | succ fuel ih =>
    cases bs with
    | nil =>
      cases h
      exact ⟨[], rfl, rfl, by simp⟩
    | cons b bs =>
      rw [decodeRecords] at h
      have hlt := leWord_take_lt (b :: bs)
      generalize leWord ((b :: bs).take 4) = length at h hlt
      split at h
      · cases h
      · next hroom =>
        split at h
        · cases h
        · rw [Option.map_eq_some_iff] at h
          obtain ⟨rest, hrest, rfl⟩ := h
          obtain ⟨rs, rfl, hlen, hrs⟩ := ih hrest
          have hdata : (((b :: bs).drop 8).take length).length = length := by
            rw [List.length_take, List.length_drop]
            omega
          refine ⟨⟨_, ((b :: bs).drop 8).take length⟩ :: rs, rfl, ?_, ?_⟩
          · rw [List.map_cons, List.sum_cons, ← hlen, hdata, List.length_drop]
            omega
          · intro r hr
            rcases List.mem_cons.mp hr with rfl | hr
            · rwa [hdata]
            · exact hrs r hr

end Neufbox.Srec
