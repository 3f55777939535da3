import Neufbox.Bignum.Bytes
import Neufbox.Bignum.ModExpWords
import Neufbox.Ead.SrpAgree

/-! # The numbers of the password protocol on words

`t_math.c` of `package/ead/src/tinysrp` goes from bytes to big numbers and back, and takes powers of them. The protocol
is modelled on natural numbers; this is what the words come to. -/
namespace Neufbox.Ead.Srp
open Bignum
set_option autoImplicit false
set_option maxHeartbeats 250000

variable {z : WordSize}

/-- Bytes hold a number as the protocol takes them to, and a number of words survives the way through bytes. -/
theorem bytes_on_words (s : List UInt8) (a : BigNum z) :
    (bnBin2bn s : BigNum z).abs = bigIntegerFromBytes s ∧ bnBn2bin a = bigIntegerToBytes a.abs ∧
      (bnBin2bn (bnBn2bin a) : BigNum z).abs = a.abs := by
  have hto : bnBn2bin a = bigIntegerToBytes a.abs := bnBn2bin_eq a
  refine ⟨bnBin2bn_abs s, hto, ?_⟩
  rw [bnBin2bn_abs, hto]
  exact bigIntegerFromBytes_toBytes a.abs

/-- A power by way of words, from bytes to bytes, is the power the protocol takes. -/
theorem modExp_on_words (mem : ℕ → ℕ) (base exponent modulus : List UInt8) :
    ((bnModExpSimple mem (bnBin2bn base : BigNum z) (bnBin2bn exponent) (bnBin2bn modulus)).map BigNum.abs).getD 0 =
      bigIntegerModExp (bigIntegerFromBytes base) (bigIntegerFromBytes exponent) (bigIntegerFromBytes modulus) := by
  rw [bnModExpSimple_abs, bnBin2bn_abs, bnBin2bn_abs, bnBin2bn_abs]
  rfl

/-- Bytes, numbers and powers on words of either size, whatever memory held: what the protocol computes with. -/
theorem protocol_numbers (mem : ℕ → ℕ) (s base exponent modulus : List UInt8) (a : BigNum z) :
    (bnBin2bn s : BigNum z).abs = bigIntegerFromBytes s ∧ bnBn2bin a = bigIntegerToBytes a.abs ∧
      (bnBin2bn (bnBn2bin a) : BigNum z).abs = a.abs ∧
      ((bnModExpSimple mem (bnBin2bn base : BigNum z) (bnBin2bn exponent) (bnBin2bn modulus)).map BigNum.abs).getD 0 =
        bigIntegerModExp (bigIntegerFromBytes base) (bigIntegerFromBytes exponent) (bigIntegerFromBytes modulus) := by
  obtain ⟨hfrom, hto, hback⟩ := bytes_on_words s a
  exact ⟨hfrom, hto, hback, modExp_on_words mem base exponent modulus⟩

end Neufbox.Ead.Srp
