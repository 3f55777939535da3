import Mathlib.Tactic

/-! # 16-bit words in memory

A word lies in memory in the byte order of the host. A little-endian field is a word whose bytes are swapped on a
big-endian host: converted before it is stored, it has the same bytes everywhere (`memBytes_cpuToLe16`); stored as
it is, it has the bytes of a little-endian field only if the host is little-endian or its two bytes are the same
(`memBytes_eq_leBytes_iff`). Nothing here names a program. -/
namespace Neufbox.Library.HostWords
set_option autoImplicit false
set_option maxHeartbeats 250000
set_option maxRecDepth 120000

inductive Endian
  | little
  | big
  deriving DecidableEq, Repr

def leBytes (w : BitVec 16) : List UInt8 := [UInt8.ofNat w.toNat, UInt8.ofNat (w.toNat / 256)]

def ofLeBytes : List UInt8 → BitVec 16
  | [a, b] => BitVec.ofNat 16 (a.toNat + 256 * b.toNat)
  | _ => 0#16

def swab16 (w : BitVec 16) : BitVec 16 := BitVec.ofNat 16 (w.toNat % 256 * 256 + w.toNat / 256)

variable (host : Endian)

/-- The bytes of a word in the memory of the host. -/
def memBytes (w : BitVec 16) : List UInt8 :=
  match host with
  | .little => leBytes w
  | .big => (leBytes w).reverse

def ofMemBytes (bs : List UInt8) : BitVec 16 :=
  match host with
  | .little => ofLeBytes bs
  | .big => ofLeBytes bs.reverse

def cpuToLe16 (w : BitVec 16) : BitVec 16 :=
  match host with
  | .little => w
  | .big => swab16 w

def le16ToCpu (w : BitVec 16) : BitVec 16 := cpuToLe16 host w

@[simp] theorem length_leBytes (w : BitVec 16) : (leBytes w).length = 2 := rfl

@[simp] theorem length_memBytes (w : BitVec 16) : (memBytes host w).length = 2 := by
  cases host <;> rfl

theorem toNat_swab16 (w : BitVec 16) : (swab16 w).toNat = w.toNat % 256 * 256 + w.toNat / 256 := by
  have hw := w.isLt
  rw [swab16, BitVec.toNat_ofNat, Nat.mod_eq_of_lt]
  omega

theorem swab16_swab16 (w : BitVec 16) : swab16 (swab16 w) = w := by
  have hw := w.isLt
  apply BitVec.eq_of_toNat_eq
  rw [toNat_swab16, toNat_swab16]
  omega

theorem ofLeBytes_leBytes (w : BitVec 16) : ofLeBytes (leBytes w) = w := by
  have hw := w.isLt
  apply BitVec.eq_of_toNat_eq
  rw [leBytes, ofLeBytes, BitVec.toNat_ofNat, UInt8.toNat_ofNat', UInt8.toNat_ofNat']
  omega

theorem leBytes_swab16 (w : BitVec 16) : leBytes (swab16 w) = (leBytes w).reverse := by
  have hw := w.isLt
  have hlow : UInt8.ofNat (swab16 w).toNat = UInt8.ofNat (w.toNat / 256) := by
    apply UInt8.toNat_inj.mp
    rw [UInt8.toNat_ofNat', UInt8.toNat_ofNat', toNat_swab16]
    omega
  have hhigh : UInt8.ofNat ((swab16 w).toNat / 256) = UInt8.ofNat w.toNat := by
    have hdiv : (w.toNat % 256 * 256 + w.toNat / 256) / 256 = w.toNat % 256 := by omega
    apply UInt8.toNat_inj.mp
    rw [UInt8.toNat_ofNat', UInt8.toNat_ofNat', toNat_swab16, hdiv]
    omega
  rw [leBytes, hlow, hhigh]
  rfl

/-- What is read back is what was stored. -/
@[simp] theorem ofMemBytes_memBytes (w : BitVec 16) : ofMemBytes host (memBytes host w) = w := by
  cases host with
  | little => exact ofLeBytes_leBytes w
  | big =>
    rw [memBytes, ofMemBytes, List.reverse_reverse]
    exact ofLeBytes_leBytes w

@[simp] theorem le16ToCpu_cpuToLe16 (w : BitVec 16) : le16ToCpu host (cpuToLe16 host w) = w := by
  cases host with
  | little => rfl
  | big => exact swab16_swab16 w

/-- A converted word has the same bytes on every host. -/
@[simp] theorem memBytes_cpuToLe16 (w : BitVec 16) : memBytes host (cpuToLe16 host w) = leBytes w := by
  cases host with
  | little => rfl
  | big =>
    rw [memBytes, cpuToLe16, leBytes_swab16, List.reverse_reverse]

@[simp] theorem ofMemBytes_leBytes (w : BitVec 16) : ofMemBytes host (leBytes w) = cpuToLe16 host w := by
  rw [← memBytes_cpuToLe16 host w, ofMemBytes_memBytes]

/-- A word that is the same before and after the conversion. -/
def Unchanged (w : BitVec 16) : Prop := host = .little ∨ swab16 w = w

theorem cpuToLe16_eq_iff (w : BitVec 16) : cpuToLe16 host w = w ↔ Unchanged host w := by
  cases host with
  | little => simp [Unchanged, cpuToLe16]
  | big => simp [Unchanged, cpuToLe16]

theorem memBytes_eq_leBytes_iff (w : BitVec 16) : memBytes host w = leBytes w ↔ Unchanged host w := by
  rw [← cpuToLe16_eq_iff]
  constructor
  · intro h
    rw [← ofMemBytes_leBytes host w, ← h, ofMemBytes_memBytes]
  · intro h
    rw [← memBytes_cpuToLe16 host w, h]

end Neufbox.Library.HostWords
