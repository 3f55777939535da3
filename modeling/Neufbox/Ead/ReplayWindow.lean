import Neufbox.Ead.Sha

/-! # The IV window between two keys

Receiver side: whatever arrives, the IVs of the accepted messages only grow. Sender side: `Link` is a
sender and a receiver with the same session key and a line that may lose messages. The receiver adds
the window to its last IV in 32 bits, so it takes what arrives exactly as long as that sum does not
wrap. -/
namespace Neufbox.Ead
open Blocks RunAlong
set_option autoImplicit false
set_option maxHeartbeats 250000
set_option maxRecDepth 120000

/-! ## Accepted messages -/

/-- What is done with a key between two calls of `ead_set_key`. -/
inductive CryptOp where
  | encrypt (payload : List UInt8) (behind : ℕ → UInt8)
  | decrypt (len : ℕ) (enc : List UInt8)

def cryptStep (k : Cipher) (c : Crypt) : CryptOp → Crypt
  | .encrypt payload behind => (eadEncryptMessage k c payload behind).1
  | .decrypt len enc => (eadDecryptMessage k c len enc).1

/-- The message a step accepts: its length and buffer, as received. -/
def acceptedBy (k : Cipher) (c : Crypt) : CryptOp → Option (ℕ × List UInt8)
  | .encrypt _ _ => none
  | .decrypt len enc => (eadDecryptMessage k c len enc).2.map fun _ => (len, enc)

def accepted (k : Cipher) : Crypt → List CryptOp → List (ℕ × List UInt8)
  | _, [] => []
  | c, op :: ops => (acceptedBy k c op).toList ++ accepted k (cryptStep k c op) ops

def messageIv (k : Cipher) (key : List UInt8) (m : ℕ × List UInt8) : ℕ :=
  ivField (decryptBlocks k key m.1 m.2)

/-- One step keeps the key and the receive IV does not fall; a message it accepts has an IV above the
old one, and the new one is that IV. -/
theorem cryptStep_iv (k : Cipher) (c : Crypt) (op : CryptOp) :
    (cryptStep k c op).key = c.key ∧ c.rxIv ≤ (cryptStep k c op).rxIv ∧
      ∀ m, acceptedBy k c op = some m →
        c.rxIv < messageIv k c.key m ∧ (cryptStep k c op).rxIv = messageIv k c.key m := by
  cases op with
  | encrypt payload behind => exact ⟨rfl, le_refl _, fun m h => by cases h⟩
  | decrypt len enc =>
    simp only [cryptStep, acceptedBy]
    obtain ⟨hnone, hc | ⟨hlt, hc⟩⟩ | ⟨hsome, -, -, -, hlt, -, -⟩ := eadDecryptMessage_cases k c len enc
    · rw [hnone, hc]
      exact ⟨rfl, le_refl _, fun m h => by cases h⟩
    · rw [hnone, hc]
      exact ⟨rfl, hlt.le, fun m h => by cases h⟩
    · rw [hsome]
      refine ⟨rfl, hlt.le, fun m h => ?_⟩
      cases h
      exact ⟨hlt, rfl⟩

theorem accepted_increasing (k : Cipher) (ops : List CryptOp) (c : Crypt) :
    ((accepted k c ops).map (messageIv k c.key)).Pairwise (· < ·) ∧
      ∀ m ∈ accepted k c ops, c.rxIv < messageIv k c.key m := by
  induction ops generalizing c with
  | nil => exact ⟨List.Pairwise.nil, fun m hm => by cases hm⟩
  | cons op ops ih =>
    obtain ⟨hkey, hle, hacc⟩ := cryptStep_iv k c op
    obtain ⟨hpair, habove⟩ := ih (cryptStep k c op)
    rw [hkey] at hpair habove
    rw [accepted]
    cases hm : acceptedBy k c op with
    | none =>
      exact ⟨hpair, fun m h => lt_of_le_of_lt hle (habove m h)⟩
    | some m =>
      obtain ⟨hlt, hrx⟩ := hacc m hm
      refine ⟨List.pairwise_cons.mpr ⟨?_, hpair⟩, ?_⟩
      · intro iv hiv
        obtain ⟨m', hm', rfl⟩ := List.mem_map.mp hiv
        rw [← hrx]
        exact habove m' hm'
      · intro m' hm'
        rcases List.mem_cons.mp hm' with rfl | hm'
        · exact hlt
        · exact lt_of_le_of_lt hle (habove m' hm')

theorem accepted_nodup (k : Cipher) (ops : List CryptOp) (c : Crypt) : (accepted k c ops).Nodup :=
  List.Pairwise.of_map (messageIv k c.key) (fun _ _ h he => absurd (he ▸ h) (lt_irrefl _))
    (accepted_increasing k ops c).1

/-! ## A sender and a receiver -/

structure Link where
  sender : Crypt
  receiver : Crypt
  deriving DecidableEq

def keyed (bigEndian : Bool) (sender receiver : Crypt) (skey : List UInt8) : Link :=
  ⟨eadSetKey bigEndian sender skey, eadSetKey bigEndian receiver skey⟩

def passes (l : Link) : Bool := (eadCheckRxIv l.receiver (eadGetTxIv l.sender).2).2

/-- The sender sends a message; it arrives or is lost. -/
def linkStep (l : Link) (arrives : Bool) : Link :=
  { sender := (eadGetTxIv l.sender).1
    receiver := if arrives then (eadCheckRxIv l.receiver (eadGetTxIv l.sender).2).1 else l.receiver }

/-- No 32 messages in a row are lost; `lost` were lost just before. -/
def LossesOk : ℕ → List Bool → Prop
  | _, [] => True
  | _, true :: sent => LossesOk 0 sent
  | lost, false :: sent => lost + 1 ≤ 31 ∧ LossesOk (lost + 1) sent

def Unwrapped (l : Link) (_ : Bool) : Prop := l.sender.txIv < (eadGetTxIv l.sender).2

/-- The receiver's window ends before `2 ^ 32`. -/
def WindowEnds (l : Link) : Prop := l.receiver.rxIv + eadMaxIvIncr < 2 ^ 32

/-- The receiver is at most `lost` messages behind the sender, unless its window wraps. -/
structure InStep (l : Link) (lost : ℕ) : Prop where
  behind : l.receiver.rxIv ≤ l.sender.txIv
  close : WindowEnds l → l.sender.txIv ≤ l.receiver.rxIv + 4 * lost

theorem keyed_inStep (bigEndian : Bool) (sender receiver : Crypt) (skey : List UInt8) :
    InStep (keyed bigEndian sender receiver skey) 0 := ⟨le_refl _, fun _ => le_refl _⟩

theorem eadGetTxIv_le (c : Crypt) : (eadGetTxIv c).2 ≤ c.txIv + 4 := by
  simp only [eadGetTxIv]
  have hofs := Nat.mod_lt (c.ivofsVec / 2 ^ (2 * c.ivofsIdx)) (show 4 > 0 by norm_num)
  exact (Nat.mod_le _ _).trans (by omega)

theorem eadGetTxIv_tx (c : Crypt) : (eadGetTxIv c).1.txIv = (eadGetTxIv c).2 := rfl

theorem passes_iff {l : Link} {lost : ℕ} {b : Bool} (h : InStep l lost) (hlost : lost ≤ 31)
    (hunwrapped : Unwrapped l b) : passes l = true ↔ WindowEnds l := by
  have hle := eadGetTxIv_le l.sender
  have hbehind := h.behind
  have hclose := h.close
  have hincr : eadMaxIvIncr = 128 := rfl
  rw [Unwrapped] at hunwrapped
  rw [WindowEnds] at hclose ⊢
  obtain ⟨hr, hlt, hwin⟩ | ⟨hr, hout⟩ := eadCheckRxIv_cases l.receiver (eadGetTxIv l.sender).2
  · rw [passes, hr]
    simp only [true_iff]
    -- a wrapped window ends below its start
    by_contra hwrap
    have hiv : (eadGetTxIv l.sender).2 < 2 ^ 32 := Nat.mod_lt _ (by norm_num)
    omega
  · rw [passes, hr]
    simp only [Bool.false_eq_true, false_iff]
    intro hends
    have hmod := Nat.mod_eq_of_lt hends
    have := hclose hends
    exact hout ⟨by omega, by omega⟩

theorem linkStep_arrives {l : Link} {lost : ℕ} (h : InStep l lost) (hlost : lost ≤ 31)
    (hunwrapped : Unwrapped l true) : InStep (linkStep l true) 0 := by
  have hpass := passes_iff h hlost hunwrapped
  rw [Unwrapped] at hunwrapped
  have hbehind := h.behind
  obtain ⟨hr, hlt, hwin⟩ | ⟨hr, hout⟩ := eadCheckRxIv_cases l.receiver (eadGetTxIv l.sender).2
  · refine ⟨?_, fun _ => ?_⟩
    · simp only [linkStep, if_true, hr, eadGetTxIv_tx, le_refl]
    · simp only [linkStep, if_true, hr, eadGetTxIv_tx]
      omega
  · -- rejected: the window wraps, and keeps doing so
    have hwrap : ¬ WindowEnds l := by
      rw [← hpass, passes, hr]
      simp
    refine ⟨?_, fun hends => ?_⟩
    · simp only [linkStep, if_true, hr, eadGetTxIv_tx]
      omega
    · simp only [WindowEnds, linkStep, if_true, hr] at hends
      exact absurd hends hwrap

theorem linkStep_lost {l : Link} {lost : ℕ} (h : InStep l lost) (hunwrapped : Unwrapped l false) :
    InStep (linkStep l false) (lost + 1) := by
  have hle := eadGetTxIv_le l.sender
  have hbehind := h.behind
  rw [Unwrapped] at hunwrapped
  refine ⟨?_, fun hends => ?_⟩
  · simp only [linkStep, Bool.false_eq_true, if_false, eadGetTxIv_tx]
    omega
  · have hclose := h.close hends
    simp only [linkStep, Bool.false_eq_true, if_false, eadGetTxIv_tx]
    omega

theorem link_passes (sent : List Bool) {l : Link} {lost : ℕ} (h : InStep l lost) (hlost : lost ≤ 31)
    (hloss : LossesOk lost sent) (hwrap : Along linkStep Unwrapped l sent) :
    Along linkStep (fun l arrives => arrives = true → (passes l = true ↔ WindowEnds l)) l sent := by
  induction sent generalizing l lost with
  | nil => trivial
  | cons arrives sent ih =>
    obtain ⟨hunwrapped, hrest⟩ := hwrap
    cases arrives with
    | true =>
      exact ⟨fun _ => passes_iff h hlost hunwrapped,
        ih (linkStep_arrives h hlost hunwrapped) (by norm_num) hloss hrest⟩
    | false =>
      exact ⟨(fun he => by cases he), ih (linkStep_lost h hunwrapped) hloss.1 hloss.2 hrest⟩

/-- Between two keys: whatever is received, the IVs of the accepted messages grow and no message is
accepted twice. Between a sender and a receiver with the same key, at most 31 messages lost in a row
and before the sender's IV wraps, a message that arrives passes the check if and only if the window
above the receiver's last IV ends before `2 ^ 32`. -/
theorem ead_replay_window (k : Cipher) (bigEndian : Bool) (sender receiver : Crypt)
    (skey : List UInt8) :
    (∀ ops, let c := eadSetKey bigEndian receiver skey
      ((accepted k c ops).map (messageIv k c.key)).Pairwise (· < ·) ∧ (accepted k c ops).Nodup) ∧
    ∀ sent, LossesOk 0 sent →
      Along linkStep Unwrapped (keyed bigEndian sender receiver skey) sent →
        Along linkStep (fun l arrives => arrives = true → (passes l = true ↔ WindowEnds l))
          (keyed bigEndian sender receiver skey) sent :=
  ⟨fun ops => ⟨(accepted_increasing k ops _).1, accepted_nodup k ops _⟩,
    fun sent hloss hwrap =>
      link_passes sent (keyed_inStep bigEndian sender receiver skey) (by norm_num) hloss hwrap⟩

/-- A session key whose IVs start at `0x00ffffff` and always grow by four. -/
def fastKey : List UInt8 := List.replicate 40 0xff

instance (l : Link) (b : Bool) : Decidable (Unwrapped l b) :=
  inferInstanceAs (Decidable (l.sender.txIv < (eadGetTxIv l.sender).2))

def noCipher : Cipher where
  rijndaelEncrypt _ block := block
  rijndaelDecrypt _ block := block
  sha _ := List.replicate 20 0
  encrypt_length _ _ h := h
  decrypt_encrypt _ _ _ := rfl
  sha_length _ := List.length_replicate

/-- The cipher and the hash of the daemon. -/
def daemonCipher : Cipher := Sha.eadCipher fun _ => 0

theorem ead_replay_window_one_lost :
    passes (runSteps linkStep (keyed true .init .init fastKey) [true, false]) = true := by
  have hrun := (ead_replay_window daemonCipher true .init .init fastKey).2 [true, false, true]
    ⟨by norm_num, trivial⟩ ⟨by decide, by decide, by decide, trivial⟩
  exact (hrun.2.2.1 rfl).mpr (by unfold WindowEnds; decide)

/-! ## The end of the window -/

def fastLink (n idx : ℕ) : Link :=
  ⟨⟨fastKey.take 32, 0xffffff, 0xffffff + 4 * n, 0xffffffff, idx⟩,
    ⟨fastKey.take 32, 0xffffff + 4 * n, 0xffffff, 0xffffffff, 0⟩⟩

theorem fast_txIv {n idx : ℕ} (hidx : idx < 16) (hn : 0xffffff + 4 * (n + 1) < 2 ^ 32) :
    eadGetTxIv (fastLink n idx).sender = ((fastLink (n + 1) ((idx + 1) % 16)).sender, 0xffffff + 4 * (n + 1)) := by
  have hofs : 0xffffffff / 2 ^ (2 * idx) % 4 = 3 := by interval_cases idx <;> rfl
  have hiv : (0xffffff + 4 * n + (1 + 3)) % 2 ^ 32 = 0xffffff + 4 * (n + 1) := by
    rw [Nat.mod_eq_of_lt (by omega)]
    omega
  simp only [eadGetTxIv, fastLink, hofs, hiv]

theorem fast_step {n idx : ℕ} (hidx : idx < 16) (hwin : 0xffffff + 4 * n + 128 < 2 ^ 32) :
    linkStep (fastLink n idx) true = fastLink (n + 1) ((idx + 1) % 16) := by
  have htx := fast_txIv hidx (by omega : 0xffffff + 4 * (n + 1) < 2 ^ 32)
  have hrx : eadCheckRxIv (fastLink n idx).receiver (0xffffff + 4 * (n + 1)) =
      ((fastLink (n + 1) 0).receiver, true) := by
    have hmod := Nat.mod_eq_of_lt hwin
    simp only [eadCheckRxIv, fastLink, eadMaxIvIncr, hmod]
    rw [if_neg (by omega), if_neg (by omega)]
  simp only [linkStep, htx, hrx, if_true]
  rfl

theorem fast_run (n : ℕ) (hwin : 0xffffff + 4 * n + 128 < 2 ^ 32 + 4) :
    (∃ idx < 16, runSteps linkStep (keyed true .init .init fastKey) (List.replicate n true) =
      fastLink n idx) ∧
    Along linkStep Unwrapped (keyed true .init .init fastKey) (List.replicate n true) := by
  induction n with
  | zero => exact ⟨⟨0, by norm_num, by decide⟩, trivial⟩
  | succ n ih =>
    obtain ⟨⟨idx, hidx, hrun⟩, halong⟩ := ih (by omega)
    rw [List.replicate_succ', runSteps_append, hrun]
    refine ⟨⟨(idx + 1) % 16, Nat.mod_lt _ (by norm_num), fast_step hidx (by omega)⟩, ?_⟩
    refine along_append.mpr ⟨halong, ?_, trivial⟩
    rw [hrun, Unwrapped, fast_txIv hidx (by omega)]
    simp only [fastLink]
    omega

theorem lossesOk_replicate (n lost : ℕ) : LossesOk lost (List.replicate n true) := by
  induction n generalizing lost with
  | zero => trivial
  | succ n ih => exact ih 0

theorem fast_end (n : ℕ) (hwin : 0xffffff + 4 * n + 128 < 2 ^ 32 + 4)
    (hend : 2 ^ 32 ≤ 0xffffff + 4 * n + 128) :
    ¬ (LossesOk 0 (List.replicate (n + 1) true) →
      Along linkStep Unwrapped (keyed true .init .init fastKey) (List.replicate (n + 1) true) →
        Along linkStep (fun l arrives => arrives = true → passes l = true)
          (keyed true .init .init fastKey) (List.replicate (n + 1) true)) := by
  intro h
  obtain ⟨⟨idx, hidx, hrun⟩, halong⟩ := fast_run n hwin
  have htx := fast_txIv (n := n) hidx (by omega)
  have hlast : Unwrapped (fastLink n idx) true := by
    rw [Unwrapped, htx]
    simp only [fastLink]
    omega
  have hall := h (lossesOk_replicate _ 0)
    (by rw [List.replicate_succ', along_append, hrun]; exact ⟨halong, hlast, trivial⟩)
  rw [List.replicate_succ', along_append, hrun] at hall
  have hpass := hall.2.1 rfl
  obtain ⟨hr, -, hle⟩ | ⟨hr, -⟩ :=
    eadCheckRxIv_cases (fastLink n idx).receiver (eadGetTxIv (fastLink n idx).sender).2
  · rw [htx] at hle
    simp only [fastLink, eadMaxIvIncr] at hle
    omega
  · rw [passes, hr] at hpass
    cases hpass

/-- A session with the fast key stops after 1069547489 messages, none of them lost: the receiver's IV
is 4294967171, the sender's next one 4294967175, and it does not pass. -/
theorem ead_window_wraps :
    ¬ ∀ (sender receiver : Crypt) (skey : List UInt8) (sent : List Bool), LossesOk 0 sent →
      Along linkStep Unwrapped (keyed true sender receiver skey) sent →
        Along linkStep (fun l arrives => arrives = true → passes l = true)
          (keyed true sender receiver skey) sent :=
  fun h => fast_end 1069547489 (by norm_num) (by norm_num) (h .init .init fastKey _)

end Neufbox.Ead
