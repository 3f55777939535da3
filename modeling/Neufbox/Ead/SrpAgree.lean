import Neufbox.Ead.Srp

/-! # Both sides of the password protocol agree

With the right password the key the client takes from `B` is the key the server takes from `A`, the
server accepts the client's proof, and the client accepts the server's, but for a proof that happens to be the one
of the old protocol. -/
namespace Neufbox.Ead.Srp
open Blocks Bignum TinySha Sha1
set_option autoImplicit false
set_option maxHeartbeats 250000
set_option maxRecDepth 120000

/-! ## Big numbers as bytes -/

theorem beWord_append (as : List UInt8) (b : UInt8) : beWord (as ++ [b]) = 256 * beWord as + b.toNat := by
  rw [beWord, List.foldl_append, List.foldl_cons, List.foldl_nil]
  rfl

theorem beWord_digits (ds : List ℕ) (h : ∀ d ∈ ds, d < 256) :
    beWord (ds.reverse.map UInt8.ofNat) = Nat.ofDigits 256 ds := by
  induction ds with
  | nil => rfl
  | cons d ds ih =>
    have hd := h d List.mem_cons_self
    rw [List.reverse_cons, List.map_append, List.map_singleton, beWord_append,
      ih fun e he => h e (List.mem_cons_of_mem _ he), Nat.ofDigits_cons, UInt8.toNat_ofNat', Nat.mod_eq_of_lt hd]
    exact Nat.add_comm _ _

/-- A number survives the way through bytes. -/
@[simp] theorem bigIntegerFromBytes_toBytes (n : ℕ) : bigIntegerFromBytes (bigIntegerToBytes n) = n := by
  rw [bigIntegerFromBytes, bigIntegerToBytes, beWord_digits _ fun d hd => Nat.digits_lt_base (by norm_num) hd,
    Nat.ofDigits_digits]

theorem beWord_lt (bs : List UInt8) : beWord bs < 256 ^ bs.length := by
  induction bs using List.reverseRecOn with
  | nil => norm_num [beWord]
  | append_singleton bs b ih =>
    have hb := b.toNat_lt
    rw [beWord_append, List.length_append, List.length_singleton, pow_succ]
    omega

/-- A number no greater than one that fits some bytes fits as many. -/
theorem bigIntegerToBytes_length {n : ℕ} {bs : List UInt8} (h : n ≤ bigIntegerFromBytes bs) :
    (bigIntegerToBytes n).length ≤ bs.length := by
  rw [bigIntegerToBytes, List.length_map, List.length_reverse]
  exact (Nat.digits_length_le_iff (by norm_num) n).mpr (h.trans_lt (beWord_lt bs))

theorem bigIntegerModExp_eq (b e : ℕ) {m : ℕ} (hm : 1 < m) : bigIntegerModExp b e m = b ^ e % m := by
  rw [bigIntegerModExp, bnModExp_eq]
  by_cases he : e = 0
  · rw [if_pos he, he, pow_zero, Nat.mod_eq_of_lt hm]
    rfl
  · rw [if_neg he, if_neg (by omega)]
    rfl

theorem memcmp_eq_zero {as bs : List UInt8} (h : as.length = bs.length) : memcmp as bs = 0 ↔ as = bs := by
  induction as generalizing bs with
  | nil =>
    rw [List.length_nil] at h
    rw [List.length_eq_zero_iff.mp h.symm]
    exact ⟨fun _ => rfl, fun _ => rfl⟩
  | cons a as ih =>
    cases bs with
    | nil => exact absurd h (Nat.succ_ne_zero _)
    | cons b bs =>
      rw [memcmp, List.headD_cons, List.tail_cons]
      by_cases hab : a = b
      · rw [if_pos hab, ih (Nat.succ.inj h), hab, List.cons.injEq]
        exact ⟨fun h => ⟨rfl, h⟩, fun h => h.2⟩
      · rw [if_neg hab]
        refine ⟨fun h0 => absurd (UInt8.toNat_inj.mp (by omega)) hab, fun h0 => absurd (List.cons.inj h0).1 hab⟩

/-! ## Hashes -/

section Hashes
variable (bigEndian : Bool)

theorem shaOf_eq {pieces : List (List UInt8)} (h : ∀ data ∈ pieces, data.length < 2 ^ 31) :
    shaOf bigEndian pieces = sha1 pieces.flatten :=
  ((Holds.start List.length_replicate).updates bigEndian pieces h).final bigEndian

theorem holds_fresh : Holds freshHash [] := Holds.start List.length_replicate

/-- What `t_serveropenraw` and `t_clientopen` put into the hash both start from. -/
def opening (name salt modulus generator : List UInt8) : List UInt8 :=
  [xorBytes (shaOf bigEndian [modulus]) (shaOf bigEndian [generator]), shaOf bigEndian [name], salt].flatten

theorem shaOf_length (pieces : List (List UInt8)) : (shaOf bigEndian pieces).length = 20 := rfl

theorem holds_opening (name salt modulus generator : List UInt8) (hsalt : salt.length < 2 ^ 31) :
    Holds ([xorBytes (shaOf bigEndian [modulus]) (shaOf bigEndian [generator]), shaOf bigEndian [name], salt].foldl
      (sha1Update bigEndian) freshHash) (opening bigEndian name salt modulus generator) := by
  refine holds_fresh.updates bigEndian _ fun data hdata => ?_
  rw [List.mem_cons, List.mem_cons, List.mem_singleton] at hdata
  obtain rfl | rfl | rfl := hdata
  · rw [xorBytes, List.length_zipWith, shaOf_length, shaOf_length]
    norm_num
  · rw [shaOf_length]
    norm_num
  · exact hsalt

theorem tSessionkey_length (sk : List UInt8) : (tSessionkey bigEndian sk).length = 40 := by
  rw [tSessionkey, List.length_flatMap]
  have hmap (f : UInt8 × UInt8 → ℕ) (hf : ∀ x, f x = 2) (as : List (UInt8 × UInt8)) :
      (as.map f).sum = 2 * as.length := by
    induction as with
    | nil => rfl
    | cons x as ih =>
      rw [List.map_cons, List.sum_cons, ih, hf, List.length_cons]
      ring
  rw [hmap, List.length_zip, shaOf_length, shaOf_length]
  · rfl
  · intro x
    rfl

end Hashes

/-! ## The numbers -/

/-- The client takes the verifier off again, whether or not the server reduced the sum. -/
theorem takeVerifier_addVerifier {n power v : ℕ} (hp : power < n) (hv : v < n) (hlt : addVerifier n power v < n) :
    takeVerifier n (addVerifier n power v) v = power := by
  rw [addVerifier] at hlt
  rw [takeVerifier, addVerifier]
  split at hlt <;> split <;> split <;> omega

/-- Both exponents lead to the same power. -/
theorem secret_eq (g a b x u n : ℕ) :
    (g ^ b % n) ^ (x * u + a) % n = (bnModMul ((g ^ x % n) ^ u % n) (g ^ a % n) n) ^ b % n := by
  have hprod : bnModMul ((g ^ x % n) ^ u % n) (g ^ a % n) n = g ^ (x * u + a) % n := by
    rw [bnModMul_mod, pow_add, pow_mul, Nat.mul_mod, ← Nat.pow_mod, ← Nat.mul_mod]
  rw [hprod, ← Nat.pow_mod, ← Nat.pow_mod, ← pow_mul, ← pow_mul, Nat.mul_comm]

/-! ## The two sides -/

section Sides
variable (bigEndian : Bool)

/-- The key the server makes of a value of the client's. -/
def serverSecret (ts : TServer) (clientval : List UInt8) : List UInt8 :=
  tSessionkey bigEndian (bigIntegerToBytes (bigIntegerModExp
    (bnModMul (bigIntegerModExp (bigIntegerFromBytes ts.v) (scramble bigEndian ts.B) (bigIntegerFromBytes ts.n))
      (bigIntegerFromBytes clientval) (bigIntegerFromBytes ts.n)) (bigIntegerFromBytes ts.b)
    (bigIntegerFromBytes ts.n)))

theorem tServergetkey_isSome {ts : TServer} {clientval : List UInt8}
    (h : (tServergetkey bigEndian ts clientval).2.isSome) :
    tServergetkey bigEndian ts clientval =
      ({ ts with
        sessionKey := serverSecret bigEndian ts clientval
        oldhash := sha1Update bigEndian (sha1Update bigEndian ts.oldhash clientval) (serverSecret bigEndian ts clientval)
        hash := sha1Update bigEndian ts.hash clientval
        oldckhash := sha1Update bigEndian ts.oldckhash (serverSecret bigEndian ts clientval)
        ckhash := sha1Update bigEndian (sha1Update bigEndian (sha1Update bigEndian ts.ckhash clientval) ts.B)
          (serverSecret bigEndian ts clientval) }, some (serverSecret bigEndian ts clientval)) := by
  rw [tServergetkey] at h ⊢
  dsimp only at h ⊢
  split
  · next h1 => rw [if_pos h1] at h; exact absurd h Bool.false_ne_true
  · next h1 =>
    rw [if_neg h1] at h
    split
    · next h2 => rw [if_pos h2] at h; exact absurd h Bool.false_ne_true
    · rfl

/-- The key the client makes of a value of the server's. -/
def clientSecret (tc : TClient) (serverval : List UInt8) : List UInt8 :=
  tSessionkey bigEndian (bigIntegerToBytes (bigIntegerModExp
    (takeVerifier (bigIntegerFromBytes tc.n) (bigIntegerFromBytes serverval) (bigIntegerFromBytes tc.v))
    (bigIntegerFromBytes tc.p * scramble bigEndian serverval + bigIntegerFromBytes tc.a) (bigIntegerFromBytes tc.n)))

/-- The proof the client sends with its key. -/
def clientProof (tc : TClient) (serverval : List UInt8) : List UInt8 :=
  (sha1Final bigEndian (sha1Update bigEndian (sha1Update bigEndian tc.hash serverval)
    (clientSecret bigEndian tc serverval))).1

theorem tClientgetkey_isSome {tc : TClient} {serverval : List UInt8}
    (h : (tClientgetkey bigEndian tc serverval).2.isSome) :
    bigIntegerFromBytes serverval < bigIntegerFromBytes tc.n ∧
    (tClientgetkey bigEndian tc serverval).2 = some (clientSecret bigEndian tc serverval) ∧
    (tClientgetkey bigEndian tc serverval).1.sessionResponse = clientProof bigEndian tc serverval ∧
    (tClientgetkey bigEndian tc serverval).1.ckhash =
      sha1Update bigEndian (sha1Update bigEndian tc.ckhash (clientProof bigEndian tc serverval))
        (clientSecret bigEndian tc serverval) := by
  rw [tClientgetkey] at h ⊢
  dsimp only at h ⊢
  split
  · next h1 => rw [if_pos h1] at h; exact absurd h Bool.false_ne_true
  · next h1 =>
    rw [if_neg h1] at h
    split
    · next h2 => rw [if_pos h2] at h; exact absurd h Bool.false_ne_true
    · next h2 =>
      refine ⟨by omega, ?_⟩
      simp only [clientProof, clientSecret, and_self]

/-- What the server's hashes hold once it has its key. -/
theorem server_holds {ts : TServer} {m clientval : List UInt8} (hck : Holds ts.ckhash m) (hhash : Holds ts.hash [])
    (hold : Holds ts.oldckhash ts.B) (hA : clientval.length < 2 ^ 31) (hB : ts.B.length < 2 ^ 31)
    (h : (tServergetkey bigEndian ts clientval).2.isSome) :
    Holds (tServergetkey bigEndian ts clientval).1.ckhash
      (m ++ clientval ++ ts.B ++ serverSecret bigEndian ts clientval) ∧
    Holds (tServergetkey bigEndian ts clientval).1.hash clientval ∧
    Holds (tServergetkey bigEndian ts clientval).1.oldckhash (ts.B ++ serverSecret bigEndian ts clientval) ∧
    (tServergetkey bigEndian ts clientval).1.sessionKey = serverSecret bigEndian ts clientval := by
  have hkey : (serverSecret bigEndian ts clientval).length < 2 ^ 31 := by
    rw [serverSecret, tSessionkey_length]
    norm_num
  rw [tServergetkey_isSome bigEndian h]
  dsimp only
  exact ⟨((hck.update bigEndian _ hA).update bigEndian _ hB).update bigEndian _ hkey, hhash.update bigEndian _ hA,
    hold.update bigEndian _ hkey, rfl⟩

/-- The client's proof and what its check holds once it has its key. -/
theorem client_holds {tc : TClient} {m A serverval : List UInt8} (hhash : Holds tc.hash m) (hck : Holds tc.ckhash A)
    (hB : serverval.length < 2 ^ 31) (h : (tClientgetkey bigEndian tc serverval).2.isSome) :
    (tClientgetkey bigEndian tc serverval).1.sessionResponse =
      sha1 (m ++ serverval ++ clientSecret bigEndian tc serverval) ∧
    Holds (tClientgetkey bigEndian tc serverval).1.ckhash
      (A ++ sha1 (m ++ serverval ++ clientSecret bigEndian tc serverval) ++ clientSecret bigEndian tc serverval) := by
  have hkey : (clientSecret bigEndian tc serverval).length < 2 ^ 31 := by
    rw [clientSecret, tSessionkey_length]
    norm_num
  have hproof : clientProof bigEndian tc serverval = sha1 (m ++ serverval ++ clientSecret bigEndian tc serverval) :=
    ((hhash.update bigEndian _ hB).update bigEndian _ hkey).final bigEndian
  obtain ⟨-, -, hresponse, hcheck⟩ := tClientgetkey_isSome bigEndian h
  rw [hresponse, hcheck, hproof]
  exact ⟨rfl, (hck.update bigEndian _ (by rw [sha1_length]; norm_num)).update bigEndian _ hkey⟩

/-- A server that holds the digest of the proof accepts it, by the new protocol if the old one does not. -/
theorem tSerververify_accepts {ts : TServer} {m hm : List UInt8} (hck : Holds ts.ckhash m) (hhash : Holds ts.hash hm)
    (hkey : ts.sessionKey.length < 2 ^ 31) :
    (tSerververify bigEndian ts (sha1 m)).2 = 0 ∧
    (memcmp (sha1Final bigEndian ts.oldckhash).1 (sha1 m) ≠ 0 →
      tServerresponse (tSerververify bigEndian ts (sha1 m)).1 = sha1 (hm ++ sha1 m ++ ts.sessionKey)) := by
  have hproof : (sha1Final bigEndian ts.ckhash).1 = sha1 m := hck.final bigEndian
  have hself : memcmp (sha1 m) (sha1 m) = 0 := (memcmp_eq_zero rfl).mpr rfl
  have hresponse := ((hhash.update bigEndian (sha1 m) (by rw [sha1_length]; norm_num)).update bigEndian
    ts.sessionKey hkey).final bigEndian
  rw [tSerververify]
  dsimp only
  rw [hproof, hself]
  split
  · next h => exact ⟨rfl, fun hne => absurd h hne⟩
  · exact ⟨rfl, fun _ => hresponse⟩

end Sides

/-! ## The exchange -/

theorem tClientopen_eq {bigEndian : Bool} {known : List ConfEnt} {u n g s : List UInt8} {tc : TClient}
    (h : tClientopen bigEndian known u n g s = some tc) :
    tc =
      { n := n, g := g, s := s, a := [], A := [], p := [], v := []
        hash := [xorBytes (shaOf bigEndian [n]) (shaOf bigEndian [g]), shaOf bigEndian [u], s].foldl
          (sha1Update bigEndian) freshHash
        ckhash := freshHash
        username := u
        sessionKey := []
        sessionResponse := [] } := by
  rw [tClientopen] at h
  split at h
  · exact absurd h (by simp)
  · split at h
    · exact (Option.some.inj h).symm
    · exact absurd h (by simp)

section Exchange
variable {bigEndian : Bool} {name password salt modulus generator serverRandom clientRandom : List UInt8}

/-- The server after `t_servergenexp`, for the right password. -/
def started (bigEndian : Bool) (index : ℕ) (name password salt modulus generator random : List UInt8) : TServer :=
  (tServergenexp bigEndian (tServeropenraw bigEndian
    ⟨name, index, verifier bigEndian name password salt modulus generator, salt⟩ ⟨modulus, generator⟩) random).1

/-- The client before `t_clientgetkey`. -/
def prepared (bigEndian : Bool) (tc : TClient) (password random : List UInt8) : TClient :=
  tClientpasswd bigEndian (tClientgenexp bigEndian tc random).1 password

/-- The power of the server's exponent. -/
def serverPower (modulus generator random : List UInt8) : ℕ :=
  bigIntegerModExp (bigIntegerFromBytes generator) (bigIntegerFromBytes (random.take (min modulus.length bLen)))
    (bigIntegerFromBytes modulus)

theorem verifier_value (bigEndian : Bool) (name password salt generator : List UInt8)
    (hn : 1 < bigIntegerFromBytes modulus) :
    bigIntegerFromBytes (verifier bigEndian name password salt modulus generator) =
      bigIntegerFromBytes generator ^ passwordExponent bigEndian name password salt % bigIntegerFromBytes modulus := by
  rw [verifier, bigIntegerFromBytes_toBytes, bigIntegerModExp_eq _ _ hn]

theorem started_B (bigEndian : Bool) (index : ℕ) (name password salt modulus generator random : List UInt8) :
    (started bigEndian index name password salt modulus generator random).B =
      bigIntegerToBytes (addVerifier (bigIntegerFromBytes modulus) (serverPower modulus generator random)
        (bigIntegerFromBytes (verifier bigEndian name password salt modulus generator))) := by
  simp only [started, tServergenexp, tServeropenraw, serverPower]

theorem started_fields (bigEndian : Bool) (index : ℕ) (name password salt modulus generator random : List UInt8) :
    (started bigEndian index name password salt modulus generator random).n = modulus ∧
    (started bigEndian index name password salt modulus generator random).b =
      random.take (min modulus.length bLen) ∧
    (started bigEndian index name password salt modulus generator random).v =
      verifier bigEndian name password salt modulus generator := by
  simp only [started, tServergenexp, tServeropenraw, and_self]

/-- Both sides compute one secret. -/
theorem secrets_agree {index : ℕ} {tc : TClient} (hn : 1 < bigIntegerFromBytes modulus) (hmod : tc.n = modulus)
    (hgen : tc.g = generator) (hname : tc.username = name) (hsalt : tc.s = salt)
    (hlt : bigIntegerFromBytes (started bigEndian index name password salt modulus generator serverRandom).B <
      bigIntegerFromBytes modulus) :
    clientSecret bigEndian (prepared bigEndian tc password clientRandom)
        (started bigEndian index name password salt modulus generator serverRandom).B =
      serverSecret bigEndian (started bigEndian index name password salt modulus generator serverRandom)
        (tClientgenexp bigEndian tc clientRandom).2 := by
  have hpos : 0 < bigIntegerFromBytes modulus := by omega
  have hv := verifier_value bigEndian name password salt generator hn
  have hpower : serverPower modulus generator serverRandom =
      bigIntegerFromBytes generator ^ bigIntegerFromBytes (serverRandom.take (min modulus.length bLen)) %
        bigIntegerFromBytes modulus := bigIntegerModExp_eq _ _ hn
  rw [started_B, bigIntegerFromBytes_toBytes, hv, hpower] at hlt
  have hbase := takeVerifier_addVerifier (Nat.mod_lt _ hpos) (Nat.mod_lt _ hpos) hlt
  rw [clientSecret, serverSecret, started_B, bigIntegerFromBytes_toBytes, hv, hpower]
  obtain ⟨hfn, hfb, hfv⟩ := started_fields bigEndian index name password salt modulus generator serverRandom
  simp only [prepared, tClientpasswd, tClientgenexp, hmod, hgen, hname, hsalt, hfn, hfb, hfv, hv,
    bigIntegerFromBytes_toBytes, bigIntegerModExp_eq _ _ hn, hbase, secret_eq]

/-- Both values that go over the wire are short. -/
theorem values_length (hn : 1 < bigIntegerFromBytes modulus) {tc : TClient} (hmod : tc.n = modulus)
    (bigEndian : Bool) (index : ℕ) (name password salt generator serverRandom clientRandom : List UInt8) :
    (tClientgenexp bigEndian tc clientRandom).2.length ≤ modulus.length ∧
    (started bigEndian index name password salt modulus generator serverRandom).B.length ≤ modulus.length := by
  have hpos : 0 < bigIntegerFromBytes modulus := by omega
  have hv := verifier_value bigEndian name password salt generator hn
  refine ⟨bigIntegerToBytes_length ?_, ?_⟩
  · rw [hmod, bigIntegerModExp_eq _ _ hn]
    exact (Nat.mod_lt _ hpos).le
  · rw [started_B]
    refine bigIntegerToBytes_length ?_
    have hpower : serverPower modulus generator serverRandom < bigIntegerFromBytes modulus := by
      rw [serverPower, bigIntegerModExp_eq _ _ hn]
      exact Nat.mod_lt _ hpos
    have hvlt := Nat.mod_lt (bigIntegerFromBytes generator ^ passwordExponent bigEndian name password salt) hpos
    rw [hv, addVerifier]
    split <;> omega

theorem started_hashes (bigEndian : Bool) (index : ℕ) (name password salt modulus generator random : List UInt8) :
    (started bigEndian index name password salt modulus generator random).ckhash =
      [xorBytes (shaOf bigEndian [modulus]) (shaOf bigEndian [generator]), shaOf bigEndian [name], salt].foldl
        (sha1Update bigEndian) freshHash ∧
    (started bigEndian index name password salt modulus generator random).hash = freshHash ∧
    (started bigEndian index name password salt modulus generator random).oldckhash =
      sha1Update bigEndian freshHash
        (started bigEndian index name password salt modulus generator random).B := by
  simp only [started, tServergenexp, tServeropenraw, and_self]

/-- Before it has the client's value the server holds what the client's hash starts from. -/
theorem started_holds (bigEndian : Bool) (index : ℕ) (name password salt modulus generator random : List UInt8)
    (hsalt : salt.length < 2 ^ 31)
    (hB : (started bigEndian index name password salt modulus generator random).B.length < 2 ^ 31) :
    Holds (started bigEndian index name password salt modulus generator random).ckhash
      (opening bigEndian name salt modulus generator) ∧
    Holds (started bigEndian index name password salt modulus generator random).hash [] ∧
    Holds (started bigEndian index name password salt modulus generator random).oldckhash
      (started bigEndian index name password salt modulus generator random).B := by
  obtain ⟨hck, hhash, hold⟩ := started_hashes bigEndian index name password salt modulus generator random
  have h := holds_fresh.update bigEndian _ hB
  rw [List.nil_append] at h
  rw [hck, hhash, hold]
  exact ⟨holds_opening bigEndian name salt modulus generator hsalt, holds_fresh, h⟩

/-- The client that has sent its value holds the same, and the value. -/
theorem prepared_holds {tc : TClient} (password : List UInt8)
    (hhash : Holds tc.hash (opening bigEndian name salt modulus generator))
    (hck : tc.ckhash = freshHash) (hA : (tClientgenexp bigEndian tc clientRandom).2.length < 2 ^ 31) :
    Holds (prepared bigEndian tc password clientRandom).hash
      (opening bigEndian name salt modulus generator ++ (tClientgenexp bigEndian tc clientRandom).2) ∧
    Holds (prepared bigEndian tc password clientRandom).ckhash (tClientgenexp bigEndian tc clientRandom).2 := by
  have h := holds_fresh.update bigEndian _ hA
  rw [← hck, List.nil_append] at h
  have hfields : (prepared bigEndian tc password clientRandom).hash =
        sha1Update bigEndian tc.hash (tClientgenexp bigEndian tc clientRandom).2 ∧
      (prepared bigEndian tc password clientRandom).ckhash =
        sha1Update bigEndian tc.ckhash (tClientgenexp bigEndian tc clientRandom).2 := by
    simp only [prepared, tClientpasswd, tClientgenexp, and_self]
  rw [hfields.1, hfields.2]
  exact ⟨hhash.update bigEndian _ hA, h⟩

/-- Once both have the key, each accepts the other. -/
theorem sides_agree {known : List ConfEnt} {index : ℕ} {tc : TClient} {ts : TServer} {A : List UInt8}
    (hts : ts = started bigEndian index name password salt modulus generator serverRandom)
    (hopen : tClientopen bigEndian known name modulus generator salt = some tc)
    (hAval : A = (tClientgenexp bigEndian tc clientRandom).2) (hn : 1 < bigIntegerFromBytes modulus)
    (hmodulus : modulus.length < 2 ^ 31) (hsalt : salt.length < 2 ^ 31)
    (hserver : (tServergetkey bigEndian ts A).2.isSome)
    (hclient : (tClientgetkey bigEndian (prepared bigEndian tc password clientRandom) ts.B).2.isSome) :
    ∃ key, (tServergetkey bigEndian ts A).2 = some key ∧
      (tClientgetkey bigEndian (prepared bigEndian tc password clientRandom) ts.B).2 = some key ∧
      (tSerververify bigEndian (tServergetkey bigEndian ts A).1 (tClientresponse
        (tClientgetkey bigEndian (prepared bigEndian tc password clientRandom) ts.B).1)).2 = 0 ∧
      (sha1 (ts.B ++ key) ≠
          tClientresponse (tClientgetkey bigEndian (prepared bigEndian tc password clientRandom) ts.B).1 →
        tClientverify bigEndian (tClientgetkey bigEndian (prepared bigEndian tc password clientRandom) ts.B).1
          (tServerresponse (tSerververify bigEndian (tServergetkey bigEndian ts A).1 (tClientresponse
            (tClientgetkey bigEndian (prepared bigEndian tc password clientRandom) ts.B).1)).1) = 0) := by
  have htc := tClientopen_eq hopen
  have hmod : tc.n = modulus := by rw [htc]
  have hpn : (prepared bigEndian tc password clientRandom).n = modulus := by
    simp only [prepared, tClientpasswd, tClientgenexp, hmod]
  obtain ⟨hA, hB⟩ := values_length hn hmod bigEndian index name password salt generator serverRandom clientRandom
  rw [← hAval] at hA
  rw [← hts] at hB
  replace hA := hA.trans_lt hmodulus
  replace hB := hB.trans_lt hmodulus
  obtain ⟨hlt, hckey, -, -⟩ := tClientgetkey_isSome bigEndian hclient
  have hkeys : clientSecret bigEndian (prepared bigEndian tc password clientRandom) ts.B =
      serverSecret bigEndian ts A := by
    rw [hpn, hts] at hlt
    rw [hts, hAval]
    exact secrets_agree hn hmod (by rw [htc]) (by rw [htc]) (by rw [htc]) hlt
  -- the hashes of both sides
  obtain ⟨hock, hohash, hoold⟩ := started_holds bigEndian index name password salt modulus generator serverRandom
    hsalt (hts ▸ hB)
  rw [← hts] at hock hohash hoold
  obtain ⟨hsck, hshash, hsold, hskey⟩ := server_holds bigEndian hock hohash hoold hA hB hserver
  have hch : Holds tc.hash (opening bigEndian name salt modulus generator) := by
    rw [htc]
    exact holds_opening bigEndian name salt modulus generator hsalt
  obtain ⟨hphash, hpck⟩ := prepared_holds password hch (by rw [htc]) (hAval ▸ hA)
  rw [← hAval] at hphash hpck
  obtain ⟨hproof, hcheck⟩ := client_holds bigEndian hphash hpck hB hclient
  rw [hkeys] at hproof hcheck hckey
  have hsecret : (tServergetkey bigEndian ts A).1.sessionKey.length < 2 ^ 31 := by
    rw [hskey, serverSecret, tSessionkey_length]
    norm_num
  obtain ⟨haccept, hanswer⟩ := tSerververify_accepts bigEndian hsck hshash hsecret
  refine ⟨serverSecret bigEndian ts A, by rw [tServergetkey_isSome bigEndian hserver], hckey, ?_, ?_⟩
  · rw [tClientresponse, hproof]
    exact haccept
  · rw [tClientresponse, hproof]
    intro hold
    have hne : memcmp (sha1Final bigEndian (tServergetkey bigEndian ts A).1.oldckhash).1
        (sha1 (opening bigEndian name salt modulus generator ++ A ++ ts.B ++ serverSecret bigEndian ts A)) ≠ 0 := by
      rw [hsold.final bigEndian, Ne, memcmp_eq_zero (by rw [sha1_length, sha1_length])]
      exact hold
    rw [hanswer hne, hskey, tClientverify, hcheck.final bigEndian, memcmp_eq_zero rfl]

theorem started_value (bigEndian : Bool) (index : ℕ) (name password salt modulus generator random : List UInt8) :
    (tServergenexp bigEndian (tServeropenraw bigEndian
      ⟨name, index, verifier bigEndian name password salt modulus generator, salt⟩ ⟨modulus, generator⟩) random).2 =
      (started bigEndian index name password salt modulus generator random).B := by
  simp only [started, tServergenexp]

/-- An exchange is the calls of both sides, where the client takes the parameters. -/
theorem exchange_eq {known : List ConfEnt} {tc : TClient} (index : ℕ)
    (hopen : tClientopen bigEndian known name modulus generator salt = some tc) :
    exchange bigEndian known index name password salt modulus generator serverRandom clientRandom =
      some
        { server := (tServergetkey bigEndian
            (started bigEndian index name password salt modulus generator serverRandom)
            (tClientgenexp bigEndian tc clientRandom).2).1
          client := (tClientgetkey bigEndian (prepared bigEndian tc password clientRandom)
            (started bigEndian index name password salt modulus generator serverRandom).B).1
          A := (tClientgenexp bigEndian tc clientRandom).2
          B := (started bigEndian index name password salt modulus generator serverRandom).B
          serverKey := (tServergetkey bigEndian
            (started bigEndian index name password salt modulus generator serverRandom)
            (tClientgenexp bigEndian tc clientRandom).2).2
          clientKey := (tClientgetkey bigEndian (prepared bigEndian tc password clientRandom)
            (started bigEndian index name password salt modulus generator serverRandom).B).2 } := by
  rw [exchange]
  dsimp only
  rw [hopen]
  dsimp only
  rw [started_value, started, prepared]

/-- In an exchange with the right password in which both sides get a key, the keys are one, the server
accepts the client's proof, and the client accepts the server's answer unless the client's proof is the
digest of the old protocol. -/
theorem exchange_agrees {known : List ConfEnt} {index : ℕ} {e : Exchange} (hn : 1 < bigIntegerFromBytes modulus)
    (hmodulus : modulus.length < 2 ^ 31) (hsalt : salt.length < 2 ^ 31)
    (he : exchange bigEndian known index name password salt modulus generator serverRandom clientRandom = some e)
    (hserver : e.serverKey.isSome) (hclient : e.clientKey.isSome) :
    ∃ key, e.serverKey = some key ∧ e.clientKey = some key ∧
      (tSerververify bigEndian e.server (tClientresponse e.client)).2 = 0 ∧
      (sha1 (e.B ++ key) ≠ tClientresponse e.client →
        tClientverify bigEndian e.client
          (tServerresponse (tSerververify bigEndian e.server (tClientresponse e.client)).1) = 0) := by
  cases hopen : tClientopen bigEndian known name modulus generator salt with
  | none =>
    rw [exchange] at he
    dsimp only at he
    rw [hopen] at he
    exact absurd he (by simp)
  | some tc =>
    rw [exchange_eq index hopen] at he
    obtain rfl := Option.some.inj he
    dsimp only at hserver hclient ⊢
    generalize hts : started bigEndian index name password salt modulus generator serverRandom = ts at *
    exact sides_agree hts.symm hopen rfl hn hmodulus hsalt hserver hclient

/-- A modulus of 64 bytes, the least a client takes. -/
def smallModulus : List UInt8 := List.replicate 62 0 ++ [255, 241]

def smallExchange : Option Exchange :=
  exchange false [⟨smallModulus, [17]⟩] 0 [114, 111] [97, 98] [1, 2] smallModulus [17] (List.replicate 32 3)
    (List.replicate 32 7)

theorem exchange_agrees_small :
    ∃ e key, smallExchange = some e ∧ e.serverKey = some key ∧ e.clientKey = some key ∧
      (tSerververify false e.server (tClientresponse e.client)).2 = 0 := by
  have hsome : smallExchange.isSome := by decide +kernel
  obtain ⟨e, he⟩ := Option.isSome_iff_exists.mp hsome
  have hkeys : smallExchange.all fun e => e.serverKey.isSome && e.clientKey.isSome := by decide +kernel
  rw [he, Option.all_some, Bool.and_eq_true] at hkeys
  obtain ⟨key, hserver, hclient, hverify, -⟩ :=
    exchange_agrees (by decide +kernel) (by decide) (by decide) he hkeys.1 hkeys.2
  exact ⟨e, key, he, hserver, hclient, hverify⟩

end Exchange

end Neufbox.Ead.Srp
