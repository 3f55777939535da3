import Neufbox.Bignum.ModExp
import Neufbox.Ead.TinyShaStream
import Neufbox.Library.Blocks

/-! # The password protocol of the emergency access daemon

`t_server.c`, `t_client.c` and the session key of `t_misc.c` in `package/ead/src/tinysrp`. Big numbers go
between the functions as bytes, the most significant first and none of them zero; the contexts of the
hash go along with a session. Random bytes and what fresh memory holds are arguments. -/
namespace Neufbox.Ead.Srp
open Blocks Bignum TinySha
set_option autoImplicit false
set_option maxHeartbeats 250000
set_option maxRecDepth 120000

/-! ## Big numbers -/

def bigIntegerFromBytes (bs : List UInt8) : ℕ := beWord bs

def bigIntegerToBytes (n : ℕ) : List UInt8 := (Nat.digits 256 n).reverse.map UInt8.ofNat

/-- `BigIntegerModExp`. The power fails for a modulus of zero only; what the result held before stays then, for which
this has zero. -/
def bigIntegerModExp (b e m : ℕ) : ℕ := (bnModExp b e m).getD 0

/-- `memcmp` of as many bytes as the first has, by the first difference. -/
def memcmp : List UInt8 → List UInt8 → ℤ
  | [], _ => 0
  | a :: as, bs => if a = bs.headD 0 then memcmp as bs.tail else a.toNat - (bs.headD 0).toNat

def shaDigestsize : ℕ := 20

section Model
variable (bigEndian : Bool)

/-- A context that is used for one digest; what its buffer held does not matter. -/
def shaOf (pieces : List (List UInt8)) : List UInt8 :=
  (sha1Final bigEndian (pieces.foldl (sha1Update bigEndian) (sha1Init (List.replicate 64 0)))).1

def freshHash : Sha1Ctx := sha1Init (List.replicate 64 0)

def xorBytes (as bs : List UInt8) : List UInt8 := List.zipWith (fun a b => a ^^^ b) as bs

/-- The scrambling parameter: the first word of the digest of `B`. -/
def scramble (b : List UInt8) : ℕ := beWord ((shaOf bigEndian [b]).take 4)

/-- `t_sessionkey`: the even and the odd bytes from the end are hashed apart. -/
def tSessionkey (sk : List UInt8) : List UInt8 :=
  let sk := sk.dropWhile (· = 0)
  let klen := sk.length / 2
  let even := (List.range klen).map fun i => sk.getD (sk.length - 2 * i - 1) 0
  let odd := (List.range klen).map fun i => sk.getD (sk.length - 2 * i - 2) 0
  (List.zip (shaOf bigEndian [even]) (shaOf bigEndian [odd])).flatMap fun (a, b) => [a, b]

/-! ## Server -/

/-- `struct t_pwent`; the verifier is `password`. -/
structure PwEnt where
  name : List UInt8
  index : ℕ
  password : List UInt8
  salt : List UInt8

structure ConfEnt where
  modulus : List UInt8
  generator : List UInt8
  deriving DecidableEq

structure TServer where
  index : ℕ
  n : List UInt8
  g : List UInt8
  v : List UInt8
  s : List UInt8
  b : List UInt8
  B : List UInt8
  oldhash : Sha1Ctx
  hash : Sha1Ctx
  oldckhash : Sha1Ctx
  ckhash : Sha1Ctx
  sessionKey : List UInt8
  sessionResponse : List UInt8

def tServeropenraw (ent : PwEnt) (tce : ConfEnt) : TServer where
  index := ent.index
  n := tce.modulus
  g := tce.generator
  v := ent.password
  s := ent.salt
  b := []
  B := []
  oldhash := freshHash
  hash := freshHash
  oldckhash := freshHash
  ckhash := [xorBytes (shaOf bigEndian [tce.modulus]) (shaOf bigEndian [tce.generator]),
    shaOf bigEndian [ent.name], ent.salt].foldl (sha1Update bigEndian) freshHash
  sessionKey := []
  sessionResponse := []

def bLen : ℕ := 32

/-- The sum of the power and the verifier, less the modulus where it is greater. -/
def addVerifier (n power v : ℕ) : ℕ := if power + v > n then power + v - n else power + v

/-- `t_servergenexp`; the exponent is as long as the modulus, up to `BLEN` bytes of `random`. -/
def tServergenexp (ts : TServer) (random : List UInt8) : TServer × List UInt8 :=
  let b := random.take (min ts.n.length bLen)
  let n := bigIntegerFromBytes ts.n
  let power := bigIntegerModExp (bigIntegerFromBytes ts.g) (bigIntegerFromBytes b) n
  let B := bigIntegerToBytes (addVerifier n power (bigIntegerFromBytes ts.v))
  ({ ts with b := b, B := B, oldckhash := sha1Update bigEndian ts.oldckhash B }, B)

def tServergetkey (ts : TServer) (clientval : List UInt8) : TServer × Option (List UInt8) :=
  let ts := { ts with
    ckhash := sha1Update bigEndian (sha1Update bigEndian ts.ckhash clientval) ts.B
    oldhash := sha1Update bigEndian ts.oldhash clientval
    hash := sha1Update bigEndian ts.hash clientval }
  let u := scramble bigEndian ts.B
  let n := bigIntegerFromBytes ts.n
  let prod := bigIntegerModExp (bigIntegerFromBytes ts.v) u n
  let res := bnModMul prod (bigIntegerFromBytes clientval) n
  if res ≤ 1 then (ts, none)
  else if res + 1 = n then (ts, none)
  else
    let key := tSessionkey bigEndian (bigIntegerToBytes (bigIntegerModExp res (bigIntegerFromBytes ts.b) n))
    ({ ts with
      sessionKey := key
      oldhash := sha1Update bigEndian ts.oldhash key
      oldckhash := sha1Update bigEndian ts.oldckhash key
      ckhash := sha1Update bigEndian ts.ckhash key }, some key)

/-- `t_serververify`. The proof of the old protocol is tried first. -/
def tSerververify (ts : TServer) (resp : List UInt8) : TServer × ℤ :=
  let expected := sha1Final bigEndian ts.oldckhash
  let ts := { ts with oldckhash := expected.2 }
  if memcmp expected.1 resp = 0 then
    let response := sha1Final bigEndian ts.oldhash
    ({ ts with oldhash := response.2, sessionResponse := response.1 }, 0)
  else
    let expected := sha1Final bigEndian ts.ckhash
    let ts := { ts with ckhash := expected.2 }
    let i := memcmp expected.1 resp
    if i = 0 then
      let response := sha1Final bigEndian
        (sha1Update bigEndian (sha1Update bigEndian ts.hash expected.1) ts.sessionKey)
      ({ ts with hash := response.2, sessionResponse := response.1 }, i)
    else (ts, i)

def tServerresponse (ts : TServer) : List UInt8 := ts.sessionResponse

/-! ## Client -/

structure TClient where
  n : List UInt8
  g : List UInt8
  s : List UInt8
  a : List UInt8
  A : List UInt8
  p : List UInt8
  v : List UInt8
  hash : Sha1Ctx
  ckhash : Sha1Ctx
  username : List UInt8
  sessionKey : List UInt8
  sessionResponse : List UInt8

def minModBytes : ℕ := 64
def aLen : ℕ := 32

/-- `t_clientopen`; `none` where the parameters are too short or not among the ones known beforehand. The
user name has room in its array. -/
def tClientopen (known : List ConfEnt) (u n g s : List UInt8) : Option TClient :=
  if n.length < minModBytes then none
  else if known.any fun tpc => tpc = ⟨n, g⟩ then
    some
      { n := n, g := g, s := s, a := [], A := [], p := [], v := []
        hash := [xorBytes (shaOf bigEndian [n]) (shaOf bigEndian [g]), shaOf bigEndian [u], s].foldl
          (sha1Update bigEndian) freshHash
        ckhash := freshHash
        username := u
        sessionKey := []
        sessionResponse := [] }
  else none

def tClientgenexp (tc : TClient) (random : List UInt8) : TClient × List UInt8 :=
  let a := random.take (min tc.n.length aLen)
  let A := bigIntegerToBytes
    (bigIntegerModExp (bigIntegerFromBytes tc.g) (bigIntegerFromBytes a) (bigIntegerFromBytes tc.n))
  ({ tc with
    a := a
    A := A
    hash := sha1Update bigEndian tc.hash A
    ckhash := sha1Update bigEndian tc.ckhash A }, A)

/-- The exponent of the password: the digest of the salt and of the digest of name and password. -/
def passwordExponent (name password salt : List UInt8) : ℕ :=
  bigIntegerFromBytes (shaOf bigEndian [salt, shaOf bigEndian [name, [58], password]])

def tClientpasswd (tc : TClient) (password : List UInt8) : TClient :=
  let p := passwordExponent bigEndian tc.username password tc.s
  { tc with
    p := bigIntegerToBytes p
    v := bigIntegerToBytes (bigIntegerModExp (bigIntegerFromBytes tc.g) p (bigIntegerFromBytes tc.n)) }

/-- The server's value without the verifier. -/
def takeVerifier (n B v : ℕ) : ℕ := (if B < v then B + n else B) - v

def tClientgetkey (tc : TClient) (serverval : List UInt8) : TClient × Option (List UInt8) :=
  let u := scramble bigEndian serverval
  if u = 0 then (tc, none)
  else
    let tc := { tc with hash := sha1Update bigEndian tc.hash serverval }
    let B := bigIntegerFromBytes serverval
    let n := bigIntegerFromBytes tc.n
    if B ≥ n ∨ B = 0 then (tc, none)
    else
      let base := takeVerifier n B (bigIntegerFromBytes tc.v)
      let sum := bigIntegerFromBytes tc.p * u + bigIntegerFromBytes tc.a
      let key := tSessionkey bigEndian (bigIntegerToBytes (bigIntegerModExp base sum n))
      let response := sha1Final bigEndian (sha1Update bigEndian tc.hash key)
      ({ tc with
        sessionKey := key
        hash := response.2
        sessionResponse := response.1
        ckhash := sha1Update bigEndian (sha1Update bigEndian tc.ckhash response.1) key }, some key)

def tClientverify (tc : TClient) (resp : List UInt8) : ℤ := memcmp (sha1Final bigEndian tc.ckhash).1 resp

def tClientresponse (tc : TClient) : List UInt8 := tc.sessionResponse

/-- The verifier that `prepare_password` of `ead.c` makes of the password. -/
def verifier (name password salt modulus generator : List UInt8) : List UInt8 :=
  bigIntegerToBytes (bigIntegerModExp (bigIntegerFromBytes generator) (passwordExponent bigEndian name password salt)
    (bigIntegerFromBytes modulus))

/-! ## One exchange -/

/-- What both sides hold after the client sent `A` and the server sent `B`. -/
structure Exchange where
  server : TServer
  client : TClient
  A : List UInt8
  B : List UInt8
  serverKey : Option (List UInt8)
  clientKey : Option (List UInt8)

/-- The calls of `ead.c` and `ead-client.c` for one login with the right password; `serverRandom` and
`clientRandom` are what `t_random` gives. -/
def exchange (known : List ConfEnt) (index : ℕ) (name password salt modulus generator serverRandom
    clientRandom : List UInt8) : Option Exchange :=
  let ent : PwEnt := ⟨name, index, verifier bigEndian name password salt modulus generator, salt⟩
  let (ts, B) := tServergenexp bigEndian (tServeropenraw bigEndian ent ⟨modulus, generator⟩) serverRandom
  match tClientopen bigEndian known name modulus generator salt with
  | none => none
  | some tc =>
    let (tc, A) := tClientgenexp bigEndian tc clientRandom
    let (ts, serverKey) := tServergetkey bigEndian ts A
    let (tc, clientKey) := tClientgetkey bigEndian (tClientpasswd bigEndian tc password) B
    some ⟨ts, tc, A, B, serverKey, clientKey⟩

end Model

end Neufbox.Ead.Srp
