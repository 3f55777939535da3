import Neufbox.Library.WrapArith
import Neufbox.Ead.Crypt

/-! # The emergency access daemon

The packet path of `package/ead/src/ead.c`: `handle_packet` filters a captured frame, `parse_message`
picks a handler by message type, the handler answers and proposes a next state, and `set_state` moves
the authentication forward or drops it. The SRP functions are a parameter, `TinySrp`, that acts only on
the session it is given; what the system calls return while one frame is handled is an `Env`. `none` is
a fault of the process.

Sessions are numbered in the order they are opened. The number stands for the pointer `ts`; `B` and
`skey` point into a session, so they carry its number. -/
namespace Neufbox.Ead
open Blocks WrapArith RunAlong
set_option autoImplicit false
set_option maxHeartbeats 250000
set_option maxRecDepth 120000

/-! ## Messages -/

inductive EadType where
  | ping
  | pong
  | setUsername
  | ackUsername
  | getPrime
  | prime
  | sendA
  | sendB
  | sendAuth
  | doneAuth
  | sendCmd
  | resultCmd
  deriving DecidableEq, Repr

def EadType.val : EadType → ℕ
  | .ping => 0
  | .pong => 1
  | .setUsername => 2
  | .ackUsername => 3
  | .getPrime => 4
  | .prime => 5
  | .sendA => 6
  | .sendB => 7
  | .sendAuth => 8
  | .doneAuth => 9
  | .sendCmd => 10
  | .resultCmd => 11

/-- The type field of a message; a number without a name reaches no handler. -/
def eadType (n : ℕ) : Option EadType :=
  [EadType.ping, .pong, .setUsername, .ackUsername, .getPrime, .prime, .sendA, .sendB, .sendAuth,
    .doneAuth, .sendCmd, .resultCmd].find? fun t => t.val = n

/-- A captured frame: its length on the wire, the fields of `struct ead_packet` the code reads, and the
capture buffer from the message data on. -/
structure Frame where
  len : ℕ
  etherType : UInt16
  etherDhost : List UInt8
  proto : UInt8
  destport : UInt16
  magic : UInt32
  msgLen : UInt32
  type : UInt32
  nid : UInt16
  sid : UInt16
  data : List UInt8
  deriving DecidableEq

structure Message where
  type : ℕ
  nid : UInt16
  sid : UInt16
  data : List UInt8
  deriving DecidableEq

def packetSize : ℕ := 62
def eadMagic : UInt32 := 3671771902
def eadPort : UInt16 := 56026
def ethertypeIp : UInt16 := 0x0800
def uipProtoUdp : UInt8 := 17
def maxParamLen : ℕ := 256
def maxSaltLen : ℕ := 32

def cmdSize : ℕ := 3

/-! ## Server -/

/-- `t_servergenexp`, `t_servergetkey`, `t_serververify`, `t_serverresponse` and the salt of a session. -/
structure TinySrp (T : Type) where
  servergenexp : T → T × List UInt8
  servergetkey : T → List UInt8 → T × Option (List UInt8)
  serververify : T → List UInt8 → T × ℤ
  serverresponse : T → List UInt8
  salt : T → List UInt8

/-- What `prepare_password` leaves for the answer to `GET_PRIME`. -/
structure Prepared where
  index : ℕ
  extSalt : List UInt8
  deriving DecidableEq

/-- The results of the calls out of the daemon while one frame is handled. -/
structure Env (T : Type) where
  preparePassword : List UInt8 → Option Prepared
  serveropenraw : Prepared → Option T
  pipe : Bool
  fork : Bool
  /-- The console data read in each round of the keep-alive loop, and what the buffer holds behind it. -/
  console : List (List UInt8 × (ℕ → UInt8))
  /-- The child still runs when the loop ends. -/
  childPending : Bool
  /-- What the packet buffer holds where an answer leaves it as it was. -/
  behind : ℕ → UInt8

structure Config where
  bigEndian : Bool
  nid : UInt16
  instanceId : ℕ
  devName : List UInt8

/-- The static variables of `ead.c` and `ead-crypt.c`. -/
structure Server (T : Type) where
  state : EadType
  username : List UInt8
  tce : Option Prepared
  ts : Option (ℕ × T)
  opens : ℕ
  a : List UInt8
  b : Option (ℕ × List UInt8)
  skey : Option (ℕ × List UInt8)
  crypt : Crypt

def Server.init (T : Type) : Server T := ⟨.setUsername, [], none, none, 0, [], none, none, .init⟩

/-- What a handler did, for the record: the messages processed, on which session, the decryptions and
the commands handed to `system`. -/
inductive Event where
  | setUsername
  | getPrime (ts : ℕ)
  | sendA (ts : ℕ)
  | sendAuth (ts : ℕ) (ret : ℤ)
  | decrypt
  | system (body command : List UInt8)
  deriving DecidableEq

section Model
variable {T : Type} (k : Cipher) (srp : TinySrp T) (cfg : Config) (env : Env T)

/-! ## States -/

/-- `set_state`. The calls on `ts` fault where it is `NULL`. -/
def setState (s : Server T) (nstate : EadType) : Option (Server T) :=
  if s.state = nstate then some s
  else if nstate.val < s.state.val then
    if nstate.val < EadType.getPrime.val ∧ EadType.getPrime.val ≤ s.state.val then
      s.ts.map fun _ => { s with ts := none, state := nstate }
    else some { s with state := nstate }
  else match s.state with
    | .setUsername =>
        match env.preparePassword s.username with
        | none => some s
        | some p =>
            match env.serveropenraw p with
            | none => some { s with tce := some p, ts := none }
            | some t =>
                some { s with tce := some p, ts := some (s.opens, t), opens := s.opens + 1, state := nstate }
    | .getPrime =>
        s.ts.map fun (id, t) =>
          { s with
            ts := some (id, (srp.servergenexp t).1)
            b := some (id, (srp.servergenexp t).2)
            state := nstate }
    | .sendA =>
        s.ts.map fun (id, t) =>
          match srp.servergetkey t s.a with
          | (t, none) => { s with ts := some (id, t), skey := none }
          | (t, some skey) =>
              { s with
                ts := some (id, t)
                skey := some (id, skey)
                crypt := eadSetKey cfg.bigEndian s.crypt skey
                state := nstate }
    | _ => some { s with state := nstate }

/-! ## Handlers -/

/-- What a handler leaves: the server, the next state, the messages it sent itself, the data of its
answer when it returned true, and the record. -/
structure Handled (T : Type) where
  server : Server T
  nstate : EadType
  sent : List (List UInt8)
  reply : Option (List UInt8)
  events : List Event

def ignored (s : Server T) (events : List Event) : Handled T := ⟨s, s.state, [], none, events⟩

def handlePing (s : Server T) : Handled T := ⟨s, s.state, [], some (0 :: 1 :: cfg.devName.take 1024), []⟩

def handleSetUsername (s : Server T) (f : Frame) : Option (Handled T) :=
  (setState srp cfg env s .setUsername).map fun s =>
    ⟨{ s with username := (f.data.take 31).takeWhile (· ≠ 0) }, .getPrime, [], some [], [.setUsername]⟩

def fill (behind : ℕ → UInt8) (n : ℕ) (bs : List UInt8) : List UInt8 :=
  (bs ++ (List.range n).map behind).take n

def handleGetPrime (s : Server T) : Option (Handled T) :=
  match s.tce, s.ts with
  | some p, some (id, t) =>
      let salt := srp.salt t
      some ⟨s, .sendA, [],
        some (UInt8.ofNat (p.index - 1) :: UInt8.ofNat salt.length ::
          (fill env.behind maxSaltLen salt ++ fill env.behind maxSaltLen p.extSalt)), [.getPrime id]⟩
  | _, _ => none

/-- The length is an `int`; a negative one is not noticed and faults in the copy. -/
def handleSendA (s : Server T) (f : Frame) : Option (Handled T) :=
  let len := toInt (wrapSub 32 f.msgLen.toNat 1)
  if len > maxParamLen + 1 then some (ignored s [])
  else if len < 0 then none
  else match s.ts, s.b with
    | some (id, _), some b =>
        some ⟨{ s with a := (f.data.drop 1).take len.toNat }, .sendAuth, [],
          some (env.behind 0 :: b.2), [.sendA id]⟩
    | _, _ => none

def handleSendAuth (s : Server T) (f : Frame) : Option (Handled T) :=
  match s.ts with
  | none => none
  | some (id, t) =>
      let r := srp.serververify t (f.data.take 20)
      let s := { s with ts := some (id, r.1) }
      if r.2 ≠ 0 then some ⟨s, .setUsername, [], none, [.sendAuth id r.2]⟩
      else some ⟨s, .sendCmd, [], some ((srp.serverresponse r.1).take 20), [.sendAuth id r.2]⟩

/-- The keep-alive loop: one encrypted message a round. -/
def streamConsole (c : Crypt) : List (List UInt8 × (ℕ → UInt8)) → Crypt × List (List UInt8)
  | [] => (c, [])
  | (bytes, behind) :: rounds =>
      let r := eadEncryptMessage k c (0 :: bytes.take 1024) behind
      let rest := streamConsole r.1 rounds
      (rest.1, r.2 :: rest.2)

inductive CmdType where
  | normal
  | background
  deriving DecidableEq

/-- The switch over `ntohs(cmd->type)`, a swap of a byte on a little-endian host. -/
def cmdType (bigEndian : Bool) (type : UInt8) : Option CmdType :=
  if type = 0 then some .normal
  else if bigEndian ∧ type = 1 then some .background
  else none

def finishCommand (s : Server T) (sent : List (List UInt8)) (events : List Event) : Handled T :=
  let r := eadEncryptMessage k s.crypt [1] env.behind
  ⟨{ s with crypt := r.1 }, s.state, sent, some r.2, events⟩

def handleSendCmd (s : Server T) (f : Frame) : Handled T :=
  let r := eadDecryptMessage k s.crypt f.msgLen.toNat f.data
  let s := { s with crypt := r.1 }
  match r.2 with
  | none => ignored s [.decrypt]
  | some d =>
      let datalen := d.ret - cmdSize
      if datalen ≤ 0 then ignored s [.decrypt]
      else
        let command := ((d.plain.drop (encryptedSize + cmdSize)).take datalen.toNat).takeWhile (· ≠ 0)
        let events := [.decrypt, .system (f.data.take f.msgLen.toNat) command]
        match cmdType cfg.bigEndian (d.plain.getD encryptedSize 0) with
        | some .normal =>
            if env.pipe = false ∨ env.fork = false then ignored s [.decrypt]
            else
              let r := streamConsole k s.crypt env.console
              let s := { s with crypt := r.1 }
              if env.childPending then ⟨s, s.state, r.2, none, events⟩
              else finishCommand k env s r.2 events
        | some .background =>
            if env.fork = false then ignored s [.decrypt] else finishCommand k env s [] events
        | none => ignored s [.decrypt]

/-! ## Dispatch -/

def handler (type : EadType) (s : Server T) (f : Frame) : Option (ℕ × Option (Handled T)) :=
  match type with
  | .ping => some (0, some (handlePing cfg s))
  | .setUsername => some (32, handleSetUsername srp cfg env s f)
  | .getPrime => some (0, handleGetPrime srp env s)
  | .sendA => some (1, handleSendA env s f)
  | .sendAuth => some (20, handleSendAuth srp s f)
  | .sendCmd => some (cmdSize + encryptedSize, some (handleSendCmd k cfg env s f))
  | _ => none

structure Outcome (T : Type) where
  server : Server T
  sent : List Message
  events : List Event

def unchanged (s : Server T) : Outcome T := ⟨s, [], []⟩

/-- `parse_message`; it takes the wire length as an `int`. -/
def parseMessage (s : Server T) (f : Frame) : Option (Outcome T) :=
  match eadType f.type.toNat with
  | none => some (unchanged s)
  | some type =>
      if EadType.getPrime.val ≤ type.val ∧ s.state ≠ type then some (unchanged s)
      else if type ≠ .ping ∧ f.sid.toNat / 2 ^ 12 % 2 ^ 4 ≠ cfg.instanceId then some (unchanged s)
      else match handler k srp cfg env type s f with
        | none => some (unchanged s)
        | some (minLen, run) =>
            if toInt f.len < (packetSize + minLen : ℕ) then some (unchanged s)
            else run.bind fun h =>
              (setState srp cfg env h.server h.nstate).map fun s =>
                { server := s
                  sent := (h.sent ++ h.reply.toList).map fun data => ⟨type.val + 1, cfg.nid, f.sid, data⟩
                  events := h.events }

/-- `handle_packet`; the sum of the lengths is a 32-bit one. -/
def handlePacket (s : Server T) (f : Frame) : Option (Outcome T) :=
  if f.len < packetSize then some (unchanged s)
  else if f.etherType ≠ ethertypeIp then some (unchanged s)
  else if f.etherDhost ≠ List.replicate 6 0xff then some (unchanged s)
  else if f.proto ≠ uipProtoUdp then some (unchanged s)
  else if f.destport ≠ eadPort then some (unchanged s)
  else if f.magic ≠ eadMagic then some (unchanged s)
  else if f.len < (packetSize + f.msgLen.toNat) % 2 ^ 32 then some (unchanged s)
  else if f.nid ≠ 0xffff ∧ f.nid ≠ cfg.nid then some (unchanged s)
  else parseMessage k srp cfg env s f

end Model

end Neufbox.Ead
