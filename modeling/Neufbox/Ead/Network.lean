import Neufbox.Library.CString
import Neufbox.Ead.AuthOrder
import Neufbox.Ead.Codec

/-! # Commands on a hostile network

One authenticated client, the server, and an attacker who delivers what it likes to either of them.
The attacker has no key: a body that verifies under the session key was encrypted by the client or by
the server, and no log-in of the attacker's verifies. `executed` collects what the server hands to
`system`.

Both directions use one key and the type of a message is outside its encrypted body, so the server
takes a console message of its own for a command when it comes back: `Reflected`. Apart from that,
what it executes was sent by the client, each message at most once. -/
namespace Neufbox.Ead
open Blocks CString RunAlong
set_option autoImplicit false
set_option maxHeartbeats 250000
set_option maxRecDepth 120000

/-! ## The client -/

def strncpy (n : ℕ) (s : CStr) : List UInt8 := (s.bytes ++ List.replicate n 0).take n

/-- The payload of `send_command`: type, timeout and `strlen(command) + 1` bytes of data, of which
`strncpy` sets the first 1024. -/
def commandPayload (command : CStr) (stale : ℕ → UInt8) : List UInt8 :=
  0 :: 0 :: 10 :: (strncpy 1024 command ++ (List.range (command.strlen + 1)).map stale).take
    (command.strlen + 1)

def commandText (payload : List UInt8) : List UInt8 := (payload.drop cmdSize).takeWhile (· ≠ 0)

def handleCmdData (k : Cipher) (c : Crypt) (len : ℕ) (enc : List UInt8) : Crypt × List UInt8 × Bool :=
  let r := eadDecryptMessage k c len enc
  match r.2 with
  | none => (r.1, [], false)
  | some d =>
      if d.ret - 1 < 0 then (r.1, [], false)
      else (r.1, (d.plain.drop (encryptedSize + 1)).take (d.ret - 1).toNat,
        d.plain.getD encryptedSize 0 ≠ 0)

/-! ## The network -/

/-- The two ends, and what was sent and executed in the session: a command is an encrypted body and
the string in it. -/
structure Net (T : Type) where
  server : Server T
  client : Crypt
  clientSent : List (List UInt8 × List UInt8)
  serverSent : List (List UInt8)
  executed : List (List UInt8 × List UInt8)

inductive NetOp (T : Type) where
  | sendCommand (command : CStr) (stale behind : ℕ → UInt8)
  | toServer (env : Env T) (f : Frame)
  | toClient (len : UInt32) (enc : List UInt8)

def commandsRun (events : List Event) : List (List UInt8 × List UInt8) :=
  events.filterMap fun e => match e with
    | .system body command => some (body, command)
    | _ => none

def resultsSent (sent : List Message) : List (List UInt8) :=
  (sent.filter fun m => m.type = EadType.resultCmd.val).map Message.data

section Steps
variable {T : Type} (k : Cipher) (srp : TinySrp T) (cfg : Config)

def netStep (net : Net T) : NetOp T → Net T
  | .sendCommand command stale behind =>
      let payload := commandPayload command stale
      let r := eadEncryptMessage k net.client payload behind
      { net with client := r.1, clientSent := net.clientSent ++ [(r.2, commandText payload)] }
  | .toServer env f =>
      match handlePacket k srp cfg env net.server f with
      | none => { net with server := .init T }
      | some o =>
          { net with
            server := o.server
            serverSent := net.serverSent ++ resultsSent o.sent
            executed := net.executed ++ commandsRun o.events }
  | .toClient len enc => { net with client := (handleCmdData k net.client len.toNat enc).1 }

/-- A server and a client that just agreed on a session key. -/
def session (server : Server T) (client : Crypt) (clientBig : Bool) (skey : List UInt8) : Net T :=
  ⟨{ server with state := .sendCmd, crypt := eadSetKey cfg.bigEndian server.crypt skey },
    eadSetKey clientBig client skey, [], [], []⟩

def received (net : Net T) (f : Frame) : List UInt8 :=
  decryptBlocks k net.server.crypt.key f.msgLen.toNat f.data

def Frame.body (f : Frame) : List UInt8 := f.data.take f.msgLen.toNat

/-- What the attacker cannot do: make a body of its own verify, or log in. -/
def AttackerOk (net : Net T) : NetOp T → Prop
  | .toServer _ f =>
      (net.server.state = .sendCmd → 0 < toInt f.msgLen.toNat →
        hashField (received k net f) = eadHashMessage k (received k net f) f.msgLen.toNat →
          f.body.length = f.msgLen.toNat ∧ f.body ∈ net.clientSent.map Prod.fst ++ net.serverSent) ∧
      (net.server.state = .sendAuth → ∀ id t, net.server.ts = some (id, t) →
        (srp.serververify t (f.data.take 20)).2 ≠ 0)
  | _ => True

/-- Every command that was executed is one that the client sent, and none was executed twice. -/
def Authentic (net : Net T) : Prop :=
  (∀ e ∈ net.executed, e ∈ net.clientSent) ∧ (net.executed.map Prod.fst).Nodup

/-- A frame that passes the filter and the checks of a message of type `SEND_CMD`. -/
def Delivered (s : Server T) (f : Frame) : Prop :=
  (packetSize + (cmdSize + encryptedSize) : ℕ) ≤ toInt f.len ∧ (packetSize + f.msgLen.toNat) % 2 ^ 32 ≤ f.len ∧
    f.etherType = ethertypeIp ∧ f.etherDhost = List.replicate 6 0xff ∧ f.proto = uipProtoUdp ∧
    f.destport = eadPort ∧ f.magic = eadMagic ∧ (f.nid = 0xffff ∨ f.nid = cfg.nid) ∧
    f.sid.toNat / 2 ^ 12 % 2 ^ 4 = cfg.instanceId ∧
    eadType f.type.toNat = some .sendCmd ∧ s.state = .sendCmd

/-- A `SEND_CMD` frame brings back a body that only the server encrypted: its IV is in the window, it
is long enough to hold a command, and the server can start a child. -/
def Reflected (net : Net T) (env : Env T) (f : Frame) : Prop :=
  Delivered cfg net.server f ∧
    f.body ∈ net.serverSent ∧ f.body ∉ net.clientSent.map Prod.fst ∧ f.body.length = f.msgLen.toNat ∧
    net.server.crypt.rxIv < ivField (received k net f) ∧
    ivField (received k net f) ≤ (net.server.crypt.rxIv + eadMaxIvIncr) % 2 ^ 32 ∧
    (cmdSize : ℤ) < toInt f.msgLen.toNat - padField (received k net f) - encryptedSize ∧
    env.pipe = true ∧ env.fork = true

def NotReflected (net : Net T) : NetOp T → Prop
  | .toServer env f => ¬ Reflected k cfg net env f
  | _ => True

instance (s : Server T) (f : Frame) : Decidable (Delivered cfg s f) :=
  inferInstanceAs (Decidable (_ ∧ _ ∧ _ ∧ _ ∧ _ ∧ _ ∧ _ ∧ _ ∧ _ ∧ _ ∧ _))

instance (net : Net T) (env : Env T) (f : Frame) : Decidable (Reflected k cfg net env f) :=
  inferInstanceAs (Decidable (_ ∧ _ ∧ _ ∧ _ ∧ _ ∧ _ ∧ _ ∧ _ ∧ _))

end Steps

/-! ## What a frame can make the server do -/

section Session
variable {T : Type} {k : Cipher} {srp : TinySrp T} {cfg : Config} {env : Env T} {s : Server T}

theorem Delivered.state {f : Frame} (h : Delivered cfg s f) : s.state = .sendCmd :=
  h.2.2.2.2.2.2.2.2.2.2

theorem handlePacket_delivered {f : Frame} (h : Delivered cfg s f) :
    handlePacket k srp cfg env s f =
      some { server := (handleSendCmd k cfg env s f).server
             sent := ((handleSendCmd k cfg env s f).sent ++ (handleSendCmd k cfg env s f).reply.toList).map
               fun data => ⟨EadType.resultCmd.val, cfg.nid, f.sid, data⟩
             events := (handleSendCmd k cfg env s f).events } := by
  obtain ⟨hlen, hmsg, heth, hdst, hproto, hport, hmagic, hnid, hsid, htype, hstate⟩ := h
  have hwire := toInt_le f.len
  rw [handlePacket, if_neg (by omega), if_neg (not_not_intro heth), if_neg (not_not_intro hdst),
    if_neg (not_not_intro hproto), if_neg (not_not_intro hport), if_neg (not_not_intro hmagic),
    if_neg (by omega), if_neg (by rw [not_and_or, not_not, not_not]; exact hnid), parseMessage]
  simp only [htype, hstate, ne_eq, not_true_eq_false, and_false, if_false, hsid, handler]
  rw [if_neg (by omega), Option.bind_some, handleSendCmd_setState]
  rfl

theorem handlePacket_dropped {f : Frame} (htype : eadType f.type.toNat = some .sendCmd)
    (h : ¬ Delivered cfg s f) : handlePacket k srp cfg env s f = some (unchanged s) := by
  unfold handlePacket
  split
  · rfl
  split
  · rfl
  split
  · rfl
  split
  · rfl
  split
  · rfl
  split
  · rfl
  split
  · rfl
  split
  · rfl
  next heth hdst hproto hport hmagic hmsg hnid =>
  unfold parseMessage
  simp only [htype, handler]
  split
  · rfl
  next hstate =>
  split
  · rfl
  next hsid =>
  split
  · rfl
  next hlen =>
  refine absurd ⟨by omega, by omega, not_not.mp heth, not_not.mp hdst, not_not.mp hproto, not_not.mp hport,
    not_not.mp hmagic, ?_, ?_, htype, ?_⟩ h
  · rwa [not_and_or, not_not, not_not] at hnid
  · simpa using hsid
  · simpa [EadType.val] using hstate

theorem handleSendCmd_runs (k : Cipher) (cfg : Config) (env : Env T) (s : Server T) (f : Frame) :
    commandsRun (handleSendCmd k cfg env s f).events = [] ∨
    ∃ d, (eadDecryptMessage k s.crypt f.msgLen.toNat f.data).2 = some d ∧ (cmdSize : ℤ) < d.ret ∧
      (d.plain.getD encryptedSize 0 = 0 → env.pipe = true) ∧ env.fork = true ∧
      commandsRun (handleSendCmd k cfg env s f).events =
        [(f.body, ((d.plain.drop (encryptedSize + cmdSize)).take (d.ret - cmdSize).toNat).takeWhile
          (· ≠ 0))] := by
  unfold handleSendCmd
  dsimp only
  split
  · exact Or.inl rfl
  · next d hd =>
    split
    · exact Or.inl rfl
    · next hlen =>
      split
      · split
        · exact Or.inl rfl
        · next hstart =>
          rw [not_or, Bool.not_eq_false, Bool.not_eq_false] at hstart
          split
          · exact Or.inr ⟨d, hd, by omega, fun _ => hstart.1, hstart.2, rfl⟩
          · exact Or.inr ⟨d, hd, by omega, fun _ => hstart.1, hstart.2, rfl⟩
      · next htype =>
        split
        · exact Or.inl rfl
        · next hstart =>
          rw [Bool.not_eq_false] at hstart
          refine Or.inr ⟨d, hd, by omega, ?_, hstart, rfl⟩
          intro hzero
          rw [cmdType, if_pos hzero] at htype
          cases htype
      · exact Or.inl rfl

theorem handleSendCmd_executes (cfg : Config) {f : Frame} {d : Decrypted}
    (hd : (eadDecryptMessage k s.crypt f.msgLen.toNat f.data).2 = some d) (hret : (cmdSize : ℤ) < d.ret)
    (htype : d.plain.getD encryptedSize 0 = 0) (hpipe : env.pipe = true) (hfork : env.fork = true) :
    ∃ command, (f.body, command) ∈ commandsRun (handleSendCmd k cfg env s f).events := by
  have hcmd : cmdType cfg.bigEndian (d.plain.getD encryptedSize 0) = some .normal := if_pos htype
  unfold handleSendCmd
  simp only [hd, hcmd]
  rw [if_neg (by omega), if_neg (by simp [hpipe, hfork])]
  split
  · exact ⟨_, List.mem_singleton.mpr rfl⟩
  · exact ⟨_, List.mem_singleton.mpr rfl⟩

theorem run_crypt (ops : List CryptOp) (c : Crypt) :
    (runSteps (cryptStep k) c ops).key = c.key ∧ c.rxIv ≤ (runSteps (cryptStep k) c ops).rxIv := by
  induction ops generalizing c with
  | nil => exact ⟨rfl, le_refl _⟩
  | cons op ops ih =>
    obtain ⟨hkey, hle, -⟩ := cryptStep_iv k c op
    obtain ⟨hkey', hle'⟩ := ih (cryptStep k c op)
    exact ⟨hkey'.trans hkey, hle.trans hle'⟩

/-- A body the server encrypts: console data behind a zero, or the end of a command. -/
def ConsoleBody (k : Cipher) (key body : List UInt8) : Prop :=
  ∃ iv payload behind, iv < 2 ^ 32 ∧ body = encryptBlocks k key (plainMessage k iv payload behind) ∧
    (payload = [1] ∨ ∃ bytes, payload = 0 :: bytes)

theorem consoleBody_encrypt (c : Crypt) {payload : List UInt8} (behind : ℕ → UInt8)
    (h : payload = [1] ∨ ∃ bytes, payload = 0 :: bytes) :
    ConsoleBody k c.key (eadEncryptMessage k c payload behind).2 :=
  ⟨(eadGetTxIv c).2, payload, behind, Nat.mod_lt _ (by norm_num), eadEncryptMessage_body k payload behind c, h⟩

theorem streamConsole_bodies (c : Crypt) (rounds : List (List UInt8 × (ℕ → UInt8))) :
    ∀ body ∈ (streamConsole k c rounds).2, ConsoleBody k c.key body := by
  induction rounds generalizing c with
  | nil => exact fun body h => by cases h
  | cons r rounds ih =>
    intro body hmem
    rcases List.mem_cons.mp hmem with rfl | hmem
    · exact consoleBody_encrypt c r.2 (Or.inr ⟨_, rfl⟩)
    · exact ih (eadEncryptMessage k c (0 :: r.1.take 1024) r.2).1 body hmem

theorem handleSendCmd_bodies (s : Server T) (f : Frame) :
    ∀ body ∈ (handleSendCmd k cfg env s f).sent ++ (handleSendCmd k cfg env s f).reply.toList,
      ConsoleBody k s.crypt.key body := by
  have hkey := (cryptStep_iv k s.crypt (.decrypt f.msgLen.toNat f.data)).1
  rw [← hkey]
  unfold handleSendCmd
  dsimp only
  split
  · exact fun body h => by cases h
  · next d hd =>
    split
    · exact fun body h => by cases h
    · split
      · split
        · exact fun body h => by cases h
        · split
          · intro body h
            rw [Option.toList_none, List.append_nil] at h
            exact streamConsole_bodies _ _ body h
          · intro body h
            rcases List.mem_append.mp h with h | h
            · exact streamConsole_bodies _ _ body h
            · rw [List.mem_singleton.mp h]
              have hrun := (run_crypt (k := k) (consoleOps env.console)
                (cryptStep k s.crypt (.decrypt f.msgLen.toNat f.data))).1
              rw [← hrun, ← streamConsole_crypt]
              exact consoleBody_encrypt _ _ (Or.inl rfl)
      · split
        · exact fun body h => by cases h
        · intro body h
          rw [List.mem_singleton.mp h]
          exact consoleBody_encrypt _ _ (Or.inl rfl)
      · exact fun body h => by cases h

theorem resultsSent_other {type : EadType} (h : type ≠ .sendCmd) (nid sid : UInt16)
    (bodies : List (List UInt8)) :
    resultsSent (bodies.map fun data => ⟨type.val + 1, nid, sid, data⟩) = [] := by
  have hval : type.val + 1 ≠ EadType.resultCmd.val := by
    cases type <;> first | exact absurd rfl h | decide
  simp [resultsSent, List.filter_map, hval, Function.comp_def]

theorem resultsSent_command (nid sid : UInt16) (bodies : List (List UInt8)) :
    resultsSent (bodies.map fun data => ⟨EadType.resultCmd.val, nid, sid, data⟩) = bodies := by
  simp [resultsSent, List.filter_map, Function.comp_def]

/-- A frame of another type runs no command and leaves a command state only as it was: an attacker that
cannot log in does not get there. -/
theorem handlePacket_other {f : Frame} {o : Outcome T} (hstates : s.state ∈ serverStates)
    (hauth : s.state = .sendAuth → ∀ id t, s.ts = some (id, t) →
      (srp.serververify t (f.data.take 20)).2 ≠ 0)
    (hcmd : eadType f.type.toNat ≠ some .sendCmd) (hp : handlePacket k srp cfg env s f = some o) :
    o.server.state ∈ serverStates ∧ commandsRun o.events = [] ∧ resultsSent o.sent = [] ∧
      (o.server.state = .sendCmd → o.server = s) := by
  obtain rfl | ⟨type, minLen, hd, htype, hstate, hhandler, hset, hevents, hsent⟩ := handlePacket_cases hp
  · exact ⟨hstates, rfl, rfl, fun _ => rfl⟩
  have hother : type ≠ .sendCmd := by
    rintro rfl
    exact hcmd htype
  rw [hevents, hsent, resultsSent_other hother]
  -- what is left: the record of the handler and the state it proposes
  suffices h : o.server.state ∈ serverStates ∧ commandsRun hd.events = [] ∧
      (o.server.state = .sendCmd → o.server = s) from ⟨h.1, h.2.1, rfl, h.2.2⟩
  obtain ⟨rfl, rfl⟩ | ⟨rfl, hh⟩ | ⟨rfl, hh⟩ | ⟨rfl, hh⟩ | ⟨rfl, hh⟩ | ⟨rfl, rfl⟩ := handler_cases hhandler
  · rw [handlePing, setState_same] at hset
    rw [← Option.some.inj hset]
    exact ⟨hstates, rfl, fun _ => rfl⟩
  · obtain ⟨s1, username, hclear, rfl⟩ := handleSetUsername_cases hh
    have hs1 := setState_clear hclear hstates
    obtain hs' | ⟨hs', -⟩ := setState_open hset hs1
    · rw [hs']
      exact ⟨by simp [serverStates], rfl, by simp⟩
    · rw [hs']
      exact ⟨by simp [serverStates], rfl, by simp⟩
  · obtain ⟨id, t, reply, -, rfl⟩ := handleGetPrime_cases hh
    obtain ⟨id, t, t', b, -, hs'⟩ := setState_prime hset (hstate (by decide))
    rw [hs']
    exact ⟨by simp [serverStates], rfl, by simp⟩
  · obtain rfl | ⟨id, t, a, reply, -, rfl⟩ := handleSendA_cases hh
    · rw [ignored, setState_same] at hset
      rw [← Option.some.inj hset]
      exact ⟨hstates, rfl, fun _ => rfl⟩
    · obtain ⟨id', t1, t', -, hs' | ⟨skey, hs'⟩⟩ := setState_key hset (hstate (by decide))
      · rw [hs']
        exact ⟨by simp [serverStates], rfl, by simp⟩
      · rw [hs']
        exact ⟨by simp [serverStates], rfl, by simp⟩
  · obtain ⟨id, t, t', ret, reply, hts, hret, rfl⟩ := handleSendAuth_cases hh
    have hfails : ret ≠ 0 := by
      rw [hret]
      exact hauth (hstate (by decide)) id t hts
    rw [if_pos hfails] at hset
    have hs' := setState_clear hset hstates
    rw [hs']
    exact ⟨by simp [serverStates], rfl, by simp⟩
  · exact absurd rfl hother

/-- A frame reaches the handler of commands, or does none of what a command does. -/
theorem handlePacket_session {f : Frame} {o : Outcome T} (hstates : s.state ∈ serverStates)
    (hauth : s.state = .sendAuth → ∀ id t, s.ts = some (id, t) →
      (srp.serververify t (f.data.take 20)).2 ≠ 0)
    (hp : handlePacket k srp cfg env s f = some o) :
    (Delivered cfg s f ∧ o.server = (handleSendCmd k cfg env s f).server ∧
      o.events = (handleSendCmd k cfg env s f).events ∧
      resultsSent o.sent =
        (handleSendCmd k cfg env s f).sent ++ (handleSendCmd k cfg env s f).reply.toList) ∨
    (o.server.state ∈ serverStates ∧ commandsRun o.events = [] ∧ resultsSent o.sent = [] ∧
      (o.server.state = .sendCmd → o.server = s)) := by
  by_cases hcmd : eadType f.type.toNat = some .sendCmd
  · by_cases hdel : Delivered cfg s f
    · rw [handlePacket_delivered hdel] at hp
      obtain rfl := Option.some.inj hp
      exact Or.inl ⟨hdel, rfl, rfl, resultsSent_command _ _ _⟩
    · rw [handlePacket_dropped hcmd hdel] at hp
      obtain rfl := Option.some.inj hp
      exact Or.inr ⟨hstates, rfl, rfl, fun _ => rfl⟩
  · exact Or.inr (handlePacket_other hstates hauth hcmd hp)

end Session

end Neufbox.Ead
