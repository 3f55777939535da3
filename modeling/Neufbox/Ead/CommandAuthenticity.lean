import Neufbox.Ead.Network

/-! # Commands are authentic

Along every run of a session, as long as no console message is reflected, what the server executes was
sent by the client, each body at most once; a reflected message is executed, so the condition is exact.
The invariant `NetOk` orders what was executed by its IVs. -/
namespace Neufbox.Ead
open Blocks CString RunAlong
set_option autoImplicit false
set_option maxHeartbeats 250000
set_option maxRecDepth 120000

section Session
variable {T : Type} {k : Cipher} {srp : TinySrp T} {cfg : Config} {env : Env T}

/-! ## The invariant -/

def bodyIv (k : Cipher) (key body : List UInt8) : ℕ := messageIv k key (body.length, body)

/-- What the client sent under the session key: a message with this body and this string. -/
def Recorded (k : Cipher) (key : List UInt8) (r : List UInt8 × List UInt8) : Prop :=
  ∃ iv payload behind, iv < 2 ^ 32 ∧ r.1 = encryptBlocks k key (plainMessage k iv payload behind) ∧
    r.2 = commandText payload

/-- As long as the server is in the command state, it has the session key, and what it executed lies
below its receive IV. -/
structure NetOk (k : Cipher) (key : List UInt8) (net : Net T) : Prop where
  states : net.server.state ∈ serverStates
  serverKey : net.server.state = .sendCmd → net.server.crypt.key = key
  clientKey : net.client.key = key
  records : ∀ r ∈ net.clientSent, Recorded k key r
  console : ∀ body ∈ net.serverSent, ConsoleBody k key body
  fromClient : ∀ e ∈ net.executed, e ∈ net.clientSent
  increasing : (net.executed.map fun e => bodyIv k key e.1).Pairwise (· < ·)
  below : net.server.state = .sendCmd → ∀ e ∈ net.executed, bodyIv k key e.1 ≤ net.server.crypt.rxIv

variable {net : Net T} {key : List UInt8}

theorem session_ok (server : Server T) (client : Crypt) (clientBig : Bool) (skey : List UInt8) :
    NetOk k (skey.take 32) (session cfg server client clientBig skey) where
  states := by simp [session, serverStates]
  serverKey _ := rfl
  clientKey := rfl
  records _ h := by cases h
  console _ h := by cases h
  fromClient _ h := by cases h
  increasing := List.Pairwise.nil
  below _ _ h := by cases h

theorem netOk_sendCommand (h : NetOk k key net) (command : CStr) (stale behind : ℕ → UInt8) :
    NetOk k key (netStep k srp cfg net (.sendCommand command stale behind)) where
  states := h.states
  serverKey := h.serverKey
  clientKey := h.clientKey
  records := by
    intro r hr
    rcases List.mem_append.mp hr with hr | hr
    · exact h.records r hr
    · rw [List.mem_singleton.mp hr]
      refine ⟨(eadGetTxIv net.client).2, _, behind, Nat.mod_lt _ (by norm_num), ?_, rfl⟩
      rw [eadEncryptMessage_body, h.clientKey]
  console := h.console
  fromClient e he := List.mem_append_left _ (h.fromClient e he)
  increasing := h.increasing
  below := h.below

theorem netOk_toClient (h : NetOk k key net) (len : UInt32) (enc : List UInt8) :
    NetOk k key (netStep k srp cfg net (.toClient len enc)) where
  states := h.states
  serverKey := h.serverKey
  clientKey := by
    have hcrypt : (handleCmdData k net.client len.toNat enc).1 =
        cryptStep k net.client (.decrypt len.toNat enc) := by
      unfold handleCmdData
      dsimp only
      split
      · rfl
      · split <;> rfl
    change (handleCmdData k net.client len.toNat enc).1.key = key
    rw [hcrypt, (cryptStep_iv k net.client _).1]
    exact h.clientKey
  records := h.records
  console := h.console
  fromClient := h.fromClient
  increasing := h.increasing
  below := h.below

/-! ## A frame for the server -/

theorem lt_of_toInt_pos {n : ℕ} (hn : n < 2 ^ 32) (h : 0 < toInt n) : n < 2 ^ 31 := by
  by_contra hge
  rw [toInt, if_neg hge] at h
  omega

theorem bodyIv_encrypt {iv : ℕ} (hiv : iv < 2 ^ 32) (payload : List UInt8) (behind : ℕ → UInt8)
    (hlt : (encryptBlocks k key (plainMessage k iv payload behind)).length < 2 ^ 31) :
    bodyIv k key (encryptBlocks k key (plainMessage k iv payload behind)) = iv := by
  have hsize : encryptedSize = 25 := rfl
  have hpos : 0 < toInt (encryptBlocks k key (plainMessage k iv payload behind)).length := by
    rw [toInt, if_pos hlt, encryptBlocks_length, plainMessage_length]
    omega
  have hdec := decryptBlocks_encrypt k iv payload behind key (by omega) hpos rfl (List.take_length)
  rw [bodyIv, messageIv, hdec, List.drop_length, ivField_plain k iv payload behind [] hiv]

theorem decrypt_sent {c : Crypt} {f : Frame} {d : Decrypted} {iv : ℕ} {payload : List UInt8}
    {behind : ℕ → UInt8} (hd : (eadDecryptMessage k c f.msgLen.toNat f.data).2 = some d)
    (hlt : f.msgLen.toNat < 2 ^ 31) (hlen : f.body.length = f.msgLen.toNat) (hiv : iv < 2 ^ 32)
    (hbody : f.body = encryptBlocks k c.key (plainMessage k iv payload behind)) :
    d = ⟨clearHash (plainMessage k iv payload behind ++ f.data.drop f.msgLen.toNat), payload.length⟩ ∧
      c.rxIv < bodyIv k c.key f.body ∧
      (eadDecryptMessage k c f.msgLen.toNat f.data).1.rxIv = bodyIv k c.key f.body := by
  have hlen' : f.msgLen.toNat = (encryptBlocks k c.key (plainMessage k iv payload behind)).length := by
    rw [← hbody, hlen]
  have hbodyIv : bodyIv k c.key f.body = iv := by
    rw [hbody]
    exact bodyIv_encrypt hiv payload behind (by rw [← hlen']; exact hlt)
  have hreceived : ivField (decryptBlocks k c.key f.msgLen.toNat f.data) = iv := by
    have hpos : 0 < toInt f.msgLen.toNat := by
      have hsize : encryptedSize = 25 := rfl
      rw [toInt, if_pos hlt, hlen', encryptBlocks_length, plainMessage_length]
      omega
    rw [decryptBlocks_encrypt k iv payload behind c.key (by omega) hpos hlen' hbody]
    exact ivField_plain k iv payload behind _ hiv
  obtain ⟨hnone, -⟩ | ⟨-, -, -, -, hlow, hhigh, -⟩ := eadDecryptMessage_cases k c f.msgLen.toNat f.data
  · rw [hnone] at hd
    cases hd
  · rw [hreceived] at hlow hhigh
    have hdec := eadDecryptMessage_encrypt k iv payload behind hlt hlen' hbody hiv hlow hhigh
    rw [hdec] at hd ⊢
    rw [hbodyIv]
    exact ⟨(Option.some.inj hd).symm, hlow, rfl⟩

/-- A command the server runs in a session: the client sent it, and its IV is the new receive IV. -/
theorem executed_recorded (h : NetOk k key net) {f : Frame} (hdel : Delivered cfg net.server f)
    {d : Decrypted} (hd : (eadDecryptMessage k net.server.crypt f.msgLen.toNat f.data).2 = some d)
    (hret : (cmdSize : ℤ) < d.ret) (hpipe : d.plain.getD encryptedSize 0 = 0 → env.pipe = true)
    (hfork : env.fork = true) (hattacker : AttackerOk k srp net (.toServer env f))
    (hreflect : NotReflected k cfg net (.toServer env f)) :
    (f.body, ((d.plain.drop (encryptedSize + cmdSize)).take (d.ret - cmdSize).toNat).takeWhile (· ≠ 0)) ∈
        net.clientSent ∧
      net.server.crypt.rxIv < bodyIv k key f.body ∧
      (eadDecryptMessage k net.server.crypt f.msgLen.toNat f.data).1.rxIv = bodyIv k key f.body := by
  have hcmd : cmdSize = 3 := rfl
  have hstate := hdel.state
  have hkey := h.serverKey hstate
  obtain ⟨hnone, -⟩ | ⟨hsome, -, -, -, hlow, hhigh, hhash⟩ :=
    eadDecryptMessage_cases k net.server.crypt f.msgLen.toNat f.data
  · rw [hnone] at hd
    cases hd
  have hdval := Option.some.inj ((congrArg Prod.snd hsome).symm.trans hd)
  have hwire : (cmdSize : ℤ) < toInt f.msgLen.toNat - padField (received k net f) - encryptedSize := by
    rw [← hdval] at hret
    exact hret
  have hpos : 0 < toInt f.msgLen.toNat := by omega
  have hlt := lt_of_toInt_pos f.msgLen.toNat_lt hpos
  have hnat : (toInt f.msgLen.toNat).toNat = f.msgLen.toNat := by rw [toInt, if_pos hlt]; rfl
  rw [hnat] at hhash
  -- the body verifies, so it was sent; it is not a reflection, so the client sent it
  obtain ⟨hlen, hmem⟩ := hattacker.1 hstate hpos hhash
  have hclient : f.body ∈ net.clientSent.map Prod.fst := by
    by_contra hnot
    rcases List.mem_append.mp hmem with hmem | hmem
    · exact hnot hmem
    · obtain ⟨iv, payload, behind, hiv, hbody, hpayload⟩ := h.console _ hmem
      rw [← hkey] at hbody
      obtain ⟨rfl, -⟩ := decrypt_sent hd hlt hlen hiv hbody
      rcases hpayload with rfl | ⟨bytes, rfl⟩
      · simp only [List.length_singleton] at hret
        omega
      · exact hreflect ⟨hdel, hmem, hnot, hlen, hlow, hhigh, hwire,
          hpipe (first_plain k iv bytes behind _ 0), hfork⟩
  obtain ⟨r, hr, hbody⟩ := List.mem_map.mp hclient
  obtain ⟨iv, payload, behind, hiv, hr1, hr2⟩ := h.records r hr
  rw [hbody, ← hkey] at hr1
  obtain ⟨rfl, hnew⟩ := decrypt_sent hd hlt hlen hiv hr1
  rw [hkey] at hnew
  refine ⟨?_, hnew⟩
  have hcount : ((payload.length : ℤ) - cmdSize).toNat = payload.length - cmdSize := by omega
  have hr2' : (payload.drop cmdSize).takeWhile (· ≠ 0) = r.2 := hr2.symm
  rw [hcount, payload_plain, hr2', ← hbody]
  exact hr

/-- The handler of commands, where what it decrypts was sent and is not a reflection. -/
theorem netOk_command (h : NetOk k key net) {f : Frame} (hdel : Delivered cfg net.server f)
    (hattacker : AttackerOk k srp net (.toServer env f))
    (hreflect : NotReflected k cfg net (.toServer env f)) :
    NetOk k key
      { net with
        server := (handleSendCmd k cfg env net.server f).server
        serverSent := net.serverSent ++ ((handleSendCmd k cfg env net.server f).sent ++
          (handleSendCmd k cfg env net.server f).reply.toList)
        executed := net.executed ++ commandsRun (handleSendCmd k cfg env net.server f).events } := by
  have hstate := hdel.state
  obtain ⟨ops, hserver, -, -⟩ := handleSendCmd_crypt k cfg env net.server f
  have hrun := run_crypt (k := k) (.decrypt f.msgLen.toNat f.data :: ops) net.server.crypt
  have hkey : (handleSendCmd k cfg env net.server f).server.crypt.key = key := by
    rw [hserver]
    exact hrun.1.trans (h.serverKey hstate)
  have hmono : net.server.crypt.rxIv ≤ (handleSendCmd k cfg env net.server f).server.crypt.rxIv := by
    rw [hserver]
    exact hrun.2
  have hconsole : ∀ body ∈ net.serverSent ++ ((handleSendCmd k cfg env net.server f).sent ++
      (handleSendCmd k cfg env net.server f).reply.toList), ConsoleBody k key body := by
    intro body hmem
    rcases List.mem_append.mp hmem with hmem | hmem
    · exact h.console body hmem
    · rw [← h.serverKey hstate]
      exact handleSendCmd_bodies net.server f body hmem
  have hstates : (handleSendCmd k cfg env net.server f).server.state ∈ serverStates := by
    rw [hserver]
    exact h.states
  obtain hnone | ⟨d, hd, hret, hpipe, hfork, hsome⟩ := handleSendCmd_runs k cfg env net.server f
  · rw [hnone, List.append_nil]
    exact
      { h with
        states := hstates
        serverKey := fun _ => hkey
        console := hconsole
        below := fun _ e he => (h.below hstate e he).trans hmono }
  · obtain ⟨hmem, hlt, hnew⟩ := executed_recorded h hdel hd hret hpipe hfork hattacker hreflect
    have hle : bodyIv k key f.body ≤ (handleSendCmd k cfg env net.server f).server.crypt.rxIv := by
      rw [hserver, ← hnew]
      exact (run_crypt ops _).2
    rw [hsome]
    exact
      { states := hstates
        serverKey := fun _ => hkey
        clientKey := h.clientKey
        records := h.records
        console := hconsole
        fromClient := by
          intro e he
          rcases List.mem_append.mp he with he | he
          · exact h.fromClient e he
          · rw [List.mem_singleton.mp he]
            exact hmem
        increasing := by
          rw [List.map_append, List.pairwise_append]
          refine ⟨h.increasing, List.pairwise_singleton _ _, ?_⟩
          intro a ha b hb
          obtain ⟨e, he, rfl⟩ := List.mem_map.mp ha
          rw [List.mem_singleton.mp hb]
          exact (h.below hstate e he).trans_lt hlt
        below := by
          intro _ e he
          rcases List.mem_append.mp he with he | he
          · exact (h.below hstate e he).trans hmono
          · rw [List.mem_singleton.mp he]
            exact hle }

theorem netOk_toServer (h : NetOk k key net) (env : Env T) (f : Frame)
    (hattacker : AttackerOk k srp net (.toServer env f))
    (hreflect : NotReflected k cfg net (.toServer env f)) :
    NetOk k key (netStep k srp cfg net (.toServer env f)) := by
  unfold netStep
  dsimp only
  split
  · exact
      { h with
        states := by simp [Server.init, serverStates]
        serverKey := fun hs => by cases hs
        below := fun hs => by cases hs }
  · next o ho =>
    obtain ⟨hdel, hserver, hevents, hsent⟩ | ⟨hstates, hnone, hsent, hsame⟩ :=
      handlePacket_session h.states hattacker.2 ho
    · rw [hserver, hevents, hsent]
      exact netOk_command h hdel hattacker hreflect
    · rw [hnone, hsent, List.append_nil, List.append_nil]
      exact
        { h with
          states := hstates
          serverKey := fun hs => by
            have he := hsame hs
            rw [he] at hs ⊢
            exact h.serverKey hs
          below := fun hs => by
            have he := hsame hs
            rw [he] at hs ⊢
            exact h.below hs }

theorem netStep_ok (net : Net T) (op : NetOp T) (h : NetOk k key net)
    (hop : AttackerOk k srp net op ∧ NotReflected k cfg net op) :
    NetOk k key (netStep k srp cfg net op) := by
  cases op with
  | sendCommand command stale behind => exact netOk_sendCommand h command stale behind
  | toServer env f => exact netOk_toServer h env f hop.1 hop.2
  | toClient len enc => exact netOk_toClient h len enc

theorem NetOk.authentic (h : NetOk k key net) : Authentic net := by
  refine ⟨h.fromClient, ?_⟩
  rw [List.Nodup, List.pairwise_map]
  refine (List.pairwise_map.mp h.increasing).imp ?_
  intro a b hlt he
  rw [he] at hlt
  exact lt_irrefl _ hlt

/-! ## A reflection -/

theorem reflected_executed (srp : TinySrp T) (h : NetOk k key net) {f : Frame} (hreflect : Reflected k cfg net env f) :
    ∃ command, (f.body, command) ∈ (netStep k srp cfg net (.toServer env f)).executed := by
  obtain ⟨hdel, hmem, -, hlen, hlow, hhigh, hret, hpipe, hfork⟩ := hreflect
  have hcmd : cmdSize = 3 := rfl
  have hkey := h.serverKey hdel.state
  obtain ⟨iv, payload, behind, hiv, hbody, hpayload⟩ := h.console _ hmem
  rw [← hkey] at hbody
  have hpos : 0 < toInt f.msgLen.toNat := by omega
  have hlt := lt_of_toInt_pos f.msgLen.toNat_lt hpos
  have hlen' : f.msgLen.toNat =
      (encryptBlocks k net.server.crypt.key (plainMessage k iv payload behind)).length := by
    rw [← hbody, hlen]
  have hplain : received k net f = plainMessage k iv payload behind ++ f.data.drop f.msgLen.toNat :=
    decryptBlocks_encrypt k iv payload behind _ (by omega) hpos hlen' hbody
  rw [hplain, ivField_plain k iv payload behind _ hiv] at hlow hhigh
  have hdec := eadDecryptMessage_encrypt k iv payload behind hlt hlen' hbody hiv hlow hhigh
  have hlong : (cmdSize : ℤ) < payload.length := by
    rw [hplain, padField_plain, toInt, if_pos hlt, hlen', encryptBlocks_length, plainMessage_length] at hret
    omega
  rcases hpayload with rfl | ⟨bytes, rfl⟩
  · simp only [List.length_singleton] at hlong
    omega
  · obtain ⟨command, hrun⟩ := handleSendCmd_executes cfg (congrArg Prod.snd hdec) hlong
      (first_plain k iv bytes behind _ 0) hpipe hfork
    refine ⟨command, ?_⟩
    unfold netStep
    simp only [handlePacket_delivered hdel]
    exact List.mem_append_right _ hrun

theorem notReflected_of_authentic (net : Net T) (op : NetOp T) (h : NetOk k key net)
    (hauth : Authentic (netStep k srp cfg net op)) : NotReflected k cfg net op := by
  cases op with
  | sendCommand command stale behind => trivial
  | toClient len enc => trivial
  | toServer env f =>
    intro hreflect
    obtain ⟨command, hexec⟩ := reflected_executed srp h hreflect
    have hsent := hauth.1 _ hexec
    have hclient : (netStep k srp cfg net (.toServer env f)).clientSent = net.clientSent := by
      unfold netStep
      dsimp only
      split <;> rfl
    rw [hclient] at hsent
    exact hreflect.2.2.1 (List.mem_map.mpr ⟨_, hsent, rfl⟩)

/-! ## Every run -/

/-- In every run of a session: whatever was executed in any state reached was sent by the client, with
this body and this text, and no body twice, if and only if no console message was reflected. -/
theorem ead_commands_authentic (k : Cipher) (srp : TinySrp T) (cfg : Config) (server : Server T)
    (client : Crypt) (clientBig : Bool) (skey : List UInt8) (ops : List (NetOp T))
    (hattacker : Along (netStep k srp cfg) (AttackerOk k srp)
      (session cfg server client clientBig skey) ops) :
    Along (netStep k srp cfg) (fun net op => Authentic (netStep k srp cfg net op))
        (session cfg server client clientBig skey) ops ↔
      Along (netStep k srp cfg) (NotReflected k cfg) (session cfg server client clientBig skey) ops := by
  have hsession : NetOk k (skey.take 32) (session cfg server client clientBig skey) :=
    session_ok server client clientBig skey
  constructor
  · intro hauth
    refine (hattacker.and hauth).imp ?_ ?_ hsession
    · intro net op h hop
      exact netStep_ok net op h ⟨hop.1, notReflected_of_authentic net op h hop.2⟩
    · intro net op h hop
      exact notReflected_of_authentic net op h hop.2
  · intro hreflect
    refine (hattacker.and hreflect).imp netStep_ok ?_ hsession
    intro net op h hop
    exact (netStep_ok net op h hop).authentic

end Session

/-! ## Two runs -/

def lsCommand : CStr := ⟨[108, 115], by decide⟩

def zeros : ℕ → UInt8 := fun _ => 0

def openSession (T : Type) : Net T := session plainConfig (.init T) .init true fastKey

def lsBody (k : Cipher) : List UInt8 :=
  (eadEncryptMessage k (eadSetKey true .init fastKey) (commandPayload lsCommand zeros) zeros).2

section Replay
variable {T : Type} (k : Cipher) (srp : TinySrp T) (env : Env T)

/-- A command is sent, and its frame arrives twice. -/
def replayRun : List (NetOp T) :=
  [.sendCommand lsCommand zeros zeros, .toServer env (frameOf 10 (lsBody k)), .toServer env (frameOf 10 (lsBody k))]

theorem lsBody_length : (lsBody k).length = 64 := by
  rw [lsBody, eadEncryptMessage_body, encryptBlocks_length, plainMessage_length]
  decide

theorem lsFrame_msgLen : (frameOf 10 (lsBody k)).msgLen.toNat = 64 := by
  rw [frameOf, lsBody_length]
  rfl

theorem lsFrame_body : (frameOf 10 (lsBody k)).body = lsBody k := by
  rw [Frame.body, lsFrame_msgLen]
  exact List.take_of_length_le (lsBody_length k).le

/-- The one command was sent, and the server waits for commands. -/
structure LsSent (net : Net T) : Prop where
  state : net.server.state = .sendCmd
  sent : net.clientSent = [(lsBody k, lsCommand.bytes)]

variable {k}

theorem lsFrame_delivered {net : Net T} (h : LsSent k net) :
    Delivered plainConfig net.server (frameOf 10 (lsBody k)) := by
  have hlen : (frameOf 10 (lsBody k)).len = packetSize + 64 := by
    rw [frameOf, lsBody_length]
  have hsid : (0 : UInt32).toNat / 2 ^ 12 % 2 ^ 4 = 0 := by decide
  have htype : eadType (10 : UInt32).toNat = some .sendCmd := by decide
  refine ⟨?_, ?_, rfl, rfl, rfl, rfl, rfl, Or.inr rfl, hsid, htype, h.state⟩
  · rw [hlen]
    decide
  · rw [hlen, lsFrame_msgLen]
    decide

theorem LsSent.step {net : Net T} (h : LsSent k net) :
    LsSent k (netStep k srp plainConfig net (.toServer env (frameOf 10 (lsBody k)))) := by
  obtain ⟨ops, hserver, -, -⟩ := handleSendCmd_crypt k plainConfig env net.server (frameOf 10 (lsBody k))
  unfold netStep
  simp only [handlePacket_delivered (lsFrame_delivered h)]
  refine ⟨?_, h.sent⟩
  rw [hserver]
  exact h.state

theorem LsSent.attackerOk {net : Net T} (h : LsSent k net) :
    AttackerOk k srp net (.toServer env (frameOf 10 (lsBody k))) := by
  constructor
  · intro _ _ _
    rw [lsFrame_body, lsFrame_msgLen, h.sent]
    exact ⟨lsBody_length k, List.mem_cons_self⟩
  · intro hstate
    rw [h.state] at hstate
    cases hstate

theorem LsSent.notReflected {net : Net T} (h : LsSent k net) :
    NotReflected k plainConfig net (.toServer env (frameOf 10 (lsBody k))) := by
  rintro ⟨-, -, hnot, -⟩
  rw [lsFrame_body, h.sent] at hnot
  exact hnot List.mem_cons_self

/-- The frame is executed when it arrives for the first time. -/
theorem lsFrame_executed (hpipe : env.pipe = true) (hfork : env.fork = true) {net : Net T} (h : LsSent k net)
    (hcrypt : net.server.crypt = eadSetKey true .init fastKey) :
    ∃ command, (lsBody k, command) ∈
      (netStep k srp plainConfig net (.toServer env (frameOf 10 (lsBody k)))).executed := by
  have hkey : net.server.crypt.key = (eadSetKey true .init fastKey).key := congrArg Crypt.key hcrypt
  have hbody : lsBody k = encryptBlocks k net.server.crypt.key
      (plainMessage k (eadGetTxIv (eadSetKey true .init fastKey)).2 (commandPayload lsCommand zeros) zeros) := by
    rw [hkey]
    exact eadEncryptMessage_body k _ _ _
  have hlen : (frameOf 10 (lsBody k)).msgLen.toNat = (encryptBlocks k net.server.crypt.key (plainMessage k
      (eadGetTxIv (eadSetKey true .init fastKey)).2 (commandPayload lsCommand zeros) zeros)).length := by
    rw [lsFrame_msgLen, ← hbody, lsBody_length]
  have hlt : (frameOf 10 (lsBody k)).msgLen.toNat < 2 ^ 31 := by
    rw [lsFrame_msgLen]
    decide
  have hdec := eadDecryptMessage_encrypt k _ _ _ hlt hlen ((lsFrame_body k).trans hbody) (by decide)
    (by rw [hcrypt]; decide) (by rw [hcrypt]; decide)
  have hret : (cmdSize : ℤ) < (commandPayload lsCommand zeros).length := by decide
  obtain ⟨command, hrun⟩ := handleSendCmd_executes plainConfig (congrArg Prod.snd hdec) hret
    (first_plain k _ _ zeros _ 0) hpipe hfork
  rw [lsFrame_body] at hrun
  refine ⟨command, ?_⟩
  unfold netStep
  simp only [handlePacket_delivered (lsFrame_delivered h)]
  exact List.mem_append_right _ hrun

theorem executed_toServer {net : Net T} {f : Frame} {e : List UInt8 × List UInt8} (he : e ∈ net.executed) :
    e ∈ (netStep k srp plainConfig net (.toServer env f)).executed := by
  unfold netStep
  dsimp only
  split
  · exact he
  · exact List.mem_append_left _ he

/-- What is executed in an authentic run is the command, once. -/
theorem replayRun_executed (hpipe : env.pipe = true) (hfork : env.fork = true)
    (hrun : Along (netStep k srp plainConfig) (fun net op => Authentic (netStep k srp plainConfig net op)) (openSession T)
      (replayRun k env)) :
    (runSteps (netStep k srp plainConfig) (openSession T) (replayRun k env)).executed =
      [(lsBody k, lsCommand.bytes)] := by
  have hauth : Authentic (runSteps (netStep k srp plainConfig) (openSession T) (replayRun k env)) := hrun.2.2.1
  have hsent : LsSent k (netStep k srp plainConfig (openSession T) (.sendCommand lsCommand zeros zeros)) := ⟨rfl, rfl⟩
  obtain ⟨command, hexec⟩ := lsFrame_executed srp env hpipe hfork hsent rfl
  have hmem : (lsBody k, command) ∈ (runSteps (netStep k srp plainConfig) (openSession T) (replayRun k env)).executed :=
    executed_toServer srp env hexec
  have hall : ∀ e ∈ (runSteps (netStep k srp plainConfig) (openSession T) (replayRun k env)).executed,
      e = (lsBody k, lsCommand.bytes) := by
    intro e he
    have hclient := hauth.1 e he
    rw [replayRun, runSteps_cons, runSteps_cons, runSteps_cons, runSteps_nil,
      ((hsent.step srp env).step srp env).sent] at hclient
    exact List.mem_singleton.mp hclient
  have hlist := List.eq_replicate_of_mem hall
  have hnodup := hauth.2
  rw [hlist, List.map_replicate, List.nodup_replicate] at hnodup
  have hpos := List.length_pos_of_mem hmem
  rw [hlist, Nat.le_antisymm hnodup hpos]
  rfl

end Replay

/-- With the cipher and the protocol of the daemon, the command is executed once. -/
theorem ead_commands_authentic_replay :
    let step := netStep daemonCipher (tinySrp true (List.replicate 32 3)) plainConfig
    (runSteps step (openSession _) (replayRun daemonCipher srpEnv)).executed =
        [(lsBody daemonCipher, lsCommand.bytes)] ∧
      Along step (fun net op => Authentic (step net op)) (openSession _) (replayRun daemonCipher srpEnv) := by
  intro step
  have hsent : LsSent daemonCipher (step (openSession _) (.sendCommand lsCommand zeros zeros)) := ⟨rfl, rfl⟩
  have hauth := (ead_commands_authentic daemonCipher (tinySrp true (List.replicate 32 3)) plainConfig (.init _) .init true
    fastKey (replayRun daemonCipher srpEnv)
    ⟨trivial, hsent.attackerOk _ _, (hsent.step _ _).attackerOk _ _, trivial⟩).mpr
    ⟨trivial, hsent.notReflected _, (hsent.step _ _).notReflected _, trivial⟩
  exact ⟨replayRun_executed _ _ rfl rfl hauth, hauth⟩

/-- The command prints nothing for a round and then `xxreboot`. -/
def printingEnv : Env Unit :=
  { quietEnv with console := [([], zeros), ([120, 120, 114, 101, 98, 111, 111, 116], zeros)] }

def consoleBody : List UInt8 :=
  (streamConsole noCipher (openSession Unit).server.crypt printingEnv.console).2.getD 1 []

/-- The console message comes back in a frame of type `SEND_CMD`. -/
def reflectionRun : List (NetOp Unit) :=
  [.sendCommand lsCommand zeros zeros, .toServer printingEnv (frameOf 10 (lsBody noCipher)),
    .toServer quietEnv (frameOf 10 consoleBody)]

theorem ead_command_reflected :
    ¬ ∀ (k : Cipher) (srp : TinySrp Unit) (cfg : Config) (server : Server Unit) (client : Crypt)
      (clientBig : Bool) (skey : List UInt8) (ops : List (NetOp Unit)),
      Along (netStep k srp cfg) (AttackerOk k srp) (session cfg server client clientBig skey) ops →
        Authentic (runSteps (netStep k srp cfg) (session cfg server client clientBig skey) ops) := by
  intro h
  have hrun := h noCipher openSrp plainConfig (.init Unit) .init true fastKey reflectionRun
    ⟨trivial, ⟨fun _ _ _ => by decide +kernel, fun h => absurd h (by decide +kernel)⟩,
      ⟨fun _ _ _ => by decide +kernel, fun h => absurd h (by decide +kernel)⟩, trivial⟩
  have hreboot : (consoleBody, [114, 101, 98, 111, 111, 116]) ∉
      (runSteps (netStep noCipher openSrp plainConfig) (openSession Unit) reflectionRun).clientSent := by
    decide +kernel
  exact hreboot (hrun.1 _ (by decide +kernel))

end Neufbox.Ead
