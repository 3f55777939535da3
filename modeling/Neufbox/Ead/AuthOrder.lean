import Neufbox.Ead.Server
import Neufbox.Ead.SrpAgree
import Neufbox.Ead.ReplayWindow

/-! # The order of authentication

Over every sequence of frames: the state of the daemon says which messages were processed since the
last user name, on which session, and where `B`, `skey` and the keys of `ead-crypt.c` come from. -/
namespace Neufbox.Ead
open Blocks WrapArith RunAlong
set_option autoImplicit false
set_option maxHeartbeats 250000
set_option maxRecDepth 120000

section Order
variable {T : Type} (k : Cipher) (srp : TinySrp T) (cfg : Config)

/-! ## Runs -/

structure Run (T : Type) where
  server : Server T
  log : List Event

def Run.start (T : Type) : Run T := ⟨.init T, []⟩

/-- One frame. A process that faults is started again by `start_servers`. -/
def runStep (r : Run T) (input : Env T × Frame) : Run T :=
  match handlePacket k srp cfg input.1 r.server input.2 with
  | some o => ⟨o.server, r.log ++ o.events⟩
  | none => .start T

def since (log : List Event) : List Event :=
  log.foldl (fun acc e => if e = .setUsername then [] else acc ++ [e]) []

theorem since_append {es : List Event} (h : .setUsername ∉ es) (log : List Event) :
    since (log ++ es) = since log ++ es := by
  have hfold : ∀ (es acc : List Event), .setUsername ∉ es →
      es.foldl (fun acc e => if e = .setUsername then [] else acc ++ [e]) acc = acc ++ es := by
    intro es
    induction es with
    | nil => intro acc _; simp
    | cons e es ih =>
      intro acc h
      rw [List.mem_cons, not_or] at h
      rw [List.foldl_cons, if_neg (Ne.symm h.1), ih _ h.2, List.append_assoc]
      rfl
  rw [since, List.foldl_append, hfold es _ h]
  rfl

/-- The keys are those of `skey`, and only messages were handled with them since. -/
def KeyedBy (s : Server T) (id : ℕ) : Prop :=
  ∃ skey c ops, s.skey = some (id, skey) ∧
    s.crypt = runSteps (cryptStep k) (eadSetKey cfg.bigEndian c skey) ops

def serverStates : List EadType := [.setUsername, .getPrime, .sendA, .sendAuth, .sendCmd]

/-- What the state says about the session in use and the messages processed. -/
structure OrderOk (s : Server T) (log : List Event) : Prop where
  states : s.state ∈ serverStates
  opened : EadType.getPrime.val ≤ s.state.val → ∃ id t, s.ts = some (id, t)
  generated : EadType.sendA.val ≤ s.state.val → ∀ id t, s.ts = some (id, t) →
    (∃ b, s.b = some (id, b)) ∧ [Event.getPrime id].Sublist (since log)
  keyed : EadType.sendAuth.val ≤ s.state.val → ∀ id t, s.ts = some (id, t) →
    KeyedBy k cfg s id ∧ [Event.getPrime id, .sendA id].Sublist (since log)
  verified : EadType.sendCmd.val ≤ s.state.val → ∀ id t, s.ts = some (id, t) →
    [Event.getPrime id, .sendA id, .sendAuth id 0].Sublist (since log)

variable {k srp cfg} {env : Env T} {s s' : Server T} {log : List Event}

theorem orderOk_setUsername (h : s.state = .setUsername) : OrderOk k cfg s log := by
  refine ⟨by simp [h, serverStates], ?_, ?_, ?_, ?_⟩ <;> rw [h] <;> intro hle <;> exact absurd hle (by decide)

theorem orderOk_getPrime (h : s.state = .getPrime) {id : ℕ} {t : T} (hts : s.ts = some (id, t)) :
    OrderOk k cfg s log := by
  refine ⟨by simp [h, serverStates], fun _ => ⟨id, t, hts⟩, ?_, ?_, ?_⟩ <;> rw [h] <;> intro hle <;>
    exact absurd hle (by decide)

theorem orderOk_sendA (h : s.state = .sendA) {id : ℕ} {t : T} {b : List UInt8} (hts : s.ts = some (id, t))
    (hb : s.b = some (id, b)) (hprime : [Event.getPrime id].Sublist (since log)) : OrderOk k cfg s log := by
  refine ⟨by simp [h, serverStates], fun _ => ⟨id, t, hts⟩, ?_, ?_, ?_⟩
  · intro _ id1 t1 he
    obtain ⟨rfl, -⟩ := Prod.mk.inj (Option.some.inj (hts.symm.trans he))
    exact ⟨⟨b, hb⟩, hprime⟩
  all_goals
    rw [h]
    intro hle
    exact absurd hle (by decide)

/-! ## Transitions -/

theorem setState_same : setState srp cfg env s s.state = some s := by rw [setState, if_pos rfl]

theorem setState_clear (h : setState srp cfg env s .setUsername = some s')
    (hstates : s.state ∈ serverStates) :
    s'.state = .setUsername := by
  unfold setState at h
  split at h
  · next he =>
    cases h
    exact he
  · next hne =>
    have hlt : EadType.setUsername.val < s.state.val := by
      simp only [serverStates, List.mem_cons, List.not_mem_nil, or_false] at hstates
      rcases hstates with he | he | he | he | he
      · exact absurd he hne
      all_goals rw [he]; decide
    rw [if_pos hlt] at h
    split at h
    · obtain ⟨x, -, rfl⟩ := Option.map_eq_some_iff.mp h
      rfl
    · cases h
      rfl

theorem setState_open (h : setState srp cfg env s .getPrime = some s') (hstate : s.state = .setUsername) :
    s'.state = .setUsername ∨ (s'.state = .getPrime ∧ ∃ t, s'.ts = some (s.opens, t)) := by
  unfold setState at h
  rw [if_neg (by rw [hstate]; decide), if_neg (by rw [hstate]; decide)] at h
  simp only [hstate] at h
  split at h
  · cases h
    exact Or.inl hstate
  · split at h
    · cases h
      exact Or.inl rfl
    · cases h
      exact Or.inr ⟨rfl, _, rfl⟩

theorem setState_prime (h : setState srp cfg env s .sendA = some s') (hstate : s.state = .getPrime) :
    ∃ id t t' b, s.ts = some (id, t) ∧
      s' = { s with ts := some (id, t'), b := some (id, b), state := .sendA } := by
  unfold setState at h
  rw [if_neg (by rw [hstate]; decide), if_neg (by rw [hstate]; decide)] at h
  simp only [hstate, Option.map_eq_some_iff] at h
  obtain ⟨⟨id, t⟩, hts, rfl⟩ := h
  exact ⟨id, t, _, _, hts, rfl⟩

theorem setState_key (h : setState srp cfg env s .sendAuth = some s') (hstate : s.state = .sendA) :
    ∃ id t t', s.ts = some (id, t) ∧
      (s' = { s with ts := some (id, t'), skey := none, state := .sendA } ∨
        ∃ skey, s' = { s with ts := some (id, t'), skey := some (id, skey),
                              crypt := eadSetKey cfg.bigEndian s.crypt skey, state := .sendAuth }) := by
  unfold setState at h
  rw [if_neg (by rw [hstate]; decide), if_neg (by rw [hstate]; decide)] at h
  simp only [hstate, Option.map_eq_some_iff] at h
  obtain ⟨⟨id, t⟩, hts, he⟩ := h
  dsimp only at he
  split at he
  · exact ⟨id, t, _, hts, Or.inl he.symm⟩
  · exact ⟨id, t, _, hts, Or.inr ⟨_, he.symm⟩⟩

theorem setState_cmd (h : setState srp cfg env s .sendCmd = some s') (hstate : s.state = .sendAuth) :
    s' = { s with state := .sendCmd } := by
  unfold setState at h
  rw [if_neg (by rw [hstate]; decide), if_neg (by rw [hstate]; decide)] at h
  simp only [hstate, Option.some.injEq] at h
  exact h.symm

/-! ## Handlers -/

theorem handler_cases {type : EadType} {f : Frame} {minLen : ℕ} {hd : Handled T}
    (h : handler k srp cfg env type s f = some (minLen, some hd)) :
    (type = .ping ∧ hd = handlePing cfg s) ∨
    (type = .setUsername ∧ handleSetUsername srp cfg env s f = some hd) ∨
    (type = .getPrime ∧ handleGetPrime srp env s = some hd) ∨
    (type = .sendA ∧ handleSendA env s f = some hd) ∨
    (type = .sendAuth ∧ handleSendAuth srp s f = some hd) ∨
    (type = .sendCmd ∧ hd = handleSendCmd k cfg env s f) := by
  cases type <;> simp only [handler, Option.some.injEq, Prod.mk.injEq, reduceCtorEq] at h <;> simp [h]

theorem handleSetUsername_cases {f : Frame} {hd : Handled T} (hh : handleSetUsername srp cfg env s f = some hd) :
    ∃ s1 username, setState srp cfg env s .setUsername = some s1 ∧
      hd = ⟨{ s1 with username := username }, .getPrime, [], some [], [.setUsername]⟩ := by
  obtain ⟨s1, hclear, rfl⟩ := Option.map_eq_some_iff.mp hh
  exact ⟨s1, _, hclear, rfl⟩

theorem handleGetPrime_cases {hd : Handled T} (hh : handleGetPrime srp env s = some hd) :
    ∃ id t reply, s.ts = some (id, t) ∧ hd = ⟨s, .sendA, [], reply, [.getPrime id]⟩ := by
  unfold handleGetPrime at hh
  split at hh
  · next p id t htce hts => exact ⟨id, t, _, hts, (Option.some.inj hh).symm⟩
  · cases hh

theorem handleSendA_cases {f : Frame} {hd : Handled T} (hh : handleSendA env s f = some hd) :
    hd = ignored s [] ∨ ∃ id t a reply, s.ts = some (id, t) ∧
      hd = ⟨{ s with a := a }, .sendAuth, [], reply, [.sendA id]⟩ := by
  unfold handleSendA at hh
  dsimp only at hh
  split at hh
  · exact Or.inl (Option.some.inj hh).symm
  · split at hh
    · cases hh
    · split at hh
      · next id t b hts hb => exact Or.inr ⟨id, t, _, _, hts, (Option.some.inj hh).symm⟩
      · cases hh

theorem handleSendAuth_cases {f : Frame} {hd : Handled T} (hh : handleSendAuth srp s f = some hd) :
    ∃ id t t' ret reply, s.ts = some (id, t) ∧ ret = (srp.serververify t (f.data.take 20)).2 ∧
      hd = ⟨{ s with ts := some (id, t') }, if ret ≠ 0 then .setUsername else .sendCmd, [], reply,
        [.sendAuth id ret]⟩ := by
  unfold handleSendAuth at hh
  split at hh
  · cases hh
  · next id t hts =>
    dsimp only at hh
    split at hh
    · next hret => exact ⟨id, t, _, _, none, hts, rfl, by rw [if_pos hret]; exact (Option.some.inj hh).symm⟩
    · next hret => exact ⟨id, t, _, _, some _, hts, rfl, by rw [if_neg hret]; exact (Option.some.inj hh).symm⟩

theorem handleSetUsername_order (h : OrderOk k cfg s log) {f : Frame} {hd : Handled T}
    (hh : handleSetUsername srp cfg env s f = some hd)
    (hset : setState srp cfg env hd.server hd.nstate = some s') : OrderOk k cfg s' (log ++ hd.events) := by
  obtain ⟨s1, username, hclear, rfl⟩ := handleSetUsername_cases hh
  have hstate := setState_clear hclear h.states
  obtain hs' | ⟨hs', t, hts⟩ := setState_open hset hstate
  · exact orderOk_setUsername hs'
  · exact orderOk_getPrime hs' hts

theorem handleGetPrime_order (hstate : s.state = .getPrime) {hd : Handled T}
    (hh : handleGetPrime srp env s = some hd)
    (hset : setState srp cfg env hd.server hd.nstate = some s') : OrderOk k cfg s' (log ++ hd.events) := by
  obtain ⟨id, t, reply, hts, rfl⟩ := handleGetPrime_cases hh
  obtain ⟨id', t1, t', b, hts', rfl⟩ := setState_prime hset hstate
  obtain ⟨rfl, rfl⟩ := Prod.mk.inj (Option.some.inj (hts.symm.trans hts'))
  refine orderOk_sendA rfl rfl rfl ?_
  rw [since_append (by simp)]
  exact List.sublist_append_right _ _

theorem handleSendA_order (h : OrderOk k cfg s log) (hstate : s.state = .sendA) {f : Frame}
    {hd : Handled T} (hh : handleSendA env s f = some hd)
    (hset : setState srp cfg env hd.server hd.nstate = some s') : OrderOk k cfg s' (log ++ hd.events) := by
  obtain rfl | ⟨id, t, a, reply, hts, rfl⟩ := handleSendA_cases hh
  · rw [ignored, setState_same] at hset
    cases hset
    rw [ignored, List.append_nil]
    exact h
  · obtain ⟨⟨b, hb⟩, hprime⟩ := h.generated (by rw [hstate]) id t hts
    obtain ⟨id', t1, t', hts', hs'⟩ := setState_key hset hstate
    obtain ⟨rfl, rfl⟩ := Prod.mk.inj (Option.some.inj (hts.symm.trans hts'))
    have hsince : since (log ++ [Event.sendA id]) = since log ++ [.sendA id] := since_append (by simp) log
    have hprime' : [Event.getPrime id].Sublist (since (log ++ [.sendA id])) := by
      rw [hsince]
      exact hprime.trans (List.sublist_append_left _ _)
    obtain rfl | ⟨skey, rfl⟩ := hs'
    · exact orderOk_sendA rfl rfl hb hprime'
    · refine ⟨by simp [serverStates], fun _ => ⟨id, t', rfl⟩, ?_, ?_, ?_⟩
      · intro _ id1 t1 he
        cases he
        exact ⟨⟨b, hb⟩, hprime'⟩
      · intro _ id1 t1 he
        cases he
        refine ⟨⟨skey, s.crypt, [], rfl, rfl⟩, ?_⟩
        rw [hsince]
        exact hprime.append (List.Sublist.refl [Event.sendA id])
      · intro hle
        exact absurd hle (by simp [EadType.val])

theorem handleSendAuth_order (h : OrderOk k cfg s log) (hstate : s.state = .sendAuth) {f : Frame}
    {hd : Handled T} (hh : handleSendAuth srp s f = some hd)
    (hset : setState srp cfg env hd.server hd.nstate = some s') : OrderOk k cfg s' (log ++ hd.events) := by
  obtain ⟨id, t, t', ret, reply, hts, -, rfl⟩ := handleSendAuth_cases hh
  by_cases hret : ret = 0
  · rw [if_neg (not_not_intro hret)] at hset
    obtain rfl := setState_cmd hset hstate
    obtain ⟨⟨b, hb⟩, hprime⟩ := h.generated (by rw [hstate]; decide) id t hts
    obtain ⟨⟨skey, c, ops, hskey, hcrypt⟩, horder⟩ := h.keyed (by rw [hstate]) id t hts
    have hsince : since (log ++ [Event.sendAuth id ret]) = since log ++ [.sendAuth id 0] := by
      rw [hret]
      exact since_append (by simp) log
    refine ⟨by simp [serverStates], fun _ => ⟨id, _, rfl⟩, ?_, ?_, ?_⟩
    · intro _ id1 t1 he
      cases he
      exact ⟨⟨b, hb⟩, by rw [hsince]; exact hprime.trans (List.sublist_append_left _ _)⟩
    · intro _ id1 t1 he
      cases he
      exact ⟨⟨skey, c, ops, hskey, hcrypt⟩,
        by rw [hsince]; exact horder.trans (List.sublist_append_left _ _)⟩
    · intro _ id1 t1 he
      cases he
      rw [hsince]
      exact horder.append (List.Sublist.refl [Event.sendAuth id 0])
  · rw [if_pos hret] at hset
    exact orderOk_setUsername (setState_clear hset h.states)

def consoleOps (rounds : List (List UInt8 × (ℕ → UInt8))) : List CryptOp :=
  rounds.map fun r => .encrypt (0 :: r.1.take 1024) r.2

theorem streamConsole_crypt (c : Crypt) (rounds : List (List UInt8 × (ℕ → UInt8))) :
    (streamConsole k c rounds).1 = runSteps (cryptStep k) c (consoleOps rounds) := by
  induction rounds generalizing c with
  | nil => rfl
  | cons r rounds ih => exact ih _

/-- A command is handled with steps of `ead-crypt.c` alone, the first a decryption; the state stays. -/
theorem handleSendCmd_crypt (k : Cipher) (cfg : Config) (env : Env T) (s : Server T) (f : Frame) :
    ∃ ops, (handleSendCmd k cfg env s f).server =
        { s with crypt := runSteps (cryptStep k) s.crypt (.decrypt f.msgLen.toNat f.data :: ops) } ∧
      (handleSendCmd k cfg env s f).nstate = s.state ∧
      .setUsername ∉ (handleSendCmd k cfg env s f).events := by
  unfold handleSendCmd
  dsimp only
  split
  · exact ⟨[], rfl, rfl, by simp [ignored]⟩
  · next d hd =>
    split
    · exact ⟨[], rfl, rfl, by simp [ignored]⟩
    · split
      · split
        · exact ⟨[], rfl, rfl, by simp [ignored]⟩
        · split
          · exact ⟨consoleOps env.console, by rw [streamConsole_crypt]; rfl, rfl, by simp⟩
          · refine ⟨consoleOps env.console ++ [.encrypt [1] env.behind], ?_, rfl, by simp [finishCommand]⟩
            rw [runSteps_cons, runSteps_append, finishCommand, streamConsole_crypt]
            rfl
      · split
        · exact ⟨[], rfl, rfl, by simp [ignored]⟩
        · exact ⟨[.encrypt [1] env.behind], rfl, rfl, by simp [finishCommand]⟩
      · exact ⟨[], rfl, rfl, by simp [ignored]⟩

theorem handleSendCmd_setState (s : Server T) (f : Frame) :
    setState srp cfg env (handleSendCmd k cfg env s f).server (handleSendCmd k cfg env s f).nstate =
      some (handleSendCmd k cfg env s f).server := by
  obtain ⟨ops, hserver, hnstate, -⟩ := handleSendCmd_crypt k cfg env s f
  have hstate : (handleSendCmd k cfg env s f).server.state = s.state := by rw [hserver]
  rw [hnstate, ← hstate]
  exact setState_same

theorem handleSendCmd_order (h : OrderOk k cfg s log) {f : Frame}
    (hset : setState srp cfg env (handleSendCmd k cfg env s f).server
      (handleSendCmd k cfg env s f).nstate = some s') :
    OrderOk k cfg s' (log ++ (handleSendCmd k cfg env s f).events) := by
  obtain ⟨ops, hserver, -, hevents⟩ := handleSendCmd_crypt k cfg env s f
  rw [handleSendCmd_setState, hserver] at hset
  cases hset
  have hsub : ∀ {l : List Event}, l.Sublist (since log) →
      l.Sublist (since (log ++ (handleSendCmd k cfg env s f).events)) := by
    intro l hl
    rw [since_append hevents]
    exact hl.trans (List.sublist_append_left _ _)
  refine ⟨h.states, h.opened, ?_, ?_, ?_⟩
  · intro hle id t hts
    obtain ⟨hb, hprime⟩ := h.generated hle id t hts
    exact ⟨hb, hsub hprime⟩
  · intro hle id t hts
    obtain ⟨⟨skey, c, ops', hskey, hcrypt⟩, horder⟩ := h.keyed hle id t hts
    refine ⟨⟨skey, c, ops' ++ .decrypt f.msgLen.toNat f.data :: ops, hskey, ?_⟩, hsub horder⟩
    rw [runSteps_append, ← hcrypt]
  · intro hle id t hts
    exact hsub (h.verified hle id t hts)

/-! ## One frame -/

/-- What a frame can do: nothing, or run one handler, with the state that its type asks for. -/
theorem handlePacket_cases {f : Frame} {o : Outcome T} (h : handlePacket k srp cfg env s f = some o) :
    o = unchanged s ∨ ∃ type minLen hd, eadType f.type.toNat = some type ∧
      (EadType.getPrime.val ≤ type.val → s.state = type) ∧
      handler k srp cfg env type s f = some (minLen, some hd) ∧
      setState srp cfg env hd.server hd.nstate = some o.server ∧ o.events = hd.events ∧
      o.sent = (hd.sent ++ hd.reply.toList).map fun data => ⟨type.val + 1, cfg.nid, f.sid, data⟩ := by
  unfold handlePacket at h
  iterate 8
    split at h
    · exact Or.inl (Option.some.inj h).symm
  unfold parseMessage at h
  split at h
  · exact Or.inl (Option.some.inj h).symm
  · next type htype =>
    split at h
    · exact Or.inl (Option.some.inj h).symm
    · next hstate =>
      split at h
      · exact Or.inl (Option.some.inj h).symm
      · split at h
        · exact Or.inl (Option.some.inj h).symm
        · next minLen run hhandler =>
          split at h
          · exact Or.inl (Option.some.inj h).symm
          · obtain ⟨hd, hrun, hset⟩ := Option.bind_eq_some_iff.mp h
            obtain ⟨s1, hs1, rfl⟩ := Option.map_eq_some_iff.mp hset
            refine Or.inr ⟨type, minLen, hd, htype, ?_, by rw [hhandler, hrun], hs1, rfl, rfl⟩
            intro hle
            by_contra hne
            exact hstate ⟨hle, hne⟩

theorem handlePacket_order (h : OrderOk k cfg s log) {f : Frame} {o : Outcome T}
    (hp : handlePacket k srp cfg env s f = some o) : OrderOk k cfg o.server (log ++ o.events) := by
  obtain rfl | ⟨type, minLen, hd, -, hstate, hhandler, hset, hevents, -⟩ := handlePacket_cases hp
  · rw [unchanged, List.append_nil]
    exact h
  rw [hevents]
  obtain ⟨rfl, rfl⟩ | ⟨rfl, hh⟩ | ⟨rfl, hh⟩ | ⟨rfl, hh⟩ | ⟨rfl, hh⟩ | ⟨rfl, rfl⟩ := handler_cases hhandler
  · rw [handlePing, setState_same] at hset
    rw [handlePing, List.append_nil, ← Option.some.inj hset]
    exact h
  · exact handleSetUsername_order h hh hset
  · exact handleGetPrime_order (hstate (by decide)) hh hset
  · exact handleSendA_order h (hstate (by decide)) hh hset
  · exact handleSendAuth_order h (hstate (by decide)) hh hset
  · exact handleSendCmd_order h hset

theorem handlePacket_decrypt {f : Frame} {o : Outcome T} (hp : handlePacket k srp cfg env s f = some o)
    (hmem : .decrypt ∈ o.events) : s.state = .sendCmd := by
  obtain rfl | ⟨type, minLen, hd, -, hstate, hhandler, -, hevents, -⟩ := handlePacket_cases hp
  · simp [unchanged] at hmem
  rw [hevents] at hmem
  obtain ⟨rfl, rfl⟩ | ⟨rfl, hh⟩ | ⟨rfl, hh⟩ | ⟨rfl, hh⟩ | ⟨rfl, hh⟩ | ⟨rfl, rfl⟩ := handler_cases hhandler
  · simp [handlePing] at hmem
  · obtain ⟨s1, username, -, rfl⟩ := handleSetUsername_cases hh
    simp at hmem
  · obtain ⟨id, t, reply, -, rfl⟩ := handleGetPrime_cases hh
    simp at hmem
  · obtain rfl | ⟨id, t, a, reply, -, rfl⟩ := handleSendA_cases hh
    · simp [ignored] at hmem
    · simp at hmem
  · obtain ⟨id, t, t', ret, reply, -, -, rfl⟩ := handleSendAuth_cases hh
    simp at hmem
  · exact hstate (by decide)

/-! ## Every run -/

theorem runStep_order (r : Run T) (input : Env T × Frame) (h : OrderOk k cfg r.server r.log) :
    OrderOk k cfg (runStep k srp cfg r input).server (runStep k srp cfg r input).log := by
  unfold runStep
  split
  · next o ho => exact handlePacket_order h ho
  · exact orderOk_setUsername rfl

/-- After every sequence of frames: the command state means that since the last user name `GET_PRIME`,
`SEND_A` and a `SEND_AUTH` that verified were processed in this order on the session in use, and that
the keys come from it; from `GET_PRIME` on there is a session, from `SEND_A` on `B` is its, from
`SEND_AUTH` on `skey` is; and the next frame is decrypted only in the command state. -/
theorem ead_authentication_order (k : Cipher) (srp : TinySrp T) (cfg : Config)
    (inputs : List (Env T × Frame)) :
    let r := runSteps (runStep k srp cfg) (.start T) inputs
    (r.server.state = .sendCmd → ∃ id t, r.server.ts = some (id, t) ∧
      [Event.getPrime id, .sendA id, .sendAuth id 0].Sublist (since r.log) ∧
      KeyedBy k cfg r.server id) ∧
    (EadType.getPrime.val ≤ r.server.state.val → r.server.ts ≠ none) ∧
    (EadType.sendA.val ≤ r.server.state.val →
      ∃ id t b, r.server.ts = some (id, t) ∧ r.server.b = some (id, b)) ∧
    (EadType.sendAuth.val ≤ r.server.state.val →
      ∃ id t skey, r.server.ts = some (id, t) ∧ r.server.skey = some (id, skey)) ∧
    ∀ env f o, handlePacket k srp cfg env r.server f = some o → .decrypt ∈ o.events →
      r.server.state = .sendCmd := by
  intro r
  have h : OrderOk k cfg r.server r.log :=
    run_preserves (fun r : Run T => OrderOk k cfg r.server r.log) inputs runStep_order
      (orderOk_setUsername rfl)
  refine ⟨?_, ?_, ?_, ?_, fun env f o hp hmem => handlePacket_decrypt hp hmem⟩
  · intro hstate
    obtain ⟨id, t, hts⟩ := h.opened (by rw [hstate]; decide)
    exact ⟨id, t, hts, h.verified (by rw [hstate]) id t hts, (h.keyed (by rw [hstate]; decide) id t hts).1⟩
  · intro hle
    obtain ⟨id, t, hts⟩ := h.opened hle
    simp [hts]
  · intro hle
    obtain ⟨id, t, hts⟩ := h.opened (le_trans (by decide) hle)
    obtain ⟨⟨b, hb⟩, -⟩ := h.generated hle id t hts
    exact ⟨id, t, b, hts, hb⟩
  · intro hle
    obtain ⟨id, t, hts⟩ := h.opened (le_trans (by decide) hle)
    obtain ⟨⟨skey, -, -, hskey, -⟩, -⟩ := h.keyed hle id t hts
    exact ⟨id, t, skey, hts, hskey⟩

end Order

/-! ## A run that authenticates -/

def openSrp : TinySrp Unit where
  servergenexp _ := ((), [2])
  servergetkey _ _ := ((), some fastKey)
  serververify _ resp := ((), if resp = List.replicate 20 0 then 0 else 1)
  serverresponse _ := List.replicate 20 0
  salt _ := [1, 2, 3]

def quietEnv : Env Unit where
  preparePassword _ := some ⟨1, [36, 49, 36]⟩
  serveropenraw _ := some ()
  pipe := true
  fork := true
  console := []
  childPending := false
  behind _ := 0

def plainConfig : Config := ⟨true, 0x1234, 0, [110, 98, 52]⟩

def frameOf (type : UInt32) (data : List UInt8) : Frame where
  len := packetSize + data.length
  etherType := ethertypeIp
  etherDhost := List.replicate 6 0xff
  proto := uipProtoUdp
  destport := eadPort
  magic := eadMagic
  msgLen := UInt32.ofNat data.length
  type := type
  nid := 0x1234
  sid := 0
  data := data

def loginFrames : List (Env Unit × Frame) :=
  [(quietEnv, frameOf 2 (List.replicate 32 114)), (quietEnv, frameOf 4 []), (quietEnv, frameOf 6 [0, 5]),
    (quietEnv, frameOf 8 (List.replicate 20 0))]

/-! ## A login with the password protocol -/

/-- The SRP functions of the daemon, with the random bytes that `t_random` gives. -/
def tinySrp (bigEndian : Bool) (random : List UInt8) : TinySrp Srp.TServer where
  servergenexp ts := Srp.tServergenexp bigEndian ts random
  servergetkey ts a := Srp.tServergetkey bigEndian ts a
  serververify ts resp := Srp.tSerververify bigEndian ts resp
  serverresponse := Srp.tServerresponse
  salt ts := ts.s

/-- The user `ro` with the password `ab`, and a modulus of two bytes. -/
def smallSession : Srp.TServer :=
  Srp.tServeropenraw true
    ⟨[114, 111], 0, Srp.verifier true [114, 111] [97, 98] [1, 2] Srp.smallModulus [17], [1, 2]⟩ ⟨Srp.smallModulus, [17]⟩

def srpEnv : Env Srp.TServer where
  preparePassword _ := some ⟨1, [36, 49, 36]⟩
  serveropenraw _ := some smallSession
  pipe := true
  fork := true
  console := []
  childPending := false
  behind _ := 0

/-- The frames of a client whose random bytes are all 7: its name, `A` and its proof of the key. -/
def srpFrames : List (Env Srp.TServer × Frame) :=
  [(srpEnv, frameOf 2 (114 :: 111 :: List.replicate 30 0)), (srpEnv, frameOf 4 []), (srpEnv, frameOf 6 [1, 244, 44]),
    (srpEnv, frameOf 8
      [74, 67, 187, 185, 226, 20, 22, 52, 87, 112, 121, 0, 183, 241, 28, 185, 123, 117, 209, 95])]

theorem ead_authentication_order_login :
    ∃ id, [Event.getPrime id, .sendA id, .sendAuth id 0].Sublist
      (since (runSteps (runStep daemonCipher (tinySrp true (List.replicate 32 3)) plainConfig) (.start _)
        srpFrames).log) := by
  obtain ⟨id, t, -, horder, -⟩ :=
    (ead_authentication_order daemonCipher (tinySrp true (List.replicate 32 3)) plainConfig srpFrames).1
      (by decide +kernel)
  exact ⟨id, horder⟩

end Neufbox.Ead
