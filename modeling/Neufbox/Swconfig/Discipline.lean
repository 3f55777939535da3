import Neufbox.Swconfig.Requests

/-! # The lock is released and every message is given away once

A message that is sent or freed is no longer ours. `swconfig_send_multipart` frees the message at hand on its
error path and leaves the pointer, and `swconfig_get_attr` keeps a pointer of its own; where one of them is
freed again, or where the way out passes by `swconfig_put_dev`, the balance is lost. Everywhere else it is kept. -/
namespace Neufbox.Swconfig
set_option autoImplicit false
set_option maxHeartbeats 250000
set_option maxRecDepth 120000

/-! ## Balance -/

/-- What has happened to the lock. -/
def Kernel.lockState (k : Kernel) : ℕ × ℕ := (k.locks, k.unlocks)

/-- All messages but the one at hand have been given away once. -/
structure Open (k : Kernel) (msg : Option Msg) : Prop where
  used : ∀ m, k.sent m + k.freed m = if m < k.allocated ∧ msg ≠ some m then 1 else 0
  known : ∀ m ∈ msg, m < k.allocated

/-- Every message has been given away once. -/
def Settled (k : Kernel) : Prop := ∀ m < k.allocated, k.sent m + k.freed m = 1

theorem open_idle : Open idle none := ⟨fun m => by simp [idle], fun m h => by cases h⟩

theorem Open.lock {k : Kernel} {msg : Option Msg} (h : Open k msg) : Open k.lock msg := ⟨h.used, h.known⟩

theorem Open.unlock {k : Kernel} {msg : Option Msg} (h : Open k msg) : Open k.unlock msg := ⟨h.used, h.known⟩

theorem lockState_unlock {k : Kernel} (h : k.lockState = (1, 0)) : k.unlock.lockState = (1, 1) := by
  obtain ⟨hlocks, hunlocks⟩ := Prod.mk.inj h
  show (k.locks, k.unlocks + 1) = (1, 1)
  rw [hlocks, hunlocks]

theorem Open.settled {k : Kernel} (h : Open k none) : Settled k := by
  intro m hm
  rw [h.used, if_pos ⟨hm, Option.some_ne_none _ |>.symm⟩]

theorem Open.nlmsgNew {k : Kernel} (h : Open k none) (ok : Bool) : Open (k.nlmsgNew ok).2 (k.nlmsgNew ok).1 := by
  cases ok with
  | false => exact h
  | true =>
    refine ⟨fun m => ?_, fun m hm => ?_⟩
    · have hiff : m < k.allocated ∧ none ≠ some m ↔ m < k.allocated + 1 ∧ some k.allocated ≠ some m := by
        rw [Nat.lt_succ_iff_lt_or_eq]
        constructor
        · rintro ⟨hlt, -⟩
          exact ⟨Or.inl hlt, fun heq => absurd (Option.some.inj heq) (Nat.ne_of_gt hlt)⟩
        · rintro ⟨hlt | heq, hne⟩
          · exact ⟨hlt, (Option.some_ne_none _).symm⟩
          · exact absurd (congrArg some heq.symm) hne
      exact (h.used m).trans (if_congr hiff rfl rfl)
    · obtain rfl := Option.some.inj hm
      exact Nat.lt_succ_self _

/-- A message that is given away by one of the two functions. -/
theorem Open.given {k k' : Kernel} {msg : Msg} (h : Open k (some msg)) (hallocated : k'.allocated = k.allocated)
    (hself : k'.sent msg + k'.freed msg = k.sent msg + k.freed msg + 1)
    (hother : ∀ m, m ≠ msg → k'.sent m + k'.freed m = k.sent m + k.freed m) : Open k' none := by
  refine ⟨fun m => ?_, fun m hm => by cases hm⟩
  rw [hallocated]
  by_cases hm : m = msg
  · subst hm
    rw [hself, h.used, if_neg fun h => h.2 rfl, if_pos ⟨h.known m rfl, Option.some_ne_none _ |>.symm⟩]
  · rw [hother m hm, h.used]
    simp only [ne_eq, reduceCtorEq, not_false_eq_true, and_true, Option.some.injEq, Ne.symm hm]

theorem Open.unicast {k : Kernel} {msg : Msg} (h : Open k (some msg)) : Open (k.unicast msg) none := by
  refine @Open.given k (k.unicast msg) msg h rfl ?_ ?_
  · simp only [Kernel.unicast, Function.update_self]
    omega
  · intro m hm
    simp only [Kernel.unicast, Function.update_of_ne hm]

theorem Open.nlmsgFree {k : Kernel} {msg : Msg} (h : Open k (some msg)) : Open (k.nlmsgFree msg) none := by
  refine @Open.given k (k.nlmsgFree msg) msg h rfl ?_ ?_
  · simp only [Kernel.nlmsgFree, Function.update_self]
    omega
  · intro m hm
    simp only [Kernel.nlmsgFree, Function.update_of_ne hm]

/-- A second time is too much. -/
theorem Open.freed_again {k : Kernel} (h : Open k none) {msg : Msg} (hmsg : msg < k.allocated) :
    ¬Settled (k.nlmsgFree msg) := by
  intro hs
  have htwice := hs msg hmsg
  simp only [Kernel.nlmsgFree, Function.update_self] at htwice
  have hused := h.used msg
  rw [if_pos ⟨hmsg, Option.some_ne_none _ |>.symm⟩] at hused
  omega

/-! ## Messages in several parts -/

/-- The data fits into the message at hand, or into a new one. -/
def Fits (fresh : Bool) (o : Outcomes) : Prop :=
  (fresh → o.newFirst) ∧ (0 ≤ o.fillFirst ∨ 0 ≤ o.unicast ∧ o.newSecond ∧ 0 ≤ o.fillSecond)

/-- It fits into neither of them. -/
def FailsTwice (fresh : Bool) (o : Outcomes) : Prop :=
  (fresh → o.newFirst) ∧ o.fillFirst < 0 ∧ 0 ≤ o.unicast ∧ o.newSecond ∧ o.fillSecond < 0

/-- What a call leaves behind. -/
inductive Multipart (fresh : Bool) (o : Outcomes) (k : Kernel) : ℤ × Option Msg × Kernel → Prop
  | sent (msg : Msg) (k' : Kernel) : Fits fresh o → k'.lockState = k.lockState → k.allocated ≤ k'.allocated →
      Open k' (some msg) → Multipart fresh o k (0, some msg, k')
  | failed (k' : Kernel) : ¬Fits fresh o → ¬FailsTwice fresh o → k'.lockState = k.lockState →
      k.allocated ≤ k'.allocated → Open k' none → Multipart fresh o k (-1, none, k')
  | twice (msg : Msg) (k' : Kernel) : ¬Fits fresh o → FailsTwice fresh o → k'.lockState = k.lockState →
      k.allocated ≤ k'.allocated → msg < k'.allocated → Open k' none → Multipart fresh o k (-1, some msg, k')

theorem sendMultipart_multipart (o : Outcomes) {cbMsg : Option Msg} {k : Kernel} (h : Open k cbMsg) :
    Multipart cbMsg.isNone o k (sendMultipart o cbMsg k) := by
  have hfirst : (ensureMsg o.newFirst cbMsg k = (none, k) ∧ cbMsg = none ∧ ¬o.newFirst) ∨
      ∃ msg k', ensureMsg o.newFirst cbMsg k = (some msg, k') ∧ (cbMsg.isNone → o.newFirst) ∧ Open k' (some msg) ∧
        k'.lockState = k.lockState ∧ k.allocated ≤ k'.allocated ∧ msg < k'.allocated := by
    cases cbMsg with
    | some msg =>
      exact Or.inr ⟨msg, k, rfl, fun h => absurd h Bool.false_ne_true, h, rfl, le_rfl, h.known msg rfl⟩
    | none =>
      have hnew := h.nlmsgNew o.newFirst
      cases hok : o.newFirst with
      | false => exact Or.inl ⟨rfl, rfl, Bool.false_ne_true⟩
      | true =>
        rw [hok] at hnew
        exact Or.inr ⟨_, _, rfl, fun _ => rfl, hnew, rfl, Nat.le_succ _, Nat.lt_succ_self _⟩
  rw [sendMultipart]
  rcases hfirst with ⟨hnone, rfl, hok⟩ | ⟨msg, k', hsome, hok, hopen, hlocks, hle, -⟩
  · rw [hnone]
    exact .failed k (fun hfits => hok (hfits.1 rfl)) (fun htwice => hok (htwice.1 rfl)) rfl le_rfl h
  · rw [hsome]
    simp only
    split
    · rename_i hfit
      exact .sent msg k' ⟨hok, Or.inl hfit⟩ hlocks hle hopen
    · rename_i hfull
      have hgiven := hopen.unicast
      split
      · rename_i herr
        refine .failed _ ?_ ?_ hlocks hle hgiven
        · rintro ⟨-, hfit | ⟨hsent, -⟩⟩
          · exact hfull hfit
          · exact absurd herr (not_lt.mpr hsent)
        · rintro ⟨-, -, hsent, -⟩
          exact absurd herr (not_lt.mpr hsent)
      · rename_i hsent
        rw [not_lt] at hsent
        have hnew := hgiven.nlmsgNew o.newSecond
        cases hok2 : o.newSecond with
        | false =>
          refine .failed _ ?_ ?_ hlocks hle hgiven
          · rintro ⟨-, hfit | ⟨-, hmem, -⟩⟩
            · exact hfull hfit
            · exact Bool.false_ne_true (hok2.symm.trans hmem)
          · rintro ⟨-, -, -, hmem, -⟩
            exact Bool.false_ne_true (hok2.symm.trans hmem)
        | true =>
          rw [hok2] at hnew
          have hle2 : k.allocated ≤ k'.allocated + 1 := Nat.le_succ_of_le hle
          show Multipart _ o k (if 0 ≤ o.fillSecond then _ else _)
          split
          · rename_i hfit
            exact .sent _ _ ⟨hok, Or.inr ⟨hsent, hok2, hfit⟩⟩ hlocks hle2 hnew
          · rename_i hfull2
            refine .twice _ _ ?_ ⟨hok, not_le.mp hfull, hsent, hok2, not_le.mp hfull2⟩ hlocks hle2 (Nat.lt_succ_self _)
              hnew.nlmsgFree
            rintro ⟨-, hfit | ⟨-, -, hfit⟩⟩
            · exact hfull hfit
            · exact hfull2 hfit

/-- Each one fits; a message is allocated for the first of them, if there is none. -/
def AllFit : Bool → List Outcomes → Prop
  | _, [] => True
  | fresh, o :: rest => Fits fresh o ∧ AllFit false rest

/-- One of them fits into neither message, and the ones before it do. -/
def TwiceIn : Bool → List Outcomes → Prop
  | _, [] => False
  | fresh, o :: rest => FailsTwice fresh o ∨ Fits fresh o ∧ TwiceIn false rest

theorem FailsTwice.not_fits {fresh : Bool} {o : Outcomes} (h : FailsTwice fresh o) : ¬Fits fresh o := by
  rintro ⟨-, hfit | ⟨-, -, hfit⟩⟩
  · exact absurd h.2.1 (not_lt.mpr hfit)
  · exact absurd h.2.2.2.2 (not_lt.mpr hfit)

theorem AllFit.not_twice {fresh : Bool} {os : List Outcomes} (h : AllFit fresh os) : ¬TwiceIn fresh os := by
  induction os generalizing fresh with
  | nil => exact id
  | cons o rest ih =>
    rintro (hnow | hlater)
    · exact hnow.not_fits h.1
    · exact ih h.2 hlater.2

/-- What a loop leaves behind. -/
inductive Loop (cbMsg : Option Msg) (os : List Outcomes) (k : Kernel) : ℤ × Option Msg × Kernel → Prop
  | sent (msg : Option Msg) (k' : Kernel) : AllFit cbMsg.isNone os → (msg = none → cbMsg = none) →
      k'.lockState = k.lockState → Open k' msg → Loop cbMsg os k (0, msg, k')
  | failed (k' : Kernel) : ¬AllFit cbMsg.isNone os → ¬TwiceIn cbMsg.isNone os → k'.lockState = k.lockState →
      k.allocated ≤ k'.allocated → Open k' none → Loop cbMsg os k (-1, none, k')
  | twice (msg : Msg) (k' : Kernel) : ¬AllFit cbMsg.isNone os → TwiceIn cbMsg.isNone os →
      k'.lockState = k.lockState → k.allocated ≤ k'.allocated → msg < k'.allocated → Open k' none →
      Loop cbMsg os k (-1, some msg, k')

theorem sendAll_loop (os : List Outcomes) {cbMsg : Option Msg} {k : Kernel} (h : Open k cbMsg) :
    Loop cbMsg os k (sendAll os cbMsg k) := by
  induction os generalizing cbMsg k with
  | nil => exact .sent cbMsg k trivial id rfl h
  | cons o rest ih =>
    rw [sendAll]
    have hone := sendMultipart_multipart o h
    generalize sendMultipart o cbMsg k = r at hone
    cases hone with
    | sent msg k' hfits hlocks hle hopen =>
      have hrest := ih hopen
      show Loop cbMsg (o :: rest) k (sendAll rest (some msg) k')
      generalize sendAll rest (some msg) k' = r at hrest
      cases hrest with
      | sent msg' k'' hall hmsg hlocks' hopen' =>
        exact .sent msg' k'' ⟨hfits, hall⟩ (fun hnone => by cases hmsg hnone) (hlocks'.trans hlocks) hopen'
      | failed k'' hall htwice hlocks' hle' hopen' =>
        refine .failed k'' (fun h => hall h.2) ?_ (hlocks'.trans hlocks) (hle.trans hle') hopen'
        rintro (hnow | hlater)
        · exact hnow.not_fits hfits
        · exact htwice hlater.2
      | twice msg' k'' hall htwice hlocks' hle' hmsg hopen' =>
        exact .twice msg' k'' (fun h => hall h.2) (Or.inr ⟨hfits, htwice⟩) (hlocks'.trans hlocks) (hle.trans hle') hmsg
          hopen'
    | failed k' hfits htwice hlocks hle hopen =>
      refine .failed k' (fun h => hfits h.1) ?_ hlocks hle hopen
      rintro (hnow | hlater)
      · exact htwice hnow
      · exact hfits hlater.1
    | twice msg k' hfits htwice hlocks hle hmsg hopen =>
      exact .twice msg k' (fun h => hfits h.1) (Or.inl htwice) hlocks hle hmsg hopen

/-! ## The requests -/

theorem neg_one_lt : (-1 : ℤ) < 0 := by decide

/-- The lock of the device that was looked up is released once, and every message was given away once. -/
structure Disciplined (devs : List SwitchDev) (info : GenlInfo) (k : Kernel) : Prop where
  lock : k.lockState = if (findDev devs info).isSome then (1, 1) else (0, 0)
  messages : Settled k

theorem disciplined_of_found {devs : List SwitchDev} {info : GenlInfo} {dev : SwitchDev}
    (hdev : findDev devs info = some dev) {k : Kernel} :
    Disciplined devs info k ↔ k.lockState = (1, 1) ∧ Settled k := by
  constructor
  · rintro ⟨hlock, hmessages⟩
    rw [hdev] at hlock
    exact ⟨hlock, hmessages⟩
  · rintro ⟨hlock, hmessages⟩
    refine ⟨?_, hmessages⟩
    rw [hdev]
    exact hlock

theorem disciplined_not_found {devs : List SwitchDev} {info : GenlInfo} (hdev : findDev devs info = none) :
    Disciplined devs info idle := by
  refine ⟨?_, open_idle.settled⟩
  rw [hdev]
  rfl

theorem disciplined_refused {devs : List SwitchDev} {info : GenlInfo} {dev : SwitchDev}
    (hdev : findDev devs info = some dev) : Disciplined devs info idle.lock.unlock :=
  (disciplined_of_found hdev).mpr ⟨rfl, open_idle.settled⟩

theorem setAttr_disciplined (devs : List SwitchDev) (info : GenlInfo) :
    Disciplined devs info (setAttr devs info).2 := by
  rw [setAttr]
  split
  · rename_i hdev
    exact disciplined_not_found hdev
  · rename_i dev hdev
    split
    · exact disciplined_refused hdev
    · split
      · exact disciplined_refused hdev
      · split <;> exact disciplined_refused hdev

/-- The listing does not meet an attribute that fits into neither message. -/
def ListSafe (devs : List SwitchDev) (info : GenlInfo) (env : ListEnv) : Prop :=
  ∀ dev ∈ findDev devs info, ∀ group ∈ info.cmd, ¬TwiceIn true (listed dev group env)

theorem listAttrs_disciplined_iff (devs : List SwitchDev) (info : GenlInfo) (env : ListEnv) :
    Disciplined devs info (listAttrs devs info env).2 ↔ ListSafe devs info env := by
  rw [listAttrs, ListSafe]
  cases hdev : findDev devs info with
  | none => exact iff_of_true (disciplined_not_found hdev) (fun dev h => by cases h)
  | some dev =>
    cases hcmd : info.cmd with
    | none => exact iff_of_true (disciplined_refused hdev) (fun dev _ group h => by cases h)
    | some group =>
      have hsafe : (∀ d ∈ some dev, ∀ g ∈ some group, ¬TwiceIn true (listed d g env)) ↔
          ¬TwiceIn true (listed dev group env) := by
        simp only [Option.mem_def, Option.some.injEq, forall_eq']
      have hloop := sendAll_loop (listed dev group env) open_idle.lock
      rw [hsafe, disciplined_of_found hdev]
      simp only
      generalize sendAll (listed dev group env) none idle.lock = r at hloop
      cases hloop with
      | sent msg k' hall _ hlocks hopen =>
        refine iff_of_true ?_ hall.not_twice
        rw [if_neg (lt_irrefl _)]
        cases msg with
        | none => exact ⟨lockState_unlock hlocks, hopen.unlock.settled⟩
        | some msg => exact ⟨lockState_unlock hlocks, hopen.unlock.unicast.settled⟩
      | failed k' _ htwice hlocks _ hopen =>
        refine iff_of_true ?_ htwice
        rw [if_pos neg_one_lt]
        exact ⟨lockState_unlock hlocks, hopen.unlock.settled⟩
      | twice msg k' _ htwice _ _ hmsg hopen =>
        refine iff_of_false ?_ (not_not_intro htwice)
        rw [if_pos neg_one_lt]
        rintro ⟨-, hsettled⟩
        exact hopen.freed_again hmsg hsettled

/-- A get request does not go wrong: its attribute cannot be read, or the driver reads it, there is memory for
the answer, it has a type that is answered, and each port fits into the message at hand or into a new one. -/
def GetSafe (devs : List SwitchDev) (info : GenlInfo) (env : GetEnv) : Prop :=
  ∀ dev ∈ findDev devs info, ∀ found ∈ lookupAttr dev info, ∀ get ∈ found.1.get,
    let r := get (if found.1.type = .ports then { found.2 with ports := clearedPorts dev } else found.2)
    r.1 = 0 ∧ env.newMsg ∧ (env.hdr < 0 ∨ found.1.type = .int ∨ found.1.type = .string ∨
      found.1.type = .ports ∧ (r.2.ports = none ∨ AllFit false ((List.range r.2.len.toNat).map env.parts)))

theorem finishAttr_disciplined (env : GetEnv) {msg : Msg} {k : Kernel} (hopen : Open k (some msg))
    (hlocks : k.lockState = (1, 0)) :
    (finishAttr env msg k).2.lockState = (1, 1) ∧ Settled (finishAttr env msg k).2 := by
  rw [finishAttr]
  split
  · exact ⟨lockState_unlock hlocks, hopen.nlmsgFree.unlock.settled⟩
  · exact ⟨lockState_unlock hlocks, hopen.unlock.unicast.settled⟩

theorem putAttr_disciplined (env : GetEnv) {msg : Msg} {k : Kernel} (hopen : Open k (some msg))
    (hlocks : k.lockState = (1, 0)) :
    (if env.put < 0 then (-ENOMEM, (k.nlmsgFree msg).unlock) else finishAttr env msg k).2.lockState = (1, 1) ∧
      Settled (if env.put < 0 then (-ENOMEM, (k.nlmsgFree msg).unlock) else finishAttr env msg k).2 := by
  split
  · exact ⟨lockState_unlock hlocks, hopen.nlmsgFree.unlock.settled⟩
  · exact finishAttr_disciplined env hopen hlocks

/-- The answer for an attribute with ports. -/
theorem sendPorts_disciplined_iff (env : GetEnv) (val : SwitchVal) {msg : Msg} {k : Kernel} (hopen : Open k (some msg))
    (hlocks : k.lockState = (1, 0)) :
    (let s := sendPorts env msg val k
      let k' := (if s.1 < 0 then (s.1, (s.2.2.nlmsgFree s.2.1).unlock) else finishAttr env s.2.1 s.2.2).2
      k'.lockState = (1, 1) ∧ Settled k') ↔
      val.ports = none ∨ AllFit false ((List.range val.len.toNat).map env.parts) := by
  simp only
  rw [sendPorts]
  cases hports : val.ports with
  | none =>
    have hneg : -EINVAL < 0 := by decide
    refine iff_of_true ?_ (Or.inl rfl)
    simp only [if_pos hneg]
    exact ⟨lockState_unlock hlocks, hopen.nlmsgFree.unlock.settled⟩
  | some ports =>
    have hloop := sendAll_loop ((List.range val.len.toNat).map env.parts) hopen
    simp only [reduceCtorEq, false_or]
    generalize sendAll ((List.range val.len.toNat).map env.parts) (some msg) k = r at hloop
    cases hloop with
    | sent msg' k' hall hmsg hlocks' hopen' =>
      refine iff_of_true ?_ hall
      obtain ⟨m, rfl⟩ : ∃ m, msg' = some m := by
        cases msg' with
        | none => cases hmsg rfl
        | some m => exact ⟨m, rfl⟩
      rw [if_neg (lt_irrefl _)]
      simp only
      split
      · exact ⟨lockState_unlock (hlocks'.trans hlocks), hopen'.nlmsgFree.unlock.settled⟩
      · exact finishAttr_disciplined env hopen' (hlocks'.trans hlocks)
    | failed k' hall _ _ hle hopen' =>
      refine iff_of_false ?_ hall
      simp only [if_pos neg_one_lt]
      rintro ⟨-, hsettled⟩
      exact hopen'.freed_again ((hopen.known msg rfl).trans_le hle) hsettled
    | twice msg' k' hall _ _ hle _ hopen' =>
      refine iff_of_false ?_ hall
      simp only [if_pos neg_one_lt]
      rintro ⟨-, hsettled⟩
      exact hopen'.freed_again ((hopen.known msg rfl).trans_le hle) hsettled

theorem answerAttr_disciplined_iff (env : GetEnv) (type : ValType) (r : ℤ × SwitchVal) :
    (answerAttr env type r).2.lockState = (1, 1) ∧ Settled (answerAttr env type r).2 ↔
      r.1 = 0 ∧ env.newMsg ∧ (env.hdr < 0 ∨ type = .int ∨ type = .string ∨
        type = .ports ∧ (r.2.ports = none ∨ AllFit false ((List.range r.2.len.toNat).map env.parts))) := by
  have hheld : (1, 0) ≠ (1, 1) := by decide
  rw [answerAttr]
  by_cases hr : r.1 = 0
  · rw [if_neg (not_not_intro hr)]
    have hnew := open_idle.lock.nlmsgNew env.newMsg
    cases hmem : env.newMsg with
    | false => exact iff_of_false (fun h => hheld h.1) (fun h => Bool.false_ne_true h.2.1)
    | true =>
      rw [hmem] at hnew
      simp only [hr, true_and]
      show (if env.hdr < 0 then _ else _ : ℤ × Kernel).2.lockState = (1, 1) ∧
        Settled (if env.hdr < 0 then _ else _ : ℤ × Kernel).2 ↔ _
      by_cases hhdr : env.hdr < 0
      · rw [if_pos hhdr]
        exact iff_of_true ⟨rfl, hnew.nlmsgFree.unlock.settled⟩ (Or.inl hhdr)
      · rw [if_neg hhdr]
        cases type with
        | int => exact iff_of_true (putAttr_disciplined env hnew rfl) (Or.inr (Or.inl rfl))
        | string => exact iff_of_true (putAttr_disciplined env hnew rfl) (Or.inr (Or.inr (Or.inl rfl)))
        | ports =>
          have hports := sendPorts_disciplined_iff env r.2 hnew rfl
          simp only [hhdr, reduceCtorEq, true_and, false_or]
          exact hports
        | noval =>
          refine iff_of_false (fun h => hheld h.1) ?_
          simp [hhdr]
        | unspec =>
          refine iff_of_false (fun h => hheld h.1) ?_
          simp [hhdr]
  · rw [if_pos hr]
    exact iff_of_false (fun h => hheld h.1) (fun h => hr h.1)

theorem getAttr_disciplined_iff (devs : List SwitchDev) (info : GenlInfo) (env : GetEnv) :
    Disciplined devs info (getAttr devs info env).2 ↔ GetSafe devs info env := by
  rw [getAttr, GetSafe]
  cases hdev : findDev devs info with
  | none => exact iff_of_true (disciplined_not_found hdev) (fun dev h => by cases h)
  | some dev =>
    simp only [Option.mem_def, Option.some.injEq, forall_eq']
    cases hlookup : lookupAttr dev info with
    | none => exact iff_of_true (disciplined_refused hdev) (fun found h => by cases h)
    | some found =>
      obtain ⟨attr, val⟩ := found
      simp only [Option.some.injEq, forall_eq']
      cases hget : attr.get with
      | none => exact iff_of_true (disciplined_refused hdev) (fun get h => by cases h)
      | some get =>
        simp only [Option.some.injEq, forall_eq']
        rw [disciplined_of_found hdev]
        exact answerAttr_disciplined_iff env attr.type _

inductive Request
  | list (env : ListEnv)
  | set
  | get (env : GetEnv)

def Request.run (devs : List SwitchDev) (info : GenlInfo) : Request → Kernel
  | .list env => (listAttrs devs info env).2
  | .set => (setAttr devs info).2
  | .get env => (getAttr devs info env).2

def Request.Safe (devs : List SwitchDev) (info : GenlInfo) : Request → Prop
  | .list env => ListSafe devs info env
  | .set => True
  | .get env => GetSafe devs info env

/-- A request releases its lock once and gives every message away once exactly when it is safe. -/
theorem request_disciplined_iff (devs : List SwitchDev) (info : GenlInfo) (request : Request) :
    Disciplined devs info (request.run devs info) ↔ request.Safe devs info := by
  cases request with
  | list env => exact listAttrs_disciplined_iff devs info env
  | set => exact iff_of_true (setAttr_disciplined devs info) trivial
  | get env => exact getAttr_disciplined_iff devs info env

/-! ## A driver that cannot read -/

/-- The attribute `pvid` of a port that the driver does not have. -/
def unreadable : SwitchAttr := ⟨false, .int, none, some fun val => (-EINVAL, val)⟩

def switchDev : SwitchDev := ⟨0, fun _ => ⟨1, fun _ => unreadable⟩, fun _ => [], fun _ _ => false, 6, true⟩

def getPvid : GenlInfo := ⟨some .port, some 0, some 0, none, some 7, none, none, none⟩

def allWell : GetEnv := ⟨true, 0, 0, fun _ => ⟨true, 0, 0, true, 0⟩, 0, 0⟩

theorem get_error_keeps_lock :
    (getAttr [switchDev] getPvid allWell).1 = -EINVAL ∧
      ((Request.get allWell).run [switchDev] getPvid).lockState = (1, 0) ∧
      ¬Disciplined [switchDev] getPvid ((Request.get allWell).run [switchDev] getPvid) := by
  refine ⟨by decide, by decide, fun h => ?_⟩
  have hlock := h.lock
  revert hlock
  decide

end Neufbox.Swconfig
