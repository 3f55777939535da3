import Mathlib.Tactic

/-! # The list of links of a client

`wprobe_update_links` moves the caller's list to a temporary one, and the callback for the replies moves the entries
back, one for every address that is reported. What is left in the temporary list is freed behind the last reply, and
nothing puts it back when the call ends before: the call with the receive loop of the netlink library, and when the
entries survive. -/
namespace Neufbox.Wprobe
set_option autoImplicit false
set_option maxHeartbeats 250000
set_option maxRecDepth 120000

/-! ## Receiving -/

/-- A message in a buffer that `nl_recv` returns, by what `recvmsgs` does with it. Replies of a dump are parts of a
multipart message. -/
inductive NlMessage (ρ : Type)
  | valid (reply : ρ)
  | done
  | ack
  | error (e : ℤ)
  deriving DecidableEq, Repr

/-- The state of `wprobe_send_msg`: its `err`, the `multipart` of `recvmsgs` and the argument of the callback. -/
structure NlState (σ : Type) where
  err : ℤ
  multipart : Bool
  arg : σ

section Receive
variable {ρ σ : Type}

/-- The loop of `recvmsgs` over one buffer. The second part is whether it is left before the end: by a callback that
returns neither `NL_OK` nor `NL_SKIP`. -/
def recvBuffer (callback : σ → ρ → σ × Bool) : List (NlMessage ρ) → NlState σ → NlState σ × Bool
  | [], st => (st, false)
  | .valid reply :: msgs, st =>
      let r := callback st.arg reply
      let st := { st with multipart := true, arg := r.1 }
      if r.2 then recvBuffer callback msgs st else (st, true)
  | .done :: msgs, st => recvBuffer callback msgs { st with err := 0, multipart := false }
  | .ack :: _, st => ({ st with err := 0 }, true)
  | .error e :: _, st => ({ st with err := e }, true)

/-- `while (err > 0) nl_recvmsgs(handle, cb)`, which does not look at the result of `nl_recvmsgs`. Without a further
buffer it waits. -/
def recvLoop (callback : σ → ρ → σ × Bool) : List (List (NlMessage ρ)) → NlState σ → Option (NlState σ)
  | [], _ => none
  | buf :: bufs, st =>
      let r := recvBuffer callback buf st
      if r.2 = false ∧ r.1.multipart = true then recvLoop callback bufs r.1
      else if 0 < r.1.err then recvLoop callback bufs { r.1 with multipart := false }
      else some r.1

end Receive

/-! ## The refresh -/

/-- `struct wprobe_link` of the library; `ptr` stands for its address. -/
structure ClientLink where
  ptr : ℕ
  addr : List UInt8
  flags : ℕ
  deriving DecidableEq, Repr

/-- The attributes of a reply, and what `malloc` returns if it is called for it. -/
structure LinkReply where
  mac : Option (List UInt8)
  flags : Option ℕ
  alloc : Option ℕ
  deriving DecidableEq, Repr

def getLink (list : List ClientLink) (addr : List UInt8) (alloc : Option ℕ) : Option (ClientLink × List ClientLink) :=
  match list.find? fun l => l.addr = addr with
  | some l => some (l, list.eraseP fun l => l.addr = addr)
  | none => alloc.map fun ptr => (⟨ptr, addr, 0⟩, list)

/-- `struct wprobe_save_cb`. -/
structure SaveCb where
  list : List ClientLink
  oldList : List ClientLink

def saveLinkHandler (cb : SaveCb) (reply : LinkReply) : SaveCb × Bool :=
  match reply.mac with
  | none => (cb, false)
  | some addr =>
      if addr.length ≠ 6 then (cb, false)
      else match getLink cb.oldList addr reply.alloc with
        | none => (cb, false)
        | some r => (⟨cb.list ++ [{ r.1 with flags := reply.flags.getD r.1.flags }], r.2⟩, true)

/-- The message that ends the answer to a dump; the kernel's errors are negative. -/
inductive Final
  | done
  | ack
  | error (e : ℤ) (neg : e < 0)
  deriving DecidableEq, Repr

def Final.message : Final → NlMessage LinkReply
  | .done => .done
  | .ack => .ack
  | .error e _ => .error e

/-- The answer to a dump: replies, distributed over buffers, and in the last buffer the message that ends it. -/
structure Answer where
  parts : List (List LinkReply)
  last : List LinkReply
  final : Final
  deriving DecidableEq, Repr

namespace Answer

def buffers (answer : Answer) : List (List (NlMessage LinkReply)) :=
  answer.parts.map (fun part => part.map .valid) ++ [answer.last.map .valid ++ [answer.final.message]]

def replies (answer : Answer) : List LinkReply := answer.parts.flatten ++ answer.last

end Answer

/-- What a call meets: whether the message and the callback structure can be allocated, what sending returns, and the
answer that is received. -/
structure Exchange where
  msgAlloc : Bool
  cbAlloc : Bool
  sent : ℤ
  answer : Answer

/-- `wprobe_send_msg`: the result and the argument of the callback. Without a callback structure the result is 0. -/
def wprobeSendMsg {σ : Type} (ex : Exchange) (callback : σ → LinkReply → σ × Bool) (arg : σ) : Option (NlState σ) :=
  if ex.cbAlloc = false then some ⟨0, false, arg⟩
  else if ex.sent < 0 then some ⟨ex.sent, false, arg⟩
  else recvLoop callback ex.answer.buffers ⟨1, false, arg⟩

def enomem : ℤ := 12

/-- `wprobe_update_links`: the result and the caller's list. -/
def wprobeUpdateLinks (ex : Exchange) (list : List ClientLink) : Option (ℤ × List ClientLink) :=
  if ex.msgAlloc = false then some (-enomem, [])
  else (wprobeSendMsg ex saveLinkHandler ⟨[], list⟩).map fun st =>
    if st.err < 0 then (st.err, st.arg.list) else (0, st.arg.list)

/-! ## What a refresh should do -/

/-- The address that a reply reports. -/
def LinkReply.reported (reply : LinkReply) : Option (List UInt8) := reply.mac.filter fun addr => addr.length = 6

section Spec
variable (prev : List ClientLink)

/-- How often an address was reported. -/
def reportCount (addr : List UInt8) (replies : List LinkReply) : ℕ :=
  replies.countP fun reply => reply.reported = some addr

def known (addr : List UInt8) : List ClientLink := prev.filter fun l => l.addr = addr

/-- The entry for a report behind others: the next one of the previous list with that address, or a new one. -/
def entryFor (earlier : List LinkReply) (reply : LinkReply) : ClientLink :=
  let addr := reply.reported.getD []
  match (known prev addr)[reportCount addr earlier]? with
  | some l => { l with flags := reply.flags.getD l.flags }
  | none => ⟨reply.alloc.getD 0, addr, reply.flags.getD 0⟩

/-- One entry for every report, in their order. -/
def entries (replies : List LinkReply) : List ClientLink :=
  replies.mapIdx fun j reply => entryFor prev (replies.take j) reply

def reportsOf (replies : List LinkReply) : List LinkReply := replies.filter fun reply => reply.reported.isSome

/-- A report that is neither of a known entry that is still left, nor can a new one be had for it. -/
def OutOfMemory (reports : List LinkReply) : Prop :=
  ∃ earlier reply later addr, reports = earlier ++ reply :: later ∧ reply.reported = some addr ∧
    (known prev addr).length ≤ reportCount addr earlier ∧ reply.alloc = none

/-- Something cannot be allocated, the request cannot be sent, or the kernel reports an error. -/
def Fails (ex : Exchange) : Prop :=
  ex.msgAlloc = false ∨ ex.cbAlloc = false ∨ ex.sent < 0 ∨ (∃ e neg, ex.answer.final = .error e neg) ∨
    OutOfMemory prev (reportsOf ex.answer.replies)

/-- The call comes back; on success with one entry for every report in the list, otherwise with all previous entries
still in it. -/
def Refreshed (ex : Exchange) : Prop :=
  ∃ rc list, wprobeUpdateLinks ex prev = some (rc, list) ∧
    (Fails prev ex → ∀ l ∈ prev, ∃ l' ∈ list, l'.ptr = l.ptr) ∧
    (¬ Fails prev ex → rc = 0 ∧ list = entries prev (reportsOf ex.answer.replies))

/-! ## The condition on the answer -/

/-- The reply has an address that is still known, or a new entry can be had for it. -/
def obtainable (earlier : List LinkReply) (reply : LinkReply) : Bool :=
  match reply.reported with
  | none => false
  | some addr => decide (reportCount addr earlier < (known prev addr).length) || reply.alloc.isSome

/-- The replies of a buffer up to one that ends the work on it, behind replies that were taken before. -/
def takenIn : List LinkReply → List LinkReply → List LinkReply
  | _, [] => []
  | earlier, reply :: replies =>
      if obtainable prev earlier reply then reply :: takenIn (earlier ++ [reply]) replies else []

def takenFrom : List LinkReply → List (List LinkReply) → List LinkReply
  | earlier, [] => earlier
  | earlier, part :: parts => takenFrom (earlier ++ takenIn prev earlier part) parts

/-- The request gets as far as the kernel. -/
def Exchange.Asked (ex : Exchange) : Prop := ex.msgAlloc = true ∧ ex.cbAlloc = true ∧ 0 ≤ ex.sent

/-- Of an answer: the message that ends it is not dropped with the rest of its buffer; if the call fails, each previous
entry was reported in what is not dropped; and if it does not fail, no report is dropped. -/
structure NothingDropped (answer : Answer) (fails : Prop) : Prop where
  ends : takenIn prev (takenFrom prev [] answer.parts) answer.last = answer.last
  failing : fails → ∀ addr,
    (known prev addr).length ≤ reportCount addr (takenFrom prev [] answer.parts ++ answer.last)
  succeeding : ¬ fails → ∀ part ∈ answer.parts, reportsOf (part.dropWhile fun reply => reply.reported.isSome) = []

/-- Without an answer there is no previous entry to be lost. -/
def NothingLost (ex : Exchange) : Prop :=
  (¬ ex.Asked → prev = []) ∧ (ex.Asked → NothingDropped prev ex.answer (Fails prev ex))

end Spec

/-! ## One reply -/

section Step
variable {prev : List ClientLink}

theorem entries_concat (replies : List LinkReply) (reply : LinkReply) :
    entries prev (replies ++ [reply]) = entries prev replies ++ [entryFor prev replies reply] := by
  rw [entries, List.mapIdx_concat, List.take_left, entries]
  congr 1
  refine List.mapIdx_eq_mapIdx_iff.mpr fun i hi => ?_
  rw [List.take_append_of_le_length hi.le]

theorem length_entries (replies : List LinkReply) : (entries prev replies).length = replies.length :=
  List.length_mapIdx

/-- The two lists of the callback, and the replies that were taken. -/
structure Moved (prev : List ClientLink) (cb : SaveCb) (taken : List LinkReply) : Prop where
  list : cb.list = entries prev taken
  old : ∀ addr, known cb.oldList addr = (known prev addr).drop (reportCount addr taken)
  sub : cb.oldList.Sublist prev
  kept : ∀ l ∈ prev, l ∈ cb.oldList ∨ ∃ l' ∈ cb.list, l'.ptr = l.ptr
  apart : ∀ l ∈ cb.oldList, ∀ l' ∈ cb.list, l'.ptr ≠ l.ptr

theorem moved_start : Moved prev ⟨[], prev⟩ [] :=
  ⟨rfl, fun _ => rfl, List.Sublist.refl _, fun _ hl => .inl hl, fun _ _ _ hl' => absurd hl' List.not_mem_nil⟩

theorem reported_eq_some {reply : LinkReply} {addr : List UInt8} (h : reply.reported = some addr) :
    reply.mac = some addr ∧ addr.length = 6 := by
  rw [LinkReply.reported, Option.filter_eq_some_iff] at h
  exact ⟨h.1, by simpa using h.2⟩

theorem saveLinkHandler_unreported (cb : SaveCb) {reply : LinkReply} (h : reply.reported = none) :
    saveLinkHandler cb reply = (cb, false) := by
  rw [saveLinkHandler]
  cases hmac : reply.mac with
  | none => rfl
  | some addr =>
    rw [LinkReply.reported, hmac] at h
    have hlen : addr.length ≠ 6 := by simpa [Option.filter_eq_none_iff] using h
    exact if_pos hlen

theorem known_find (list : List ClientLink) (addr : List UInt8) :
    (list.find? fun l => l.addr = addr) = (known list addr).head? := by
  rw [known, List.head?_filter]

theorem reportCount_concat (addr : List UInt8) (replies : List LinkReply) (reply : LinkReply) :
    reportCount addr (replies ++ [reply]) =
      reportCount addr replies + if reply.reported = some addr then 1 else 0 := by
  simp [reportCount, List.countP_append, List.countP_singleton]

theorem known_eraseP (list : List ClientLink) (addr addr' : List UInt8) :
    known (list.eraseP fun l => l.addr = addr) addr' =
      if addr' = addr then (known list addr').tail else known list addr' := by
  induction list with
  | nil => simp [known]
  | cons l list ih =>
    rw [List.eraseP_cons]
    by_cases hl : l.addr = addr
    · by_cases haddr : addr' = addr
      · simp [hl, haddr, known]
      · have hne : l.addr ≠ addr' := fun h => haddr (h.symm.trans hl)
        simp [hl, haddr, known, Ne.symm haddr]
    · by_cases haddr : addr' = addr
      · subst haddr
        simpa [hl, known] using ih
      · by_cases hl' : l.addr = addr'
        · simpa [hl, hl', haddr, known] using ih
        · simpa [hl, hl', haddr, known] using ih

/-- Where `get_link` finds an entry, that one moves to the list. -/
theorem moved_reuse {cb : SaveCb} {taken : List LinkReply} {reply : LinkReply} {addr : List UInt8} {l : ClientLink}
    (hnodup : (prev.map ClientLink.ptr).Nodup) (h : Moved prev cb taken) (hreply : reply.reported = some addr)
    (hl : (known cb.oldList addr).head? = some l) :
    Moved prev ⟨cb.list ++ [{ l with flags := reply.flags.getD l.flags }], cb.oldList.eraseP fun l => l.addr = addr⟩
      (taken ++ [reply]) := by
  have hmem : l ∈ cb.oldList := List.mem_of_mem_filter (List.mem_of_head? hl)
  have haddr : l.addr = addr := by simpa using List.of_mem_filter (List.mem_of_head? hl)
  have hnodup' : (cb.oldList.map ClientLink.ptr).Nodup := hnodup.sublist (h.sub.map _)
  have herase : (cb.oldList.eraseP fun l => l.addr = addr) = cb.oldList.erase l := by
    obtain ⟨as, bs, heq, has⟩ := List.find?_eq_some_iff_append.mp ((known_find _ _).trans hl) |>.2
    rw [heq, List.eraseP_append_right _ (by simpa using has), List.eraseP_cons_of_pos (by simpa using haddr),
      List.erase_append_right _ (fun hin => absurd (has l hin) (by simp [haddr])), List.erase_cons_head]
  refine ⟨?_, fun addr' => ?_, ?_, fun l' hl' => ?_, fun l₁ hl₁ l₂ hl₂ => ?_⟩
  · rw [entries_concat, h.list, entryFor, hreply, Option.getD_some, ← List.head?_drop, ← h.old, hl]
  · rw [known_eraseP, reportCount_concat, hreply]
    by_cases ha : addr' = addr
    · rw [if_pos ha, ha, if_pos rfl, h.old, List.tail_drop]
    · rw [if_neg ha, if_neg (fun he => ha (Option.some.inj he).symm), h.old, Nat.add_zero]
  · exact (List.eraseP_sublist).trans h.sub
  · rcases h.kept l' hl' with hin | ⟨m, hm, hptr⟩
    · by_cases he : l' = l
      · exact .inr ⟨_, List.mem_append_right _ (List.mem_singleton_self _), by rw [he]⟩
      · left
        rw [herase]
        exact (List.mem_erase_of_ne he).mpr hin
    · exact .inr ⟨m, List.mem_append_left _ hm, hptr⟩
  · rcases List.mem_append.mp hl₂ with hin | hin
    · exact h.apart l₁ (List.mem_of_mem_eraseP hl₁) l₂ hin
    · rw [List.mem_singleton.mp hin]
      intro hptr
      rw [herase] at hl₁
      have he : l = l₁ := List.inj_on_of_nodup_map hnodup' hmem (List.mem_of_mem_erase hl₁) hptr
      exact (List.Nodup.of_map _ hnodup').not_mem_erase (he ▸ hl₁)

theorem moved_alloc {cb : SaveCb} {taken : List LinkReply} {reply : LinkReply} {addr : List UInt8} {ptr : ℕ}
    (hfresh : ptr ∉ prev.map ClientLink.ptr) (h : Moved prev cb taken) (hreply : reply.reported = some addr)
    (hl : (known cb.oldList addr).head? = none) (halloc : reply.alloc = some ptr) :
    Moved prev ⟨cb.list ++ [⟨ptr, addr, reply.flags.getD 0⟩], cb.oldList⟩ (taken ++ [reply]) := by
  refine ⟨?_, fun addr' => ?_, h.sub, fun l' hl' => ?_, fun l₁ hl₁ l₂ hl₂ => ?_⟩
  · rw [entries_concat, h.list, entryFor, hreply, Option.getD_some, ← List.head?_drop, ← h.old, hl, halloc,
      Option.getD_some]
  · rw [reportCount_concat, hreply]
    by_cases ha : addr' = addr
    · rw [ha, if_pos rfl, ← List.tail_drop, ← h.old, List.head?_eq_none_iff.mp hl, List.tail_nil]
    · rw [if_neg (fun he => ha (Option.some.inj he).symm), h.old, Nat.add_zero]
  · rcases h.kept l' hl' with hin | ⟨m, hm, hptr⟩
    · exact .inl hin
    · exact .inr ⟨m, List.mem_append_left _ hm, hptr⟩
  · rcases List.mem_append.mp hl₂ with hin | hin
    · exact h.apart l₁ hl₁ l₂ hin
    · rw [List.mem_singleton.mp hin]
      intro hptr
      exact hfresh (List.mem_map.mpr ⟨l₁, h.sub.subset hl₁, hptr.symm⟩)

/-- What `malloc` returns for a reply is none of the entries that the caller has. -/
def LinkReply.Fresh (prev : List ClientLink) (reply : LinkReply) : Prop :=
  ∀ ptr, reply.alloc = some ptr → ptr ∉ prev.map ClientLink.ptr

theorem obtainable_eq (prev : List ClientLink) {reply : LinkReply} {addr : List UInt8} (h : reply.reported = some addr)
    (taken : List LinkReply) : obtainable prev taken reply =
      (decide (reportCount addr taken < (known prev addr).length) || reply.alloc.isSome) := by
  rw [obtainable, h]

/-- A reply is taken, or refused with nothing changed. -/
theorem saveLinkHandler_moved (hnodup : (prev.map ClientLink.ptr).Nodup) (cb : SaveCb) (taken : List LinkReply)
    (reply : LinkReply) (hfresh : reply.Fresh prev) (h : Moved prev cb taken) :
    (saveLinkHandler cb reply).2 = obtainable prev taken reply ∧
      Moved prev (saveLinkHandler cb reply).1 (if obtainable prev taken reply then taken ++ [reply] else taken) := by
  cases hreply : reply.reported with
  | none =>
    have hget : obtainable prev taken reply = false := by rw [obtainable, hreply]
    rw [saveLinkHandler_unreported cb hreply, hget]
    exact ⟨rfl, h⟩
  | some addr =>
    obtain ⟨hmac, hlen⟩ := reported_eq_some hreply
    have hhead : (known cb.oldList addr).head? = (known prev addr)[reportCount addr taken]? := by
      rw [h.old, List.head?_drop]
    have hget := obtainable_eq prev hreply taken
    rw [saveLinkHandler, hmac]
    simp only [hlen, ne_eq, not_true_eq_false, if_false, getLink, known_find]
    cases hl : (known cb.oldList addr).head? with
    | some l =>
      obtain ⟨hlt, -⟩ := List.getElem?_eq_some_iff.mp (hhead.symm.trans hl)
      rw [decide_eq_true hlt, Bool.true_or] at hget
      rw [hget, if_pos rfl]
      exact ⟨rfl, moved_reuse hnodup h hreply hl⟩
    | none =>
      have hge : ¬ reportCount addr taken < (known prev addr).length :=
        not_lt.mpr (List.getElem?_eq_none_iff.mp (hhead.symm.trans hl))
      rw [decide_eq_false hge, Bool.false_or] at hget
      cases halloc : reply.alloc with
      | some ptr =>
        rw [halloc, Option.isSome_some] at hget
        rw [hget, if_pos rfl]
        exact ⟨rfl, moved_alloc (hfresh ptr halloc) h hreply hl halloc⟩
      | none =>
        rw [halloc, Option.isSome_none] at hget
        rw [hget]
        exact ⟨rfl, h⟩

end Step

/-! ## One buffer, and all of them -/

section Call
variable {prev : List ClientLink} (hnodup : (prev.map ClientLink.ptr).Nodup)

include hnodup in
/-- The replies of a buffer, when there are more messages behind them. -/
theorem recvBuffer_replies (replies : List LinkReply) (hfresh : ∀ reply ∈ replies, reply.Fresh prev)
    (rest : List (NlMessage LinkReply)) (st : NlState SaveCb) {taken : List LinkReply} (h : Moved prev st.arg taken) :
    ∃ cb, Moved prev cb (taken ++ takenIn prev taken replies) ∧
      recvBuffer saveLinkHandler (replies.map .valid ++ rest) st =
        if takenIn prev taken replies = replies then
          recvBuffer saveLinkHandler rest ⟨st.err, st.multipart || !replies.isEmpty, cb⟩
        else (⟨st.err, true, cb⟩, true) := by
  induction replies generalizing st taken with
  | nil => exact ⟨st.arg, by rwa [takenIn, List.append_nil], by simp [takenIn]⟩
  | cons reply replies ih =>
    obtain ⟨hflag, hmoved⟩ := saveLinkHandler_moved hnodup st.arg taken reply (hfresh reply List.mem_cons_self) h
    rw [List.map_cons, List.cons_append, recvBuffer, takenIn, hflag]
    cases hget : obtainable prev taken reply with
    | true =>
      rw [hget, if_pos rfl] at hmoved
      obtain ⟨cb, hcb, hrun⟩ := ih (fun r hr => hfresh r (List.mem_cons_of_mem _ hr))
        ⟨st.err, true, (saveLinkHandler st.arg reply).1⟩ hmoved
      rw [if_pos rfl, if_pos rfl]
      refine ⟨cb, by simpa using hcb, hrun.trans ?_⟩
      simp
    | false =>
      rw [hget, if_neg (by simp)] at hmoved
      rw [if_neg (by simp), if_neg (by simp)]
      exact ⟨_, by rwa [List.append_nil], (if_neg (by simp)).symm⟩

include hnodup in
/-- The buffers before the last are all read, whether their end is reached or not. -/
theorem recvLoop_parts (parts : List (List LinkReply)) (hfresh : ∀ part ∈ parts, ∀ reply ∈ part, reply.Fresh prev)
    (bufs : List (List (NlMessage LinkReply))) (st : NlState SaveCb) (herr : 0 < st.err) {taken : List LinkReply}
    (h : Moved prev st.arg taken) :
    ∃ multipart cb, Moved prev cb (takenFrom prev taken parts) ∧
      recvLoop saveLinkHandler (parts.map (fun part => part.map .valid) ++ bufs) st =
        recvLoop saveLinkHandler bufs ⟨st.err, multipart, cb⟩ := by
  induction parts generalizing st taken with
  | nil => exact ⟨st.multipart, st.arg, h, rfl⟩
  | cons part parts ih =>
    obtain ⟨cb, hcb, hbuf⟩ := recvBuffer_replies hnodup part (hfresh part List.mem_cons_self) [] st h
    have hrest := fun multipart => ih (fun p hp => hfresh p (List.mem_cons_of_mem _ hp)) ⟨st.err, multipart, cb⟩ herr hcb
    rw [List.append_nil] at hbuf
    rw [List.map_cons, List.cons_append, recvLoop, takenFrom, hbuf]
    by_cases hall : takenIn prev taken part = part
    · rw [if_pos hall, recvBuffer]
      cases hmulti : st.multipart || !part.isEmpty with
      | true => exact hrest true
      | false =>
        simp only [Bool.false_eq_true, and_false, if_false, if_pos herr]
        exact hrest false
    · rw [if_neg hall]
      simp only [Bool.true_eq_false, false_and, if_false, if_pos herr]
      exact hrest false

/-- The result that the last message stands for. -/
def Final.result : Final → ℤ
  | .done => 0
  | .ack => 0
  | .error e _ => e

include hnodup in
/-- The last buffer ends the loop when its last message is reached, and otherwise the loop waits. -/
theorem recvLoop_last (last : List LinkReply) (hfresh : ∀ reply ∈ last, reply.Fresh prev) (final : Final)
    (st : NlState SaveCb) (herr : 0 < st.err) {taken : List LinkReply} (h : Moved prev st.arg taken) :
    if takenIn prev taken last = last then
      ∃ multipart cb, Moved prev cb (taken ++ last) ∧
        recvLoop saveLinkHandler [last.map .valid ++ [final.message]] st = some ⟨final.result, multipart, cb⟩
    else recvLoop saveLinkHandler [last.map .valid ++ [final.message]] st = none := by
  obtain ⟨cb, hcb, hbuf⟩ := recvBuffer_replies hnodup last hfresh [final.message] st h
  rw [recvLoop, hbuf]
  split
  · rename_i hall
    rw [hall] at hcb
    cases final with
    | done => exact ⟨_, cb, hcb, rfl⟩
    | ack => exact ⟨_, cb, hcb, rfl⟩
    | error e neg =>
      refine ⟨st.multipart || !last.isEmpty, cb, hcb, ?_⟩
      simp [Final.message, Final.result, recvBuffer, not_lt.mpr neg.le]
  · simp [recvLoop]

/-! ## The whole call -/

/-- What is received, in terms of the answer. -/
theorem answer_cases (answer : Answer) (hfresh : ∀ reply ∈ answer.replies, reply.Fresh prev)
    (hnodup : (prev.map ClientLink.ptr).Nodup) :
    if takenIn prev (takenFrom prev [] answer.parts) answer.last = answer.last then
      ∃ multipart cb, Moved prev cb (takenFrom prev [] answer.parts ++ answer.last) ∧
        recvLoop saveLinkHandler answer.buffers ⟨1, false, ⟨[], prev⟩⟩ = some ⟨answer.final.result, multipart, cb⟩
    else recvLoop saveLinkHandler answer.buffers ⟨1, false, ⟨[], prev⟩⟩ = none := by
  obtain ⟨multipart, cb, hcb, hparts⟩ := recvLoop_parts hnodup answer.parts
    (fun part hpart reply hreply => hfresh reply (List.mem_append_left _ (List.mem_flatten_of_mem hpart hreply)))
    [answer.last.map .valid ++ [answer.final.message]] ⟨1, false, ⟨[], prev⟩⟩ one_pos moved_start
  rw [Answer.buffers, hparts]
  exact recvLoop_last hnodup answer.last (fun reply hreply => hfresh reply (List.mem_append_right _ hreply))
    answer.final ⟨1, multipart, cb⟩ one_pos hcb

theorem updateLinks_unasked {ex : Exchange} (h : ¬ ex.Asked) :
    (∃ rc, wprobeUpdateLinks ex prev = some (rc, [])) ∧ Fails prev ex := by
  rw [wprobeUpdateLinks, wprobeSendMsg]
  by_cases hmsg : ex.msgAlloc = false
  · exact ⟨⟨_, if_pos hmsg⟩, .inl hmsg⟩
  by_cases hcb : ex.cbAlloc = false
  · rw [if_neg hmsg, if_pos hcb]
    exact ⟨⟨0, rfl⟩, .inr (.inl hcb)⟩
  have hsent : ex.sent < 0 := by
    by_contra hge
    exact h ⟨by simpa using hmsg, by simpa using hcb, not_lt.mp hge⟩
  rw [if_neg hmsg, if_neg hcb, if_pos hsent]
  exact ⟨⟨ex.sent, by simp [hsent]⟩, .inr (.inr (.inl hsent))⟩

theorem updateLinks_asked {ex : Exchange} (h : ex.Asked) :
    wprobeUpdateLinks ex prev =
      (recvLoop saveLinkHandler ex.answer.buffers ⟨1, false, ⟨[], prev⟩⟩).map fun st =>
        if st.err < 0 then (st.err, st.arg.list) else (0, st.arg.list) := by
  rw [wprobeUpdateLinks, wprobeSendMsg, if_neg (by simp [h.1]), if_neg (by simp [h.2.1]), if_neg (not_lt.mpr h.2.2)]

/-- The previous entries are all in the list exactly when nothing is left in the temporary one. -/
theorem moved_all_iff {cb : SaveCb} {taken : List LinkReply} (h : Moved prev cb taken) :
    (∀ l ∈ prev, ∃ l' ∈ cb.list, l'.ptr = l.ptr) ↔
      ∀ addr, (known prev addr).length ≤ reportCount addr taken := by
  have hempty : cb.oldList = [] ↔ ∀ addr, (known prev addr).length ≤ reportCount addr taken := by
    constructor
    · intro hnil addr
      have hold := h.old addr
      rw [hnil] at hold
      exact List.drop_eq_nil_iff.mp hold.symm
    · intro hall
      refine List.eq_nil_iff_forall_not_mem.mpr fun l hl => ?_
      have hin : l ∈ known cb.oldList l.addr := List.mem_filter.mpr ⟨hl, by simp⟩
      rw [h.old, List.drop_eq_nil_of_le (hall l.addr)] at hin
      exact List.not_mem_nil hin
  rw [← hempty]
  constructor
  · intro hall
    refine List.eq_nil_iff_forall_not_mem.mpr fun l hl => ?_
    obtain ⟨l', hl', hptr⟩ := hall l (h.sub.subset hl)
    exact h.apart l hl l' hl' hptr
  · intro hnil l hl
    rcases h.kept l hl with hin | hin
    · rw [hnil] at hin
      exact absurd hin List.not_mem_nil
    · exact hin

/-! ## What is taken when nothing fails -/

theorem reportCount_append (addr : List UInt8) (as bs : List LinkReply) :
    reportCount addr (as ++ bs) = reportCount addr as + reportCount addr bs := List.countP_append

theorem reportCount_reportsOf (addr : List UInt8) (replies : List LinkReply) :
    reportCount addr (reportsOf replies) = reportCount addr replies := by
  rw [reportCount, reportsOf, List.countP_filter, reportCount]
  refine List.countP_congr fun reply _ => ?_
  cases hreply : reply.reported <;> simp

theorem reportsOf_append (as bs : List LinkReply) : reportsOf (as ++ bs) = reportsOf as ++ reportsOf bs :=
  List.filter_append ..

/-- The replies of a buffer before one without an address. -/
def heardIn (buf : List LinkReply) : List LinkReply := buf.takeWhile fun reply => reply.reported.isSome

theorem reportCount_heardIn_le (addr : List UInt8) (buf : List LinkReply) :
    reportCount addr (heardIn buf) ≤ reportCount addr (reportsOf buf) := by
  rw [reportCount_reportsOf]
  exact (List.takeWhile_sublist _).countP_le

theorem reportsOf_heardIn (buf : List LinkReply) : reportsOf (heardIn buf) = heardIn buf :=
  List.filter_eq_self.mpr (List.all_eq_true.mp List.all_takeWhile)

theorem reportsOf_split (buf : List LinkReply) :
    reportsOf buf = heardIn buf ++ reportsOf (buf.dropWhile fun reply => reply.reported.isSome) := by
  conv_rhs => rw [← reportsOf_heardIn, heardIn, ← reportsOf_append, List.takeWhile_append_dropWhile]

/-- When an entry can be had for each report, nothing but a missing address ends the work on a buffer. -/
theorem takenIn_eq (buf : List LinkReply) {earlier taken later : List LinkReply}
    (hroom : ¬ OutOfMemory prev (earlier ++ (reportsOf buf ++ later)))
    (hle : ∀ addr, reportCount addr taken ≤ reportCount addr earlier) : takenIn prev taken buf = heardIn buf := by
  induction buf generalizing earlier taken with
  | nil => rfl
  | cons reply buf ih =>
    rw [takenIn, heardIn, List.takeWhile_cons]
    cases hreply : reply.reported with
    | none =>
      have hget : obtainable prev taken reply = false := by rw [obtainable, hreply]
      simp [hget]
    | some addr =>
      have hcons : reportsOf (reply :: buf) = reply :: reportsOf buf := by simp [reportsOf, hreply]
      rw [hcons, List.cons_append] at hroom
      have hget : obtainable prev taken reply = true := by
        rw [obtainable_eq prev hreply]
        by_contra hnot
        simp only [Bool.or_eq_true, decide_eq_true_eq, not_or, not_lt, Bool.not_eq_true, Option.isSome_eq_false_iff,
          Option.isNone_iff_eq_none] at hnot
        exact hroom ⟨earlier, reply, _, addr, rfl, hreply, hnot.1.trans (hle addr), hnot.2⟩
      have hle' : ∀ a, reportCount a (taken ++ [reply]) ≤ reportCount a (earlier ++ [reply]) := fun a => by
        rw [reportCount_append, reportCount_append]
        exact Nat.add_le_add_right (hle a) _
      have hnext := @ih (earlier ++ [reply]) (taken ++ [reply]) (by simpa using hroom) hle'
      rw [hget, if_pos rfl, hnext]
      rfl

theorem takenFrom_eq (parts : List (List LinkReply)) {earlier taken later : List LinkReply}
    (hroom : ¬ OutOfMemory prev (earlier ++ (reportsOf parts.flatten ++ later)))
    (hle : ∀ addr, reportCount addr taken ≤ reportCount addr earlier) :
    takenFrom prev taken parts = taken ++ parts.flatMap heardIn ∧
      ∀ addr, reportCount addr (takenFrom prev taken parts) ≤ reportCount addr (earlier ++ reportsOf parts.flatten) := by
  induction parts generalizing earlier taken with
  | nil => exact ⟨(List.append_nil _).symm, by simpa [takenFrom, reportsOf] using hle⟩
  | cons part parts ih =>
    rw [List.flatten_cons, reportsOf_append, List.append_assoc] at hroom
    have hpart := takenIn_eq part hroom hle
    have hmore : ∀ addr, reportCount addr (taken ++ heardIn part) ≤ reportCount addr (earlier ++ reportsOf part) := by
      intro addr
      rw [reportCount_append, reportCount_append]
      exact Nat.add_le_add (hle addr) (reportCount_heardIn_le addr part)
    obtain ⟨heq, hcount⟩ := ih (by simpa using hroom) hmore
    rw [takenFrom, hpart]
    refine ⟨by rw [heq, List.flatMap_cons, List.append_assoc], fun addr => ?_⟩
    rw [List.flatten_cons, reportsOf_append, ← List.append_assoc]
    exact hcount addr

theorem flatMap_heardIn_iff (parts : List (List LinkReply)) :
    (parts.flatMap heardIn).length = (reportsOf parts.flatten).length ↔
      ∀ part ∈ parts, reportsOf (part.dropWhile fun reply => reply.reported.isSome) = [] := by
  have hle : ∀ ps : List (List LinkReply), (ps.flatMap heardIn).length ≤ (reportsOf ps.flatten).length := by
    intro ps
    induction ps with
    | nil => exact le_rfl
    | cons p ps ih =>
      rw [List.flatMap_cons, List.flatten_cons, reportsOf_append, reportsOf_split p, List.length_append,
        List.length_append, List.length_append]
      omega
  induction parts with
  | nil => simp [reportsOf]
  | cons part parts ih =>
    have hrest := hle parts
    rw [List.forall_mem_cons, List.flatMap_cons, List.flatten_cons, reportsOf_append, reportsOf_split part,
      List.length_append, List.length_append, List.length_append]
    constructor
    · intro h
      exact ⟨List.length_eq_zero_iff.mp (by omega), ih.mp (by omega)⟩
    · rintro ⟨hnil, hall⟩
      rw [hnil, List.length_nil, Nat.add_zero, ih.mpr hall]

theorem flatMap_heardIn_eq {parts : List (List LinkReply)}
    (h : ∀ part ∈ parts, reportsOf (part.dropWhile fun reply => reply.reported.isSome) = []) :
    parts.flatMap heardIn = reportsOf parts.flatten := by
  induction parts with
  | nil => rfl
  | cons part parts ih =>
    obtain ⟨hpart, hparts⟩ := List.forall_mem_cons.mp h
    rw [List.flatMap_cons, List.flatten_cons, reportsOf_append, ih hparts, reportsOf_split part, hpart, List.append_nil]

/-- The entries are those for all reports exactly when no reports are dropped. -/
theorem entries_taken_iff {answer : Answer} (hroom : ¬ OutOfMemory prev (reportsOf answer.replies))
    (hends : takenIn prev (takenFrom prev [] answer.parts) answer.last = answer.last) :
    entries prev (takenFrom prev [] answer.parts ++ answer.last) = entries prev (reportsOf answer.replies) ↔
      ∀ part ∈ answer.parts, reportsOf (part.dropWhile fun reply => reply.reported.isSome) = [] := by
  rw [Answer.replies, reportsOf_append] at hroom ⊢
  obtain ⟨htaken, hcount⟩ := @takenFrom_eq prev answer.parts [] [] _ hroom fun _ => le_rfl
  have hlast : reportsOf answer.last = answer.last := by
    have hheard := @takenIn_eq prev answer.last (reportsOf answer.parts.flatten) _ []
      (by simpa using hroom) hcount
    rw [hends] at hheard
    rw [hheard, reportsOf_heardIn]
  rw [htaken, List.nil_append, hlast]
  constructor
  · intro h
    have hlen := congrArg List.length h
    rw [length_entries, length_entries, List.length_append, List.length_append] at hlen
    exact (flatMap_heardIn_iff answer.parts).mp (by omega)
  · intro h
    rw [flatMap_heardIn_eq h]

theorem result_of_not_fails {ex : Exchange} (h : ¬ Fails prev ex) : ex.answer.final.result = 0 := by
  cases hfinal : ex.answer.final with
  | done => rfl
  | ack => rfl
  | error e neg => exact absurd (.inr (.inr (.inr (.inl ⟨e, neg, hfinal⟩)))) h

/-- A call that gets an answer does what it should exactly when nothing of it is dropped that is needed. -/
theorem refreshed_of_asked (hnodup : (prev.map ClientLink.ptr).Nodup) {ex : Exchange} (hasked : ex.Asked)
    (hfresh : ∀ reply ∈ ex.answer.replies, reply.Fresh prev) :
    Refreshed prev ex ↔ NothingDropped prev ex.answer (Fails prev ex) := by
  have hcall := @updateLinks_asked prev ex hasked
  have hcases := answer_cases ex.answer hfresh hnodup
  split at hcases
  · rename_i hends
    obtain ⟨multipart, cb, hmoved, hloop⟩ := hcases
    rw [hloop, Option.map_some] at hcall
    have hroom : ¬ Fails prev ex → ¬ OutOfMemory prev (reportsOf ex.answer.replies) :=
      fun h hoom => h (.inr (.inr (.inr (.inr hoom))))
    constructor
    · rintro ⟨rc, list, hrun, hfail, hok⟩
      obtain rfl : list = cb.list := by
        rw [hcall] at hrun
        split at hrun <;> exact (congrArg Prod.snd (Option.some.inj hrun)).symm
      refine ⟨hends, fun h => (moved_all_iff hmoved).mp (hfail h), fun h => ?_⟩
      refine (entries_taken_iff (hroom h) hends).mp ?_
      rw [← hmoved.list]
      exact (hok h).2
    · intro h
      refine ⟨if ex.answer.final.result < 0 then ex.answer.final.result else 0, cb.list, ?_, fun hf => ?_, fun hs => ⟨?_, ?_⟩⟩
      · rw [hcall]
        dsimp only
        split <;> rfl
      · exact (moved_all_iff hmoved).mpr (h.failing hf)
      · rw [result_of_not_fails hs]
        rfl
      · rw [hmoved.list]
        exact (entries_taken_iff (hroom hs) hends).mpr (h.succeeding hs)
  · rename_i hends
    rw [hcases] at hcall
    constructor
    · rintro ⟨rc, list, hrun, -⟩
      rw [hcall] at hrun
      cases hrun
    · intro h
      exact absurd h.ends hends

end Call

end Neufbox.Wprobe
